import Hypergraph.Reading.Activity

/-! Where an activity entry can be (kept, waiting, being checked or looked up), what excuses a
member from having it, and what each action leaves of that.
-/

namespace Hypergraph.Reading.Activity

open Js Encodings

variable {block : Key → Nat → Option Block} {s s' : Activity} {e other : Entry}
  {list : Option Nat}

-- Where an entry can be

def IsTrue (block : Key → Nat → Option Block) (s : Activity) (e : Entry) : Prop :=
  e.Holds (block e.log) (s.limits e.log)

instance : Decidable (IsTrue block s e) := inferInstanceAs (Decidable (e.Holds _ _))

def Waits (s : Activity) (e : Entry) : Prop := ∃ w ∈ s.waiting.get? e.slot, w.e = e

/-- What is kept of its log and period is being looked up. -/
def Looking (s : Activity) (e : Entry) : Prop := ∃ call ∈ s.calls, call.e = e ∧ call.stage = .looking

/-- The entry waits for its check, or is being checked. -/
def Pursued (s : Activity) (e : Entry) : Prop := Waits s e ∨ e ∈ s.checking ∨ Looking s e

def Accounted (s : Activity) (e : Entry) : Prop := s.Kept e ∨ Pursued s e

/-- An entry of the log and period with no later a start is kept; or the entry, or another true
one that starts no later, waits or is being checked.
-/
def Covered (block : Key → Nat → Option Block) (s : Activity) (e : Entry) : Prop :=
  s.Kept e ∨ ∃ other : Entry, other.slot = e.slot ∧ other.start ≤ e.start
    ∧ IsTrue block s other ∧ Pursued s other

-- What excuses a member, and what loses an entry

/-- The entry that an action hands to `wait`. -/
def comesToWait (block : Key → Nat → Option Block) (s : Activity) : Action → Option Entry
  | .looked i =>
      match s.calls[i]? with
      | some ⟨e, .looking, _⟩ =>
          if s.Kept e ∨ e.log ∈ s.logs ∨ e.log ∈ s.refused then none else some e
      | _ => none
  | .atStart i available =>
      match s.calls[i]? with
      | some ⟨e, .atStart before, _⟩ =>
          let at_ := if available then block e.log e.start else none
          if checkEntry e before at_ (s.limits e.log) = .wait then some e else none
      | _ => none
  | _ => none

/-- The action drops an entry for want of room: `reachedFrom` goes back to Infinity. -/
def Resets (block : Key → Nat → Option Block) (s : Activity) (action : Action) : Prop :=
  ∃ e ∈ comesToWait block s action, s.waiting.get? e.slot = none
    ∧ MAX_WAITING ≤ s.waiting.entries.length

def Action.retries : Action → Bool
  | .retry _ _ => true
  | _ => false

/-- The entry itself waited WAIT_MS. -/
def WaitedOut (s : Activity) (e : Entry) (action : Action) : Prop :=
  action.retries ∧ ∃ w ∈ s.waiting.get? e.slot, w.e = e ∧ s.timesOut w

/-- The action, or what stands before it, ends what the member owes the entry: it isn't true,
its log is refused, `reachedFrom` goes back to Infinity or the entry waited WAIT_MS.
-/
def Excuses (block : Key → Nat → Option Block) (s : Activity) (action : Action) (e : Entry)
    : Prop :=
  ¬ IsTrue block s e ∨ e.log ∈ (s.step block action).refused ∨ Resets block s action
    ∨ WaitedOut s e action

/-- One of the actions excuses the member. -/
def Excused (block : Key → Nat → Option Block) (e : Entry) : Activity → List Action → Prop
  | _, [] => False
  | s, action :: later => Excuses block s action e ∨ Excused block e (s.step block action) later

/-- Where an entry comes to wait while another one of its log and period waits, the one with the
higher start, which loses its place, isn't true.
-/
def SparesTrue (block : Key → Nat → Option Block) (s : Activity) (action : Action) : Prop :=
  ∀ e ∈ comesToWait block s action, ∀ w ∈ s.waiting.get? e.slot, w.e ≠ e →
    ¬ IsTrue block s (if e.start < w.e.start then w.e else e)

def AlwaysSparesTrue (block : Key → Nat → Option Block) : Activity → List Action → Prop
  | _, [] => True
  | s, action :: later =>
      SparesTrue block s action ∧ AlwaysSparesTrue block (s.step block action) later

-- What each operation keeps

/-- `s'` has every entry `s` has, where it is. -/
structure Grows (s s' : Activity) : Prop where
  kept : ∀ e, s.Kept e → s'.Kept e
  waiting : s'.waiting = s.waiting
  checking : ∀ e ∈ s.checking, e ∈ s'.checking
  calls : ∀ call ∈ s.calls, call ∈ s'.calls

theorem Grows.refl (s : Activity) : Grows s s :=
  ⟨fun _ kept => kept, rfl, fun _ listed => listed, fun _ listed => listed⟩

theorem Grows.same (kept : s'.kept = s.kept) (waiting : s'.waiting = s.waiting)
    (checking : s'.checking = s.checking) (calls : s'.calls = s.calls) : Grows s s' where
  kept := fun e here => by
    unfold Activity.Kept
    rwa [kept]
  waiting := waiting
  checking := fun e listed => checking ▸ listed
  calls := fun call listed => calls ▸ listed

theorem Grows.trans {s'' : Activity} (first : Grows s s') (second : Grows s' s'')
    : Grows s s'' where
  kept := fun e kept => second.kept e (first.kept e kept)
  waiting := second.waiting.trans first.waiting
  checking := fun e listed => second.checking e (first.checking e listed)
  calls := fun call listed => second.calls call (first.calls call listed)

theorem Grows.looking (grows : Grows s s') (looking : Looking s e) : Looking s' e := by
  obtain ⟨call, listed, same, stage⟩ := looking
  exact ⟨call, grows.calls call listed, same, stage⟩

theorem Accounted.grow (accounted : Accounted s e) (grows : Grows s s') : Accounted s' e := by
  rcases accounted with kept | waits | checking | looking
  · exact .inl (grows.kept e kept)
  · apply Or.inr
    apply Or.inl
    unfold Waits at waits ⊢
    rwa [grows.waiting]
  · exact .inr (.inr (.inl (grows.checking e checking)))
  · exact .inr (.inr (.inr (grows.looking looking)))

theorem grows_receive (s : Activity) (e : Entry) (list : Option Nat)
    : Grows s (s.receive e list) := by
  unfold receive
  split
  · exact .refl s
  · refine ⟨fun _ kept => kept, rfl, fun _ listed => listed, fun call listed => ?_⟩
    exact List.mem_append_left _ listed

theorem grows_receiveAll (s : Activity) (entries : List Entry) (list : Option Nat)
    : Grows s (s.receiveAll entries list) := by
  induction entries generalizing s with
  | nil => exact .refl s
  | cons e rest ih => exact (grows_receive s e list).trans (ih (s.receive e list))

theorem accounted_receive (s : Activity) (e : Entry) (list : Option Nat)
    : Accounted (s.receive e list) e := by
  unfold receive
  split
  · rename_i checking
    exact .inr (.inr (.inl checking))
  · exact .inr (.inr (.inr ⟨⟨e, .looking, list⟩, List.mem_append_right _ (List.mem_singleton_self _),
      rfl, rfl⟩))

theorem accounted_receiveAll {entries : List Entry} (received : e ∈ entries) (s : Activity)
    : Accounted (s.receiveAll entries list) e := by
  induction entries generalizing s with
  | nil => cases received
  | cons first rest ih =>
      rcases List.mem_cons.mp received with rfl | later
      · exact (accounted_receive s e list).grow (grows_receiveAll _ rest list)
      · exact ih later (s.receive first list)

theorem kept_keep (s : Activity) (e : Entry) : (s.keep e).Kept e := by
  unfold keep
  split
  · assumption
  · exact ⟨e.start, by simp, Nat.le_refl _⟩

theorem grows_keep (s : Activity) (e : Entry) : Grows s (s.keep e) := by
  unfold keep
  split
  · exact .refl s
  · rename_i later
    refine ⟨?_, rfl, fun _ listed => listed, fun _ listed => listed⟩
    intro other kept
    obtain ⟨start, found, early⟩ := kept
    by_cases same : other.slot = e.slot
    · refine ⟨e.start, by simp [same], ?_⟩
      have after_ : ¬ start ≤ e.start := fun here => later ⟨start, same ▸ found, here⟩
      omega
    · exact ⟨start, by simpa [same] using found, early⟩

theorem grows_askNext (s : Activity) (channels : List Nat) : Grows s (s.askNext channels) := by
  unfold askNext
  repeat' split
  all_goals exact .same rfl rfl rfl rfl

theorem grows_ask (s : Activity) (from_ : Nat) (channels : List Nat)
    : Grows s (s.ask from_ channels) := by
  unfold ask
  repeat' split
  · exact .refl s
  · refine Grows.trans ?_ (grows_askNext _ channels)
    exact .same rfl rfl rfl rfl
  · exact grows_askNext s channels

theorem grows_onListEnd (s : Activity) (answer : Answer) (channels : List Nat)
    : Grows s (s.onListEnd answer channels) := by
  have reached : ∀ reached : ℕ∞, Grows s (s.reach reached) := by
    intro reached
    unfold reach
    split
    · exact .same rfl rfl rfl rfl
    · exact .refl s
  have next : ∀ (s : Activity) (from_ : Nat), Grows s
      (if from_ < s.reachedFrom then s.askNext channels else { s with asking := none }) := by
    intro s from_
    split
    · exact grows_askNext s channels
    · exact .same rfl rfl rfl rfl
  unfold onListEnd
  split
  · exact .refl s
  · split
    · exact (reached _).trans (next _ _)
    · exact .refl s

/-- An entry that comes to wait waits, where no other holds its place and there is room. -/
theorem waits_wait (room : s.waiting.get? e.slot = none → s.waiting.entries.length < MAX_WAITING)
    (first : ∀ w ∈ s.waiting.get? e.slot, w.e ≠ e → e.start < w.e.start)
    : Waits (s.wait e) e := by
  unfold wait
  split
  · rename_i w found
    split
    · exact ⟨⟨e, s.now⟩, by simp, rfl⟩
    · rename_i later
      refine ⟨w, found, ?_⟩
      by_contra apart
      exact later (first w found apart)
  · rename_i free
    rw [if_pos (room free)]
    exact ⟨⟨e, s.now⟩, by simp, rfl⟩

/-- Another entry that comes to wait takes the place of none but one that starts later. -/
theorem accounted_wait_of (accounted : Accounted s e)
    (spared : ∀ w ∈ s.waiting.get? other.slot, w.e = e → ¬ other.start < w.e.start)
    : Accounted (s.wait other) e := by
  have put : ∀ new : Waiter, (e.slot = other.slot → ¬ Waits s e)
      → Accounted { s with waiting := s.waiting.put other.slot new } e := by
    intro new apart
    rcases accounted with kept | ⟨w, found, same⟩ | pursued
    · exact .inl kept
    · have elsewhere : e.slot ≠ other.slot := fun here => apart here ⟨w, found, same⟩
      exact .inr (.inl ⟨w, by simpa [elsewhere] using found, same⟩)
    · exact .inr (.inr pursued)
  unfold wait
  split
  · rename_i w found
    split
    · rename_i earlier
      apply put
      intro here waits
      obtain ⟨w', found', same⟩ := waits
      rw [here, found] at found'
      cases found'
      exact spared w found same earlier
    · exact accounted
  · rename_i free
    split
    · apply put
      intro here waits
      obtain ⟨w', found', same⟩ := waits
      rw [here, free] at found'
      cases found'
    · exact accounted

/-- The end of a call that looked at another entry, or further on in its check, leaves the
entry where it is.
-/
theorem accounted_without {i : Nat} {call : Call} (accounted : Accounted s e)
    (taken : s.calls[i]? = some call) (further : call.e = e → call.stage ≠ .looking)
    : Accounted (s.without i) e := by
  rcases accounted with kept | waits | checking | ⟨mine, listed, same, stage⟩
  · exact .inl kept
  · exact .inr (.inl waits)
  · exact .inr (.inr (.inl checking))
  · refine .inr (.inr (.inr ⟨mine, ?_, same, stage⟩))
    obtain ⟨j, bound, here⟩ := List.mem_iff_getElem.mp listed
    refine List.mem_eraseIdx_iff_getElem.mpr ⟨j, bound, ?_, here⟩
    rintro rfl
    rw [List.getElem?_eq_getElem bound, here] at taken
    cases taken
    exact further same stage

theorem accounted_checked (accounted : Accounted s e) (apart : e ≠ other)
    : Accounted (s.checked other) e := by
  rcases accounted with kept | waits | checking | looking
  · exact .inl kept
  · exact .inr (.inl waits)
  · exact .inr (.inr (.inl (by simpa [checked, apart] using checking)))
  · exact .inr (.inr (.inr looking))

theorem checked_of_held (held : s.Kept e ∨ Waits s e) : Accounted (s.checked other) e := by
  rcases held with kept | waits
  · exact .inl kept
  · exact .inr (.inl waits)

theorem accounted_unwait {out : Waiter → Bool} (accounted : Accounted s e)
    (stays : ∀ w ∈ s.waiting.get? other.slot, w.e = e → e.slot = other.slot → out w = false)
    : Accounted (s.unwait other out) e := by
  unfold unwait
  split
  · rename_i goes
    rcases accounted with kept | ⟨w, found, same⟩ | pursued
    · exact .inl kept
    · by_cases here : e.slot = other.slot
      · rw [here] at found
        rw [Option.mem_def.mp found, Option.any_some, stays w found same here] at goes
        cases goes
      · exact .inr (.inl ⟨w, by simpa [here] using found, same⟩)
    · exact .inr (.inr pursued)
  · exact accounted

theorem same_of_start {e other : Entry} (slot : e.slot = other.slot) (start : e.start = other.start)
    : e = other := by
  obtain ⟨log, period, start⟩ := e
  obtain ⟨log', period', start'⟩ := other
  cases slot
  cases start
  rfl

-- A call goes on

/-- An entry whose lookup is answered is kept, checked or waits, unless its log is refused or
there is no room.
-/
theorem accounted_look (open_ : e.log ∉ s.refused)
    (room : ¬ (s.Kept e ∨ e.log ∈ s.logs ∨ e.log ∈ s.refused) → s.waiting.get? e.slot = none
      → s.waiting.entries.length < MAX_WAITING)
    (first : ¬ (s.Kept e ∨ e.log ∈ s.logs ∨ e.log ∈ s.refused) →
      ∀ w ∈ s.waiting.get? e.slot, w.e ≠ e → e.start < w.e.start)
    : Accounted (s.look e list) e := by
  unfold look
  split
  · rename_i kept
    exact .inl kept
  · rename_i missing
    split
    · refine .inr (.inr (.inl ?_))
      split
      · assumption
      · exact List.mem_append_right _ (List.mem_singleton_self e)
    · rename_i unknown
      have reaches : ¬ (s.Kept e ∨ e.log ∈ s.logs ∨ e.log ∈ s.refused) := by
        rintro (kept | known | refused)
        · exact missing kept
        · exact unknown known
        · exact open_ refused
      exact .inr (.inl (waits_wait (room reaches) (first reaches)))

theorem accounted_look_of (accounted : Accounted s e)
    (spared : ¬ (s.Kept other ∨ other.log ∈ s.logs ∨ other.log ∈ s.refused) →
      ∀ w ∈ s.waiting.get? other.slot, w.e = e → ¬ other.start < w.e.start)
    : Accounted (s.look other list) e := by
  unfold look
  split
  · exact accounted
  · rename_i missing
    split
    · refine accounted.grow ⟨fun _ kept => kept, rfl, fun e listed => ?_, fun call listed => ?_⟩
      · split
        · exact listed
        · exact List.mem_append_left _ listed
      · exact List.mem_append_left _ listed
    · rename_i unknown
      split
      · exact accounted
      · rename_i open_
        apply accounted_wait_of accounted
        apply spared
        rintro (kept | known | refused)
        · exact missing kept
        · exact unknown known
        · exact open_ refused

/-- A true entry whose check is answered is to be kept, or waits, unless there is no room. -/
theorem accounted_judge {before at_ : Option Block} (accounted : Accounted s e)
    (never_false : checkEntry e before at_ (s.limits e.log) ≠ .false)
    (room : checkEntry e before at_ (s.limits e.log) = .wait → s.waiting.get? e.slot = none
      → s.waiting.entries.length < MAX_WAITING)
    (first : checkEntry e before at_ (s.limits e.log) = .wait →
      ∀ w ∈ s.waiting.get? e.slot, w.e ≠ e → e.start < w.e.start)
    : Accounted (s.judge e list before at_) e := by
  unfold judge
  split
  · rename_i waits
    exact checked_of_held (.inr (waits_wait (room waits) (first waits)))
  · refine accounted.grow ⟨fun _ kept => kept, rfl, fun _ listed => listed, fun call listed => ?_⟩
    exact List.mem_append_left _ listed
  · rename_i false_
    exact absurd false_ never_false

theorem accounted_judge_of {before at_ : Option Block} (accounted : Accounted s e)
    (apart : e ≠ other)
    (spared : checkEntry other before at_ (s.limits other.log) = .wait →
      ∀ w ∈ s.waiting.get? other.slot, w.e = e → ¬ other.start < w.e.start)
    : Accounted (s.judge other list before at_) e := by
  unfold judge
  split
  · rename_i waits
    exact accounted_checked (accounted_wait_of accounted (spared waits)) apart
  · refine accounted.grow ⟨fun _ kept => kept, rfl, fun _ listed => listed, fun call listed => ?_⟩
    exact List.mem_append_left _ listed
  · apply accounted_checked _ apart
    apply accounted_unwait accounted
    intro w found same slot
    have start : e.start ≠ other.start := fun start => apart (same_of_start slot start)
    rw [same]
    exact decide_eq_false start

/-- An entry is written: it is kept, and whatever waits behind it is covered by it. -/
theorem accounted_keeping (accounted : Accounted s e) : Accounted (s.keeping other) e := by
  have kept := kept_keep s other
  have unwaited : ∀ e, (s.keep other).Kept e
      → ((s.keep other).unwait other fun w => other.start ≤ w.e.start).Kept e := by
    intro e here
    unfold unwait
    split <;> exact here
  by_cases same : e = other
  · subst same
    exact checked_of_held (.inl (unwaited e kept))
  · by_cases covered : e.slot = other.slot ∧ other.start ≤ e.start
    · apply checked_of_held
      apply Or.inl
      apply unwaited
      obtain ⟨start, found, early⟩ := kept
      exact ⟨start, covered.1 ▸ found, Nat.le_trans early covered.2⟩
    · apply accounted_checked _ same
      apply accounted_unwait (accounted.grow (grows_keep s other))
      intro w found here slot
      rw [here]
      exact decide_eq_false fun early => covered ⟨slot, early⟩

-- A retry

theorem retryOne_waiting (entry : Slot × Waiter) {slot : Slot} {w : Waiter}
    (found : (s.retryOne entry).waiting.get? slot = some w) : s.waiting.get? slot = some w := by
  unfold retryOne at found
  split at found
  · simp only [Dict.get?_remove] at found
    split at found
    · cases found
    · exact found
  · split at found
    · rwa [(grows_receive s entry.2.e none).waiting] at found
    · exact found

theorem retryOne_now (s : Activity) (entry : Slot × Waiter) : (s.retryOne entry).now = s.now := by
  unfold retryOne receive
  repeat' split
  all_goals rfl

/-- A retry drops an entry only where it waited too long. -/
theorem accounted_retryOne {entry : Slot × Waiter} (accounted : Accounted s e)
    (waits : ∀ w ∈ s.waiting.get? entry.1, w = entry.2)
    (stays : entry.1 = e.slot → entry.2.e = e → s.timesOut entry.2 = false)
    : Accounted (s.retryOne entry) e := by
  unfold retryOne
  split
  · rename_i out
    rcases accounted with kept | ⟨w, found, same⟩ | pursued
    · exact .inl kept
    · by_cases here : e.slot = entry.1
      · have this := waits w (here ▸ found)
        rw [stays here.symm (this ▸ same)] at out
        cases out
      · exact .inr (.inl ⟨w, by simpa [here] using found, same⟩)
    · exact .inr (.inr pursued)
  · split
    · exact accounted.grow (grows_receive s _ none)
    · exact accounted

theorem accounted_retryAll {entries : List (Slot × Waiter)} (accounted : Accounted s e)
    (waits : ∀ entry ∈ entries, ∀ w ∈ s.waiting.get? entry.1, w = entry.2)
    (stays : ∀ entry ∈ entries, entry.1 = e.slot → entry.2.e = e → s.timesOut entry.2 = false)
    : Accounted (entries.foldl retryOne s) e := by
  induction entries generalizing s with
  | nil => exact accounted
  | cons first rest ih =>
      have here := accounted_retryOne accounted (waits first List.mem_cons_self)
        (stays first List.mem_cons_self)
      apply ih here
      · intro entry listed w found
        exact waits entry (List.mem_cons_of_mem _ listed) w (retryOne_waiting first found)
      · intro entry listed slot same
        have stays := stays entry (List.mem_cons_of_mem _ listed) slot same
        unfold timesOut at stays ⊢
        rwa [retryOne_now]

theorem accounted_retry {horizon : Option Nat} {channels : List Nat} (accounted : Accounted s e)
    (stays : ∀ w ∈ s.waiting.get? e.slot, w.e = e → s.timesOut w = false)
    : Accounted (s.retry horizon channels) e := by
  have all : Accounted (s.waiting.entries.foldl retryOne s) e := by
    apply accounted_retryAll accounted
    · intro entry listed w found
      have here := Dict.mem_entries_iff.mp listed
      rw [here] at found
      exact (Option.some.inj found).symm
    · intro entry listed slot same
      exact stays entry.2 (slot ▸ Dict.mem_entries_iff.mp listed) same
  unfold retry
  dsimp only
  split
  · split
    · exact all.grow (grows_ask _ _ channels)
    · exact all.grow (grows_askNext _ channels)
  · exact all.grow (grows_askNext _ channels)

-- One action, and a run

/-- A true entry handed to `wait` takes the place of any other waiting there. -/
theorem SparesTrue.first {action : Action} (spares : SparesTrue block s action)
    (comes : comesToWait block s action = some e) (true_ : IsTrue block s e)
    : ∀ w ∈ s.waiting.get? e.slot, w.e ≠ e → e.start < w.e.start := by
  intro w found apart
  by_contra later
  have spared := spares e comes w found apart
  rw [if_neg later] at spared
  exact spared true_

/-- None handed to `wait` takes the place of a true entry. -/
theorem SparesTrue.spared {action : Action} (spares : SparesTrue block s action)
    (comes : comesToWait block s action = some other) (true_ : IsTrue block s e) (apart : e ≠ other)
    : ∀ w ∈ s.waiting.get? other.slot, w.e = e → ¬ other.start < w.e.start := by
  intro w found same earlier
  have spared := spares other comes w found (same ▸ apart)
  rw [if_pos earlier, same] at spared
  exact spared true_

/-- The room an entry needs to wait, where the action doesn't reset what was reached. -/
theorem room_of_kept {action : Action} (keeps : ¬ Resets block s action)
    (comes : comesToWait block s action = some e) (free : s.waiting.get? e.slot = none)
    : s.waiting.entries.length < MAX_WAITING := by
  by_contra full
  exact keeps ⟨e, comes, free, Nat.not_lt.mp full⟩

theorem refused_look (s : Activity) (e : Entry) (list : Option Nat)
    : (s.look e list).refused = s.refused := by
  unfold look wait
  repeat' split
  all_goals rfl

theorem accounted_looked {i : Nat} (accounted : Accounted s e)
    (spares : SparesTrue block s (.looked i)) (true_ : IsTrue block s e)
    (open_ : e.log ∉ (s.step block (.looked i)).refused) (keeps : ¬ Resets block s (.looked i))
    : Accounted (s.step block (.looked i)) e := by
  simp only [step] at open_ ⊢
  split at open_
  · rename_i other list taken
    rw [refused_look] at open_
    have comes : ¬ (s.Kept other ∨ other.log ∈ s.logs ∨ other.log ∈ s.refused)
        → comesToWait block s (.looked i) = some other := by
      intro reaches
      unfold comesToWait
      simp only [taken]
      exact if_neg reaches
    by_cases same : e = other
    · subst same
      apply accounted_look open_
      · intro reaches
        have room := room_of_kept keeps (comes reaches)
        exact room
      · intro reaches
        have first := spares.first (comes reaches) true_
        exact first
    · apply accounted_look_of
      · exact accounted_without accounted taken fun here => absurd here.symm same
      · exact fun reaches => spares.spared (comes reaches) true_ same
  · exact accounted

/-- What the call knows of the block before is what the log has there, or nothing. -/
def Shows (block : Key → Nat → Option Block) (call : Call) : Prop :=
  ∀ before, call.stage = .atStart before
    → before = none ∨ before = block call.e.log (call.e.start - 1)

theorem accounted_atStart {i : Nat} {available : Bool} (accounted : Accounted s e)
    (shows : ∀ call ∈ s.calls, Shows block call)
    (spares : SparesTrue block s (.atStart i available)) (true_ : IsTrue block s e)
    (keeps : ¬ Resets block s (.atStart i available))
    : Accounted (s.step block (.atStart i available)) e := by
  simp only [step]
  split
  · rename_i other before list taken
    have comes : checkEntry other before (if available then block other.log other.start else none)
          (s.limits other.log) = .wait
        → comesToWait block s (.atStart i available) = some other := by
      intro waits
      unfold comesToWait
      simp only [taken]
      exact if_pos waits
    have here := accounted_without accounted taken fun _ => by simp
    by_cases same : e = other
    · subst same
      apply accounted_judge here
      · apply Entry.Holds.not_false true_
        · exact shows _ (List.mem_of_getElem? taken) before rfl
        · cases available
          · exact .inl rfl
          · exact .inr rfl
      · intro waits
        have room := room_of_kept keeps (comes waits)
        exact room
      · intro waits
        have first := spares.first (comes waits) true_
        exact first
    · apply accounted_judge_of here same
      exact fun waits => spares.spared (comes waits) true_ same
  · exact accounted

theorem grows_onList (s : Activity) (channel : Nat) (from_ : ℕ∞) (entries : List Entry)
    (done : Bool) : Grows s (s.onList channel from_ entries done) := by
  refine Grows.trans ?_ (grows_receiveAll _ entries (some s.answered))
  exact .same rfl rfl rfl rfl

theorem grows_logAccepted (s : Activity) (log : Key) : Grows s (s.logAccepted log) := by
  refine Grows.trans ?_ (grows_receiveAll _ (s.waitingFor log) none)
  exact .same rfl rfl rfl rfl

/-- What an action does to a true entry that is accounted for. -/
theorem step_accounted {action : Action} (accounted : Accounted s e)
    (shows : ∀ call ∈ s.calls, Shows block call) (spares : SparesTrue block s action)
    : Excuses block s action e ∨ Accounted (s.step block action) e := by
  by_cases excused : Excuses block s action e
  · exact .inl excused
  obtain ⟨true_, open_, keeps, young⟩ : IsTrue block s e
      ∧ e.log ∉ (s.step block action).refused ∧ ¬ Resets block s action
      ∧ ¬ WaitedOut s e action := by
    simpa only [Excuses, not_or, not_not] using excused
  apply Or.inr
  cases action with
  | receive other => exact accounted.grow (grows_receive s other none)
  | list channel from_ entries done => exact accounted.grow (grows_onList s channel from_ entries done)
  | looked i => exact accounted_looked accounted spares true_ open_ keeps
  | before i available =>
      simp only [step]
      split
      · rename_i other list taken
        have here := accounted_without accounted taken fun _ => by simp
        refine here.grow ⟨fun _ kept => kept, rfl, fun _ listed => listed, fun call listed => ?_⟩
        exact List.mem_append_left _ listed
      · exact accounted
  | atStart i available => exact accounted_atStart accounted shows spares true_ keeps
  | kept i =>
      simp only [step]
      split
      · rename_i other list taken
        have here := accounted_without accounted taken fun _ => by simp
        exact accounted_keeping here
      · exact accounted
  | listed id channels =>
      simp only [step]
      split
      · split
        · exact accounted
        · apply Accounted.grow _ (grows_onListEnd _ _ channels)
          exact accounted.grow (.same rfl rfl rfl rfl)
      · exact accounted
  | accepted log => exact accounted.grow (grows_logAccepted s log)
  | refused log =>
      rcases accounted with kept | ⟨w, found, same⟩ | pursued
      · exact .inl kept
      · refine .inr (.inl ⟨w, ?_, same⟩)
        have elsewhere : e.log ≠ log := by
          rintro rfl
          exact open_ (List.mem_append_right _ (List.mem_singleton_self _))
        simpa [step, logRefused, Entry.slot, elsewhere] using found
      · exact .inr (.inr pursued)
  | dropped log | limit log limit | tick ms => exact accounted.grow (.same rfl rfl rfl rfl)
  | retry horizon channels =>
      apply accounted_retry accounted
      intro w found same
      by_contra out
      exact young ⟨rfl, w, found, same, by simpa using out⟩
  | ask from_ channels => exact accounted.grow (grows_ask s from_ channels)
  | channelOpened channels => exact accounted.grow (grows_askNext s channels)
  | derived other => exact accounted.grow (grows_keep s other)

end Hypergraph.Reading.Activity
