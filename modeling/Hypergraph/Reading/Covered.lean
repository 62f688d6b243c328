import Hypergraph.Reading.Accounted

/-! A true activity entry is kept, or waits, or is being checked, for as long as nothing excuses
the member; in every run in which none that comes to wait takes a true one's place, or finds its
own taken.
-/

namespace Hypergraph.Reading.Activity

open Js Encodings

variable {block : Key → Nat → Option Block} {s s' : Activity} {e : Entry}

-- What the calls know

/-- Every call of `s'` is one of `s`, or knows nothing yet of the block before. -/
def Adds (s s' : Activity) : Prop :=
  ∀ call ∈ s'.calls, call ∈ s.calls ∨ ∀ before, call.stage = .atStart before → before = none

theorem Adds.refl (s : Activity) : Adds s s := fun _ listed => .inl listed

theorem Adds.same (calls : s'.calls = s.calls) : Adds s s' := fun _ listed => .inl (calls ▸ listed)

theorem Adds.trans {s'' : Activity} (first : Adds s s') (second : Adds s' s'')
    : Adds s s'' := by
  intro call listed
  rcases second call listed with before | fresh
  · exact first call before
  · exact .inr fresh

theorem Adds.shows (adds : Adds s s') (shows : ∀ call ∈ s.calls, Shows block call)
    : ∀ call ∈ s'.calls, Shows block call := by
  intro call listed
  rcases adds call listed with before | fresh
  · exact shows call before
  · exact fun before stage => .inl (fresh before stage)

theorem adds_append {call : Call} (calls : s'.calls = s.calls ++ [call])
    (fresh : ∀ before, call.stage = .atStart before → before = none) : Adds s s' := by
  intro other listed
  rw [calls] at listed
  rcases List.mem_append.mp listed with before | last
  · exact .inl before
  · exact .inr (List.mem_singleton.mp last ▸ fresh)

theorem adds_receive (s : Activity) (e : Entry) (list : Option Nat)
    : Adds s (s.receive e list) := by
  unfold receive
  split
  · exact .refl s
  · exact adds_append rfl fun before stage => by cases stage

theorem adds_receiveAll (s : Activity) (entries : List Entry) (list : Option Nat)
    : Adds s (s.receiveAll entries list) := by
  induction entries generalizing s with
  | nil => exact .refl s
  | cons e rest ih => exact (adds_receive s e list).trans (ih (s.receive e list))

theorem adds_without (s : Activity) (i : Nat) : Adds s (s.without i) :=
  fun _ listed => .inl (List.mem_of_mem_eraseIdx listed)

theorem calls_wait (s : Activity) (e : Entry) : (s.wait e).calls = s.calls := by
  unfold wait
  repeat' split
  all_goals rfl

theorem calls_unwait (s : Activity) (e : Entry) (out : Waiter → Bool)
    : (s.unwait e out).calls = s.calls := by
  unfold unwait
  split <;> rfl

theorem calls_keep (s : Activity) (e : Entry) : (s.keep e).calls = s.calls := by
  unfold keep
  split <;> rfl

theorem calls_askNext (s : Activity) (channels : List Nat)
    : (s.askNext channels).calls = s.calls := by
  unfold askNext
  repeat' split
  all_goals rfl

theorem calls_ask (s : Activity) (from_ : Nat) (channels : List Nat)
    : (s.ask from_ channels).calls = s.calls := by
  unfold ask
  repeat' split
  · rfl
  · exact calls_askNext _ channels
  · exact calls_askNext s channels

theorem calls_onListEnd (s : Activity) (answer : Answer) (channels : List Nat)
    : (s.onListEnd answer channels).calls = s.calls := by
  have reached : ∀ reached : ℕ∞, (s.reach reached).calls = s.calls := by
    intro reached
    unfold reach
    split <;> rfl
  have next : ∀ (s : Activity) (from_ : Nat),
      (if from_ < s.reachedFrom then s.askNext channels
        else { s with asking := none }).calls = s.calls := by
    intro s from_
    split
    · exact calls_askNext s channels
    · rfl
  unfold onListEnd
  split
  · rfl
  · split
    · exact (next _ _).trans (reached _)
    · rfl

theorem adds_look (s : Activity) (e : Entry) (list : Option Nat) : Adds s (s.look e list) := by
  unfold look
  split
  · exact .refl s
  · split
    · apply adds_append rfl
      intro before stage
      split at stage
      · cases stage
      · cases stage
        rfl
    · split
      · exact .refl s
      · exact .same (calls_wait s e)

theorem adds_judge (s : Activity) (e : Entry) (list : Option Nat) (before at_ : Option Block)
    : Adds s (s.judge e list before at_) := by
  unfold judge
  split
  · exact .same (calls_wait s e)
  · exact adds_append rfl fun before stage => by cases stage
  · exact .same (calls_unwait s e _)

theorem adds_retryOne (s : Activity) (entry : Slot × Waiter) : Adds s (s.retryOne entry) := by
  unfold retryOne
  repeat' split
  · exact .same rfl
  · exact adds_receive s entry.2.e none
  · exact .refl s

theorem adds_retry (s : Activity) (horizon : Option Nat) (channels : List Nat)
    : Adds s (s.retry horizon channels) := by
  have all : ∀ entries : List (Slot × Waiter), ∀ s : Activity,
      Adds s (entries.foldl retryOne s) := by
    intro entries
    induction entries with
    | nil => exact Adds.refl
    | cons first rest ih => exact fun s => (adds_retryOne s first).trans (ih (s.retryOne first))
  unfold retry
  dsimp only
  repeat' split
  · exact (all _ s).trans (.same (calls_ask _ _ channels))
  · exact (all _ s).trans (.same (calls_askNext _ channels))
  · exact (all _ s).trans (.same (calls_askNext _ channels))

/-- A call knows of the block before what its log has there, or nothing, after any action. -/
theorem step_shows (action : Action) (shows : ∀ call ∈ s.calls, Shows block call)
    : ∀ call ∈ (s.step block action).calls, Shows block call := by
  cases action with
  | receive e => exact (adds_receive s e none).shows shows
  | list channel from_ entries done => exact (adds_receiveAll _ entries _).shows shows
  | looked i =>
      simp only [step]
      split
      · exact ((adds_without s i).trans (adds_look _ _ _)).shows shows
      · exact shows
  | before i available =>
      simp only [step]
      split
      · intro call listed
        rcases List.mem_append.mp listed with before | last
        · exact (adds_without s i).shows shows call before
        · obtain rfl := List.mem_singleton.mp last
          intro before stage
          cases stage
          cases available
          · exact .inl rfl
          · exact .inr rfl
      · exact shows
  | atStart i available =>
      simp only [step]
      split
      · exact ((adds_without s i).trans (adds_judge _ _ _ _ _)).shows shows
      · exact shows
  | kept i =>
      simp only [step]
      split
      · rename_i e list taken
        have calls : ((s.without i).keeping e).calls = (s.without i).calls :=
          (calls_unwait _ e _).trans (calls_keep _ e)
        exact ((adds_without s i).trans (.same calls)).shows shows
      · exact shows
  | listed id channels =>
      simp only [step]
      split
      · split
        · exact shows
        · exact (Adds.same (calls_onListEnd _ _ channels)).shows shows
      · exact shows
  | accepted log => exact (adds_receiveAll _ (s.waitingFor log) none).shows shows
  | refused log => exact shows
  | dropped log => exact shows
  | limit log limit => exact shows
  | retry horizon channels => exact (adds_retry s horizon channels).shows shows
  | ask from_ channels => exact (Adds.same (calls_ask s from_ channels)).shows shows
  | channelOpened channels => exact (Adds.same (calls_askNext s channels)).shows shows
  | derived e => exact (Adds.same (calls_keep s e)).shows shows
  | tick ms => exact shows

-- A false entry and a true one

/-- The entries an action receives from a peer. -/
def Action.received : Action → List Entry
  | .receive e => [e]
  | .list _ _ entries _ => entries
  | _ => []

theorem accounted_received {action : Action} (received : e ∈ action.received)
    : Accounted (s.step block action) e := by
  cases action with
  | receive other =>
      obtain rfl := List.mem_singleton.mp received
      exact accounted_receive s e none
  | list channel from_ entries done => exact accounted_receiveAll received _
  | _ => cases received

theorem run_shows (actions : List Action) (shows : ∀ call ∈ s.calls, Shows block call)
    : ∀ call ∈ (s.run block actions).calls, Shows block call := by
  induction actions generalizing s with
  | nil => exact shows
  | cons action later ih => exact ih (step_shows action shows)

theorem run_accounted {actions : List Action} (accounted : Accounted s e)
    (shows : ∀ call ∈ s.calls, Shows block call) (spares : AlwaysSparesTrue block s actions)
    : Excused block e s actions ∨ Accounted (s.run block actions) e := by
  induction actions generalizing s with
  | nil => exact .inr accounted
  | cons action later ih =>
      rcases step_accounted accounted shows spares.1 with excused | accounted
      · exact .inl (.inl excused)
      · rcases ih accounted (step_shows action shows) spares.2 with excused | accounted
        · exact .inl (.inr excused)
        · exact .inr accounted

/-- The lists are taken to be whole from a period on, in what `completeFrom` asks of them. -/
def Whole (s : Activity) (period : Nat) : Prop :=
  s.reachedFrom ≤ period ∧ s.waitingFrom period = false

theorem pursued_of_whole {period : Nat} (whole : Whole s period) (reads : period ≤ e.period)
    (pursued : Pursued s e) : Looking s e := by
  have none_ := whole.2
  simp only [waitingFrom, Bool.or_eq_false_iff, List.any_eq_false, decide_eq_true_eq] at none_
  rcases pursued with ⟨w, found, same⟩ | checking | looking
  · exact absurd (same ▸ reads) (none_.1 _ (Dict.mem_entries_iff.mpr found))
  · exact absurd reads (none_.2 e checking)
  · exact looking

/-- A space is opened: whatever is kept, and whichever logs it has, nothing is under way. -/
def opened (kept : Dict Slot Nat) (logs refused : List Key) (limits : Key → ℕ∞) : Activity :=
  { kept := kept, logs := logs, refused := refused, limits := limits }

/-- In every run, a true entry received (after `before`) is, whatever comes later, kept, or
waiting, or being checked, or the member is excused; and the lists are then only taken to be
whole with it kept, or about to be looked up. So long as an entry that comes to wait takes no
true one's place, nor finds its own taken.
-/
theorem true_entry_covered {kept : Dict Slot Nat} {logs refused : List Key} {limits : Key → ℕ∞}
    {before later : List Action} {action : Action} {e : Entry} (received : e ∈ action.received)
    (spares : AlwaysSparesTrue block
      ((opened kept logs refused limits).run block (before ++ [action])) later)
    : let at_ := (opened kept logs refused limits).run block (before ++ [action])
      let now := at_.run block later
      Excused block e at_ later ∨ ¬ IsTrue block now e
      ∨ Covered block now e
        ∧ ∀ period, period ≤ e.period → Whole now period → now.Kept e ∨ Looking now e := by
  intro at_ now
  have shows : ∀ call ∈ at_.calls, Shows block call :=
    run_shows _ fun call listed => by cases listed
  have here : Accounted at_ e := by
    have split_ : at_ = ((opened kept logs refused limits).run block before).step block action := by
      simp [at_, run, List.foldl_append]
    rw [split_]
    exact accounted_received received
  rcases run_accounted here shows spares with excused | accounted
  · exact .inl excused
  · by_cases true_ : IsTrue block now e
    · refine .inr (.inr ⟨?_, ?_⟩)
      · rcases accounted with kept | pursued
        · exact .inl kept
        · exact .inr ⟨e, rfl, Nat.le_refl _, true_, pursued⟩
      · intro period reads whole
        rcases accounted with kept | pursued
        · exact .inl kept
        · exact .inr (pursued_of_whole whole reads pursued)
    · exact .inr (.inl true_)

theorem not_covered_of_empty (kept : s.kept.entries = []) (waiting : s.waiting.entries = [])
    (checking : s.checking = []) (calls : s.calls = [])
    : ¬ Covered block s e := by
  rintro (⟨start, found, early⟩ | ⟨other, slot, early, true_, pursued⟩)
  · unfold Dict.get? at found
    rw [kept] at found
    cases found
  · rcases pursued with ⟨w, found, same⟩ | listed | ⟨call, listed, same⟩
    · unfold Dict.get? at found
      rw [waiting] at found
      cases found
    · rw [checking] at listed
      cases listed
    · rw [calls] at listed
      cases listed

instance {action : Action} : Decidable (Resets block s action) :=
  inferInstanceAs (Decidable (∃ e ∈ comesToWait block s action, _))

instance {action : Action} : Decidable (WaitedOut s e action) :=
  inferInstanceAs (Decidable (_ ∧ ∃ w ∈ s.waiting.get? e.slot, _))

instance {action : Action} : Decidable (Excuses block s action e) :=
  inferInstanceAs (Decidable (_ ∨ _))

instance decidableExcused : (s : Activity) → (actions : List Action)
    → Decidable (Excused block e s actions)
  | _, [] => instDecidableFalse
  | s, action :: later =>
      have := decidableExcused (s.step block action) later
      inferInstanceAs (Decidable (Excuses block s action e ∨ Excused block e _ later))

instance {action : Action} : Decidable (SparesTrue block s action) :=
  inferInstanceAs (Decidable (∀ e ∈ comesToWait block s action,
    ∀ w ∈ s.waiting.get? e.slot, w.e ≠ e → ¬ IsTrue block s (if e.start < w.e.start then w.e else e)))

/-- Blocks 1 to 4 of the log are in period 0, the fifth in period 1. -/
def fiveBlocks (_ : Key) (seq : Nat) : Option Block :=
  if seq = 0 ∨ 5 < seq then none else some (.stamped (seq / 5 * PERIOD_MS))

/-- An entry that comes before its log does, is checked once the log is accepted, and is kept. -/
theorem true_entry_covered_five
    : Covered fiveBlocks
        ((opened .empty [] [] fun _ => ⊤).run fiveBlocks
          [.receive ⟨[1], 1, 5⟩, .looked 0, .accepted [1], .looked 0, .before 0 true,
            .atStart 0 true, .kept 0]) ⟨[1], 1, 5⟩ := by
  have spares : AlwaysSparesTrue fiveBlocks
      ((opened .empty [] [] fun _ => ⊤).run fiveBlocks ([] ++ [.receive ⟨[1], 1, 5⟩]))
      [.looked 0, .accepted [1], .looked 0, .before 0 true, .atStart 0 true, .kept 0] := by
    refine ⟨?_, ?_, ?_, ?_, ?_, ?_, trivial⟩ <;> decide +kernel
  rcases true_entry_covered (List.mem_singleton_self _) spares with excused | untrue | covered
  · exact absurd excused (by decide +kernel)
  · exact absurd untrue (by decide +kernel)
  · exact covered.1

/-- A liar sends "the log's period 1 starts at block 1" first; a member is asked for its lists,
and answers with the true entry, at block 5.
-/
def lieFirst : List Action :=
  [.receive ⟨[1], 1, 1⟩, .looked 0, .ask 0 [7], .list 7 0 [⟨[1], 1, 5⟩] true]

/-- The true entry loses its place to the lie, the answer is whole, the log is accepted, and the
lie is found out.
-/
def foundOut : List Action := [.looked 0, .listed 0 [], .accepted [1], .looked 0, .atStart 0 true]

/-- The lists are taken to be whole, and the true entry of the log is not among them, nor waits,
nor is it being checked.
-/
theorem false_entry_costs_true
    : let e : Entry := ⟨[1], 1, 5⟩
      let at_ := (opened .empty [] [] fun _ => ⊤).run fiveBlocks lieFirst
      let now := at_.run fiveBlocks foundOut
      (∃ action, lieFirst.getLast? = some action ∧ e ∈ action.received)
      ∧ ¬ Excused fiveBlocks e at_ foundOut ∧ IsTrue fiveBlocks now e
      ∧ ¬ Covered fiveBlocks now e ∧ Whole now 1 := by
  intro e at_ now
  have empty : now.kept.entries = [] ∧ now.waiting.entries = [] ∧ now.checking = []
      ∧ now.calls = [] := by
    decide +kernel
  refine ⟨⟨_, rfl, List.mem_singleton_self _⟩, ?_, ?_, ?_, ?_⟩
  · decide +kernel
  · decide +kernel
  · exact not_covered_of_empty empty.1 empty.2.1 empty.2.2.1 empty.2.2.2
  · exact ⟨by decide +kernel, by decide +kernel⟩

end Hypergraph.Reading.Activity
