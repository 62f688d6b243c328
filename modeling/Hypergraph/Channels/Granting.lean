import Hypergraph.Channels.Grants
import Hypergraph.Lib.Mapping
import Hypergraph.Lib.Runs

/-! One grant and the others: what keepers' stores hold after any submissions to them, in any order.
Entries of the tree stay as they came first, those of the index as they came last, so that a grant can
stand in the way of another's only where it opens to no key, or lists a key that isn't its identity's.
-/

namespace Hypergraph.Channels.Grants

open Wire Js Encodings Runs

-- One grant at a time

/-- A store once one grant was put. -/
def Store.putOne (store : Store) (g : Grant) : Store :=
  match g.key with
  | none => store
  | some key =>
      if (store.bee.get? key).isSome then store
      else ⟨store.bee.put key g.toValue, store.who.put g.identity g.recipient⟩

/-- Is a grant written: is no entry there in its place? -/
def Store.Writes (store : Store) (g : Grant) : Prop :=
  ∃ key, g.key = some key ∧ store.bee.get? key = none

/-- The stores once a keeper was put one grant. -/
def putAt (keeper : Key) (stores : Key → Store) (g : Grant) : Key → Store :=
  Function.update stores keeper ((stores keeper).putOne g)

section One

variable {store : Store} {stores : Key → Store} {keeper other : Key} {g : Grant} {list : List Grant}

theorem putOne_of_writes {key : EntryKey} (is : g.key = some key) (free : store.bee.get? key = none)
    : store.putOne g = ⟨store.bee.put key g.toValue, store.who.put g.identity g.recipient⟩ := by
  unfold Store.putOne
  rw [is]
  exact if_neg (by rw [free]; exact Bool.false_ne_true)

theorem putOne_of_not_writes (kept : ¬ store.Writes g) : store.putOne g = store := by
  unfold Store.putOne
  split
  case h_1 => rfl
  case h_2 key is =>
    refine if_pos ?_
    by_contra free
    exact kept ⟨key, is, Option.not_isSome_iff_eq_none.mp free⟩

theorem putAt_self : putAt keeper stores g keeper = (stores keeper).putOne g := Function.update_self ..

theorem putAt_of_ne (apart : other ≠ keeper) : putAt keeper stores g other = stores other :=
  Function.update_of_ne apart ..

theorem putAt_of_not_writes (kept : ¬ (stores keeper).Writes g) : putAt keeper stores g = stores := by
  unfold putAt
  rw [putOne_of_not_writes kept, Function.update_eq_self]

/-- A store stays as it is unless the grant is written there. -/
theorem putAt_cases
    : putAt keeper stores g other = stores other
      ∨ other = keeper ∧ ∃ key, g.key = some key ∧ (stores other).bee.get? key = none
        ∧ putAt keeper stores g other
          = ⟨(stores other).bee.put key g.toValue, (stores other).who.put g.identity g.recipient⟩ := by
  by_cases same : other = keeper
  · subst same
    by_cases writes : (stores other).Writes g
    · obtain ⟨key, is, free⟩ := writes
      exact .inr ⟨rfl, key, is, free, putAt_self.trans (putOne_of_writes is free)⟩
    · rw [putAt_of_not_writes writes]
      exact .inl rfl
  · exact .inl (putAt_of_ne same)

/-- A batch is its grants put one by one, unless an epoch is too large; induction on the batch. -/
theorem putGrants_eq
    : (putGrants store list).map Prod.fst
      = if ∀ g ∈ list, g.key.isSome then some (list.foldl Store.putOne store) else none := by
  induction list generalizing store with
  | nil => rfl
  | cons g rest ih =>
      rw [putGrants, List.foldl_cons]
      cases is : g.key with
      | none =>
          rw [if_neg fun all => absurd (all g (.head _)) (by rw [is]; exact Bool.false_ne_true)]
          rfl
      | some key =>
          have first : g.key.isSome = true := by rw [is]; rfl
          have all : (∀ other ∈ g :: rest, other.key.isSome = true) ↔ ∀ other ∈ rest, other.key.isSome = true := by
            rw [List.forall_mem_cons]
            exact and_iff_right first
          simp only [all]
          by_cases there : (store.bee.get? key).isSome
          · have kept : ¬ store.Writes g := by
              rintro ⟨key', is', free⟩
              rw [is] at is'
              rw [← Option.some.inj is'] at free
              rw [free] at there
              exact Bool.false_ne_true there
            rw [if_pos there, putOne_of_not_writes kept, ih]
          · have free := Option.not_isSome_iff_eq_none.mp there
            rw [if_neg there, putOne_of_writes is free, ← ih, Option.map_map]
            rfl

theorem foldl_putAt
    : list.foldl (putAt keeper) stores
      = Function.update stores keeper (list.foldl Store.putOne (stores keeper)) := by
  induction list generalizing stores with
  | nil => exact (Function.update_eq_self ..).symm
  | cons g rest ih =>
      rw [List.foldl_cons, List.foldl_cons, ih, putAt_self]
      exact Function.update_idem ..

theorem bee_putAt {key : EntryKey} {value : Value} (there : (stores other).bee.get? key = some value)
    : (putAt keeper stores g other).bee.get? key = some value := by
  rcases @putAt_cases stores keeper other g with same | ⟨_, key', _, free, put⟩
  · rw [same]
    exact there
  · rw [put]
    refine (Dict.get?_put ..).trans ((if_neg fun here => ?_).trans there)
    rw [here, free] at there
    exact nomatch there

/-- What an entry put is, or was. -/
theorem of_bee_putAt {key : EntryKey} {value : Value}
    (there : (putAt keeper stores g other).bee.get? key = some value)
    : (stores other).bee.get? key = some value ∨ other = keeper ∧ g.key = some key ∧ value = g.toValue := by
  rcases @putAt_cases stores keeper other g with same | ⟨own, key', is, _, put⟩
  · exact .inl (same ▸ there)
  · rw [put, Dict.get?_put] at there
    split at there
    case isTrue here => exact .inr ⟨own, here ▸ is, (Option.some.inj there).symm⟩
    case isFalse => exact .inl there

/-- What a key listed is, or was. -/
theorem of_who_putAt {identity key : Key} (there : (putAt keeper stores g other).who.get? identity = some key)
    : (stores other).who.get? identity = some key ∨ g.identity = identity ∧ g.recipient = key := by
  rcases @putAt_cases stores keeper other g with same | ⟨_, key', _, _, put⟩
  · exact .inl (same ▸ there)
  · rw [put, Dict.get?_put] at there
    split at there
    case isTrue here => exact .inr ⟨here.symm, Option.some.inj there⟩
    case isFalse => exact .inl there

theorem who_putAt_self (writes : (stores keeper).Writes g)
    : (putAt keeper stores g keeper).who.get? g.identity = some g.recipient := by
  obtain ⟨key, is, free⟩ := writes
  rw [putAt_self, putOne_of_writes is free]
  exact (Dict.get?_put ..).trans (if_pos rfl)

theorem who_putAt_of_ne {identity : Key} (apart : identity ≠ g.identity)
    : (putAt keeper stores g other).who.get? identity = (stores other).who.get? identity := by
  rcases @putAt_cases stores keeper other g with same | ⟨_, key, _, _, put⟩
  · rw [same]
  · rw [put]
    exact (Dict.get?_put ..).trans (if_neg apart)

theorem who_putAt_of_same (same : (stores keeper).who.get? g.identity = some g.recipient)
    : (putAt keeper stores g other).who.get? g.identity = (stores other).who.get? g.identity := by
  rcases @putAt_cases stores keeper other g with kept | ⟨rfl, key, _, _, put⟩
  · rw [kept]
  · rw [put, same]
    exact (Dict.get?_put ..).trans (if_pos rfl)

/-- Grants of one place are for the same short forms and epoch. -/
theorem entryKey_inj {slot : EntryKey} {recipient : Key} {epoch : Nat} {commit : Key} (is : g.key = some slot)
    (same : entryKey recipient epoch commit = some slot)
    : shortKey g.recipient = shortKey recipient ∧ g.epoch = epoch ∧ shortCommit g.commit = shortCommit commit := by
  unfold Grant.key entryKey at is
  unfold entryKey at same
  split at is
  case isFalse => exact nomatch is
  case isTrue =>
    split at same
    case isFalse => exact nomatch same
    case isTrue =>
      have places := Option.some.inj (is.trans same.symm)
      exact ⟨congrArg Prod.fst places, congrArg (fun place => place.2.1) places,
        congrArg (fun place => place.2.2) places⟩

end One

-- Submissions

section Submissions

variable (s : Sodium) (community : Key) (channel : String)

/-- What a keeper writes of a submission, unless it is there already. -/
def accepted (stores : Key → Store) (e : Submission) : List Grant :=
  let ok := e.list.filter (checksOut s community channel e.view (stores e.keeper))
  if e.view.private_ = true ∧ ∀ g ∈ ok, g.key.isSome then ok else []

/-- What a keeper checked of a grant besides its granter's right. -/
structure Checked (e : Submission) (g : Grant) : Prop where
  mem : g ∈ e.list
  epoch : g.epoch ≤ e.view.epoch
  verified : verifyGrant s community channel g = true
  revoked : e.view.revoked g.identity = false

/-- A granter is an admin as the keeper's control log says. -/
def ByAdmin (e : Submission) (g : Grant) : Prop := ADMIN ≤ e.view.rank g.granter

instance (e : Submission) (g : Grant) : Decidable (ByAdmin e g) :=
  inferInstanceAs (Decidable (ADMIN ≤ e.view.rank g.granter))

variable {s community channel} {stores : Key → Store} {e : Submission} {g : Grant}

theorem submit_eq
    : submit s community channel stores e = (accepted s community channel stores e).foldl (putAt e.keeper) stores := by
  have batch := @putGrants_eq (stores e.keeper)
    (e.list.filter (checksOut s community channel e.view (stores e.keeper)))
  unfold submit acceptGrants accepted
  cases e.view.private_ with
  | false =>
      rw [Bool.not_false, if_pos rfl, if_neg fun both => Bool.false_ne_true both.1]
      exact Function.update_eq_self ..
  | true =>
      simp only [Bool.not_true, Bool.false_eq_true, if_false, true_and]
      by_cases all : ∀ g ∈ e.list.filter (checksOut s community channel e.view (stores e.keeper)), g.key.isSome
      · rw [if_pos all] at batch
        obtain ⟨⟨store, written⟩, is, rfl⟩ := Option.map_eq_some_iff.mp batch
        rw [if_pos all, is, foldl_putAt]
      · rw [if_neg all] at batch
        rw [if_neg all, Option.map_eq_none_iff.mp batch]
        rfl

theorem checksOut_iff {v : Control} {store : Store}
    : checksOut s community channel v store g = true
      ↔ g.epoch ≤ v.epoch ∧ verifyGrant s community channel g = true ∧ v.revoked g.identity = false
        ∧ mayGrant v store g.granter = true := by
  unfold checksOut
  simp only [Bool.and_eq_true, decide_eq_true_eq, Bool.not_eq_true', and_assoc]

theorem checked_of_accepted (mem : g ∈ accepted s community channel stores e)
    : Checked s community channel e g := by
  unfold accepted at mem
  dsimp only at mem
  split at mem
  case isTrue =>
    obtain ⟨there, ok⟩ := List.mem_filter.mp mem
    obtain ⟨epoch, verified, revoked, _⟩ := checksOut_iff.mp ok
    exact ⟨there, epoch, verified, revoked⟩
  case isFalse => exact nomatch mem

-- What a run keeps

variable (s community channel) (box : Key → Box) (recorded : Nat → Key → Prop) (gone : Key → Prop)

/-- A grant a keeper writes stands in no other's way. `box`: each identity's encryption key pair;
`recorded`: the keys the control log records of an epoch; `gone`: who is revoked at some time.
-/
structure FairGrant (stores : Key → Store) (e : Submission) (g : Grant) : Prop where
  /-- In the place of a member's grant it opens, for that member, to the key recorded. -/
  sealed : ∀ member key, recorded g.epoch key → shortCommit g.commit = shortCommit (commitOf s key) →
    shortKey g.recipient = shortKey (box member).publicKey →
    g.recipient = (box member).publicKey ∧ openSealed s g.sealed (box member) = some key
  /-- A member's grant for an identity listed is for the encryption key it is listed with. -/
  listed : ¬ ByAdmin e g →
    (stores e.keeper).who.get? g.identity = some g.recipient
    ∨ (stores e.keeper).who.get? g.identity = none
      ∧ ∀ keeper key, (stores keeper).who.get? g.identity = some key → key = g.recipient
  /-- A member's grant for the encryption key of one who is revoked names that one. -/
  own : ¬ ByAdmin e g → ∀ member, gone member → g.recipient = (box member).publicKey → g.identity = member

/-- A keeper writes only such grants of a submission, and its control log's epochs have keys in the tree. -/
def Fair (stores : Key → Store) (e : Submission) : Prop :=
  e.view.epoch < 2 ^ 32 ∧ Each (putAt e.keeper) (fun stores g => (stores e.keeper).Writes g →
    FairGrant s box recorded gone stores e g) stores (accepted s community channel stores e)

variable {s community channel box recorded gone} {inv : (Key → Store) → Prop} {events : List Submission}

/-- What each grant written keeps, a submission keeps. -/
theorem submit_keeps (fair : Fair s community channel box recorded gone stores e) (start : inv stores)
    (keeps : ∀ stores g, inv stores → Checked s community channel e g → (stores e.keeper).Writes g →
      FairGrant s box recorded gone stores e g → inv (putAt e.keeper stores g))
    : inv (submit s community channel stores e) := by
  rw [submit_eq]
  have all := fair.2.and fun g mem => @checked_of_accepted s community channel stores e g mem
  refine all.keeps (fun stores g now both => ?_) start
  by_cases writes : (stores e.keeper).Writes g
  · exact keeps stores g now both.2 writes (both.1 writes)
  · rw [putAt_of_not_writes writes]
    exact now

variable (inv) in
/-- What each grant written keeps, a run keeps. -/
theorem run_keeps (fair : Each (submit s community channel) (Fair s community channel box recorded gone)
      stores events)
    (start : inv stores)
    (keeps : ∀ e ∈ events, ∀ stores g, inv stores → Checked s community channel e g →
      (stores e.keeper).Writes g → FairGrant s box recorded gone stores e g → inv (putAt e.keeper stores g))
    : inv (events.foldl (submit s community channel) stores) :=
  (fair.and fun _ mem => mem).keeps
    (fun _ e now both => submit_keeps both.1 now fun stores g => keeps e both.2 stores g) start

variable (s community channel box recorded gone) in
/-- A grant a keeper wrote in a run. -/
structure Wrote (events : List Submission) (e : Submission) (g : Grant) : Prop where
  mem : e ∈ events
  checked : Checked s community channel e g
  fair : ∃ stores, FairGrant s box recorded gone stores e g

/-- Stores with no grant yet. -/
def start : Key → Store := fun _ => .empty

section Run

variable {keeper : Key} (fair : Each (submit s community channel)
  (Fair s community channel box recorded gone) start events)

include fair

/-- Each entry of a keeper's tree was written by a grant. -/
theorem exists_of_bee {key : EntryKey} {value : Value}
    (there : (events.foldl (submit s community channel) start keeper).bee.get? key = some value)
    : ∃ e g, Wrote s community channel box recorded gone events e g ∧ g.key = some key
        ∧ g.toValue = value := by
  refine run_keeps (fun stores => ∀ keeper key value, (stores keeper).bee.get? key = some value →
    ∃ e g, Wrote s community channel box recorded gone events e g ∧ g.key = some key ∧ g.toValue = value)
    fair (fun _ _ _ none_ => nomatch none_) ?_ keeper key value there
  intro e mem stores g kept checked _ fair keeper key value there
  rcases of_bee_putAt there with before | ⟨_, is, rfl⟩
  · exact kept keeper key value before
  · exact ⟨e, g, ⟨mem, checked, stores, fair⟩, is, rfl⟩

/-- Each encryption key a keeper lists was listed by a grant. -/
theorem exists_of_who {identity key : Key}
    (there : (events.foldl (submit s community channel) start keeper).who.get? identity = some key)
    : ∃ e g, Wrote s community channel box recorded gone events e g ∧ g.identity = identity
        ∧ g.recipient = key := by
  refine run_keeps (fun stores => ∀ keeper identity key,
    (stores keeper).who.get? identity = some key →
    ∃ e g, Wrote s community channel box recorded gone events e g ∧ g.identity = identity
      ∧ g.recipient = key)
    fair (fun _ _ _ none_ => nomatch none_) ?_ keeper identity key there
  intro e mem stores g kept checked _ fair keeper identity key there
  rcases of_who_putAt there with before | ⟨own, is⟩
  · exact kept keeper identity key before
  · exact ⟨e, g, ⟨mem, checked, stores, fair⟩, own, is⟩

end Run

end Submissions

-- Which keys a rotation seals to

section Recipients

variable {v : Control} {stores stores' : Key → Store} {order : List Key} {identity key : Key}

/-- The encryption key the last of the keepers lists an identity with. -/
def lastListed (stores : Key → Store) (order : List Key) (identity : Key) : Option Key :=
  order.foldl (fun found keeper => ((stores keeper).who.get? identity).or found) none

/-- A rotation seals to the key an identity is last listed with, unless it is revoked. -/
theorem get?_recipients
    : (recipients v (order.map stores)).get? identity
      = if v.revoked identity then none else lastListed stores order identity := by
  have from_ : ∀ out : Dict Key Key, ∀ found, (v.revoked identity = false → out.get? identity = found) →
      (v.revoked identity = true → out.get? identity = none) →
      ((order.map stores).foldl (fun out store => (allRecipients store).foldl (fun out entry =>
        if v.revoked entry.1 then out else out.put entry.1 entry.2) out) out).get? identity
      = if v.revoked identity then none
        else order.foldl (fun found keeper => ((stores keeper).who.get? identity).or found) found := by
    induction order with
    | nil =>
        intro out found here none_
        cases revoked : v.revoked identity with
        | true => exact none_ revoked
        | false => exact here revoked
    | cons keeper rest ih =>
        intro out found here none_
        refine ih _ _ (fun kept => ?_) fun revoked => ?_
        · refine (Dict.get?_foldl_put_unless (stores keeper).who.unique).trans ?_
          rw [kept, here kept]
          exact if_neg Bool.false_ne_true
        · refine (Dict.get?_foldl_put_unless (stores keeper).who.unique).trans ?_
          rw [revoked, none_ revoked]
          exact if_pos rfl
  exact from_ .empty none (fun _ => rfl) fun _ => rfl

theorem lastListed_foldl {found : Option Key}
    : order.foldl (fun found keeper => ((stores keeper).who.get? identity).or found) found
      = (lastListed stores order identity).or found := by
  unfold lastListed
  induction order generalizing found with
  | nil => rfl
  | cons keeper rest ih =>
      rw [List.foldl_cons, List.foldl_cons, ih, @ih (((stores keeper).who.get? identity).or none), Option.or_none,
        Option.or_assoc]

theorem lastListed_cons {keeper : Key}
    : lastListed stores (keeper :: order) identity
      = (lastListed stores order identity).or ((stores keeper).who.get? identity) := by
  unfold lastListed
  rw [List.foldl_cons, lastListed_foldl, Option.or_none]
  rfl

theorem lastListed_congr (same : ∀ keeper, (stores' keeper).who.get? identity = (stores keeper).who.get? identity)
    : lastListed stores' order identity = lastListed stores order identity := by
  unfold lastListed
  simp only [same]

theorem exists_of_lastListed (found : lastListed stores order identity = some key)
    : ∃ keeper ∈ order, (stores keeper).who.get? identity = some key := by
  induction order with
  | nil => exact nomatch found
  | cons keeper rest ih =>
      rw [lastListed_cons, Option.or_eq_some_iff] at found
      rcases found with later | ⟨_, here⟩
      · obtain ⟨other, mem, there⟩ := ih later
        exact ⟨other, .tail _ mem, there⟩
      · exact ⟨keeper, .head _, here⟩

/-- Where all keepers that list an identity agree, so does the last; induction on the keepers. -/
theorem lastListed_of_agree
    (agree : ∀ keeper other, (stores keeper).who.get? identity = some other → other = key)
    (listed : ∃ keeper ∈ order, (stores keeper).who.get? identity = some key)
    : lastListed stores order identity = some key := by
  induction order with
  | nil => exact absurd listed (fun ⟨_, mem, _⟩ => nomatch mem)
  | cons keeper rest ih =>
      rw [lastListed_cons]
      cases found : lastListed stores rest identity with
      | none =>
          obtain ⟨from_, mem, there⟩ := listed
          rcases List.mem_cons.mp mem with rfl | mem
          · rw [Option.none_or, there]
          · exact nomatch found.symm.trans (ih ⟨from_, mem, there⟩)
      | some other =>
          obtain ⟨from_, _, is⟩ := exists_of_lastListed found
          rw [Option.some_or, agree from_ other is]

end Recipients

-- What a member loads

section Loading

variable {s : Sodium} {community : Key} {channel : String} {v : Control} {box : Box} {store : Store}
  {stores : List Store} {held : Dict Nat Key} {epoch : Nat} {g : Grant} {list : List Grant} {key : Key}

theorem of_epochKey (found : epochKey s v held epoch = some key) : v.commits epoch = some (commitOf s key) := by
  unfold epochKey at found
  split at found
  case h_1 => exact nomatch found
  case h_2 other _ =>
    split at found
    case isTrue is => exact Option.some.inj found ▸ is
    case isFalse => exact nomatch found

/-- A grant says nothing of another epoch's key. -/
theorem takeGrant_other (other : epoch ≠ g.epoch)
    : epochKey s v (takeGrant s community channel v box store held g) epoch = epochKey s v held epoch := by
  unfold takeGrant
  split
  · rfl
  · split
    · rfl
    · split
      · rfl
      · split
        · rfl
        · split
          · unfold epochKey
            rw [Dict.get?_put, if_neg other]
          · rfl

theorem takeGrant_kept (there : (epochKey s v held epoch).isSome)
    : (epochKey s v (takeGrant s community channel v box store held g) epoch).isSome := by
  by_cases same : epoch = g.epoch
  · subst same
    rw [takeGrant, if_pos there]
    exact there
  · rw [takeGrant_other same]
    exact there

theorem foldl_kept (there : (epochKey s v held epoch).isSome)
    : (epochKey s v (list.foldl (takeGrant s community channel v box store) held) epoch).isSome := by
  induction list generalizing held with
  | nil => exact there
  | cons g rest ih => exact ih (takeGrant_kept there)

theorem loadFrom_kept (there : (epochKey s v held epoch).isSome)
    : (epochKey s v (loadFrom s community channel v box stores held) epoch).isSome := by
  induction stores generalizing held with
  | nil => exact there
  | cons store rest ih =>
      rw [loadFrom]
      split
      · exact there
      · exact ih (foldl_kept there)

/-- A grant that opens to the key recorded. -/
structure Opens (s : Sodium) (community : Key) (channel : String) (v : Control) (box : Box) (store : Store)
    (g : Grant) (key : Key) : Prop where
  verified : verifyGrant s community channel g = true
  may : mayGrant v store g.granter = true
  opened : openSealed s g.sealed box = some key
  recorded : v.commits g.epoch = some (commitOf s key)

theorem takeGrant_opens (opens : Opens s community channel v box store g key)
    : (epochKey s v (takeGrant s community channel v box store held g) g.epoch).isSome := by
  unfold takeGrant
  split
  case isTrue there => exact there
  case isFalse =>
    rw [opens.verified, opens.may, opens.opened]
    simp only [Bool.not_true, Bool.false_eq_true, if_false]
    rw [if_pos opens.recorded]
    unfold epochKey
    rw [Dict.get?_put, if_pos rfl]
    dsimp only
    rw [if_pos opens.recorded]
    rfl

theorem foldl_opens (mem : g ∈ list) (opens : Opens s community channel v box store g key)
    : (epochKey s v (list.foldl (takeGrant s community channel v box store) held) g.epoch).isSome := by
  induction list generalizing held with
  | nil => exact nomatch mem
  | cons first rest ih =>
      rw [List.foldl_cons]
      rcases List.mem_cons.mp mem with rfl | mem
      · exact foldl_kept (takeGrant_opens opens)
      · exact ih mem

theorem mem_missing {commit : Key} (recorded : v.commits epoch = some commit) (within : epoch ≤ v.epoch)
    (free : (epochKey s v held epoch).isSome = false)
    : (epoch, commit) ∈ missing s v held := by
  refine List.mem_filterMap.mpr ⟨epoch, List.mem_range.mpr (Nat.lt_succ_of_le within), ?_⟩
  rw [recorded]
  rw [free]
  exact if_neg Bool.false_ne_true

theorem le_of_mem_missing {commit : Key} (mem : (epoch, commit) ∈ missing s v held) : epoch ≤ v.epoch := by
  obtain ⟨other, listed, is⟩ := List.mem_filterMap.mp mem
  have bound := Nat.le_of_lt_succ (List.mem_range.mp listed)
  split at is
  · exact nomatch is
  · split at is
    · exact nomatch is
    · cases is
      exact bound

/-- A lookup finds what is there. -/
theorem mem_grantsForEpochs {epochs : List (Nat × Key)} {commit : Key} {slot : EntryKey} {value : Value}
    (small : ∀ wanted ∈ epochs, wanted.1 < 2 ^ 32) (mem : (epoch, commit) ∈ epochs)
    (is : entryKey box.publicKey epoch commit = some slot) (there : store.bee.get? slot = some value)
    : ⟨value, box.publicKey, epoch⟩ ∈ (grantsForEpochs store box.publicKey epochs).getD [] := by
  have each : ∀ wanted ∈ epochs, ((entryKey box.publicKey wanted.1 wanted.2).map fun key =>
        (store.bee.get? key).map fun value => Grant.mk value box.publicKey wanted.1)
      = pure ((store.bee.get? (shortKey box.publicKey, wanted.1, shortCommit wanted.2)).map
          fun value => Grant.mk value box.publicKey wanted.1) := by
    intro wanted mem
    rw [entryKey, if_pos (small wanted mem)]
    rfl
  have found := Mapping.mapM_of_pure each
  unfold grantsForEpochs
  rw [found]
  refine List.mem_filterMap.mpr ⟨_, List.mem_map.mpr ⟨_, mem, rfl⟩, ?_⟩
  have small := small _ mem
  rw [entryKey, if_pos small] at is
  rw [Option.some.inj is, there]
  rfl

/-- Where a keeper's entry opens, the epoch's key is loaded; induction on the keepers. -/
theorem loadFrom_opens (mem : store ∈ stores) (small : v.epoch < 2 ^ 32) (within : g.epoch ≤ v.epoch)
    {slot : EntryKey} (own : g.recipient = box.publicKey)
    (is : entryKey box.publicKey g.epoch (commitOf s key) = some slot)
    (there : store.bee.get? slot = some g.toValue) (opens : Opens s community channel v box store g key)
    : (epochKey s v (loadFrom s community channel v box stores held) g.epoch).isSome := by
  induction stores generalizing held with
  | nil => exact nomatch mem
  | cons first rest ih =>
      cases free : (epochKey s v held g.epoch).isSome with
      | true => exact loadFrom_kept free
      | false =>
          have wanted := mem_missing opens.recorded within free
          rw [loadFrom, if_neg fun none_ => nomatch none_ ▸ wanted]
          rcases List.mem_cons.mp mem with rfl | mem
          · refine loadFrom_kept ?_
            have found := mem_grantsForEpochs (fun wanted mem => (le_of_mem_missing mem).trans_lt small) wanted is
              there
            have same : (⟨g.toValue, box.publicKey, g.epoch⟩ : Grant) = g := own ▸ rfl
            exact foldl_opens (same ▸ found) opens
          · exact ih mem

theorem of_takeGrant (loaded : (epochKey s v (takeGrant s community channel v box store held g) epoch).isSome)
    : (epochKey s v held epoch).isSome ∨ g.epoch = epoch := by
  by_cases same : epoch = g.epoch
  · exact .inr same.symm
  · rw [takeGrant_other same] at loaded
    exact .inl loaded

theorem of_foldl_takeGrant
    (loaded : (epochKey s v (list.foldl (takeGrant s community channel v box store) held) epoch).isSome)
    : (epochKey s v held epoch).isSome ∨ ∃ g ∈ list, g.epoch = epoch := by
  induction list generalizing held with
  | nil => exact .inl loaded
  | cons g rest ih =>
      rcases ih loaded with before | ⟨g', mem, is⟩
      · exact (of_takeGrant before).imp_right fun is => ⟨g, .head _, is⟩
      · exact .inr ⟨g', .tail _ mem, is⟩

/-- What is found is there. -/
theorem of_mem_grantsForEpochs {epochs : List (Nat × Key)}
    (mem : g ∈ (grantsForEpochs store box.publicKey epochs).getD [])
    : ∃ commit slot value, (g.epoch, commit) ∈ epochs ∧ entryKey box.publicKey g.epoch commit = some slot
        ∧ store.bee.get? slot = some value := by
  cases is : grantsForEpochs store box.publicKey epochs with
  | none =>
      rw [is] at mem
      exact nomatch mem
  | some found =>
      rw [is] at mem
      obtain ⟨found, ran, rfl⟩ := Option.map_eq_some_iff.mp is
      obtain ⟨looked, there, same⟩ := List.mem_filterMap.mp mem
      obtain ⟨⟨epoch, commit⟩, wanted, made⟩ := (Mapping.mem_of_mapM ran).mp there
      obtain ⟨slot, slot_, rfl⟩ := Option.map_eq_some_iff.mp made
      obtain ⟨value, kept, rfl⟩ := Option.map_eq_some_iff.mp same
      exact ⟨commit, slot, value, wanted, slot_, kept⟩

/-- What is loaded was held, or some keeper has an entry for it; induction on the keepers. -/
theorem of_loadFrom (loaded : (epochKey s v (loadFrom s community channel v box stores held) epoch).isSome)
    : (epochKey s v held epoch).isSome
      ∨ ∃ store ∈ stores, ∃ commit slot value, v.commits epoch = some commit
        ∧ entryKey box.publicKey epoch commit = some slot ∧ store.bee.get? slot = some value := by
  induction stores generalizing held with
  | nil => exact .inl loaded
  | cons store rest ih =>
      rw [loadFrom] at loaded
      split at loaded
      · exact .inl loaded
      · rcases ih loaded with first | ⟨other, mem, found⟩
        · rcases of_foldl_takeGrant first with before | ⟨g, mem, rfl⟩
          · exact .inl before
          · obtain ⟨commit, slot, value, wanted, slot_, there⟩ := of_mem_grantsForEpochs mem
            refine .inr ⟨store, .head _, commit, slot, value, ?_, slot_, there⟩
            obtain ⟨epoch, _, is⟩ := List.mem_filterMap.mp wanted
            split at is
            · exact nomatch is
            · rename_i recorded
              split at is
              · exact nomatch is
              · cases is
                exact recorded
        · exact .inr ⟨other, .tail _ mem, found⟩

end Loading

-- No grant takes another away

section Apart

variable (s : Sodium) (community : Key) (channel : String)

/-- The stores after a run. -/
def after (events : List Submission) : Key → Store := events.foldl (submit s community channel) start

/-- An admin's grant among what keepers were sent. -/
def AdminGrant (events : List Submission) (of : Grant → Prop) : Prop :=
  ∃ e ∈ events, ∃ g, Checked s community channel e g ∧ ByAdmin e g ∧ of g

variable (box : Key → Box) (recorded : Nat → Key → Prop) (gone : Key → Prop)

/-- A control log to load by: its epochs have keys in the tree, and the granter of each entry in the place
of a member's key recorded may still grant.
-/
structure Standing (events : List Submission) (v : Control) (member : Key) : Prop where
  small : v.epoch < 2 ^ 32
  may : ∀ keeper epoch key slot value, recorded epoch key →
    entryKey (box member).publicKey epoch (commitOf s key) = some slot →
    (after s community channel events keeper).bee.get? slot = some value →
    mayGrant v (after s community channel events keeper) value.granter = true

variable (loads : Control → Key → Prop)

/-- Once a grant of the key recorded has checked out with a keeper, its recipient loads that key, from any
keepers this one is among. `loads`: the control logs a member loads by.
-/
def Obtains (events : List Submission) : Prop :=
  ∀ before e rest g member key, events = before ++ e :: rest → g ∈ e.list →
    e.view.private_ = true →
    checksOut s community channel e.view (after s community channel before e.keeper) g = true →
    g.recipient = (box member).publicKey → recorded g.epoch key → g.commit = commitOf s key →
    ∀ (v : Control) stores held, loads v member → after s community channel events e.keeper ∈ stores →
      v.private_ = true → g.epoch ≤ v.epoch → v.commits g.epoch = some (commitOf s key) →
      epochKey s v (loadKeys s community channel v (box member) stores held) g.epoch = some key

/-- The encryption key rotations seal to for an identity listed changes by admins' grants for it only. -/
def Unmoved (events : List Submission) : Prop :=
  ∀ before rest, events = before ++ rest → ∀ v (order : List Key) identity key,
    (recipients v (order.map (after s community channel before))).get? identity = some key →
    (recipients v (order.map (after s community channel events))).get? identity = some key
    ∨ AdminGrant s community channel rest fun g => g.identity = identity

/-- Every control log that has an epoch has a member revoked. -/
def Later (events : List Submission) (member : Key) (epoch : Nat) : Prop :=
  ∀ e ∈ events, epoch ≤ e.view.epoch → e.view.revoked member = true

/-- A rotation seals to the encryption key of one who is revoked, and they load a later epoch's key, only
by an admin's grant for that encryption key.
-/
def Withheld (events : List Submission) : Prop :=
  ∀ member, gone member →
    (∀ (v : Control) (order : List Key) identity, v.revoked member = true →
      (recipients v (order.map (after s community channel events))).get? identity
        = some (box member).publicKey →
      AdminGrant s community channel events fun g =>
        g.identity = identity ∧ g.recipient = (box member).publicKey)
    ∧ ∀ epoch key, recorded epoch key → Later events member epoch → ∀ v (keepers : List Key),
        epochKey s v (loadKeys s community channel v (box member)
          (keepers.map (after s community channel events)) .empty) epoch = some key →
        AdminGrant s community channel events fun g =>
          g.recipient = (box member).publicKey ∧ g.epoch = epoch

variable {s community channel box recorded gone loads} {stores : Key → Store} {events : List Submission}
  {e : Submission} {g : Grant} {keeper : Key} {slot : EntryKey} {value : Value}

/-- A run keeps each entry. -/
theorem bee_run (there : (stores keeper).bee.get? slot = some value)
    : (events.foldl (submit s community channel) stores keeper).bee.get? slot = some value := by
  refine Runs.keeps (fun stores : Key → Store => (stores keeper).bee.get? slot = some value) (fun stores e there => ?_) events
    there
  rw [submit_eq]
  exact Runs.keeps (fun stores : Key → Store => (stores keeper).bee.get? slot = some value) (fun _ _ there => bee_putAt there)
    (accepted s community channel stores e) there

theorem exists_bee_putAt (is : g.key = some slot)
    : ∃ value, (putAt keeper stores g keeper).bee.get? slot = some value := by
  rw [putAt_self]
  cases there : (stores keeper).bee.get? slot with
  | none =>
      rw [putOne_of_writes is there]
      exact ⟨_, (Dict.get?_put ..).trans (if_pos rfl)⟩
  | some value =>
      have kept : ¬ (stores keeper).Writes g := by
        rintro ⟨other, is', free⟩
        rw [is] at is'
        rw [← Option.some.inj is', there] at free
        exact nomatch free
      rw [putOne_of_not_writes kept]
      exact ⟨value, there⟩

theorem exists_bee_of_mem {list : List Grant} (mem : g ∈ list) (is : g.key = some slot)
    : ∃ value, (list.foldl (putAt keeper) stores keeper).bee.get? slot = some value := by
  induction list generalizing stores with
  | nil => exact nomatch mem
  | cons first rest ih =>
      rcases List.mem_cons.mp mem with rfl | mem
      · obtain ⟨value, there⟩ := @exists_bee_putAt stores _ keeper _ is
        exact ⟨value, Runs.keeps (fun stores : Key → Store => (stores keeper).bee.get? slot = some value)
          (fun _ _ there => bee_putAt there) rest there⟩
      · exact ih mem

/-- A grant that checks out has an entry in its place. -/
theorem exists_bee_of_checksOut (mem : g ∈ e.list) (private_ : e.view.private_ = true)
    (small : e.view.epoch < 2 ^ 32)
    (ok : checksOut s community channel e.view (stores e.keeper) g = true) (is : g.key = some slot)
    : ∃ value, (submit s community channel stores e e.keeper).bee.get? slot = some value := by
  have all : ∀ g ∈ e.list.filter (checksOut s community channel e.view (stores e.keeper)), g.key.isSome := by
    intro g mem
    have within := (checksOut_iff.mp (List.mem_filter.mp mem).2).1
    unfold Grant.key entryKey
    rw [if_pos (within.trans_lt small)]
    rfl
  have there : g ∈ accepted s community channel stores e := by
    unfold accepted
    rw [if_pos ⟨private_, all⟩]
    exact List.mem_filter.mpr ⟨mem, ok⟩
  rw [submit_eq]
  exact exists_bee_of_mem there is

section Theorems

variable (fair : Each (submit s community channel) (Fair s community channel box recorded gone) start events)

include fair

theorem obtains (apart : ∀ key other, commitOf s key = commitOf s other → key = other)
    (standing : ∀ v member, loads v member → Standing s community channel box recorded events v member)
    : Obtains s community channel box recorded loads events := by
  rintro before e rest g member key rfl mem private_ ok recipient real commit v stores held load listed
    private_' within current
  have small : e.view.epoch < 2 ^ 32 := (each_append.mp fair).2.1.1
  obtain ⟨slot, is⟩ : ∃ slot, g.key = some slot :=
    ⟨_, if_pos ((checksOut_iff.mp ok).1.trans_lt small)⟩
  -- what is listed in the grant's place
  obtain ⟨value, put⟩ := exists_bee_of_checksOut mem private_ small ok is
  have there : (after s community channel (before ++ e :: rest) e.keeper).bee.get? slot = some value := by
    unfold after
    rw [List.foldl_append]
    exact @bee_run s community channel (submit s community channel (after s community channel before) e) rest _ _ _
      put
  obtain ⟨e', g', wrote, is', rfl⟩ := exists_of_bee fair there
  obtain ⟨stores', fair'⟩ := wrote.fair
  have places := entryKey_inj is' is
  have epochs := places.2.1
  have opens := fair'.sealed member key (epochs ▸ real) (places.2.2.trans (by rw [commit]))
    (places.1.trans (by rw [recipient]))
  have slot_ : entryKey (box member).publicKey g'.epoch (commitOf s key) = some slot := by
    rw [epochs, ← recipient, ← commit]
    exact is
  have stands := standing v member load
  have may := stands.may e.keeper g'.epoch key slot _ (epochs ▸ real) slot_ there
  have loaded := @loadFrom_opens _ _ _ _ _ _ _ held _ _ listed stands.small (epochs ▸ within) slot opens.1 slot_
    there ⟨wrote.checked.verified, may, opens.2, epochs ▸ current⟩
  rw [epochs] at loaded
  unfold loadKeys
  rw [private_', Bool.not_true, if_neg Bool.false_ne_true]
  obtain ⟨other, found⟩ := Option.isSome_iff_exists.mp loaded
  have same := (of_epochKey found).symm.trans current
  rw [found, apart other key (Option.some.inj same)]

theorem unmoved : Unmoved s community channel events := by
  rintro before rest rfl v order identity key listed
  by_cases admin : AdminGrant s community channel rest fun g => g.identity = identity
  · exact .inr admin
  left
  have fairRest := (each_append.mp fair).2
  rw [get?_recipients] at listed ⊢
  cases revoked : v.revoked identity with
  | true =>
      rw [revoked] at listed
      exact nomatch listed
  | false =>
      rw [revoked, if_neg Bool.false_ne_true] at listed
      rw [if_neg Bool.false_ne_true]
      unfold after
      rw [List.foldl_append]
      refine run_keeps (fun stores => lastListed stores order identity = some key) fairRest listed ?_
      intro e mem stores g now checked writes fair
      by_cases own : g.identity = identity
      · have member : ¬ ByAdmin e g := fun by_ => admin ⟨e, mem, g, checked, by_, own⟩
        rw [← own] at now ⊢
        rcases fair.listed member with same | ⟨_, agree⟩
        · rw [lastListed_congr fun keeper => who_putAt_of_same same, now]
        · obtain ⟨keeper, at_, there⟩ := exists_of_lastListed now
          have is := agree keeper key there
          rw [is]
          refine lastListed_of_agree (fun keeper other found => ?_) ⟨keeper, at_, ?_⟩
          · rcases of_who_putAt found with before | ⟨_, is⟩
            · exact agree keeper other before
            · exact is.symm
          · by_cases here : keeper = e.keeper
            · subst here
              exact who_putAt_self writes
            · rw [putAt_of_ne here, there, is]
      · rw [lastListed_congr fun keeper => who_putAt_of_ne fun same => own same.symm, now]

theorem withheld : Withheld s community channel box recorded gone events := by
  intro member left_
  refine ⟨?_, ?_⟩
  · intro v order identity revoked listed
    rw [get?_recipients] at listed
    split at listed
    case isTrue => exact nomatch listed
    case isFalse kept =>
      obtain ⟨keeper, _, there⟩ := exists_of_lastListed listed
      obtain ⟨e, g, wrote, own, is⟩ := exists_of_who fair there
      obtain ⟨stores, fair'⟩ := wrote.fair
      by_cases admin : ByAdmin e g
      · exact ⟨e, wrote.mem, g, wrote.checked, admin, own, is⟩
      · have same := fair'.own admin member left_ is
        rw [← own, same] at kept
        exact absurd revoked kept
  · intro epoch key real later v keepers loaded
    have there : (epochKey s v (loadKeys s community channel v (box member)
        (keepers.map (after s community channel events)) .empty) epoch).isSome := by
      rw [loaded]
      rfl
    have current := of_epochKey loaded
    unfold loadKeys at there
    split at there
    · exact nomatch there
    · rcases of_loadFrom there with none_ | ⟨store, mem, commit, slot, value, recorded_, slot_, found⟩
      · exact nomatch none_
      · obtain ⟨keeper, _, rfl⟩ := List.mem_map.mp mem
        obtain ⟨e, g, wrote, is, _⟩ := exists_of_bee fair found
        obtain ⟨stores, fair'⟩ := wrote.fair
        rw [current] at recorded_
        cases recorded_
        have places := entryKey_inj is slot_
        have recipient := (fair'.sealed member key (places.2.1 ▸ real) places.2.2 places.1).1
        by_cases admin : ByAdmin e g
        · exact ⟨e, wrote.mem, g, wrote.checked, admin, recipient, places.2.1⟩
        · have same := fair'.own admin member left_ recipient
          have revoked := later e wrote.mem (places.2.1 ▸ wrote.checked.epoch)
          rw [← same, wrote.checked.revoked] at revoked
          exact nomatch revoked

/-- No grant takes another away, and no member's grant moves a key that is listed or reaches one who is
revoked, in any run whose grants stand in no other's way and whose granters may still grant at each load.
-/
theorem grants_apart (apart : ∀ key other, commitOf s key = commitOf s other → key = other)
    (standing : ∀ v member, loads v member → Standing s community channel box recorded events v member)
    : Obtains s community channel box recorded loads events ∧ Unmoved s community channel events
      ∧ Withheld s community channel box recorded gone events :=
  ⟨obtains fair apart standing, unmoved fair, withheld fair⟩

end Theorems

end Apart

-- A channel that lets its members grant

/-- Sealed bytes begin with whom they are for, and a signature is its signer. -/
def sodium : Sodium where
  hash := List.reverse
  verify _ sig signer := sig = signer
  sealOpen bytes box := if bytes.take 1 = box.publicKey then some (bytes.drop SEALBYTES) else none

def owner : Key := [9]

def member : Key := [1]

def victim : Key := [2]

/-- One who is revoked. -/
def leaver : Key := [3]

def keeper : Key := [8]

def boxOf (identity : Key) : Box :=
  if identity = member then ⟨[11], [21]⟩
  else if identity = victim then ⟨[12], [22]⟩
  else if identity = leaver then ⟨[13], [23]⟩
  else ⟨[], []⟩

def firstKey : Key := [5, 5, 5, 5, 5, 5, 5, 5]

def recordedKey (epoch : Nat) (key : Key) : Prop := epoch = 0 ∧ key = firstKey

def view : Control where
  private_ := true
  epoch := 0
  memberGrants := true
  commits epoch := if epoch = 0 then some (commitOf sodium firstKey) else none
  revoked identity := identity = leaver
  rank identity := if identity = owner then 4 else 0

/-- The first epoch's key, sealed to an encryption key. -/
def makeGrant (granter identity recipient : Key) : Grant where
  recipient := recipient
  epoch := 0
  identity := identity
  commit := commitOf sodium firstKey
  sealed := some (recipient ++ List.replicate 47 0 ++ firstKey)
  granter := granter
  sig := granter

/-- A grant sealed to nobody. -/
def garbage : Grant := { makeGrant member victim [12] with sealed := some [0] }

def sent (list : List Grant) : Submission := ⟨keeper, view, list⟩

/-- The owner grants the member. -/
def granted : Submission := sent [makeGrant owner member [11]]

/-- The member grants the other one. -/
def passedOn : Submission := sent [makeGrant member victim [12]]

theorem commitOf_inj (key other : Key) (same : commitOf sodium key = commitOf sodium other) : key = other :=
  List.append_cancel_left (List.reverse_injective same)

theorem passed_accepted
    : accepted sodium [] "" start granted = [makeGrant owner member [11]]
      ∧ accepted sodium [] "" (submit sodium [] "" start granted) passedOn = [makeGrant member victim [12]]
      ∧ (submit sodium [] "" start granted keeper).who.entries = [(member, [11])]
      ∧ openSealed sodium (makeGrant owner member [11]).sealed (boxOf member) = some firstKey
      ∧ openSealed sodium (makeGrant member victim [12]).sealed (boxOf victim) = some firstKey
      ∧ (after sodium [] "" [granted, passedOn] keeper).bee.entries.map (fun entry => entry.2.granter)
        = [owner, member]
      ∧ mayGrant view (after sodium [] "" [granted, passedOn] keeper) owner = true
      ∧ mayGrant view (after sodium [] "" [granted, passedOn] keeper) member = true := by
  decide +kernel

/-- What is sealed for the one whose short form it bears. -/
theorem sealed_of {granter identity recipient : Key} {who : Key} (own : recipient = (boxOf who).publicKey)
    (known : who = member ∨ who = victim)
    (opens : openSealed sodium (makeGrant granter identity recipient).sealed (boxOf who) = some firstKey)
    (other key : Key) (real : recordedKey 0 key)
    (same : shortKey recipient = shortKey (boxOf other).publicKey)
    : recipient = (boxOf other).publicKey
      ∧ openSealed sodium (makeGrant granter identity recipient).sealed (boxOf other) = some key := by
  have is : other = who := by
    rw [own] at same
    unfold boxOf at same
    rcases known with rfl | rfl <;> split_ifs at same <;> simp_all [shortKey]
  rw [is, real.2]
  exact ⟨own, opens⟩

theorem passed_fair
    : Each (submit sodium [] "") (Fair sodium [] "" boxOf recordedKey (· = leaver)) start [granted, passedOn] := by
  obtain ⟨first, second, listed, opens, opens', _⟩ := passed_accepted
  refine ⟨⟨by decide, ?_⟩, ⟨by decide, ?_⟩, trivial⟩
  · rw [first]
    refine ⟨fun _ => ⟨?_, ?_, ?_⟩, trivial⟩
    · exact fun other key real _ same => sealed_of rfl (.inl rfl) opens other key real same
    · exact fun other => absurd (by decide) other
    · exact fun other => absurd (by decide) other
  · rw [second]
    refine ⟨fun _ => ⟨?_, ?_, ?_⟩, trivial⟩
    · exact fun other key real _ same => sealed_of rfl (.inr rfl) opens' other key real same
    · have who : ∀ at_, (submit sodium [] "" start granted at_).who.get? victim = none := by
        intro at_
        by_cases here : at_ = keeper
        · rw [here]
          unfold Dict.get?
          rw [listed]
          rfl
        · rw [submit_eq, first, List.foldl_cons, List.foldl_nil]
          exact congrArg (fun store => store.who.get? victim) (putAt_of_ne here)
      refine fun _ => .inr ⟨who keeper, fun at_ key found => ?_⟩
      exact nomatch (who at_).symm.trans found
    · rintro _ _ rfl same
      exact absurd same (by decide)

theorem passed_standing (v : Control) (who : Key) (is : v = view)
    : Standing sodium [] "" boxOf recordedKey [granted, passedOn] v who := by
  obtain ⟨first, second, _, _, _, granters, byOwner, byMember⟩ := passed_accepted
  refine ⟨by rw [is]; decide, fun at_ epoch key slot value _ _ there => ?_⟩
  have here : at_ = keeper := by
    by_contra apart
    have empty : after sodium [] "" [granted, passedOn] at_ = start at_ := by
      unfold after
      rw [List.foldl_cons, List.foldl_cons, List.foldl_nil, submit_eq, second, submit_eq, first]
      exact (putAt_of_ne apart).trans (putAt_of_ne apart)
    rw [empty] at there
    exact nomatch there
  rw [here] at there ⊢
  have mem : value.granter ∈ [owner, member] :=
    granters ▸ List.mem_map.mpr ⟨(slot, value), Dict.mem_entries_iff.mpr there, rfl⟩
  rw [is]
  rcases List.mem_pair.mp mem with by_ | by_
  · exact by_ ▸ byOwner
  · exact by_ ▸ byMember

/-- The owner grants a member, who grants another one. -/
theorem passed_apart
    : Obtains sodium [] "" boxOf recordedKey (fun v _ => v = view) [granted, passedOn]
      ∧ Unmoved sodium [] "" [granted, passedOn]
      ∧ Withheld sodium [] "" boxOf recordedKey (· = leaver) [granted, passedOn] :=
  grants_apart passed_fair commitOf_inj passed_standing

/-- What a member can do besides: garbage in another's place, another encryption key for them, and the
encryption key of one who is revoked for somebody new.
-/
theorem misused
    : let blocked := after sodium [] "" [granted, sent [garbage], sent [makeGrant owner victim [12]]] keeper
      let moved := after sodium [] "" [granted, passedOn, sent [makeGrant member victim [77]]]
      let slipped := after sodium [] "" [granted, sent [makeGrant member [4] [13]]]
      checksOut sodium [] "" view (after sodium [] "" [granted, sent [garbage]] keeper)
          (makeGrant owner victim [12]) = true
      ∧ epochKey sodium view (loadKeys sodium [] "" view (boxOf victim) [blocked] .empty) 0 = none
      ∧ (recipients view ([keeper].map (after sodium [] "" [granted, passedOn]))).get? victim = some [12]
      ∧ (recipients view ([keeper].map moved)).get? victim = some [77]
      ∧ (recipients view ([keeper].map slipped)).get? [4] = some [13] := by
  decide +kernel

/-- A member who may grant takes another's key away, moves an encryption key and lets one who is revoked
back in.
-/
theorem member_misuses
    : (∀ key other, commitOf sodium key = commitOf sodium other → key = other)
      ∧ ¬ Obtains sodium [] "" boxOf recordedKey (fun v _ => v = view)
          [granted, sent [garbage], sent [makeGrant owner victim [12]]]
      ∧ ¬ Unmoved sodium [] "" [granted, passedOn, sent [makeGrant member victim [77]]]
      ∧ ¬ Withheld sodium [] "" boxOf recordedKey (· = leaver)
          [granted, sent [makeGrant member [4] [13]]] := by
  obtain ⟨ok, lost, before, moved, slipped⟩ := misused
  refine ⟨commitOf_inj, fun obtains => ?_, fun unmoved => ?_, fun withheld => ?_⟩
  · have loaded := obtains [granted, sent [garbage]] _ [] (makeGrant owner victim [12]) victim firstKey rfl
      (.head _) rfl ok rfl ⟨rfl, rfl⟩ rfl view [_] .empty rfl (.head _) rfl (le_refl _) rfl
    exact nomatch lost.symm.trans loaded
  · rcases unmoved [granted, passedOn] _ rfl view [keeper] victim [12] before with kept | ⟨e, mem, g, checked, by_, _⟩
    · have same := moved.symm.trans kept
      exact absurd (Option.some.inj same) (by decide)
    · cases List.mem_singleton.mp mem
      cases List.mem_singleton.mp checked.mem
      exact absurd by_ (by decide)
  · obtain ⟨e, mem, g, checked, by_, own, _⟩ := (withheld leaver rfl).1 view [keeper] [4] (by decide) slipped
    rcases List.mem_cons.mp mem with rfl | mem
    · cases List.mem_singleton.mp checked.mem
      exact absurd own (by decide)
    · cases List.mem_singleton.mp mem
      cases List.mem_singleton.mp checked.mem
      exact absurd by_ (by decide)

end Hypergraph.Channels.Grants
