import Hypergraph.Reading.Complete

/-! What deriving a log's activity entries comes to, block by block (`lib/activity.js`, `derive`):
the same in any batches, in order, provable to whoever holds the blocks, and missing nothing a
reader from a horizon on asks for.
-/

namespace Hypergraph.Reading

open Encodings

variable {get : Nat → Option Block} {derived : Derived}

-- Batches

/-- Deriving in batches, each going on where the one before ended; the entries are all those the
batches return, in order.
-/
def deriveBatches (get : Nat → Option Block) : List Nat → Derived → Derived
  | [], derived => derived
  | count :: rest, derived =>
      let batch := derive get count { derived with entries := [] }
      deriveBatches get rest { batch with entries := derived.entries ++ batch.entries }

theorem derive_append (get : Nat → Option Block) (count : Nat) (found : List (Nat × Nat))
    (derived : Derived)
    : derive get count { derived with entries := found ++ derived.entries }
      = { derive get count derived with entries := found ++ (derive get count derived).entries } := by
  induction count generalizing derived with
  | zero => rfl
  | succ count ih =>
      unfold derive
      cases get derived.next with
      | none => rfl
      | some shown =>
          cases shown with
          | wiped => exact ih { derived with next := derived.next + 1 }
          | stamped stamp =>
              dsimp only
              by_cases later : derived.later (periodOf stamp)
              · have later' : Derived.later { derived with entries := found ++ derived.entries }
                    (periodOf stamp) := later
                rw [if_pos later, if_pos later', List.append_assoc]
                exact ih ⟨derived.entries ++ [(periodOf stamp, derived.last + 1)],
                  derived.next + 1, derived.next, some (periodOf stamp)⟩
              · have same : ¬ Derived.later { derived with entries := found ++ derived.entries }
                    (periodOf stamp) := later
                rw [if_neg later, if_neg same]
                exact ih { derived with next := derived.next + 1, last := derived.next }

theorem derive_add (get : Nat → Option Block) (first second : Nat) (derived : Derived)
    : derive get second (derive get first derived) = derive get (first + second) derived := by
  induction first generalizing derived with
  | zero => rw [Nat.zero_add]; rfl
  | succ first ih =>
      rw [Nat.succ_add]
      cases shown : get derived.next with
      | none =>
          have stays (count : Nat) : derive get count derived = derived := by
            cases count with
            | zero => rfl
            | succ count => simp only [derive, shown]
          rw [stays, stays, stays]
      | some block =>
          cases block with
          | wiped => simpa only [derive, shown] using ih _
          | stamped stamp =>
              simp only [derive, shown]
              split
              · exact ih _
              · exact ih _

/-- Any batches find what one pass finds; induction on the batches. -/
theorem deriveBatches_eq (get : Nat → Option Block) (counts : List Nat) (derived : Derived)
    : deriveBatches get counts derived = derive get counts.sum derived := by
  induction counts generalizing derived with
  | nil => rfl
  | cons count rest ih =>
      have batch := derive_append get count derived.entries { derived with entries := [] }
      simp only [List.append_nil] at batch
      unfold deriveBatches
      rw [ih, List.sum_cons, ← derive_add, ← batch]

-- In order, missing nothing

/-- What the entries found say of the blocks looked at: they are in order, each starts no later
than the last readable block, and every record looked at is at or after the start of an entry of
its period or a later one.
-/
structure Derived.Ordered (get : Nat → Option Block) (derived : Derived) : Prop where
  ahead : derived.last < derived.next
  order : derived.entries.Pairwise fun first second => first.1 < second.1 ∧ first.2 < second.2
  within : ∀ entry ∈ derived.entries, 0 < entry.2 ∧ entry.2 ≤ derived.last
    ∧ ∃ period, derived.period = some period ∧ entry.1 ≤ period
  latest : ∀ period, derived.period = some period
    → ∃ start, (period, start) ∈ derived.entries ∧ start ≤ derived.last
  found : ∀ seq stamp, 0 < seq → seq < derived.next → get seq = some (.stamped stamp)
    → ∃ entry ∈ derived.entries, periodOf stamp ≤ entry.1 ∧ entry.2 ≤ seq

theorem Derived.Ordered.begin : Derived.Ordered get ⟨[], 1, 0, none⟩ where
  ahead := Nat.one_pos
  order := .nil
  within := by simp
  latest := by simp
  found seq stamp after_ before_ := by
    have first : seq < 1 := before_
    omega

/-- One record: of a later period than all before, or of one no later. -/
theorem Derived.Ordered.stamped (ordered : derived.Ordered get) {stamp : Nat}
    (here : get derived.next = some (.stamped stamp))
    : (derived.later (periodOf stamp) → Derived.Ordered get
        ⟨derived.entries ++ [(periodOf stamp, derived.last + 1)], derived.next + 1, derived.next,
          some (periodOf stamp)⟩)
      ∧ (¬ derived.later (periodOf stamp) → Derived.Ordered get
        { derived with next := derived.next + 1, last := derived.next }) := by
  have ahead := ordered.ahead
  constructor
  · intro later
    constructor
    · exact Nat.lt_succ_self _
    · refine List.pairwise_append.mpr ⟨ordered.order, List.pairwise_singleton _ _, ?_⟩
      intro first listed second last
      obtain rfl := List.mem_singleton.mp last
      obtain ⟨_, start, period, is, before_⟩ := ordered.within first listed
      exact ⟨Nat.lt_of_le_of_lt before_ (later period is), Nat.lt_succ_of_le start⟩
    · intro entry listed
      rcases List.mem_append.mp listed with before_ | last
      · obtain ⟨pos, start, period, is, older⟩ := ordered.within entry before_
        have newer := later period is
        exact ⟨pos, Nat.le_of_lt (Nat.lt_of_le_of_lt start ahead), _, rfl,
          Nat.le_of_lt (Nat.lt_of_le_of_lt older newer)⟩
      · obtain rfl := List.mem_singleton.mp last
        exact ⟨Nat.succ_pos _, ahead, _, rfl, Nat.le_refl _⟩
    · intro period is
      cases is
      exact ⟨derived.last + 1, by simp, ahead⟩
    · intro seq stamp' pos before_ shown
      rcases Nat.lt_succ_iff_lt_or_eq.mp before_ with inside | rfl
      · obtain ⟨entry, listed, covers⟩ := ordered.found seq stamp' pos inside shown
        exact ⟨entry, List.mem_append_left _ listed, covers⟩
      · cases Option.some.inj (here.symm.trans shown)
        exact ⟨_, List.mem_append_right _ (List.mem_singleton_self _), Nat.le_refl _, ahead⟩
  · intro older
    obtain ⟨period, is, early⟩ : ∃ period, derived.period = some period
        ∧ periodOf stamp ≤ period := by
      simpa [Derived.later] using older
    constructor
    · exact Nat.lt_succ_self _
    · exact ordered.order
    · intro entry listed
      obtain ⟨pos, start, rest⟩ := ordered.within entry listed
      exact ⟨pos, Nat.le_of_lt (Nat.lt_of_le_of_lt start ahead), rest⟩
    · intro period' is'
      obtain ⟨start, listed, before_⟩ := ordered.latest period' is'
      exact ⟨start, listed, Nat.le_of_lt (Nat.lt_of_le_of_lt before_ ahead)⟩
    · intro seq stamp' pos before_ shown
      rcases Nat.lt_succ_iff_lt_or_eq.mp before_ with inside | rfl
      · exact ordered.found seq stamp' pos inside shown
      · cases Option.some.inj (here.symm.trans shown)
        obtain ⟨start, listed, before_⟩ := ordered.latest period is
        exact ⟨_, listed, early, Nat.le_of_lt (Nat.lt_of_le_of_lt before_ ahead)⟩

/-- The blocks looked at in order keep it so; induction on their count. -/
theorem Derived.Ordered.derive (ordered : derived.Ordered get) (count : Nat)
    : (Reading.derive get count derived).Ordered get := by
  induction count generalizing derived with
  | zero => exact ordered
  | succ count ih =>
      unfold Reading.derive
      cases here : get derived.next with
      | none => exact ordered
      | some shown =>
          cases shown with
          | wiped =>
              apply ih
              refine ⟨Nat.lt_succ_of_lt ordered.ahead, ordered.order, ordered.within,
                ordered.latest, ?_⟩
              intro seq stamp pos before_ found
              rcases Nat.lt_succ_iff_lt_or_eq.mp before_ with inside | rfl
              · exact ordered.found seq stamp pos inside found
              · cases here.symm.trans found
          | stamped stamp =>
              obtain ⟨newer, older⟩ := ordered.stamped here
              dsimp only
              split
              · rename_i later
                exact ih (newer later)
              · rename_i same
                exact ih (older same)

/-- It looks at all the blocks it is to, up to the first that isn't held. -/
theorem derive_next (count : Nat) (derived : Derived)
    : (derive get count derived).next ≤ derived.next + count
      ∧ ((∀ seq, derived.next ≤ seq → seq < derived.next + count → (get seq).isSome)
        → (derive get count derived).next = derived.next + count) := by
  induction count generalizing derived with
  | zero => exact ⟨Nat.le_refl _, fun _ => rfl⟩
  | succ count ih =>
      have step (after_ : Derived) (next : after_.next = derived.next + 1)
          : (derive get count after_).next ≤ derived.next + (count + 1)
            ∧ ((∀ seq, derived.next ≤ seq → seq < derived.next + (count + 1) → (get seq).isSome)
              → (derive get count after_).next = derived.next + (count + 1)) := by
        obtain ⟨most, all⟩ := ih after_
        rw [next] at most all
        refine ⟨by omega, fun held => ?_⟩
        rw [all fun seq from_ to_ => held seq (by omega) (by omega)]
        omega
      unfold derive
      cases here : get derived.next with
      | none =>
          refine ⟨Nat.le_add_right _ _, fun held => ?_⟩
          have held' := held derived.next (Nat.le_refl _) (by omega)
          rw [here] at held'
          cases held'
      | some shown =>
          cases shown with
          | wiped => exact step _ rfl
          | stamped stamp =>
              dsimp only
              split
              · exact step _ rfl
              · exact step _ rfl

-- Where a reader starts

/-- The lowest start of a log's entries at or after `period`, if any (`#startOf`). -/
def startOf (periods : List (Nat × Nat)) (period : Nat) : Option Nat :=
  ((periods.filter fun entry => period ≤ entry.1).map Prod.snd).min?

theorem startOf_le {periods : List (Nat × Nat)} {period : Nat} {entry : Nat × Nat}
    (listed : entry ∈ periods) (later : period ≤ entry.1)
    : ∃ start, startOf periods period = some start ∧ start ≤ entry.2 := by
  have here : entry.2 ∈ (periods.filter fun entry => period ≤ entry.1).map Prod.snd :=
    List.mem_map.mpr ⟨entry, List.mem_filter.mpr ⟨listed, by simpa using later⟩, rfl⟩
  unfold startOf
  cases least : ((periods.filter fun entry => period ≤ entry.1).map Prod.snd).min? with
  | none =>
      rw [List.min?_eq_none_iff.mp least] at here
      cases here
  | some start => exact ⟨start, rfl, (List.min?_eq_some_iff.mp least).2 _ here⟩

/-- A log's blocks, from block 1 on; block 0 is its header. -/
def blockOf (log : List Block) : Nat → Option Block
  | 0 => none
  | seq + 1 => log[seq]?

/-- The entries of a log, derived in one pass. -/
def entriesOf (log : List Block) : List (Nat × Nat) :=
  (derive (blockOf log) log.length ⟨[], 1, 0, none⟩).entries

theorem Entry.Holds.unseen {block : Nat → Option Block} {limit : ℕ∞} {entry : Entry}
    (holds : entry.Holds block limit)
    : checkEntry entry (block (entry.start - 1)) none limit = .ok := by
  unfold Entry.Holds checkEntry at holds
  unfold checkEntry
  split at holds
  · cases holds
  · rename_i counts
    rw [if_neg counts]
    split at holds
    · rename_i first
      exact if_pos first
    · rename_i first
      rw [if_neg first]
      split at holds
      · cases holds
      · cases holds
      · split at holds
        · cases holds
        · rename_i earlier
          exact if_neg earlier

/-- What is asked of a log's entries: any batches derive them, they are in order, whoever holds
the log finds each of them true, and from the lowest start at or after a period on lies every
record of that period or a later one.
-/
structure ExactEntries (log : List Block) : Prop where
  batches : ∀ counts : List Nat, counts.sum = log.length
    → (deriveBatches (blockOf log) counts ⟨[], 1, 0, none⟩).entries = entriesOf log
  order : (entriesOf log).Pairwise fun first second => first.1 < second.1 ∧ first.2 < second.2
  checked : ∀ key, ∀ entry ∈ entriesOf log, ∀ limit : ℕ∞, log.length < limit
    → ∀ at_, at_ = blockOf log entry.2 ∨ at_ = none
    → checkEntry ⟨key, entry.1, entry.2⟩ (blockOf log (entry.2 - 1)) at_ limit = .ok
  reached : ∀ period seq stamp, blockOf log seq = some (.stamped stamp) → period ≤ periodOf stamp
    → ∃ start, startOf (entriesOf log) period = some start ∧ start ≤ seq

/-- The entries of every log are exact, whatever its stamps and whichever of its blocks are
wiped.
-/
theorem entries_exact (log : List Block) : ExactEntries log := by
  have first : Derived.Ordered (blockOf log) ⟨[], 1, 0, none⟩ := .begin
  have ordered := first.derive log.length
  have held : ∀ seq, 1 ≤ seq → seq < 1 + log.length → (blockOf log seq).isSome := by
    intro seq from_ to_
    obtain ⟨before_, rfl⟩ : ∃ before_, seq = before_ + 1 := ⟨seq - 1, by omega⟩
    simp only [blockOf, Option.isSome_iff_ne_none, ne_eq, List.getElem?_eq_none_iff]
    omega
  have next : (derive (blockOf log) log.length ⟨[], 1, 0, none⟩).next = 1 + log.length :=
    (derive_next log.length ⟨[], 1, 0, none⟩).2 held
  constructor
  · intro counts all
    rw [deriveBatches_eq, all]
    rfl
  · exact ordered.order
  · intro key entry listed limit counts at_ seen
    have start := (ordered.within entry listed).2.1
    have ahead := ordered.ahead
    have inside : (entry.2 : ℕ∞) ≤ log.length := by
      exact_mod_cast (by omega : entry.2 ≤ log.length)
    have holds : (⟨key, entry.1, entry.2⟩ : Entry).Holds (blockOf log) limit :=
      derive_holds (fun _ _ shown => shown) listed (lt_of_le_of_lt inside counts)
    rcases seen with rfl | rfl
    · exact holds
    · exact holds.unseen
  · intro period seq stamp shown later
    obtain ⟨before_, rfl⟩ : ∃ before_, seq = before_ + 1 := by
      cases seq with
      | zero => cases shown
      | succ before_ => exact ⟨before_, rfl⟩
    have inside : before_ < log.length := (List.getElem?_eq_some_iff.mp shown).1
    obtain ⟨entry, listed, covers, at_⟩ := ordered.found (before_ + 1) stamp (Nat.succ_pos _)
      (by omega) shown
    obtain ⟨start, found, least⟩ := startOf_le listed (Nat.le_trans later covers)
    exact ⟨start, found, Nat.le_trans least at_⟩

end Hypergraph.Reading
