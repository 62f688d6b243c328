import Mathlib.Data.ENat.Basic
import Hypergraph.Encodings

/-! Activity entries (`lib/activity.js`): "block `start` of this log is its first record stamped
in `period` or later". How they are derived from a log's blocks, and how one is checked against
the log.
-/

namespace Hypergraph.Reading

open Encodings

def PERIOD_MS : Nat := 60 * 60 * 1000

def periodOf (stamp : Nat) : Nat := stamp / PERIOD_MS

structure Entry where
  log : Key
  period : Nat
  start : Nat
  deriving DecidableEq

/-- What a block shows: its stamp, or that it is wiped (or can't be read). -/
inductive Block
  | wiped
  | stamped (stamp : Nat)
  deriving DecidableEq

inductive Verdict
  | ok
  | false
  /-- A block needed isn't available yet. -/
  | wait
  deriving DecidableEq

variable {block get : Nat → Option Block} {limit : ℕ∞} {entry : Entry}

/-- The end of `checkEntry`: what the block at `start` says, where it is here. A reader can't
tell whether a missing one is wiped, and an entry starting too early only makes readers read
more.
-/
def checkAt (period : Nat) : Option Block → Verdict
  | some (.stamped stamp) => if period ≤ periodOf stamp then .ok else .false
  | _ => .ok

/-- Is the entry true of its log? `before`: the block before `start` (ignored for start 1: the
header), `at_`: the block at `start`; each none where it isn't available. `limit`: the log's cut.
-/
def checkEntry (entry : Entry) (before at_ : Option Block) (limit : ℕ∞) : Verdict :=
  if entry.start = 0 ∨ limit ≤ entry.start then .false
  else if entry.start = 1 then checkAt entry.period at_
  else match before with
    | some .wiped => .false
    | none => .wait
    | some (.stamped stamp) =>
        if entry.period ≤ periodOf stamp then .false else checkAt entry.period at_

/-- An entry is true of a log's blocks where it passes its check with all of them at hand. -/
def Entry.Holds (block : Nat → Option Block) (limit : ℕ∞) (entry : Entry) : Prop :=
  checkEntry entry (block (entry.start - 1)) (block entry.start) limit = .ok

instance : Decidable (entry.Holds block limit) :=
  inferInstanceAs (Decidable (checkEntry _ _ _ _ = _))

theorem checkAt_ne_false {period : Nat} {at_ here : Option Block}
    (fits : checkAt period here = .ok) (answers : at_ = none ∨ at_ = here)
    : checkAt period at_ ≠ .false := by
  rcases answers with rfl | rfl
  · simp [checkAt]
  · rw [fits]
    simp

/-- A true entry is never found false, whichever of its blocks are available. -/
theorem Entry.Holds.not_false {before at_ : Option Block} (holds : entry.Holds block limit)
    (before_ : before = none ∨ before = block (entry.start - 1))
    (at__ : at_ = none ∨ at_ = block entry.start)
    : checkEntry entry before at_ limit ≠ .false := by
  unfold Entry.Holds checkEntry at holds
  unfold checkEntry
  by_cases counts : entry.start = 0 ∨ limit ≤ entry.start
  · rw [if_pos counts] at holds
    cases holds
  · rw [if_neg counts] at holds ⊢
    by_cases first : entry.start = 1
    · rw [if_pos first] at holds ⊢
      exact checkAt_ne_false holds at__
    · rw [if_neg first] at holds ⊢
      rcases before_ with rfl | rfl
      · simp
      · split at holds
        · cases holds
        · cases holds
        · split at holds
          · cases holds
          · rename_i earlier
            rw [if_neg earlier]
            exact checkAt_ne_false holds at__

-- Deriving them

/-- Where deriving a log's entries stands: those found, the next block to look at, the last
readable block before it (0: the header) and its period (none for the header).
-/
structure Derived where
  entries : List (Nat × Nat) := []
  next : Nat
  last : Nat
  period : Option Nat
  deriving DecidableEq

def Derived.later (derived : Derived) (period : Nat) : Prop :=
  ∀ old, derived.period = some old → old < period

instance (derived : Derived) (period : Nat) : Decidable (derived.later period) :=
  decidable_of_iff (derived.period.all (· < period)) (by
    unfold Derived.later
    cases derived.period <;> simp)

/-- The entries of `count` blocks of a log, from `next` on, in order; it stops at one that isn't
held. A period starts right after the last readable block of an earlier period.
-/
def derive (get : Nat → Option Block) : Nat → Derived → Derived
  | 0, derived => derived
  | count + 1, derived =>
      match get derived.next with
      | none => derived
      | some .wiped => derive get count { derived with next := derived.next + 1 }
      | some (.stamped stamp) =>
          let p := periodOf stamp
          if derived.later p then
            derive get count {
              entries := derived.entries ++ [(p, derived.last + 1)]
              next := derived.next + 1
              last := derived.next
              period := some p }
          else
            derive get count
              { derived with next := derived.next + 1, last := derived.next }

/-- Block `seq` is the header, or is readable and stamped before `period`. -/
def Earlier (block : Nat → Option Block) (seq period : Nat) : Prop :=
  seq = 0 ∨ ∃ stamp, block seq = some (.stamped stamp) ∧ periodOf stamp < period

/-- What deriving keeps: the last readable block is one of no later a period than the one it
is in, and from it on every block looked at is wiped; each entry found is true.
-/
structure Derived.Sound (block : Nat → Option Block) (log : Key) (derived : Derived) : Prop where
  ahead : derived.last < derived.next
  readable : derived.last ≠ 0
    → ∃ old stamp, derived.period = some old
      ∧ block derived.last = some (.stamped stamp) ∧ periodOf stamp ≤ old
  wiped : ∀ seq, derived.last < seq → seq < derived.next → block seq = some .wiped
  holds : ∀ found ∈ derived.entries, ∀ limit : ℕ∞,
    found.2 < limit → (⟨log, found.1, found.2⟩ : Entry).Holds block limit

theorem Derived.Sound.begin (log : Key) : Derived.Sound block log ⟨[], 1, 0, none⟩ where
  ahead := Nat.one_pos
  readable := fun other => absurd rfl other
  wiped := fun seq after_ before_ =>
    absurd (Nat.lt_of_lt_of_le after_ (Nat.le_of_lt_succ before_)) (Nat.lt_irrefl 0)
  holds := fun found listed => by cases listed

/-- An entry starting right after a readable block of an earlier period, with only wiped blocks
from there to the record it is for, is true.
-/
theorem holds_next {log : Key} {last next stamp period : Nat} (ahead : last < next)
    (earlier : Earlier block last period)
    (wiped : ∀ seq, last < seq → seq < next → block seq = some .wiped)
    (here : block next = some (.stamped stamp)) (fits : period ≤ periodOf stamp)
    (counts : ((last + 1 : Nat) : ℕ∞) < limit)
    : (⟨log, period, last + 1⟩ : Entry).Holds block limit := by
  have start : checkAt period (block (last + 1)) = .ok := by
    rcases Nat.lt_or_ge (last + 1) next with inside | outside
    · rw [wiped (last + 1) (Nat.lt_succ_self last) inside]
      rfl
    · have same : last + 1 = next := by omega
      rw [same, here]
      exact if_pos fits
  have open_ : ¬ (last + 1 = 0 ∨ limit ≤ ((last + 1 : Nat) : ℕ∞)) := by
    rintro (none_ | past)
    · omega
    · exact absurd counts (not_lt.mpr past)
  unfold Entry.Holds checkEntry
  rw [if_neg open_]
  rcases earlier with rfl | ⟨old, found, before_⟩
  · exact start
  · by_cases first : last + 1 = 1
    · rw [if_pos first]
      exact start
    · rw [if_neg first, Nat.add_sub_cancel, found]
      exact (if_neg (Nat.not_le.mpr before_)).trans start

/-- What the blocks show of a log, looked at in order, gives true entries only. -/
theorem derive_sound {log : Key} {count : Nat} {derived : Derived}
    (shows : ∀ seq shown, get seq = some shown → block seq = some shown)
    (sound : derived.Sound block log)
    : (derive get count derived).Sound block log := by
  induction count generalizing derived with
  | zero => exact sound
  | succ count ih =>
      unfold derive
      cases found : get derived.next with
      | none => exact sound
      | some shown =>
          have here := shows _ _ found
          cases shown with
          | wiped =>
              apply ih
              refine ⟨Nat.lt_succ_of_lt sound.ahead, sound.readable, ?_, sound.holds⟩
              intro seq after_ before_
              rcases Nat.lt_succ_iff_lt_or_eq.mp before_ with inside | rfl
              · exact sound.wiped seq after_ inside
              · exact here
          | stamped stamp =>
              have nothing : ∀ seq, derived.next < seq → seq < derived.next + 1
                  → block seq = some .wiped := by
                intro seq after_ before_
                omega
              dsimp only
              split
              · rename_i later
                apply ih
                refine ⟨Nat.lt_succ_self _, fun _ => ⟨_, stamp, rfl, here, Nat.le_refl _⟩,
                  nothing, ?_⟩
                intro entry listed limit counts
                rcases List.mem_append.mp listed with before_ | last
                · exact sound.holds entry before_ limit counts
                · obtain rfl := List.mem_singleton.mp last
                  refine holds_next sound.ahead ?_ sound.wiped here (Nat.le_refl _) counts
                  by_cases header : derived.last = 0
                  · exact .inl header
                  · obtain ⟨old, before_, period, last_, earlier⟩ := sound.readable header
                    exact .inr ⟨before_, last_, lt_of_le_of_lt earlier (later old period)⟩
              · rename_i same
                apply ih
                refine ⟨Nat.lt_succ_self _, fun _ => ?_, nothing, sound.holds⟩
                obtain ⟨old, period, early⟩ : ∃ old, derived.period = some old
                    ∧ periodOf stamp ≤ old := by
                  simpa [Derived.later] using same
                exact ⟨old, stamp, period, here, early⟩

/-- What a member derives from the start of a log, from the blocks it holds, is true of it. -/
theorem derive_holds {log : Key} {count : Nat} {found : Nat × Nat}
    (shows : ∀ seq shown, get seq = some shown → block seq = some shown)
    (listed : found ∈ (derive get count ⟨[], 1, 0, none⟩).entries) (counts : found.2 < limit)
    : (⟨log, found.1, found.2⟩ : Entry).Holds block limit :=
  (derive_sound shows (.begin log)).holds found listed limit counts

/-- Blocks 1 and 2 in period 0, block 3 wiped, block 4 in period 1. -/
example
    : derive (fun seq => if seq = 3 then some .wiped else
        if seq < 5 then some (.stamped (seq / 4 * PERIOD_MS)) else none) 9 ⟨[], 1, 0, none⟩
      = ⟨[(0, 1), (1, 3)], 5, 4, some 1⟩ := by
  decide

end Hypergraph.Reading
