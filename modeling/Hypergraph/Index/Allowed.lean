import Hypergraph.Index.Wiping
import Mathlib.Data.ENat.Basic

/-! What a device asks itself before it writes (`nextAllowed` in `lib/limit.js`): when its next record
would count. What it lets through, every reader counts, whatever part of the wiped blocks the reader
knows of, as long as the log's stamps don't go back.
-/

namespace Hypergraph.Index

open Encodings

/-- The loop of `nextAllowed`, over the blocks from `i` on, as many as given. -/
def nextAllowedFrom (stamp periodMs : Nat) (at_ : Nat → Known) (i : Nat) : Nat → ℕ∞
  | 0 => ⊤
  | left + 1 =>
      match at_ i with
      | .missing => nextAllowedFrom stamp periodMs at_ (i + 1) left
      | .wiped => nextAllowedFrom stamp periodMs at_ (i + 1) left
      | .stamp s => if (stamp : Int) - s ≥ periodMs then 0 else ↑(s + periodMs)

/-- The earliest stamp the next record, block `seq`, would count with, or 0 if it counts now. -/
def nextAllowed (seq stamp : Nat) (limit : Option WriteLimit) (at_ : Nat → Known) : ℕ∞ :=
  match limit with
  | none => 0
  | some limit =>
      if seq ≤ limit.records then 0
      else nextAllowedFrom stamp limit.periodMs at_ (seq - limit.records) limit.records

section Allowed

variable (stamps : Nat → Nat) (limit : Option WriteLimit) (seq : Nat)

/-- The first blocks of a log, up to `seq`, are stamped in order (the header has no stamp). -/
def InOrder : Prop := ∀ a b, 1 ≤ a → a ≤ b → b < seq → stamps a ≤ stamps b

/-- A record with this stamp counts for everyone who knows of some of the wiped blocks. -/
def CountsFor (gone : Nat → Bool) (stamp : Nat) : Prop :=
  ∀ known : Nat → Bool, (∀ k, known k = true → gone k = true)
    → judge seq stamp limit (wiped stamps known) = .ok

/-- What the device is answered is what the readers say: now, and the record counts for each of them;
from a time on, and it counts from then and not before; never, and it counts at no time.
-/
structure Agrees (gone : Nat → Bool) (stamp : Nat) (answer : ℕ∞) : Prop where
  now : answer = 0 → CountsFor stamps limit seq gone stamp
  from_
    : ∀ t : Nat, t ≠ 0 → answer = t
      → (∀ later, t ≤ later → CountsFor stamps limit seq gone later)
        ∧ ∀ earlier, earlier < t → judge seq earlier limit (wiped stamps gone) = .over_
  never : answer = ⊤ → ∀ any, judge seq any limit (wiped stamps gone) = .over_

variable {stamps limit seq} {stamp periodMs i left : Nat} {gone known : Nat → Bool}

/-- Both loops go by the first block that isn't wiped, or by none. -/
theorem loops_alike
    : (∃ k, i ≤ k ∧ k < i + left ∧ gone k = false
        ∧ nextAllowedFrom stamp periodMs (wiped stamps gone) i left
          = (if (stamp : Int) - stamps k ≥ periodMs then 0 else ↑(stamps k + periodMs))
        ∧ ∀ later, judgeFrom later periodMs (wiped stamps gone) i left
          = if (later : Int) - stamps k ≥ periodMs then .ok else .over_)
      ∨ nextAllowedFrom stamp periodMs (wiped stamps gone) i left = ⊤
        ∧ ∀ later, judgeFrom later periodMs (wiped stamps gone) i left = .over_ := by
  induction left generalizing i with
  | zero => exact .inr ⟨rfl, fun _ => rfl⟩
  | succ left ih =>
      cases here : gone i with
      | true =>
          have next : nextAllowedFrom stamp periodMs (wiped stamps gone) i (left + 1)
              = nextAllowedFrom stamp periodMs (wiped stamps gone) (i + 1) left := by
            simp only [nextAllowedFrom, wiped, here, if_true]
          have judged (later : Nat) : judgeFrom later periodMs (wiped stamps gone) i (left + 1)
              = judgeFrom later periodMs (wiped stamps gone) (i + 1) left := by
            simp only [judgeFrom, wiped, here, if_true]
          simp only [next, judged]
          rcases ih (i := i + 1) with ⟨k, from_, below, kept, rest⟩ | none_
          · exact .inl ⟨k, by omega, by omega, kept, rest⟩
          · exact .inr none_
      | false =>
          refine .inl ⟨i, le_refl i, by omega, here, ?_, fun later => ?_⟩
          · simp only [nextAllowedFrom, wiped, here, Bool.false_eq_true, if_false]
          · simp only [judgeFrom, wiped, here, Bool.false_eq_true, if_false]

/-- Who knows of fewer wiped blocks goes by an earlier one, stamped no later. -/
theorem judgeFrom_ok_of_fewer {k : Nat} (order : ∀ j, i ≤ j → j ≤ k → stamps j ≤ stamps k) (from_ : i ≤ k)
    (below : k < i + left) (kept : known k = false) (far : (stamp : Int) - stamps k ≥ periodMs)
    : judgeFrom stamp periodMs (wiped stamps known) i left = .ok := by
  induction left generalizing i with
  | zero => omega
  | succ left ih =>
      rw [judgeFrom]
      cases here : known i with
      | true =>
          simp only [wiped, here, if_true]
          rcases Nat.eq_or_lt_of_le from_ with rfl | after
          · rw [here] at kept
            cases kept
          · exact ih (fun j from_ => order j (by omega)) after (by omega)
      | false =>
          simp only [wiped, here, Bool.false_eq_true, if_false]
          have earlier := order i (le_refl i) from_
          rw [if_pos (by omega)]

theorem countsFor_first (first : ∀ l ∈ limit, seq ≤ l.records) : CountsFor stamps limit seq gone stamp := by
  intro known _
  cases limit with
  | none => rfl
  | some limit => exact if_pos (first limit rfl)

theorem Agrees.of_now (counts : CountsFor stamps limit seq gone stamp)
    : Agrees stamps limit seq gone stamp 0 where
  now _ := counts
  from_ _ some_ is := absurd (Nat.cast_eq_zero.mp is.symm) some_
  never is := nomatch is

/-- Where a record may be written now, it counts for whoever knows fewer of the log's blocks wiped. -/
theorem countsFor_of_nextAllowed (order : InOrder stamps seq)
    (now : nextAllowed seq stamp limit (wiped stamps gone) = 0)
    : CountsFor stamps limit seq gone stamp := by
  unfold nextAllowed at now
  cases limit with
  | none => exact countsFor_first fun _ is => nomatch is
  | some limit =>
      dsimp only at now
      by_cases first : seq ≤ limit.records
      · exact countsFor_first fun l is => Option.some.inj is ▸ first
      · rw [if_neg first] at now
        rcases @loops_alike stamps stamp limit.periodMs (seq - limit.records) limit.records gone with
          ⟨k, from_, below, kept, asked, _⟩ | ⟨asked, _⟩
        · rw [asked] at now
          split at now
          · rename_i far
            intro known fewer
            unfold judge
            dsimp only
            rw [if_neg first]
            refine judgeFrom_ok_of_fewer (fun j from_ upTo => order j k (by omega) upTo (by omega)) from_ below ?_ far
            exact Bool.eq_false_iff.mpr fun is => Bool.false_ne_true (kept ▸ fewer k is)
          · have zero := Nat.cast_eq_zero.mp now
            omega
        · rw [asked] at now
          cases now

/-- A device that asks when its next record counts is answered what the readers say. -/
theorem nextAllowed_agrees (order : InOrder stamps seq) (gone : Nat → Bool) (stamp : Nat)
    : Agrees stamps limit seq gone stamp (nextAllowed seq stamp limit (wiped stamps gone)) := by
  unfold nextAllowed
  cases limit with
  | none => exact .of_now (countsFor_first fun _ is => nomatch is)
  | some limit =>
      dsimp only
      by_cases first : seq ≤ limit.records
      · rw [if_pos first]
        exact .of_now (countsFor_first fun l is => Option.some.inj is ▸ first)
      · rw [if_neg first]
        have judge_ (any : Nat) (known : Nat → Bool) : judge seq any (some limit) (wiped stamps known)
            = judgeFrom any limit.periodMs (wiped stamps known) (seq - limit.records) limit.records := if_neg first
        rcases @loops_alike stamps stamp limit.periodMs (seq - limit.records) limit.records gone with
          ⟨k, from_, below, kept, asked, judged⟩ | ⟨asked, judged⟩
        · have counts (later : Nat) (far : (later : Int) - stamps k ≥ limit.periodMs)
              : CountsFor stamps (some limit) seq gone later := by
            intro known fewer
            rw [judge_]
            refine judgeFrom_ok_of_fewer (fun j from_ upTo => order j k (by omega) upTo (by omega)) from_ below ?_ far
            exact Bool.eq_false_iff.mpr fun is => Bool.false_ne_true (kept ▸ fewer k is)
          rw [asked]
          split
          · rename_i far
            exact .of_now (counts stamp far)
          · refine ⟨fun is => ?_, fun t _ is => ?_, fun is => absurd is (ENat.natCast_ne_top _)⟩
            · have zero := Nat.cast_eq_zero.mp is
              omega
            · have same := ENat.natCast_inj.mp is
              refine ⟨fun later from_ => counts later (by omega), fun earlier before => ?_⟩
              rw [judge_, judged, if_neg (by omega)]
        · rw [asked]
          exact ⟨fun is => (nomatch is), fun t _ is => absurd is.symm (ENat.natCast_ne_top t),
            fun _ any => (judge_ any gone).trans (judged any)⟩

-- With nothing wiped

/-- Of a log with nothing wiped, its first records count, and those stamped a period or more after the
block `records` places before.
-/
theorem judge_unwiped {l : WriteLimit}
    : judge seq stamp (some l) (wiped stamps fun _ => false) = .ok
      ↔ seq ≤ l.records ∨ l.records ≠ 0 ∧ stamps (seq - l.records) + l.periodMs ≤ stamp := by
  unfold judge
  dsimp only
  split
  · rename_i first
    exact iff_of_true rfl (.inl first)
  · rename_i later
    cases records : l.records with
    | zero => exact iff_of_false (fun is => by cases is) (by omega)
    | succ n =>
        rw [records] at later
        simp only [judgeFrom, wiped, Bool.false_eq_true, if_false]
        split
        · exact iff_of_true rfl (.inr ⟨by omega, by omega⟩)
        · exact iff_of_false (fun is => by cases is) (by omega)

/-- What counts as a block counts as an earlier one. -/
theorem judge_earlier {l : WriteLimit} {before : Nat} (order : InOrder stamps seq) (earlier : before ≤ seq)
    (ok : judge seq stamp (some l) (wiped stamps fun _ => false) = .ok)
    : judge before stamp (some l) (wiped stamps fun _ => false) = .ok := by
  rw [judge_unwiped] at ok ⊢
  by_cases first : before ≤ l.records
  · exact .inl first
  · rcases ok with few | ⟨some_, far⟩
    · omega
    · have back := order (before - l.records) (seq - l.records) (by omega) (by omega) (by omega)
      exact .inr ⟨some_, by omega⟩

/-- Only the stamps of the blocks before it, the header's apart, say whether a block counts. -/
theorem judge_unwiped_congr {l : WriteLimit} {stamps' : Nat → Nat}
    (same : ∀ k, 1 ≤ k → k < seq → stamps' k = stamps k)
    : judge seq stamp (some l) (wiped stamps' fun _ => false) = .ok
      ↔ judge seq stamp (some l) (wiped stamps fun _ => false) = .ok := by
  rw [judge_unwiped, judge_unwiped]
  by_cases first : seq ≤ l.records
  · exact iff_of_true (.inl first) (.inl first)
  · refine or_congr_right (and_congr_right fun some_ => ?_)
    rw [same (seq - l.records) (by omega) (by omega)]

end Allowed

/-- A log of five blocks under a limit of two an hour, the third wiped. -/
theorem nextAllowed_agrees_hour
    : Agrees (fun k => k * 1000000) (some ⟨2, 3600000⟩) 5 (· == 3) 6000000
        (nextAllowed 5 6000000 (some ⟨2, 3600000⟩) (wiped (fun k => k * 1000000) (· == 3))) :=
  nextAllowed_agrees (fun _ _ _ before _ => Nat.mul_le_mul_right _ before) _ _

example : nextAllowed 5 6000000 (some ⟨2, 3600000⟩) (wiped (fun k => k * 1000000) (· == 3)) = ↑(7600000 : Nat) :=
  rfl

end Hypergraph.Index
