import Hypergraph.Index.Limit

/-! What deletes do to the write limit: a wiped block is judged by the next readable one, so a delete
may hand a record's judgment to a block that was stamped long before. A block not known makes the
judgment wait, or changes nothing.
-/

namespace Hypergraph.Index

open Encodings

/-- What is known of a log's blocks, once some of them are wiped. -/
def wiped (stamps : Nat → Nat) (gone : Nat → Bool) (k : Nat) : Known :=
  if gone k then .wiped else .stamp (stamps k)

/-- The same where some blocks aren't known. -/
def partly (at_ : Nat → Known) (missing : Nat → Bool) (k : Nat) : Known :=
  if missing k then .missing else at_ k

section Judged

variable (stamps : Nat → Nat) (limit : Option WriteLimit) (seq : Nat)

/-- Deleting more frees no room: what is over the limit stays over it. -/
def FreesNothing : Prop :=
  ∀ gone more : Nat → Bool, (∀ k, gone k = true → more k = true)
    → judge seq (stamps seq) limit (wiped stamps gone) = .over_
    → judge seq (stamps seq) limit (wiped stamps more) = .over_

/-- What isn't known is waited for, or doesn't matter. -/
def WaitsOrAgrees : Prop :=
  ∀ (gone missing : Nat → Bool),
    judge seq (stamps seq) limit (partly (wiped stamps gone) missing) = .wait
    ∨ judge seq (stamps seq) limit (partly (wiped stamps gone) missing)
      = judge seq (stamps seq) limit (wiped stamps gone)

/-- Of the blocks the judgment may fall to, none that makes the record count comes after one that
makes it one too many: the author stamped no block that far back.
-/
def NoneStampedBack : Prop :=
  ∀ l ∈ limit, l.records < seq → ∀ near far, seq - l.records ≤ near → near < far → far < seq
    → (stamps seq : Int) - stamps near < l.periodMs → (stamps seq : Int) - stamps far < l.periodMs

end Judged

-- The loop

variable {stamps : Nat → Nat} {stamp periodMs i left : Nat} {gone more : Nat → Bool}

/-- The loop answers by the first block not wiped. -/
theorem judgeFrom_over
    : judgeFrom stamp periodMs (wiped stamps gone) i left = .over_
      ↔ ∀ k, i ≤ k → k < i + left → gone k = false → (∀ j, i ≤ j → j < k → gone j = true)
        → (stamp : Int) - stamps k < periodMs := by
  induction left generalizing i with
  | zero =>
      refine ⟨fun _ k from_ below => ?_, fun _ => rfl⟩
      omega
  | succ left ih =>
      cases here : gone i with
      | true =>
          rw [judgeFrom]
          simp only [wiped, here, if_true]
          rw [← funext fun k => (rfl : wiped stamps gone k = _), ih]
          constructor
          · intro later k from_ below kept before
            rcases Nat.eq_or_lt_of_le from_ with rfl | after
            · rw [here] at kept
              cases kept
            · exact later k after (by omega) kept fun j from_ below => before j (by omega) below
          · intro all k from_ below kept before
            refine all k (by omega) (by omega) kept fun j from_ below => ?_
            rcases Nat.eq_or_lt_of_le from_ with rfl | after
            · exact here
            · exact before j after below
      | false =>
          rw [judgeFrom]
          simp only [wiped, here, Bool.false_eq_true, if_false]
          split
          · refine ⟨fun is => (by cases is), fun all => ?_⟩
            have near := all i (le_refl i) (by omega) here fun j from_ below => by omega
            omega
          · refine ⟨fun _ k from_ below kept before => ?_, fun _ => rfl⟩
            rcases Nat.eq_or_lt_of_le from_ with rfl | after
            · omega
            · have wiped := before i (le_refl i) after
              rw [here] at wiped
              cases wiped

theorem judge_over {limit : Option WriteLimit} {seq : Nat}
    : judge seq stamp limit (wiped stamps gone) = .over_
      ↔ ∃ l, limit = some l ∧ l.records < seq
        ∧ ∀ k, seq - l.records ≤ k → k < seq → gone k = false
          → (∀ j, seq - l.records ≤ j → j < k → gone j = true) → (stamp : Int) - stamps k < l.periodMs := by
  cases limit with
  | none => simp [judge]
  | some l =>
      simp only [judge, Option.some.injEq, exists_eq_left']
      by_cases first : seq ≤ l.records
      · rw [if_pos first]
        exact ⟨fun is => (nomatch is), fun ⟨late, _⟩ => absurd first (not_le.mpr late)⟩
      · rw [if_neg first, judgeFrom_over, Nat.sub_add_cancel (by omega)]
        exact ⟨fun all => ⟨by omega, all⟩, fun ⟨_, all⟩ => all⟩

/-- The loop waits, or answers as it would with all known: induction on the blocks it may look at. -/
theorem judgeFrom_partly {at_ : Nat → Known} {missing : Nat → Bool}
    : judgeFrom stamp periodMs (partly at_ missing) i left = .wait
      ∨ judgeFrom stamp periodMs (partly at_ missing) i left = judgeFrom stamp periodMs at_ i left := by
  induction left generalizing i with
  | zero => exact .inr rfl
  | succ left ih =>
      cases here : missing i with
      | true =>
          left
          rw [judgeFrom]
          simp [partly, here]
      | false =>
          rw [judgeFrom, judgeFrom]
          have same : partly at_ missing i = at_ i := by simp [partly, here]
          rw [same]
          cases at_ i with
          | missing => exact .inl rfl
          | wiped => exact ih
          | stamp s => exact .inr rfl

theorem waitsOrAgrees (stamps : Nat → Nat) (limit : Option WriteLimit) (seq : Nat)
    : WaitsOrAgrees stamps limit seq := by
  intro gone missing
  cases limit with
  | none => exact .inr rfl
  | some l =>
      by_cases first : seq ≤ l.records
      · exact .inr (by simp [judge, first])
      · simpa only [judge, if_neg first] using judgeFrom_partly

-- When deleting frees nothing

/-- Deletes free no room in a log, and what a member doesn't hold never makes it judge otherwise, just
when the author stamped no block so far back that a later block of those judged by makes the record
count where an earlier one doesn't.
-/
theorem freesNothing_iff (stamps : Nat → Nat) (limit : Option WriteLimit) (seq : Nat)
    : FreesNothing stamps limit seq ∧ WaitsOrAgrees stamps limit seq
      ↔ NoneStampedBack stamps limit seq := by
  constructor
  · rintro ⟨frees, _⟩ l is late near far from_ apart below close
    -- All before `near` is wiped, then all before `far`.
    have tooMany := frees (fun k => decide (k < near)) (fun k => decide (k < far))
      (fun k gone => by
        simp only [decide_eq_true_eq] at gone ⊢
        omega)
      (judge_over.mpr ⟨l, is, late, fun k from' below' kept before => by
        simp only [decide_eq_false_iff_not, decide_eq_true_eq] at kept before
        have here : k = near := by
          by_contra other
          have gone := before near from_ (by omega)
          omega
        rw [here]
        exact close⟩)
    obtain ⟨l', is', _, judged⟩ := judge_over.mp tooMany
    cases is.symm.trans is'
    refine judged far (by omega) below (by simp) fun j _ before => by simpa using before
  · intro none_
    refine ⟨?_, waitsOrAgrees stamps limit seq⟩
    intro gone more within tooMany
    obtain ⟨l, is, late, judged⟩ := judge_over.mp tooMany
    refine judge_over.mpr ⟨l, is, late, fun k from_ below kept before => ?_⟩
    -- The first block not wiped before is at `k`, or before it.
    have there : ∃ j, seq - l.records ≤ j ∧ j ≤ k ∧ gone j = false := by
      refine ⟨k, from_, le_refl k, ?_⟩
      cases was : gone k with
      | false => rfl
      | true =>
          rw [within k was] at kept
          cases kept
    have least := Nat.find_spec there
    have first := judged (Nat.find there) least.1 (by omega) least.2.2 fun j from' before' => by
      by_contra readable
      have other := Nat.find_min there before'
      exact other ⟨from', by omega, by simpa using readable⟩
    rcases Nat.eq_or_lt_of_le least.2.1 with same | before'
    · rw [← same]
      exact first
    · exact none_ l is late (Nat.find there) k least.1 before' below first

/-- Two records an hour: the third record is one too many after the first, and none too many once
the first is deleted, as the second was stamped at 0.
-/
theorem deleting_frees
    : ¬ ∀ (stamps : Nat → Nat) (limit : Option WriteLimit) (seq : Nat),
        FreesNothing stamps limit seq ∧ WaitsOrAgrees stamps limit seq := by
  intro holds
  have frees := (holds (fun k => if k = 2 then 0 else 7200000) (some ⟨2, 3600000⟩) 3).1
  have tooMany := frees (fun _ => false) (fun k => k = 1) (fun _ gone => by cases gone) (by decide)
  exact absurd tooMany (by decide)

end Hypergraph.Index
