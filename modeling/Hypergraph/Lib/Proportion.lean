import Mathlib.Algebra.Order.BigOperators.Group.List
import Mathlib.Algebra.Order.Field.Basic
import Mathlib.Algebra.BigOperators.Ring.List
import Mathlib.Tactic.Ring

/-! A quantity divided in proportion to weights, among those that each have a floor: who gets less
than the floor, and what the parts add up to.
-/

namespace Proportion

variable {K α : Type} [Field K] [LinearOrder K] [IsStrictOrderedRing K] (weight floor : α → K)

/-- One's part of a pool, in proportion to the weights; without any weight, an equal part. -/
def part (pool : K) (rest : List α) (a : α) : K :=
  let total := (rest.map weight).sum
  max 0 (if 0 < total then pool * weight a / total else pool / rest.length)

/-- Those whose part is below their floor. -/
def low (pool : K) (rest : List α) : List α :=
  rest.filter fun a => part weight pool rest a < floor a

/-- What the floors add up to. -/
def floors (list : List α) : K := (list.map floor).sum

variable {weight floor} {pool : K} {rest : List α} {a : α}

theorem part_of_nonpos (weights : ∀ a ∈ rest, 0 ≤ weight a) (mem : a ∈ rest) (debt : pool ≤ 0)
    : part weight pool rest a = 0 := by
  refine max_eq_left ?_
  split
  · rename_i some_
    exact div_nonpos_of_nonpos_of_nonneg (mul_nonpos_of_nonpos_of_nonneg debt (weights a mem)) some_.le
  · exact div_nonpos_of_nonpos_of_nonneg debt (Nat.cast_nonneg _)

theorem sum_part (weights : ∀ a ∈ rest, 0 ≤ weight a) (filled : rest ≠ []) (some_ : 0 ≤ pool)
    : (rest.map (part weight pool rest)).sum = pool := by
  by_cases weighed : 0 < (rest.map weight).sum
  · have each : rest.map (part weight pool rest) = rest.map fun a => pool * weight a / (rest.map weight).sum := by
      refine List.map_congr_left fun a mem => ?_
      unfold part
      dsimp only
      rw [if_pos weighed]
      exact max_eq_right (div_nonneg (mul_nonneg some_ (weights a mem)) weighed.le)
    have proportional : (fun a => pool * weight a / (rest.map weight).sum)
        = fun a => (pool / (rest.map weight).sum) * weight a := by
      funext a
      ring
    rw [each, proportional, List.sum_map_mul_left, div_mul_cancel₀ _ weighed.ne']
  · have count : (rest.length : K) ≠ 0 := by
      rw [Nat.cast_ne_zero]
      exact fun none => filled (List.eq_nil_of_length_eq_zero none)
    have each : rest.map (part weight pool rest) = rest.map fun _ => pool / rest.length := by
      refine List.map_congr_left fun a _ => ?_
      unfold part
      dsimp only
      rw [if_neg weighed]
      exact max_eq_right (div_nonneg some_ (Nat.cast_nonneg _))
    rw [each, List.map_const', List.sum_replicate, nsmul_eq_mul, mul_div_cancel₀ _ count]

/-- Someone has no less than the floor, where the pool covers the floors. -/
theorem exists_not_low (weights : ∀ a ∈ rest, 0 ≤ weight a) (floors_nonneg : ∀ a ∈ rest, 0 ≤ floor a)
    (filled : rest ≠ []) (covers : floors floor rest ≤ pool)
    : ∃ a ∈ rest, floor a ≤ part weight pool rest a := by
  by_contra none
  have below : (rest.map (part weight pool rest)).sum < (rest.map floor).sum :=
    List.sum_lt_sum_of_ne_nil filled _ _ fun a mem => not_le.mp fun kept => none ⟨a, mem, kept⟩
  have some_ : 0 ≤ pool := by
    refine le_trans (List.sum_nonneg fun x mem => ?_) covers
    obtain ⟨a, there, rfl⟩ := List.mem_map.mp mem
    exact floors_nonneg a there
  rw [sum_part weights filled some_] at below
  exact absurd covers (not_le.mpr below)

/-- Where nobody has less than the floor though the pool doesn't cover the floors, there is nothing
to divide and no floor.
-/
theorem part_eq_floor (weights : ∀ a ∈ rest, 0 ≤ weight a) (floors_nonneg : ∀ a ∈ rest, 0 ≤ floor a)
    (kept : ∀ a ∈ rest, floor a ≤ part weight pool rest a) (short : pool < floors floor rest) (mem : a ∈ rest)
    : part weight pool rest a = floor a := by
  have debt : pool ≤ 0 := by
    by_contra some_
    have above : (rest.map floor).sum ≤ (rest.map (part weight pool rest)).sum := List.sum_le_sum kept
    rw [sum_part weights (List.ne_nil_of_mem mem) (not_le.mp some_).le] at above
    exact absurd short (not_lt.mpr above)
  have nothing := part_of_nonpos weights mem debt
  exact le_antisymm (nothing ▸ floors_nonneg a mem) (kept a mem)

omit [LinearOrder K] [IsStrictOrderedRing K] in
theorem floors_filter {has : α → Bool}
    : floors floor (rest.filter has) + floors floor (rest.filter fun a => !has a)
      = floors floor rest := by
  have both := List.filter_append_perm has rest
  unfold floors
  rw [← List.sum_append, ← List.map_append]
  exact (both.map floor).sum_eq

end Proportion
