import Mathlib.Data.List.Induction
import Mathlib.Data.List.Basic

/-! Whole numbers in decimal digits: as they are written, and padded to a width. -/

namespace Digits

/-- The digits a number is written with: no zero goes before others. -/
def canonical : List Char → Bool
  | ['0'] => true
  | c :: rest => '1' ≤ c && c ≤ '9' && rest.all Char.isDigit
  | [] => false

/-- `String(number).padStart(width, '0')`. -/
def padded (width number : Nat) : List Char := List.leftpad width '0' (Nat.toDigits 10 number)

theorem digitChar_value {c : Char} (digit : c.isDigit)
    : c.toNat - 48 < 10 ∧ Nat.digitChar (c.toNat - 48) = c := by
  have all : ∀ n : Fin 10, Nat.digitChar n.1 = Char.ofNat (n.1 + 48) := by decide
  simp only [Char.isDigit, Bool.and_eq_true, decide_eq_true_eq] at digit
  have low : 48 ≤ c.toNat := digit.1
  have high : c.toNat ≤ 57 := digit.2
  have small : c.toNat - 48 < 10 := by omega
  refine ⟨small, (all ⟨_, small⟩).trans ?_⟩
  rw [Nat.sub_add_cancel low, Char.ofNat_toNat]

/-- Digits that start with none of zero are those of the number they are read as. -/
theorem toDigits_of_nonzero {c : Char} {rest : List Char} (first : '1' ≤ c ∧ c ≤ '9')
    (digits : rest.all Char.isDigit)
    : 0 < Nat.ofDigitChars 10 (c :: rest) 0
      ∧ Nat.toDigits 10 (Nat.ofDigitChars 10 (c :: rest) 0) = c :: rest := by
  induction rest using List.reverseRecOn with
  | nil =>
      have digit : c.isDigit := by
        simp only [Char.isDigit, Bool.and_eq_true, decide_eq_true_eq]
        exact ⟨Nat.le_trans (by decide : 48 ≤ 49) first.1, first.2⟩
      obtain ⟨small, same⟩ := digitChar_value digit
      have positive : 49 ≤ c.toNat := first.1
      rw [Nat.ofDigitChars_cons, Nat.ofDigitChars_nil]
      refine ⟨by simp; omega, ?_⟩
      rw [Nat.toDigits_of_lt_base (by simpa using small)]
      simpa using same
  | append_singleton rest last ih =>
      simp only [List.all_append, List.all_cons, List.all_nil, Bool.and_true, Bool.and_eq_true] at digits
      obtain ⟨positive, same⟩ := ih digits.1
      obtain ⟨small, last_⟩ := digitChar_value digits.2
      rw [← List.cons_append, Nat.ofDigitChars_append, Nat.ofDigitChars_cons, Nat.ofDigitChars_nil]
      refine ⟨by omega, ?_⟩
      rw [← Nat.toDigits_append_toDigits (by decide) positive (by simpa using small), same,
        Nat.toDigits_of_lt_base (by simpa using small)]
      simpa using last_

theorem toDigits_ofDigitChars {text : List Char} (is : canonical text)
    : Nat.toDigits 10 (Nat.ofDigitChars 10 text 0) = text := by
  unfold canonical at is
  split at is
  · decide
  · simp only [Bool.and_eq_true, decide_eq_true_eq] at is
    exact (toDigits_of_nonzero is.1 is.2).2
  · cases is

theorem canonical_append {text : List Char} {c : Char} (is : canonical text) (positive : text ≠ ['0'])
    (digit : c.isDigit)
    : canonical (text ++ [c]) := by
  cases text with
  | nil => cases is
  | cons first rest =>
      have high : ('1' ≤ first && first ≤ '9' && rest.all Char.isDigit) = true := by
        rwa [canonical.eq_2 first rest fun zero none_ => positive (by rw [zero, none_])] at is
      rw [List.cons_append, canonical.eq_2 first (rest ++ [c]) fun _ none_ => by simp at none_]
      simp only [Bool.and_eq_true] at high ⊢
      exact ⟨high.1, by simp [high.2, digit]⟩

theorem canonical_toDigits (n : Nat) : canonical (Nat.toDigits 10 n) := by
  induction n using Nat.strongRecOn with
  | _ n ih =>
      by_cases small : n < 10
      · have all : ∀ n : Fin 10, canonical (Nat.toDigits 10 n.1) := by decide
        exact all ⟨n, small⟩
      · have digit : (n % 10).digitChar.isDigit := by
          have all : ∀ n : Fin 10, (Nat.digitChar n.1).isDigit := by decide
          exact all ⟨n % 10, Nat.mod_lt _ (by decide)⟩
        rw [Nat.toDigits_of_base_le (by decide) (by omega)]
        refine canonical_append (ih (n / 10) (by omega)) (fun zero => ?_) digit
        have same := congrArg (Nat.ofDigitChars 10 · 0) zero
        simp only [Nat.ofDigitChars_ten_toDigits] at same
        have : n / 10 = 0 := same
        omega

theorem ofDigitChars_padded (width number : Nat)
    : Nat.ofDigitChars 10 (padded width number) 0 = number := by
  simp [padded, List.leftpad, Nat.ofDigitChars_append]

theorem padded_injective (width : Nat) : Function.Injective (padded width) :=
  Function.LeftInverse.injective (g := (Nat.ofDigitChars 10 · 0)) (ofDigitChars_padded width)

theorem isDigit_of_mem_padded {width number : Nat} {c : Char} (mem : c ∈ padded width number)
    : c.isDigit := by
  simp only [padded, List.leftpad, List.mem_append, List.mem_replicate] at mem
  rcases mem with ⟨_, rfl⟩ | mem
  · decide
  · exact Nat.isDigit_of_mem_toDigits (by decide) (by decide) mem

theorem colon_not_mem_toString (n : Nat) : ':' ∉ (toString n).toList := by
  rw [Nat.toString_eq_ofList_toDigits, String.toList_ofList]
  intro mem
  exact absurd (Nat.isDigit_of_mem_toDigits (by decide) (by decide) mem) (by decide)

theorem toString_injective : Function.Injective (toString : Nat → String) := by
  intro m n same
  have digits := String.ofList_injective same
  rw [← Nat.ofDigitChars_toDigits (b := 10) (n := m) (by decide) (by decide), digits,
    Nat.ofDigitChars_toDigits (by decide) (by decide)]

end Digits
