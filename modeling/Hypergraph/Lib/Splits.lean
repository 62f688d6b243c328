import Mathlib.Data.List.Basic

/-! Lists split where an element stands last in them. -/

namespace Splits

variable {α : Type} [DecidableEq α]

/-- What stands before the last `sep` of a list and what stands after it. -/
def splitLast (sep : α) : List α → Option (List α × List α)
  | [] => none
  | c :: rest =>
      match splitLast sep rest with
      | some (first, last) => some (c :: first, last)
      | none => if c = sep then some ([], rest) else none

theorem splitLast_eq_none {sep : α} {text : List α} : splitLast sep text = none ↔ sep ∉ text := by
  induction text with
  | nil => simp [splitLast]
  | cons c rest ih =>
      rw [splitLast]
      cases is : splitLast sep rest with
      | none =>
          have apart := ih.mp is
          by_cases same : c = sep
          · simp [same]
          · simp [same, apart, Ne.symm same]
      | some parts =>
          have mem : sep ∈ rest := by
            by_contra apart
            rw [ih.mpr apart] at is
            cases is
          simp [mem]

/-- A list is split as it is joined, the rest without the element. -/
theorem splitLast_eq_some {sep : α} {text first last : List α}
    : splitLast sep text = some (first, last) ↔ text = first ++ sep :: last ∧ sep ∉ last := by
  constructor
  · intro split
    induction text generalizing first with
    | nil => cases split
    | cons c rest ih =>
        rw [splitLast] at split
        cases is : splitLast sep rest with
        | none =>
            rw [is] at split
            by_cases same : c = sep
            · simp only [same, if_true, Option.some.injEq, Prod.mk.injEq] at split
              obtain ⟨rfl, rfl⟩ := split
              exact ⟨by rw [same, List.nil_append], splitLast_eq_none.mp is⟩
            · simp [same] at split
        | some parts =>
            obtain ⟨before, after⟩ := parts
            rw [is] at split
            obtain ⟨rfl, rfl⟩ := split
            obtain ⟨joined, apart⟩ := ih is
            exact ⟨by rw [joined, List.cons_append], apart⟩
  · rintro ⟨rfl, apart⟩
    induction first with
    | nil => rw [List.nil_append, splitLast, splitLast_eq_none.mpr apart]; simp
    | cons c first ih => rw [List.cons_append, splitLast, ih]

/-- Lists joined by an element are told apart where the rests are without it. -/
theorem append_cons_inj {sep : α} {first last first' last' : List α}
    (same : first ++ sep :: last = first' ++ sep :: last') (apart : sep ∉ last)
    (apart' : sep ∉ last')
    : first = first' ∧ last = last' := by
  have split := splitLast_eq_some.mpr ⟨same, apart'⟩
  rw [splitLast_eq_some.mpr ⟨rfl, apart⟩, Option.some.injEq, Prod.mk.injEq] at split
  exact split

end Splits
