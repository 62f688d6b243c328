import Mathlib.Logic.Function.Basic

/-! Maps kept under derived keys: what a map answers is given by name, each name stands under a
key of its own, and nothing stands under any other key. Such a map is determined by what it is
to answer, and one write keeps it so.
-/

namespace Keyed

variable {κ β α : Type}

/-- Under each name's key stands what is given for the name, under any other nothing. -/
structure Holds (map : κ → Option α) (key : β → κ) (given : β → Option α) : Prop where
  under : ∀ name, map (key name) = given name
  only : ∀ place, (∀ name, key name ≠ place) → map place = none

namespace Holds

variable {map other : κ → Option α} {key : β → κ} {given : β → Option α}

theorem unique (first : Holds map key given) (second : Holds other key given) : map = other := by
  funext place
  by_cases named : ∃ name, key name = place
  · obtain ⟨name, rfl⟩ := named
    rw [first.under, second.under]
  · have none_ : ∀ name, key name ≠ place := fun name same => named ⟨name, same⟩
    rw [first.only place none_, second.only place none_]

theorem empty : Holds (fun _ => none) key (fun _ => (none : Option α)) := ⟨fun _ => rfl, fun _ _ => rfl⟩

/-- A write under a name's key holds the name's new value; the rest is as it was. -/
theorem update [DecidableEq κ] [DecidableEq β] (holds : Holds map key given)
    (apart : Function.Injective key) (name : β) (value : Option α)
    : Holds (Function.update map (key name) value) key (Function.update given name value) where
  under other := by
    by_cases same : other = name
    · simp [same]
    · have different : key other ≠ key name := fun is => same (apart is)
      simp [same, different, holds.under]
  only place none_ := by
    have different : place ≠ key name := fun is => none_ name is.symm
    simp [different, holds.only place none_]

theorem congr {given' : β → Option α} (holds : Holds map key given)
    (same : ∀ name, given' name = given name)
    : Holds map key given' := by
  rwa [show given' = given from funext same]

/-- The same where what is given for a map is read out of one answer for names of many kinds:
writing a name of this map's kind writes its map, under the name's key.
-/
theorem write {ν δ : Type} [DecidableEq κ] [DecidableEq β] [DecidableEq ν] {answers : ν → δ}
    (kind : β → ν) (read : δ → Option α)
    (holds : Holds map key fun name => read (answers (kind name)))
    (apart : Function.Injective key) (kinds : Function.Injective kind) (name : β) (value : δ)
    : Holds (Function.update map (key name) (read value)) key
        fun other => read (Function.update answers (kind name) value (kind other)) := by
  apply (holds.update apart name (read value)).congr
  intro other
  by_cases same : other = name
  · simp [same]
  · have different : kind other ≠ kind name := fun is => same (kinds is)
    simp [same, different]

end Holds

end Keyed
