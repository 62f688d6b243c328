import Hypergraph.Lib.Dict
import Mathlib.Algebra.Group.Nat.Defs
import Mathlib.Data.List.Sort

/-! The order an object lists its properties in: array indices first, by number, then the other keys
in the order they were set.
-/

namespace Js

/-- One past the last array index. -/
def arrayLimit : Nat := 2 ^ 32 - 1

/-- Where a key is listed: an array index by its number, any other key after all of them. -/
def place (key : String) : Nat :=
  let number := Nat.ofDigitChars 10 key.toList 0
  if number < arrayLimit ∧ Nat.toDigits 10 number = key.toList then number else arrayLimit

namespace Dict

variable {α β : Type} {dict : Dict String α}

/-- Its entries stand as an object lists them. -/
def Listed (dict : Dict String α) : Prop :=
  dict.entries.Pairwise fun first second => place first.1 ≤ place second.1

instance (dict : Dict String α) : Decidable dict.Listed := by
  unfold Listed
  infer_instance

/-- The entries as an object lists them. -/
def listing (dict : Dict String α) : Dict String α where
  entries := dict.entries.insertionSort fun first second => place first.1 ≤ place second.1
  unique := ((List.perm_insertionSort _ _).map Prod.fst).nodup_iff.mpr dict.unique

theorem listing_eq (listed : dict.Listed) : dict.listing = dict :=
  ext_entries (List.Pairwise.insertionSort_eq listed)

theorem get?_listing {key : String} : dict.listing.get? key = dict.get? key := by
  refine Option.ext fun value => ?_
  rw [← mem_entries_iff, ← mem_entries_iff]
  exact (List.perm_insertionSort _ dict.entries).mem_iff

theorem Listed.filter (listed : dict.Listed) (keep : String → Bool) : (dict.filter keep).Listed :=
  List.Pairwise.sublist List.filter_sublist listed

theorem Listed.map (listed : dict.Listed) (change : α → β) : (dict.map change).Listed :=
  List.pairwise_map.mpr listed

end Dict

/-- An object's properties, as it lists them. -/
abbrev Plain (α : Type) := { dict : Dict String α // dict.Listed }

end Js
