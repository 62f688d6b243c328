import Hypergraph.Lib.Dict
import Mathlib.Order.Lattice

/-! Of the elements of lists that share a name, the first of the least: what a union of lists keeps,
and when it keeps the same in whatever order the lists come.
-/

namespace Least

open Js

variable {α κ β : Type} [DecidableEq κ] [LinearOrder β] (name : α → κ) (rank : α → β)

/-- An element is kept where none of its name is, or one that ranks higher. -/
def lower (dict : Dict κ α) (a : α) : Dict κ α :=
  match dict.get? (name a) with
  | none => dict.put (name a) a
  | some known => if rank a < rank known then dict.put (name a) a else dict

def gather (dict : Dict κ α) (list : List α) : Dict κ α := list.foldl (lower name rank) dict

/-- An element of the lists that none of its name ranks below. -/
structure Lowest (lists : List (List α)) (a : α) : Prop where
  mem : a ∈ lists.flatten
  le : ∀ b ∈ lists.flatten, name b = name a → rank a ≤ rank b

/-- The lists have one lowest element of a name. -/
def Agree (lists : List (List α)) : Prop :=
  ∀ a b, Lowest name rank lists a → Lowest name rank lists b → name a = name b → a = b

variable {name rank} {dict : Dict κ α} {list : List α} {lists order : List (List α)}
  {a known : α} {key : κ}

-- One element

theorem lower_own (name : α → κ) (rank : α → β) (dict : Dict κ α) (a : α)
    : ∃ kept, (lower name rank dict a).get? (name a) = some kept ∧ rank kept ≤ rank a := by
  unfold lower
  split
  case h_1 => exact ⟨a, (Dict.get?_put ..).trans (if_pos rfl), le_refl _⟩
  case h_2 known found =>
    split
    case isTrue => exact ⟨a, (Dict.get?_put ..).trans (if_pos rfl), le_refl _⟩
    case isFalse higher => exact ⟨known, found, not_lt.mp higher⟩

theorem get?_lower_of_ne (other : key ≠ name a)
    : (lower name rank dict a).get? key = dict.get? key := by
  unfold lower
  split
  · exact (Dict.get?_put ..).trans (if_neg other)
  · split
    · exact (Dict.get?_put ..).trans (if_neg other)
    · rfl

theorem lower_keeps (found : dict.get? key = some known) (le : name a = key → rank known ≤ rank a)
    : (lower name rank dict a).get? key = some known := by
  by_cases own : key = name a
  · unfold lower
    rw [← own, found]
    dsimp only
    rw [if_neg (not_lt.mpr (le own.symm))]
    exact found
  · exact (get?_lower_of_ne own).trans found

theorem lower_known (name : α → κ) (rank : α → β) (a : α) (found : dict.get? key = some known)
    : ∃ kept, (lower name rank dict a).get? key = some kept ∧ rank kept ≤ rank known := by
  by_cases own : key = name a
  · subst own
    unfold lower
    rw [found]
    dsimp only
    split
    case isTrue less => exact ⟨a, (Dict.get?_put ..).trans (if_pos rfl), le_of_lt less⟩
    case isFalse => exact ⟨known, found, le_refl _⟩
  · exact ⟨known, (get?_lower_of_ne own).trans found, le_refl _⟩

theorem of_lower (found : (lower name rank dict a).get? key = some known)
    : dict.get? key = some known ∨ key = name a ∧ known = a := by
  by_cases own : key = name a
  · have added (there : (dict.put (name a) a).get? key = some known) : known = a := by
      rw [Dict.get?_put, if_pos own] at there
      exact (Option.some.inj there).symm
    unfold lower at found
    split at found
    · exact .inr ⟨own, added found⟩
    · split at found
      · exact .inr ⟨own, added found⟩
      · exact .inl found
  · exact .inl ((get?_lower_of_ne own).symm.trans found)

-- Lists of them

theorem gather_append (first rest : List α)
    : gather name rank dict (first ++ rest) = gather name rank (gather name rank dict first) rest :=
  List.foldl_append

theorem gather_known (name : α → κ) (rank : α → β) (list : List α)
    (found : dict.get? key = some known)
    : ∃ kept, (gather name rank dict list).get? key = some kept ∧ rank kept ≤ rank known := by
  induction list generalizing dict known with
  | nil => exact ⟨known, found, le_refl _⟩
  | cons a rest ih =>
      obtain ⟨once, there, below⟩ := lower_known name rank a found
      obtain ⟨kept, is, under⟩ := ih there
      exact ⟨kept, is, le_trans under below⟩

/-- What is kept ranks no higher than any of its name; induction on them. -/
theorem gather_mem (name : α → κ) (rank : α → β) (dict : Dict κ α) (mem : a ∈ list)
    : ∃ kept, (gather name rank dict list).get? (name a) = some kept ∧ rank kept ≤ rank a := by
  induction list generalizing dict with
  | nil => exact nomatch mem
  | cons first rest ih =>
      rcases List.mem_cons.mp mem with rfl | mem
      · obtain ⟨once, there, below⟩ := lower_own name rank dict a
        obtain ⟨kept, is, under⟩ := gather_known name rank rest there
        exact ⟨kept, is, le_trans under below⟩
      · exact ih _ mem

theorem of_gather (found : (gather name rank dict list).get? key = some known)
    : dict.get? key = some known ∨ known ∈ list ∧ key = name known := by
  induction list generalizing dict with
  | nil => exact .inl found
  | cons a rest ih =>
      rcases ih found with before | ⟨mem, is⟩
      · refine (of_lower before).imp id ?_
        rintro ⟨own, rfl⟩
        exact ⟨.head _, own⟩
      · exact .inr ⟨.tail _ mem, is⟩

theorem of_gather_empty (found : (gather name rank .empty list).get? key = some known)
    : known ∈ list ∧ key = name known := by
  rcases of_gather found with none_ | is
  · cases none_
  · exact is

theorem gather_keeps (found : dict.get? key = some known)
    (le : ∀ b ∈ list, name b = key → rank known ≤ rank b)
    : (gather name rank dict list).get? key = some known := by
  induction list generalizing dict with
  | nil => exact found
  | cons a rest ih =>
      refine ih (lower_keeps found (le a (.head _))) fun b mem => le b (.tail _ mem)

-- The order lists come in

omit [DecidableEq κ] in
theorem lowest_perm (perm : order.Perm lists)
    : Lowest name rank order a ↔ Lowest name rank lists a := by
  have same (b : α) : b ∈ order.flatten ↔ b ∈ lists.flatten := perm.flatten.mem_iff
  constructor
  · exact fun lowest => ⟨(same a).mp lowest.mem, fun b mem => lowest.le b ((same b).mpr mem)⟩
  · exact fun lowest => ⟨(same a).mpr lowest.mem, fun b mem => lowest.le b ((same b).mp mem)⟩

/-- What is kept of lists is lowest of its name in them. -/
theorem lowest_of_get? (found : (gather name rank .empty lists.flatten).get? key = some a)
    : Lowest name rank lists a ∧ key = name a := by
  obtain ⟨mem, own⟩ := of_gather_empty found
  refine ⟨⟨mem, fun b there same => ?_⟩, own⟩
  obtain ⟨kept, is, below⟩ := gather_mem name rank .empty there
  rw [same, ← own, found, Option.some.injEq] at is
  exact is ▸ below

theorem agree_perm (agree : Agree name rank lists) (perm : order.Perm lists) (key : κ)
    : (gather name rank .empty order.flatten).get? key
      = (gather name rank .empty lists.flatten).get? key := by
  have one {some_ other : List (List α)} (there : some_.Perm lists) (here : other.Perm lists)
      (a : α) (found : (gather name rank .empty some_.flatten).get? key = some a)
      : (gather name rank .empty other.flatten).get? key = some a := by
    obtain ⟨lowest, own⟩ := lowest_of_get? found
    have mem : a ∈ other.flatten := (here.trans there.symm).flatten.mem_iff.mpr lowest.mem
    obtain ⟨kept, is, -⟩ := gather_mem name rank .empty mem
    obtain ⟨alike, named⟩ := lowest_of_get? is
    have same : kept = a := agree kept a ((lowest_perm here).mp alike)
      ((lowest_perm there).mp lowest) named.symm
    rw [own, is, same]
  refine Option.ext fun a => ⟨fun found => ?_, fun found => ?_⟩
  · exact one perm (List.Perm.refl _) a found
  · exact one (List.Perm.refl _) perm a found

/-- A lowest element of the first of lists is kept, the only one of its name there. -/
theorem get?_of_first (once : (list.map name).Nodup) (mem : a ∈ list)
    (lowest : Lowest name rank (list :: lists) a)
    : (gather name rank .empty (list :: lists).flatten).get? (name a) = some a := by
  rw [List.flatten_cons, gather_append]
  refine gather_keeps ?_ fun b there => lowest.le b (List.mem_append_right _ there)
  obtain ⟨kept, is, -⟩ := gather_mem name rank .empty mem
  obtain ⟨there, own⟩ := of_gather_empty is
  rw [is, List.inj_on_of_nodup_map once there mem own.symm]

end Least
