import Mathlib.Data.List.Sort

/-! The newest of a list: elements sorted by their rank, the highest first, and the first few of them
told from a part of the list that has enough of the rest beaten.
-/

namespace Newest

variable {α β : Type} [LinearOrder β] (rank : α → β)

/-- The highest first; of equal ones the first stays first. -/
def sort (list : List α) : List α := list.insertionSort fun a b => rank b ≤ rank a

/-- No two of a list rank the same. -/
def Apart (list : List α) : Prop :=
  ∀ a b, a ∈ list → b ∈ list → rank a = rank b → a = b

variable {rank} {list other kept rest : List α} {a : α} {n : Nat}

instance total_rank : Std.Total fun a b : α => rank b ≤ rank a :=
  ⟨fun a b => le_total (rank b) (rank a)⟩

instance trans_rank : IsTrans α fun a b => rank b ≤ rank a :=
  ⟨fun _ _ _ first second => second.trans first⟩

theorem pairwise_sort (list : List α) : (sort rank list).Pairwise fun a b => rank b ≤ rank a :=
  List.pairwise_insertionSort _ list

theorem perm_sort (list : List α) : (sort rank list).Perm list := List.perm_insertionSort _ list

@[simp]
theorem mem_sort : a ∈ sort rank list ↔ a ∈ list := (perm_sort list).mem_iff

@[simp]
theorem length_sort : (sort rank list).length = list.length := (perm_sort list).length_eq

@[simp]
theorem sort_nil : sort rank [] = [] := rfl

theorem sort_congr (apart : Apart rank list) (same : list.Perm other)
    : sort rank list = sort rank other := by
  refine List.Perm.eq_of_pairwise ?_ (pairwise_sort list) (pairwise_sort other)
    ((perm_sort list).trans (same.trans (perm_sort other).symm))
  intro a b memA memB below above
  rw [mem_sort] at memA memB
  exact apart a b memA (same.mem_iff.mpr memB) (le_antisymm above below)

/-- An element beaten by as many as are taken comes after them; induction on the list. -/
theorem take_orderedInsert (sorted : list.Pairwise fun a b => rank b ≤ rank a)
    (beaten : n ≤ list.countP fun b => rank a < rank b)
    : (list.orderedInsert (fun a b => rank b ≤ rank a) a).take n = list.take n := by
  induction list generalizing n with
  | nil =>
      have none_ : n = 0 := Nat.le_zero.mp beaten
      rw [none_, List.take_zero, List.take_zero]
  | cons b rest ih =>
      obtain ⟨highest, sorted⟩ := List.pairwise_cons.mp sorted
      rw [List.orderedInsert_cons]
      by_cases below : rank b ≤ rank a
      · -- the highest isn't above it, so none is
        have none_ : (b :: rest).countP (fun c => decide (rank a < rank c)) = 0 := by
          rw [List.countP_eq_zero]
          intro c mem above
          have above := of_decide_eq_true above
          rcases List.mem_cons.mp mem with rfl | mem
          · exact absurd below (not_le.mpr above)
          · exact absurd ((highest c mem).trans below) (not_le.mpr above)
        rw [none_] at beaten
        rw [Nat.le_zero.mp beaten, List.take_zero, List.take_zero]
      · rw [if_neg below]
        cases n with
        | zero => rw [List.take_zero, List.take_zero]
        | succ n =>
            rw [List.take_succ_cons, List.take_succ_cons, ih sorted]
            have above : decide (rank a < rank b) = true := decide_eq_true (not_le.mp below)
            rw [List.countP_cons, above, if_pos rfl] at beaten
            exact Nat.le_of_succ_le_succ beaten

/-- The first few of a part of a list are the first few of the list, where each other element is
beaten by as many of the part; induction on the others.
-/
theorem take_sort_append (beaten : ∀ a ∈ rest, n ≤ kept.countP fun b => rank a < rank b)
    : (sort rank (rest ++ kept)).take n = (sort rank kept).take n := by
  induction rest with
  | nil => rfl
  | cons a rest ih =>
      have first : sort rank (a :: rest ++ kept)
          = (sort rank (rest ++ kept)).orderedInsert (fun a b => rank b ≤ rank a) a := rfl
      have more : n ≤ (sort rank (rest ++ kept)).countP fun b => rank a < rank b := by
        rw [(perm_sort (rest ++ kept)).countP_eq, List.countP_append]
        exact (beaten a (.head _)).trans (Nat.le_add_left _ _)
      rw [first, take_orderedInsert (pairwise_sort _) more, ih fun a mem => beaten a (.tail _ mem)]

/-- The first few of a list are those of any part of it that beats each other element as often. -/
theorem take_sort_of_part (apart : Apart rank list) (unique : list.Nodup) (part : kept.Nodup)
    (within : kept ⊆ list)
    (beaten : ∀ a ∈ list, a ∉ kept → n ≤ kept.countP fun b => rank a < rank b)
    : (sort rank kept).take n = (sort rank list).take n := by
  classical
  have same : list.Perm (list.filter (· ∉ kept) ++ kept) := by
    rw [List.perm_ext_iff_of_nodup unique]
    · intro a
      simp only [List.mem_append, List.mem_filter, decide_eq_true_eq]
      constructor
      · intro mem
        by_cases here : a ∈ kept
        · exact .inr here
        · exact .inl ⟨mem, here⟩
      · rintro (both | here)
        · exact both.1
        · exact within here
    · refine List.nodup_append.mpr ⟨unique.filter _, part, fun a mem b here same => ?_⟩
      subst same
      exact of_decide_eq_true (List.mem_filter.mp mem).2 here
  rw [sort_congr apart same, take_sort_append]
  intro a mem
  obtain ⟨mem, outside⟩ := List.mem_filter.mp mem
  exact beaten a mem (of_decide_eq_true outside)

theorem le_countP_of_below {last : α} (at_ : (sort rank list)[n]? = some last) {b : β}
    (below : b < rank last)
    : n + 1 ≤ list.countP fun a => b < rank a := by
  have bound := (List.getElem?_eq_some_iff.mp at_).1
  have same : list.countP (fun a => decide (b < rank a))
      = (sort rank list).countP fun a => decide (b < rank a) :=
    ((@perm_sort α β _ rank list).countP_eq _).symm
  rw [same, ← List.take_append_drop (n + 1) (sort rank list), List.countP_append]
  refine Nat.le_add_right_of_le ?_
  have all : ((sort rank list).take (n + 1)).countP (fun a => decide (b < rank a))
      = ((sort rank list).take (n + 1)).length := by
    rw [List.countP_eq_length]
    intro a mem
    obtain ⟨i, within, is⟩ := List.mem_take_iff_getElem.mp mem
    refine decide_eq_true (below.trans_le ?_)
    rw [← is, ← (List.getElem?_eq_some_iff.mp at_).2]
    by_cases same : i = n
    · subst same
      exact le_refl _
    · exact List.pairwise_iff_getElem.mp (pairwise_sort list) i n _ bound (by omega)
  rw [all, List.length_take]
  omega

end Newest
