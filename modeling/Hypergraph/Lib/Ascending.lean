import Mathlib.Data.List.Lex
import Mathlib.Order.BoundedOrder.Basic
import Mathlib.Order.Lattice

/-! Lists kept in ascending order of a rank: the place a halving search finds, what is put in or
taken out there, and a slice between two places. Lists of one length that begin alike are those
between two of them.
-/

namespace Ascending

variable {α β : Type} [LinearOrder β] (rank : α → β)

def Ordered (list : List α) : Prop := list.Pairwise fun a b => rank a < rank b

/-- The halving search, from `lo` to `hi`, for the first index that isn't below. -/
def search (below : Nat → Bool) (lo hi : Nat) : Nat :=
  if lo < hi then
    let mid := (lo + hi) / 2
    if below mid then search below (mid + 1) hi else search below lo mid
  else lo
termination_by hi - lo

/-- The first index whose rank is no less than the bound. -/
def place (list : List α) (bound : β) : Nat :=
  search (fun i => (list[i]?).any fun a => rank a < bound) 0 list.length

/-- The first index whose rank is more than the bound. -/
def placeAfter (list : List α) (bound : β) : Nat :=
  let i := place rank list bound
  if (list[i]?).any (fun a => rank a = bound) then i + 1 else i

/-- Put in, or taken out, at its place. -/
def put (list : List α) (a : α) : List α :=
  list.take (place rank list (rank a)) ++ a :: list.drop (place rank list (rank a))

def takeOut (list : List α) (a : α) : List α :=
  list.take (place rank list (rank a)) ++ list.drop (place rank list (rank a) + 1)

-- The search

section Search

variable {below : Nat → Bool} {lo hi : Nat}

theorem le_search : lo ≤ search below lo hi := by
  fun_induction search below lo hi with
  | case1 lo hi more mid low ih => omega
  | case2 lo hi more mid high ih => exact ih
  | case3 lo hi none_ => exact le_refl lo

theorem search_le (range : lo ≤ hi) : search below lo hi ≤ hi := by
  fun_induction search below lo hi with
  | case1 lo hi more mid low ih => exact ih (by omega)
  | case2 lo hi more mid high ih => exact le_trans (ih (by omega)) (by omega)
  | case3 lo hi none_ => exact range

/-- What is below is so up to the index found and no further, where it is one stretch. -/
theorem below_iff_lt_search (stretch : ∀ i j, i ≤ j → below j = true → below i = true) {i : Nat} (from_ : lo ≤ i)
    (before : i < hi)
    : below i = true ↔ i < search below lo hi := by
  fun_induction search below lo hi with
  | case1 lo hi more mid low ih =>
      rcases Nat.lt_or_ge mid i with after | early
      · exact ih after before
      · have far : mid + 1 ≤ search below (mid + 1) hi := le_search
        exact ⟨fun _ => by omega, fun _ => stretch i mid early low⟩
  | case2 lo hi more mid high ih =>
      rcases Nat.lt_or_ge i mid with early | after
      · exact ih from_ early
      · have near : search below lo mid ≤ mid := search_le (by omega)
        exact ⟨fun is => absurd (stretch mid i after is) high, fun _ => by omega⟩
  | case3 lo hi none_ => omega

end Search

-- Places

section Places

variable {rank} {list : List α} {bound : β} {a b : α}

/-- A list that begins with those a test keeps, and goes on with others, is split by it. -/
theorem take_eq_filter {keep : α → Bool} {i : Nat} (first : ∀ a ∈ list.take i, keep a = true)
    (rest : ∀ a ∈ list.drop i, keep a = false)
    : list.take i = list.filter keep ∧ list.drop i = list.filter fun a => !keep a := by
  have none_ : (list.drop i).filter keep = [] :=
    List.filter_eq_nil_iff.mpr fun a mem => Bool.eq_false_iff.mp (rest a mem)
  have none' : (list.take i).filter (fun a => !keep a) = [] :=
    List.filter_eq_nil_iff.mpr fun a mem => by simp [first a mem]
  constructor
  · conv_rhs => rw [← List.take_append_drop i list, List.filter_append, none_, List.append_nil]
    exact (List.filter_eq_self.mpr first).symm
  · conv_rhs => rw [← List.take_append_drop i list, List.filter_append, none', List.nil_append]
    exact (List.filter_eq_self.mpr fun a mem => by simp [rest a mem]).symm

theorem lt_of_lt (ordered : Ordered rank list) {i j : Nat} (before : i < j) (there : j < list.length)
    : rank list[i] < rank list[j] :=
  List.pairwise_iff_getElem.mp ordered i j (by omega) there before

theorem place_le : place rank list bound ≤ list.length := search_le (Nat.zero_le _)

theorem lt_iff_lt_place (ordered : Ordered rank list) {i : Nat} (there : i < list.length)
    : rank list[i] < bound ↔ i < place rank list bound := by
  have found := @below_iff_lt_search (fun i => (list[i]?).any fun a => rank a < bound) 0 list.length
    (fun i j before low => by
      rcases Nat.eq_or_lt_of_le before with rfl | before
      · exact low
      · rcases Nat.lt_or_ge j list.length with inside | outside
        · have inside' : i < list.length := by omega
          simp only [List.getElem?_eq_getElem inside, Option.any_some, decide_eq_true_eq] at low
          simp only [List.getElem?_eq_getElem inside', Option.any_some, decide_eq_true_eq]
          exact (lt_of_lt ordered before inside).trans low
        · simp only [List.getElem?_eq_none outside, Option.any_none, Bool.false_eq_true] at low)
    i (Nat.zero_le i) there
  simpa only [place, List.getElem?_eq_getElem there, Option.any_some, decide_eq_true_eq] using found

/-- The place parts those of a lesser rank from the others. -/
theorem place_splits (ordered : Ordered rank list)
    : list.take (place rank list bound) = list.filter (fun a => rank a < bound)
      ∧ list.drop (place rank list bound) = list.filter fun a => !decide (rank a < bound) := by
  refine take_eq_filter (fun a mem => ?_) fun a mem => ?_
  · obtain ⟨i, there, rfl⟩ := List.getElem_of_mem mem
    rw [List.length_take] at there
    rw [List.getElem_take, decide_eq_true_eq, lt_iff_lt_place ordered (by omega)]
    omega
  · obtain ⟨i, there, rfl⟩ := List.getElem_of_mem mem
    rw [List.length_drop] at there
    rw [List.getElem_drop, decide_eq_false_iff_not, lt_iff_lt_place ordered (by omega)]
    omega

/-- The place after parts those of a lesser or the same rank from the others. -/
theorem placeAfter_splits (ordered : Ordered rank list)
    : list.take (placeAfter rank list bound) = list.filter (fun a => rank a ≤ bound)
      ∧ list.drop (placeAfter rank list bound) = list.filter fun a => !decide (rank a ≤ bound) := by
  have range : place rank list bound ≤ list.length := place_le
  have split (i : Nat) (there : i < list.length)
      : rank list[i] ≤ bound ↔ i < placeAfter rank list bound := by
    have low := @lt_iff_lt_place _ _ _ rank list bound ordered i there
    unfold placeAfter
    dsimp only
    split
    · rename_i met
      rw [Option.any_eq_true] at met
      obtain ⟨a, at_, same⟩ := met
      obtain ⟨inside, rfl⟩ := List.getElem?_eq_some_iff.mp at_
      rw [decide_eq_true_eq] at same
      rcases Nat.lt_trichotomy i (place rank list bound) with before | rfl | after
      · exact ⟨fun _ => by omega, fun _ => (low.mpr before).le⟩
      · exact ⟨fun _ => by omega, fun _ => same.le⟩
      · have more := lt_of_lt ordered after there
        rw [same] at more
        exact ⟨fun less => absurd more (not_lt.mpr less), fun near => by omega⟩
    · rename_i unmet
      rw [← low]
      refine ⟨fun less => lt_of_le_of_ne less fun same => unmet ?_, le_of_lt⟩
      have here : i = place rank list bound := by
        refine le_antisymm ?_ (not_lt.mp fun before => (low.mpr before).ne same)
        by_contra after
        have first := lt_of_lt ordered (not_le.mp after) there
        rw [same, lt_iff_lt_place ordered] at first
        exact absurd first (lt_irrefl _)
      subst here
      rw [List.getElem?_eq_getElem there]
      simp [same]
  refine take_eq_filter (fun a mem => ?_) fun a mem => ?_
  · obtain ⟨i, there, rfl⟩ := List.getElem_of_mem mem
    rw [List.length_take] at there
    rw [List.getElem_take, decide_eq_true_eq, split i (by omega)]
    omega
  · obtain ⟨i, there, rfl⟩ := List.getElem_of_mem mem
    rw [List.length_drop] at there
    rw [List.getElem_drop, decide_eq_false_iff_not, split _ (by omega)]
    omega

theorem placeAfter_le : placeAfter rank list bound ≤ list.length := by
  have range : place rank list bound ≤ list.length := place_le
  unfold placeAfter
  dsimp only
  split
  · rename_i met
    rw [Option.any_eq_true] at met
    obtain ⟨a, at_, -⟩ := met
    exact (List.getElem?_eq_some_iff.mp at_).1
  · exact range

theorem place_le_placeAfter (ordered : Ordered rank list) {least most : β} (range : least ≤ most)
    : place rank list least ≤ placeAfter rank list most := by
  have first := congrArg List.length (@place_splits _ _ _ rank list least ordered).1
  have last := congrArg List.length (@placeAfter_splits _ _ _ rank list most ordered).1
  rw [List.length_take, Nat.min_eq_left place_le] at first
  rw [List.length_take, Nat.min_eq_left placeAfter_le] at last
  rw [first, last, ← List.countP_eq_length_filter, ← List.countP_eq_length_filter]
  refine List.countP_mono_left fun a _ low => ?_
  rw [decide_eq_true_eq] at low ⊢
  exact (low.trans_le range).le

/-- What stands between two places is what ranks between two bounds. -/
theorem slice_eq_filter (ordered : Ordered rank list) {least most : β}
    : (list.take (placeAfter rank list most)).drop (place rank list least)
      = list.filter fun a => least ≤ rank a ∧ rank a ≤ most := by
  have low := @place_splits _ _ _ rank list least ordered
  have high := @placeAfter_splits _ _ _ rank list most ordered
  have split := @take_eq_filter α (list.take (placeAfter rank list most)) (fun a => rank a < least)
    (place rank list least) (fun a mem => ?_) fun a mem => ?_
  · rw [split.2, high.1, List.filter_filter]
    refine List.filter_congr fun a _ => ?_
    simp [← not_lt, Bool.decide_and]
  · rw [List.take_take, Nat.min_comm, ← List.take_take] at mem
    have first := List.mem_of_mem_take mem
    rw [low.1] at first
    exact (List.mem_filter.mp first).2
  · rw [List.drop_take] at mem
    have rest := List.mem_of_mem_take mem
    rw [low.2] at rest
    simpa using (List.mem_filter.mp rest).2

theorem ordered_put (ordered : Ordered rank list) (fresh : ∀ b ∈ list, rank b ≠ rank a)
    : Ordered rank (put rank list a) := by
  have split := @place_splits _ _ _ rank list (rank a) ordered
  unfold put Ordered
  rw [split.1, split.2, List.pairwise_append, List.pairwise_cons]
  have more (b : α) (mem : b ∈ list.filter fun b => !decide (rank b < rank a)) : rank a < rank b := by
    rw [List.mem_filter] at mem
    exact lt_of_le_of_ne (by simpa using mem.2) (fresh b mem.1).symm
  have less (b : α) (mem : b ∈ list.filter fun b => rank b < rank a) : rank b < rank a :=
    by simpa using (List.mem_filter.mp mem).2
  refine ⟨ordered.sublist List.filter_sublist, ⟨more, ordered.sublist List.filter_sublist⟩, fun b first c rest => ?_⟩
  rcases List.mem_cons.mp rest with rfl | rest
  · exact less b first
  · exact (less b first).trans (more c rest)

theorem mem_put : b ∈ put rank list a ↔ b = a ∨ b ∈ list := by
  unfold put
  conv_rhs => rw [← List.take_append_drop (place rank list (rank a)) list]
  simp only [List.mem_append, List.mem_cons]
  exact or_left_comm

theorem placeAfter_of_mem (ordered : Ordered rank list) (mem : a ∈ list)
    : placeAfter rank list (rank a) = place rank list (rank a) + 1 := by
  obtain ⟨i, there, rfl⟩ := List.getElem_of_mem mem
  have here : place rank list (rank list[i]) = i := by
    refine le_antisymm (not_lt.mp fun before => ?_) (not_lt.mp fun after => ?_)
    · exact lt_irrefl _ ((lt_iff_lt_place ordered there).mpr before)
    · have less := lt_of_lt ordered after there
      exact absurd ((lt_iff_lt_place ordered (by omega)).mp less) (lt_irrefl _)
  unfold placeAfter
  dsimp only
  rw [here, List.getElem?_eq_getElem there]
  simp

theorem ordered_takeOut (ordered : Ordered rank list) : Ordered rank (takeOut rank list a) := by
  unfold takeOut
  rw [← List.eraseIdx_eq_take_drop_succ]
  exact ordered.sublist (List.eraseIdx_sublist _ _)

theorem mem_takeOut (ordered : Ordered rank list) (mem : a ∈ list)
    : b ∈ takeOut rank list a ↔ b ∈ list ∧ rank b ≠ rank a := by
  unfold takeOut
  rw [← placeAfter_of_mem ordered mem, (place_splits ordered).1, (placeAfter_splits ordered).2]
  simp only [List.mem_append, List.mem_filter, decide_eq_true_eq, Bool.not_eq_true', decide_eq_false_iff_not, not_le,
    ← and_or_left, lt_or_lt_iff_ne]

end Places

-- Lists of one length

section Prefixes

variable [BoundedOrder β] {first list : List β} {more : Nat}

theorem replicate_bot_le (length : list.length = more) : List.replicate more ⊥ ≤ list := by
  subst length
  induction list with
  | nil => exact le_refl []
  | cons b rest ih =>
      rw [List.length_cons, List.replicate_succ]
      rcases eq_or_lt_of_le (bot_le (a := b)) with rfl | above
      · exact List.cons_le_cons _ ih
      · exact le_of_lt (List.cons_lt_cons_iff.mpr (.inl above))

theorem le_replicate_top (length : list.length = more) : list ≤ List.replicate more ⊤ := by
  subst length
  induction list with
  | nil => exact le_refl []
  | cons b rest ih =>
      rw [List.length_cons, List.replicate_succ]
      rcases eq_or_lt_of_le (le_top (a := b)) with rfl | below
      · exact List.cons_le_cons _ ih
      · exact le_of_lt (List.cons_lt_cons_iff.mpr (.inl below))

omit [BoundedOrder β] in
theorem cons_le_cons_iff {a b : β} {rest rest' : List β}
    : a :: rest ≤ b :: rest' ↔ a < b ∨ a = b ∧ rest ≤ rest' := by
  rw [← not_lt, ← not_lt, List.cons_lt_cons_iff]
  constructor
  · intro not_
    rcases lt_trichotomy a b with less | same | more
    · exact .inl less
    · exact .inr ⟨same, fun less => not_ (.inr ⟨same.symm, less⟩)⟩
    · exact absurd (.inl more) not_
  · rintro (less | ⟨rfl, not_⟩) (more | ⟨same, more⟩)
    · exact lt_asymm less more
    · exact less.ne same.symm
    · exact lt_irrefl _ more
    · exact not_ more

/-- The lists that begin with some elements are those from these and the least there are on, up to
these and the most there are.
-/
theorem prefix_iff_between (length : list.length = first.length + more)
    : first <+: list
      ↔ first ++ List.replicate more ⊥ ≤ list ∧ list ≤ first ++ List.replicate more ⊤ := by
  induction first generalizing list with
  | nil =>
      have length : list.length = more := by simpa using length
      simp [replicate_bot_le length, le_replicate_top length]
  | cons b rest ih =>
      cases list with
      | nil =>
          simp only [List.length_nil, List.length_cons] at length
          omega
      | cons a list =>
          have length : list.length = rest.length + more := by
            simp only [List.length_cons] at length
            omega
          rw [List.cons_prefix_cons, List.cons_append, List.cons_append, cons_le_cons_iff, cons_le_cons_iff, ih length]
          constructor
          · rintro ⟨rfl, least, most⟩
            exact ⟨.inr ⟨rfl, least⟩, .inr ⟨rfl, most⟩⟩
          · rintro ⟨less | ⟨rfl, least⟩, more | ⟨same, most⟩⟩
            · exact absurd more (lt_asymm less)
            · exact absurd same.symm less.ne
            · exact absurd more (lt_irrefl _)
            · exact ⟨rfl, least, most⟩

end Prefixes

end Ascending
