import Hypergraph.Lib.Newest

/-! A list read page by page: each page is of the first few elements ranked below the last one shown,
of which some may not be there to show.
-/

namespace Pages

variable {α β : Type} [LinearOrder β] (rank : α → β) (shown : α → Option α) (n : Nat)

/-- The elements ranked below another; all of them, below none. -/
def below (last : Option β) (list : List α) : List α :=
  list.filter fun a => last.all fun last => decide (rank a < last)

/-- Page after page, that many at most, until one shows nothing. -/
def chain (page : Option β → List α) : Nat → Option β → List α
  | 0, _ => []
  | fuel + 1, last =>
      match (page last).getLast? with
      | none => []
      | some next => page last ++ chain page fuel (some (rank next))

variable {rank shown n} {list first rest : List α} {a : α} {last : β} {page : Option β → List α}

@[simp]
theorem below_none : below rank none list = list := by simp [below]

theorem below_split (sorted : (first ++ a :: rest).Pairwise fun a b => rank b < rank a)
    : below rank (some (rank a)) (first ++ a :: rest) = rest := by
  obtain ⟨_, later, above⟩ := List.pairwise_append.mp sorted
  obtain ⟨follow, _⟩ := List.pairwise_cons.mp later
  simp only [below, Option.all_some, List.filter_append, List.filter_cons]
  have before : first.filter (fun b => decide (rank b < rank a)) = [] :=
    List.filter_eq_nil_iff.mpr fun b mem lower =>
      absurd (of_decide_eq_true lower) (not_lt_of_gt (above b mem a List.mem_cons_self))
  have after : rest.filter (fun b => decide (rank b < rank a)) = rest :=
    List.filter_eq_self.mpr fun b mem => decide_eq_true (follow b mem)
  rw [before, after, if_neg (by simp), List.nil_append]

/-- The last that a list shows stands in it, and none after it is shown. -/
theorem getLast_shown {next : α} (is : (list.filterMap shown).getLast? = some next)
    : ∃ before a after, list = before ++ a :: after ∧ shown a = some next
      ∧ after.filterMap shown = [] := by
  induction list with
  | nil => cases is
  | cons b rest ih =>
      by_cases later : rest.filterMap shown = []
      · cases here : shown b with
        | none => rw [List.filterMap_cons_none here, later] at is; cases is
        | some c =>
            rw [List.filterMap_cons_some here, later] at is
            cases is
            exact ⟨[], b, rest, rfl, here, later⟩
      · have same : (rest.filterMap shown).getLast? = some next := by
          cases here : shown b with
          | none => rwa [List.filterMap_cons_none here] at is
          | some c =>
              rw [List.filterMap_cons_some here] at is
              rwa [List.getLast?_cons_of_ne_nil later] at is
        obtain ⟨before, a, after, rfl, is, none_⟩ := ih same
        exact ⟨b :: before, a, after, rfl, is, none_⟩

/-- Pages show what there is to show of the list's first elements, each once and in order; the page of
elements that follow these shows nothing. By induction on the pages, what is left of the list.
-/
theorem chain_spec (sorted : list.Pairwise fun a b => rank b < rank a)
    (same : ∀ a next, shown a = some next → rank next = rank a)
    (pages : ∀ last, page last = ((below rank last list).take n).filterMap shown)
    {fuel : Nat} (enough : list.length < fuel)
    : ∃ first rest, list = first ++ rest ∧ chain rank page fuel none = first.filterMap shown
      ∧ (rest.take n).filterMap shown = [] := by
  have each (fuel : Nat) (last : Option β) (left : List α) (is : below rank last list = left)
      (tail : ∃ done, list = done ++ left) (enough : left.length < fuel)
      : ∃ first rest, left = first ++ rest ∧ chain rank page fuel last = first.filterMap shown
        ∧ (rest.take n).filterMap shown = [] := by
    induction fuel generalizing last left with
    | zero => exact absurd enough (Nat.not_lt_zero _)
    | succ fuel ih =>
        have shows : page last = (left.take n).filterMap shown := by rw [pages, is]
        unfold chain
        cases found : (page last).getLast? with
        | none =>
            exact ⟨[], left, rfl, rfl, shows ▸ List.getLast?_eq_none_iff.mp found⟩
        | some next =>
            obtain ⟨before, a, after, split, shown_, none_⟩ := getLast_shown (shows ▸ found)
            have whole : left = before ++ a :: (after ++ left.drop n) := by
              rw [← List.cons_append, ← List.append_assoc, ← split, List.take_append_drop]
            obtain ⟨done, tail⟩ := tail
            have place : list = (done ++ before) ++ a :: (after ++ left.drop n) := by
              rw [List.append_assoc, ← whole, tail]
            have next_ : below rank (some (rank next)) list = after ++ left.drop n := by
              rw [same a next shown_, place]
              exact below_split (place ▸ sorted)
            obtain ⟨first, rest, more, chained, end_⟩ := ih (some (rank next)) _ next_
              ⟨done ++ before ++ [a], by rw [place]; simp⟩ (by
                rw [whole] at enough
                simp only [List.length_append, List.length_cons] at enough ⊢
                omega)
            refine ⟨before ++ a :: first, rest, ?_, ?_, end_⟩
            · rw [whole, more, List.append_assoc, List.cons_append]
            · dsimp only
              rw [chained, shows, split]
              simp [List.filterMap_append, none_, shown_]
  exact each fuel none list below_none ⟨[], rfl⟩ enough

/-- Where everything is there to show, pages show the list. -/
theorem chain_eq (sorted : list.Pairwise fun a b => rank b < rank a) (some_ : 0 < n)
    (pages : ∀ last, page last = (below rank last list).take n) {fuel : Nat}
    (enough : list.length < fuel)
    : chain rank page fuel none = list := by
  have pages (last : Option β) : page last = ((below rank last list).take n).filterMap some := by
    rw [pages, List.filterMap_some]
  obtain ⟨first, rest, rfl, chained, end_⟩ := chain_spec sorted (by simp) pages enough
  rw [List.filterMap_some] at chained end_
  obtain rfl : rest = [] := (List.take_eq_nil_iff.mp end_).resolve_left (Nat.ne_of_gt some_)
  rw [chained, List.append_nil]

end Pages
