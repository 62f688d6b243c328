import Hypergraph.Lib.Table

/-! Names listed by date in a table: an entry of the list has a name and a date in its key, and a ref
under the name alone tells which entry is the name's.
-/

/-- How a table keeps names with a date: their entries in the list, and their refs. -/
structure Dated (κ τ Key Value : Type) where
  list : κ → τ → Key
  ref : κ → Key
  listed : κ → τ → Value
  refers : κ → τ → Value

namespace Dated

variable {κ τ Key Value : Type} (d : Dated κ τ Key Value) (named : κ → Prop)

/-- Keys tell names apart, and entries of the list from refs. -/
structure Apart : Prop where
  list : ∀ {k k' t t'}, named k → named k' → d.list k t = d.list k' t' → k = k'
  ref : ∀ {k k'}, named k' → d.ref k = d.ref k' → k = k'
  kinds : ∀ {k k' t}, d.list k t ≠ d.ref k'

/-- What a name has in a table, by its date. -/
def Kept (k : κ) (t : τ) (place : Key) (found : Value) : Prop :=
  (place = d.list k t ∧ found = d.listed k t) ∨ (place = d.ref k ∧ found = d.refers k t)

variable [Ord Key] [Std.TransOrd Key]

/-- A table has the names that stand, an entry and a ref of each, and nothing else. -/
structure Has (db : Table Key Value) (standing : κ → Option τ) : Prop where
  named : ∀ k t, standing k = some t → named k
  there : ∀ (place : Key) found, db[place]? = some found ↔ ∃ k t, standing k = some t ∧ d.Kept k t place found

variable {d named} {db : Table Key Value} {standing : κ → Option τ} {k : κ} {t : τ}

theorem Has.empty : Has d named (∅ : Table Key Value) fun _ => none where
  named _ _ is := by cases is
  there _ _ := by simp

theorem Has.ref (has : Has d named db standing) (apart : Apart d named) (k : κ)
    : db[d.ref k]? = (standing k).map (d.refers k) := by
  apply Option.ext
  intro found
  rw [has.there, Option.map_eq_some_iff]
  constructor
  · rintro ⟨k', t, is, ⟨same, _⟩ | ⟨same, rfl⟩⟩
    · exact absurd same.symm apart.kinds
    · obtain rfl := apart.ref (has.named k' t is) same
      exact ⟨t, is, rfl⟩
  · rintro ⟨t, is, rfl⟩
    exact ⟨k, t, is, .inr ⟨rfl, rfl⟩⟩

section Writes

variable [DecidableEq κ] {db' : Table Key Value}

/-- Other things at the places of one name are its own. -/
theorem Has.update (has : Has d named db standing) (apart : Apart d named) (is : named k) {new : Option τ}
    (same : ∀ t', standing k = some t' → d.list k t' = d.list k t)
    (own : ∀ place found, place = d.list k t ∨ place = d.ref k
      → (db'[place]? = some found ↔ ∃ t', new = some t' ∧ d.Kept k t' place found))
    (others : ∀ place, place ≠ d.list k t → place ≠ d.ref k → db'[place]? = db[place]?)
    (here : ∀ t', new = some t' → d.list k t' = d.list k t)
    : Has d named db' (Function.update standing k new) := by
  refine ⟨fun k' t' stands => ?_, fun place found => ?_⟩
  · by_cases its : k' = k
    · exact its ▸ is
    · rw [Function.update_of_ne its] at stands
      exact has.named k' t' stands
  by_cases mine : place = d.list k t ∨ place = d.ref k
  · rw [own place found mine]
    constructor
    · rintro ⟨t', stands, kept⟩
      exact ⟨k, t', by rw [Function.update_self, stands], kept⟩
    · rintro ⟨k', t', stands, kept⟩
      by_cases its : k' = k
      · subst its
        rw [Function.update_self] at stands
        exact ⟨t', stands, kept⟩
      · rw [Function.update_of_ne its] at stands
        have is' := has.named k' t' stands
        -- A place of another name is none of this one's.
        rcases kept with ⟨at_, _⟩ | ⟨at_, _⟩ <;> rcases mine with at' | at'
        · exact absurd (apart.list is' is (at_.symm.trans at')) its
        · exact absurd (at_.symm.trans at') apart.kinds
        · exact absurd (at'.symm.trans at_) apart.kinds
        · exact absurd (apart.ref is (at_.symm.trans at')) its
  · rw [not_or] at mine
    rw [others place mine.1 mine.2, has.there]
    refine exists_congr fun k' => exists_congr fun t' => ?_
    by_cases its : k' = k
    · subst its
      rw [Function.update_self]
      constructor
      · rintro ⟨stands, ⟨at_, _⟩ | ⟨at_, _⟩⟩
        · exact absurd (at_.trans (same t' stands)) mine.1
        · exact absurd at_ mine.2
      · rintro ⟨stands, ⟨at_, _⟩ | ⟨at_, _⟩⟩
        · exact absurd (at_.trans (here t' stands)) mine.1
        · exact absurd at_ mine.2
    · rw [Function.update_of_ne its]

variable [Std.LawfulEqOrd Key]

/-- A name put in at its place in the list, where it stands at no other. -/
theorem Has.put (has : Has d named db standing) (apart : Apart d named) (is : named k)
    (same : ∀ t', standing k = some t' → d.list k t' = d.list k t)
    : Has d named ((db.insert (d.list k t) (d.listed k t)).insert (d.ref k) (d.refers k t))
        (Function.update standing k (some t)) := by
  have kinds : d.ref k ≠ d.list k t := apart.kinds.symm
  refine has.update apart is same (fun place found mine => ?_) (fun place off off' => ?_) fun t' at_ => by cases at_; rfl
  · simp only [Option.some.injEq, exists_eq_left', Kept]
    rcases mine with rfl | rfl
    · rw [Std.ExtTreeMap.getElem?_insert, if_neg (by simpa using kinds), Std.ExtTreeMap.getElem?_insert_self]
      simp [kinds.symm, eq_comm]
    · rw [Std.ExtTreeMap.getElem?_insert_self]
      simp [kinds, eq_comm]
  · simp only [Std.ExtTreeMap.getElem?_insert, Std.compare_eq_iff_eq, off.symm, off'.symm, if_false]

theorem Has.remove (has : Has d named db standing) (apart : Apart d named) (stands : standing k = some t)
    : Has d named ((db.erase (d.list k t)).erase (d.ref k)) (Function.update standing k none) := by
  refine @Has.update _ _ _ _ d named _ _ db standing k t _ _ has apart (has.named k t stands) none
    (fun t' stands' => ?_) (fun place found mine => ?_) (fun place off off' => ?_) fun t' at_ => by cases at_
  · rw [stands] at stands'
    cases stands'
    rfl
  · rcases mine with rfl | rfl <;> simp
  · simp only [Std.ExtTreeMap.getElem?_erase, Std.compare_eq_iff_eq, off.symm, off'.symm, if_false]

theorem Has.remove_none (has : Has d named db standing) (apart : Apart d named) (absent : standing k = none)
    : Has d named (db.erase (d.ref k)) (Function.update standing k none) := by
  rw [Table.erase_eq_self_iff.mpr (by rw [has.ref apart, absent, Option.map_none]), ← absent, Function.update_eq_self]
  exact has

end Writes

-- Reads

section Reads

variable [Std.LawfulEqOrd Key] {β : Type} {range : Key → Bool} {pick : Key × Value → Option β} {b : β}

/-- What there is in a range. -/
theorem Has.mem_range (has : Has d named db standing) {place : Key} {found : Value}
    : (place, found) ∈ (db.filter fun key _ => range key).toList
      ↔ (∃ k t, standing k = some t ∧ d.Kept k t place found) ∧ range place = true := by
  rw [Std.ExtTreeMap.mem_toList_iff_getElem?_eq_some, Std.ExtTreeMap.getElem?_filter', Option.filter_eq_some_iff, has.there]

/-- What is picked in a range is so of the entries there, where no ref is picked. -/
theorem Has.mem_picked (has : Has d named db standing)
    (refs : ∀ k t, range (d.ref k) = true → pick (d.ref k, d.refers k t) = none)
    : b ∈ (db.filter fun key _ => range key).toList.filterMap pick
      ↔ ∃ k t, standing k = some t ∧ range (d.list k t) = true ∧ pick (d.list k t, d.listed k t) = some b := by
  simp only [List.mem_filterMap, Prod.exists, has.mem_range]
  constructor
  · rintro ⟨_, _, ⟨⟨k, t, stands, ⟨rfl, rfl⟩ | ⟨rfl, rfl⟩⟩, inside⟩, picked⟩
    · exact ⟨k, t, stands, inside, picked⟩
    · rw [refs k t inside] at picked
      cases picked
  · rintro ⟨k, t, stands, inside, picked⟩
    exact ⟨_, _, ⟨⟨k, t, stands, .inl ⟨rfl, rfl⟩⟩, inside⟩, picked⟩

/-- What tells the name of each entry in a range is picked once. -/
theorem Has.nodup_picked (has : Has d named db standing)
    (refs : ∀ k t, range (d.ref k) = true → pick (d.ref k, d.refers k t) = none)
    (told : ∀ {k t k' t' b}, standing k = some t → standing k' = some t' → range (d.list k t) = true
      → range (d.list k' t') = true → pick (d.list k t, d.listed k t) = some b
      → pick (d.list k' t', d.listed k' t') = some b → k = k')
    : ((db.filter fun key _ => range key).toList.filterMap pick).Nodup := by
  rw [List.Nodup, List.pairwise_filterMap]
  refine Std.ExtTreeMap.distinct_keys_toList.imp_of_mem ?_
  rintro ⟨place, found⟩ ⟨place', found'⟩ mem mem' apart b picked _ picked' rfl
  obtain ⟨⟨k, t, stands, ⟨rfl, rfl⟩ | ⟨rfl, rfl⟩⟩, inside⟩ := has.mem_range.mp mem
  · obtain ⟨⟨k', t', stands', ⟨rfl, rfl⟩ | ⟨rfl, rfl⟩⟩, inside'⟩ := has.mem_range.mp mem'
    · obtain rfl := told stands stands' inside inside' picked picked'
      rw [stands] at stands'
      cases stands'
      exact apart (Std.compare_eq_iff_eq.mpr rfl)
    · rw [refs k' t' inside'] at picked'
      cases picked'
  · rw [refs k t inside] at picked
    cases picked

end Reads

end Dated
