import Std.Data.ExtTreeMap.Lemmas
import Mathlib.Data.List.MinMax
import Mathlib.Data.List.Nodup

/-! Collections of a database: rows by their key, in the keys' order. A search finds the rows that
have a property; what it finds depends on nothing but which of them there are.
-/

/-- Rows by key. -/
abbrev Table (κ α : Type) [Ord κ] := Std.ExtTreeMap κ α compare

namespace Table

variable {κ α : Type} [Ord κ] [Std.TransOrd κ]

/-- The rows with a property, in the order of their keys. -/
def find (table : Table κ α) (has : α → Bool) : List α :=
  (table.filter fun _ row => has row).toList.map Prod.snd

/-- Every row with a property rewritten. -/
def rewrite (table : Table κ α) (has : α → Bool) (change : α → α) : Table κ α :=
  table.map fun _ row => if has row then change row else row

variable [Std.LawfulEqOrd κ] {table other : Table κ α} {has has' : α → Bool} {change : α → α} {key : κ}
  {row : α}

theorem mem_find : row ∈ table.find has ↔ has row ∧ ∃ key : κ, table[key]? = some row := by
  simp only [find, List.mem_map, Prod.exists, exists_eq_right,
    Std.ExtTreeMap.mem_toList_iff_getElem?_eq_some, Std.ExtTreeMap.getElem?_filter',
    Option.filter_eq_some_iff]
  constructor
  · rintro ⟨key, at_, holds⟩
    exact ⟨holds, key, at_⟩
  · rintro ⟨holds, key, at_⟩
    exact ⟨key, at_, holds⟩

@[simp]
theorem getElem?_rewrite
    : (table.rewrite has change)[key]?
      = table[key]?.map fun row => if has row then change row else row := by
  rw [rewrite, Std.ExtTreeMap.getElem?_map]

theorem at_insert {place : κ} {found : α} (at_ : (table.insert key row)[place]? = some found)
    : place = key ∧ found = row ∨ place ≠ key ∧ table[place]? = some found := by
  rw [Std.ExtTreeMap.getElem?_insert] at at_
  split at at_
  · rename_i same
    exact .inl ⟨(Std.LawfulEqOrd.eq_of_compare same).symm, (Option.some.inj at_).symm⟩
  · rename_i apart
    refine .inr ⟨?_, at_⟩
    rintro rfl
    exact apart Std.ReflCmp.compare_self

omit [Std.LawfulEqOrd κ] in
theorem at_erase {place : κ} {found : α} (at_ : (table.erase key)[place]? = some found)
    : place ≠ key ∧ table[place]? = some found := by
  rw [Std.ExtTreeMap.getElem?_erase] at at_
  split at at_
  · cases at_
  · rename_i apart
    refine ⟨?_, at_⟩
    rintro rfl
    exact apart Std.ReflCmp.compare_self

theorem insert_self (at_ : table[key]? = some row) : table.insert key row = table := by
  apply Std.ExtTreeMap.ext_getElem?
  intro other
  rw [Std.ExtTreeMap.getElem?_insert]
  split
  · rename_i same
    rw [← Std.LawfulEqOrd.eq_of_compare same, at_]
  · rfl

/-- Writing a row changes nothing just where it stands there. -/
theorem insert_eq_self_iff : table.insert key row = table ↔ table[key]? = some row := by
  constructor
  · intro same
    rw [← same, Std.ExtTreeMap.getElem?_insert_self]
  · exact insert_self

theorem erase_eq_self_iff : table.erase key = table ↔ table[key]? = none := by
  constructor
  · intro same
    rw [← same, Std.ExtTreeMap.getElem?_erase_self]
  · intro none_
    apply Std.ExtTreeMap.ext_getElem?
    intro other
    rw [Std.ExtTreeMap.getElem?_erase]
    split
    · rename_i same
      rw [← Std.LawfulEqCmp.eq_of_compare same, none_]
    · rfl

section Writes

variable {other : κ} {row' : α}

theorem insert_insert : (table.insert key row).insert key row' = table.insert key row' := by
  apply Std.ExtTreeMap.ext_getElem?
  intro k
  simp only [Std.ExtTreeMap.getElem?_insert]
  split <;> rfl

theorem insert_comm (apart : key ≠ other)
    : (table.insert key row).insert other row' = (table.insert other row').insert key row := by
  apply Std.ExtTreeMap.ext_getElem?
  intro k
  grind

theorem erase_insert (apart : key ≠ other)
    : (table.insert key row).erase other = (table.erase other).insert key row := by
  apply Std.ExtTreeMap.ext_getElem?
  intro k
  grind

theorem filter_insert {has : κ → Bool} (out : has key = false)
    : ((table.insert key row).filter fun key _ => has key) = table.filter fun key _ => has key := by
  apply Std.ExtTreeMap.ext_getElem?
  intro k
  simp only [Std.ExtTreeMap.getElem?_filter', Std.ExtTreeMap.getElem?_insert]
  split
  · rename_i same
    obtain rfl := Std.LawfulEqCmp.eq_of_compare same
    cases table[key]? <;> simp [out]
  · rfl

theorem filter_insert_of_has {has : κ → Bool} (taken : has key = true)
    : ((table.insert key row).filter fun key _ => has key)
      = (table.filter fun key _ => has key).insert key row := by
  apply Std.ExtTreeMap.ext_getElem?
  intro k
  simp only [Std.ExtTreeMap.getElem?_filter', Std.ExtTreeMap.getElem?_insert]
  split
  · rename_i same
    obtain rfl := Std.LawfulEqCmp.eq_of_compare same
    simp [taken]
  · rfl

end Writes

/-- Rows put in one after the other. -/
def putRows (table : Table κ α) (rows : List (κ × α)) : Table κ α :=
  rows.foldl (fun table row => table.insert row.1 row.2) table

omit [Std.LawfulEqOrd κ] in
@[simp]
theorem putRows_nil : table.putRows [] = table := rfl

omit [Std.LawfulEqOrd κ] in
theorem putRows_append (first rest : List (κ × α))
    : table.putRows (first ++ rest) = (table.putRows first).putRows rest := List.foldl_append

/-- A row is held where it was put in, of keys that differ; induction on the rows from the last. -/
theorem at_putRows {rows : List (κ × α)} (apart : (rows.map Prod.fst).Nodup)
    : (putRows ∅ rows)[key]? = some row ↔ (key, row) ∈ rows := by
  induction rows using List.reverseRecOn with
  | nil => simp
  | append_singleton rows last ih =>
      rw [List.map_append, List.nodup_append] at apart
      obtain ⟨apart, -, others⟩ := apart
      rw [putRows_append, putRows, List.foldl_cons, List.foldl_nil, Std.ExtTreeMap.getElem?_insert,
        List.mem_append, List.mem_singleton]
      by_cases same : last.1 = key
      · have none_ : (key, row) ∉ rows := fun mem =>
          others key (List.mem_map_of_mem mem) last.1 (by simp) same.symm
        rw [if_pos (by simpa using same), Option.some.injEq, or_iff_right none_, Prod.ext_iff]
        exact ⟨fun is => ⟨same.symm, is.symm⟩, fun is => is.2.symm⟩
      · have other : (key, row) ≠ last := fun is => same (congrArg Prod.fst is).symm
        rw [if_neg (by simpa using same), ih apart, or_iff_left other]

/-- A table holds the rows put in, each once, just where their keys differ. -/
theorem toList_putRows_perm_iff {rows : List (κ × α)}
    : (putRows ∅ rows).toList.Perm rows ↔ (rows.map Prod.fst).Nodup := by
  constructor
  · intro perm
    rw [← (perm.map Prod.fst).nodup_iff, Std.ExtTreeMap.map_fst_toList_eq_keys]
    exact Std.ExtTreeMap.nodup_keys
  · intro apart
    have held : ((putRows ∅ rows).toList.map Prod.fst).Nodup := by
      rw [Std.ExtTreeMap.map_fst_toList_eq_keys]
      exact Std.ExtTreeMap.nodup_keys
    refine (List.perm_ext_iff_of_nodup (List.Nodup.of_map _ held)
      (List.Nodup.of_map _ apart)).mpr fun row => ?_
    rw [← at_putRows apart, ← Std.ExtTreeMap.mem_toList_iff_getElem?_eq_some]

end Table
