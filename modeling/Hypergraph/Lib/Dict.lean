import Mathlib.Data.List.Nodup

/-! Objects whose properties are listed in the order they were first set: `dict[key] = value`
on a known key keeps its place, on a new one adds it last.
-/

namespace Js

variable {κ α β : Type} [DecidableEq κ]

/-- Properties in their order, each key once. -/
structure Dict (κ α : Type) where
  entries : List (κ × α)
  unique : (entries.map Prod.fst).Nodup

namespace Dict

variable (dict : Dict κ α) (key other : κ) (value : α)

omit [DecidableEq κ] in
theorem ext_entries {first second : Dict κ α} (same : first.entries = second.entries)
    : first = second := by
  cases first
  cases second
  cases same
  rfl

instance [DecidableEq α] : DecidableEq (Dict κ α) := fun first second =>
  decidable_of_iff (first.entries = second.entries) ⟨ext_entries, fun same => by rw [same]⟩

def empty : Dict κ α := ⟨[], List.nodup_nil⟩

def keys : List κ := dict.entries.map Prod.fst

def get? : Option α := dict.entries.lookup key

/-- The entries once a key has a value. -/
def putEntries (key : κ) (value : α) : List (κ × α) → List (κ × α)
  | [] => [(key, value)]
  | (k, v) :: rest => if k = key then (key, value) :: rest else (k, v) :: putEntries key value rest

theorem keys_putEntries (entries : List (κ × α))
    : (putEntries key value entries).map Prod.fst
      = if key ∈ entries.map Prod.fst then entries.map Prod.fst
        else entries.map Prod.fst ++ [key] := by
  induction entries with
  | nil => rfl
  | cons first rest ih =>
      obtain ⟨k, v⟩ := first
      by_cases same : k = key
      · simp [putEntries, same]
      · have other : key ≠ k := fun here => same here.symm
        simp only [putEntries, same, if_false, List.map_cons, ih, List.mem_cons, other, false_or]
        split <;> rfl

/-- `dict[key] = value`. -/
def put : Dict κ α where
  entries := putEntries key value dict.entries
  unique := by
    rw [keys_putEntries]
    split
    · exact dict.unique
    · rename_i fresh
      refine List.nodup_append.mpr ⟨dict.unique, List.nodup_singleton key, ?_⟩
      intro k listed l same here
      exact fresh (List.mem_singleton.mp same ▸ here ▸ listed)

/-- `Object.fromEntries`: a key given again keeps its place and takes the later value. -/
def ofList (entries : List (κ × α)) : Dict κ α :=
  entries.foldl (fun dict entry => dict.put entry.1 entry.2) empty

/-- Each value replaced by what it maps to. -/
def map (change : α → β) (dict : Dict κ α) : Dict κ β where
  entries := dict.entries.map fun entry => (entry.1, change entry.2)
  unique := by
    simpa [List.map_map, Function.comp_def] using dict.unique

def filter (keep : κ → Bool) (dict : Dict κ α) : Dict κ α where
  entries := dict.entries.filter fun entry => keep entry.1
  unique := dict.unique.sublist (List.filter_sublist.map Prod.fst)

/-- `map.delete(key)`. -/
def remove : Dict κ α := dict.filter fun other => decide (other ≠ key)

-- Entries

section Entries

variable {entries entries' : List (κ × α)} {key other : κ} {value : α}

theorem lookup_putEntries
    : (putEntries key value entries).lookup other
      = if other = key then some value else entries.lookup other := by
  induction entries with
  | nil =>
      by_cases here : other = key
      · simp [putEntries, here]
      · have apart : (other == key) = false := by simpa using here
        simp [putEntries, here, List.lookup_cons, apart]
  | cons first rest ih =>
      obtain ⟨k, v⟩ := first
      by_cases same : k = key
      · subst same
        by_cases here : other = k
        · simp [putEntries, here]
        · have apart : (other == k) = false := by simpa using here
          simp [putEntries, here, List.lookup_cons, apart]
      · simp only [putEntries, same, if_false, List.lookup_cons]
        by_cases here : other = k
        · subst here
          simp [same]
        · have apart : (other == k) = false := by simpa using here
          simp only [apart, ih]

theorem mem_keys_lookup : key ∈ entries.map Prod.fst ↔ (entries.lookup key).isSome := by
  induction entries with
  | nil => simp
  | cons first rest ih =>
      obtain ⟨k, v⟩ := first
      by_cases here : key = k
      · simp [here]
      · have apart : (key == k) = false := by simpa using here
        simp [List.lookup_cons, apart, here, ih]

theorem lookup_of_mem (unique : (entries.map Prod.fst).Nodup) (listed : (key, value) ∈ entries)
    : entries.lookup key = some value := by
  induction entries with
  | nil => cases listed
  | cons first rest ih =>
      obtain ⟨k, v⟩ := first
      rw [List.map_cons, List.nodup_cons] at unique
      rcases List.mem_cons.mp listed with same | later
      · cases same
        simp
      · have apart : (key == k) = false := by
          simp only [beq_eq_false_iff_ne]
          rintro rfl
          exact unique.1 (List.mem_map.mpr ⟨_, later, rfl⟩)
        rw [List.lookup_cons, apart]
        exact ih unique.2 later

theorem mem_of_lookup (found : entries.lookup key = some value) : (key, value) ∈ entries := by
  induction entries with
  | nil => cases found
  | cons first rest ih =>
      obtain ⟨k, v⟩ := first
      by_cases here : key = k
      · subst here
        simp only [List.lookup_cons, beq_self_eq_true, Option.some_inj] at found
        simp [found]
      · have apart : (key == k) = false := by simpa using here
        rw [List.lookup_cons, apart] at found
        exact List.mem_cons_of_mem _ (ih found)

/-- The same keys in the same order, and the same values under them, make the same entries. -/
theorem eq_of_lookup (unique : (entries.map Prod.fst).Nodup)
    (keys : entries.map Prod.fst = entries'.map Prod.fst)
    (same : ∀ key, entries.lookup key = entries'.lookup key)
    : entries = entries' := by
  induction entries generalizing entries' with
  | nil => exact (List.map_eq_nil_iff.mp keys.symm).symm
  | cons first rest ih =>
      cases entries' with
      | nil => cases keys
      | cons first' rest' =>
          obtain ⟨k, v⟩ := first
          obtain ⟨k', v'⟩ := first'
          rw [List.map_cons, List.map_cons, List.cons.injEq] at keys
          obtain ⟨rfl, keys⟩ := keys
          rw [List.map_cons, List.nodup_cons] at unique
          have here := same k
          simp only [List.lookup_cons, beq_self_eq_true, Option.some_inj] at here
          rw [here, ih unique.2 keys fun key => ?_]
          by_cases met : key = k
          · have fresh := unique.1
            rw [mem_keys_lookup, Option.not_isSome_iff_eq_none] at fresh
            have fresh' := unique.1
            rw [keys, mem_keys_lookup, Option.not_isSome_iff_eq_none] at fresh'
            rw [met, fresh, fresh']
          · have apart : (key == k) = false := by simpa using met
            have next := same key
            rwa [List.lookup_cons, List.lookup_cons, apart] at next

theorem lookup_filter {keep : κ → Bool}
    : (entries.filter fun entry => keep entry.1).lookup key
      = if keep key then entries.lookup key else none := by
  induction entries with
  | nil => simp
  | cons first rest ih =>
      obtain ⟨k, v⟩ := first
      by_cases here : key = k
      · subst here
        cases kept : keep key with
        | false => simpa [List.filter_cons, kept] using ih
        | true => simp [kept]
      · have apart : (key == k) = false := by simpa using here
        cases kept : keep k with
        | false => simpa [List.filter_cons, kept, List.lookup_cons, apart] using ih
        | true => simpa [List.filter_cons, kept, List.lookup_cons, apart] using ih

end Entries

-- What is read

variable {dict key other value}

@[simp]
theorem get?_put
    : (dict.put key value).get? other = if other = key then some value else dict.get? other :=
  lookup_putEntries

@[simp]
theorem get?_filter {keep : κ → Bool}
    : (dict.filter keep).get? key = if keep key then dict.get? key else none := lookup_filter

@[simp]
theorem get?_remove
    : (dict.remove key).get? other = if other = key then none else dict.get? other := by
  unfold remove
  rw [get?_filter]
  by_cases here : other = key <;> simp [here]

theorem get?_map {change : α → β} : (dict.map change).get? key = (dict.get? key).map change := by
  change (dict.entries.map fun entry => (entry.1, change entry.2)).lookup key = _
  unfold get?
  induction dict.entries with
  | nil => rfl
  | cons entry rest ih =>
      rw [List.map_cons, List.lookup_cons, List.lookup_cons, ih]
      cases key == entry.1 <;> rfl

theorem mem_keys_iff : key ∈ dict.keys ↔ (dict.get? key).isSome := mem_keys_lookup

theorem keys_put
    : (dict.put key value).keys = if key ∈ dict.keys then dict.keys else dict.keys ++ [key] :=
  keys_putEntries key value dict.entries

theorem mem_entries_iff : (key, value) ∈ dict.entries ↔ dict.get? key = some value :=
  ⟨lookup_of_mem dict.unique, mem_of_lookup⟩

theorem ext_get {first second : Dict κ α} (keys : first.keys = second.keys)
    (same : ∀ key, first.get? key = second.get? key)
    : first = second :=
  ext_entries (eq_of_lookup first.unique keys same)

-- Many set at once

section Many

variable {name : β → κ} {worth : β → α} {list : List β} {b : β}

theorem get?_foldl_put_of_ne (apart : ∀ b ∈ list, name b ≠ key)
    : (list.foldl (fun dict b => dict.put (name b) (worth b)) dict).get? key = dict.get? key := by
  induction list generalizing dict with
  | nil => rfl
  | cons b rest ih =>
      rw [List.foldl_cons, ih fun b mem => apart b (.tail _ mem), get?_put, if_neg (apart b (.head _)).symm]

theorem get?_foldl_put_of_mem (unique : (list.map name).Nodup) (mem : b ∈ list)
    : (list.foldl (fun dict b => dict.put (name b) (worth b)) dict).get? (name b) = some (worth b) := by
  induction list generalizing dict with
  | nil => cases mem
  | cons first rest ih =>
      obtain ⟨apart, unique⟩ := List.nodup_cons.mp unique
      rw [List.foldl_cons]
      rcases List.mem_cons.mp mem with rfl | later
      · rw [get?_foldl_put_of_ne fun other there same => apart (List.mem_map.mpr ⟨other, there, same⟩), get?_put,
          if_pos rfl]
      · exact ih unique later

/-- Entries set one by one: the last of a key is there. -/
theorem get?_foldl_put (entries : List (κ × α)) (dict : Dict κ α) (key : κ)
    : (entries.foldl (fun dict entry => dict.put entry.1 entry.2) dict).get? key
        = (entries.reverse.lookup key <|> dict.get? key) := by
  induction entries generalizing dict with
  | nil => rfl
  | cons first rest ih =>
      rw [List.foldl_cons, ih, get?_put, List.reverse_cons, List.lookup_append]
      cases rest.reverse.lookup key with
      | some value => rfl
      | none =>
          obtain ⟨other, value⟩ := first
          by_cases here : key = other
          · simp [here]
          · have apart : (key == other) = false := by simpa using here
            simp [here, List.lookup_cons, apart]

/-- Entries set one by one, some keys skipped. -/
theorem get?_foldl_put_unless {skip : κ → Bool} {entries : List (κ × α)}
    (unique : (entries.map Prod.fst).Nodup)
    : (entries.foldl (fun dict (other, value) => if skip other then dict else dict.put other value)
        dict).get? key
      = if skip key then dict.get? key else (entries.lookup key).or (dict.get? key) := by
  induction entries generalizing dict with
  | nil =>
      rw [List.foldl_nil, List.lookup_nil, Option.none_or]
      exact (ite_self _).symm
  | cons entry rest ih =>
      obtain ⟨other, value⟩ := entry
      obtain ⟨apart, unique⟩ := List.nodup_cons.mp unique
      rw [List.foldl_cons, ih unique, List.lookup_cons]
      dsimp only
      by_cases same : key = other
      · subst same
        have none_ : rest.lookup key = none := by
          cases found : rest.lookup key with
          | none => rfl
          | some value =>
              have there : (rest.lookup key).isSome = true := by
                rw [found]
                rfl
              exact absurd (mem_keys_lookup.mpr there) apart
        rw [none_, beq_self_eq_true]
        cases skip key with
        | true => rfl
        | false =>
            rw [if_neg Bool.false_ne_true, if_neg Bool.false_ne_true, if_neg Bool.false_ne_true,
              get?_put, if_pos rfl]
            rfl
      · have kept : (if skip other then dict else dict.put other value).get? key = dict.get? key := by
          split
          · rfl
          · exact get?_put.trans (if_neg same)
        rw [kept, beq_false_of_ne same]

end Many

end Dict

end Js
