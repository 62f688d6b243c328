import Hypergraph.Lib.Table
import Hypergraph.Lib.Js

/-! Objects in an object, filled from the rows of a table in their order: each row goes to the place that
its key's two parts name, and what is found at a place is what the last such row held.
-/

namespace Js

variable {α β : Type}

/-- Rows under two names. -/
abbrev Nested (α : Type) := Table String (Table String α)

namespace Nested

/-- What stands under two names. -/
def get2 (table : Nested α) (first second : String) : Option α := table[first]?.bind fun inner => inner[second]?

/-- `(object[first] = object[first] || {})[second] = value`; `none`: it writes to what every object
inherits, or to none of its properties.
-/
def assign (table : Nested α) (first second : String) (value : α) : Option (Nested α) :=
  if first ∈ objectPrototype ∨ second = "__proto__" then none
  else some (table.insert first ((table[first]?.getD ∅).insert second value))

/-- `(object[first] = object[first] || []).push(item)`; `none`: what every object inherits has no `push`. -/
def push (table : Table String (List α)) (first : String) (item : α) : Option (Table String (List α)) :=
  if first ∈ objectPrototype then none else some (table.insert first (table[first]?.getD [] ++ [item]))

variable (parts : String → String × String)

/-- Rows assigned one after the other, by their keys' parts. -/
def assigned (rows : List (String × α)) : Option (Nested α) :=
  rows.foldlM (fun table row => assign table (parts row.1).1 (parts row.1).2 row.2) ∅

/-- Rows pushed one after the other under the first part of their keys, with the second. -/
def pushed (rows : List (String × α)) : Option (Table String (List (String × α))) :=
  rows.foldlM (fun table row => push table (parts row.1).1 ((parts row.1).2, row.2)) ∅

variable {parts}

theorem get2_insert {table : Nested α} {first second first' second' : String} {value : α}
    : get2 (table.insert first ((table[first]?.getD ∅).insert second value)) first' second'
      = if (first, second) = (first', second') then some value else get2 table first' second' := by
  unfold get2
  rw [Std.ExtTreeMap.getElem?_insert]
  by_cases same : first = first'
  · subst same
    simp only [Std.compare_self, if_true, Option.bind_some, Std.ExtTreeMap.getElem?_insert,
      Prod.mk.injEq, true_and, Std.compare_eq_iff_eq]
    cases table[first]? <;> simp
  · simp [same]

/-- A place after the rows: what the last of its rows held, or what was there. Induction on the rows. -/
theorem get2_foldlM {rows : List (String × α)} {start table : Nested α}
    (made : rows.foldlM (fun table row => assign table (parts row.1).1 (parts row.1).2 row.2) start
      = some table)
    (first second : String)
    : get2 table first second
      = (((rows.filter fun row => parts row.1 = (first, second)).getLast?).map Prod.snd).or
          (get2 start first second) := by
  induction rows generalizing start with
  | nil =>
      cases made
      simp
  | cons row rest ih =>
      rw [List.foldlM_cons, Option.bind_eq_bind, Option.bind_eq_some_iff] at made
      obtain ⟨next, step, made⟩ := made
      rw [assign, Option.ite_none_left_eq_some, Option.some.injEq] at step
      obtain ⟨_, rfl⟩ := step
      rw [ih made, get2_insert, List.filter_cons]
      by_cases here : parts row.1 = (first, second)
      · rw [if_pos here, if_pos (decide_eq_true here), List.getLast?_cons]
        cases (rest.filter fun row => parts row.1 = (first, second)).getLast? <;> simp
      · rw [if_neg here, if_neg (by simpa using here)]

theorem get2_assigned {rows : List (String × α)} {table : Nested α} (made : assigned parts rows = some table)
    (first second : String)
    : get2 table first second
      = ((rows.filter fun row => parts row.1 = (first, second)).getLast?).map Prod.snd := by
  rw [get2_foldlM made]
  simp [get2]

theorem isSome_assigned {rows : List (String × α)}
    : (assigned parts rows).isSome
      ↔ ∀ row ∈ rows, (parts row.1).1 ∉ objectPrototype ∧ (parts row.1).2 ≠ "__proto__" := by
  unfold assigned
  generalize (∅ : Nested α) = start
  induction rows generalizing start with
  | nil => simp
  | cons row rest ih =>
      rw [List.foldlM_cons, List.forall_mem_cons, assign, ← not_or]
      split
      · simp_all
      · rename_i fine
        simp only [Option.bind_eq_bind, Option.bind_some, fine, not_false_eq_true, true_and]
        exact ih _

/-- What is under a name after the rows, in their order. -/
theorem getD_pushed {rows : List (String × α)} {table : Table String (List (String × α))}
    (made : pushed parts rows = some table) (first : String)
    : table[first]?.getD []
      = (rows.filter fun row => (parts row.1).1 = first).map fun row => ((parts row.1).2, row.2) := by
  suffices every : ∀ start : Table String (List (String × α)),
      rows.foldlM (fun table row => push table (parts row.1).1 ((parts row.1).2, row.2)) start = some table
      → table[first]?.getD [] = start[first]?.getD []
        ++ (rows.filter fun row => (parts row.1).1 = first).map fun row => ((parts row.1).2, row.2) by
    simpa using every ∅ made
  clear made
  induction rows with
  | nil =>
      intro start made
      cases made
      simp
  | cons row rest ih =>
      intro start made
      rw [List.foldlM_cons, Option.bind_eq_bind, Option.bind_eq_some_iff] at made
      obtain ⟨next, step, made⟩ := made
      rw [push, Option.ite_none_left_eq_some, Option.some.injEq] at step
      obtain ⟨_, rfl⟩ := step
      rw [ih _ made, Std.ExtTreeMap.getElem?_insert, List.filter_cons]
      by_cases here : (parts row.1).1 = first
      · simp [here]
      · simp [here]

theorem isSome_pushed {rows : List (String × α)}
    : (pushed parts rows).isSome ↔ ∀ row ∈ rows, (parts row.1).1 ∉ objectPrototype := by
  unfold pushed
  generalize (∅ : Table String (List (String × α))) = start
  induction rows generalizing start with
  | nil => simp
  | cons row rest ih =>
      rw [List.foldlM_cons, List.forall_mem_cons, push]
      split
      · simp_all
      · rename_i fine
        simp only [Option.bind_eq_bind, Option.bind_some, fine, not_false_eq_true, true_and]
        exact ih _

end Nested

end Js
