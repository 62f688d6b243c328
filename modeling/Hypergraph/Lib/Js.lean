import Mathlib.Data.List.Lex

/-! What of JavaScript's behaviour a model of a program in it has to keep: expressions that
throw, tables that are plain objects, and objects used as maps.
-/

namespace Js

/-- Why a JavaScript expression threw. -/
inductive Thrown
  /-- A method of an array called on something that is not one. -/
  | notAFunction
  /-- A property of `null` read, or `null` passed where bytes are needed. -/
  | nullValue
  /-- A property of `undefined` read: an entry that should be there is not. -/
  | undefinedValue
  /-- A loop that does not end. -/
  | endless
  deriving DecidableEq, Repr

/-- A computation that may throw. -/
abbrev Run := Except Thrown

variable {α β : Type}

@[simp]
theorem pure_eq_ok (value : α) : (pure value : Run α) = .ok value := rfl

@[simp]
theorem ok_bind (value : α) (next : α → Run β) : (Except.ok value >>= next) = next value := rfl

@[simp]
theorem error_bind (thrown : Thrown) (next : α → Run β)
    : ((Except.error thrown : Run α) >>= next) = .error thrown :=
  rfl

@[simp]
theorem throw_eq_error (thrown : Thrown) : (throw thrown : Run α) = .error thrown := rfl

/-- A computation that ran to its end ran its first part to an end, then the rest. -/
theorem bind_eq_ok {first : Run α} {next : α → Run β} {result : β}
    : (first >>= next) = .ok result ↔ ∃ value, first = .ok value ∧ next value = .ok result := by
  cases first with
  | error thrown => simp
  | ok value => simp

theorem ok_of_toOption {run : Run α} {value : α} (is : run.toOption = some value)
    : run = .ok value := by
  cases run with
  | error thrown => cases is
  | ok other => exact congrArg _ (Option.some.inj is)

/-- Did it run to its end? -/
def Ends (run : Run α) : Prop := ∃ value, run = .ok value

@[simp]
theorem not_ends_error (thrown : Thrown) : ¬ Ends (.error thrown : Run α) := by
  rintro ⟨value, same⟩
  cases same

-- Plain objects as tables

/-- The properties every plain object has from `Object.prototype`. -/
def objectPrototype : List String :=
  ["constructor", "__defineGetter__", "__defineSetter__", "hasOwnProperty",
    "__lookupGetter__", "__lookupSetter__", "isPrototypeOf", "propertyIsEnumerable",
    "toString", "valueOf", "__proto__", "toLocaleString"]

/-- What `table[name]` gives: a value of the table, something inherited from
`Object.prototype` (a function or an object, so truthy), or `undefined`.
-/
inductive Found (α : Type)
  | own (value : α)
  | inherited
  | undefined
  deriving DecidableEq, Repr

def lookup (table : List (String × α)) (name : String) : Found α :=
  match table.lookup name with
  | some value => .own value
  | none => if name ∈ objectPrototype then .inherited else .undefined

/-- Is the string there and not empty? -/
def truthy (text : Option String) : Bool := text ≠ none ∧ text ≠ some ""

/-- JavaScript's order on numbers; what is not one (`NaN`) compares to nothing. -/
def atLeast (left right : Option Nat) : Bool :=
  match left, right with
  | some left, some right => right ≤ left
  | _, _ => false

def less (left right : Option Nat) : Bool :=
  match left, right with
  | some left, some right => left < right
  | _, _ => false

-- Plain objects as maps

/-- An object with the properties of a list; the first binding of a key is the one read. -/
abbrev Object (κ α : Type) := List (κ × α)

/-- `{ ...first, ...second }`: what `second` has counts. -/
def spread {κ : Type} (first second : Object κ α) : Object κ α := second ++ first

/-- The object filled by assigning the pairs one after the other: the last one counts. -/
def assigned {κ : Type} (pairs : List (κ × α)) : Object κ α := pairs.reverse

/-- `object[key] = value` for a string key. Assigning `__proto__` sets the prototype and
leaves no property.
-/
def set (object : Object String α) (key : String) (value : α) : Object String α :=
  if key = "__proto__" then object else (key, value) :: object

/-- `delete object[key]`. -/
def delete {κ : Type} [DecidableEq κ] (object : Object κ α) (key : κ) : Object κ α :=
  object.filter fun entry => decide (entry.1 ≠ key)

/-- The UTF-16 code units of a text, which `sort` compares by. -/
def codeUnits (text : String) : List Nat :=
  text.toList.flatMap fun c =>
    if c.toNat < 0x10000 then [c.toNat]
    else [0xD800 + (c.toNat - 0x10000) / 0x400, 0xDC00 + (c.toNat - 0x10000) % 0x400]

/-- `[...new Set(texts)].sort()`. -/
def sortedSet (texts : List String) : List String :=
  texts.eraseDups.mergeSort fun left right => codeUnits left ≤ codeUnits right

variable {κ : Type} [BEq κ]

@[simp]
theorem lookup_spread (first second : Object κ α) (key : κ)
    : (spread first second).lookup key = (second.lookup key).or (first.lookup key) := by
  simp [spread, List.lookup_append]

@[simp]
theorem lookup_set (object : Object String α) (key other : String) (value : α)
    : (set object key value).lookup other
      = if other = key ∧ key ≠ "__proto__" then some value else object.lookup other := by
  unfold set
  by_cases proto : key = "__proto__"
  · simp [proto]
  · by_cases same : other = key
    · simp [same, proto]
    · have different : (other == key) = false := by simpa using same
      simp [List.lookup_cons, proto, same, different]

theorem lookup_delete {κ : Type} [BEq κ] [LawfulBEq κ] [DecidableEq κ] (object : Object κ α)
    (key other : κ)
    : (delete object key).lookup other = if other = key then none else object.lookup other := by
  induction object with
  | nil => simp [delete]
  | cons first rest ih =>
      obtain ⟨name, value⟩ := first
      rw [delete] at ih ⊢
      by_cases gone : name = key
      · subst gone
        rw [List.filter_cons_of_neg (by simp), ih]
        by_cases same : other = name
        · simp [same]
        · have different : (other == name) = false := by simpa using same
          simp [List.lookup_cons, same, different]
      · rw [List.filter_cons_of_pos (by simpa using gone)]
        by_cases same : other = name
        · simp [same, gone]
        · have different : (other == name) = false := by simpa using same
          rw [List.lookup_cons, List.lookup_cons, different, ih]

end Js
