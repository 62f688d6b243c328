import Hypergraph.Lib.Js

/-! JSON values as a JavaScript program has them: which are true, what they read as, and when reading
one as text throws.
-/

namespace Js

/-- What a program asks of its numbers. -/
structure Numbers (Number : Type) where
  /-- `String(n)`. -/
  text : Number → String
  /-- The natural number it is, if it is one. -/
  nat? : Number → Option Nat
  /-- `n > limit`. -/
  exceeds : Number → (limit : Nat) → Bool
  /-- `Number(text)`, `none` for `NaN`. -/
  ofString : String → Option Number

/-- A value that JSON can hold; an object's fields in their order. -/
inductive Json (Number : Type)
  | null
  | bool (value : Bool)
  | number (value : Number)
  | string (text : String)
  | array (items : List (Json Number))
  | object (fields : List (String × Json Number))

namespace Json

variable {Number : Type} (numbers : Numbers Number)

mutual

/-- `String(value)`; `none`: it throws, as an object's own `toString` is no function. -/
def text : Json Number → Option String
  | .null => some "null"
  | .bool value => some (if value then "true" else "false")
  | .number value => some (numbers.text value)
  | .string text => some text
  | .array items => (itemTexts items).map (String.intercalate ",")
  | .object fields => if fields.any (·.1 = "toString") then none else some "[object Object]"

/-- The texts of an array's items, `''` for `null`. -/
def itemTexts : List (Json Number) → Option (List String)
  | [] => some []
  | item :: items => do
      let first ← match item with
        | .null => some ""
        | item => text item
      let rest ← itemTexts items
      some (first :: rest)

end

/-- `!!value`. -/
def truthy : Json Number → Bool
  | .null => false
  | .bool value => value
  | .number value => numbers.nat? value ≠ some 0
  | .string text => text ≠ ""
  | .array _ | .object _ => true

/-- `value > limit`; `none`: it throws. -/
def exceeds (limit : Nat) : Json Number → Option Bool
  | .null => some false
  | .bool value => some (value && limit = 0)
  | .number value => some (numbers.exceeds value limit)
  | value => (text numbers value).map fun text => (numbers.ofString text).any (numbers.exceeds · limit)

/-- `value[name]`, where the value is an object; `none`: it has no such field. -/
def field (fields : List (String × Json Number)) (name : String) : Option (Json Number) :=
  fields.lookup name

-- A field that isn't there is `undefined`.

/-- `String(field)`, as in a template. -/
def fieldText : Option (Json Number) → Option String
  | none => some "undefined"
  | some value => text numbers value

/-- `field || null`. -/
def fieldOrNull (value : Option (Json Number)) : Option (Json Number) := value.filter (truthy numbers)

/-- `field > limit`. -/
def fieldExceeds (limit : Nat) : Option (Json Number) → Option Bool
  | none => some false
  | some value => exceeds numbers limit value

/-- The text a field is, if it is one. -/
def string? : Option (Json Number) → Option String
  | some (.string text) => some text
  | _ => none

/-- `field === true`. -/
def isTrue : Option (Json Number) → Bool
  | some (.bool value) => value
  | _ => false

variable {numbers}

@[simp]
theorem string?_eq_some {value : Option (Json Number)} {text : String}
    : string? value = some text ↔ value = some (.string text) := by
  constructor
  · intro is
    unfold string? at is
    split at is
    · rw [Option.some.inj is]
    · cases is
  · rintro rfl
    rfl

@[simp]
theorem text_string (text : String) : Json.text numbers (.string text : Json Number) = some text := by
  rw [Json.text]

end Json

end Js
