import Hypergraph.Lib.Utf16
import Hypergraph.Records
import Hypergraph.Types

/-! The values an app gives for a record's fields, checked against their declaration (`checkValue`
and `validate` in `lib/types.js`).
-/

namespace Hypergraph.Fields

open Wire Js Encodings

-- What an app gives

/-- The safe integer a double's bits hold, if they hold one (`-0` apart). -/
def safeInteger (bits : UInt64) : Option Int :=
  let exponent := bits.toNat / 2 ^ 52 % 2048
  let fraction := 2 ^ 52 + bits.toNat % 2 ^ 52
  if bits = 0 then some 0
  else if exponent < 1023 ∨ 1075 < exponent then none
  else if fraction % 2 ^ (1075 - exponent) ≠ 0 then none
  else if bits.toNat < 2 ^ 63 then some (fraction / 2 ^ (1075 - exponent) : Nat)
  else some (-(fraction / 2 ^ (1075 - exponent) : Nat))

/-- A double: a safe integer by its value, any other by its bits. -/
inductive Number
  | whole (value : Int) (safe : value.natAbs < 2 ^ 53)
  | other (bits : UInt64) (apart : safeInteger bits = none)
  deriving DecidableEq

def Number.negativeZero : UInt64 := 0x8000000000000000

/-- The integer of a number `Number.isSafeInteger` takes; `-0` counts as 0. -/
def Number.integer? : Number → Option Int
  | .whole value _ => some value
  | .other bits _ => if bits = negativeZero then some 0 else none

/-- 0, `-0` and `NaN`. -/
def Number.falsy : Number → Bool
  | .whole value _ => value == 0
  | .other bits _ =>
      bits == negativeZero || (bits.toNat / 2 ^ 52 % 2048 == 2047 && bits.toNat % 2 ^ 52 != 0)

inductive JsValue
  | undefined
  | null
  | bool (b : Bool)
  | number (n : Number)
  | string (s : Str)
  | buffer (b : Bytes)
  | array (items : List JsValue)
  | object (properties : List (String × JsValue))

namespace JsValue

def truthy : JsValue → Bool
  | .undefined | .null => false
  | .bool b => b
  | .number n => !n.falsy
  | .string s => s.units != []
  | _ => true

/-- A property of a value that is not `null` or `undefined`. -/
def get (value : JsValue) (name : String) : JsValue :=
  match value with
  | .object properties => (properties.lookup name).getD .undefined
  | _ => .undefined

def isUndefined : JsValue → Bool
  | .undefined => true
  | _ => false

def isNull : JsValue → Bool
  | .null => true
  | _ => false

def string? : JsValue → Option Str
  | .string s => some s
  | _ => none

def integer? : JsValue → Option Int
  | .number n => n.integer?
  | _ => none

end JsValue

-- Checked values

/-- A reference to bytes elsewhere. Its type and digest are not checked to be strings. -/
structure Ref where
  src : List Str
  /-- No array has more items. -/
  few : src.length < 2 ^ 32
  size : Nat
  type : JsValue
  digest : JsValue
  mutable_ : Bool

/-- A value as it is checked and read: records and spaces by the text of their ids. -/
inductive FieldValue
  | text (s : Str)
  | int (v : Int)
  | uint (n : Nat)
  | float (n : Number)
  | bool (b : Bool)
  | bytes (b : Bytes)
  | ref (r : Ref)
  | space (key : Str)
  | link (id : Str)

/-- The values of a record's fields, by name (none: `null`, or absent). -/
abbrev Values := String → Option FieldValue

/-- The fields a type declares, in the order of its declaration. -/
structure FieldList where
  list : List (String × Kind)
  few : list.length < 2 ^ 32
  unique : (list.map Prod.fst).Nodup

def FieldList.names (fields : FieldList) : List String := fields.list.map Prod.fst

/-- What the `compact-encoding` and `z32` packages do. -/
structure Packages extends Primitives where
  int : Codec Int
  float64 : Codec Number
  z32 : Bytes → Str
  unz32 : Str → Option Bytes

section Checking

variable (p : Packages)

/-- The bytes of an id's text. -/
def idFromString (id : Str) : Option Bytes := do
  let bytes ← p.unz32 id
  if bytes.length < 33 then none
  else
    let _ ← (recordId p.toPrimitives).read bytes
    some bytes

/-- The first of two values unless it is falsy (`a || b`). -/
def orElse (value : JsValue) (other : JsValue) : JsValue := if value.truthy then value else other

def emptyString : JsValue := .string ⟨[], by decide⟩

variable (type field : String)

def bad {α : Type} (what : String) : Checked α :=
  throw ⟨"INVALID_RECORD", type ++ "." ++ field ++ " must be " ++ what⟩

/-- A value of the kind its field declares, normalized; throws naming the type and the field. (A
list as long as no array is refused for want of one.)
-/
def checkValue (kind : Kind) (value : JsValue) : Checked FieldValue :=
  match kind with
  | .string | .text =>
      match value.string? with
      | some s => return .text s
      | none => bad type field "a string"
  | .int =>
      match value.integer? with
      | some v => return .int v
      | none => bad type field "an integer"
  | .uint =>
      match value.integer? with
      | some v => if 0 ≤ v then return .uint v.toNat else bad type field "a positive integer or 0"
      | none => bad type field "a positive integer or 0"
  | .float =>
      match value with
      | .number n => return .float n
      | _ => bad type field "a number"
  | .bool =>
      match value with
      | .bool b => return .bool b
      | _ => bad type field "true or false"
  | .bytes =>
      match value with
      | .buffer b => return .bytes b
      | _ => bad type field "bytes"
  | .ref =>
      match value.get "src" with
      | .array items =>
          match items.mapM JsValue.string? with
          | none => bad type field "a reference \x7b src: [addresses], size, type, digest \x7d"
          | some src =>
              let size := value.get "size"
              if !size.isUndefined && !(size.integer?.any (0 ≤ ·)) then
                bad type field "a reference with a positive size"
              else if few : src.length < 2 ^ 32 then
                return .ref {
                  src
                  few
                  size := (size.integer?.getD 0).toNat
                  type := orElse (value.get "type") emptyString
                  digest := orElse (value.get "digest") emptyString
                  mutable_ := (value.get "mutable").truthy }
              else bad type field "an array"
      | _ => bad type field "a reference \x7b src: [addresses], size, type, digest \x7d"
  | .link =>
      match (value.string?.or (value.get "id").string?).filter (·.units ≠ []) with
      | none => bad type field "a record or its id"
      | some id =>
          match idFromString p id with
          | none => bad type field "a record or its id"
          | some bytes => return .link (p.z32 bytes)
  | .space =>
      let bytes :=
        match value.string? with
        | some key => p.unz32 key
        | none =>
            match value.get "key" with
            | .string key => p.unz32 key
            | .buffer b => some b
            | _ => none
      match bytes with
      | none => bad type field "a space or its key"
      | some b => if b.length = 32 then return .space (p.z32 b) else bad type field "a space or its key"

/-- The values of an object of fields: `undefined` ones are left out, others must be declared,
`null` is a field's absence.
-/
def validateEntries (fields : FieldList) : List (String × JsValue) → Values → Checked Values
  | [], out => return out
  | (name, value) :: rest, out =>
      if value.isUndefined then validateEntries fields rest out
      else
        match fields.list.lookup name with
        | none => throw ⟨"INVALID_RECORD", type ++ " has no field \"" ++ name ++ "\""⟩
        | some kind =>
            if value.isNull then validateEntries fields rest out
            else do
              let checked ← checkValue p type name kind value
              validateEntries fields rest (Function.update out name (some checked))

def validate (fields : FieldList) (values : Dict String JsValue) : Checked Values :=
  validateEntries p type fields values.entries fun _ => none

end Checking

end Hypergraph.Fields
