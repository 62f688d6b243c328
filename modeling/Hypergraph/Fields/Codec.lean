import Hypergraph.Fields.Checking

/-! A record's fields as they are written (`lib/fields.js`): numbered entries, links apart. An edit
keeps the entries of the fields its app does not know (`edit` in `lib/space.js`, whose other checks
refuse an edit but change nothing in it).
-/

namespace Hypergraph.Fields

open Wire Js Encodings

-- Writing and reading one value

section Codec

variable (p : Packages)

/-- `r.type || ''` as a string; what is neither falsy nor a string throws. -/
def stringOf (value : JsValue) : Option Str := (orElse value emptyString).string?

def refFormat : Codec (List String × Nat × String × String × Bool) :=
  (p.array p.string).pair (p.uint.pair (p.string.pair (p.string.pair p.bool)))

def encodeRef (r : Ref) : Option Bytes := do
  let type ← stringOf r.type
  let digest ← stringOf r.digest
  return (refFormat p).encode (r.src.map Str.text, r.size, type.text, digest.text, r.mutable_)

def decodeRef (bytes : Bytes) : Option Ref := do
  let (src, size, type, digest, mutable_) ← (refFormat p).read bytes
  let src ← src.mapM Str.ofText?
  let type ← Str.ofText? type
  let digest ← Str.ofText? digest
  if few : src.length < 2 ^ 32 then
    return ⟨src, few, size, .string type, .string digest, mutable_⟩
  else none

/-- The 32 bytes of a space's key. -/
def toKey (key : Str) : Option Bytes := (p.unz32 key).filter (·.length = 32)

/-- `c.encode` of a value that is no link; an integer out of `c.int`'s range throws. -/
def encodeValue : Kind → FieldValue → Option Bytes
  | .string, .text s => some (p.string.encode s.text)
  | .text, .text s => some (p.string.encode s.text)
  | .int, .int v => if IntRange v then some (p.int.encode v) else none
  | .uint, .uint n => some (p.uint.encode n)
  | .float, .float n => some (p.float64.encode n)
  | .bool, .bool b => some (p.bool.encode b)
  | .bytes, .bytes b => some b
  | .ref, .ref r => encodeRef p r
  | .space, .space key => (toKey p key).map p.fixed32.encode
  | _, _ => none

/-- `c.decode` of a value that is no link. -/
def decodeValue : Kind → Bytes → Option FieldValue
  | .string, bytes => ((p.string.read bytes).bind Str.ofText?).map .text
  | .text, bytes => ((p.string.read bytes).bind Str.ofText?).map .text
  | .int, bytes => (p.int.read bytes).map .int
  | .uint, bytes => (p.uint.read bytes).map .uint
  | .float, bytes => (p.float64.read bytes).map .float
  | .bool, bytes => (p.bool.read bytes).map .bool
  | .bytes, bytes => some (.bytes bytes)
  | .ref, bytes => (decodeRef p bytes).map .ref
  | .space, bytes => (p.fixed32.read bytes).map (.space ∘ p.z32)
  | .link, _ => none

/-- A link's place in the list of links, where it is added if it is not there. -/
def placeLink (links : List Bytes) (id : Bytes) : Nat × List Bytes :=
  match links.findIdx? (· = id) with
  | some place => (place, links)
  | none => (links.length, links ++ [id])

/-- A field's bytes, and the links with its own among them. -/
def encodeField (kind : Kind) (value : FieldValue) (links : List Bytes)
    : Option (Bytes × List Bytes) :=
  match kind, value with
  | .link, .link id => do
      let bytes ← idFromString p id
      return (p.uint.encode (placeLink links bytes).1, (placeLink links bytes).2)
  | .link, _ => none
  | kind, value => (encodeValue p kind value).map (·, links)

def decodeField (kind : Kind) (bytes : Bytes) (links : List Bytes) : Option FieldValue :=
  if kind = .link then do
    let place ← p.uint.read bytes
    let id ← links[place]?
    return .link (p.z32 id)
  else decodeValue p kind bytes

-- Entries

/-- A field's number and its value's bytes. -/
abbrev FieldEntry := Nat × Bytes

/-- An entry as it is written: its number, its value's length, its value. -/
def FieldEntry.write (entry : FieldEntry) : Bytes :=
  p.uint.encode entry.1 ++ p.uint.encode entry.2.length ++ entry.2

/-- The next entry of a buffer, its own bytes, and what follows it. -/
def nextEntry (bytes : Bytes) : Option (FieldEntry × Bytes × Bytes) := do
  let (number, rest) ← p.uint.decode bytes
  let (length, rest) ← p.uint.decode rest
  if rest.length < length then none
  else
    return ((number, rest.take length), bytes.take (bytes.length - (rest.drop length).length),
      rest.drop length)

/-- The field of a number: they are numbered from 1. -/
def FieldList.numbered (fields : FieldList) : Nat → Option (String × Kind)
  | 0 => none
  | number + 1 => fields.list[number]?

/-- The entries of the fields not declared, byte for byte. Each entry takes bytes, so as many rounds
as there are bytes are enough.
-/
def unknownIn (fields : FieldList) : Nat → Bytes → Option (List Bytes)
  | _, [] => some []
  | 0, _ :: _ => none
  | rounds + 1, bytes => do
      let (entry, raw, rest) ← nextEntry p bytes
      let others ← unknownIn fields rounds rest
      return if (fields.numbered entry.1).isSome then others else raw :: others

def unknownOf (fields : FieldList) (bytes : Bytes) : Option (List Bytes) :=
  unknownIn p fields bytes.length bytes

/-- What an entry adds to the values read; an unknown field's is skipped. -/
def readEntry (fields : FieldList) (links : List Bytes) (out : Values) (entry : FieldEntry)
    : Option Values :=
  match fields.numbered entry.1 with
  | none => some out
  | some (name, kind) =>
      (decodeField p kind entry.2 links).map fun value => Function.update out name (some value)

def decodeIn (fields : FieldList) (links : List Bytes) : Nat → Bytes → Values → Option Values
  | _, [], out => some out
  | 0, _ :: _, _ => none
  | rounds + 1, bytes, out => do
      let (entry, _, rest) ← nextEntry p bytes
      let out ← readEntry p fields links out entry
      decodeIn fields links rounds rest out

-- Versions

/-- A record's content as it is kept: its fields' bytes and its links. -/
structure Version where
  fields : Bytes
  links : List Bytes
  deriving DecidableEq

/-- `decode`: all declared fields start `null`. -/
def decode (fields : FieldList) (version : Version) : Option Values :=
  decodeIn p fields version.links version.fields.length version.fields fun _ => none

/-- The entries of the declared fields that have a value, in order, from a number on. -/
def encodeFields (values : Values)
    : List (String × Kind) → Nat → List Bytes → Option (List FieldEntry × List Bytes)
  | [], _, links => some ([], links)
  | (name, kind) :: rest, number, links =>
      match values name with
      | none => encodeFields values rest (number + 1) links
      | some value => do
          let (bytes, links) ← encodeField p kind value links
          let (entries, links) ← encodeFields values rest (number + 1) links
          return ((number, bytes) :: entries, links)

/-- `encode`: what the version it replaces has that is not declared is kept byte for byte, and with
it that version's links, in place.
-/
def encode (fields : FieldList) (values : Values) (keep : Option Version) : Option Version := do
  let unknown ← match keep with
    | none => some []
    | some version => unknownOf p fields version.fields
  let links := if unknown.isEmpty then [] else (keep.map Version.links).getD []
  let (entries, links) ← encodeFields p values fields.list 1 links
  return ⟨entries.flatMap (FieldEntry.write p) ++ unknown.flatten, links⟩

-- Edits

/-- A value as an app is given it, and may give it back (none: an integer past the safe ones, which
`checkValue` refuses).
-/
def FieldValue.toJs : FieldValue → Option JsValue
  | .text s => some (.string s)
  | .int v => if safe : v.natAbs < 2 ^ 53 then some (.number (.whole v safe)) else none
  | .uint n => if safe : n < 2 ^ 53 then some (.number (.whole n safe)) else none
  | .float n => some (.number n)
  | .bool b => some (.bool b)
  | .bytes b => some (.buffer b)
  | .ref r => do
      let size ← if safe : r.size < 2 ^ 53 then some (Number.whole r.size safe) else none
      return .object [("src", .array (r.src.map .string)), ("size", .number size),
        ("type", r.type), ("digest", r.digest), ("mutable", .bool r.mutable_)]
  | .space key => some (.string key)
  | .link id => some (.string id)

/-- A field as an app is given it: `null` where it has no value. -/
def jsOf (values : Values) (name : String) : Option JsValue :=
  match values name with
  | none => some .null
  | some value => value.toJs

/-- The values read, as an object with every declared field. -/
def objectOf (fields : FieldList) (values : Values) : Option (Dict String JsValue) :=
  fields.list.foldlM (fun object field => (jsOf values field.1).map (object.put field.1)) Dict.empty

/-- `{ ...object, ...changes }`. -/
def spread (object : Dict String JsValue) (changes : List (String × JsValue)) : Dict String JsValue :=
  changes.foldl (fun object change => object.put change.1 change.2) object

/-- The values of a version once the changes are made, checked. A change to `undefined` leaves the
field as it was.
-/
def changed (type : String) (fields : FieldList) (version : Version)
    (changes : Dict String JsValue) : Option Values := do
  let current ← decode p fields version
  let object ← objectOf fields current
  let given := changes.entries.filter fun change => !change.2.isUndefined
  (validate p type fields (spread object given)).toOption

/-- `edit`: the version that has the values changed. -/
def edit (type : String) (fields : FieldList) (version : Version) (changes : Dict String JsValue)
    : Option Version := do
  let values ← changed p type fields version changes
  encode p fields values (some version)

end Codec

end Hypergraph.Fields
