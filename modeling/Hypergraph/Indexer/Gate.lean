import Hypergraph.Fields.Codec
import Hypergraph.Lib.Table
import Mathlib.Data.ENat.Basic
import Mathlib.Data.Prod.Lex

/-! What may count of what a log's blocks hold (`lib/gate.js`, `lib/stamp.js`, and `#unseal` and
`#allowed` in `lib/space.js`). Ids are kept as what they encode; bytes that are no block's id stand
for the id of a block no log has.
-/

namespace Hypergraph.Indexer

open Wire Encodings Fields Js

-- Latest wins

/-- What versions are ordered by: the stamp, then the lower device. `compare(a, b) > 0` says that
`a` is above `b`.
-/
abbrev Rank := ℕ ×ₗ (List ℕ)ᵒᵈ

def rank (stamp : Nat) (device : Key) : Rank :=
  toLex (stamp, OrderDual.toDual (device.map UInt8.toNat))

/-- The bytes of ids are in the order of the log's key, then of the number as it is encoded. -/
instance : Ord RecordId where
  compare := compareLex (compareOn RecordId.log)
    (compareLex (compareOn fun id => compactUint.encode id.seq) (compareOn RecordId.seq))

instance : Std.TransOrd RecordId :=
  inferInstanceAs (Std.TransCmp (compareLex (compareOn RecordId.log)
    (compareLex (compareOn fun id => compactUint.encode id.seq) (compareOn RecordId.seq))))

instance : Std.LawfulEqOrd RecordId where
  compare_self := Std.ReflCmp.compare_self
  eq_of_compare {first second} same := by
    have apart : (compareLex (compareOn RecordId.log)
        (compareLex (compareOn fun id => compactUint.encode id.seq) (compareOn RecordId.seq)))
          first second = .eq := same
    rw [compareLex_eq_eq, compareLex_eq_eq] at apart
    have log : first.log = second.log := Std.LawfulEqOrd.eq_of_compare apart.1
    have seq : first.seq = second.seq := Std.LawfulEqOrd.eq_of_compare apart.2.2
    cases first
    cases second
    cases log
    cases seq
    rfl

-- Records, and the space they are in

/-- What a block holds, decoded. -/
structure Content where
  kind : RecordKind
  type : String
  stamp : Nat
  target : Option RecordId
  /-- Its fields and links are sealed: a private space's. -/
  sealed : Bool
  links : List RecordId
  fields : Bytes
  deriving DecidableEq

/-- A record opened. `unreadable`: a put written in the clear in a private space. -/
structure Opened extends Content where
  unreadable : Bool
  deriving DecidableEq

structure Log where
  identity : Key
  device : Key
  /-- This device's own. -/
  own : Bool
  /-- The block it is read from on. -/
  from_ : Nat

/-- A record as the app's rules see it. -/
structure Ruled where
  values : Values
  id : RecordId
  type : String
  author : Key
  device : Key
  stamp : Nat

structure Space where
  packages : Packages
  /-- `String(value)`. -/
  string : FieldValue → Units
  types : Types
  declared : ∃ declarations, Types.new declarations = .ok types
  personal : Bool
  priv : Bool
  /-- What a sealed record's box holds, opened with the epoch keys held. -/
  openBox : RecordId → Bytes → Option (Bytes × List RecordId)
  validRemoval : Log → Values → Bool
  rules : List (Ruled → Bool)
  log : Key → Log
  /-- What the logs' blocks hold, where it decodes. -/
  block : RecordId → Option Content

structure Moderation where
  flagged : Bool
  hidden : Bool
  removed : Bool

/-- What the indexer asks of the space's decisions. -/
structure Deciding where
  moderation : RecordId → Moderation
  editLimit : Key → String → Key → ℕ∞

def Deciding.isRemoved (state : Deciding) (id : RecordId) : Bool := (state.moderation id).removed

namespace Space

variable (space : Space)

def typeOf (type : String) : Option TypeDecl := space.types.types.get? type

/-- A declared type's fields, each named once and as many as can be numbered. -/
def fieldList (decl : TypeDecl) : Option FieldList :=
  if fits : decl.fields.length < 2 ^ 32 ∧ (decl.fields.map Prod.fst).Nodup then
    some ⟨decl.fields, fits.1, fits.2⟩
  else none

/-- `types.decode`: none where it throws. -/
def decode (type : String) (fields : Bytes) (links : List RecordId) : Option Values := do
  let decl ← space.typeOf type
  let list ← fieldList decl
  Fields.decode space.packages list
    ⟨fields, links.map (recordId space.packages.toPrimitives).encode⟩

/-- `idBytes` of a record's text. -/
def idOf (text : Str) : Option RecordId :=
  (idFromString space.packages text).bind (recordId space.packages.toPrimitives).read

/-- The record a link field points at. -/
def linkOf (value : Option FieldValue) : Option RecordId :=
  match value with
  | some (.link text) => space.idOf text
  | _ => none

-- Opening and checking

/-- The types never sealed. -/
def PLAIN : List String := ["hg/grant", "hg/key-link", "hg/device-remove"]

/-- `#unseal`: none where it must not count, or its epoch's key isn't held. -/
def unseal_ (id : RecordId) (record : Content) : Option Opened :=
  if !space.priv || PLAIN.contains record.type || record.kind = .delete then
    if record.sealed then none else some { record with unreadable := false }
  else if !record.sealed then
    if record.kind = .put then
      some { record with fields := [], links := [], unreadable := true }
    else none
  else
    (space.openBox id record.fields).map fun (fields, links) =>
      { record with fields := fields, links := links, sealed := false, unreadable := false }

/-- `checkRecord`: a record that may count, and its values if its type is known and it can be
read (a delete has none).
-/
def checkRecord (id : RecordId) (record : Content) : Option (Opened × Option Values) :=
  if decide (record.kind = .put) = record.target.isSome then none
  else do
    let opened ← space.unseal_ id record
    if opened.unreadable then return (opened, none)
    match space.typeOf opened.type with
    | none => return (opened, none)
    | some _ =>
        if opened.kind = .delete then return (opened, some fun _ => none)
        else return (opened, some (← space.decode opened.type opened.fields opened.links))

def PERSONAL : List String := ["hg/device", "hg/space", "hg/setting", "hg/heads"]

/-- `#allowed`: an identity log holds removals of devices, which are nowhere else; the personal
space's types count there only.
-/
def allowed (log : Log) (record : Opened) (values : Option Values) : Bool :=
  if log.device = log.identity ∨ record.type = "hg/device-remove" then
    log.device = log.identity && record.type = "hg/device-remove" && record.kind = .put
      && space.validRemoval log (values.getD fun _ => none)
  else !PERSONAL.contains record.type || space.personal

end Space

/-- `!!value`. -/
def truthy : Option FieldValue → Bool
  | none => false
  | some (.text s) => s.units ≠ []
  | some (.int v) => v ≠ 0
  | some (.uint n) => n ≠ 0
  | some (.float n) => !n.falsy
  | some (.bool b) => b
  | some (.bytes _) => true
  | some (.ref _) => true
  | some (.space s) => s.units ≠ []
  | some (.link s) => s.units ≠ []

/-- A string's units: none of any other value. -/
def unitsOf : Option FieldValue → Units
  | some (.text s) => s.units
  | _ => []

def MAX_DATA : Nat := 4096

/-- A string of a few bytes, or nothing. -/
def fewBytes : Option FieldValue → Bool
  | none => true
  | some (.text s) => s.text.utf8ByteSize ≤ MAX_DATA
  | some _ => false

/-- `Number.isFinite`, or nothing. -/
def finite : Option FieldValue → Bool
  | none => true
  | some (.float (.whole _ _)) => true
  | some (.float (.other bits _)) => bits.toNat / 2 ^ 52 % 2048 ≠ 2047
  | some _ => false

/-- `builtinValid`: relations and tags are only puts, with what they need. -/
def builtinValid (record : Opened) (values : Option Values) : Bool :=
  if record.type ≠ "hg/relation" ∧ record.type ≠ "hg/tag" then true
  else
    match decide (record.kind = .put), values with
    | true, some values =>
        if record.type = "hg/tag" then truthy (values "on") && unitsOf (values "tag") ≠ []
        else truthy (values "from") && truthy (values "to") && unitsOf (values "rel") ≠ []
          && finite (values "value") && fewBytes (values "data")
    | _, _ => false

/-- `brokenRule`: does a rule of the app refuse it? Hypergraph's own types and those it can't read
are none of its business.
-/
def Space.brokenRule (space : Space) (type : String) (values : Option Values) (id : RecordId) (log : Log)
    (stamp : Nat) : Bool :=
  match values, space.typeOf type with
  | some values, some _ =>
      !ownPrefix type
        && space.rules.any fun rule => !rule ⟨values, id, type, log.identity, log.device, stamp⟩
  | _, _ => false

end Hypergraph.Indexer
