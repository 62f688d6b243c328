import Hypergraph.Lib.CompactEncoding
import Hypergraph.Lib.Digits
import Hypergraph.Lib.Joined
import Hypergraph.Engine.Governance

/-! The bulky indexes of a context's view, edges, their counters and tags, in two layouts
(`src/index-layout/`): text keys with JSON values, and tuples with values in bytes.
-/

namespace Hypergraph.Engine

open Wire

namespace Layouts

-- Entity ids

/-- A text before and after its last slash. -/
def splitLast (text : List Char) : Option (List Char × List Char) :=
  if '/' ∈ text then
    some ((text.reverse.dropWhile (· ≠ '/')).tail.reverse, (text.reverse.takeWhile (· ≠ '/')).reverse)
  else none

/-- `Number.MAX_SAFE_INTEGER`. -/
def maxSafeInteger : Nat := 2 ^ 53 - 1

def parseEntityId (id : String) : Option (String × Bytes × Nat) := do
  let (rest, seqText) ← splitLast id.toList
  let (type, hex) ← splitLast rest
  if ¬ isHex64 (String.ofList hex) ∨ ¬ Digits.canonical seqText then none
  else
    let seq := Nat.ofDigitChars 10 seqText 0
    if seq ≤ maxSafeInteger then some (String.ofList type, hexBytes hex, seq) else none

def formatEntityId (type : String) (author : Bytes) (seq : Nat) : String :=
  String.ofList (type.toList ++ '/' :: hexChars author ++ '/' :: Nat.toDigits 10 seq)

def toKeyParts (id : String) : String × Bytes × Nat := (parseEntityId id).getD (id, [], 0)

def fromKeyParts : String × Bytes × Nat → String
  | (typeOrRaw, author, seq) =>
      if author ≠ [] then formatEntityId typeOrRaw author seq else typeOrRaw

/-- The text between the last two slashes. -/
def authorFromEntityId (id : String) : Option String := do
  let (rest, _) ← splitLast id.toList
  let (_, author) ← splitLast rest
  some (String.ofList author)

/-- `authorParts`. -/
def authorParts (author : String) : Bytes × String :=
  if isHex64 author then (fromHex author, "") else ([], author)

def authorFromParts : Bytes × String → String
  | (key, raw) => if key ≠ [] then toHex key else raw

-- Records

-- A relation's value is a JavaScript number.
variable {Number : Type}

inductive Direction
  | incoming
  | outgoing
  deriving DecidableEq

/-- An edge as a layout is given it. -/
structure Edge (Number : Type) where
  source : String
  type : String
  createdAt : Nat
  target : String
  author : String
  value : Option Number
  data : Option String

/-- An edge as a layout gives it; `some none` is a value of `null`. -/
structure EdgeRecord (Number : Type) where
  source : String
  target : String
  type : String
  author : Option String
  createdAt : Nat
  deleted : Bool
  value : Option (Option Number)
  data : Option String
  deriving DecidableEq

structure TagRecord where
  entityId : String
  tag : String
  author : String
  createdAt : Nat
  deriving DecidableEq

-- The first layout

/-- What stands under a text key. -/
inductive Json (Number : Type)
  | edge (record : EdgeRecord Number)
  | ref (key : List Char)
  | count (count : Nat)
  | tag (record : TagRecord)

/-- `toSortableTs`. -/
def toSortableTs (ts : Nat) : List Char := Digits.padded 16 (min ts maxSafeInteger)

namespace Layout1

def edgeKey (source type : String) (createdAt : Nat) (target : String) : List Char :=
  joined ':' [['e'], source.toList, type.toList, toSortableTs createdAt, target.toList]

def inKey (target type : String) (createdAt : Nat) (source : String) : List Char :=
  joined ':' [['i'], "in".toList, target.toList, type.toList, toSortableTs createdAt, source.toList]

def activeKey (source type target : String) : List Char :=
  joined ':' ["er".toList, source.toList, type.toList, target.toList]

def countKey (direction : Direction) (entityId type : String) : List Char :=
  joined ':' ["cnt".toList, (if direction = .incoming then "in" else "out").toList, entityId.toList,
    type.toList]

def tagKey (tag : String) (createdAt : Nat) (entityId author : String) : List Char :=
  joined ':' [['t'], tag.toList, toSortableTs createdAt, entityId.toList, author.toList]

def tagRefKey (tag entityId author : String) : List Char :=
  joined ':' ["tref".toList, tag.toList, entityId.toList, author.toList]

abbrev Db (Number : Type) := Table (List Char) (Json Number)

-- What a number is as JSON: itself where it is finite (and not a negative zero), else `null`.
variable (json : Number → Option Number) (db : Db Number)

def edgeAt (key : List Char) : Option (EdgeRecord Number) :=
  match db[key]? with
  | some (.edge record) => some record
  | _ => none

def activeEdge (source type target : String) : Option (EdgeRecord Number) :=
  match db[activeKey source type target]? with
  | some (.ref key) => edgeAt db key
  | _ => none

def addEdge (e : Edge Number) : Db Number :=
  let key := edgeKey e.source e.type e.createdAt e.target
  ((db.insert key (.edge ⟨e.source, e.target, e.type, some e.author, e.createdAt, false,
      e.value.map json, e.data⟩)).insert
    (activeKey e.source e.type e.target) (.ref key)).insert
    (inKey e.target e.type e.createdAt e.source) (.ref key)

def removeEdge (source type : String) (createdAt : Nat) (target : String) : Db Number :=
  let key := edgeKey source type createdAt target
  let marked := match edgeAt db key with
    | some record => db.insert key (.edge { record with deleted := true })
    | none => db
  (marked.erase (inKey target type createdAt source)).erase (activeKey source type target)

def getCount (direction : Direction) (entityId type : String) : Nat :=
  match db[countKey direction entityId type]? with
  | some (.count count) => count
  | _ => 0

def putCount (direction : Direction) (entityId type : String) (count : Nat) : Db Number :=
  db.insert (countKey direction entityId type) (.count count)

def addTag (t : TagRecord) : Db Number :=
  let key := tagKey t.tag t.createdAt t.entityId t.author
  (db.insert key (.tag t)).insert (tagRefKey t.tag t.entityId t.author) (.ref key)

def removeTag (tag entityId author : String) : Db Number :=
  let refKey := tagRefKey tag entityId author
  match db[refKey]? with
  | some (.ref key) => (db.erase key).erase refKey
  | _ => db.erase refKey

/-- The entries whose keys start with some parts, each with a colon after it. -/
def stream (start : List (List Char)) : List (Json Number) :=
  (db.filter fun key _ => Joined.inRange (joined ':' (start ++ [[]])) key).toList.map Prod.snd

def edges (entityId : String) (direction : Direction) (type : Option String) (reverse : Bool)
    : List (EdgeRecord Number) :=
  let base := if direction = .incoming then [['i'], "in".toList, entityId.toList]
    else [['e'], entityId.toList]
  let start := match required type with
    | some type => base ++ [type.toList]
    | none => base
  let found := (stream db start).filterMap fun
    | .edge record => if direction = .outgoing then some record else none
    | .ref key => if direction = .incoming then edgeAt db key else none
    | _ => none
  if reverse then found.reverse else found

/-- The type that is asked for, if one is, as part of a key. -/
def wanted (type : Option String) : List (List Char) := (required type).toList.map String.toList

theorem base_wanted (base : List (List Char)) (type : Option String)
    : (match required type with
        | some type => base ++ [type.toList]
        | none => base) = base ++ wanted type := by
  cases is : required type <;> simp [wanted, is]

def tagged (tag : Option String) : List TagRecord :=
  let start := match tag with
    | some tag => [['t'], tag.toList]
    | none => [['t']]
  (stream db start).filterMap fun
    | .tag record => some record
    | _ => none

def hasTag (entityId tag : String) : Bool :=
  stream db ["tref".toList, tag.toList, entityId.toList] ≠ []

end Layout1

-- The second layout

/-- A member of a tuple. -/
inductive Member
  | string (text : String)
  | buffer (bytes : Bytes)
  | uint (number : Nat)
  deriving DecidableEq

/-- The `index-encoder` package: keys of tuples, apart by their prefix byte, which are told from the
keys and stand together when they start with the same members.
-/
structure IndexEncoder (Key : Type) where
  encode : (tag : Nat) → List Member → Key
  decode : Key → List Member
  /-- `encodeRange({ gte: parts, lte: parts })`. -/
  inRange : (tag : Nat) → List Member → Key → Bool
  decode_encode : ∀ tag members, decode (encode tag members) = members
  tag_inj : ∀ {tag tag' members members'},
    encode tag members = encode tag' members' → tag = tag'
  inRange_encode : ∀ tag parts tag' members,
    inRange tag parts (encode tag' members) = true ↔ tag' = tag ∧ parts <+: members

def keyTime (ts : Nat) : Nat := min ts maxSafeInteger

theorem keyTime_le (ts : Nat) : keyTime ts ≤ maxSafeInteger := Nat.min_le_right _ _

theorem keyTime_eq {ts : Nat} (safe : ts ≤ maxSafeInteger) : keyTime ts = ts := Nat.min_eq_left safe

@[simp]
theorem keyTime_keyTime (ts : Nat) : keyTime (keyTime ts) = keyTime ts := keyTime_eq (keyTime_le ts)

@[simp]
theorem toSortableTs_keyTime (ts : Nat) : toSortableTs (keyTime ts) = toSortableTs ts := by
  rw [toSortableTs, toSortableTs, ← keyTime, ← keyTime, keyTime_keyTime]

/-- What the key of an edge doesn't say. -/
structure EdgeValue (Number : Type) where
  deleted : Bool
  value : Option Number
  data : Option String

section EdgeValues

variable (p : Primitives) (float64 : Codec Number)

def edgeFlags (v : EdgeValue Number) : Nat :=
  (if v.deleted then 1 else 0) + (if v.value.isSome then 2 else 0) + if v.data.isSome then 4 else 0

theorem edgeFlags_le (v : EdgeValue Number) : edgeFlags v ≤ 7 := by
  unfold edgeFlags
  split <;> split <;> split <;> decide

theorem edgeFlags_bits (v : EdgeValue Number)
    : (edgeFlags v).testBit 0 = v.deleted ∧ (edgeFlags v).testBit 1 = v.value.isSome
      ∧ (edgeFlags v).testBit 2 = v.data.isSome := by
  obtain ⟨deleted, value, data⟩ := v
  cases deleted <;> cases value <;> cases data <;> simp [edgeFlags] <;> decide

/-- Flags, and the value and the data where they are set. -/
def edgeValue : Codec (EdgeValue Number) where
  encode v :=
    p.uint.encode (edgeFlags v) ++ (match v.value with
      | some value => float64.encode value
      | none => []) ++ match v.data with
      | some data => p.string.encode data
      | none => []
  decode bytes := do
    let (flags, bytes) ← p.uint.decode bytes
    let (value, bytes) ←
      if flags.testBit 1 then (float64.decode bytes).map fun (value, bytes) => (some value, bytes)
      else some (none, bytes)
    let (data, bytes) ←
      if flags.testBit 2 then (p.string.decode bytes).map fun (data, bytes) => (some data, bytes)
      else some (none, bytes)
    return (⟨flags.testBit 0, value, data⟩, bytes)
  Fits v := p.uint.Fits (edgeFlags v) ∧ (∀ value, v.value = some value → float64.Fits value)
    ∧ ∀ data, v.data = some data → p.string.Fits data
  decode_encode v rest fits := by
    obtain ⟨flags, value, data⟩ := fits
    obtain ⟨bit, bit', bit''⟩ := edgeFlags_bits v
    simp only [List.append_assoc, p.uint.decode_encode _ _ flags, Option.bind_eq_bind,
      Option.bind_some, bit, bit', bit'']
    obtain ⟨deleted, value_, data_⟩ := v
    cases value_ with
    | none =>
        cases data_ with
        | none => simp
        | some text => simp [p.string.decode_encode _ _ (data text rfl)]
    | some number =>
        cases data_ with
        | none => simp [float64.decode_encode _ _ (value number rfl)]
        | some text =>
            simp [float64.decode_encode _ _ (value number rfl), p.string.decode_encode _ _ (data text rfl)]

end EdgeValues

namespace Layout2

variable {Key : Type} [Ord Key] [Std.TransOrd Key] (enc : IndexEncoder Key) (p : Primitives)
  (float64 : Codec Number)

/-- An entity id as members. -/
def idMembers (id : String) : List Member :=
  match toKeyParts id with
  | (typeOrRaw, author, seq) => [.string typeOrRaw, .buffer author, .uint seq]

def authorMembers (author : String) : List Member :=
  match authorParts author with
  | (key, raw) => [.buffer key, .string raw]

/-- The id of its members. -/
def idOf : List Member → String
  | [.string typeOrRaw, .buffer author, .uint seq] => fromKeyParts (typeOrRaw, author, seq)
  | _ => ""

def edgeKey (source type : String) (createdAt : Nat) (target : String) : Key :=
  enc.encode 0x10 (idMembers source ++ [.string type, .uint (keyTime createdAt)] ++ idMembers target)

def inKey (target type : String) (createdAt : Nat) (source : String) : Key :=
  enc.encode 0x11 (idMembers target ++ [.string type, .uint (keyTime createdAt)] ++ idMembers source)

def activeKey (source type target : String) : Key :=
  enc.encode 0x12 (idMembers source ++ [.string type] ++ idMembers target)

def countKey (direction : Direction) (entityId type : String) : Key :=
  enc.encode (if direction = .incoming then 0x13 else 0x14) (idMembers entityId ++ [.string type])

def tagKey (tag : String) (createdAt : Nat) (entityId author : String) : Key :=
  enc.encode 0x15 ([.string tag, .uint createdAt] ++ idMembers entityId ++ authorMembers author)

def tagRefKey (tag entityId author : String) : Key :=
  enc.encode 0x16 ([.string tag] ++ idMembers entityId ++ authorMembers author)

abbrev Db (Key : Type) [Ord Key] := Table Key Bytes

variable (db : Db Key)

/-- An edge's record from its key and what stands under it; `none`: reading it throws. -/
def edgeRecord (source type : String) (createdAt : Nat) (target : String) (bytes : Bytes)
    : Option (EdgeRecord Number) :=
  ((edgeValue p float64).read bytes).map fun v =>
    ⟨source, target, type, authorFromEntityId source, createdAt, v.deleted, v.value.map some, v.data⟩

def edgeAt (source type : String) (createdAt : Nat) (target : String) : Option (EdgeRecord Number) :=
  db[edgeKey enc source type createdAt target]?.bind (edgeRecord p float64 source type createdAt target)

def activeEdge (source type target : String) : Option (EdgeRecord Number) := do
  let ref ← db[activeKey enc source type target]?
  let createdAt ← p.uint.read ref
  edgeAt enc p float64 db source type createdAt target

def addEdge (e : Edge Number) : Db Key :=
  let createdAt := keyTime e.createdAt
  ((db.insert (edgeKey enc e.source e.type createdAt e.target)
      ((edgeValue p float64).encode ⟨false, e.value, e.data⟩)).insert
    (activeKey enc e.source e.type e.target) (p.uint.encode createdAt)).insert
    (inKey enc e.target e.type createdAt e.source) []

def removeEdge (source type : String) (createdAt : Nat) (target : String) : Db Key :=
  let key := edgeKey enc source type createdAt target
  let marked := match db[key]?.bind (edgeValue p float64).read with
    | some v => db.insert key ((edgeValue p float64).encode { v with deleted := true })
    | none => db
  (marked.erase (inKey enc target type createdAt source)).erase (activeKey enc source type target)

def getCount (direction : Direction) (entityId type : String) : Nat :=
  (db[countKey enc direction entityId type]?.bind p.uint.read).getD 0

def putCount (direction : Direction) (entityId type : String) (count : Nat) : Db Key :=
  db.insert (countKey enc direction entityId type) (p.uint.encode count)

def addTag (t : TagRecord) : Db Key :=
  let createdAt := keyTime t.createdAt
  (db.insert (tagKey enc t.tag createdAt t.entityId t.author) []).insert
    (tagRefKey enc t.tag t.entityId t.author) (p.uint.encode createdAt)

def removeTag (tag entityId author : String) : Db Key :=
  let refKey := tagRefKey enc tag entityId author
  match db[refKey]?.bind p.uint.read with
  | some createdAt => (db.erase (tagKey enc tag createdAt entityId author)).erase refKey
  | none => db.erase refKey

/-- The entries whose tuples start with some members. -/
def stream (tag : Nat) (parts : List Member) : List (Key × Bytes) :=
  (db.filter fun key _ => enc.inRange tag parts key).toList

def edges (entityId : String) (direction : Direction) (type : Option String) (reverse : Bool)
    : List (EdgeRecord Number) :=
  let parts := match required type with
    | some type => idMembers entityId ++ [.string type]
    | none => idMembers entityId
  let found := if direction = .incoming then
      (stream enc db 0x11 parts).filterMap fun (key, _) =>
        match enc.decode key with
        | [target, target', target'', .string type, .uint createdAt, source, source', source''] =>
            edgeAt enc p float64 db (idOf [source, source', source'']) type createdAt
              (idOf [target, target', target''])
        | _ => none
    else
      (stream enc db 0x10 parts).filterMap fun (key, bytes) =>
        match enc.decode key with
        | [source, source', source'', .string type, .uint createdAt, target, target', target''] =>
            edgeRecord p float64 (idOf [source, source', source'']) type createdAt
              (idOf [target, target', target'']) bytes
        | _ => none
  if reverse then found.reverse else found

/-- The type that is asked for, if one is, as members of a tuple. -/
def wanted (type : Option String) : List Member := (required type).toList.map .string

theorem parts_wanted (entityId : String) (type : Option String)
    : (match required type with
        | some type => idMembers entityId ++ [.string type]
        | none => idMembers entityId) = idMembers entityId ++ wanted type := by
  cases is : required type <;> simp [wanted, is]

def tagged (tag : Option String) : List TagRecord :=
  let parts := match tag with
    | some tag => [.string tag]
    | none => []
  (stream enc db 0x15 parts).filterMap fun (key, _) =>
    match enc.decode key with
    | [.string tag, .uint createdAt, id, id', id'', .buffer key, .string raw] =>
        some ⟨idOf [id, id', id''], tag, authorFromParts (key, raw), createdAt⟩
    | _ => none

def hasTag (entityId tag : String) : Bool :=
  stream enc db 0x16 ([.string tag] ++ idMembers entityId) ≠ []

end Layout2

end Layouts

end Hypergraph.Engine
