import Hypergraph.Lib.CompactEncoding
import Hypergraph.Engine.Governance

/-! The first engine's events as bytes (`src/encodings/event.js`): what is written of each type of
event, what is read of it, and which events come back.
-/

namespace Hypergraph.Engine

open Wire

namespace Events

-- A relation's value is a JavaScript number.
variable {Number : Type}

-- Events

/-- What is kept of encrypted content. -/
structure Encrypted where
  scope : String
  epoch : Nat
  nonce : String

/-- The scope an invite asks for. -/
structure ScopeRequest where
  scope : String
  scopeBase : String
  roleBase : String

inductive TagOp
  | add
  | remove

inductive WriterOp
  | addWriter
  | rolesAddWriter
  | rolesRemoveWriter

/-- An event's fields, by its type; `none`: there is no such field, or `null` in it. A signature is
hex.
-/
inductive Body (Number : Type)
  | entityCreate (id entityType author : String)
  | entityTombstone (id author : String)
  | contentAppend (entityId contentType body : String) (encrypted : Option Encrypted)
  | relationCreate (source target relationType author : String) (signature : Option String)
      (value : Option Number) (data : Option String)
  | relationDelete (source target relationType author : String) (createdAt : Nat)
      (signature : Option String)
  | tag (op : TagOp) (entityId tag author : String) (signature : Option String)
  | identityUpdate (author username : String) (bio : Option String)
  | writer (op : WriterOp) (key : String) (author signature : Option String)
  | moderationAction (version : Nat) (action target : String) (reason context : Option String)
      (author : String) (signature : Option String)
  | contextInit (version : Nat) (rules owner : Option String) (layout : Option Nat)
  | contextWriter (key : String) (member : Option String) (author : String)
      (signature : Option String)
  | contextRole (member : String) (role : Option String) (author : String)
      (signature : Option String)
  | contextUpgrade (version : Nat) (owner : String)
  | contextInvite (inviteKey : String) (role : Option String) (uses : Nat) (author : String)
      (signature : Option String) (request : Option ScopeRequest)
  | contextRedeem (inviteKey member key : String) (signature memberSignature : Option String)
      (encryptionKey : Option String)
  | message (text username author : String)

structure Event (Number : Type) where
  timestamp : Option Nat
  body : Body Number

/-- `EVENT_TYPES`. -/
def code : Body Number → Nat
  | .entityCreate .. => 1
  | .entityTombstone .. => 2
  | .contentAppend .. => 3
  | .relationCreate .. => 4
  | .relationDelete .. => 5
  | .tag .add .. => 6
  | .tag .remove .. => 7
  | .identityUpdate .. => 8
  | .writer .addWriter .. => 9
  | .writer .rolesAddWriter .. => 10
  | .moderationAction .. => 11
  | .message .. => 12
  | .writer .rolesRemoveWriter .. => 13
  | .contextInit .. => 14
  | .contextWriter .. => 15
  | .contextRole .. => 16
  | .contextUpgrade .. => 17
  | .contextInvite .. => 18
  | .contextRedeem .. => 19

-- Writing

-- The encodings of the `compact-encoding` package.
variable (p : Primitives) (float64 : Codec Number)

/-- `text || ''`. -/
def orEmpty (text : Option String) : Bytes := p.string.encode (text.getD "")

/-- `signature ? b4a.from(signature, 'hex') : b4a.alloc(0)`. -/
def signed (signature : Option String) : Bytes :=
  p.buffer.encode (some (match required signature with
    | some text => fromHex text
    | none => []))

/-- A time that is none, or zero, isn't written where it may be left out. -/
def given (timestamp : Option Nat) : Option Nat := timestamp.filter (· ≠ 0)

/-- What each event of a type has written. -/
def fixed (timestamp : Option Nat) : Body Number → Bytes
  | .entityCreate id entityType author =>
      p.string.encode id ++ p.string.encode entityType ++ p.string.encode author
  | .entityTombstone id author => p.string.encode id ++ p.string.encode author
  | .contentAppend entityId contentType body _ =>
      p.string.encode entityId ++ p.string.encode contentType ++ p.string.encode body
  | .relationCreate source target relationType author signature _ _ =>
      p.string.encode source ++ p.string.encode target ++ p.string.encode relationType
        ++ p.string.encode author ++ signed p signature
  | .relationDelete source target relationType author createdAt signature =>
      p.string.encode source ++ p.string.encode target ++ p.string.encode relationType
        ++ p.string.encode author ++ p.uint.encode createdAt ++ signed p signature
  | .tag _ entityId tag author signature =>
      p.string.encode entityId ++ p.string.encode tag ++ p.string.encode author
        ++ signed p signature
  | .identityUpdate author username bio =>
      p.string.encode author ++ p.string.encode username ++ orEmpty p bio
  | .writer _ key _ _ => p.string.encode key
  | .moderationAction version action target reason context author signature =>
      p.uint.encode (if version = 0 then 1 else version) ++ p.string.encode action
        ++ p.string.encode target ++ orEmpty p reason ++ orEmpty p context ++ p.string.encode author
        ++ p.uint.encode (timestamp.getD 0) ++ signed p signature
  | .contextInit version rules _ _ => p.uint.encode version ++ orEmpty p rules
  | .contextWriter key member author signature =>
      p.string.encode key ++ orEmpty p member ++ p.string.encode author ++ signed p signature
  | .contextRole member role author signature =>
      p.string.encode member ++ orEmpty p role ++ p.string.encode author ++ signed p signature
  | .contextUpgrade version owner => p.uint.encode version ++ p.string.encode owner
  | .contextInvite inviteKey role uses author signature _ =>
      p.string.encode inviteKey ++ orEmpty p role ++ p.uint.encode uses ++ p.string.encode author
        ++ signed p signature
  | .contextRedeem inviteKey member key signature memberSignature _ =>
      p.string.encode inviteKey ++ p.string.encode member ++ p.string.encode key
        ++ signed p signature ++ signed p memberSignature
  | .message text username author =>
      p.string.encode text ++ p.string.encode username ++ p.string.encode author

/-- The optional fields after these, in the order in which they came to be written. -/
def trailing (timestamp : Option Nat) : Body Number → List Bytes
  | .contentAppend _ _ _ encrypted =>
      [match encrypted with
        | some ⟨scope, epoch, nonce⟩ =>
            p.uint.encode 1 ++ p.string.encode scope ++ p.uint.encode epoch ++ p.string.encode nonce
        | none => p.uint.encode 0]
  | .relationCreate _ _ _ _ _ value data =>
      [match value with
        | some value => p.uint.encode 1 ++ float64.encode value
        | none => p.uint.encode 0,
        match data with
        | some data => p.uint.encode 1 ++ p.string.encode data
        | none => []]
  | .writer _ _ author signature =>
      [match required author with
        | some author => p.string.encode author
        | none => [],
        match given timestamp with
        | some timestamp => p.uint.encode timestamp
        | none => [],
        match required signature with
        | some signature => p.buffer.encode (some (fromHex signature))
        | none => []]
  | .contextInit _ _ owner layout =>
      [if owner.isSome ∨ layout.isSome then orEmpty p owner else [],
        match layout with
        | some layout => p.uint.encode layout
        | none => []]
  | .contextInvite _ _ _ _ _ request =>
      [match request with
        | some ⟨scope, scopeBase, roleBase⟩ =>
            if scope = "" then []
            else p.string.encode scope ++ p.string.encode scopeBase ++ p.string.encode roleBase
        | none => []]
  | .contextRedeem _ _ _ _ _ encryptionKey =>
      [match required encryptionKey with
        | some encryptionKey => p.string.encode encryptionKey
        | none => []]
  | _ => []

/-- An event as written when there were only so many of the optional fields. -/
def encodeBefore (fields : Nat) (event : Event Number) : Bytes :=
  p.uint.encode (code event.body) ++ p.uint.encode (event.timestamp.getD 0)
    ++ fixed p event.timestamp event.body
    ++ ((trailing p float64 event.timestamp event.body).take fields).flatten

def encodeEvent (event : Event Number) : Bytes :=
  p.uint.encode (code event.body) ++ p.uint.encode (event.timestamp.getD 0)
    ++ fixed p event.timestamp event.body ++ (trailing p float64 event.timestamp event.body).flatten

-- Reading

inductive Decoded (Number : Type)
  | event (event : Event Number)
  | unknown (timestamp : Nat)
  | decodeError

/-- A signature read: none of an empty buffer; of `null` there is no `length`, which throws. -/
def readSignature (bytes : Bytes) : Option (Option String × Bytes) := do
  let (sig, bytes) ← p.buffer.decode bytes
  let sig ← sig
  return (if sig.length > 0 then some (toHex sig) else none, bytes)

/-- The author, time and signature of a change of writers; what throws ends it. -/
def readWriter (timestamp : Nat) (bytes : Bytes) : Option String × Nat × Option String :=
  if bytes = [] then (none, timestamp, none)
  else
    match p.string.decode bytes with
    | none => (none, timestamp, none)
    | some (author, bytes) =>
        if bytes = [] then (some author, timestamp, none)
        else
          match p.uint.decode bytes with
          | none => (some author, timestamp, none)
          | some (timestamp, bytes) =>
              if bytes = [] then (some author, timestamp, none)
              else
                match readSignature p bytes with
                | none => (some author, timestamp, none)
                | some (signature, _) => (some author, timestamp, signature)

def readTag (op : TagOp) (timestamp : Nat) (bytes : Bytes) : Option (Decoded Number) := do
  let (entityId, bytes) ← p.string.decode bytes
  let (tag, bytes) ← p.string.decode bytes
  let (author, bytes) ← p.string.decode bytes
  let (signature, _) ← readSignature p bytes
  return .event ⟨some timestamp, .tag op entityId tag author signature⟩

def readWriterChange (op : WriterOp) (timestamp : Nat) (bytes : Bytes)
    : Option (Decoded Number) := do
  let (key, bytes) ← p.string.decode bytes
  let (author, timestamp, signature) := readWriter p timestamp bytes
  return .event ⟨some timestamp, .writer op key author signature⟩

def readContent (timestamp : Nat) (bytes : Bytes) : Option (Decoded Number) := do
  let (entityId, bytes) ← p.string.decode bytes
  let (contentType, bytes) ← p.string.decode bytes
  let (body, bytes) ← p.string.decode bytes
  let (flag, bytes) ← if bytes = [] then some (0, bytes) else p.uint.decode bytes
  if flag = 1 then
    let (scope, bytes) ← p.string.decode bytes
    let (epoch, bytes) ← p.uint.decode bytes
    let (nonce, _) ← p.string.decode bytes
    return .event ⟨some timestamp,
      .contentAppend entityId contentType body (some ⟨scope, epoch, nonce⟩)⟩
  else
    return .event ⟨some timestamp, .contentAppend entityId contentType body none⟩

def readRelation (timestamp : Nat) (bytes : Bytes) : Option (Decoded Number) := do
  let (source, bytes) ← p.string.decode bytes
  let (target, bytes) ← p.string.decode bytes
  let (relationType, bytes) ← p.string.decode bytes
  let (author, bytes) ← p.string.decode bytes
  let (signature, bytes) ← readSignature p bytes
  let (flag, bytes) ← if bytes = [] then some (0, bytes) else p.uint.decode bytes
  let (value, bytes) ←
    if flag = 1 then (float64.decode bytes).map fun (value, bytes) => (some value, bytes)
    else some (none, bytes)
  let (flag, bytes) ← if bytes = [] then some (0, bytes) else p.uint.decode bytes
  let (data, _) ←
    if flag = 1 then (p.string.decode bytes).map fun (data, bytes) => (some data, bytes)
    else some (none, bytes)
  return .event ⟨some timestamp,
    .relationCreate source target relationType author signature value data⟩

def readRelationDelete (timestamp : Nat) (bytes : Bytes) : Option (Decoded Number) := do
  let (source, bytes) ← p.string.decode bytes
  let (target, bytes) ← p.string.decode bytes
  let (relationType, bytes) ← p.string.decode bytes
  let (author, bytes) ← p.string.decode bytes
  let (createdAt, bytes) ← p.uint.decode bytes
  let (signature, _) ← readSignature p bytes
  return .event ⟨some timestamp,
    .relationDelete source target relationType author createdAt signature⟩

def readModeration (bytes : Bytes) : Option (Decoded Number) := do
  let (version, bytes) ← p.uint.decode bytes
  let (action, bytes) ← p.string.decode bytes
  let (target, bytes) ← p.string.decode bytes
  let (reason, bytes) ← p.string.decode bytes
  let (context, bytes) ← p.string.decode bytes
  let (author, bytes) ← p.string.decode bytes
  let (timestamp, bytes) ← p.uint.decode bytes
  let (signature, _) ← readSignature p bytes
  return .event ⟨some timestamp, .moderationAction version action target (required (some reason))
    (required (some context)) author signature⟩

def readInit (timestamp : Nat) (bytes : Bytes) : Option (Decoded Number) := do
  let (version, bytes) ← p.uint.decode bytes
  let (rules, bytes) ← p.string.decode bytes
  let (owner, bytes) ←
    if bytes = [] then some (none, bytes)
    else (p.string.decode bytes).map fun (owner, bytes) => (required (some owner), bytes)
  let (layout, _) ←
    if bytes = [] then some (none, bytes)
    else (p.uint.decode bytes).map fun (layout, bytes) => (some layout, bytes)
  return .event ⟨some timestamp, .contextInit version (some rules) owner layout⟩

def readContextWriter (timestamp : Nat) (bytes : Bytes) : Option (Decoded Number) := do
  let (key, bytes) ← p.string.decode bytes
  let (member, bytes) ← p.string.decode bytes
  let (author, bytes) ← p.string.decode bytes
  let (signature, _) ← readSignature p bytes
  return .event ⟨some timestamp, .contextWriter key (some member) author signature⟩

def readContextRole (timestamp : Nat) (bytes : Bytes) : Option (Decoded Number) := do
  let (member, bytes) ← p.string.decode bytes
  let (role, bytes) ← p.string.decode bytes
  let (author, bytes) ← p.string.decode bytes
  let (signature, _) ← readSignature p bytes
  return .event ⟨some timestamp, .contextRole member (some role) author signature⟩

def readInvite (timestamp : Nat) (bytes : Bytes) : Option (Decoded Number) := do
  let (inviteKey, bytes) ← p.string.decode bytes
  let (role, bytes) ← p.string.decode bytes
  let (uses, bytes) ← p.uint.decode bytes
  let (author, bytes) ← p.string.decode bytes
  let (signature, bytes) ← readSignature p bytes
  if bytes = [] then
    return .event ⟨some timestamp, .contextInvite inviteKey (some role) uses author signature none⟩
  else
    let (scope, bytes) ← p.string.decode bytes
    let (scopeBase, bytes) ← p.string.decode bytes
    let (roleBase, _) ← p.string.decode bytes
    return .event ⟨some timestamp, .contextInvite inviteKey (some role) uses author signature
      (some ⟨scope, scopeBase, roleBase⟩)⟩

def readRedeem (timestamp : Nat) (bytes : Bytes) : Option (Decoded Number) := do
  let (inviteKey, bytes) ← p.string.decode bytes
  let (member, bytes) ← p.string.decode bytes
  let (key, bytes) ← p.string.decode bytes
  let (signature, bytes) ← readSignature p bytes
  let (memberSignature, bytes) ← readSignature p bytes
  let (encryptionKey, _) ←
    if bytes = [] then some (none, bytes)
    else (p.string.decode bytes).map fun (key, bytes) => (some key, bytes)
  return .event ⟨some timestamp,
    .contextRedeem inviteKey member key signature memberSignature encryptionKey⟩

/-- The fields of a type. -/
def decodeBody (typeCode timestamp : Nat) (bytes : Bytes) : Option (Decoded Number) :=
  match typeCode with
  | 1 => do
      let (id, bytes) ← p.string.decode bytes
      let (entityType, bytes) ← p.string.decode bytes
      let (author, _) ← p.string.decode bytes
      return .event ⟨some timestamp, .entityCreate id entityType author⟩
  | 2 => do
      let (id, bytes) ← p.string.decode bytes
      let (author, _) ← p.string.decode bytes
      return .event ⟨some timestamp, .entityTombstone id author⟩
  | 3 => readContent p timestamp bytes
  | 4 => readRelation p float64 timestamp bytes
  | 5 => readRelationDelete p timestamp bytes
  | 6 => readTag p .add timestamp bytes
  | 7 => readTag p .remove timestamp bytes
  | 8 => do
      let (author, bytes) ← p.string.decode bytes
      let (username, bytes) ← p.string.decode bytes
      let (bio, _) ← p.string.decode bytes
      return .event ⟨some timestamp, .identityUpdate author username (required (some bio))⟩
  | 9 => readWriterChange p .addWriter timestamp bytes
  | 10 => readWriterChange p .rolesAddWriter timestamp bytes
  | 11 => readModeration p bytes
  | 12 => do
      let (text, bytes) ← p.string.decode bytes
      let (username, bytes) ← p.string.decode bytes
      let (author, _) ← p.string.decode bytes
      return .event ⟨some timestamp, .message text username author⟩
  | 13 => readWriterChange p .rolesRemoveWriter timestamp bytes
  | 14 => readInit p timestamp bytes
  | 15 => readContextWriter p timestamp bytes
  | 16 => readContextRole p timestamp bytes
  | 17 => do
      let (version, bytes) ← p.uint.decode bytes
      let (owner, _) ← p.string.decode bytes
      return .event ⟨some timestamp, .contextUpgrade version owner⟩
  | 18 => readInvite p timestamp bytes
  | 19 => readRedeem p timestamp bytes
  | _ => some (.unknown timestamp)

def decode (bytes : Bytes) : Option (Decoded Number) := do
  let (typeCode, bytes) ← p.uint.decode bytes
  let (timestamp, bytes) ← p.uint.decode bytes
  decodeBody p float64 typeCode timestamp bytes

def decodeEvent (bytes : Bytes) : Decoded Number :=
  (decode p float64 bytes).getD .decodeError

-- Which events are written, and which come back

/-- An optional text that is empty is as if it were absent, and so is a time of zero. -/
def Event.normal (event : Event Number) : Event Number where
  timestamp := some (event.timestamp.getD 0)
  body :=
    match event.body with
    | .relationCreate source target relationType author signature value data =>
        .relationCreate source target relationType author (required signature) value data
    | .relationDelete source target relationType author createdAt signature =>
        .relationDelete source target relationType author createdAt (required signature)
    | .tag op entityId tag author signature => .tag op entityId tag author (required signature)
    | .identityUpdate author username bio => .identityUpdate author username (required bio)
    | .writer op key author signature => .writer op key (required author) (required signature)
    | .moderationAction version action target reason context author signature =>
        .moderationAction version action target (required reason) (required context) author
          (required signature)
    | .contextInit version rules owner layout =>
        .contextInit version (required rules) (required owner) layout
    | .contextWriter key member author signature =>
        .contextWriter key (required member) author (required signature)
    | .contextRole member role author signature =>
        .contextRole member (required role) author (required signature)
    | .contextInvite inviteKey role uses author signature request =>
        .contextInvite inviteKey (required role) uses author (required signature) request
    | .contextRedeem inviteKey member key signature memberSignature encryptionKey =>
        .contextRedeem inviteKey member key (required signature) (required memberSignature)
          (required encryptionKey)
    | body => body

/-- Bytes are read as an event, up to what is empty. -/
def ComesBack (bytes : Bytes) (event : Event Number) : Prop :=
  ∃ read, decodeEvent p float64 bytes = .event read ∧ read.normal = event.normal

/-- The texts of an event. -/
def texts : Body Number → List String
  | .entityCreate id entityType author => [id, entityType, author]
  | .entityTombstone id author => [id, author]
  | .contentAppend entityId contentType body encrypted =>
      [entityId, contentType, body]
        ++ encrypted.toList.flatMap fun encrypted => [encrypted.scope, encrypted.nonce]
  | .relationCreate source target relationType author _ _ data =>
      [source, target, relationType, author] ++ data.toList
  | .relationDelete source target relationType author _ _ => [source, target, relationType, author]
  | .tag _ entityId tag author _ => [entityId, tag, author]
  | .identityUpdate author username bio => [author, username] ++ bio.toList
  | .writer _ key author _ => [key] ++ author.toList
  | .moderationAction _ action target reason context author _ =>
      [action, target, author] ++ reason.toList ++ context.toList
  | .contextInit _ rules owner _ => rules.toList ++ owner.toList
  | .contextWriter key member author _ => [key, author] ++ member.toList
  | .contextRole member role author _ => [member, author] ++ role.toList
  | .contextUpgrade _ owner => [owner]
  | .contextInvite inviteKey role _ author _ request =>
      [inviteKey, author] ++ role.toList
        ++ request.toList.flatMap fun asked => [asked.scope, asked.scopeBase, asked.roleBase]
  | .contextRedeem inviteKey member key _ _ encryptionKey =>
      [inviteKey, member, key] ++ encryptionKey.toList
  | .message text username author => [text, username, author]

/-- The whole numbers of an event. -/
def numbers (event : Event Number) : List Nat :=
  event.timestamp.toList ++ match event.body with
  | .contentAppend _ _ _ encrypted => encrypted.toList.map Encrypted.epoch
  | .relationDelete _ _ _ _ createdAt _ => [createdAt]
  | .moderationAction version .. => [version]
  | .contextInit version _ _ layout => version :: layout.toList
  | .contextUpgrade version _ => [version]
  | .contextInvite _ _ uses .. => [uses]
  | _ => []

/-- The signatures an event has a place for. -/
def signatures : Body Number → List (Option String)
  | .relationCreate _ _ _ _ signature .. => [signature]
  | .relationDelete _ _ _ _ _ signature => [signature]
  | .tag _ _ _ _ signature => [signature]
  | .moderationAction _ _ _ _ _ _ signature => [signature]
  | .contextWriter _ _ _ signature => [signature]
  | .contextRole _ _ _ signature => [signature]
  | .contextInvite _ _ _ _ signature _ => [signature]
  | .contextRedeem _ _ _ signature memberSignature _ => [signature, memberSignature]
  | _ => []

/-- A signature is none, or bytes in hex. -/
def IsHex (signature : Option String) : Prop :=
  ∀ text, required signature = some text → ∃ bytes : Bytes,
    bytes ≠ [] ∧ bytes.length < 2 ^ 53 ∧ text = toHex bytes

/-- An event as the engine writes them: what each primitive takes; an action has a version and a
time, and a scope that is asked for has a name.
-/
structure Written (event : Event Number) : Prop where
  texts : ∀ text ∈ texts event.body, p.string.Fits text
  numbers : ∀ number ∈ numbers event, p.uint.Fits number
  signatures : ∀ signature ∈ signatures event.body, IsHex signature
  value : ∀ {source target relationType author signature value data},
    event.body = .relationCreate source target relationType author signature (some value) data →
    float64.Fits value
  writer : ∀ {op key author signature}, event.body = .writer op key author signature →
    IsHex signature
  action : ∀ {version action target reason context author signature},
    event.body = .moderationAction version action target reason context author signature →
    version ≠ 0 ∧ event.timestamp.isSome
  request : ∀ {inviteKey role uses author signature request},
    event.body = .contextInvite inviteKey role uses author signature (some request) →
    request.scope ≠ ""

/-- A change of writers that has a signature has an author and a time. -/
def complete (event : Event Number) : Bool :=
  match event.body with
  | .writer _ _ author signature =>
      (required signature).isSome →
        (required author).isSome ∧ (given event.timestamp).isSome
  | _ => true

/-- The optional fields past the first so many are absent. -/
def AbsentFrom (fields : Nat) : Body Number → Prop
  | .contentAppend _ _ _ encrypted => fields = 0 → encrypted = none
  | .relationCreate _ _ _ _ _ value data => (fields = 0 → value = none) ∧ (fields ≤ 1 → data = none)
  | .writer _ _ author signature =>
      (fields = 0 → required author = none) ∧ (fields ≤ 2 → required signature = none)
  | .contextInit _ _ owner layout =>
      (fields = 0 → required owner = none) ∧ (fields ≤ 1 → layout = none)
  | .contextInvite _ _ _ _ _ request => fields = 0 → request = none
  | .contextRedeem _ _ _ _ _ encryptionKey => fields = 0 → required encryptionKey = none
  | _ => True

/-- What is documented of these encodings, besides that they read back what they write, empty buffers
too: a buffer and a text are a length and so many bytes.
-/
structure Documented (p : Primitives) : Prop where
  uint : ∀ number, number < 2 ^ 53 → p.uint.Fits number
  uint_wide : ∀ number, p.uint.encode number ≠ []
  string_wide : ∀ text, p.string.encode text ≠ []
  empty : p.string.Fits ""
  string : ∀ bytes text rest, p.string.decode bytes = some (text, rest) →
    ∃ length after, p.uint.decode bytes = some (length, after) ∧ length ≤ after.length
      ∧ (text = "" → length = 0)
  buffer : ∀ bytes, bytes.length < 2 ^ 53 →
    p.buffer.encode (some bytes) = p.uint.encode bytes.length ++ bytes
  buffer_fits : ∀ bytes, bytes.length < 2 ^ 53 → p.buffer.Fits (some bytes)

end Events

end Hypergraph.Engine
