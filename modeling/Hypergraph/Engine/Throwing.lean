import Hypergraph.Engine.Contexts

/-! What applying a node comes to where it may throw, for contexts of every version
(`src/context-base.js`, `#applyNodes`): calls of the host with what is no key, reads of the index, and
the app's rules. `none`: it throws.
-/

namespace Hypergraph.Engine

open Wire Js Layouts Events

variable {W Db Number : Type}

-- Layouts

namespace Layouts

/-- A layout, and which of its reads throw. -/
structure ThrowingLayout (Db Number : Type) extends IndexLayout Db Number where
  activeThrows : Db → (source type target : String) → Bool
  countThrows : Db → Direction → (entityId type : String) → Bool
  writeThrows : Db → Write Number → Bool

def throwing1 (json : Number → Option Number) : ThrowingLayout (Layout1.Db Number) Number where
  toIndexLayout := layout1 json
  activeThrows _ _ _ _ := false
  countThrows _ _ _ _ := false
  writeThrows db
    -- `db.del(ref.value.ref)`, where that is to be a reference
    | .removeTag tag entityId author =>
        db[Layout1.tagRefKey tag entityId author]?.any fun
          | .ref _ => false
          | _ => true
    | _ => false

def throwing2 {Key : Type} [Ord Key] [Std.TransOrd Key] (enc : IndexEncoder Key) (p : Primitives)
    (float64 : Codec Number) : ThrowingLayout (Layout2.Db Key) Number where
  toIndexLayout := layout2 enc p float64
  activeThrows db source type target :=
    db[Layout2.activeKey enc source type target]?.any fun ref =>
      match p.uint.read ref with
      | none => true
      | some createdAt =>
          db[Layout2.edgeKey enc source type createdAt target]?.any fun bytes =>
            ((edgeValue p float64).read bytes).isNone
  countThrows db direction entityId type :=
    db[Layout2.countKey enc direction entityId type]?.any fun bytes => (p.uint.read bytes).isNone
  writeThrows db
    | .removeEdge source type createdAt target =>
        db[Layout2.edgeKey enc source type createdAt target]?.any fun bytes =>
          ((edgeValue p float64).read bytes).isNone
    | .removeTag tag entityId author =>
        db[Layout2.tagRefKey enc tag entityId author]?.any fun ref => (p.uint.read ref).isNone
    | _ => false

end Layouts

/-- A peer that may be at fault itself: its rules may throw an error that isn't caught
(`safety-catch` throws programming errors again).
-/
structure ThrowingPeer (W Number : Type) extends ContextPeer W Number where
  /-- `rules.id`, or `''`. -/
  rulesId : String
  /-- Does the rules' `validate` throw a `TypeError` or its like? -/
  mistaken : Event Number → Reader Number → Bool
  /-- The context's key. -/
  bootstrap : Key
  /-- The indexers as Autobase's system has them. -/
  indexers : W → List { key : Key // key.length = 32 }

namespace Layouts.Applying

variable (peer : ThrowingPeer W Number) (layout : ThrowingLayout Db Number) (s : Applying Db)

def bumpCount? (direction : Direction) (entityId type : String) (delta : Int)
    : Option (Applying Db) :=
  if (s.counts.get? ⟨direction, entityId, type⟩).isNone
      ∧ layout.countThrows s.view direction entityId type then none
  else some (s.bumpCount layout.toIndexLayout direction entityId type delta)

def write? (write : Write Number) : Option (Applying Db) :=
  if layout.writeThrows s.view write then none else some (s.write layout.toIndexLayout write)

def applyRelation? (e : Edge Number) : Option (Applying Db) :=
  if layout.activeThrows s.view e.source e.type e.target then none
  else if ((layout.answers s.view).activeEdge e.source e.type e.target).any (!·.deleted) then some s
  else do
    let s ← s.write? layout (.addEdge e)
    let s ← s.bumpCount? layout .incoming e.target e.type 1
    s.bumpCount? layout .outgoing e.source e.type 1

def applyRelationDelete? (source type : String) (createdAt : Nat) (target : String)
    : Option (Applying Db) := do
  let s ← s.write? layout (.removeEdge source type createdAt target)
  let s ← s.bumpCount? layout .incoming target type (-1)
  s.bumpCount? layout .outgoing source type (-1)

def passesRules? (event : Event Number) : Option Bool :=
  if peer.rules.isSome ∧ peer.mistaken event (s.reader layout.toIndexLayout) then none
  else some (s.passesRules peer.toContextPeer layout.toIndexLayout event)

def applyData? (event : Event Number) : Option (Applying Db) :=
  let timestamp := event.timestamp.getD 0
  match event.body with
  | .relationCreate source target relationType author signature value data =>
      if source = "" ∨ target = "" ∨ relationType = "" then some s
      else if ¬ peer.signs (.relation true source target relationType value data peer.contextKey author
          timestamp none) author signature then some s
      else if authorFromEntityId source ≠ some author then some s
      else if data.any fun data => maxRelationDataBytes < data.utf8ByteSize then some s
      else do
        let passes ← s.passesRules? peer layout event
        if passes then
          s.applyRelation? layout ⟨source, relationType, timestamp, target, author, value, data⟩
        else some s
  | .relationDelete source target relationType author createdAt signature =>
      if source = "" ∨ target = "" ∨ relationType = "" then some s
      else if ¬ peer.signs (.relation false source target relationType none none peer.contextKey author
          timestamp (given (some createdAt))) author signature then some s
      else do
        let passes ← s.passesRules? peer layout event
        if passes then s.applyRelationDelete? layout source relationType createdAt target else some s
  | .tag op entityId tag author signature =>
      if entityId = "" ∨ tag = "" then some s
      else if ¬ peer.signs (.tag op entityId tag peer.contextKey author timestamp) author signature
        then some s
      else do
        let passes ← s.passesRules? peer layout event
        if passes then
          match op with
          | .add => s.write? layout (.addTag ⟨entityId, tag, author, timestamp⟩)
          | .remove => s.write? layout (.removeTag tag entityId author)
        else some s
  | _ => some s

end Layouts.Applying

-- Governance

namespace Governance

variable (peer : Peer W) (s : Governance W)

/-- `host.addWriter` throws unless it is given 32 bytes. -/
def addWriter? (key : Key) (indexer : Bool) : Option (Governance W) :=
  if key.length = 32 then some (s.addWriter peer key indexer) else none

def applyContextWriter? (key member author : String) (timestamp : Nat) (signature : Option String)
    : Option (Governance W) :=
  if key = "" then some s
  else if ¬ verifies peer (.writer key member peer.contextKey author timestamp) author signature then
    some s
  else if peer.closed ∧ ¬ canIn s.roles author "context.write" then some s
  else
    let linked := if member ≠ "" then s.linkWriter key member else s
    linked.addWriter? peer (fromHex key)
      (if member ≠ "" then canIn s.roles member "context.index" else false)

def applyContextRole? (member role author : String) (timestamp : Nat) (signature : Option String)
    : Option (Governance W) :=
  if member = "" then some s
  else if ¬ verifies peer (.role member role peer.contextKey author timestamp) author signature then
    some s
  else if ¬ mayAssign s.roles author member role then some s
  else
    match applyRoleEvent s.roles (roleEvent member role) with
    | none => some s
    | some next =>
        let before := canIn s.roles member "context.index"
        let after := next.can member "context.index"
        let writers := if before = after then [] else s.writersOf member
        if before ∧ ¬ after ∧ ¬ writers.all (peer.autobase.removeable s.writers) then some s
        else writers.foldlM (fun s key => s.addWriter? peer key after) { s with roles := some next }

/-- As `given`; `none`: the role's event throws. -/
def given? (table : Registry) (member role : String) : Option Registry :=
  if (table.current member).isSome then some table
  else applyRoleEvent (some table) (.setRole (some member) (some role))

/-- `none`: there is no table, its event throws, or the host does. -/
def applyContextRedeem? (inviteKey member key : String) (timestamp : Nat)
    (signature memberSignature encryptionKey : Option String) (from_ : Key) (optimistic : Bool)
    : Option (Governance W) :=
  if key ≠ toHex from_ then some s
  else if member = "" then some s
  else
    match s.invites[inviteKey]? with
    | none => some s
    | some inv =>
        if inv.revoked ∨ inv.uses ≤ inv.used then some s
        else if ¬ redeems peer inviteKey member key timestamp signature memberSignature encryptionKey
          then some s
        else
          match s.roles.bind (given? · member inv.role) with
          | none => none
          | some _ =>
              -- `ackWriter` and `addWriter`
              if from_.length = 32 then
                some (s.applyContextRedeem peer inviteKey member key timestamp signature memberSignature
                  encryptionKey from_ optimistic)
              else none

/-- `#verifyWriterChangeSignature`. -/
def changeSigned (op key : String) (author : Option String) (timestamp : Nat)
    (signature : Option String) : Bool :=
  key ≠ "" && author.any fun author =>
    verifies peer (.change op key author timestamp) author signature

end Governance

-- The view

/-- A context's record (`meta:context`). -/
structure ContextRecord where
  version : Nat
  rules : String
  owner : Option String := none
  /-- No layout is the first. -/
  layout : Option Nat := none

/-- `record.layout || 1`. -/
def ContextRecord.layoutId (record : ContextRecord) : Nat :=
  match record.layout with
  | none | some 0 => 1
  | some layout => layout

/-- The view of a context of any version; which of the two indexes there is, its record says. -/
structure ContextView (W Key Number : Type) [Ord Key] where
  record : Option ContextRecord := none
  governance : Governance W
  first : Applying (Layout1.Db Number) := { view := ∅ }
  second : Applying (Layout2.Db Key) := { view := ∅ }
  moderation : Table String Moderated := ∅
  messages : Table String ContextMessage := ∅
  changes : Table String QueuedChange := ∅
  reports : Table String QueuedReport := ∅
  /-- What the host was interrupted for. -/
  interrupted : Option String := none
  /-- Apply returned. -/
  stopped : Bool := false

/-- A node, and what a peer has from elsewhere as it applies it. -/
structure Given extends ContextNode where
  /-- Autobase's writers have keys. -/
  key : from_.length = 32
  /-- A chunk is full, and written before. -/
  flush : Bool
  now : Nat
  /-- What the RoleBase answers for an author's action; `none`: it isn't there yet. -/
  allowed : (author action : String) → Option Bool

/-- What happens to a view: a node is applied, or what waited is looked at again. -/
inductive Happening
  | node (given : Given)
  | drain (allowed : (author action : String) → Option Bool)

namespace ContextView

variable {Tuple : Type} [Ord Tuple] [Std.TransOrd Tuple] (peer : ThrowingPeer W Number) (p : Primitives)
  (float64 : Codec Number) (enc : IndexEncoder Tuple) (json : Number → Option Number)
  (s : ContextView W Tuple Number)

/-- `#record`: contexts without one are of version 1. -/
def recordOf : ContextRecord := s.record.getD { version := 1, rules := "" }

/-- `#refusal`. -/
def refusal (record : ContextRecord) : Option String :=
  if record.version ∉ [1, 2, 3] then some s!"unsupported context version {record.version}"
  else if record.layoutId ∉ [1, 2] then
    some s!"unsupported index layout {record.layoutId}"
  else if record.rules ≠ peer.rulesId then
    some ("Context rules mismatch: context uses \"" ++ record.rules ++ "\", this peer provides \""
      ++ peer.rulesId ++ "\"")
  else none

/-- `#startRoleTable`. -/
def startRoleTable (owner : String) (bootstrapKey : Key) : ContextView W Tuple Number :=
  { s with
    governance :=
      { s.governance with roles := some (defaultRoleTable owner) }.linkWriter (toHex bootstrapKey)
        owner }

def applyContextInit (version : Nat) (rules owner : Option String) (layout : Option Nat) (from_ : Key)
    : ContextView W Tuple Number :=
  if from_ ≠ peer.bootstrap then s
  else if s.record.isSome then s
  else
    let record : ContextRecord :=
      { version, rules := rules.getD "", owner := required owner, layout := layout.filter (· ≠ 1) }
    let s := { s with record := some record }
    match refusal peer record with
    | some reason => { s with interrupted := some reason }
    | none =>
        match record.owner with
        | some owner => if record.version = 3 then s.startRoleTable owner from_ else s
        | none => s

def applyContextUpgrade (version : Nat) (owner : String) (from_ : Key)
    : Option (ContextView W Tuple Number) :=
  if from_ ≠ peer.bootstrap then some s
  else if version ≠ 3 ∨ owner = "" then some s
  else
    let current := s.recordOf
    if current.version ≠ 1 ∧ current.version ≠ 2 then some s
    else do
      let s := { s with record := some { current with version := 3, owner := some owner } }
      let s := s.startRoleTable owner from_
      let indexers := (peer.indexers s.governance.writers).map Subtype.val
      let governance ← indexers.foldlM
        (fun governance key =>
          if key = from_ then some governance else governance.addWriter? peer.toPeer key false)
        s.governance
      return { s with governance }

/-- A change of writers in a context whose roles are in the RoleBase. -/
def applyChange (add : Bool) (key : String) (author : Option String) (timestamp : Nat)
    (signature : Option String) (allowed : (author action : String) → Option Bool)
    : Option (ContextView W Tuple Number) :=
  let op := if add then "roles/addWriter" else "roles/removeWriter"
  let change : Option (ContextView W Tuple Number) :=
    if add then do
      let governance ← s.governance.addWriter? peer.toPeer (fromHex key) (s.recordOf.version = 1)
      return { s with governance }
    else some { s with governance := s.governance.removeWriter peer.toPeer (fromHex key) }
  if ¬ peer.closed then change
  else if ¬ Governance.changeSigned peer.toPeer op key author timestamp signature then some s
  else
    match allowed (author.getD "") "context.write" with
    | none =>
        some { s with changes :=
          s.changes.insert s!"w:p:{op}:{key}:{timestamp}" ⟨add, key, author.getD ""⟩ }
    | some false => some s
    | some true => change

/-- A governance event, for a context that doesn't refuse it. -/
def govern (event : GovernanceEvent) (given : Given) : Option (ContextView W Tuple Number) :=
  let governed (governance : Option (Governance W)) : Option (ContextView W Tuple Number) :=
    governance.map fun governance => { s with governance }
  let third := s.recordOf.version = 3
  match event with
  | .contextRedeem inviteKey member key timestamp signature memberSignature encryptionKey =>
      if third then
        governed (s.governance.applyContextRedeem? peer.toPeer inviteKey member key timestamp signature
          memberSignature encryptionKey given.from_ given.optimistic)
      else some s
  | .contextInvite inviteKey role uses author timestamp signature asked =>
      if given.optimistic then some s
      else if third then
        governed (some (s.governance.applyContextInvite peer.toPeer inviteKey role uses author timestamp
          signature asked))
      else some s
  | .addWriter key =>
      if given.optimistic then some s
      else if peer.closed then some s
      else governed (s.governance.addWriter? peer.toPeer (fromHex key) (s.recordOf.version = 1))
  | .contextWriter key member author timestamp signature =>
      if given.optimistic then some s
      else if third then
        governed (s.governance.applyContextWriter? peer.toPeer key member author timestamp signature)
      else some s
  | .contextRole member role author timestamp signature =>
      if given.optimistic then some s
      else if third then
        governed (s.governance.applyContextRole? peer.toPeer member role author timestamp signature)
      else some s
  | .rolesAddWriter key author timestamp signature =>
      if given.optimistic then some s
      else if third then
        if ¬ s.governance.mayChange peer.toPeer "roles/addWriter" key author timestamp signature then
          some s
        else governed (s.governance.addWriter? peer.toPeer (fromHex key) false)
      else s.applyChange peer true key author timestamp signature given.allowed
  | .rolesRemoveWriter key author timestamp signature =>
      if given.optimistic then some s
      else if third then
        if ¬ s.governance.mayChange peer.toPeer "roles/removeWriter" key author timestamp signature then
          some s
        else governed (some (s.governance.removeWriter peer.toPeer (fromHex key)))
      else s.applyChange peer false key author timestamp signature given.allowed

/-- `#indexModerationEvent`. -/
def moderated (m : ModerationAction) (from_ : Key) (length : Nat) : ContextView W Tuple Number :=
  { s with moderation := m.index peer.toContextPeer s.moderation from_ length }

/-- `#applyModerationAction`. -/
def applyModerationAction (m : ModerationAction) (given : Given) : ContextView W Tuple Number :=
  if ¬ m.verifies peer.toContextPeer given.now then s
  else if s.recordOf.version = 3 then
    if canIn s.governance.roles m.author m.action then s.moderated peer m given.from_ given.length else s
  else
    match given.allowed m.author m.action with
    | none =>
        let seq : Int := if 0 < given.length then given.length - 1 else -1
        let eventId := peer.sha256 s!"{toHex given.from_}:{seq}"
        { s with reports := s.reports.insert s!"m:p:{eventId}" ⟨m, given.from_, given.length⟩ }
    | some false => s
    | some true => s.moderated peer m given.from_ given.length

/-- `#applyMessage`. -/
def applyMessage (passes : Bool) (timestamp : Nat) (text username author : String)
    : ContextView W Tuple Number :=
  if passes then
    { s with messages :=
        s.messages.insert s!"msg:{timestamp}:{sliceStart author 8}" ⟨text, username, author, timestamp⟩ }
  else s

/-- An app's event, in the layout of the context's record. -/
def applyApp (event : Event Number) : Option (ContextView W Tuple Number) :=
  if s.recordOf.layoutId = 2 then
    let layout := throwing2 enc p float64
    match event.body with
    | .message text username author => do
        let passes ← s.second.passesRules? peer layout event
        return s.applyMessage passes (event.timestamp.getD 0) text username author
    | _ => (s.second.applyData? peer layout event).map fun second => { s with second }
  else
    let layout := throwing1 json
    match event.body with
    | .message text username author => do
        let passes ← s.first.passesRules? peer layout event
        return s.applyMessage passes (event.timestamp.getD 0) text username author
    | _ => (s.first.applyData? peer layout event).map fun first => { s with first }

/-- A chunk's counts are written. -/
def flushed : ContextView W Tuple Number :=
  { s with
    first := s.first.flush (layout1 json)
    second := s.second.flush (layout2 enc p float64) }

/-- An event of a node, if it could be read. -/
def applyEvent (event : Event Number) (given : Given) : Option (ContextView W Tuple Number) :=
  match event.body with
  | .contextInit version rules owner layout =>
      some (s.applyContextInit peer version rules owner layout given.from_)
  | .contextUpgrade version owner => s.applyContextUpgrade peer version owner given.from_
  | _ =>
      match refusal peer s.recordOf with
      | some reason => some { s with interrupted := some reason, stopped := true }
      | none =>
          match governanceEvent event with
          | some governance => s.govern peer governance given
          | none =>
              if given.optimistic then some s
              else
                match event.body with
                | .moderationAction version action target reason context author signature =>
                    some (s.applyModerationAction peer ⟨version, action, target, reason, context, author,
                      event.timestamp.getD 0, signature⟩ given)
                | _ => s.applyApp peer p float64 enc json event

/-- The changes of writers that wait, decided where the RoleBase answers. -/
def drainChanges (allowed : (author action : String) → Option Bool)
    : Option (ContextView W Tuple Number) :=
  s.changes.toList.foldlM
    (fun s (name, change) =>
      match allowed change.author "context.write" with
      | none => some s
      | some false => some { s with changes := s.changes.erase name }
      | some true =>
          let s := { s with changes := s.changes.erase name }
          if change.add then do
            let governance ← s.governance.addWriter? peer.toPeer (fromHex change.key)
              (s.recordOf.version = 1)
            return { s with governance }
          else some { s with governance := s.governance.removeWriter peer.toPeer (fromHex change.key) })
    s

/-- The actions of moderation that wait, likewise. -/
def drainReports (allowed : (author action : String) → Option Bool) : ContextView W Tuple Number :=
  s.reports.toList.foldl
    (fun s (name, report) =>
      match allowed report.action.author report.action.action with
      | none => s
      | some passes =>
          let s := { s with reports := s.reports.erase name }
          if passes then s.moderated peer report.action report.from_ report.length else s)
    s

/-- `none`: it throws. -/
def step : Happening → Option (ContextView W Tuple Number)
  | .node given =>
      if s.stopped then some s
      else
        let s := if given.flush then s.flushed p float64 enc json else s
        match Context.eventOf p float64 given.toContextNode with
        | none => some s
        | some event => s.applyEvent peer p float64 enc json event given
  | .drain allowed => (s.drainReports peer allowed).drainChanges peer allowed

end ContextView

end Hypergraph.Engine
