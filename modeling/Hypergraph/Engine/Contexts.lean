import Hypergraph.Lib.Utf16
import Hypergraph.Engine.Applying
import Hypergraph.Engine.Events

/-! What a version 3 context makes of the nodes of its log (`src/context-base.js`, `#applyNodes`): the
governance of who writes, the indexes of relations and tags, moderation and messages. Only what a
peer has from elsewhere is a parameter: its app's rules, its clock, and what its packages verify.
-/

namespace Hypergraph.Engine

open Wire Js Layouts Events

variable {W Db Number : Type}

-- A peer

/-- What is signed of the events of an app's data: the message hashed by `stableRelationHash`,
`stableTagHash` or `#stableModerationHash`.
-/
inductive SignedData (Number : Type)
  | relation (created : Bool) (source target relationType : String) (value : Option Number)
      (data context : Option String) (author : String) (timestamp : Nat) (createdAt : Option Nat)
  | tag (op : TagOp) (entityId tag : String) (context : Option String) (author : String)
      (timestamp : Nat)
  | moderation (version : Nat) (action target : String) (reason context : Option String)
      (author : String) (timestamp : Nat)

/-- An edge as rules are given it. -/
structure RuleEdge (Number : Type) where
  source : String
  target : String
  type : String
  author : Option String
  createdAt : Nat
  value : Option Number
  data : Option String

def ruleEdge (record : EdgeRecord Number) : RuleEdge Number :=
  ⟨record.source, record.target, record.type, record.author, record.createdAt, record.value.join,
    record.data⟩

/-- What rules may ask of the index (`#reader`). -/
structure Reader (Number : Type) where
  hasEdge : (source type target : String) → Bool
  edges : (entityId : String) → Direction → (type : Option String) → (limit : Option Nat)
    → List (RuleEdge Number)
  countIn : (entityId type : String) → Nat
  countOut : (entityId type : String) → Nat
  hasTag : (entityId tag : String) → Bool

/-- A peer, and what it applies an app's data with. -/
structure ContextPeer (W Number : Type) extends Peer W where
  /-- `hypercoreCrypto.verify` of a message's hash, a signature and a public key. -/
  verifyData : SignedData Number → Bytes → Bytes → Bool
  /-- SHA-256 of a text, in hex. -/
  sha256 : String → String
  /-- Does the app's rules' `validate` give `true`? -/
  rules : Option (Event Number → Reader Number → Bool)
  /-- `#refusal`: the context's version, layout or rules aren't this peer's. -/
  refuses : Bool

namespace ContextPeer

variable (peer : ContextPeer W Number)

/-- Is a message signed by its author? -/
def signs (message : SignedData Number) (author : String) (signature : Option String) : Bool :=
  match required signature with
  | some signature => author ≠ "" && peer.verifyData message (fromHex signature) (fromHex author)
  | none => false

end ContextPeer

-- Relations and tags

/-- `MAX_RELATION_DATA_BYTES`. -/
def maxRelationDataBytes : Nat := 4096

namespace Layouts.Applying

variable (peer : ContextPeer W Number) (layout : IndexLayout Db Number) (s : Applying Db)

/-- The index within a chunk, with the counts kept aside. -/
def reader : Reader Number where
  hasEdge source type target :=
    ((layout.answers s.view).activeEdge source type target).any (!·.deleted)
  edges entityId direction type limit :=
    let standing := ((layout.answers s.view).edges entityId direction type false).filter (!·.deleted)
    (standing.take (limit.getD standing.length)).map ruleEdge
  countIn := s.count layout .incoming
  countOut := s.count layout .outgoing
  hasTag := (layout.answers s.view).hasTag

def passesRules (event : Event Number) : Bool :=
  peer.rules.all fun validate => validate event (s.reader layout)

/-- What an event of relations or tags makes of the index. -/
def applyData (event : Event Number) : Applying Db :=
  let timestamp := event.timestamp.getD 0
  match event.body with
  | .relationCreate source target relationType author signature value data =>
      if source = "" ∨ target = "" ∨ relationType = "" then s
      else if ¬ peer.signs (.relation true source target relationType value data peer.contextKey author
          timestamp none) author signature then s
      else if authorFromEntityId source ≠ some author then s
      else if data.any fun data => maxRelationDataBytes < data.utf8ByteSize then s
      else if ¬ s.passesRules peer layout event then s
      else s.applyRelation layout ⟨source, relationType, timestamp, target, author, value, data⟩
  | .relationDelete source target relationType author createdAt signature =>
      if source = "" ∨ target = "" ∨ relationType = "" then s
      else if ¬ peer.signs (.relation false source target relationType none none peer.contextKey author
          timestamp (given (some createdAt))) author signature then s
      else if ¬ s.passesRules peer layout event then s
      else s.applyRelationDelete layout source relationType createdAt target
  | .tag op entityId tag author signature =>
      if entityId = "" ∨ tag = "" then s
      else if ¬ peer.signs (.tag op entityId tag peer.contextKey author timestamp) author signature
        then s
      else if ¬ s.passesRules peer layout event then s
      else
        match op with
        | .add => s.write layout (.addTag ⟨entityId, tag, author, timestamp⟩)
        | .remove => s.write layout (.removeTag tag entityId author)
  | _ => s

end Layouts.Applying

-- Moderation

structure ModerationAction where
  version : Nat
  action : String
  target : String
  reason : Option String
  context : Option String
  author : String
  timestamp : Nat
  signature : Option String

/-- An entry of moderation, under `m:t:` and `m:a:`. -/
structure Moderated where
  eventId : String
  action : String
  target : String
  reason : Option String
  author : String
  createdAt : Nat
  signature : Option String
  coreKey : String
  seq : Int
  deriving DecidableEq

/-- `#MODERATION_MAX_FUTURE_SKEW_MS`. -/
def moderationMaxFutureSkewMs : Nat := 5 * 60 * 1000

namespace ModerationAction

variable (peer : ContextPeer W Number) (m : ModerationAction)

def wellFormed : Bool :=
  m.version = 1 && m.author ≠ "" && m.action ≠ "" && m.target ≠ "" && (required m.signature).isSome
    && m.action ∈ ["content.flag", "content.hide", "content.remove", "content.reveal"]

/-- Is the time it claims not too far ahead of a clock? -/
def timely (now : Nat) : Bool := m.timestamp ≤ now + moderationMaxFutureSkewMs

def signed : Bool :=
  peer.signs (.moderation m.version m.action m.target (required m.reason) (required m.context) m.author
    m.timestamp) m.author m.signature

/-- `#verifyModerationSignature`. -/
def verifies (now : Nat) : Bool := m.wellFormed && m.timely now && m.signed peer

/-- `#indexModerationEvent`. -/
def index (table : Table String Moderated) (from_ : Key) (length : Nat) : Table String Moderated :=
  let coreKey := toHex from_
  let seq : Int := if 0 < length then length - 1 else -1
  let ts := String.ofList (toSortableTs m.timestamp)
  let entry : Moderated :=
    ⟨peer.sha256 s!"{coreKey}:{seq}", m.action, m.target, required m.reason, m.author, m.timestamp,
      m.signature, coreKey, seq⟩
  (table.insert s!"m:t:{m.target}:{ts}:{coreKey}:{seq}" entry).insert
    s!"m:a:{m.author}:{ts}:{m.target}:{coreKey}:{seq}" entry

end ModerationAction

-- Nodes

structure ContextMessage where
  text : String
  username : String
  author : String
  timestamp : Nat
  deriving DecidableEq

/-- `text.slice(0, length)`, as it is written. -/
def sliceStart (text : String) (length : Nat) : String := Units.text ((Units.ofText text).take length)

/-- A node of the log as Autobase gives it, in the order it gives them. -/
structure ContextNode where
  value : Option Bytes
  from_ : Key
  length : Nat
  optimistic : Bool := false

/-- A change of writers that waits for the RoleBase (`w:p:`). -/
structure QueuedChange where
  add : Bool
  key : String
  author : String

/-- An action of moderation that waits for the RoleBase (`m:p:`). -/
structure QueuedReport where
  action : ModerationAction
  from_ : Key
  length : Nat

/-- What a RoleBase answers for an author's action; `none`: its registry isn't there yet. -/
abbrev RoleBase := (author action : String) → Option Bool

/-- A context's view, and its writers. -/
structure Context (W Db : Type) where
  governance : Governance W
  index : Applying Db
  moderation : Table String Moderated := ∅
  messages : Table String ContextMessage := ∅

/-- An event as the governance has it. -/
def governanceEvent (event : Event Number) : Option GovernanceEvent :=
  let timestamp := event.timestamp.getD 0
  match event.body with
  | .contextInvite inviteKey role uses author signature asked =>
      some (.contextInvite inviteKey (role.getD "") uses author timestamp signature
        (asked.map fun asked => ⟨asked.scope, asked.scopeBase, asked.roleBase⟩))
  | .contextRedeem inviteKey member key signature memberSignature encryptionKey =>
      some (.contextRedeem inviteKey member key timestamp signature memberSignature encryptionKey)
  | .contextWriter key member author signature =>
      some (.contextWriter key (member.getD "") author timestamp signature)
  | .contextRole member role author signature =>
      some (.contextRole member (role.getD "") author timestamp signature)
  | .writer .addWriter key _ _ => some (.addWriter key)
  | .writer .rolesAddWriter key author signature =>
      some (.rolesAddWriter key author timestamp signature)
  | .writer .rolesRemoveWriter key author signature =>
      some (.rolesRemoveWriter key author timestamp signature)
  | _ => none

namespace Context

variable (peer : ContextPeer W Number) (p : Primitives) (float64 : Codec Number)
  (layout : IndexLayout Db Number) (s : Context W Db)

/-- The event of a node, where there is one that could be read. -/
def eventOf (node : ContextNode) : Option (Event Number) :=
  match node.value.map (decodeEvent p float64) with
  | some (.event event) => some event
  | _ => none

/-- `#applyModerationAction`, by a clock. -/
def applyModeration (m : ModerationAction) (node : ContextNode) (now : Nat) : Context W Db :=
  if ¬ m.verifies peer now then s
  else if ¬ canIn s.governance.roles m.author m.action then s
  else { s with moderation := m.index peer s.moderation node.from_ node.length }

/-- `#applyMessage`. -/
def applyMessage (event : Event Number) (text username author : String) : Context W Db :=
  let timestamp := event.timestamp.getD 0
  if ¬ s.index.passesRules peer layout event then s
  else
    { s with messages :=
        s.messages.insert s!"msg:{timestamp}:{sliceStart author 8}" ⟨text, username, author, timestamp⟩ }

/-- What a node asks of the context. The context has its record, so that `context/init` and
`context/upgrade` ask nothing.
-/
inductive Asked (Number : Type)
  | nothing
  | governance (node : Node)
  | moderation (m : ModerationAction)
  | message (event : Event Number) (text username author : String)
  | data (event : Event Number)

def asked (node : ContextNode) : Asked Number :=
  match eventOf p float64 node with
  | none => .nothing
  | some event =>
      if peer.refuses then .nothing
      else
        match governanceEvent event with
        | some governance => .governance ⟨governance, node.from_, node.optimistic⟩
        | none =>
            if node.optimistic then .nothing
            else
              match event.body with
              | .moderationAction version action target reason context author signature =>
                  .moderation ⟨version, action, target, reason, context, author,
                    event.timestamp.getD 0, signature⟩
              | .message text username author => .message event text username author
              | _ => .data event

/-- A node applied, by a clock. -/
def apply (node : ContextNode) (now : Nat) : Context W Db :=
  match asked peer p float64 node with
  | .nothing => s
  | .governance asked => { s with governance := s.governance.apply peer.toPeer asked }
  | .moderation m => s.applyModeration peer m node now
  | .message event text username author => s.applyMessage peer layout event text username author
  | .data event => { s with index := s.index.applyData peer layout event }

/-- A chunk's end. -/
def settle : Context W Db := { s with index := s.index.flush layout }

/-- The nodes of calls of apply, each with the size of its chunks, and a clock for each node. -/
def run (given : List (Nat × List (ContextNode × Nat))) : Context W Db :=
  (Chunks.calls given).foldl
    (Chunks.taken (fun s input => apply peer p float64 layout s input.1 input.2) (settle layout)) s

end Context

/-- A context, and what waits in its view from before it was upgraded to version 3. -/
structure Upgraded (W Db : Type) extends Context W Db where
  changes : Table String QueuedChange := ∅
  reports : Table String QueuedReport := ∅

namespace Upgraded

variable (peer : ContextPeer W Number) (p : Primitives) (float64 : Codec Number)
  (layout : IndexLayout Db Number) (s : Upgraded W Db) (allowed : RoleBase)

/-- `#drainPendingModeration`. -/
def drainPendingModeration : Upgraded W Db :=
  s.reports.toList.foldl
    (fun s (name, report) =>
      match allowed report.action.author report.action.action with
      | none => s
      | some passes =>
          let s := { s with reports := s.reports.erase name }
          if passes then
            { s with moderation := report.action.index peer s.moderation report.from_ report.length }
          else s)
    s

/-- `#drainPendingWriterChanges`. -/
def drainPendingWriterChanges : Upgraded W Db :=
  s.changes.toList.foldl
    (fun s (name, change) =>
      match allowed change.author "context.write" with
      | none => s
      | some may =>
          let s := { s with changes := s.changes.erase name }
          if ¬ may then s
          else if change.add then
            { s with governance := s.governance.addWriter peer.toPeer (fromHex change.key) false }
          else { s with governance := s.governance.removeWriter peer.toPeer (fromHex change.key) })
    s

/-- `#applyView`: a call's nodes, and then what waits. -/
def applyView (call : Nat × List (ContextNode × Nat)) : Upgraded W Db :=
  let s := { s with toContext := s.toContext.run peer p float64 layout [call] }
  (s.drainPendingModeration peer allowed).drainPendingWriterChanges peer allowed

/-- Calls of apply, each with what the peer's RoleBase answers then. -/
def run (given : List ((Nat × List (ContextNode × Nat)) × RoleBase)) : Upgraded W Db :=
  given.foldl (fun s call => applyView peer p float64 layout s call.2 call.1) s

end Upgraded

end Hypergraph.Engine
