import Hypergraph.Lib.JsonValue
import Hypergraph.Control.Invites

/-! A community's control log (`src/v2/control.js`, `Control._apply`): who has which role, the channels
and their epochs, bans, hidden messages, keepers and invites, as the events of the log change them.
A step that throws is `none`.
-/

namespace Hypergraph.Control

open Wire Js Engine
open Governance (someone)

variable {W Number : Type}

-- Roles

/-- `RANK`. -/
def ownRank : String → Option Nat
  | "owner" => some 4
  | "admin" => some 3
  | "mod" => some 2
  | "keeper" => some 1
  | _ => none

/-- `RANK[name] || 0`; `none` for what is inherited, which compares to no number. -/
def rankOf (name : String) : Option Nat :=
  match ownRank name with
  | some rank => some rank
  | none => if name ∈ objectPrototype then none else some 0

/-- Is a role, or its absence, the one of this name? -/
def isRole (role : Option (Json Number)) (name : String) : Bool := Json.string? role = some name

/-- Who may set a member to a role (`none` removes it), by the author's role and the member's. -/
def mayAssign (authorRole currentRole role : Option (Json Number)) : Bool :=
  if isRole role "owner" then false
  else if isRole authorRole "owner" then !isRole currentRole "owner"
  else if isRole authorRole "admin" then
    (role.isNone || isRole role "mod" || isRole role "keeper")
      && (currentRole.isNone || isRole currentRole "mod" || isRole currentRole "keeper")
  else false

/-- `(RANK[current] || 0) < RANK[role]`. -/
def stepsUp (current role : String) : Bool :=
  match rankOf current, ownRank role with
  | some rank, some wanted => decide (rank < wanted)
  | _, _ => false

-- A role is a property's name where it is looked up in `RANK`, `'null'` where there is none.
variable (numbers : Numbers Number)

def rankName (role : Option (Json Number)) : Option String :=
  match role with
  | none => some "null"
  | some role => Json.text numbers role

/-- `atLeast`; `none`: the role can't be a property's name. -/
def atLeast (role : Option (Json Number)) (wanted : Nat) : Option Bool :=
  (rankName numbers role).map fun name => (rankOf name).any (wanted ≤ ·)

-- The state

structure RoleRecord (Number : Type) where
  role : Json Number
  writer : Option String
  by_ : String

structure PrivateChannel where
  epoch : Nat
  memberGrants : Bool

structure ChannelRecord (Number : Type) where
  name : String
  /-- `none`: an hour. -/
  segmentMs : Option Number
  createdAt : Option (Json Number)
  by_ : String
  private_ : Option PrivateChannel

structure EpochRecord (Number : Type) where
  commit : String
  by_ : String
  at_ : Option (Json Number)

/-- Who did something, and when by their own account. -/
structure Noted (Number : Type) where
  by_ : String
  at_ : Option (Json Number)

structure Ban (Number : Type) extends Noted Number where
  reason : Json Number
  cut : List (String × Nat)

structure Hide (Number : Type) extends Noted Number where
  reason : Json Number

structure Redeemed (Number : Type) extends Noted Number where
  channels : List String
  encryptionKey : String
  role : Option String
  maker : String

structure Meta (Number : Type) where
  name : Json Number
  createdAt : Option (Json Number)

/-- The view: what stands under each kind of key, by what follows the key's prefix. -/
structure View (Number : Type) where
  /-- `meta:community`. -/
  community : Option (Meta Number) := none
  /-- `role:<member>`. -/
  roles : Table String (RoleRecord Number) := ∅
  /-- `channel:<id>`. -/
  channels : Table String (ChannelRecord Number) := ∅
  /-- `epoch:<channel>:<epoch>`. -/
  epochs : Table String (EpochRecord Number) := ∅
  /-- `keeper:<channel>:<member>`: the roster's key. -/
  keepers : Table String String := ∅
  /-- `redeemed:<invite>:<identity>`. -/
  redeemed : Table String (Redeemed Number) := ∅
  /-- `uses:<invite>`. -/
  uses : Table String Nat := ∅
  /-- `invite-revoked:<invite>`. -/
  invitesRevoked : Table String (Noted Number) := ∅
  /-- `revoked:<channel>:<member>`. -/
  revoked : Table String (Noted Number) := ∅
  /-- `ban:<member>`. -/
  bans : Table String (Ban Number) := ∅
  /-- `hide:<member>:<log>:<seq>`. -/
  hides : Table String (Hide Number) := ∅

structure State (W Number : Type) where
  view : View Number := {}
  writers : W

/-- What a signature covers: an event's fields but the signature, in their names' order (`digest`), an
invite, or a redemption.
-/
inductive Signed (Number : Type)
  | event (community : String) (fields : List (String × Json Number))
  | invite (invite : Invite)
  | redemption (redemption : Redemption)

/-- What a peer applies the log with. -/
structure Peer (W Number : Type) where
  autobase : Autobase W
  /-- `hypercore-crypto`'s `verify` of a message's hash, a signature and a public key. -/
  verify : Signed Number → Bytes → Bytes → Bool
  numbers : Numbers Number
  primitives : Primitives
  /-- The log's key. -/
  key : Key

/-- A node of the log: its value, and whose it is. -/
structure Node (Number : Type) where
  value : Json Number
  from_ : Key

namespace Peer

variable (peer : Peer W Number)

/-- An event's author, where the event is signed by them (`verify`). -/
def signer (fields : List (String × Json Number)) : Option String :=
  match Json.string? (Json.field fields "author"), Json.string? (Json.field fields "signature") with
  | some author, some signature =>
      let ordered := (fields.filter (·.1 ≠ "signature")).mergeSort
        fun left right => ¬ codeUnits right.1 < codeUnits left.1
      if peer.verify (.event (toHex peer.key) ordered) (fromHex signature) (fromHex author) then
        some author
      else none
  | _, _ => none

def verifyInvite (inv : SignedInvite) : Bool := peer.verify (.invite inv.toInvite) inv.sig inv.maker

def verifyRedemption (r : SignedRedemption) : Bool :=
  peer.verify (.redemption r.toRedemption) r.sig r.identity && peer.verifyInvite r.invite

end Peer

/-- `MAX_CUT`. -/
def maxCut : Nat := 1000

/-- `banCut`: the first lengths given for logs. -/
def banCut (cut : Option (Json Number)) : List (String × Nat) :=
  match cut with
  | some (.object fields) =>
      (fields.filterMap fun (log, length) =>
        match length with
        | .number length => if isHex64 log then (numbers.nat? length).map (log, ·) else none
        | _ => none).take maxCut
  | _ => []

-- What an event says

section Said

variable (peer : Peer W Number) (fields : List (String × Json Number))

/-- `String(event.name || '')`. -/
def channelName : Option String :=
  match Json.fieldOrNull peer.numbers (Json.field fields "name") with
  | some name => Json.text peer.numbers name
  | none => some ""

/-- The commitment of a new channel that is private, and none of one that isn't; `none`: it has none
though it is private.
-/
def firstCommit : Option (Option String) :=
  if Json.isTrue (Json.field fields "private") then
    ((Json.string? (Json.field fields "commit")).filter isHex64).map some
  else some none

/-- `inv.expires && event.timestamp > inv.expires`. -/
def expired (inv : Invite) (timestamp : Option (Json Number)) : Option Bool :=
  if inv.expires = 0 then some false else Json.fieldExceeds peer.numbers inv.expires timestamp

/-- `event.reason || ''`. -/
def reasonOf : Json Number :=
  (Json.fieldOrNull peer.numbers (Json.field fields "reason")).getD (.string "")

end Said

-- Applying

namespace State

variable (peer : Peer W Number) (s : State W Number)

def roleOf (member : String) : Option (Json Number) := s.view.roles[member]?.map RoleRecord.role

/-- `host.addWriter`, which takes whole keys. -/
def addWriter (key : Key) (indexer : Bool) : Option (State W Number) :=
  if key.length = 32 then some { s with writers := peer.autobase.addWriter s.writers key indexer }
  else none

/-- A writer taken out, where it can be: what the host throws is caught. -/
def dropWriter (key : Key) : State W Number :=
  if key.length = 32 ∧ peer.autobase.removeable s.writers key then
    match peer.autobase.removeWriter s.writers key with
    | some writers => { s with writers }
    | none => s
  else s

/-- The community founded. -/
def found (name : Json Number) (timestamp : Option (Json Number)) (author writer : String)
    : State W Number :=
  { s with view := { s.view with
      community := some ⟨name, timestamp⟩
      roles := s.view.roles.insert author ⟨.string "owner", some writer, author⟩ } }

/-- A member's role taken away, and the writer recorded with it. -/
def removeRole (member : String) : State W Number :=
  let removed : State W Number := { s with view := { s.view with roles := s.view.roles.erase member } }
  match s.view.roles[member]?.bind RoleRecord.writer with
  | none => removed
  | some writer => removed.dropWriter peer (fromHex writer)

/-- A member's role recorded. -/
def putRole (member : String) (role : Json Number) (writer : Option String) (author : String)
    : State W Number :=
  { s with view := { s.view with roles := s.view.roles.insert member ⟨role, writer, author⟩ } }

/-- A new channel recorded, with its first epoch's commitment where it is private, and its creator as a
keeper where the event says so.
-/
def putChannel (author : String) (fields : List (String × Json Number)) (id name : String)
    (commit : Option String)
    : State W Number :=
  let timestamp := Json.field fields "timestamp"
  let segmentMs := match Json.field fields "segmentMs" with
    | some (.number ms) => if (peer.numbers.nat? ms).any (0 < ·) then some ms else none
    | _ => none
  let memberGrants := Json.isTrue (Json.field fields "memberGrants")
  { s with view := { s.view with
      channels := s.view.channels.insert id
        ⟨name, segmentMs, timestamp, author, commit.map fun _ => ⟨0, memberGrants⟩⟩
      epochs := match commit with
        | some commit => s.view.epochs.insert (id ++ ":0") ⟨commit, author, timestamp⟩
        | none => s.view.epochs
      keepers := match Json.string? (Json.field fields "rosterKey") with
        | some rosterKey => s.view.keepers.insert (id ++ ":" ++ author) rosterKey
        | none => s.view.keepers } }

/-- A private channel of an event, by the text of its `channel`. -/
def privateChannel (channel : String) : Option (ChannelRecord Number × PrivateChannel) := do
  let node ← s.view.channels[channel]?
  let private_ ← node.private_
  some (node, private_)

/-- A private channel one epoch up. -/
def putEpoch (channel : String) (node : ChannelRecord Number) (private_ : PrivateChannel)
    (epoch : EpochRecord Number)
    : State W Number :=
  let next := private_.epoch + 1
  { s with view := { s.view with
      channels := s.view.channels.insert channel
        { node with private_ := some { private_ with epoch := next } }
      epochs := s.view.epochs.insert (channel ++ ":" ++ toString next) epoch } }

/-- A redemption counted. -/
def putRedemption (author : String) (timestamp : Option (Json Number)) (r : Redemption)
    : State W Number :=
  let inv := r.invite
  let id := toHex inv.id
  { s with view := { s.view with
      redeemed := s.view.redeemed.insert (id ++ ":" ++ toHex r.identity)
        { channels := inv.channels, encryptionKey := toHex r.encryptionKey, role := inv.role,
          maker := toHex inv.maker, at_ := timestamp, by_ := author }
      uses := s.view.uses.insert id (s.view.uses[id]?.getD 0 + 1) } }

def putInviteRevoked (id : String) (noted : Noted Number) : State W Number :=
  { s with view := { s.view with invitesRevoked := s.view.invitesRevoked.insert id noted } }

/-- A member's access to a channel revoked, or given back. -/
def putRevoked (key : String) (noted : Option (Noted Number)) : State W Number :=
  { s with view := { s.view with
      revoked := match noted with
        | some noted => s.view.revoked.insert key noted
        | none => s.view.revoked.erase key } }

def putBan (member : String) (ban : Option (Ban Number)) : State W Number :=
  { s with view := { s.view with
      bans := match ban with
        | some ban => s.view.bans.insert member ban
        | none => s.view.bans.erase member } }

def putHide (key : String) (hide : Hide Number) : State W Number :=
  { s with view := { s.view with hides := s.view.hides.insert key hide } }

def putKeeper (key rosterKey : String) : State W Number :=
  { s with view := { s.view with keepers := s.view.keepers.insert key rosterKey } }

def applyInit (fields : List (String × Json Number)) (from_ : Key) : State W Number :=
  if from_ ≠ peer.key then s
  else if s.view.community.isSome then s
  else
    match peer.signer fields with
    | none => s
    | some author =>
        let name := (Json.fieldOrNull peer.numbers (Json.field fields "name")).getD (.string "")
        s.found name (Json.field fields "timestamp") author (toHex from_)

-- The cases of an event whose author signed it, with the role the author has.
variable (author : String) (authorRole : Option (Json Number)) (fields : List (String × Json Number))

def applyRole : Option (State W Number) := do
  let member ← Json.fieldText peer.numbers (Json.field fields "member")
  let role := Json.fieldOrNull peer.numbers (Json.field fields "role")
  if ¬ mayAssign authorRole (s.roleOf member) role then some s
  else
    match role with
    | none => some (s.removeRole peer member)
    | some role =>
        let writer := (Json.string? (Json.field fields "writer")).filter (length · = 64)
        let s := s.putRole member role writer author
        match writer with
        | none => some s
        | some writer => s.addWriter peer (fromHex writer) (isRole (some role) "admin")

def applyChannel : Option (State W Number) := do
  if ¬ (← atLeast peer.numbers authorRole 3) then some s
  else
    match required (Json.string? (Json.field fields "id")) with
    | none => some s
    | some id =>
        if s.view.channels[id]?.isSome then some s
        else
          match firstCommit fields with
          | none => some s
          | some commit =>
              (channelName peer fields).map fun name => s.putChannel peer author fields id name commit

def applyRotate : Option (State W Number) := do
  if ¬ (← atLeast peer.numbers authorRole 3) then some s
  else
    match (Json.string? (Json.field fields "commit")).filter isHex64 with
    | none => some s
    | some commit => do
        let channel ← Json.fieldText peer.numbers (Json.field fields "channel")
        match s.privateChannel channel, Json.field fields "epoch" with
        | some (node, private_), some (.number epoch) =>
            if peer.numbers.nat? epoch ≠ some (private_.epoch + 1) then some s
            else some (s.putEpoch channel node private_ ⟨commit, author, Json.field fields "timestamp"⟩)
        | _, _ => some s

/-- May an invite's maker open its channels? Each is asked for. -/
def channelsOk (makerRole : Option (Json Number)) : List String → Option Bool
  | [] => some true
  | channel :: rest => do
      let here ← match s.privateChannel channel with
        | some (_, private_) => (atLeast peer.numbers makerRole 3).map (· || private_.memberGrants)
        | none => some false
      let others ← channelsOk makerRole rest
      some (here && others)

/-- The role an invite gives, never a step down; `none` where the current one can't be ranked. -/
def giveRole (inv : Invite) (identity : String) (writer : Option Key) : Option (State W Number) :=
  match inv.role with
  | none => some s
  | some role => do
      let current ← rankName peer.numbers (s.roleOf identity)
      if ¬ stepsUp current role then some s
      else
        let s := s.putRole identity (.string role) (writer.map toHex) (toHex inv.maker)
        match writer with
        | none => some s
        | some writer => s.addWriter peer writer (role = "admin")

/-- What is checked of a redemption before its time. -/
def redeemable (r : SignedRedemption) : Bool :=
  peer.verifyRedemption r && r.invite.community = peer.key
    && (s.view.redeemed[toHex r.invite.id ++ ":" ++ toHex r.identity]?).isNone
    && (s.view.invitesRevoked[toHex r.invite.id]?).isNone

/-- An invite with uses left, whose maker may give its role to someone. -/
def givable (inv : Invite) (identity : Key) : Bool :=
  (inv.uses = 0 || s.view.uses[toHex inv.id]?.getD 0 < inv.uses)
    && inv.role.all fun role =>
      mayAssign (s.roleOf (toHex inv.maker)) (s.roleOf (toHex identity)) (some (.string role))

/-- A redemption recorded by a keeper or above. -/
def redeem (timestamp : Option (Json Number)) (r : SignedRedemption) : Option (State W Number) := do
  let inv := r.invite.toInvite
  if ¬ s.redeemable peer r then some s
  else if ← expired peer inv timestamp then some s
  else if ¬ s.givable inv r.identity then some s
  else if ¬ (← s.channelsOk peer (s.roleOf (toHex inv.maker)) inv.channels) then some s
  else
    (s.giveRole peer inv (toHex r.identity) r.writer).map
      fun s => s.putRedemption author timestamp r.toRedemption

def applyRedeem : Option (State W Number) := do
  if ¬ (← atLeast peer.numbers authorRole 1) then some s
  else
    match decodeRedemption peer.primitives (Json.string? (Json.field fields "redemption")) with
    | none => some s
    | some r => s.redeem peer author (Json.field fields "timestamp") r

def applyRevokeInvite : Option (State W Number) :=
  match decodeInvite peer.primitives (Json.string? (Json.field fields "invite")) with
  | none => some s
  | some inv => do
      if ¬ peer.verifyInvite inv then some s
      else if ¬ (← atLeast peer.numbers authorRole 3) ∧ author ≠ toHex inv.maker then some s
      else some (s.putInviteRevoked (toHex inv.id) ⟨author, Json.field fields "timestamp"⟩)

/-- `revoke`, and `unrevoke`. -/
def applyRevoke (revoke : Bool) : Option (State W Number) := do
  if ¬ (← atLeast peer.numbers authorRole 3) then some s
  else
    match Json.string? (Json.field fields "member") with
    | none => some s
    | some member => do
        let channel ← Json.fieldText peer.numbers (Json.field fields "channel")
        if (s.privateChannel channel).isNone then some s
        else
          some (s.putRevoked (channel ++ ":" ++ member)
            (if revoke then some ⟨author, Json.field fields "timestamp"⟩ else none))

def applyBan : Option (State W Number) := do
  if ¬ (← atLeast peer.numbers authorRole 2) then some s
  else do
    let member ← Json.fieldText peer.numbers (Json.field fields "member")
    if isRole (s.roleOf member) "owner" then some s
    else
      some (s.putBan member (some
        { at_ := Json.field fields "timestamp", reason := reasonOf peer fields, by_ := author,
          cut := banCut peer.numbers (Json.field fields "cut") }))

def applyUnban : Option (State W Number) := do
  if ¬ (← atLeast peer.numbers authorRole 2) then some s
  else do
    let member ← Json.fieldText peer.numbers (Json.field fields "member")
    some (s.putBan member none)

def applyHide : Option (State W Number) := do
  if ¬ (← atLeast peer.numbers authorRole 2) then some s
  else do
    let member ← Json.fieldText peer.numbers (Json.field fields "member")
    let log ← Json.fieldText peer.numbers (Json.field fields "log")
    let seq ← Json.fieldText peer.numbers (Json.field fields "seq")
    some (s.putHide (member ++ ":" ++ log ++ ":" ++ seq)
      { reason := reasonOf peer fields, by_ := author, at_ := Json.field fields "timestamp" })

def applyKeeper : Option (State W Number) := do
  if ¬ (← atLeast peer.numbers authorRole 1) then some s
  else
    match Json.string? (Json.field fields "rosterKey"), Json.string? (Json.field fields "channel") with
    | some rosterKey, some channel => some (s.putKeeper (channel ++ ":" ++ author) rosterKey)
    | _, _ => some s

/-- An event of a type, by who signed it. -/
def applySigned (type : String) : Option (State W Number) :=
  match type with
  | "role" => s.applyRole peer author authorRole fields
  | "channel" => s.applyChannel peer author authorRole fields
  | "rotate" => s.applyRotate peer author authorRole fields
  | "redeem" => s.applyRedeem peer author authorRole fields
  | "revokeInvite" => s.applyRevokeInvite peer author authorRole fields
  | "revoke" => s.applyRevoke peer author authorRole fields true
  | "unrevoke" => s.applyRevoke peer author authorRole fields false
  | "ban" => s.applyBan peer author authorRole fields
  | "unban" => s.applyUnban peer authorRole fields
  | "hide" => s.applyHide peer author authorRole fields
  | "keeper" => s.applyKeeper peer author authorRole fields
  | _ => some s

/-- A node applied; `none`: it throws, and the log stops here. -/
def apply (node : Node Number) : Option (State W Number) :=
  match node.value with
  | .object fields =>
      match Json.string? (Json.field fields "type") with
      | none => some s
      | some "init" => some (s.applyInit peer fields node.from_)
      | some type =>
          match peer.signer fields with
          | none => some s
          | some author => s.applySigned peer author (s.roleOf author) fields type
  | _ => some s

/-- A log applied to its end, if it can be. -/
def run (log : List (Node Number)) : Option (State W Number) := log.foldlM (apply peer) s

end State

-- A small log

/-- A peer on a list of writers, with natural numbers; a signature starts with its public key. -/
def listPeer : Peer (List (Key × Bool)) Nat where
  autobase := .inList
  verify _ signature publicKey := publicKey.isPrefixOf signature
  numbers :=
    { text := toString, nat? := some, exceeds := fun n limit => decide (limit < n)
      ofString := String.toNat? }
  primitives := compact
  key := List.replicate 32 0

/-- An event of a type with its fields, signed by someone, by a writer. -/
def signedBy (author : String) (type : String) (fields : List (String × Json Nat)) (from_ : UInt8)
    : Node Nat :=
  { value := .object (("type", .string type) :: ("author", .string author)
      :: ("signature", .string author) :: fields)
    from_ := List.replicate 32 from_ }

/-- A log founded by someone. -/
def founding : Node Nat := signedBy (someone 1) "init" [("name", .string "club")] 0

def founded : State (List (Key × Bool)) Nat :=
  (State.run listPeer { writers := [(List.replicate 32 0, true)] } [founding]).getD
    { writers := [] }

theorem run_founding
    : State.run listPeer { writers := [(List.replicate 32 0, true)] } [founding] = some founded := by
  have ran : (State.run listPeer { writers := [(List.replicate 32 0, true)] } [founding]).isSome := by
    decide +kernel
  obtain ⟨s, is⟩ := Option.isSome_iff_exists.mp ran
  rw [founded, is]
  rfl

end Hypergraph.Control
