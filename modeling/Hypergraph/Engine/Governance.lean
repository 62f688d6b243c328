import Hypergraph.Lib.Table
import Hypergraph.Lib.Hex
import Hypergraph.Engine.Registry

/-! Who may write in a context of version 3, what role members have, and who indexes
(`src/context-base.js`): the role table and the writers' members in the view, the invites, and
Autobase's set of writers, as the governance events of the log change them.
-/

namespace Hypergraph.Engine

open Js Wire

abbrev Key := Bytes

-- Texts

/-- `b4a.from(text, 'hex')`: what isn't hex ends it. -/
def fromHex (text : String) : Bytes := hexBytes text.toList

/-- `b4a.toString(bytes, 'hex')`. -/
def toHex (bytes : Bytes) : String := String.ofList (hexChars bytes)

theorem fromHex_toHex (bytes : Bytes) : fromHex (toHex bytes) = bytes := by
  rw [fromHex, toHex, String.toList_ofList, hexBytes_hexChars]

theorem toHex_injective : Function.Injective toHex :=
  Function.LeftInverse.injective fromHex_toHex

/-- `text.length`. -/
def length (text : String) : Nat := (codeUnits text).length

/-- `HEX64`. -/
def isHex64 (text : String) : Bool :=
  text.toList.length = 64
    && text.toList.all fun c => decide (('0' ≤ c ∧ c ≤ '9') ∨ ('a' ≤ c ∧ c ≤ 'f'))

-- Autobase

/-- The writers as Autobase keeps them, and the calls of its host. -/
structure Autobase (W : Type) where
  /-- Does a writer index? `none`: it is no writer. -/
  indexes : W → Key → Option Bool
  addWriter : W → Key → (indexer : Bool) → W
  /-- `none`: it throws, as the last indexer would go. -/
  removeWriter : W → Key → Option W
  removeable : W → Key → Bool
  ackWriter : W → Key → W

/-- What is documented of these calls. -/
structure Autobase.Documented {W : Type} (autobase : Autobase W) : Prop where
  add : ∀ w key indexer other, autobase.indexes (autobase.addWriter w key indexer) other
    = if other = key then some indexer else autobase.indexes w other
  remove : ∀ w key w', autobase.removeWriter w key = some w' → ∀ other,
    autobase.indexes w' other = if other = key then none else autobase.indexes w other
  ack : ∀ w key other, other ≠ key →
    autobase.indexes (autobase.ackWriter w key) other = autobase.indexes w other

/-- As much of it as calls that aren't awaited keep to: a removal takes the writer out, or is lost. -/
structure Autobase.Regular {W : Type} (autobase : Autobase W) : Prop where
  add : ∀ w key indexer other, autobase.indexes (autobase.addWriter w key indexer) other
    = if other = key then some indexer else autobase.indexes w other
  remove : ∀ w key w', autobase.removeWriter w key = some w' →
    (∀ other, other ≠ key → autobase.indexes w' other = autobase.indexes w other)
      ∧ (autobase.indexes w' key = none ∨ autobase.indexes w' key = autobase.indexes w key)
  ack : ∀ w key other, other ≠ key →
    autobase.indexes (autobase.ackWriter w key) other = autobase.indexes w other

theorem Autobase.Documented.regular {W : Type} {autobase : Autobase W} (documented : autobase.Documented)
    : autobase.Regular where
  add := documented.add
  remove w key w' removed :=
    ⟨fun other apart => by rw [documented.remove w key w' removed, if_neg apart],
      .inl (by rw [documented.remove w key w' removed, if_pos rfl])⟩
  ack := documented.ack

/-- The calls on a list of writers, each with whether it indexes. -/
def Autobase.inList : Autobase (List (Key × Bool)) where
  indexes writers key := writers.lookup key
  addWriter writers key indexer := (key, indexer) :: Js.delete writers key
  removeWriter writers key :=
    if (writers.filter Prod.snd).map Prod.fst = [key] then none else some (Js.delete writers key)
  removeable writers key := (writers.filter Prod.snd).map Prod.fst ≠ [key]
  ackWriter writers _ := writers

theorem Autobase.documented_inList : Autobase.inList.Documented where
  add writers key indexer other := by
    by_cases same : other = key
    · simp [inList, same]
    · have different : (other == key) = false := by simpa using same
      simp only [inList, List.lookup_cons, different, same, if_false]
      exact (Js.lookup_delete writers key other).trans (if_neg same)
  remove writers key writers' removed other := by
    simp only [inList, Option.ite_none_left_eq_some, Option.some.injEq] at removed
    obtain ⟨_, rfl⟩ := removed
    exact Js.lookup_delete writers key other
  ack _ _ _ _ := rfl

-- Events

/-- A scope asked for by an invite. -/
structure ScopeAsked where
  scope : String
  scopeBase : String
  roleBase : String
  deriving DecidableEq

/-- What a signature covers: the message hashed by `stableContextHash`, or by
`#stableWriterChangeHash`.
-/
inductive Signed
  | writer (key member : String) (context : Option String) (author : String) (timestamp : Nat)
  | role (member role : String) (context : Option String) (author : String) (timestamp : Nat)
  | invite (inviteKey role : String) (uses : Nat) (asked : Option ScopeAsked)
      (context : Option String) (author : String) (timestamp : Nat)
  | redeem (inviteKey member key : String) (encryptionKey : Option String)
      (context : Option String) (timestamp : Nat)
  | change (op key author : String) (timestamp : Nat)
  deriving DecidableEq

/-- The governance events, as decoded: texts that may be empty, `none` for a field that isn't
there.
-/
inductive GovernanceEvent
  | contextWriter (key member author : String) (timestamp : Nat) (signature : Option String)
  | contextRole (member role author : String) (timestamp : Nat) (signature : Option String)
  | contextInvite (inviteKey role : String) (uses : Nat) (author : String) (timestamp : Nat)
      (signature : Option String) (asked : Option ScopeAsked)
  | contextRedeem (inviteKey member key : String) (timestamp : Nat)
      (signature memberSignature encryptionKey : Option String)
  | addWriter (key : String)
  | rolesAddWriter (key : String) (author : Option String) (timestamp : Nat)
      (signature : Option String)
  | rolesRemoveWriter (key : String) (author : Option String) (timestamp : Nat)
      (signature : Option String)
  deriving DecidableEq

/-- A node of the log: whose it is, and whether that one was no writer yet. -/
structure Node where
  event : GovernanceEvent
  from_ : Key
  optimistic : Bool := false
  deriving DecidableEq

-- The state

structure Invite where
  role : String
  uses : Nat
  used : Nat := 0
  revoked : Bool := false
  author : String
  asked : Option ScopeAsked := none
  deriving DecidableEq

/-- What a redemption leaves for the holder of a scope's key. -/
structure ScopeRequest where
  asked : ScopeAsked
  member : String
  encryptionKey : String
  minter : String
  deriving DecidableEq

/-- The view's governance entries, and the writers. -/
structure Governance (W : Type) where
  /-- `meta:roles`. -/
  roles : Option Registry := none
  /-- `w:m:<writer>`: the member a writer is of. -/
  memberOf : Table String String := ∅
  /-- `w:k:<member>:<writer>`. -/
  linked : Table String Unit := ∅
  /-- `inv:<key>`. -/
  invites : Table String Invite := ∅
  /-- `sg:<member>:<scope>`. -/
  requests : Table String ScopeRequest := ∅
  writers : W

def defaultRoleTable (owner : String) : Registry :=
  let table := initRegistry owner
  { table with
    roles := table.roles.map fun role =>
      if role.1 = "admin" then (role.1, role.2.map (· ++ ["context.index"])) else role }

def canIn (table : Option Registry) (pubkeyHex action : String) : Bool :=
  match table with
  | some table => table.can pubkeyHex action
  | none => false

/-- `table.members[member] || null`. -/
def Registry.current (table : Registry) (member : String) : Option Listed :=
  match Js.lookup table.members member with
  | .own listed => if listed.truthy then some listed else none
  | .inherited => some (.other true (inheritedText member))
  | .undefined => none

def minor (current : Option Listed) : Bool :=
  current = none || current = some (.role "mod") || current = some (.role "member")

/-- May `author` set `member`'s role to `role` (`''` removes it)? -/
def mayAssign (table : Option Registry) (author member role : String) : Bool :=
  match table with
  | none => false
  | some table =>
      let current := table.current member
      if table.can author "*" then
        !(member = author && current = some (.role "owner") && role ≠ "owner")
      else if role = "" then minor current && table.can author "mod.remove"
      else (role = "mod" || role = "member") && minor current && table.can author "mod.add"

/-- What an event makes of the role table. -/
def roleEvent (member role : String) : RegistryEvent :=
  if role ≠ "" then .setRole (some member) (some role) else .removeMember (some member)

-- Applying an event

/-- What a peer applies a context with: its Autobase, what signatures verify, the context's key in
hex, and whether its write mode is closed.
-/
structure Peer (W : Type) where
  autobase : Autobase W
  /-- `hypercoreCrypto.verify` of a message's hash, a signature and a public key. -/
  verify : Signed → Bytes → Bytes → Bool
  contextKey : Option String
  closed : Bool

namespace Governance

variable {W : Type} (peer : Peer W) (s : Governance W)

/-- `#verifyContextSignature`, `#verifyWriterChangeSignature`. -/
def verifies (message : Signed) (author : String) (signature : Option String) : Bool :=
  match required signature with
  | some signature => author ≠ "" && peer.verify message (fromHex signature) (fromHex author)
  | none => false

def linkWriter (writerHex member : String) : Governance W :=
  { s with
    memberOf := s.memberOf.insert writerHex member
    linked := s.linked.insert (member ++ ":" ++ writerHex) () }

def addWriter (key : Key) (indexer : Bool) : Governance W :=
  { s with writers := peer.autobase.addWriter s.writers key indexer }

def removeWriter (key : Key) : Governance W :=
  match peer.autobase.removeWriter s.writers key with
  | none => s
  | some writers => { s with writers }

/-- `#writersOf`: the entries from `w:k:<member>:` up to that and U+FFFF. -/
def writersOf (member : String) : List Key :=
  let start := member.toList ++ [':']
  s.linked.keys.filterMap fun name =>
    if start.isPrefixOf name.toList then
      let rest := name.toList.drop start.length
      if rest.head?.all (· < '\uffff') then some (hexBytes rest) else none
    else none

def applyContextWriter (key member author : String) (timestamp : Nat) (signature : Option String)
    : Governance W :=
  if key = "" then s
  else if ¬ verifies peer (.writer key member peer.contextKey author timestamp) author signature then s
  else if peer.closed ∧ ¬ canIn s.roles author "context.write" then s
  else
    let linked := if member ≠ "" then s.linkWriter key member else s
    linked.addWriter peer (fromHex key)
      (if member ≠ "" then canIn s.roles member "context.index" else false)

def applyContextRole (member role author : String) (timestamp : Nat) (signature : Option String)
    : Governance W :=
  if member = "" then s
  else if ¬ verifies peer (.role member role peer.contextKey author timestamp) author signature then s
  else if ¬ mayAssign s.roles author member role then s
  else
    match applyRoleEvent s.roles (roleEvent member role) with
    | none => s
    | some next =>
        let before := canIn s.roles member "context.index"
        let after := next.can member "context.index"
        let writers := if before = after then [] else s.writersOf member
        if before ∧ ¬ after ∧ ¬ writers.all (peer.autobase.removeable s.writers) then s
        else
          writers.foldl (fun s key => s.addWriter peer key after) { s with roles := some next }

/-- `HEX64` of both bases of a scope asked for, where one is. -/
def askedFine (asked : Option ScopeAsked) : Bool :=
  asked.all fun asked => isHex64 asked.scopeBase && isHex64 asked.roleBase

/-- The scope an event asks for, if its name isn't empty. -/
def askedOf (asked : Option ScopeAsked) : Option ScopeAsked := asked.filter (·.scope ≠ "")

def applyContextInvite (inviteKey role : String) (uses : Nat) (author : String) (timestamp : Nat)
    (signature : Option String) (asked : Option ScopeAsked) : Governance W :=
  let message := .invite inviteKey role uses (askedOf asked) peer.contextKey author timestamp
  if length inviteKey ≠ 64 then s
  else if ¬ verifies peer message author signature then s
  else if uses = 0 then
    match s.invites[inviteKey]? with
    | none => s
    | some inv =>
        if inv.author ≠ author ∧ ¬ mayAssign s.roles author "" inv.role then s
        else { s with invites := s.invites.insert inviteKey { inv with revoked := true } }
  else if s.invites[inviteKey]?.isSome then s
  else
    let role := if role ≠ "" then role else "member"
    if role = "owner" then s
    else if ¬ mayAssign s.roles author "" role then s
    else if ¬ askedFine (askedOf asked) then s
    else { s with invites := s.invites.insert inviteKey { role, uses, author, asked := askedOf asked } }

/-- Is a redemption signed with the invite's key and by the member? -/
def redeems (inviteKey member key : String) (timestamp : Nat)
    (signature memberSignature encryptionKey : Option String) : Bool :=
  let message := .redeem inviteKey member key (encryptionKey.filter (· ≠ "")) peer.contextKey timestamp
  match signature, memberSignature with
  | some signature, some memberSignature =>
      peer.verify message (fromHex signature) (fromHex inviteKey)
        && peer.verify message (fromHex memberSignature) (fromHex member)
  | _, _ => false

/-- The role table once a member has an invite's role, if it has none yet. -/
def given (table : Registry) (member role : String) : Registry :=
  if (table.current member).isSome then table
  else (applyRoleEvent (some table) (.setRole (some member) (some role))).getD table

/-- What a redemption asks of the holder of its invite's scope's key. -/
def request (inv : Invite) (member : String) (encryptionKey : Option String) : Option ScopeRequest := do
  let asked ← inv.asked
  let encryptionKey ← encryptionKey.filter isHex64
  some { asked, member, encryptionKey, minter := inv.author }

def applyContextRedeem (inviteKey member key : String) (timestamp : Nat)
    (signature memberSignature encryptionKey : Option String) (from_ : Key) (optimistic : Bool)
    : Governance W :=
  if key ≠ toHex from_ then s
  else if member = "" then s
  else
    match s.invites[inviteKey]? with
    | none => s
    | some inv =>
        if inv.revoked ∨ inv.uses ≤ inv.used then s
        else if ¬ redeems peer inviteKey member key timestamp signature memberSignature encryptionKey
          then s
        else
          match s.roles with
          -- No invite is minted before there is a table.
          | none => s
          | some table =>
              let table := given table member inv.role
              let s := { s with
                invites := s.invites.insert inviteKey { inv with used := inv.used + 1 }
                roles := some table }
              let s := s.linkWriter key member
              let s := match request inv member encryptionKey with
                | none => s
                | some request =>
                    { s with requests :=
                        s.requests.insert (member ++ ":" ++ request.asked.scope) request }
              let s := if optimistic then
                  { s with writers := peer.autobase.ackWriter s.writers from_ }
                else s
              s.addWriter peer from_ (table.can member "context.index")

/-- `roles/addWriter` and `roles/removeWriter` are open to all, or in closed mode to those who may
write.
-/
def mayChange (op key : String) (author : Option String) (timestamp : Nat) (signature : Option String)
    : Bool :=
  !peer.closed || (key ≠ "" && author.any fun author =>
    verifies peer (.change op key author timestamp) author signature
      && canIn s.roles author "context.write")

/-- A node applied. -/
def apply (node : Node) : Governance W :=
  match node.event with
  | .contextRedeem inviteKey member key timestamp signature memberSignature encryptionKey =>
      s.applyContextRedeem peer inviteKey member key timestamp signature memberSignature encryptionKey
        node.from_ node.optimistic
  | .contextInvite inviteKey role uses author timestamp signature asked =>
      if node.optimistic then s
      else s.applyContextInvite peer inviteKey role uses author timestamp signature asked
  | .addWriter key =>
      if node.optimistic then s
      else if peer.closed then s
      else s.addWriter peer (fromHex key) false
  | .contextWriter key member author timestamp signature =>
      if node.optimistic then s
      else s.applyContextWriter peer key member author timestamp signature
  | .contextRole member role author timestamp signature =>
      if node.optimistic then s
      else s.applyContextRole peer member role author timestamp signature
  | .rolesAddWriter key author timestamp signature =>
      if node.optimistic then s
      else if ¬ s.mayChange peer "roles/addWriter" key author timestamp signature then s
      else s.addWriter peer (fromHex key) false
  | .rolesRemoveWriter key author timestamp signature =>
      if node.optimistic then s
      else if ¬ s.mayChange peer "roles/removeWriter" key author timestamp signature then s
      else
        match peer.autobase.removeWriter s.writers (fromHex key) with
        | none => s
        | some writers => { s with writers }

def run (log : List Node) : Governance W := log.foldl (apply peer) s

/-- A context's start (`#startRoleTable`): its creator is the owner, and the creator's writer is
linked to it. Others write already where an older context was upgraded.
-/
def start (owner : String) (bootstrapKey : Key) (writers : W) : Governance W :=
  let s : Governance W := { roles := some (defaultRoleTable owner), writers }
  s.linkWriter (toHex bootstrapKey) owner

/-- A context upgraded: of those who indexed, the creator's writer goes on. -/
def upgraded (owner : String) (bootstrapKey : Key) (indexers : List Key) (writers : W)
    : Governance W :=
  indexers.foldl (fun s key => if key = bootstrapKey then s else s.addWriter peer key false)
    (start owner bootstrapKey writers)

-- What a node makes

/-- The state once a redemption of an invite counts. -/
def redeemed (table : Registry) (inv : Invite) (inviteKey member key : String)
    (encryptionKey : Option String) (from_ : Key) (optimistic : Bool) : Governance W :=
  let s : Governance W := { s with
    invites := s.invites.insert inviteKey { inv with used := inv.used + 1 }
    roles := some (given table member inv.role) }
  let s := s.linkWriter key member
  let s := match request inv member encryptionKey with
    | none => s
    | some request =>
        { s with requests := s.requests.insert (member ++ ":" ++ request.asked.scope) request }
  let s := if optimistic then { s with writers := peer.autobase.ackWriter s.writers from_ } else s
  s.addWriter peer from_ ((given table member inv.role).can member "context.index")

section Redeemed

variable (table : Registry) (inv : Invite) (inviteKey member key : String)
  (encryptionKey : Option String) (from_ : Key) (optimistic : Bool)

theorem roles_redeemed
    : (s.redeemed peer table inv inviteKey member key encryptionKey from_ optimistic).roles
      = some (given table member inv.role) := by
  rw [redeemed]
  cases request inv member encryptionKey <;> cases optimistic <;> rfl

theorem memberOf_redeemed
    : (s.redeemed peer table inv inviteKey member key encryptionKey from_ optimistic).memberOf
      = s.memberOf.insert key member := by
  rw [redeemed]
  cases request inv member encryptionKey <;> cases optimistic <;> rfl

theorem linked_redeemed
    : (s.redeemed peer table inv inviteKey member key encryptionKey from_ optimistic).linked
      = s.linked.insert (member ++ ":" ++ key) () := by
  rw [redeemed]
  cases request inv member encryptionKey <;> cases optimistic <;> rfl

theorem writers_redeemed
    : (s.redeemed peer table inv inviteKey member key encryptionKey from_ optimistic).writers
      = peer.autobase.addWriter
        (if optimistic then peer.autobase.ackWriter s.writers from_ else s.writers) from_
        ((given table member inv.role).can member "context.index") := by
  rw [redeemed]
  cases request inv member encryptionKey <;> cases optimistic <;> rfl

end Redeemed

/-- What a node makes of the state: each way something changes, with what the author had to be
allowed.
-/
inductive Made (node : Node) : Governance W → Prop
  | nothing : Made node s
  | linked {key member author : String} {timestamp : Nat} {signature : Option String}
    : node.event = .contextWriter key member author timestamp signature → key ≠ ""
      → verifies peer (.writer key member peer.contextKey author timestamp) author signature = true
      → (peer.closed = true → canIn s.roles author "context.write" = true)
      → member ≠ "" → node.optimistic = false
      → Made node ((s.linkWriter key member).addWriter peer (fromHex key)
        (canIn s.roles member "context.index"))
  | unlinked {key author : String} {timestamp : Nat} {signature : Option String}
    : node.event = .contextWriter key "" author timestamp signature
      → verifies peer (.writer key "" peer.contextKey author timestamp) author signature = true
      → (peer.closed = true → canIn s.roles author "context.write" = true) → node.optimistic = false
      → Made node (s.addWriter peer (fromHex key) false)
  | role {member role author : String} {timestamp : Nat} {signature : Option String}
      {table next : Registry}
    : node.event = .contextRole member role author timestamp signature → member ≠ ""
      → s.roles = some table → mayAssign s.roles author member role = true
      → applyRoleEvent (some table) (roleEvent member role) = some next
      → verifies peer (.role member role peer.contextKey author timestamp) author signature = true
      → node.optimistic = false
      → Made node
        ((if table.can member "context.index" = next.can member "context.index" then []
            else s.writersOf member).foldl
          (fun s key => s.addWriter peer key (next.can member "context.index"))
          { s with roles := some next })
  | invite {inviteKey : String} {inv : Invite}
    : Made node { s with invites := s.invites.insert inviteKey inv }
  | redeem {inviteKey member key : String} {timestamp : Nat}
      {signature memberSignature encryptionKey : Option String} {inv : Invite} {table : Registry}
    : node.event
        = .contextRedeem inviteKey member key timestamp signature memberSignature encryptionKey
      → key = toHex node.from_ → member ≠ "" → s.invites[inviteKey]? = some inv
      → redeems peer inviteKey member key timestamp signature memberSignature encryptionKey = true
      → s.roles = some table → ¬ (inv.revoked = true ∨ inv.uses ≤ inv.used)
      → Made node (s.redeemed peer table inv inviteKey member key encryptionKey node.from_
        node.optimistic)
  | opened {key : String}
    : node.event = .addWriter key → peer.closed = false → node.optimistic = false
      → Made node (s.addWriter peer (fromHex key) false)
  | added {key : String} {author : Option String} {timestamp : Nat} {signature : Option String}
    : node.event = .rolesAddWriter key author timestamp signature
      → s.mayChange peer "roles/addWriter" key author timestamp signature = true
      → node.optimistic = false → Made node (s.addWriter peer (fromHex key) false)
  | removed {key : String} {author : Option String} {timestamp : Nat} {signature : Option String}
      {writers : W}
    : node.event = .rolesRemoveWriter key author timestamp signature
      → s.mayChange peer "roles/removeWriter" key author timestamp signature = true
      → peer.autobase.removeWriter s.writers (fromHex key) = some writers
      → node.optimistic = false → Made node { s with writers }

variable {peer s}

theorem Made.ite {node : Node} {turned : Prop} [Decidable turned] {s' : Governance W}
    (otherwise : ¬ turned → Made peer s node s')
    : Made peer s node (if turned then s else s') := by
  split
  · exact .nothing
  · rename_i passes
    exact otherwise passes

theorem made_contextWriter {node : Node} {key member author : String} {timestamp : Nat}
    {signature : Option String} (is : node.event = .contextWriter key member author timestamp signature)
    (plain : node.optimistic = false)
    : Made peer s node (s.applyContextWriter peer key member author timestamp signature) := by
  refine .ite fun empty => .ite fun signed => .ite fun may => ?_
  by_cases of : member = ""
  · subst of
    exact .unlinked is (by simpa using signed) (by simpa using may) plain
  · simp only [of, ne_eq, not_false_eq_true, if_true]
    exact .linked is empty (by simpa using signed) (by simpa using may) of plain

theorem made_contextRole {node : Node} {member role author : String} {timestamp : Nat}
    {signature : Option String} (is : node.event = .contextRole member role author timestamp signature)
    (plain : node.optimistic = false)
    : Made peer s node (s.applyContextRole peer member role author timestamp signature) := by
  refine .ite fun named => .ite fun signed => .ite fun may => ?_
  cases roles : s.roles with
  | none => simp [mayAssign, roles] at may
  | some table =>
      cases made : applyRoleEvent (some table) (roleEvent member role) with
      | none => exact .nothing
      | some next =>
          exact .ite fun _ => .role is named roles (by simpa using may) made (by simpa using signed) plain

theorem made_contextInvite {node : Node} {inviteKey role author : String} {uses timestamp : Nat}
    {signature : Option String} {asked : Option ScopeAsked}
    : Made peer s node (s.applyContextInvite peer inviteKey role uses author timestamp signature asked) := by
  refine .ite fun _ => .ite fun _ => ?_
  by_cases revoke : uses = 0
  · simp only [revoke, if_true]
    cases s.invites[inviteKey]? with
    | none => exact .nothing
    | some inv => exact .ite fun _ => .invite
  · simp only [revoke, if_false]
    exact .ite fun _ => .ite fun _ => .ite fun _ => .ite fun _ => .invite

theorem made_contextRedeem {node : Node} {inviteKey member key : String} {timestamp : Nat}
    {signature memberSignature encryptionKey : Option String}
    (is : node.event
      = .contextRedeem inviteKey member key timestamp signature memberSignature encryptionKey)
    : Made peer s node (s.applyContextRedeem peer inviteKey member key timestamp signature
      memberSignature encryptionKey node.from_ node.optimistic) := by
  refine .ite fun own => .ite fun named => ?_
  cases at_ : s.invites[inviteKey]? with
  | none => exact .nothing
  | some inv =>
      refine .ite fun left => .ite fun signed => ?_
      cases roles : s.roles with
      | none => exact .nothing
      | some table => exact .redeem is (by simpa using own) named at_ (by simpa using signed) roles left

theorem made_apply (node : Node) : Made peer s node (s.apply peer node) := by
  rw [apply]
  cases is : node.event with
  | contextRedeem => exact made_contextRedeem is
  | contextWriter => exact .ite fun plain => made_contextWriter is (by simpa using plain)
  | contextRole => exact .ite fun plain => made_contextRole is (by simpa using plain)
  | contextInvite => exact .ite fun _ => made_contextInvite
  | addWriter =>
      exact .ite fun plain => .ite fun open_ => .opened is (by simpa using open_) (by simpa using plain)
  | rolesAddWriter =>
      exact .ite fun plain => .ite fun may => .added is (by simpa using may) (by simpa using plain)
  | rolesRemoveWriter key =>
      refine .ite fun plain => .ite fun may => ?_
      cases removed : peer.autobase.removeWriter s.writers (fromHex key) with
      | none => exact .nothing
      | some writers => exact .removed is (by simpa using may) removed (by simpa using plain)

theorem foldl_addWriter (keys : List Key) (indexer : Bool)
    : ∃ writers, keys.foldl (fun s key => s.addWriter peer key indexer) s
        = { s with writers := writers } := by
  induction keys generalizing s with
  | nil => exact ⟨s.writers, rfl⟩
  | cons key rest ih => exact ih

/-- There is a role table, of version 1. -/
def HasTable (s : Governance W) : Prop := ∃ table, s.roles = some table ∧ table.version = 1

/-- What an event makes of a table of version 1. -/
def assign (table : Registry) (member role : String) : Registry :=
  { table with
    members :=
      if role ≠ "" then Js.set table.members member (.role role) else Js.delete table.members member }

theorem applyRoleEvent_roleEvent {table : Registry} {member role : String}
    (version : table.version = 1) (named : member ≠ "")
    : applyRoleEvent (some table) (roleEvent member role) = some (assign table member role) := by
  by_cases role_ : role = ""
  · simp [roleEvent, role_, Registry.applyRoleEvent_removeMember, version, named, assign]
  · simp [roleEvent, role_, Registry.applyRoleEvent_setRole, version, named, assign]

theorem lookup_assign_of_ne {table : Registry} {member role name : String} (apart : name ≠ member)
    : Js.lookup (assign table member role).members name = Js.lookup table.members name := by
  by_cases role_ : role = ""
  · simp [assign, role_, Registry.lookup_delete_of_ne apart]
  · simp [assign, role_, Registry.lookup_set_of_ne apart]

theorem lookup_given_of_ne {table : Registry} {member role name : String} (apart : name ≠ member)
    : Js.lookup (given table member role).members name = Js.lookup table.members name := by
  rw [given, Registry.applyRoleEvent_setRole]
  split
  · rfl
  · split
    · exact Registry.lookup_set_of_ne apart
    · rfl

theorem roles_given {table : Registry} {member role : String}
    : (given table member role).roles = table.roles := by
  rw [given, Registry.applyRoleEvent_setRole]
  split
  · rfl
  · split <;> rfl

theorem version_given {table : Registry} {member role : String} (version : table.version = 1)
    : (given table member role).version = 1 := by
  rw [given]
  split
  · exact version
  · cases made : applyRoleEvent (some table) (.setRole (some member) (some role)) with
    | none => exact version
    | some next => exact Registry.version_of_applyRoleEvent made

/-- Every node leaves a role table of version 1. -/
theorem Made.hasTable {node : Node} {s' : Governance W} (made : Made peer s node s')
    (has : HasTable s)
    : HasTable s' := by
  obtain ⟨table, roles, version⟩ := has
  cases made with
  | role _ _ is _ made _ _ =>
      obtain ⟨writers, after⟩ := foldl_addWriter _ _
      exact ⟨_, congrArg Governance.roles after, Registry.version_of_applyRoleEvent made⟩
  | redeem _ _ _ _ _ is _ =>
      obtain rfl := Option.some.inj (roles.symm.trans is)
      exact ⟨_, roles_redeemed .., version_given version⟩
  | nothing | linked | unlinked | invite | opened | added | removed => exact ⟨table, roles, version⟩

theorem HasTable.run (has : HasTable s) (log : List Node) : HasTable (s.run peer log) := by
  induction log generalizing s with
  | nil => exact has
  | cons node rest ih => exact ih ((made_apply node).hasTable has)

theorem hasTable_start (owner : String) (bootstrapKey : Key) (writers : W)
    : HasTable (start owner bootstrapKey writers) :=
  ⟨defaultRoleTable owner, rfl, rfl⟩

/-- Someone's public key, in hex. -/
def someone (n : UInt8) : String := toHex (List.replicate 32 n)

/-- A closed context's peer, with the writers in a list; a public key signs with itself. -/
def closedPeer : Peer (List (Key × Bool)) where
  autobase := .inList
  verify _ signature publicKey := signature == publicKey
  contextKey := none
  closed := true

end Governance

end Hypergraph.Engine
