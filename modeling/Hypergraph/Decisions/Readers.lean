import Hypergraph.Decisions.Names
import Hypergraph.Decisions.State

/-! What readers ask: a space's state kept from the view's entries, key by key
(`lib/decisions/state.js`, `State`), and a sub-space's worked out from its parent's and its own
(`SubState`). A JavaScript `Map` is the function of what it answers, so the order it lists its
keys in is left out.
-/

namespace Hypergraph.Decisions.Readers

open Wire Js Encodings

-- One scope's maps

/-- What of a member's entry is kept. -/
structure Kept where
  role : String
  by_ : Key
  stamp : Nat
  deriving DecidableEq, Repr

def kept (entry : Member) : Kept := ⟨entry.role, entry.by_, entry.stamp⟩

/-- The maps of a `State`, but for `scoped` and what is made on first use. -/
structure Maps where
  metaOf : Option Meta := none
  members : Text → Option Kept := fun _ => none
  writers : Text → Option Key := fun _ => none
  writerInfo : Text → Option Writer := fun _ => none
  gone : Text → Option Unit := fun _ => none
  revoked : Text → Option Recorded := fun _ => none
  cuts : Text → Option Lengths := fun _ => none
  admits : Text → Option Key := fun _ => none
  editcuts : Text → Option Perms := fun _ => none
  roles : Text → Option (List String) := fun _ => none
  banned : Text → Option Ban := fun _ => none
  moderated : Text → Option Moderation := fun _ => none
  epochs : Option Epochs := none
  subspaces : Text → Option Subspace := fun _ => none
  listed : Text → Option Key := fun _ => none
  typesVersion : Nat := 0
  typeVersions : Nat → Option String := fun _ => none

-- A value read as what its key says it is.

def asMeta : Value → Option Meta
  | .settings entry => some entry
  | _ => none

def asMember : Value → Option Kept
  | .member entry => some (kept entry)
  | _ => none

def asWriter : Value → Option Writer
  | .writer entry => some entry
  | _ => none

def asGone : Value → Option Unit
  | .gone _ => some ()
  | _ => none

def asRevoked : Value → Option Recorded
  | .revoked entry => some entry
  | _ => none

def asLogs : Value → Option Lengths
  | .cut entry => some entry.logs
  | _ => none

def asCode : Value → Option Key
  | .admitted code => some code
  | _ => none

def asPerms : Value → Option Perms
  | .editcut perms => some perms
  | _ => none

def asPermissions : Value → Option (List String)
  | .role entry => some entry.permissions
  | _ => none

def asBan : Value → Option Ban
  | .banned entry => some entry
  | _ => none

def asModeration : Value → Option Moderation
  | .mod entry => some entry
  | _ => none

def asEpochs : Value → Option Epochs
  | .epochs entry => some entry
  | _ => none

def asSubspace : Value → Option Subspace
  | .subspace entry => some entry
  | _ => none

def asListed : Value → Option Key
  | .listed space => some space
  | _ => none

def asVersion : Value → Option Nat
  | .types version => some version
  | _ => none

def asDeclaration : Value → Option String
  | .declaration text => some text
  | _ => none

/-- `key.startsWith(start)`. -/
def startsWith (key : Text) (start : String) : Bool := start.toList.isPrefixOf key

/-- The maps of `FIELDS`, by the part of a key up to its first colon. -/
def Maps.field (m : Maps) (family : Text) (key : Text) (value : Option Value) : Maps :=
  if family = "subspace:".toList then
    { m with subspaces := Function.update m.subspaces key (value.bind asSubspace) }
  else if family = "revoked:".toList then
    { m with revoked := Function.update m.revoked key (value.bind asRevoked) }
  else if family = "cut:".toList then
    { m with cuts := Function.update m.cuts key (value.bind asLogs) }
  else if family = "admit:".toList then
    { m with admits := Function.update m.admits key (value.bind asCode) }
  else if family = "editcut:".toList then
    { m with editcuts := Function.update m.editcuts key (value.bind asPerms) }
  else if family = "role:".toList then
    { m with roles := Function.update m.roles key (value.bind asPermissions) }
  else if family = "banned:".toList then
    { m with banned := Function.update m.banned key (value.bind asBan) }
  else if family = "mod:".toList then
    { m with moderated := Function.update m.moderated key (value.bind asModeration) }
  else m

/-- `key.indexOf(':') + 1`. -/
def colonAt (key : Text) : Nat :=
  match key.findIdx? (· = ':') with
  | some i => i + 1
  | none => 0

/-- One entry of a scope, put (`some`) or deleted (`none`). -/
def Maps.apply (m : Maps) (key : Text) (value : Option Value) : Maps :=
  if key = "meta".toList then { m with metaOf := value.bind asMeta }
  else if key = "epochs".toList then { m with epochs := value.bind asEpochs }
  else if key = "types".toList then { m with typesVersion := (value.bind asVersion).getD 0 }
  else if startsWith key "types:" then
    { m with
      typeVersions := Function.update m.typeVersions (Nat.ofDigitChars 10 (key.drop 6) 0)
        (value.bind asDeclaration) }
  else if startsWith key "writer:" then
    { m with
      writers := Function.update m.writers (key.drop 7) ((value.bind asWriter).map Writer.identity)
      writerInfo := Function.update m.writerInfo (key.drop 7) (value.bind asWriter) }
  else if startsWith key "member:" then
    { m with members := Function.update m.members (key.drop 7) (value.bind asMember) }
  else if startsWith key "listed:" then
    { m with listed := Function.update m.listed (key.drop 7) (value.bind asListed) }
  else if startsWith key "gone:" then
    { m with gone := Function.update m.gone (key.drop 5) (value.bind asGone) }
  else m.field (key.take (colonAt key)) (key.drop (colonAt key)) value

-- A state as it counts

/-- A `State`, or a `SubState` made from the root's maps, its parent and its own entries. -/
inductive Standing
  | state (maps : Maps)
  | sub (root : Maps) (info : Subspace) (up : Standing) (own : Maps) (metaOf : Option Meta)

/-- `text || other`. -/
def orText (text : Option String) (other : String) : String :=
  (text.filter (· ≠ "")).getD other

namespace Standing

def metaOf : Standing → Option Meta
  | state maps => maps.metaOf
  | sub _ _ _ _ metaOf => metaOf

def policy (s : Standing) : String := orText (s.metaOf.bind Meta.policy) "auto"

def rules (s : Standing) : Option (List String) := s.metaOf.bind Meta.rules

def writeLimit (s : Standing) : Option WriteLimit := s.metaOf.bind Meta.writeLimit

def history (s : Standing) : String := orText (s.metaOf.bind Meta.history) "visible"

def helpers (s : Standing) : List String := (s.metaOf.bind Meta.helpers).getD []

def pub (s : Standing) : Bool := s.metaOf.any Meta.pub

/-- The name, the owner and whether it is private: a sub-space's own, but the root's owner. -/
def name : Standing → Option String
  | state maps => maps.metaOf.bind Meta.name
  | sub _ info _ _ _ => some info.name

def owner : Standing → Option Key
  | state maps => maps.metaOf.bind Meta.owner
  | sub root _ _ _ _ => root.metaOf.bind Meta.owner

def priv : Standing → Bool
  | state maps => maps.metaOf.any Meta.priv
  | sub _ info _ _ _ => info.priv

/-- The root's maps, and the scope's own. -/
def root : Standing → Maps
  | state maps => maps
  | sub root _ _ _ _ => root

def own : Standing → Maps
  | state maps => maps
  | sub _ _ _ own _ => own

/-- `_banned`. -/
def bannedAt : Standing → Text → Bool
  | state maps, id => (maps.banned id).isSome
  | sub _ _ up own _, id => (own.banned id).isSome || bannedAt up id

/-- `_member`. -/
def memberAt : Standing → Text → Option Kept
  | state maps, id => maps.members id
  | sub root info up own m, id =>
      if bannedAt (sub root info up own m) id then none
      else
        match own.members id with
        | some member => some member
        | none => (memberAt up id).filter fun member =>
            !info.priv || member.role = "owner" || member.role = "admin"

/-- `_cut`. -/
def cutOf : Standing → Text → Option Lengths
  | state maps, id => maps.cuts id
  | sub _ _ up own _, id =>
      match own.cuts id with
      | some mine => some (lowest ((cutOf up id).getD []) mine)
      | none => cutOf up id

/-- `_admit`. -/
def admitOf : Standing → Text → Option Key
  | state maps, id => maps.admits id
  | sub _ _ up own _, id => (own.admits id).or (admitOf up id)

/-- `_editcut`. -/
def editcutOf : Standing → Text → Option Perms
  | state maps, id => maps.editcuts id
  | sub _ _ up own _, id =>
      match own.editcuts id with
      | none => editcutOf up id
      | some mine =>
          let above := (editcutOf up id).getD []
          some (spread above (mine.map fun (p, logs) =>
            (p, lowest ((above.lookup p).getD []) logs)))

variable (s : Standing)

def isRecorded (id : Key) : Bool := (s.memberAt (hex id)).isSome

def isBanned (id : Key) : Bool := s.bannedAt (hex id)

def roleOf (id : Key) : Option String :=
  match s.memberAt (hex id) with
  | some member => some member.role
  | none => if s.pub && !s.bannedAt (hex id) then some "member" else none

/-- The custom roles, by their names. -/
def custom : Custom := fun name => s.root.roles name.toList

def can (id : Key) (permission : String) : Bool := holds (s.roleOf id) permission s.custom

def canWrite (id : Key) : Bool :=
  s.can id "post"
    && match s with
      | state _ => true
      | sub _ info _ _ _ =>
          let role := s.roleOf id
          info.writeRoles = [] || role = some "owner" || role = some "admin"
            || role.any info.writeRoles.contains

def limitOf (id log : Key) : ℕ∞ :=
  match (s.cutOf (hex id)).bind fun logs => logs.lookup log with
  | some length => length
  | none => if s.canWrite id then ⊤ else 0

def editLimit (id : Key) (permission : String) (log : Key) : ℕ∞ :=
  match (s.editcutOf (hex id)).bind fun perms =>
      (perms.lookup permission).bind fun logs => logs.lookup log with
  | some length => length
  | none => if s.can id permission then ⊤ else 0

def isCut (id log : Key) : Bool :=
  ((s.cutOf (hex id)).bind fun logs => logs.lookup log).isSome

def mustAdmit (id log : Key) : Bool :=
  if (s.memberAt (hex id)).isNone && s.pub then false
  else (s.cutOf (hex id)).isSome && !s.isCut id log

def admission (id : Key) : Option Key := s.admitOf (hex id)

def moderation (target : Key) : Moderation := (s.own.moderated (hex target)).getD {}

def isRevoked (inviteId : Key) : Bool := (s.own.revoked (hex inviteId)).isSome

def keys : Option Epochs := s.own.epochs

def isGone (id device : Key) : Bool := (s.root.gone (hex id ++ ':' :: hex device)).isSome

def writer (key : Key) : Option Writer := s.root.writerInfo (hex key)

def identityOfWriter (key : Key) : Option Key := s.root.writers (hex key)

/-- The writer keys of one device of an identity. -/
def writersOfDevice (id device : Key) : Set Text :=
  {key | ∃ w, s.root.writerInfo key = some w ∧ w.identity = id ∧ w.device = some device}

end Standing

-- `State`

/-- A `State`: its own maps, each sub-space's own entries (`scoped`, here `scoped_`), the sub-states made since
the last change (`_subs`), and the types declaration parsed last, with its version (`_types`).
The entries of `scoped_` have no scoped ones again: those all stand at the top.
-/
structure State where
  maps : Maps := {}
  scoped_ : Text → Option Maps := fun _ => none
  subs : Text → Option Standing := fun _ => none
  parsed : Option (Nat × String) := none

namespace State

/-- One entry of the view, put or deleted. -/
def apply (s : State) (key : Text) (value : Option Value) : State :=
  let s := { s with subs := fun _ => none }
  if startsWith key "sub:" then
    let scope := (key.drop 4).take 64
    { s with
      scoped_ := Function.update s.scoped_ scope
        (some (((s.scoped_ scope).getD {}).apply (key.drop 69) value)) }
  else { s with maps := s.maps.apply key value }

/-- `State.from`. -/
def ofEntries (entries : List (Text × Value)) : State :=
  entries.foldl (fun s (key, value) => s.apply key (some value)) {}

/-- The `SubState` of a sub-space, its parent's state given. -/
def subState (s : State) (key : Text) (info : Subspace) (parent : Standing) : Standing :=
  let own := (s.scoped_ key).getD {}
  let ownMeta := own.metaOf.getD {}
  .sub s.maps info parent own (parent.metaOf.map fun above =>
    { above with
      name := some info.name
      priv := info.priv
      parent := info.parent
      policy := some (orText ownMeta.policy parent.policy)
      rules := ownMeta.rules.or parent.rules
      writeLimit := ownMeta.writeLimit
      history := some (orText ownMeta.history "visible")
      pub := ownMeta.pub })

/-- `sub(key)`, with so many calls inside one another at most: made on first use, its parent's
first; a parent that is no sub-space has no `meta` to read.
-/
def sub : Nat → State → Text → Run (Option Standing × State)
  | fuel, s, key =>
      match s.maps.subspaces key with
      | none => return (none, s)
      | some info =>
          match s.subs key with
          | some made => return (some made, s)
          | none =>
              match fuel with
              | 0 => throw .endless
              | fuel + 1 => do
                  let (parent, s) ← match info.parent with
                    | none => pure (Standing.state s.maps, s)
                    | some up => do
                        match ← sub fuel s (hex up) with
                        | (none, _) => throw .nullValue
                        | (some above, s) => pure (above, s)
                  let made := s.subState key info parent
                  return (some made, { s with subs := Function.update s.subs key (some made) })

/-- `sub(key)` ends with this, and the state is left so. -/
def Gives (s : State) (key : Text) (found : Option Standing) (after : State) : Prop :=
  ∃ fuel, sub fuel s key = .ok (found, after)

/-- `types`: the latest declaration, parsed once for each version. What is kept of it is its
text, which `JSON.parse` makes the same of.
-/
def types (s : State) : Option String × State :=
  match (s.maps.typeVersions s.maps.typesVersion).filter (· ≠ "") with
  | none => (none, s)
  | some text =>
      match s.parsed with
      | some (version, made) =>
          if version = s.maps.typesVersion then (some made, s)
          else (some text, { s with parsed := some (s.maps.typesVersion, text) })
      | none => (some text, { s with parsed := some (s.maps.typesVersion, text) })

end State

end Hypergraph.Decisions.Readers
