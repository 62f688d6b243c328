import Hypergraph.Lib.Js
import Hypergraph.Encodings

/-! The decision log's view: what each of its keys holds (`lib/decisions/apply.js`, its
head). A Hyperbee of JSON values, kept here as one map for each kind of key. The entries a
scope keeps under its own prefix (`''` for the top space, `sub:<key>:` for a sub-space)
take the scope as an argument.
-/

namespace Hypergraph.Decisions

open Js Encodings

/-- The top space (`none`) or a sub-space's key. -/
abbrev Scope := Option Key

/-- A log's key to the length it counts up to. -/
abbrev Lengths := Object Key Nat

structure Meta where
  name : Option String := none
  owner : Option Key := none
  policy : Option String := none
  priv : Bool := false
  version : Option Nat := none
  parent : Option Key := none
  stamp : Option Nat := none
  rules : Option (List String) := none
  history : Option String := none
  helpers : Option (List String) := none
  pub : Bool := false
  writeLimit : Option WriteLimit := none
  deriving DecidableEq, Repr

structure Member where
  role : String
  by_ : Key
  stamp : Nat
  writer : Option Key := none
  writerDevice : Option Key := none
  deriving DecidableEq, Repr

structure Ban where
  by_ : Key
  reason : String
  stamp : Nat
  dropAll : Bool
  deriving DecidableEq, Repr

structure Cut where
  logs : Lengths
  stamp : Nat
  deriving DecidableEq, Repr

/-- A permission to the lengths recorded when it was lost (`editcut:`). -/
abbrev Perms := Object String Lengths

structure Moderation where
  flagged : Bool := false
  hidden : Bool := false
  removed : Bool := false
  deriving DecidableEq, Repr

structure Redeemed where
  at_ : Nat
  by_ : Key
  deriving DecidableEq, Repr

/-- Who recorded an entry, and when (`revoked:`, `gone:`). -/
structure Recorded where
  by_ : Key
  stamp : Nat
  deriving DecidableEq, Repr

structure Epochs where
  current : Int := -1
  commits : Object Nat Key := []
  others : Object Key Nat := []
  deriving DecidableEq, Repr

structure Writer where
  identity : Key
  device : Option Key
  indexer : Bool
  deriving DecidableEq, Repr

structure CustomRole where
  permissions : List String
  by_ : Key
  stamp : Nat
  deriving DecidableEq, Repr

structure Subspace where
  name : String
  priv : Bool
  writeRoles : List String
  parent : Scope
  by_ : Key
  stamp : Nat
  deriving DecidableEq, Repr

/-- What a decision says, readable (`details`). -/
inductive Details
  | none
  | spaceInit (name policy : String)
  | member (identity : Key)
  | roleDefine (name : String) (permissions : List String)
  | roleSet (identity : Key) (role : String)
  | moderate (action : String) (target : Key) (reason : String) (drop : Option String)
  | redeem (identity : Key) (role : String) (invite maker : Key)
  | revoke (invite : Key) (role : String) (maker : Key)
  | settings (policy : Option String) (rules : Option (List String))
      (history : Option String) (helpers : Option (List String)) (pub : Option Bool)
  | types (version : Nat)
  | key (key : Key)
  | removed (device : Key)
  | subspace (key : Key) (name : String) (priv : Bool)
  | epoch (epoch : Nat)
  deriving DecidableEq, Repr

/-- An entry of the decision list. -/
structure Listed where
  type : String
  at_ : Nat
  writer : Key
  by_ : Option Key
  device : Option Key
  counted : Bool
  details : Details
  space : Scope
  deriving DecidableEq, Repr

/-- The view, key by key. `cut`, `admits` and so on are a scope's own entries. -/
structure View where
  metaOf : Scope → Option Meta
  member : Scope → Key → Option Member
  banned : Scope → Key → Option Ban
  cut : Scope → Key → Option Cut
  admits : Scope → Key → Option Key
  editcut : Scope → Key → Option Perms
  mod : Scope → Key → Option Moderation
  redeemed : Scope → Key → Key → Option Redeemed
  uses : Scope → Key → Option Nat
  revoked : Scope → Key → Option Recorded
  epochs : Scope → Option Epochs
  writer : Key → Option Writer
  writers : Key → Option (List Key)
  gone : Key → Key → Option Recorded
  role : String → Option CustomRole
  subspaces : Option (List Key)
  subspace : Key → Option Subspace
  types : Option Nat
  typesAt : Nat → Option String
  listed : Key → Option Key
  count : Option Nat
  list : Nat → Option Listed

namespace View

def empty : View where
  metaOf _ := none
  member _ _ := none
  banned _ _ := none
  cut _ _ := none
  admits _ _ := none
  editcut _ _ := none
  mod _ _ := none
  redeemed _ _ _ := none
  uses _ _ := none
  revoked _ _ := none
  epochs _ := none
  writer _ := none
  writers _ := none
  gone _ _ := none
  role _ := none
  subspaces := none
  subspace _ := none
  types := none
  typesAt _ := none
  listed _ := none
  count := none
  list _ := none

-- `view.put` (`some`) and `view.del` (`none`), for each kind of key

variable (v : View) (scope : Scope) (id : Key)

@[simps] def setMeta (entry : Option Meta) : View :=
  { v with metaOf := fun s => if s = scope then entry else v.metaOf s }

@[simps] def setMember (entry : Option Member) : View :=
  { v with member := fun s i => if s = scope ∧ i = id then entry else v.member s i }

@[simps] def setBanned (entry : Option Ban) : View :=
  { v with banned := fun s i => if s = scope ∧ i = id then entry else v.banned s i }

@[simps] def setCut (entry : Option Cut) : View :=
  { v with cut := fun s i => if s = scope ∧ i = id then entry else v.cut s i }

@[simps] def setAdmit (entry : Option Key) : View :=
  { v with admits := fun s i => if s = scope ∧ i = id then entry else v.admits s i }

@[simps] def setEditcut (entry : Option Perms) : View :=
  { v with editcut := fun s i => if s = scope ∧ i = id then entry else v.editcut s i }

@[simps] def setMod (entry : Option Moderation) : View :=
  { v with mod := fun s i => if s = scope ∧ i = id then entry else v.mod s i }

@[simps] def setRedeemed (invite : Key) (entry : Option Redeemed) : View :=
  { v with redeemed := fun s k i =>
      if s = scope ∧ k = invite ∧ i = id then entry else v.redeemed s k i }

@[simps] def setUses (invite : Key) (entry : Option Nat) : View :=
  { v with uses := fun s k => if s = scope ∧ k = invite then entry else v.uses s k }

@[simps] def setRevoked (invite : Key) (entry : Option Recorded) : View :=
  { v with revoked := fun s k => if s = scope ∧ k = invite then entry else v.revoked s k }

@[simps] def setEpochs (entry : Option Epochs) : View :=
  { v with epochs := fun s => if s = scope then entry else v.epochs s }

@[simps] def setWriter (key : Key) (entry : Option Writer) : View :=
  { v with writer := fun k => if k = key then entry else v.writer k }

@[simps] def setWriters (entry : Option (List Key)) : View :=
  { v with writers := fun i => if i = id then entry else v.writers i }

@[simps] def setGone (device : Key) (entry : Option Recorded) : View :=
  { v with gone := fun i k => if i = id ∧ k = device then entry else v.gone i k }

@[simps] def setRole (name : String) (entry : Option CustomRole) : View :=
  { v with role := fun n => if n = name then entry else v.role n }

@[simps] def setSubspaces (entry : Option (List Key)) : View :=
  { v with subspaces := entry }

@[simps] def setSubspace (key : Key) (entry : Option Subspace) : View :=
  { v with subspace := fun k => if k = key then entry else v.subspace k }

@[simps] def setTypes (entry : Option Nat) : View := { v with types := entry }

@[simps] def setTypesAt (version : Nat) (entry : Option String) : View :=
  { v with typesAt := fun n => if n = version then entry else v.typesAt n }

@[simps] def setListed (log : Key) (entry : Option Key) : View :=
  { v with listed := fun k => if k = log then entry else v.listed k }

@[simps] def setCount (entry : Option Nat) : View := { v with count := entry }

@[simps] def setList (seq : Nat) (entry : Option Listed) : View :=
  { v with list := fun n => if n = seq then entry else v.list n }

end View

-- The view as a decision is applied

/-- What a decision asks of Autobase about its writers. -/
inductive HostCall
  | addWriter (key : Key) (indexer : Bool)
  | removeWriter (key : Key)
  deriving DecidableEq, Repr

/-- The view with the number of writes a decision made (`countWrites`): it counted if it
changed anything. The calls to Autobase are kept in the order made.
-/
structure Counting where
  view : View
  writes : Nat := 0
  host : List HostCall := []

namespace Counting

/-- One `put` or `del`. -/
@[simps] def write (v : Counting) (change : View → View) : Counting :=
  { v with view := change v.view, writes := v.writes + 1 }

@[simps] def call (v : Counting) (call : HostCall) : Counting :=
  { v with host := v.host ++ [call] }

end Counting

end Hypergraph.Decisions
