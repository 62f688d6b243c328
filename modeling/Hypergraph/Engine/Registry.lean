import Hypergraph.Lib.Js

/-! The first engine's role registry (`src/roles-registry.js`): roles, what they permit, and the
members that have them. Each context of version 3 has one, and each RoleBase.
-/

namespace Hypergraph.Engine

open Js

/-- What a member is listed with: a role's name, or in a registry given whole something that is no
text, by its truth and by what it reads as.
-/
inductive Listed
  | role (name : String)
  | other (truthy : Bool) (text : String)
  deriving DecidableEq

namespace Listed

def truthy : Listed → Bool
  | .role name => name != ""
  | .other truthy _ => truthy

def text : Listed → String
  | .role name => name
  | .other _ text => text

end Listed

/-- A role's permissions: the texts of an array, `none` where it is no array. -/
structure Registry where
  version : Nat := 1
  roles : Object String (Option (List String)) := []
  members : Object String Listed := []
  deriving DecidableEq

/-- What a property of `Object.prototype` reads as. -/
def inheritedText (name : String) : String :=
  if name = "__proto__" then "[object Object]"
  else "function " ++ (if name = "constructor" then "Object" else name)
    ++ "() \x7b [native code] \x7d"

/-- The registry of a new owner. -/
def initRegistry (ownerPubkeyHex : String) : Registry where
  roles :=
    [("owner", some ["*"]),
      ("admin", some ["mod.add", "mod.remove", "content.remove", "content.hide", "content.reveal",
        "context.write"]),
      ("mod", some ["content.hide", "content.remove", "content.flag"]),
      ("member", some [])]
  members := [(ownerPubkeyHex, .role "owner")]

namespace Registry

variable (registry : Registry)

/-- The role of who isn't listed. -/
def defaultRole : Option String :=
  match Js.lookup registry.roles "member" with
  | .undefined => none
  | _ => some "member"

/-- `registry.members[pubkeyHex] || (registry.roles.member ? 'member' : null)`. -/
def roleName (pubkeyHex : String) : Option String :=
  match Js.lookup registry.members pubkeyHex with
  | .own listed => if listed.truthy then some listed.text else registry.defaultRole
  | .inherited => some (inheritedText pubkeyHex)
  | .undefined => registry.defaultRole

/-- Does a role permit an action, or all of them? -/
def permits (role action : String) : Bool :=
  match Js.lookup registry.roles role with
  | .own (some perms) => perms.contains "*" || perms.contains action
  | _ => false

def can (pubkeyHex action : String) : Bool :=
  if pubkeyHex = "" ∨ action = "" then false
  else
    match registry.roleName pubkeyHex with
    | none => false
    | some roleName => registry.permits roleName action

end Registry

/-- The events of a registry; `none` where a field isn't of the type it should have. -/
inductive RegistryEvent
  | init (registry : Option Registry)
  | setRole (member role : Option String)
  | removeMember (member : Option String)
  | setRolePermissions (role : Option String) (permissions : Option (List String))
  deriving DecidableEq

/-- A text that is there and not empty, or the event throws. -/
def required (field : Option String) : Option String := field.filter (· ≠ "")

/-- What an event makes of a registry; `none`: it throws. -/
def applyRoleEvent (registry : Option Registry) (event : RegistryEvent) : Option Registry :=
  let next := registry.getD {}
  if next.version ≠ 1 then none
  else
    match event with
    | .init given =>
        if next.members ≠ [] then some next
        else
          match given with
          | none => none
          | some r => if r.version ≠ 1 then none else some { r with version := 1 }
    | .setRole member role => do
        let member ← required member
        let role ← required role
        some { next with members := Js.set next.members member (.role role) }
    | .removeMember member => do
        let member ← required member
        some { next with members := Js.delete next.members member }
    | .setRolePermissions role permissions => do
        let role ← required role
        let permissions ← permissions
        some { next with roles := Js.set next.roles role (some permissions) }

-- Who may do what

namespace Registry

variable {registry other : Registry} {pubkeyHex member role action : String}

theorem required_eq_some {field : Option String} {text : String}
    : required field = some text ↔ field = some text ∧ text ≠ "" := by
  simp [required, Option.filter_eq_some_iff]

theorem version_of_applyRoleEvent {event : RegistryEvent}
    (made : applyRoleEvent (some registry) event = some other)
    : other.version = 1 := by
  simp only [applyRoleEvent, Option.getD_some, Option.ite_none_left_eq_some, ne_eq, not_not] at made
  obtain ⟨version, made⟩ := made
  cases event with
  | init given =>
      simp only at made
      split at made
      · obtain rfl := Option.some.inj made
        exact version
      · cases given with
        | none => cases made
        | some r =>
            simp only [Option.ite_none_left_eq_some, Option.some.injEq] at made
            obtain ⟨_, rfl⟩ := made
            rfl
  | setRole member role =>
      simp only [Option.bind_eq_bind, Option.bind_eq_some_iff, Option.some.injEq] at made
      obtain ⟨_, _, _, _, rfl⟩ := made
      exact version
  | removeMember member =>
      simp only [Option.bind_eq_bind, Option.bind_eq_some_iff, Option.some.injEq] at made
      obtain ⟨_, _, rfl⟩ := made
      exact version
  | setRolePermissions role permissions =>
      simp only [Option.bind_eq_bind, Option.bind_eq_some_iff, Option.some.injEq] at made
      obtain ⟨_, _, _, _, rfl⟩ := made
      exact version

theorem applyRoleEvent_setRole
    : applyRoleEvent (some registry) (.setRole (some member) (some role))
      = if registry.version = 1 ∧ member ≠ "" ∧ role ≠ "" then
          some { registry with members := Js.set registry.members member (.role role) }
        else none := by
  by_cases version : registry.version = 1 <;> by_cases named : member = "" <;> by_cases role_ : role = ""
    <;> simp [applyRoleEvent, required, Option.filter, version, named, role_]

theorem applyRoleEvent_removeMember
    : applyRoleEvent (some registry) (.removeMember (some member))
      = if registry.version = 1 ∧ member ≠ "" then
          some { registry with members := Js.delete registry.members member }
        else none := by
  by_cases version : registry.version = 1 <;> by_cases named : member = ""
    <;> simp [applyRoleEvent, required, Option.filter, version, named]

/-- What someone may do is told by the roles and by what is listed of them. -/
theorem can_congr (roles : other.roles = registry.roles)
    (same : Js.lookup other.members pubkeyHex = Js.lookup registry.members pubkeyHex)
    : other.can pubkeyHex action = registry.can pubkeyHex action := by
  simp only [can, roleName, defaultRole, permits, roles, same]

theorem lookup_set_of_ne {α : Type} {object : Object String α} {value : α} {key name : String}
    (apart : name ≠ key)
    : Js.lookup (Js.set object key value) name = Js.lookup object name := by
  simp [Js.lookup, lookup_set, apart]

theorem lookup_set_self {α : Type} {object : Object String α} {value : α} {key : String}
    (proto : key ≠ "__proto__")
    : Js.lookup (Js.set object key value) key = .own value := by
  simp [Js.lookup, lookup_set, proto]

theorem lookup_delete_of_ne {α : Type} {object : Object String α} {key name : String}
    (apart : name ≠ key)
    : Js.lookup (Js.delete object key) name = Js.lookup object name := by
  simp [Js.lookup, lookup_delete, apart]

theorem lookup_delete_self {α : Type} {object : Object String α} {key : String}
    : Js.lookup (Js.delete object key) key = Js.lookup ([] : Object String α) key := by
  simp [Js.lookup, lookup_delete]

theorem can_set (named : member ≠ "") (proto : member ≠ "__proto__") (role_ : role ≠ "")
    (action_ : action ≠ "")
    : ({ registry with members := Js.set registry.members member (.role role) } : Registry).can member
        action
      = registry.permits role action := by
  have listed : (Listed.role role).truthy = true := by simpa [Listed.truthy] using role_
  simp [can, roleName, permits, lookup_set_self proto, listed, Listed.text, named, action_]

end Registry

end Hypergraph.Engine
