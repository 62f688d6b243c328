import Hypergraph.Lib.Runs
import Hypergraph.Engine.Registry

/-! A RoleBase (`src/role-base.js`): the events of a registry, as every peer applies them. Whether
only those who hold `*` decide who holds it. Of the view, the registry alone is kept: nothing that
is applied reads the other entries.
-/

namespace Hypergraph.Engine

namespace RoleBase

/-- What an event does, if its author may. -/
inductive Change
  | roles (event : RegistryEvent)
  | addWriter (key : Option String)
  /-- `roles/config/put`, and types that aren't known. -/
  | other
  deriving DecidableEq

/-- An event of the log; `none` where a field isn't of the type it should have. -/
structure Event where
  change : Change
  author : Option String := none
  timestamp : Option Nat := none
  signature : Option String := none
  deriving DecidableEq

/-- What an event's signature covers. -/
structure Message where
  op : String
  member : Option String := none
  role : Option String := none
  permissions : Option (List String) := none
  key : Option String := none
  author : Option String
  timestamp : Option Nat
  deriving DecidableEq

def stableRoleHash (event : Event) : Message :=
  let message (op : String) : Message := { op, author := event.author, timestamp := event.timestamp }
  match event.change with
  | .roles (.init _) => message "roles/init"
  | .roles (.setRole member role) => { message "roles/setRole" with member, role }
  | .roles (.removeMember member) => { message "roles/removeMember" with member }
  | .roles (.setRolePermissions role permissions) =>
      { message "roles/setRolePermissions" with role, permissions }
  | .addWriter key => { message "roles/addWriter" with key }
  | .other => message ""

section Apply

-- `verify`: is a text a signature of a message, by a public key?
variable (verify : Message → String → String → Bool)

def verifyRoleSignature (event : Event) : Bool :=
  match required event.author, required event.signature with
  | some author, some signature => verify (stableRoleHash event) signature author
  | _, _ => false

def can (current : Option Registry) (author : Option String) (action : String) : Bool :=
  match current, author with
  | some registry, some author => registry.can author action
  | _, _ => false

/-- What an event's author must be permitted. -/
def requiredOf (current : Option Registry) : RegistryEvent → String
  | .setRole _ role => if role = some "owner" then "*" else "mod.add"
  | .removeMember member =>
      let targetRole := do
        let registry ← current
        let member ← member
        some (Js.lookup registry.members member)
      if targetRole = some (.own (.role "owner")) then "*" else "mod.remove"
  | .init _ | .setRolePermissions _ _ => "*"

def isInit : RegistryEvent → Bool
  | .init _ => true
  | _ => false

def applyRolesEvent (current : Option Registry) (event : Event) (change : RegistryEvent)
    : Option Registry :=
  if ¬ isInit change ∧ ¬ verifyRoleSignature verify event then current
  else if ¬ isInit change ∧ ¬ can current event.author (requiredOf current change) then current
  else
    match applyRoleEvent current change with
    | none => current
    | some next => some next

/-- The registry once an event is applied. -/
def apply (current : Option Registry) (event : Event) : Option Registry :=
  match event.change with
  | .roles change => applyRolesEvent verify current event change
  | .addWriter _ | .other => current

end Apply

-- Who decides who holds all permissions

section Star

variable (verify : Message → String → String → Bool) {registry : Registry} {event : Event}

/-- An event whose author doesn't hold `*` leaves it as it is who does. -/
def LeavesStar (registry : Registry) (event : Event) : Prop :=
  can (some registry) event.author "*" = false →
    ∀ pubkeyHex, can (apply verify (some registry) event) (some pubkeyHex) "*"
      = registry.can pubkeyHex "*"

/-- An event whose author doesn't hold `*` doesn't reach it: a role it may set, other than `owner`,
has `*` just when the member holds it; who it may remove, without the role `owner`, holds `*` just
when those not listed do; and no registry is given while no one is listed, but one in which the same
hold it.
-/
def SparesStar (registry : Registry) (event : Event) : Prop :=
  can (some registry) event.author "*" = false → registry.version = 1 →
    match event.change with
    | .roles (.setRole (some member) (some role)) =>
        verifyRoleSignature verify event = true → can (some registry) event.author "mod.add" = true →
          member ≠ "" → member ≠ "__proto__" → role ≠ "" → role ≠ "owner" →
            registry.can member "*" = registry.permits role "*"
    | .roles (.removeMember (some member)) =>
        verifyRoleSignature verify event = true →
          can (some registry) event.author "mod.remove" = true →
            member ≠ "" → Js.lookup registry.members member ≠ .own (.role "owner") →
              registry.can member "*" = ({ registry with members := [] } : Registry).can member "*"
    | .roles (.init (some given)) =>
        registry.members = [] → given.version = 1 →
          ∀ pubkeyHex, given.can pubkeyHex "*" = registry.can pubkeyHex "*"
    | _ => True

variable {verify}

/-- Who may make a change makes it, others leave all as it is. -/
theorem applyRolesEvent_eq {change : RegistryEvent}
    : applyRolesEvent verify (some registry) event change
      = if isInit change ∨ (verifyRoleSignature verify event
          ∧ can (some registry) event.author (requiredOf (some registry) change))
        then some ((applyRoleEvent (some registry) change).getD registry) else some registry := by
  have done : (match applyRoleEvent (some registry) change with
      | none => some registry
      | some next => some next) = some ((applyRoleEvent (some registry) change).getD registry) := by
    cases applyRoleEvent (some registry) change <;> rfl
  simp only [applyRolesEvent, done]
  cases isInit change <;> cases verifyRoleSignature verify event
    <;> cases can (some registry) event.author (requiredOf (some registry) change) <;> rfl

/-- What leaves the registry as it is leaves it as it is who holds `*`. -/
theorem leavesStar_of_same (same : apply verify (some registry) event = some registry)
    : LeavesStar verify registry event := by
  intro _ pubkeyHex
  rw [same]
  rfl

theorem leavesStar_of_throws {change : RegistryEvent} (is : event.change = .roles change)
    (throws : applyRoleEvent (some registry) change = none)
    : LeavesStar verify registry event := by
  apply leavesStar_of_same
  simp [apply, is, applyRolesEvent_eq, throws]

/-- With the same roles and all others listed alike, it is the same who may do something if it is the
same of the one member.
-/
theorem can_iff_at {next : Registry} {member action : String} (roles : next.roles = registry.roles)
    (others
      : ∀ name, name ≠ member
          → Js.lookup next.members name = Js.lookup registry.members name)
    : (∀ pubkeyHex, next.can pubkeyHex action = registry.can pubkeyHex action)
      ↔ registry.can member action = next.can member action := by
  refine ⟨fun same => (same member).symm, fun same pubkeyHex => ?_⟩
  by_cases here : pubkeyHex = member
  · rw [here, same]
  · exact Registry.can_congr roles (others pubkeyHex here)

/-- Where an author may, and all that a change needs is there, the registry is the changed one. -/
theorem leavesStar_iff_of_changed {next : Registry} {member : String}
    (after : apply verify (some registry) event = some next) (roles : next.roles = registry.roles)
    (others
      : ∀ name, name ≠ member
          → Js.lookup next.members name = Js.lookup registry.members name)
    : LeavesStar verify registry event
      ↔ (can (some registry) event.author "*" = false →
        registry.can member "*" = next.can member "*") := by
  rw [LeavesStar, after]
  exact imp_congr_right fun _ => can_iff_at roles others

/-- A role other than `owner` is set by who may add members. -/
theorem leavesStar_setRole {member role : String}
    (change : event.change = .roles (.setRole (some member) (some role)))
    : LeavesStar verify registry event ↔ SparesStar verify registry event := by
  by_cases made : registry.version = 1 ∧ verifyRoleSignature verify event = true
    ∧ can (some registry) event.author "mod.add" = true ∧ member ≠ "" ∧ member ≠ "__proto__"
    ∧ role ≠ "" ∧ role ≠ "owner"
  · obtain ⟨version, signed, may, named, proto, role_, plain⟩ := made
    have after : apply verify (some registry) event
        = some { registry with members := Js.set registry.members member (.role role) } := by
      simp [apply, change, applyRolesEvent_eq, requiredOf, plain, signed, may,
        Registry.applyRoleEvent_setRole, version, named, role_]
    rw [leavesStar_iff_of_changed after rfl fun name apart => Registry.lookup_set_of_ne apart,
      Registry.can_set named proto role_ (by decide)]
    simp [SparesStar, change, version, signed, may, named, proto, role_, plain]
  · refine iff_of_true (fun quiet => leavesStar_of_same ?_ quiet) (fun quiet version => ?_)
    · simp only [apply, change, applyRolesEvent_eq, isInit, Bool.false_eq_true, false_or]
      split
      · rename_i allowed
        obtain ⟨signed, may⟩ := allowed
        have plain : role ≠ "owner" := by
          rintro rfl
          simp [requiredOf, quiet] at may
        simp only [requiredOf, Option.some.injEq, plain, if_false] at may
        rw [Registry.applyRoleEvent_setRole]
        split
        · rename_i fine
          obtain ⟨version, named, role_⟩ := fine
          have proto : member = "__proto__" := by
            by_contra other
            exact made ⟨version, signed, may, named, other, role_, plain⟩
          simp [proto, Js.set]
        · rfl
      · rfl
    · simp only [change]
      intro signed may named proto role_ plain
      exact absurd ⟨version, signed, may, named, proto, role_, plain⟩ made

/-- A member without the role `owner` is removed by who may remove members. -/
theorem leavesStar_removeMember {member : String}
    (change : event.change = .roles (.removeMember (some member)))
    : LeavesStar verify registry event ↔ SparesStar verify registry event := by
  have needed : requiredOf (some registry) (.removeMember (some member))
      = if Js.lookup registry.members member = .own (.role "owner") then "*" else "mod.remove" := by
    simp [requiredOf]
  by_cases made : registry.version = 1 ∧ verifyRoleSignature verify event = true
    ∧ can (some registry) event.author "mod.remove" = true ∧ member ≠ ""
    ∧ Js.lookup registry.members member ≠ .own (.role "owner")
  · obtain ⟨version, signed, may, named, plain⟩ := made
    have after : apply verify (some registry) event
        = some { registry with members := Js.delete registry.members member } := by
      simp [apply, change, applyRolesEvent_eq, needed, plain, signed, may,
        Registry.applyRoleEvent_removeMember, version, named]
    have unlisted : ({ registry with members := Js.delete registry.members member } : Registry).can
        member "*" = ({ registry with members := [] } : Registry).can member "*" :=
      Registry.can_congr rfl Registry.lookup_delete_self
    rw [leavesStar_iff_of_changed after rfl fun name apart => Registry.lookup_delete_of_ne apart,
      unlisted]
    simp [SparesStar, change, version, signed, may, named, plain]
  · refine iff_of_true (fun quiet => leavesStar_of_same ?_ quiet) (fun quiet version => ?_)
    · simp only [apply, change, applyRolesEvent_eq, isInit, Bool.false_eq_true, false_or]
      split
      · rename_i allowed
        obtain ⟨signed, may⟩ := allowed
        rw [needed] at may
        have plain : Js.lookup registry.members member ≠ .own (.role "owner") := by
          intro owner
          rw [if_pos owner, quiet] at may
          cases may
        rw [if_neg plain] at may
        rw [Registry.applyRoleEvent_removeMember, if_neg]
        · rfl
        · rintro ⟨version, named⟩
          exact made ⟨version, signed, may, named, plain⟩
      · rfl
    · simp only [change]
      intro signed may named plain
      exact absurd ⟨version, signed, may, named, plain⟩ made

theorem leavesStar_init {given : Option Registry} (change : event.change = .roles (.init given))
    : LeavesStar verify registry event ↔ SparesStar verify registry event := by
  have after : apply verify (some registry) event
      = some ((applyRoleEvent (some registry) (.init given)).getD registry) := by
    simp [apply, change, applyRolesEvent_eq, isInit]
  by_cases made : registry.version = 1 ∧ registry.members = [] ∧ ∃ r, given = some r ∧ r.version = 1
  · obtain ⟨version, none_, r, rfl, version'⟩ := made
    have taken : applyRoleEvent (some registry) (.init (some r)) = some r := by
      obtain ⟨_, roles, members⟩ := r
      cases version'
      simp [applyRoleEvent, version, none_]
    rw [taken] at after
    simp only [LeavesStar, SparesStar, after, change, version, none_, version', true_imp_iff,
      Option.getD_some]
    rfl
  · refine iff_of_true (fun quiet => leavesStar_of_same ?_ quiet) (fun quiet version => ?_)
    · rw [after]
      simp only [applyRoleEvent, Option.getD_some]
      split_ifs with version listed
      · rfl
      · rfl
      · cases given with
        | none => rfl
        | some r =>
            have old : r.version ≠ 1 := fun version' =>
              made ⟨by simpa using version, by simpa using listed, r, rfl, version'⟩
            simp [old]
    · simp only [change]
      cases given with
      | none => trivial
      | some r => exact fun none_ version' => absurd ⟨version, none_, r, rfl, version'⟩ made

/-- Each kind of event leaves it as it is who holds `*`, exactly if it spares it. -/
theorem leavesStar_iff : LeavesStar verify registry event ↔ SparesStar verify registry event := by
  have throws {change : RegistryEvent} (is : event.change = .roles change)
      (throws : applyRoleEvent (some registry) change = none)
      (spares : SparesStar verify registry event)
      : LeavesStar verify registry event ↔ SparesStar verify registry event :=
    iff_of_true (leavesStar_of_throws is throws) spares
  cases change : event.change with
  | addWriter key | other =>
      exact iff_of_true (leavesStar_of_same (by simp [apply, change])) (by simp [SparesStar, change])
  | roles roles =>
      cases roles with
      | init given => exact leavesStar_init change
      | setRole member role =>
          cases member with
          | none =>
              exact throws change (by simp [applyRoleEvent, required]) (by simp [SparesStar, change])
          | some member =>
              cases role with
              | none =>
                  exact throws change (by simp [applyRoleEvent, required]) (by simp [SparesStar, change])
              | some role => exact leavesStar_setRole change
      | removeMember member =>
          cases member with
          | none =>
              exact throws change (by simp [applyRoleEvent, required]) (by simp [SparesStar, change])
          | some member => exact leavesStar_removeMember change
      | setRolePermissions role permissions =>
          refine iff_of_true (fun quiet => leavesStar_of_same ?_ quiet) (by simp [SparesStar, change])
          simp [apply, change, applyRolesEvent_eq, isInit, requiredOf, quiet]

variable (verify) in
/-- Something holds of each event of a log and the registry before it, once there is one. -/
def EachEvent (holds : Registry → Event → Prop) : Option Registry → List Event → Prop :=
  Runs.Each (apply verify) fun current event =>
    ∀ registry, current = some registry → holds registry event

/-- In every log, the events of those who don't hold `*` leave it as it is who does, exactly if each
spares it. By the event, then by the log.
-/
theorem eachLeavesStar_iff {current : Option Registry} {events : List Event}
    : EachEvent verify (LeavesStar verify) current events
      ↔ EachEvent verify (SparesStar verify) current events :=
  Runs.each_congr fun _ _ => forall₂_congr fun _ _ => leavesStar_iff

/-- An admin makes the owner a member: only that no one makes another owner is checked, though a
comment says that a mere admin can't de-role the owner.
-/
theorem owner_deroled
    : ¬ ∀ (verify : Message → String → String → Bool) (current : Option Registry) (events : List Event),
        EachEvent verify (LeavesStar verify) current events := by
  intro holds
  let owner := "0f0f0f0f0f0f0f0f0f0f0f0f0f0f0f0f0f0f0f0f0f0f0f0f0f0f0f0f0f0f0f0f"
  let admin := "1a1a1a1a1a1a1a1a1a1a1a1a1a1a1a1a1a1a1a1a1a1a1a1a1a1a1a1a1a1a1a1a"
  have each := holds (fun _ signature author => signature == author) none
    [{ change := .roles (.init (some (initRegistry owner))), author := some owner },
      { change := .roles (.setRole (some admin) (some "admin")), author := some owner
        signature := some owner },
      { change := .roles (.setRole (some owner) (some "member")), author := some admin
        signature := some admin }]
  have left := each.2.2.1 _ rfl (by decide) owner
  exact absurd left (by decide)

end Star

end RoleBase

end Hypergraph.Engine
