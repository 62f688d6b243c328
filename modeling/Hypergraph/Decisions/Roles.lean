import Hypergraph.Lib.Js

/-! Built-in and custom roles, and what each may do (`lib/decisions/state.js`, its top).
`ROLES` and `RANK` are plain objects: a role named like a property of `Object.prototype`
finds that property, and using it as a list of permissions throws.
-/

namespace Hypergraph.Decisions

open Js

/-- Custom role names to their permissions, as loaded from the view. -/
abbrev Custom := String → Option (List String)

def roles : Object String (List String) :=
  [("owner", ["decide", "moderate", "invite", "roles", "post"]),
    ("admin", ["decide", "moderate", "invite", "roles", "post"]),
    ("moderator", ["moderate", "post"]),
    ("member", ["post"]),
    ("guest", ["post"])]

def rank : Object String Nat :=
  [("owner", 5), ("admin", 4), ("moderator", 3), ("member", 2), ("guest", 1)]

def customRank : Nat := 2

def actions : List String := ["flag", "hide", "reveal", "remove", "ban", "unban"]

/-- Hypergraph's own permissions (`OWN`). -/
def own : List String := ["decide", "moderate", "invite", "roles"]

/-- The permissions that give power over others (`POWER`). -/
def power : List String := ["decide", "moderate", "roles"]

def permissionsOf (role : Option String) (custom : Custom) : Found (List String) :=
  match role with
  | none => .undefined
  | some name =>
      if name = "" then .undefined
      else match lookup roles name with
        | .undefined =>
            match custom name with
            | some permissions => .own permissions
            | none => .undefined
        | found => found

/-- `RANK[role] || CUSTOM_RANK`; no number for an inherited property. -/
def rankOf (role : Option String) : Option Nat :=
  match lookup rank (role.getD "null") with
  | .own rank => some rank
  | .inherited => none
  | .undefined => some customRank

/-- `!!perms && perms.includes(permission)`. -/
def includes (permissions : Found (List String)) (permission : String) : Run Bool :=
  match permissions with
  | .own list => return list.contains permission
  | .inherited => throw .notAFunction
  | .undefined => return false

def can (role : Option String) (permission : String) (custom : Custom) : Run Bool :=
  if role = some "owner" then return true
  else includes (permissionsOf role custom) permission

def grantable (author : Option String) (perms : Found (List String)) (custom : Custom)
    : Run Bool :=
  if author = some "owner" then return true
  else
    match perms with
    | .own list =>
        list.allM fun p =>
          if own.contains p then includes (permissionsOf author custom) p else return true
    | .inherited => throw .notAFunction
    | .undefined => throw .nullValue

def mayAssign (author current : Option String) (role : String) (custom : Custom)
    : Run Bool := do
  if !(← can author "roles" custom) then return false
  if role = "owner" || current = some "owner" then return false
  let perms := permissionsOf (some role) custom
  if perms = .undefined then return false
  if author = some "owner" then return true
  if truthy current && atLeast (rankOf current) (rankOf author) then return false
  if atLeast (rankOf (some role)) (rankOf author) then return false
  grantable author perms custom

def mayInvite (maker : Option String) (role : String) (custom : Custom) : Run Bool := do
  if !(← can maker "invite" custom) then return false
  if role = "owner" then return false
  let perms := permissionsOf (some role) custom
  if perms = .undefined then return false
  if maker = some "owner" then return true
  let peer ←
    if some role = maker then
      match perms with
      | .own list => pure (!list.any power.contains)
      | _ => throw .notAFunction
    else pure false
  if atLeast (rankOf (some role)) (rankOf maker) && role ≠ "member" && role ≠ "guest" && !peer then
    return false
  grantable maker perms custom

def mayRemove (author target : Option String) (permission : String) (custom : Custom)
    : Run Bool := do
  if !(← can author permission custom) then return false
  if target = some "owner" then return false
  return !truthy target || author = some "owner" || less (rankOf target) (rankOf author)

-- The same on plain roles, where nothing throws

/-- A role name that is no property of `Object.prototype`. -/
def Plain (role : Option String) : Prop := ∀ name, role = some name → name ∉ objectPrototype

instance (role : Option String) : Decidable (Plain role) :=
  match role with
  | none => .isTrue (by simp [Plain])
  | some name => decidable_of_iff (name ∉ objectPrototype) (by simp [Plain])

@[simp]
theorem plain_none : Plain none := by simp [Plain]

@[simp]
theorem plain_some {name : String} : Plain (some name) ↔ name ∉ objectPrototype := by
  simp [Plain]

/-- A role's permissions, none for what is no role. -/
def listOf (role : Option String) (custom : Custom) : List String :=
  match permissionsOf role custom with
  | .own list => list
  | _ => []

/-- Does a role hold a permission? The owner holds every one, the app's included. -/
def holds (role : Option String) (permission : String) (custom : Custom) : Bool :=
  role = some "owner" || (listOf role custom).contains permission

def grants (author : Option String) (permissions : List String) (custom : Custom) : Bool :=
  author = some "owner"
    || permissions.all fun p => !own.contains p || (listOf author custom).contains p

def assigns (author current : Option String) (role : String) (custom : Custom) : Bool :=
  holds author "roles" custom && role ≠ "owner" && current ≠ some "owner"
    && permissionsOf (some role) custom ≠ .undefined
    && (author = some "owner"
      || !(truthy current && atLeast (rankOf current) (rankOf author))
        && !atLeast (rankOf (some role)) (rankOf author)
        && grants author (listOf (some role) custom) custom)

def invites (maker : Option String) (role : String) (custom : Custom) : Bool :=
  holds maker "invite" custom && role ≠ "owner"
    && permissionsOf (some role) custom ≠ .undefined
    && (maker = some "owner"
      || !(atLeast (rankOf (some role)) (rankOf maker) && role ≠ "member" && role ≠ "guest"
            && !(some role = maker && !(listOf (some role) custom).any power.contains))
        && grants maker (listOf (some role) custom) custom)

def removes (author target : Option String) (permission : String) (custom : Custom) : Bool :=
  holds author permission custom && target ≠ some "owner"
    && (!truthy target || author = some "owner" || less (rankOf target) (rankOf author))

theorem lookup_plain {α : Type} (table : Object String α) {name : String}
    (plain : name ∉ objectPrototype)
    : lookup table name ≠ .inherited := by
  unfold lookup
  split <;> simp [plain]

theorem permissionsOf_plain {role : Option String} (plain : Plain role) (custom : Custom)
    : permissionsOf role custom ≠ .inherited := by
  cases role with
  | none => simp [permissionsOf]
  | some name =>
      have table := lookup_plain roles (plain name rfl)
      unfold permissionsOf
      split
      · simp
      · rename_i name' same
        cases same
        split
        · simp
        · split
          · split <;> simp
          · exact table

theorem includes_plain {role : Option String} (plain : Plain role) (permission : String)
    (custom : Custom)
    : includes (permissionsOf role custom) permission
      = .ok ((listOf role custom).contains permission) := by
  have table := permissionsOf_plain plain custom
  unfold includes listOf
  cases found : permissionsOf role custom with
  | own list => rfl
  | inherited => exact absurd found table
  | undefined => rfl

theorem can_plain {role : Option String} (plain : Plain role) (permission : String)
    (custom : Custom)
    : can role permission custom = .ok (holds role permission custom) := by
  unfold can holds
  by_cases owner : role = some "owner"
  · simp [owner]
  · simp [owner, includes_plain plain]

/-- Checking a list whose checks do not throw is checking it purely; induction on the list. -/
theorem allM_ok {α : Type} (list : List α) (check : α → Run Bool) (pureCheck : α → Bool)
    (agrees : ∀ item, check item = .ok (pureCheck item))
    : list.allM check = .ok (list.all pureCheck) := by
  induction list with
  | nil => rfl
  | cons first rest ih =>
      simp only [List.allM, agrees, ok_bind, ih, List.all_cons]
      cases pureCheck first <;> rfl

theorem grantable_plain {author : Option String} (plain : Plain author)
    (permissions : List String) (custom : Custom)
    : grantable author (.own permissions) custom = .ok (grants author permissions custom) := by
  unfold grantable grants
  by_cases owner : author = some "owner"
  · simp [owner]
  · simp only [owner, if_false, decide_false, Bool.false_or]
    refine allM_ok permissions _ _ (fun p => ?_)
    by_cases isOwn : own.contains p = true
    · rw [if_pos isOwn, includes_plain plain, isOwn]
      rfl
    · rw [if_neg isOwn]
      have free : p ∉ own := by simpa using isOwn
      simp [free]

theorem mayAssign_plain {author current : Option String} {role : String}
    (authorPlain : Plain author) (rolePlain : role ∉ objectPrototype) (custom : Custom)
    : mayAssign author current role custom = .ok (assigns author current role custom) := by
  have table := permissionsOf_plain (plain_some.mpr rolePlain) custom
  unfold mayAssign assigns listOf
  rw [can_plain authorPlain]
  cases found : permissionsOf (some role) custom with
  | inherited => exact absurd found table
  | undefined => simp
  | own list =>
      simp only [ok_bind, grantable_plain authorPlain, pure_eq_ok, reduceCtorEq, if_false]
      grind

theorem mayInvite_plain {maker : Option String} {role : String} (makerPlain : Plain maker)
    (rolePlain : role ∉ objectPrototype) (custom : Custom)
    : mayInvite maker role custom = .ok (invites maker role custom) := by
  have table := permissionsOf_plain (plain_some.mpr rolePlain) custom
  unfold mayInvite invites listOf
  rw [can_plain makerPlain]
  cases found : permissionsOf (some role) custom with
  | inherited => exact absurd found table
  | undefined => simp
  | own list =>
      simp only [ok_bind, grantable_plain makerPlain, pure_eq_ok, reduceCtorEq, if_false]
      by_cases same : some role = maker
      · simp only [same, if_true]
        grind
      · simp only [same, if_false]
        grind

theorem mayRemove_plain {author : Option String} (target : Option String)
    (authorPlain : Plain author) (permission : String) (custom : Custom)
    : mayRemove author target permission custom
      = .ok (removes author target permission custom) := by
  unfold mayRemove removes
  rw [can_plain authorPlain]
  simp only [ok_bind, pure_eq_ok]
  grind

-- A role named like a property of `Object.prototype`

theorem permissionsOf_inherited {role : String} (proto : role ∈ objectPrototype)
    (custom : Custom)
    : permissionsOf (some role) custom = .inherited := by
  simp only [objectPrototype, List.mem_cons, List.not_mem_nil, or_false] at proto
  rcases proto with rfl | rfl | rfl | rfl | rfl | rfl | rfl | rfl | rfl | rfl | rfl | rfl
    <;> rfl

theorem rankOf_inherited {role : String} (proto : role ∈ objectPrototype)
    : rankOf (some role) = none := by
  simp only [objectPrototype, List.mem_cons, List.not_mem_nil, or_false] at proto
  rcases proto with rfl | rfl | rfl | rfl | rfl | rfl | rfl | rfl | rfl | rfl | rfl | rfl
    <;> rfl

theorem ne_of_inherited {role name : String} (proto : role ∈ objectPrototype)
    (plain : name ∉ objectPrototype)
    : role ≠ name :=
  fun same => plain (same ▸ proto)

theorem can_inherited {role : String} (proto : role ∈ objectPrototype) (permission : String)
    (custom : Custom)
    : can (some role) permission custom = .error .notAFunction := by
  have owner : role ≠ "owner" := ne_of_inherited proto (by decide)
  simp [can, includes, owner, permissionsOf_inherited proto]

/-- Assigning it throws unless the author may not assign at all, is the owner, or is
stopped by the member's present rank.
-/
theorem mayAssign_inherited {author current : Option String} {role : String}
    (authorPlain : Plain author) (proto : role ∈ objectPrototype) (custom : Custom)
    : mayAssign author current role custom
      = if !holds author "roles" custom || current = some "owner" then .ok false
        else if author = some "owner" then .ok true
        else if truthy current && atLeast (rankOf current) (rankOf author) then .ok false
        else .error .notAFunction := by
  have owner : role ≠ "owner" := ne_of_inherited proto (by decide)
  unfold mayAssign
  rw [can_plain authorPlain, permissionsOf_inherited proto, rankOf_inherited proto]
  simp only [ok_bind, pure_eq_ok, throw_eq_error, owner, grantable, atLeast]
  by_cases notAuthor : author = some "owner"
  · simp [notAuthor, holds]
  · simp [notAuthor]
    grind

/-- Inviting to it throws for whoever may invite but the owner, who may. -/
theorem mayInvite_inherited {maker : Option String} {role : String}
    (makerPlain : Plain maker) (proto : role ∈ objectPrototype) (custom : Custom)
    : mayInvite maker role custom
      = if !holds maker "invite" custom then .ok false
        else if maker = some "owner" then .ok true
        else .error .notAFunction := by
  have owner : role ≠ "owner" := ne_of_inherited proto (by decide)
  have other : some role ≠ maker := fun same => makerPlain role same.symm proto
  unfold mayInvite
  rw [can_plain makerPlain, permissionsOf_inherited proto, rankOf_inherited proto]
  simp only [ok_bind, pure_eq_ok, throw_eq_error, owner, other, grantable, atLeast]
  by_cases notMaker : maker = some "owner"
  · simp [notMaker]
  · simp [notMaker]

end Hypergraph.Decisions
