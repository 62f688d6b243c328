import Hypergraph.Invites
import Hypergraph.Decisions.Roles
import Hypergraph.Decisions.View

/-! Applying decisions (`lib/decisions/apply.js`): what each decision of the log does to the
view, in the order every member applies them. A decision counts only if its author held the
permission at that point; anything else is skipped. A step that throws is `Except.error`.
-/

namespace Hypergraph.Decisions

open Wire Js Encodings Invites

/-- What the program takes from outside: the packages it calls, Autobase's answer to
`removeable` after the calls made so far, and the checked form of a types declaration
(`lib/types.js`: the text recorded for it, given the current version's if there is one).
-/
structure Env where
  c : Primitives
  keys : IdentityKey
  hash : Bytes → Bytes
  removeable : List HostCall → Key → Bool
  declared : String → Option String → Option String
  /-- The space's own key. -/
  space : Key

def nsWriter : Bytes := utf8 "hypergraph/writer\x00"

def nsRemove : Bytes := utf8 "hypergraph/device-remove\x00"

/-- What a member signs to say "this writer key of the decision log is mine". -/
def writerSignable (writerKey space : Key) : Bytes := nsWriter ++ writerKey ++ space

/-- What the identity key signs to remove a device; a `null` cut cannot be joined. -/
def removalSignable (space device : Key) (cut : Buffer) : Run Bytes :=
  match cut with
  | none => throw .nullValue
  | some cut => return nsRemove ++ space ++ device ++ cut

def policies : List String := ["auto", "everything"]

def histories : List String := ["visible", "hidden"]

def maxHelpers : Nat := 8

def maxListed : Nat := 1000

def maxTypes : Nat := 32 * 1024

/-- What may be decided inside a sub-space. -/
def scopedTypes : List String :=
  ["member/remove", "role/set", "moderate", "invite/redeem", "invite/revoke", "key/rotate",
    "settings/set", "subspace/create"]

/-- A helper key: 32 bytes in lower-case hex. -/
def isHelper (key : String) : Bool :=
  key.toList.length = 64
    && key.toList.all fun c => ('0' ≤ c && c ≤ '9') || ('a' ≤ c && c ≤ 'f')

def validHelpers (list : List String) : Option (List String) :=
  if list.length > maxHelpers || !list.all isHelper then none else some list.eraseDups

def validLimit (limit : WriteLimit) : Bool := 1 ≤ limit.records && 1 ≤ limit.periodMs

-- Sub-spaces

/-- One sub-space of this space, as `subspacesOf` lists it. -/
structure SubInfo where
  key : Key
  parent : Scope
  priv : Bool
  deriving DecidableEq, Repr

def subspacesOf (v : View) : List SubInfo :=
  (v.subspaces.getD []).filterMap fun key =>
    (v.subspace key).map fun info => ⟨key, info.parent, info.priv⟩

/-- The loop of `chainOf`; it visits a sub-space at most once, so the count of all of them
bounds it.
-/
def chainFrom (v : View) : Nat → Scope → List Key → Run (Option (List Key))
  | _, none, chain => return some chain
  | 0, some _, _ => throw .endless
  | fuel + 1, some s, chain =>
      match v.subspace s with
      | none => return none
      | some node =>
          if chain.contains s then return none
          else chainFrom v fuel node.parent (chain ++ [s])

/-- A sub-space and the sub-spaces above it, nearest first, or nothing if it isn't one. -/
def chainOf (v : View) (scope : Key) : Run (Option (List Key)) :=
  chainFrom v ((v.subspaces.getD []).length + 1) (some scope) []

def belowFrom (subs : List SubInfo) (top : Scope) : Nat → Scope → Run Bool
  | fuel, s =>
      match s.bind fun key => subs.find? (·.key = key) with
      | none => return false
      | some info =>
          if info.parent = top then return true
          else match fuel with
            | 0 => throw .endless
            | fuel + 1 => belowFrom subs top fuel info.parent

/-- Is `scope` below `top`? -/
def below (subs : List SubInfo) (scope : Key) (top : Scope) : Run Bool :=
  belowFrom subs top subs.length (some scope)

/-- The scopes a decision about `chain` looks at: the sub-spaces, then the top space. -/
def scopesOf (chain : List Key) : List Scope := chain.map some ++ [none]

def bannedIn (v : View) (chain : List Key) (id : Key) : Bool :=
  (scopesOf chain).any fun s => (v.banned s id).isSome

/-- The loop of `memberIn`: one's own entry, else what the parent gives. -/
def ownMember (v : View) (id : Key) : List Key → Run (Option Member)
  | [] => return v.member none id
  | s :: up =>
      match v.member (some s) id with
      | some member => return some member
      | none => do
          match ← ownMember v id up with
          | none => return none
          | some above =>
              match v.subspace s with
              | none => throw .nullValue
              | some info =>
                  if info.priv && above.role ≠ "owner" && above.role ≠ "admin" then
                    return none
                  else return some above

/-- Someone's member entry as it counts in `chain`, or nothing: banned there or anywhere
above, or not a member; in a private sub-space the parent's members count only as owner or
admin.
-/
def memberIn (v : View) (chain : List Key) (id : Key) : Run (Option Member) :=
  if bannedIn v chain id then return none else ownMember v id chain

def roleIn (v : View) (chain : List Key) (id : Key) : Run (Option String) := do
  return (← memberIn v chain id).map Member.role

-- Custom roles, read as needed

def loadRole (v : View) (custom : Custom) (role : Option String) : Custom :=
  match role with
  | none => custom
  | some name =>
      if name = "" || lookup roles name ≠ .undefined || (custom name).isSome then custom
      else match v.role name with
        | none => custom
        | some entry => fun n => if n = name then some entry.permissions else custom n

def load (v : View) (custom : Custom) (names : List (Option String)) : Custom :=
  names.foldl (loadRole v) custom

-- Writer keys

def mayWrite (role : Option String) (custom : Custom) : Run Bool := do
  if ← can role "decide" custom then return true
  can role "moderate" custom

/-- The loop of `writesAnywhere` over an identity's roles, loading custom ones. -/
def writesLoop (v : View) : List (Option String) → Custom → Run (Bool × Custom)
  | [], custom => return (false, custom)
  | role :: rest, custom => do
      if !truthy role then writesLoop v rest custom
      else
        let custom := loadRole v custom role
        if ← mayWrite role custom then return (true, custom)
        writesLoop v rest custom

/-- An identity's role in the top space and in each sub-space. -/
def rolesOf (v : View) (id : Key) : Run (List (Option String)) := do
  let top ← roleIn v [] id
  let below ← (subspacesOf v).filterMapM fun s => do
    match ← chainOf v s.key with
    | some chain => return some (← roleIn v chain id)
    | none => return none
  return top :: below

/-- May this identity's devices write decisions: may it decide or moderate in the space, or
in one of its sub-spaces?
-/
def writesAnywhere (v : View) (id : Key) (custom : Custom) : Run (Bool × Custom) := do
  writesLoop v (← rolesOf v id) custom

def writersOf (v : View) (id : Key) : List Key := (v.writers id).getD []

/-- A device's writer key for `id`: kept unless known already, or the device was removed.
Returns whether it was added.
-/
def addKey (v : Counting) (id key : Key) (device : Option Key) : Bool × Counting :=
  if (v.view.writer key).isSome then (false, v)
  else if device.any fun device => (v.view.gone id device).isSome then (false, v)
  else
    let v := v.write (·.setWriter key (some ⟨id, device, false⟩))
    let v := v.write (·.setWriters id (some (writersOf v.view id ++ [key])))
    (true, v.call (.addWriter key false))

/-- The key a member joined with is added once their role writes decisions. -/
def addMemberKey (v : Counting) (id : Key) (role : String) (writer device : Option Key)
    (custom : Custom)
    : Run Counting := do
  match writer with
  | none => return v
  | some writer =>
      if ← mayWrite (some role) custom then return (addKey v id writer device).2
      return v

/-- The key no longer speaks for `id` (Autobase is told separately). -/
def forget (v : Counting) (id key : Key) : Counting :=
  let v := v.write (·.setWriter key none)
  let keys := (writersOf v.view id).filter (· ≠ key)
  v.write (·.setWriters id (if keys = [] then none else some keys))

/-- Autobase never removes its last settler. -/
def removeFromBase (env : Env) (v : Counting) (key : Key) : Counting :=
  if env.removeable v.host key then v.call (.removeWriter key) else v

/-- After any change to a member's roles or keys: unable to decide or moderate anywhere,
their keys go; with `decide` in the top space exactly one of their keys (the first) settles
the order; otherwise none does. Returns the roles loaded on the way too.
-/
def settle (env : Env) (v : Counting) (id : Key) (custom : Custom)
    : Run (Counting × Custom) := do
  let keys := writersOf v.view id
  let (writes, custom) ← writesAnywhere v.view id custom
  if !writes then
    return (keys.foldl (fun v key => removeFromBase env (forget v id key) key) v, custom)
  let role ← roleIn v.view [] id
  let nodes ← keys.mapM fun key =>
    match v.view.writer key with
    | none => throw .nullValue
    | some w => return (key, w)
  let settler := nodes.find? fun (_, w) => w.indexer
  if ← can role "decide" custom then
    if settler.isSome then return (v, custom)
    match nodes with
    | [] => return (v, custom)
    | (key, w) :: _ =>
        let v := v.write (·.setWriter key (some { w with indexer := true }))
        return (v.call (.addWriter key true), custom)
  else
    match settler with
    | none => return (v, custom)
    | some (key, w) =>
        let v := v.write (·.setWriter key (some { w with indexer := false }))
        if env.removeable v.host key then return (v.call (.addWriter key false), custom)
        return (v, custom)

-- Cuts

/-- The logs a decision names, with the lengths its decider held. -/
def named (entries : List CutEntry) : Lengths :=
  assigned (entries.map fun entry => (entry.log, entry.length))

/-- Someone just lost the right to write: their logs count up to the lengths the decider
held. A log cut earlier keeps its first cut.
-/
def recordCut (v : Counting) (scope : Scope) (id : Key) (entries : List CutEntry)
    (stamp : Nat)
    : Counting :=
  let logs :=
    match v.view.cut scope id with
    | none => named entries
    | some node => spread (named entries) node.logs
  let v := v.write (·.setCut scope id (some ⟨logs, stamp⟩))
  v.write (·.setAdmit scope id none)

/-- Someone with a cut is let back in: the decision's code. Kept until their next cut. -/
def admitBack (v : Counting) (scope : Scope) (id : Key) (role : String) (custom : Custom)
    (code : Option Key)
    : Run Counting := do
  match code with
  | none => return v
  | some code =>
      if !(← can (some role) "post" custom) then return v
      if (v.view.cut scope id).isNone then return v
      if (v.view.admits scope id).isSome then return v
      return v.write (·.setAdmit scope id (some code))

/-- The permissions a role change, a removal or a ban takes away, but `post`. -/
def lostPermissions (before after : Option String) (custom : Custom) : Run (List String) :=
  match permissionsOf before custom with
  | .undefined => return []
  | .inherited => throw .notAFunction
  | .own list =>
      list.filterM fun p => do
        if p = "post" then return false
        return !(← includes (permissionsOf after custom) p)

/-- Someone lost app permissions: their records relying on them count up to the lengths the
decider held. A log's first cut per permission stays.
-/
def recordEditCuts (v : Counting) (scope : Scope) (id : Key) (lost : List String)
    (entries : List CutEntry)
    : Counting :=
  if lost = [] then v
  else
    let perms := lost.foldl
      (fun perms p => set perms p (spread (named entries) ((perms.lookup p).getD [])))
      ((v.view.editcut scope id).getD [])
    v.write (·.setEditcut scope id (some perms))

/-- Does a change take the right to write: `can(before, 'post') && !can(after, 'post')`? -/
def losesPost (before after : Option String) (custom : Custom) : Run Bool := do
  if !(← can before "post" custom) then return false
  return !(← can after "post" custom)

/-- Removed from `scope`: their own entries in every sub-space below it go too. -/
def dropBelow (v : Counting) (scope : Scope) (id : Key) : Run Counting :=
  let subs := subspacesOf v.view
  subs.foldlM
    (fun v s => do
      if !(← below subs s.key scope) then return v
      if (v.view.member (some s.key) id).isSome then
        return v.write (·.setMember (some s.key) id none)
      return v)
    v

/-- A ban with `drop: 'all'`: every log the decision names, and every log a cut of theirs
names in the scope and below already, counts up to 0, overriding earlier cuts.
-/
def dropAll (v : Counting) (scope : Scope) (id : Key) (entries : List CutEntry)
    (stamp : Nat)
    : Run Counting := do
  let subs := subspacesOf v.view
  let belowKeys ← subs.filterM fun s => below subs s.key scope
  let scopes := scope :: belowKeys.map (some ·.key)
  let zero (logs : List Key) : Lengths := logs.map fun log => (log, 0)
  let v := scopes.foldl
    (fun v s =>
      let node := v.view.cut s id
      let logs := zero (entries.map (·.log) ++ (node.elim [] (·.logs)).map Prod.fst)
      let v :=
        if s = scope || node.isSome then v.write (·.setCut s id (some ⟨logs, stamp⟩)) else v
      match v.view.editcut s id with
      | none => v
      | some edits =>
          let perms := edits.map fun (p, logs) => (p, zero (logs.map Prod.fst))
          v.write (·.setEditcut s id (some perms)))
    v
  return v.write (·.setAdmit scope id none)

-- One decision

/-- What every decision but `space/init` is judged with: the sub-space it is about and
those above it (`chain`), its author and their role there, the custom roles loaded, its
stamp and its code.
-/
structure Context where
  chain : List Key
  author : Key
  authorRole : Option String
  custom : Custom
  stamp : Nat
  code : Option Key

/-- The scope the decision is about. -/
def Context.scope (x : Context) : Scope := x.chain.head?

def applySpaceInit (env : Env) (stamp : Nat) (d : SpaceInit) (writer : Key) (v : Counting)
    : Counting :=
  if (v.view.metaOf none).isSome then v
  else if writer ≠ env.space then v
  else
    match Identity.verify env.keys d.proof (writerSignable writer env.space) with
    | none => v
    | some info =>
        let owner := info.identity
        let v := v.write (·.setMeta none (some {
          name := some d.name
          owner := some owner
          policy := some d.policy
          priv := d.priv
          version := some d.version
          parent := d.parent
          stamp := some stamp }))
        let v := v.write (·.setMember none owner
          (some { role := "owner", by_ := owner, stamp := stamp }))
        let v := v.write (·.setWriter writer (some ⟨owner, some info.device, true⟩))
        v.write (·.setWriters owner (some [writer]))

def applyMemberAdd (x : Context) (id : Key) (v : Counting) : Run Counting := do
  if x.scope.isSome then return v
  if !(← can x.authorRole "decide" x.custom) then return v
  if truthy (← roleIn v.view x.chain id) then return v
  if (v.view.banned none id).isSome then return v
  let v := v.write (·.setMember none id
    (some { role := "member", by_ := x.author, stamp := x.stamp }))
  admitBack v x.scope id "member" x.custom x.code

def applyMemberRemove (env : Env) (x : Context) (d : MemberRemove) (v : Counting)
    : Run Counting := do
  let id := d.identity
  let role ← roleIn v.view x.chain id
  let custom := load v.view x.custom [role]
  if !truthy role then return v
  if !(← mayRemove x.authorRole role "decide" custom) then return v
  if (v.view.member x.scope id).isNone then return v
  let v := v.write (·.setMember x.scope id none)
  let v ← dropBelow v x.scope id
  let after ← roleIn v.view x.chain id
  let custom := load v.view custom [after]
  let loses ← losesPost role after custom
  let v := if loses then recordCut v x.scope id d.cut x.stamp else v
  let v := recordEditCuts v x.scope id (← lostPermissions role after custom) d.cut
  return (← settle env v id custom).1

def applyRoleDefine (x : Context) (d : RoleDefine) (v : Counting) : Run Counting := do
  let name := d.name
  if x.scope.isSome then return v
  if !(← can x.authorRole "roles" x.custom) then return v
  if name = "" || lookup roles name ≠ .undefined then return v
  let permissions := (d.permissions.filter (· ≠ "")).eraseDups
  let taken := (v.view.role name).any fun node =>
    node.permissions.any fun p => !own.contains p && !permissions.contains p
  if taken then return v
  if !(← grantable x.authorRole (.own permissions) x.custom) then return v
  return v.write (·.setRole name (some ⟨permissions, x.author, x.stamp⟩))

def applyRoleSet (env : Env) (x : Context) (d : RoleSet) (v : Counting) : Run Counting := do
  let id := d.identity
  if bannedIn v.view x.chain id then return v
  let member ← memberIn v.view x.chain id
  let current := member.map Member.role
  let custom := load v.view x.custom [current, some d.role]
  if !(← mayAssign x.authorRole current d.role custom) then return v
  let writer := member.bind Member.writer
  let writerDevice := member.bind Member.writerDevice
  let v := v.write (·.setMember x.scope id
    (some ⟨d.role, x.author, x.stamp, writer, writerDevice⟩))
  let v ← admitBack v x.scope id d.role custom x.code
  let loses ← (if truthy current then losesPost current (some d.role) custom else .ok false)
  let v := if loses then recordCut v x.scope id d.cut x.stamp else v
  let lost ← (if truthy current then lostPermissions current (some d.role) custom else .ok [])
  let v := recordEditCuts v x.scope id lost d.cut
  let v ← addMemberKey v id d.role writer writerDevice custom
  return (← settle env v id custom).1

def applyBan (env : Env) (x : Context) (d : Moderate) (v : Counting) : Run Counting := do
  match d.target with
  | none => throw .nullValue
  | some id =>
      let all := d.drop = some "all"
      if id.length ≠ 32 then return v
      if (v.view.banned x.scope id).isSome then
        -- Banned already: `drop: 'all'` still drops what they wrote.
        if all then return ← dropAll v x.scope id d.cut x.stamp
        return v
      let role ← roleIn v.view x.chain id
      let custom := load v.view x.custom [role]
      if !(← mayRemove x.authorRole role "moderate" custom) then return v
      let v := v.write (·.setBanned x.scope id (some ⟨x.author, d.reason, x.stamp, all⟩))
      if !truthy role then
        -- Someone with no role here may write in a sub-space below (a guest).
        let v := if d.cut ≠ [] then recordCut v x.scope id d.cut x.stamp else v
        let v ← (if all then dropAll v x.scope id d.cut x.stamp else .ok v)
        return (← settle env v id custom).1
      let v := v.write (·.setMember x.scope id none)
      let posts ← can role "post" custom
      let v := if posts then recordCut v x.scope id d.cut x.stamp else v
      let v := recordEditCuts v x.scope id (← lostPermissions role none custom) d.cut
      let v ← (if all then dropAll v x.scope id d.cut x.stamp else .ok v)
      return (← settle env v id custom).1

def applyUnban (x : Context) (d : Moderate) (v : Counting) : Run Counting := do
  match d.target with
  | none => throw .nullValue
  | some id =>
      if id.length ≠ 32 then return v
      match v.view.banned x.scope id with
      | none => return v
      | some ban =>
          let byRole ← roleIn v.view x.chain ban.by_
          if x.authorRole ≠ some "owner" && truthy byRole
              && less (rankOf x.authorRole) (rankOf byRole) then
            return v
          return v.write (·.setBanned x.scope id none)

/-- Flags, hides, reveals or removes a record. -/
def applyRecordAction (env : Env) (x : Context) (d : Moderate) (v : Counting) : Counting :=
  match d.target with
  | none => v
  | some target =>
      if (readBuffer (recordId env.c) d.target).isNone then v
      else
        let m := (v.view.mod x.scope target).getD {}
        if m.removed then v
        else
          let m :=
            if d.action = "flag" then { m with flagged := true }
            else if d.action = "hide" then { m with hidden := true }
            else if d.action = "reveal" then { m with hidden := false }
            else if d.action = "remove" then { m with removed := true }
            else m
          v.write (·.setMod x.scope target (some m))

def applyModerate (env : Env) (x : Context) (d : Moderate) (v : Counting) : Run Counting := do
  if !actions.contains d.action then return v
  if !(← can x.authorRole "moderate" x.custom) then return v
  if d.action = "ban" then applyBan env x d v
  else if d.action = "unban" then applyUnban x d v
  else return applyRecordAction env x d v

/-- The space an invite or a redemption about `scope` has to name. -/
def Env.here (env : Env) (scope : Scope) : Key := scope.getD env.space

/-- The same role in one sub-space the invite lists, where its maker may invite to it. -/
def route (x : Context) (inv : Invite) (id : Key) (custom : Custom) (subs : List SubInfo)
    (v : Counting) (key : Key)
    : Run Counting := do
  if !(← below subs key x.scope) then return v
  match ← chainOf v.view key with
  | none => return v
  | some subChain =>
      if bannedIn v.view subChain id then return v
      match ← memberIn v.view subChain inv.maker with
      | none => return v
      | some makerThere =>
          if !(← mayInvite (some makerThere.role) inv.role custom) then return v
          let there ← memberIn v.view subChain id
          let rank := rankOf (some inv.role)
          if there.any fun m => atLeast (rankOf (some m.role)) rank then return v
          if (v.view.member (some key) id).any fun m =>
              atLeast (rankOf (some m.role)) rank then
            return v
          let v := v.write (·.setMember (some key) id
            (some { role := inv.role, by_ := inv.maker, stamp := x.stamp }))
          admitBack v (some key) id inv.role custom x.code

/-- The redeemer's role in the invite's own scope. -/
def join (env : Env) (x : Context) (r : Redemption) (device : Key) (custom : Custom)
    (v : Counting)
    : Run (Counting × Custom) := do
  let inv := r.invite
  let id := r.identity
  let v := v.write (·.setMember x.scope id (some
    ⟨inv.role, inv.maker, x.stamp, some r.writer, some device⟩))
  let v ← admitBack v x.scope id inv.role custom x.code
  let v ← addMemberKey v id inv.role (some r.writer) (some device) custom
  settle env v id custom

def applyRedeem (env : Env) (x : Context) (redemption : Buffer) (v : Counting)
    : Run Counting := do
  if !(← can x.authorRole "decide" x.custom) then return v
  match readBuffer (Encodings.redemption env.c) redemption with
  | none => return v
  | some r =>
      match ← verifyRedemption env.c env.keys r env.space with
      | none => return v
      | some signer =>
          let inv := r.invite
          if inv.space ≠ env.here x.scope then return v
          let id := r.identity
          match inv.id with
          | none => throw .nullValue
          | some inviteId =>
              if bannedIn v.view x.chain id then return v
              if (v.view.redeemed x.scope inviteId id).isSome then return v
              if (v.view.revoked x.scope inviteId).isSome then return v
              if inv.expires ≠ 0 && inv.expires < x.stamp then return v
              let used := (v.view.uses x.scope inviteId).getD 0
              if inv.uses ≠ 0 && inv.uses ≤ used then return v
              let makerRole ← roleIn v.view x.chain inv.maker
              let custom := load v.view x.custom [makerRole, some inv.role]
              if !(← mayInvite makerRole inv.role custom) then return v
              let member ← memberIn v.view x.chain id
              let custom := load v.view custom [member.map Member.role]
              let lower := member.all fun m =>
                less (rankOf (some m.role)) (rankOf (some inv.role))
              let (v, custom) ← (if lower then join env x r signer.device custom v
                else .ok (v, custom))
              let subs := subspacesOf v.view
              let v ← inv.subspaces.foldlM (route x inv id custom subs) v
              let v := v.write (·.setRedeemed x.scope id inviteId
                (some ⟨x.stamp, x.author⟩))
              return v.write (·.setUses x.scope inviteId (some (used + 1)))

def applyRevoke (env : Env) (x : Context) (invite : Buffer) (v : Counting)
    : Run Counting := do
  match readBuffer (Encodings.invite env.c) invite with
  | none => return v
  | some inv =>
      if inv.space ≠ env.here x.scope then return v
      if !verifyInvite env.c env.keys inv env.space then return v
      if !(← can x.authorRole "decide" x.custom) && x.author ≠ inv.maker then return v
      match inv.id with
      | none => throw .nullValue
      | some inviteId =>
          if (v.view.revoked x.scope inviteId).isSome then return v
          return v.write (·.setRevoked x.scope inviteId (some ⟨x.author, x.stamp⟩))

def applyWriterAdd (env : Env) (x : Context) (d : WriterAdd) (v : Counting)
    : Run Counting := do
  if x.scope.isSome then return v
  match Identity.verify env.keys d.proof (writerSignable d.key env.space) with
  | none => return v
  | some info =>
      if info.device = info.identity then return v
      let (writes, custom) ← writesAnywhere v.view info.identity x.custom
      if !writes then return v
      match addKey v info.identity d.key (some info.device) with
      | (false, v) => return v
      | (true, v) => return (← settle env v info.identity custom).1

/-- The write limit a `settings/set` asks for: none, its removal, or a valid one. -/
inductive LimitChange
  | keep
  | lift
  | change (limit : WriteLimit)
  deriving DecidableEq, Repr

def limitChange (limit : Option WriteLimit) : LimitChange :=
  match limit with
  | none => .keep
  | some limit =>
      if limit.records = 0 then .lift
      else if validLimit limit then .change limit
      else .keep

/-- Only the owner, and in the top space, sets the helpers. -/
def allowedHelpers (x : Context) (d : SettingsSet) : Option (List String) :=
  if x.authorRole = some "owner" && x.scope.isNone then d.helpers.bind validHelpers else none

/-- The settings a `settings/set` leads to, or nothing if it asks for none that counts. -/
def nextMeta (v : View) (x : Context) (d : SettingsSet) : Option Meta :=
  let policy := d.policy.filter policies.contains
  let rules := d.rules.map sortedSet
  let limit := limitChange d.writeLimit
  let history := d.history.filter histories.contains
  let helpers := allowedHelpers x d
  let entry := v.metaOf x.scope
  let priv :=
    match x.scope with
    | some key => (v.subspace key).any Subspace.priv
    | none => entry.any Meta.priv
  let pub := d.pub = some true && !priv
  let old := entry.getD {}
  if policy.isNone && rules.isNone && limit = .keep && history.isNone && helpers.isNone
      && !pub then
    none
  else
    some { old with
      policy := policy.or old.policy
      rules := rules.or old.rules
      history := history.or old.history
      helpers := helpers.or old.helpers
      pub := pub || old.pub
      writeLimit :=
        match limit with
        | .keep => old.writeLimit
        | .lift => none
        | .change limit => some limit }

def applySettings (x : Context) (d : SettingsSet) (v : Counting) : Run Counting := do
  if !(← can x.authorRole "decide" x.custom) then return v
  match nextMeta v.view x d with
  | none => return v
  | some next => return v.write (·.setMeta x.scope (some next))

def applyTypes (env : Env) (x : Context) (d : TypesSet) (v : Counting) : Run Counting := do
  if x.scope.isSome then return v
  if !(← can x.authorRole "decide" x.custom) then return v
  if d.types.utf8ByteSize > maxTypes then return v
  let version := v.view.types.getD 0
  if d.version ≠ version + 1 then return v
  let next :=
    if version = 0 then env.declared d.types none
    else (v.view.typesAt version).bind fun current => env.declared d.types (some current)
  match next with
  | none => return v
  | some text =>
      let v := v.write (·.setTypesAt d.version (some text))
      return v.write (·.setTypes (some d.version))

def applyLogsList (x : Context) (logs : List ListedLog) (v : Counting) : Run Counting := do
  if x.scope.isSome then return v
  if !(← mayWrite x.authorRole x.custom) then return v
  return (logs.take maxListed).foldl
    (fun v entry =>
      if (v.view.listed entry.log).isSome then v
      else v.write (·.setListed entry.log (some entry.space)))
    v

def applySubspaceCreate (env : Env) (x : Context) (d : SubspaceCreate) (v : Counting)
    : Run Counting := do
  if !(← can x.authorRole "decide" x.custom) then return v
  if d.key = env.space || (v.view.subspace d.key).isSome then return v
  let writeRoles := (d.writeRoles.filter (· ≠ "")).eraseDups
  let v := v.write (·.setSubspace d.key
    (some ⟨d.name, d.priv, writeRoles, x.scope, x.author, x.stamp⟩))
  return v.write (·.setSubspaces (some (v.view.subspaces.getD [] ++ [d.key])))

def applyKeyRotate (x : Context) (d : KeyRotate) (v : Counting) : Run Counting := do
  if !(← mayWrite x.authorRole x.custom) then return v
  let priv ← match x.scope with
    | some key =>
        match v.view.subspace key with
        | some info => pure info.priv
        | none => throw .nullValue
    | none =>
        match v.view.metaOf none with
        | some entry => pure entry.priv
        | none => throw .nullValue
  if !priv then return v
  let epochs := (v.view.epochs x.scope).getD {}
  if (d.epoch : Int) = epochs.current + 1 then
    return v.write (·.setEpochs x.scope (some { epochs with
      current := d.epoch
      commits := (d.epoch, d.commit) :: epochs.commits }))
  if (d.epoch : Int) ≤ epochs.current && epochs.commits.lookup d.epoch ≠ some d.commit
      && (epochs.others.lookup d.commit).getD 0 = 0 then
    return v.write (·.setEpochs x.scope (some { epochs with
      others := (d.commit, d.epoch) :: epochs.others }))
  return v

def applyDeviceRemove (env : Env) (x : Context) (d : DeviceRemove) (v : Counting)
    : Run Counting := do
  if x.scope.isSome then return v
  let data ← removalSignable env.space d.device d.cut
  match Identity.verify env.keys d.proof data with
  | none => return v
  | some info =>
      if info.device ≠ info.identity then return v
      let id := info.identity
      if (v.view.gone id d.device).isSome then return v
      let v := v.write (·.setGone id d.device (some ⟨x.author, x.stamp⟩))
      let dropped := (writersOf v.view id).filter fun key =>
        (v.view.writer key).any fun w => w.device = some d.device
      let v := dropped.foldl (fun v key => forget v id key) v
      let (v, _) ← settle env v id x.custom
      return dropped.foldl (removeFromBase env) v

/-- The branches of the decision, once its author is known. -/
def applyBody (env : Env) (x : Context) (body : Body) (v : Counting) : Run Counting :=
  match body with
  | .memberAdd identity => applyMemberAdd x identity v
  | .memberRemove d => applyMemberRemove env x d v
  | .roleDefine d => applyRoleDefine x d v
  | .roleSet d => applyRoleSet env x d v
  | .moderate d => applyModerate env x d v
  | .inviteRedeem redemption => applyRedeem env x redemption v
  | .inviteRevoke invite => applyRevoke env x invite v
  | .writerAdd d => applyWriterAdd env x d v
  | .settingsSet d => applySettings x d v
  | .typesSet d => applyTypes env x d v
  | .logsList logs => applyLogsList x logs v
  | .subspaceCreate d => applySubspaceCreate env x d v
  | .keyRotate d => applyKeyRotate x d v
  | .deviceRemove d => applyDeviceRemove env x d v
  | .spaceInit _ | .inviteCreate _ | .scoped _ => return v

/-- What a decision by the writer of `writerNode` is judged with. -/
def contextOf (v : View) (chain : List Key) (writerNode : Writer) (stamp : Nat)
    (code : Option Key)
    : Run Context := do
  let authorRole ← roleIn v chain writerNode.identity
  return {
    chain := chain
    author := writerNode.identity
    authorRole := authorRole
    custom := loadRole v (fun _ => none) authorRole
    stamp := stamp
    code := code }

def applyOne (env : Env) (d : Decision) (writer : Key) (v : Counting) (chain : List Key)
    (code : Option Key)
    : Run Counting :=
  match d.body with
  | .spaceInit init => return applySpaceInit env d.stamp init writer v
  | body =>
      match v.view.writer writer with
      | none => return v
      | some writerNode => do
          let x ← contextOf v.view chain writerNode d.stamp code
          applyBody env x body v

-- The decision list

/-- What a decision says, readable; a `null` target cannot be written in hex. -/
def details (c : Primitives) (body : Body) : Run Details :=
  match body with
  | .spaceInit d => return .spaceInit d.name d.policy
  | .memberAdd identity => return .member identity
  | .memberRemove d => return .member d.identity
  | .roleDefine d => return .roleDefine d.name d.permissions
  | .roleSet d => return .roleSet d.identity d.role
  | .moderate d =>
      match d.target with
      | none => throw .nullValue
      | some target => return .moderate d.action target d.reason (d.drop.filter (· ≠ ""))
  | .inviteRedeem redemption =>
      match readBuffer (Encodings.redemption c) redemption with
      | none => return .none
      | some r =>
          match r.invite.id with
          | none => return .none
          | some id => return .redeem r.identity r.invite.role id r.invite.maker
  | .inviteRevoke invite =>
      match readBuffer (Encodings.invite c) invite with
      | none => return .none
      | some inv =>
          match inv.id with
          | none => return .none
          | some id => return .revoke id inv.role inv.maker
  | .settingsSet d => return .settings d.policy d.rules d.history d.helpers d.pub
  | .typesSet d => return .types d.version
  | .writerAdd d => return .key d.key
  | .deviceRemove d => return .removed d.device
  | .subspaceCreate d => return .subspace d.key d.name d.priv
  | .keyRotate d => return .epoch d.epoch
  | .inviteCreate _ | .scoped _ | .logsList _ => return .none

/-- Adds a decision to the list: who, what, when, and whether it counted. `w`: its writer's
entry before it was applied.
-/
def listDecision (env : Env) (v : View) (d : Decision) (writer : Key) (w : Option Writer)
    (counted : Bool) (scope : Scope)
    : Run View := do
  let seq := v.count.getD 0
  let shown ← details env.c d.body
  let entry : Listed := {
    type := d.body.type
    at_ := d.stamp
    writer := writer
    by_ := w.map Writer.identity
    device := w.bind Writer.device
    counted := counted
    details := shown
    space := scope }
  let entry ← match d.body with
    | .spaceInit _ =>
        if counted then
          match v.metaOf none with
          | none => throw .nullValue
          | some info => pure { entry with
              by_ := info.owner
              device := (v.writer writer).bind Writer.device }
        else pure entry
    | _ => pure entry
  return (v.setList seq (some entry)).setCount (some (seq + 1))

-- The log

/-- A node of the decision log: its bytes and the writer it came from. -/
structure Node where
  value : Bytes
  from_ : Key
  deriving DecidableEq, Repr

/-- A node read: the decision, the sub-space it is about if it is `scoped`, and whether it
is ignored there.
-/
structure Incoming where
  decision : Decision
  scope : Scope
  ignored : Bool
  deriving DecidableEq, Repr

/-- What a node says; nothing for bytes that don't decode, at the top or inside `scoped`. -/
def readNode (c : Primitives) (value : Bytes) : Option Incoming := do
  let d ← (decision c).read value
  match d.body with
  | .scoped s =>
      let inner ← readBuffer (decision c) s.decision
      return ⟨inner, some s.space, !scopedTypes.contains inner.body.type⟩
  | _ => return ⟨d, none, false⟩

/-- A node's decision is one whose fields were read, at the top or inside `scoped`. -/
theorem readNode_body {c : Primitives} {value : Bytes} {d : Incoming}
    (reads : readNode c value = some d)
    : ∃ type bytes rest, decodeBody c type bytes = some (d.decision.body, rest) := by
  have decoded {bytes : Bytes} {told : Decision} (read : (decision c).read bytes = some told)
      : ∃ type bytes rest, decodeBody c type bytes = some (told.body, rest) := by
    simp only [Codec.read, decision, Option.bind_eq_bind, Option.map_eq_some_iff,
      Option.bind_eq_some_iff] at read
    obtain ⟨_, ⟨⟨type, _⟩, _, ⟨stamp, after⟩, _, ⟨body, left⟩, fields, same⟩, rfl⟩ := read
    cases same
    exact ⟨type, after, left, fields⟩
  simp only [readNode, Option.bind_eq_bind, Option.bind_eq_some_iff] at reads
  obtain ⟨whole, outer, reads⟩ := reads
  split at reads
  · simp only [Option.bind_eq_some_iff, readBuffer] at reads
    obtain ⟨inner, ⟨bytes, _, read⟩, same⟩ := reads
    cases same
    exact decoded read
  · cases reads
    exact decoded outer

/-- The code of a node's decision, which a log made after it carries. -/
def Env.codeOf (env : Env) (node : Node) : Key := env.hash (node.from_ ++ node.value)

/-- The chain a decision is applied in, or nothing where it is not applied. -/
def chainFor (v : View) (d : Incoming) : Run (Option (List Key)) := do
  let chain ← match d.scope with
    | some scope => chainOf v scope
    | none => pure (some [])
  return if d.ignored then none else chain

/-- The view after a decision is applied, with the writes it made; not yet listed. -/
def applyIncoming (env : Env) (v : View) (node : Node) (d : Incoming) : Run Counting := do
  match ← chainFor v d with
  | none => return { view := v }
  | some chain =>
      applyOne env d.decision node.from_ { view := v } chain (some (env.codeOf node))

def applyNode (env : Env) (v : View) (node : Node) : Run View :=
  match readNode env.c node.value with
  | none => return v
  | some d => do
      let before := v.writer node.from_
      let counting ← applyIncoming env v node d
      match d.decision.body with
      | .logsList _ => return counting.view
      | _ =>
          listDecision env counting.view d.decision node.from_ before (0 < counting.writes)
            d.scope

/-- The log applied in order, from a view on. -/
def applyNodes (env : Env) (nodes : List Node) (v : View) : Run View :=
  nodes.foldlM (applyNode env) v

end Hypergraph.Decisions
