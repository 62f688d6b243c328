import Hypergraph.Decisions.Writers

/-! What each branch of `applyOne` that changes members, bans or roles computes, on a view the
log can make: its checks as plain conditions, and what it does once they pass.
-/

namespace Hypergraph.Decisions

open Wire Js Encodings Invites

/-- What `contextOf` gives: a chain, the author's recorded role in it, and that role loaded;
a decision of the log always has a code.
-/
structure Context.Fits (x : Context) (v : View) : Prop where
  path : IsChain v x.scope x.chain
  role : x.authorRole = State.recordedRole v x.chain x.author
  within : Within x.custom v
  known : Knows x.custom v x.authorRole
  code : x.code.isSome

section Fits

variable {x : Context} {v : View}

theorem Context.Fits.plain (fits : x.Fits v) (sound : v.Sound) : Plain x.authorRole := by
  rw [fits.role]
  exact sound.plain.recordedRole x.chain x.author

theorem Context.Fits.can (fits : x.Fits v) (sound : v.Sound) (permission : String)
    : can x.authorRole permission x.custom = .ok (holds x.authorRole permission v.custom) :=
  can_eq (fits.plain sound) fits.known permission

theorem Context.Fits.mayWrite (fits : x.Fits v) (sound : v.Sound)
    : mayWrite x.authorRole x.custom = .ok (decides x.authorRole v.custom) :=
  mayWrite_eq (fits.plain sound) fits.known

theorem Context.Fits.roleIn (fits : x.Fits v) (sound : v.Sound) (id : Key)
    : roleIn v x.chain id = .ok (State.recordedRole v x.chain id) :=
  recordedRole_recorded fits.path sound.topBan id

theorem Context.Fits.memberIn (fits : x.Fits v) (sound : v.Sound) (id : Key)
    : memberIn v x.chain id = .ok (State.member v x.chain id) :=
  memberIn_eq sound.topBan fits.path.recorded id

end Fits

-- What the helpers need, step by step

namespace View.Ready

variable {v w : View}

theorem onlyCuts (ready : v.Ready) (frame : v.OnlyCuts w) : w.Ready := by
  rw [frame]
  exact {
    tree := ready.tree.congr rfl rfl
    topBan := ready.topBan
    plain := ready.plain
    keys := ready.keys.congr rfl rfl }

theorem onlyWriters (ready : v.Ready) (frame : v.OnlyWriters w) (keys : w.WriterKeys)
    : w.Ready := by
  have parts : v.Tree ∧ v.TopBan ∧ v.PlainRoles := ⟨ready.tree, ready.topBan, ready.plain⟩
  refine ⟨?_, ?_, ?_, keys⟩
  · rw [frame]
    exact parts.1.congr rfl rfl
  · rw [frame]
    exact parts.2.1
  · rw [frame]
    exact parts.2.2

theorem addKey {v : Counting} (ready : v.view.Ready) (id key : Key) (device : Option Key)
    : (Decisions.addKey v id key device).2.view.Ready :=
  ready.onlyWriters (addKey_frame v id key device) (ready.keys.addKey id key device)

theorem settle {v : Counting} (ready : v.view.Ready) (env : Env) (id : Key)
    : (Effect.settle env v id).view.Ready :=
  ready.onlyWriters (settle_frame env v id) (ready.keys.settle id env)

/-- Giving a plain role to someone not banned in the top space. -/
theorem setMember (ready : v.Ready) {scope : Scope} {id : Key} {m : Member}
    (named : m.role ≠ "" ∧ m.role ∉ objectPrototype)
    (free : scope = none → v.banned none id = none)
    : (v.setMember scope id (some m)).Ready where
  tree := ready.tree.congr rfl rfl
  topBan i out := by
    have others := ready.topBan i out
    simp only [View.setMember_member]
    split
    · rename_i here
      obtain ⟨same, rfl⟩ := here
      have isNone := free same.symm
      simp [isNone] at out
    · exact others
  plain s i entry found := by
    simp only [View.setMember_member] at found
    split at found
    · cases found
      exact named
    · exact ready.plain s i entry found
  keys := ready.keys.congr rfl rfl

theorem fewer (ready : v.Ready) (frame : v.OnlyMembers w)
    (fewer : ∀ scope id, w.member scope id = none ∨ w.member scope id = v.member scope id)
    : w.Ready := by
  refine ⟨?_, fun i out => ?_, fun s i entry found => ?_, ?_⟩
  · rw [frame]
    exact ready.tree.congr rfl rfl
  · rw [frame] at out
    rcases fewer none i with gone | same
    · exact gone
    · rw [same]
      exact ready.topBan i out
  · rcases fewer s i with gone | same
    · rw [gone] at found
      cases found
    · exact ready.plain s i entry (same ▸ found)
  · rw [frame]
    exact ready.keys.congr rfl rfl

theorem removeMember (ready : v.Ready) (scope : Scope) (id : Key)
    : (v.setMember scope id none).Ready := by
  refine ready.fewer rfl fun s i => ?_
  simp only [View.setMember_member]
  split
  · exact .inl rfl
  · exact .inr rfl

theorem dropped (ready : v.Ready) (scope : Scope) (id : Key) : (v.dropped scope id).Ready := by
  refine ready.fewer rfl fun s i => ?_
  simp only [View.dropped]
  split
  · exact .inl rfl
  · exact .inr rfl

theorem setBanned (ready : v.Ready) (scope : Scope) (id : Key) (ban : Option Ban)
    (out : scope = none → v.member none id = none)
    : (v.setBanned scope id ban).Ready where
  tree := ready.tree.congr rfl rfl
  topBan i banned := by
    simp only [View.setBanned_banned] at banned
    split at banned
    · rename_i here
      obtain ⟨same, rfl⟩ := here
      exact out same.symm
    · exact ready.topBan i banned
  plain := ready.plain
  keys := ready.keys.congr rfl rfl

end View.Ready

namespace Effect

variable (env : Env) (x : Context)

-- Members

def memberAdd (id : Key) (v : Counting) : Counting :=
  admitBack (v.write (·.setMember none id (some { role := "member", by_ := x.author, stamp := x.stamp })))
    x.scope id "member" x.code

def memberRemove (d : MemberRemove) (v : Counting) : Counting :=
  let id := d.identity
  let custom := v.view.custom
  let role := State.recordedRole v.view x.chain id
  let v := dropBelow x.scope id (v.write (·.setMember x.scope id none))
  let after := State.recordedRole v.view x.chain id
  let v :=
    if holds role "post" custom && !holds after "post" custom then
      recordCut v x.scope id d.cut x.stamp
    else v
  settle env (recordEditCuts v x.scope id (lost role after custom) d.cut) id

/-- The key a member joined with, once their role writes decisions. -/
def addMemberKey (v : Counting) (id : Key) (role : String) (writer device : Option Key)
    : Counting :=
  match writer with
  | none => v
  | some writer =>
      if decides (some role) v.view.custom then (addKey v id writer device).2 else v

def roleSet (d : RoleSet) (v : Counting) : Counting :=
  let id := d.identity
  let custom := v.view.custom
  let member := State.member v.view x.chain id
  let current := member.map Member.role
  let writer := member.bind Member.writer
  let writerDevice := member.bind Member.writerDevice
  let v := v.write (·.setMember x.scope id
    (some ⟨d.role, x.author, x.stamp, writer, writerDevice⟩))
  let v := admitBack v x.scope id d.role x.code
  let v :=
    if holds current "post" custom && !holds (some d.role) "post" custom then
      recordCut v x.scope id d.cut x.stamp
    else v
  let v := recordEditCuts v x.scope id (lost current (some d.role) custom) d.cut
  settle env (addMemberKey v id d.role writer writerDevice) id

def roleDefine (name : String) (permissions : List String) (v : Counting) : Counting :=
  v.write (·.setRole name (some ⟨permissions, x.author, x.stamp⟩))

-- Bans

def ban (id : Key) (d : Moderate) (v : Counting) : Counting :=
  let all := d.drop = some "all"
  let custom := v.view.custom
  let member := State.member v.view x.chain id
  let role := member.map Member.role
  let v := v.write (·.setBanned x.scope id (some ⟨x.author, d.reason, x.stamp, all⟩))
  let v :=
    if member.isNone then
      if d.cut ≠ [] then recordCut v x.scope id d.cut x.stamp else v
    else
      let v := v.write (·.setMember x.scope id none)
      let v := if holds role "post" custom then recordCut v x.scope id d.cut x.stamp else v
      recordEditCuts v x.scope id (lost role none custom) d.cut
  let v := if all then dropAll v x.scope id d.cut x.stamp else v
  settle env v id

-- Invites

/-- The same role in one sub-space an invite lists. -/
def route (inv : Invite) (id : Key) (custom : Custom) (v : Counting) (key : Key)
    : Counting :=
  match chainAt v.view key with
  | none => v
  | some chain =>
      if !belowAt v.view key x.scope || bannedIn v.view chain id then v
      else
        match State.member v.view chain inv.maker with
        | none => v
        | some makerThere =>
            if !invites (some makerThere.role) inv.role custom
                || (State.member v.view chain id).any (fun m =>
                  atLeast (rankOf (some m.role)) (rankOf (some inv.role))) then
              v
            else
              admitBack (v.write (·.setMember (some key) id
                (some { role := inv.role, by_ := inv.maker, stamp := x.stamp })))
                (some key) id inv.role x.code

/-- The redeemer's role in the invite's own scope, and the key they redeemed it with. -/
def arrive (r : Redemption) (device : Key) (v : Counting) : Counting :=
  let v := v.write (·.setMember x.scope r.identity (some
    ⟨r.invite.role, r.invite.maker, x.stamp, some r.writer, some device⟩))
  let v := admitBack v x.scope r.identity r.invite.role x.code
  addMemberKey v r.identity r.invite.role (some r.writer) (some device)

/-- The custom roles a redemption is judged with: its maker's, its own, its redeemer's. -/
def redeemCustom (r : Redemption) (v : View) : Custom :=
  let member := State.recordedRole v x.chain r.identity
  load v (load v x.custom [State.recordedRole v x.chain r.invite.maker, some r.invite.role])
    [member]

/-- A redemption is never a step down. -/
def joins (r : Redemption) (v : View) : Bool :=
  (State.member v x.chain r.identity).all fun m =>
    less (rankOf (some m.role)) (rankOf (some r.invite.role))

/-- A step up is taken, and the custom roles known by then. -/
def enter (r : Redemption) (device : Key) (v : Counting) : Counting × Custom :=
  let custom := redeemCustom x r v.view
  if joins x r v.view then
    let v := arrive x r device v
    (settle env v r.identity, loadedBy v.view (rolesAt v.view r.identity) custom)
  else (v, custom)

def redeem (r : Redemption) (device inviteId : Key) (v : Counting) : Counting :=
  let used := (v.view.uses x.scope inviteId).getD 0
  let (v, custom) := enter env x r device v
  let v := r.invite.subspaces.foldl (route x r.invite r.identity custom) v
  let v := v.write (·.setRedeemed x.scope r.identity inviteId (some ⟨x.stamp, x.author⟩))
  v.write (·.setUses x.scope inviteId (some (used + 1)))

-- Devices

def writerAdd (info : Attested) (key : Key) (v : Counting) : Counting :=
  if (addKey v info.identity key (some info.device)).1 then
    settle env (addKey v info.identity key (some info.device)).2 info.identity
  else v

/-- The writer keys of a removed device. -/
def keysOf (v : View) (id device : Key) : List Key :=
  (writersOf v id).filter fun key => (v.writer key).any fun w => w.device = some device

/-- A device noted as removed, and its keys forgotten. -/
def deviceGone (id device : Key) (v : Counting) : Counting :=
  (keysOf v.view id device).foldl (fun v key => forget v id key)
    (v.write (·.setGone id device (some ⟨x.author, x.stamp⟩)))

def deviceRemove (id device : Key) (v : Counting) : Counting :=
  (keysOf v.view id device).foldl (removeFromBase env) (settle env (deviceGone x id device v) id)

end Effect

end Hypergraph.Decisions
