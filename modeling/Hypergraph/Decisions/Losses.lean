import Hypergraph.Decisions.Kept

/-! What each kind of decision takes, and what it keeps of it: a cut is recorded for the role
lost in the decision's scope, none for what goes with that role in the sub-spaces below, and
none by a redemption or a role redefined.
-/

namespace Hypergraph.Decisions

open Wire Js Encodings Invites

-- What a redemption gives

namespace Effect

variable (x : Context)

/-- The entry a route gives, alone. -/
def routed (inv : Invite) (id : Key) (custom : Custom) (v : View) (key : Key) : View :=
  match chainAt v key with
  | none => v
  | some chain =>
      if !belowAt v key x.scope || bannedIn v chain id then v
      else
        match State.member v chain inv.maker with
        | none => v
        | some makerThere =>
            if !invites (some makerThere.role) inv.role custom
                || (State.member v chain id).any (fun m =>
                  atLeast (rankOf (some m.role)) (rankOf (some inv.role))) then
              v
            else
              v.setMember (some key) id
                (some { role := inv.role, by_ := inv.maker, stamp := x.stamp })

/-- The entries a redemption gives, alone. -/
def given (r : Redemption) (device : Key) (v : View) : View :=
  let custom := redeemCustom x r v
  let joined := v.setMember x.scope r.identity (some
    ⟨r.invite.role, r.invite.maker, x.stamp, some r.writer, some device⟩)
  if joins x r v then
    r.invite.subspaces.foldl (routed x r.invite r.identity
      (loadedBy joined (rolesAt joined r.identity) custom)) joined
  else r.invite.subspaces.foldl (routed x r.invite r.identity custom) v

end Effect

section Given

variable {env : Env} {x : Context}

theorem loadedBy_congr {v w : View} (same : w.role = v.role) (list : List (Option String))
    (custom : Custom)
    : loadedBy w list custom = loadedBy v list custom := by
  have loads (custom : Custom) (role : Option String)
      : loadRole w custom role = loadRole v custom role := by
    unfold loadRole
    rw [same]
  induction list generalizing custom with
  | nil => rfl
  | cons role rest ih => simp only [loadedBy, loads, ih, custom_congr same]

theorem SameRoster.rolesAt {v w : View} (same : SameRoster v w) (id : Key)
    : rolesAt w id = rolesAt v id := by
  unfold Decisions.rolesAt subspacesOf
  simp only [same.subspaces, same.subspace, same.recordedRole,
    chainAt_congr same.subspace same.subspaces]

theorem SameRoster.setMember {v w : View} (same : SameRoster v w) (scope : Scope) (id : Key)
    (entry : Option Member)
    : SameRoster (v.setMember scope id entry) (w.setMember scope id entry) :=
  ⟨by funext s i; simp [same.member], same.banned, same.subspace, same.subspaces, same.role,
    same.metaOf⟩

/-- A route changes the roster by its entry alone. -/
theorem routed_roster {v : View} {w : Counting} (same : SameRoster v w.view) (inv : Invite)
    (id : Key) (custom : Custom) (key : Key)
    : SameRoster (Effect.routed x inv id custom v key)
        (Effect.route x inv id custom w key).view := by
  have banned (chain : List Key) : bannedIn w.view chain id = bannedIn v chain id := by
    unfold bannedIn
    rw [same.banned]
  unfold Effect.routed Effect.route
  simp only [chainAt_congr same.subspace same.subspaces, same.stateMember, banned,
    belowAt_congr same.subspace same.subspaces]
  cases chainAt v key with
  | none => exact same
  | some chain =>
      dsimp only
      split
      · exact same
      · cases State.member v chain inv.maker with
        | none => exact same
        | some maker =>
            dsimp only
            split
            · exact same
            · exact (same.setMember _ _ _).trans (.onlyCuts (admit_frame (w.write _) _ _ _ _))

theorem foldl_routed_roster (inv : Invite) (id : Key) (custom : Custom) (list : List Key)
    {v : View} {w : Counting} (same : SameRoster v w.view)
    : SameRoster (list.foldl (Effect.routed x inv id custom) v)
        (list.foldl (Effect.route x inv id custom) w).view := by
  induction list generalizing v w with
  | nil => exact same
  | cons key rest ih => exact ih (routed_roster same inv id custom key)

variable (env) in
theorem given_roster (r : Redemption) (device inviteId : Key) (v : Counting)
    : SameRoster (Effect.given x r device v.view)
        (Effect.redeem env x r device inviteId v).view := by
  have noted (w : Counting) (used : Nat) : SameRoster w.view
      ((w.write (·.setRedeemed x.scope r.identity inviteId (some ⟨x.stamp, x.author⟩))).write
        (·.setUses x.scope inviteId (some used))).view := ⟨rfl, rfl, rfl, rfl, rfl, rfl⟩
  unfold Effect.given Effect.redeem Effect.enter
  split
  · have arrived := arrive_roster env x v r device
    obtain ⟨w, cuts, keys⟩ := arrive_frame (x := x) r device v
    have here := (SameRoster.onlyCuts cuts).trans (.onlyWriters keys)
    refine SameRoster.trans ?_ (noted _ _)
    rw [here.rolesAt, loadedBy_congr here.role]
    exact foldl_routed_roster _ _ _ _ arrived
  · exact (foldl_routed_roster _ _ _ _ (.refl v.view)).trans (noted _ _)

/-- Whoever else redeems, one's rights stay as they are. -/
theorem given_others {v : View} {i : Key} (r : Redemption) (device : Key)
    (other : i ≠ r.identity)
    : SameRights v (Effect.given x r device v) i
      ∧ (Effect.given x r device v).metaOf = v.metaOf := by
  have routes (custom : Custom) (list : List Key) (u : View)
      (start : SameRights v u i ∧ u.metaOf = v.metaOf)
      : SameRights v (list.foldl (Effect.routed x r.invite r.identity custom) u) i
        ∧ (list.foldl (Effect.routed x r.invite r.identity custom) u).metaOf = v.metaOf := by
    refine foldl_keeps (fun u => SameRights v u i ∧ u.metaOf = v.metaOf) _ ?_ list u start
    rintro u key ⟨rights, settings⟩
    unfold Effect.routed
    split
    · exact ⟨rights, settings⟩
    · split
      · exact ⟨rights, settings⟩
      · split
        · exact ⟨rights, settings⟩
        · split
          · exact ⟨rights, settings⟩
          · exact ⟨rights.trans (sameRights_setMember other _ _), settings⟩
  unfold Effect.given
  split
  · exact routes _ _ _ ⟨sameRights_setMember other _ _, rfl⟩
  · exact routes _ _ _ ⟨(SameRoster.refl v).rights, rfl⟩

end Given

-- What each kind leaves of the cuts

section SameCuts

variable {env : Env} {x : Context}

theorem admit_cuts (v : Counting) (scope : Scope) (id : Key) (role : String)
    (code : Option Key)
    : SameCuts v.view (Effect.admitBack v scope id role code).view := by
  unfold Effect.admitBack
  split
  · exact ⟨rfl, rfl⟩
  · split <;> exact ⟨rfl, rfl⟩

theorem route_cuts (inv : Invite) (id : Key) (custom : Custom) (v : Counting) (key : Key)
    : SameCuts v.view (Effect.route x inv id custom v key).view := by
  unfold Effect.route
  split
  · exact ⟨rfl, rfl⟩
  · split
    · exact ⟨rfl, rfl⟩
    · split
      · exact ⟨rfl, rfl⟩
      · split
        · exact ⟨rfl, rfl⟩
        · exact SameCuts.trans (v := (v.write _).view) ⟨rfl, rfl⟩ (admit_cuts _ _ _ _ _)

theorem redeem_cuts (r : Redemption) (device inviteId : Key) (v : Counting)
    : SameCuts v.view (Effect.redeem env x r device inviteId v).view := by
  have entered : SameCuts v.view (Effect.enter env x r device v).1.view := by
    unfold Effect.enter
    split
    · have given : SameCuts v.view (v.write (·.setMember x.scope r.identity (some
          ⟨r.invite.role, r.invite.maker, x.stamp, some r.writer, some device⟩))).view :=
        ⟨rfl, rfl⟩
      exact ((given.trans (admit_cuts _ _ _ _ _)).trans
        (.onlyWriters (addMemberKey_frame _ _ _ _))).trans (.onlyWriters (settle_frame env _ _))
    · exact ⟨rfl, rfl⟩
  have routed := foldl_keeps (fun w : Counting => SameCuts v.view w.view)
    (Effect.route x r.invite r.identity (Effect.enter env x r device v).2)
    (fun w key cuts => cuts.trans (route_cuts _ _ _ w key)) r.invite.subspaces _ entered
  exact ⟨routed.cut, routed.editcut⟩

theorem writerAdd_cuts (info : Attested) (key : Key) (v : Counting)
    : SameCuts v.view (Effect.writerAdd env info key v).view := by
  unfold Effect.writerAdd
  split
  · exact (SameCuts.onlyWriters (addKey_frame v _ _ _)).trans
      (.onlyWriters (settle_frame env _ info.identity))
  · exact ⟨rfl, rfl⟩

theorem deviceRemove_cuts (id device : Key) (v : Counting)
    : SameCuts v.view (Effect.deviceRemove env x id device v).view := by
  rw [deviceRemove_view]
  have noted : SameCuts v.view (v.view.setGone id device (some ⟨x.author, x.stamp⟩)) :=
    ⟨rfl, rfl⟩
  exact (noted.trans (.onlyWriters (deviceGone_frame id device))).trans
    (.onlyWriters (settle_frame env _ id))

end SameCuts

-- When a decision keeps what it takes

/-- The view with someone's entry gone in a scope, and theirs below it. -/
def Effect.removed (x : Context) (id : Key) (v : View) : View :=
  (v.setMember x.scope id none).dropped x.scope id

/-- A ban with `drop: 'all'`. -/
def dropsAll : Body → Bool
  | .moderate d => d.action = "ban" && d.drop = some "all"
  | _ => false

/-- What a decision takes, in every scope, it takes where it records the cut for it, or it
names nothing to keep; a redemption and a role redefined take nothing.
-/
def keepsWhatItTakes (env : Env) (x : Context) (v : View) : Body → Prop
  | .memberRemove d =>
      let before := State.recordedRole v x.chain d.identity
      let after := State.recordedRole (Effect.removed x d.identity v) x.chain d.identity
      Covered v (Effect.removed x d.identity v) d.identity
        (holds before "post" v.custom && !holds after "post" v.custom)
        (lost before after v.custom) d.cut
  | .roleSet d =>
      let before := State.recordedRole v x.chain d.identity
      Covered v (v.setMember x.scope d.identity (some (Effect.nextMember x d v))) d.identity
        (holds before "post" v.custom && !holds (some d.role) "post" v.custom)
        (lost before (some d.role) v.custom) d.cut
  | .moderate d =>
      d.action = "ban" → ∀ id, d.target = some id →
        let before := State.recordedRole v x.chain id
        Covered v (Effect.banned x id (Effect.banOf x d) v) id
          (before.isNone || holds before "post" v.custom) (lost before none v.custom) d.cut
  | .inviteRedeem redemption =>
      ∀ r device inviteId, accepted env v x redemption = some (r, device, inviteId)
        → TakesNothing v (Effect.given x r device v) r.identity
  | .roleDefine d =>
      (∃ scope chain id, IsChain v scope chain
        ∧ State.recordedRole v chain id = some d.name)
        → ∀ entry, v.role d.name = some entry → ∀ p ∈ entry.permissions, p ∈ definedAs d
  | _ => True

section Apart

variable {x : Context} {v : View}

/-- A chain that a scope is on goes through all that is above the scope. -/
theorem IsChain.passes {t : Scope} {chain : List Key} (path : IsChain v t chain) {s : Key}
    {up : List Key} {scope : Scope} (inner : IsChain v (some s) (s :: up))
    (met : s ∈ chain) (above : scope ∈ scopesOf up)
    : scope ∈ scopesOf chain := by
  obtain ⟨rest, restPath, part⟩ := path.suffix (mem_scopesOf.mpr met)
  cases restPath.unique inner
  cases scope with
  | none => exact none_mem_scopesOf chain
  | some key =>
      exact mem_scopesOf.mpr (part.mem (List.mem_cons_of_mem _ (mem_scopesOf.mp above)))

theorem removed_apart (tree : v.Tree) (id : Key) {t : Scope} {chain : List Key}
    (path : IsChain v t chain) (apart : x.scope ∉ scopesOf chain)
    : SameStanding v (Effect.removed x id v) chain id := by
  refine sameStanding_of (fun s met => ?_) (fun _ _ => rfl) (fun _ _ => rfl) rfl rfl
  have other : s ≠ x.scope := fun same => apart (same ▸ met)
  have above : s.any (fun key => belowAt (v.setMember x.scope id none) key x.scope) = false := by
    cases s with
    | none => rfl
    | some key =>
        rw [Option.any_some,
          belowAt_congr (v := v) (w := v.setMember x.scope id none) rfl rfl]
        cases below : belowAt v key x.scope with
        | false => rfl
        | true =>
            obtain ⟨up, inner, met'⟩ := (belowAt_iff tree).mp below
            exact absurd (path.passes inner (mem_scopesOf.mp met) met') apart
  simp [Effect.removed, View.dropped, above, other]

theorem setMember_apart (id : Key) (entry : Option Member) {chain : List Key}
    (apart : x.scope ∉ scopesOf chain)
    : SameStanding v (v.setMember x.scope id entry) chain id := by
  refine sameStanding_of (fun s met => ?_) (fun _ _ => rfl) (fun _ _ => rfl) rfl rfl
  have other : s ≠ x.scope := fun same => apart (same ▸ met)
  simp [other]

theorem setBanned_apart (id : Key) (ban : Option Ban) {chain : List Key}
    (apart : x.scope ∉ scopesOf chain)
    : SameStanding v (v.setBanned x.scope id ban) chain id := by
  refine sameStanding_of (fun _ _ => rfl) (fun s met => ?_) (fun _ _ => rfl) rfl rfl
  have other : s ≠ x.scope := fun same => apart (same ▸ met)
  simp [other]

theorem banned_apart (id : Key) (ban : Ban) {chain : List Key}
    (apart : x.scope ∉ scopesOf chain)
    : SameStanding v (Effect.banned x id ban v) chain id := by
  unfold Effect.banned
  split
  · exact setBanned_apart id _ apart
  · exact (setBanned_apart id _ apart).trans (setMember_apart id none apart)

end Apart

section Kinds

variable {env : Env} {x : Context} {v : Counting}

theorem memberRemove_keeps_iff (tree : v.view.Tree) (d : MemberRemove)
    : KeepsHeld (some d.cut) v.view (Effect.memberRemove env x d v).view
      ↔ keepsWhatItTakes env x v.view (.memberRemove d) := by
  have view : (Effect.dropBelow x.scope d.identity
      (v.write (·.setMember x.scope d.identity none))).view
      = Effect.removed x d.identity v.view :=
    dropBelow_view x.scope d.identity (tree.congr rfl rfl)
  have removed : SameCuts v.view (Effect.dropBelow x.scope d.identity
      (v.write (·.setMember x.scope d.identity none))).view := by
    rw [view]
    exact ⟨rfl, rfl⟩
  have cuts : CutsRecorded v.view (Effect.memberRemove env x d v).view x.scope d.identity
      (holds (State.recordedRole v.view x.chain d.identity) "post" v.view.custom
        && !holds (State.recordedRole (Effect.dropBelow x.scope d.identity
          (v.write (·.setMember x.scope d.identity none))).view x.chain d.identity) "post"
          v.view.custom)
      (lost (State.recordedRole v.view x.chain d.identity)
        (State.recordedRole (Effect.dropBelow x.scope d.identity
          (v.write (·.setMember x.scope d.identity none))).view x.chain d.identity)
        v.view.custom) d.cut :=
    ((cutsRecorded _ x.scope d.identity _ _ d.cut x.stamp).before removed).after
      (.onlyWriters (settle_frame env _ d.identity))
  rw [view] at cuts
  have same := memberRemove_roster env x v tree d
  refine keepsHeld_iff_covered cuts same (fun i other chain => ?_) fun t chain path apart =>
    removed_apart tree d.identity path apart
  exact ((sameRights_setMember other _ _).trans (sameRights_dropped other _)).standing rfl

theorem roleSet_keeps_iff (d : RoleSet)
    : KeepsHeld (some d.cut) v.view (Effect.roleSet env x d v).view
      ↔ keepsWhatItTakes env x v.view (.roleSet d) := by
  have given : SameCuts v.view (v.write (·.setMember x.scope d.identity
      (some (Effect.nextMember x d v.view)))).view := ⟨rfl, rfl⟩
  have cuts := (((cutsRecorded _ x.scope d.identity
    (holds (State.recordedRole v.view x.chain d.identity) "post" v.view.custom
      && !holds (some d.role) "post" v.view.custom)
    (lost (State.recordedRole v.view x.chain d.identity) (some d.role) v.view.custom)
    d.cut x.stamp).before (given.trans (admit_cuts _ x.scope d.identity d.role x.code))).after
    (.onlyWriters (addMemberKey_frame d.identity d.role
      ((State.member v.view x.chain d.identity).bind Member.writer)
      ((State.member v.view x.chain d.identity).bind Member.writerDevice)))).after
    (.onlyWriters (settle_frame env _ d.identity))
  exact keepsHeld_iff_covered cuts (roleSet_roster x v d)
    (fun i other chain => (sameRights_setMember other _ _).standing rfl)
    fun t chain path apart => setMember_apart d.identity _ apart

variable (env) in
/-- A ban of someone without a role records the cut it carries, if it carries any. -/
theorem ban_cuts (id : Key) (d : Moderate) (part : d.drop ≠ some "all")
    : CutsRecorded v.view (Effect.ban env x id d v).view x.scope id
        ((State.recordedRole v.view x.chain id).isNone
          || holds (State.recordedRole v.view x.chain id) "post" v.view.custom)
        (lost (State.recordedRole v.view x.chain id) none v.view.custom) d.cut := by
  unfold Effect.ban State.recordedRole
  simp only [part, if_false, decide_false]
  cases State.member v.view x.chain id with
  | none =>
      refine CutsRecorded.after (u := (if d.cut ≠ [] then recordCut (v.write (·.setBanned x.scope
        id (some ⟨x.author, d.reason, x.stamp, false⟩))) x.scope id d.cut x.stamp else _).view) ?_
        (.onlyWriters (settle_frame env _ id))
      have banned : SameCuts v.view (v.write (·.setBanned x.scope id
          (some ⟨x.author, d.reason, x.stamp, false⟩))).view := ⟨rfl, rfl⟩
      have cuts := (cutsRecorded (v.write (·.setBanned x.scope id
        (some ⟨x.author, d.reason, x.stamp, false⟩))) x.scope id true [] d.cut x.stamp).before
        banned
      split
      · exact cuts
      · rename_i empty
        have none : d.cut = [] := by simpa using empty
        rw [none]
        refine ⟨fun i log s => ?_, fun i p log s => ?_⟩
        · simp [named, assigned, cutHere]
        · simp [lost, listOf, permissionsOf, editCutHere]
  | some m =>
      have banned : SameCuts v.view ((v.write (·.setBanned x.scope id
          (some ⟨x.author, d.reason, x.stamp, false⟩))).write (·.setMember x.scope id none)).view :=
        ⟨rfl, rfl⟩
      exact ((cutsRecorded _ x.scope id _ _ d.cut x.stamp).before banned).after
        (.onlyWriters (settle_frame env _ id))

theorem ban_keeps_iff (id : Key) (d : Moderate) (part : d.drop ≠ some "all")
    (action : d.action = "ban") (target : d.target = some id)
    : KeepsHeld (some d.cut) v.view (Effect.ban env x id d v).view
      ↔ keepsWhatItTakes env x v.view (.moderate d) := by
  have kept := keepsHeld_iff_covered (ban_cuts env id d part) (banned_roster x v id d)
    (fun i other chain => (sameRights_banned other x _).standing (by
      unfold Effect.banned
      split <;> rfl))
    fun t chain path apart => banned_apart id _ apart
  refine kept.trans ⟨fun covered _ id' target' => ?_, fun all => all action id target⟩
  cases Option.some.inj (target.symm.trans target')
  exact covered

theorem redeem_keeps_iff (redemption : Buffer) (r : Redemption) (device inviteId : Key)
    (found : accepted env v.view x redemption = some (r, device, inviteId))
    : KeepsHeld none v.view (Effect.redeem env x r device inviteId v).view
      ↔ keepsWhatItTakes env x v.view (.inviteRedeem redemption) := by
  have same := given_roster env (x := x) r device inviteId v
  rw [keepsHeld_iff_takesNothing (redeem_cuts r device inviteId v)]
  have back (i : Key) (chain : List Key) : SameStanding (Effect.given x r device v.view)
      (Effect.redeem env x r device inviteId v).view chain i := same.standing
  constructor
  · intro taken r' device' inviteId' found'
    cases Option.some.inj (found.symm.trans found')
    intro t chain path
    obtain ⟨writes, edits⟩ := taken r.identity t chain path
    refine ⟨fun may => ?_, fun p may => ?_⟩
    · rw [← (back r.identity chain).canWrite]
      exact writes may
    · rw [← (back r.identity chain).can]
      exact edits p may
  · intro kept i
    by_cases theirs : i = r.identity
    · subst theirs
      intro t chain path
      obtain ⟨writes, edits⟩ := kept r device inviteId found t chain path
      exact ⟨fun may => (back _ chain).canWrite.trans (writes may),
        fun p may => (back _ chain).can.trans (edits p may)⟩
    · obtain ⟨rights, settings⟩ := given_others (x := x) (v := v.view) r device theirs
      exact takesNothing_of_standing fun t chain path =>
        (rights.standing settings).trans (back i chain)

theorem memberAdd_takesNothing (id : Key)
    (absent : State.member v.view [] id = none) (i : Key)
    : TakesNothing v.view (Effect.memberAdd x id v).view i := by
  have added := memberAdd_roster x v id
  by_cases theirs : i = id
  swap
  · exact takesNothing_of_standing fun t chain path =>
      ((sameRights_setMember theirs none _).standing rfl).trans added.standing
  subst theirs
  refine takesNothing_of_roles (v := v.view) added.custom
    (fun s _ => congrFun added.subspace s) fun t chain path role held => ?_
  have asAdded : SameStanding _ _ chain i := added.standing
  rw [asAdded.role]
  rcases State.member_inherits (v := v.view) (w := v.view.setMember none i
      (some { role := "member", by_ := x.author, stamp := x.stamp })) .top
      (fun s other => by simp [other]) (fun _ => rfl) rfl path with same | ⟨passes, old, new⟩
  · rwa [State.roleOf_congr same rfl rfl]
  · -- Nothing above counts for them yet, so the role they have is a public scope's.
    rw [absent, Option.filter_none] at old
    have fallback : role = "member" := by
      unfold State.roleOf at held
      rw [old] at held
      split at held
      · contradiction
      · split at held
        · exact (Option.some.inj held).symm
        · cases held
    have now : State.member (v.view.setMember none i
        (some { role := "member", by_ := x.author, stamp := x.stamp })) [] i
        = some { role := "member", by_ := x.author, stamp := x.stamp } := by
      simp [State.member]
    rw [now, Option.filter_some] at new
    rw [fallback] at held ⊢
    unfold State.roleOf at held ⊢
    rw [old] at held
    rw [new]
    cases passes { role := "member", by_ := x.author, stamp := x.stamp } with
    | true => rfl
    | false => exact held

/-- Someone banned could do nothing in the ban's scope. -/
theorem unban_takesNothing (sound : v.view.Sound) {scope : Scope} {id : Key}
    (banned : (v.view.banned scope id).isSome) (i : Key)
    : TakesNothing v.view (v.view.setBanned scope id none) i := by
  by_cases theirs : i = id
  swap
  · exact takesNothing_of_standing fun t chain path =>
      (sameRights_setBanned theirs scope none).standing rfl
  subst theirs
  refine takesNothing_of_roles rfl (fun _ _ => rfl) fun t chain path role held => ?_
  by_cases met : scope ∈ scopesOf chain
  · have out : bannedIn v.view chain i = true := by
      simp only [bannedIn, List.any_eq_true]
      exact ⟨scope, met, banned⟩
    unfold State.roleOf State.banned at held
    rw [State.member_banned sound.topBan out, out] at held
    simp at held
  · have bans (s : Scope) (inside : s ∈ scopesOf chain)
        : ((v.view.setBanned scope i none).banned s i).isSome = (v.view.banned s i).isSome := by
      have other : s ≠ scope := fun same => met (same ▸ inside)
      simp [other]
    have same : SameStanding v.view (v.view.setBanned scope i none) chain i :=
      sameStanding_of (fun _ _ => rfl) bans (fun _ _ => rfl) rfl rfl
    exact same.role.trans held

theorem settings_takesNothing {scope : Scope} {next : Meta}
    (kept : Resettled v.view scope next) (i : Key)
    : TakesNothing v.view (v.view.setMeta scope (some next)) i := by
  refine takesNothing_of_roles rfl (fun _ _ => rfl) fun t chain path role held => ?_
  have member : State.member (v.view.setMeta scope (some next)) chain i
      = State.member v.view chain i :=
    State.member_congr (fun _ _ => rfl) (fun _ _ => rfl) fun _ _ => rfl
  have banned : State.banned (v.view.setMeta scope (some next)) chain i
      = State.banned v.view chain i := rfl
  have settings (s : Scope) (open_ : (v.view.metaOf s).any Meta.pub = true)
      : ((v.view.setMeta scope (some next)).metaOf s).any Meta.pub = true := by
    rw [View.setMeta_metaOf]
    split
    · rename_i same
      subst same
      obtain ⟨entry, found, isPub⟩ := (Option.any_eq_true _ _).mp open_
      exact kept.pub (by simpa [found] using isPub)
    · exact open_
  have begun : ((v.view.setMeta scope (some next)).metaOf none).isSome := by
    rw [View.setMeta_metaOf]
    split
    · rfl
    · exact kept.begun
  have pub (open_ : State.pub v.view chain = true)
      : State.pub (v.view.setMeta scope (some next)) chain = true := by
    cases chain with
    | nil => exact settings none open_
    | cons s up =>
        simp only [State.pub, Bool.and_eq_true] at open_ ⊢
        exact ⟨begun, settings (some s) open_.2⟩
  unfold State.roleOf at held ⊢
  rw [member, banned]
  cases found : State.member v.view chain i with
  | some m =>
      rw [found] at held
      exact held
  | none =>
      rw [found] at held
      dsimp only at held ⊢
      split at held
      · rename_i open_
        simp only [Bool.and_eq_true] at open_
        rw [pub open_.1, open_.2]
        exact held
      · cases held

theorem subspaceCreate_takesNothing {d : SubspaceCreate} (new : v.view.subspace d.key = none)
    (i : Key)
    : TakesNothing v.view (Effect.subspaceCreate x d v.view) i := by
  have spaces (s : Key) (recorded : (v.view.subspace s).isSome)
      : (Effect.subspaceCreate x d v.view).subspace s = v.view.subspace s := by
    have other : s ≠ d.key := by
      rintro rfl
      rw [new] at recorded
      cases recorded
    simp [Effect.subspaceCreate, other]
  exact takesNothing_of_standing fun t chain path => sameStanding_of (fun _ _ => rfl)
    (fun _ _ => rfl) (fun s met => spaces s (path.recorded s met)) rfl rfl

/-- What a custom role holds. -/
theorem holds_custom {v : View} {name p : String} (unknown : lookup roles name = .undefined)
    (named : name ≠ "")
    : holds (some name) p v.custom = true
      ↔ ∃ entry, v.role name = some entry ∧ p ∈ entry.permissions := by
  have below : name ≠ "owner" := by
    rintro rfl
    cases unknown
  simp only [holds, listOf, permissionsOf, unknown, named, View.custom]
  cases v.role name <;> simp [below]

theorem holds_redefined_iff {v : View} {d : RoleDefine} {p : String}
    (unknown : lookup roles d.name = .undefined) (named : d.name ≠ "")
    : holds (some d.name) p (redefined v d) = true ↔ p ∈ definedAs d := by
  have below : d.name ≠ "owner" := by
    intro same
    rw [same] at unknown
    cases unknown
  simp [holds, listOf, permissionsOf, unknown, named, redefined, below]

/-- Redefining a role takes from those who have it the own permissions it had and has not. -/
theorem roleDefine_keeps_iff (d : RoleDefine) (defines : defines v.view x d = true)
    : KeepsHeld none v.view (Effect.roleDefine x d.name (definedAs d) v).view
      ↔ keepsWhatItTakes env x v.view (.roleDefine d) := by
  have cuts : SameCuts v.view (Effect.roleDefine x d.name (definedAs d) v).view := ⟨rfl, rfl⟩
  have custom : (Effect.roleDefine x d.name (definedAs d) v).view.custom
      = redefined v.view d := custom_setRole rfl
  have roles (chain : List Key) (i : Key)
      : State.roleOf (Effect.roleDefine x d.name (definedAs d) v).view chain i
        = State.roleOf v.view chain i :=
    State.roleOf_congr (State.member_congr (fun _ _ => rfl) (fun _ _ => rfl) fun _ _ => rfl)
      rfl rfl
  simp only [Decisions.defines, Bool.and_eq_true, decide_eq_true_eq] at defines
  obtain ⟨⟨⟨⟨_, named⟩, unknown⟩, _⟩, _⟩ := defines
  have recorded {chain : List Key} {i : Key} (held : State.roleOf v.view chain i = some d.name)
      : State.recordedRole v.view chain i = some d.name := by
    unfold State.roleOf at held
    unfold State.recordedRole
    split at held
    · rename_i m found
      rw [found]
      exact held
    · split at held
      · -- A public scope's own role is built in, and none of those is redefined.
        rw [← Option.some.inj held] at unknown
        cases unknown
      · cases held
  rw [keepsHeld_iff_takesNothing cuts]
  constructor
  · rintro taken ⟨t, chain, i, path, role⟩ entry found p listed
    have held : State.roleOf v.view chain i = some d.name := by
      obtain ⟨m, there, same⟩ := Option.map_eq_some_iff.mp role
      unfold State.roleOf
      rw [there]
      exact congrArg some same
    have may : State.can v.view chain i p = true := by
      unfold State.can
      rw [held]
      exact (holds_custom unknown named).mpr ⟨entry, found, listed⟩
    have still := (taken i t chain path).2 p may
    unfold State.can at still
    rw [roles, held, custom] at still
    exact (holds_redefined_iff unknown named).mp still
  · intro kept i t chain path
    have can (p : String) (may : State.can v.view chain i p = true)
        : State.can (Effect.roleDefine x d.name (definedAs d) v).view chain i p = true := by
      unfold State.can at may ⊢
      rw [roles, custom]
      by_cases theirs : State.roleOf v.view chain i = some d.name
      · rw [theirs] at may ⊢
        obtain ⟨entry, found, listed⟩ := (holds_custom unknown named).mp may
        exact (holds_redefined_iff unknown named).mpr
          (kept ⟨t, chain, i, path, recorded theirs⟩ entry found p listed)
      · rwa [holds_congr (permissionsOf_redefined theirs)]
    refine ⟨fun may => ?_, can⟩
    unfold State.canWrite at may ⊢
    rw [Bool.and_eq_true] at may ⊢
    rw [roles]
    exact ⟨can "post" may.1, may.2⟩

/-- A decision that counts, and drops no one's whole history, keeps what everyone had just
when it keeps what it takes.
-/
theorem Outcome.keeps_iff {w : Counting} {body : Body} (outcome : Outcome env x v body w)
    (sound : v.view.Sound) (fits : x.Fits v.view) (counts : v.writes < w.writes)
    (part : dropsAll body = false)
    : KeepsHeld (carried body) v.view w.view ↔ keepsWhatItTakes env x v.view body := by
  have sameRoster {cut : Option (List CutEntry)} (same : SameRoster v.view w.view)
      (cuts : SameCuts v.view w.view) : KeepsHeld cut v.view w.view :=
    keepsHeld_of_takesNothing cuts fun i =>
      takesNothing_of_standing fun _ _ _ => same.standing
  cases outcome with
  | skipped => exact absurd counts (Nat.lt_irrefl _)
  | memberAdd id top decides absent free =>
      refine iff_of_true (keepsHeld_of_takesNothing ?_ (memberAdd_takesNothing id ?_)) trivial
      · exact SameCuts.trans (v := (v.write _).view) ⟨rfl, rfl⟩ (admit_cuts _ _ _ _ _)
      · have chain : x.chain = [] := (top ▸ fits.path).eq_nil
        rwa [chain] at absent
  | memberRemove d => exact memberRemove_keeps_iff sound.tree d
  | roleDefine d defines => exact roleDefine_keeps_iff d defines
  | roleSet d => exact roleSet_keeps_iff d
  | ban d id action target =>
      exact ban_keeps_iff id d (by simpa [dropsAll, action] using part) action target
  | dropAll d id action target banned all => simp [dropsAll, action, all] at part
  | unban d id action target banned =>
      refine iff_of_true (keepsHeld_of_takesNothing ⟨rfl, rfl⟩
        (unban_takesNothing sound banned)) fun ban => ?_
      exact absurd (action.symm.trans ban) (by decide)
  | redeem redemption r device inviteId found =>
      exact redeem_keeps_iff redemption r device inviteId found
  | revoke => exact iff_of_true (sameRoster ⟨rfl, rfl, rfl, rfl, rfl, rfl⟩ ⟨rfl, rfl⟩) trivial
  | writerAdd d info =>
      exact iff_of_true (sameRoster (writerAdd_roster v info d.key)
        (writerAdd_cuts info d.key v)) trivial
  | settings d next w kept same =>
      rw [same]
      exact iff_of_true (keepsHeld_of_takesNothing ⟨rfl, rfl⟩ (settings_takesNothing kept))
        trivial
  | subspaceCreate d decides new w same =>
      rw [same]
      exact iff_of_true (keepsHeld_of_takesNothing ⟨rfl, rfl⟩ (subspaceCreate_takesNothing new))
        trivial
  | deviceRemove d id =>
      exact iff_of_true (sameRoster (deviceRemove_roster x v id d.device)
        (deviceRemove_cuts id d.device v)) trivial
  | notes body w kind frame =>
      refine iff_of_true (sameRoster (.onlyNotes frame) (.onlyNotes frame)) ?_
      cases body <;> simp_all [noteKind, keepsWhatItTakes]

end Kinds

theorem keepsHeld_of_unbegun {v w : View} (sound : v.Sound) (unbegun : v.metaOf none = none)
    (cut : Option (List CutEntry))
    : KeepsHeld cut v w := by
  have blank := sound.blank unbegun
  have none (chain : List Key) (id : Key) : State.roleOf v chain id = none := by
    have member : State.member v chain id = none := by
      cases found : State.member v chain id with
      | none => rfl
      | some m =>
          obtain ⟨scope, _, entry⟩ := State.member_entry found
          rw [blank.member] at entry
          cases entry
    have pub : State.pub v chain = false := by
      cases chain <;> simp [State.pub, unbegun]
    unfold State.roleOf
    rw [member, pub]
    rfl
  have can (chain : List Key) (id : Key) (p : String) : State.can v chain id p = false := by
    unfold State.can
    rw [none]
    rfl
  intro t chain path id log
  refine ⟨fun full => ?_, fun p full => ?_⟩
  · have may := (limitOf_eq_top.mp full).2
    unfold State.canWrite at may
    rw [can] at may
    cases may
  · have may := (editLimit_eq_top.mp full).2
    rw [can] at may
    cases may

/-- Whoever loses a right by a decision that counts keeps what the cut it carries names, just
when the decision keeps what it takes.
-/
theorem keepsHeld_iff {env : Env} {v w : View} {node : Node} {d : Incoming}
    (reached : Reachable env v) (counts : Counts env v node d)
    (ran : applyNode env v node = .ok w) (part : dropsAll d.decision.body = false)
    : KeepsHeld (carried d.decision.body) v w
      ↔ ∀ writer chain, v.writer node.from_ = some writer → chainHere v d = some chain
        → keepsWhatItTakes env (contextAt v chain writer d.decision.stamp (env.codeOf node)) v
          d.decision.body := by
  have sound := reached.sound
  cases unbegun : v.metaOf none with
  | none =>
      refine iff_of_true (keepsHeld_of_unbegun sound unbegun _) fun writer chain known => ?_
      rw [(sound.blank unbegun).writer] at known
      cases known
  | some info =>
      have begun : (v.metaOf none).isSome := by simp [unbegun]
      obtain ⟨writer, chain, applied, known, here, writes, outcome, frame⟩ :=
        counts.decided sound ran (counts.other sound begun)
      have path := chainHere_path sound.tree here
      have decision := outcome.keeps_iff (v := { view := v }) sound
        (contextAt_fits path writer d.decision.stamp (env.codeOf node)) writes part
      have listed : KeepsHeld (carried d.decision.body) v w
          ↔ KeepsHeld (carried d.decision.body) v applied.view := by
        have same : SameRoster applied.view w := .onlyNotes frame.onlyNotes
        have cuts : SameCuts applied.view w := .onlyNotes frame.onlyNotes
        have limits (chain : List Key) (id log : Key)
            : State.limitOf w chain id log = State.limitOf applied.view chain id log
              ∧ ∀ p, State.editLimit w chain id p log
                = State.editLimit applied.view chain id p log := by
          simp only [limitOf_eq_reach, editLimit_eq_reach, cuts.cutAt, cuts.editCutAt,
            same.standing.canWrite, same.standing.can, implies_true, and_self]
        unfold KeepsHeld
        simp only [limits]
      rw [listed, decision]
      refine ⟨fun kept writer' chain' known' here' => ?_, fun all => all writer chain known here⟩
      cases Option.some.inj (known.symm.trans known')
      cases Option.some.inj (here.symm.trans here')
      exact kept

-- A helper of a room made a member

/-- Helpers alone write in a room, and someone is one. -/
def roomHelperLog : List Node :=
  let space := keyOf 1
  [sent space 1 (initial space (keyOf 10) (keyOf 11)),
    sent space 2 (.roleDefine { name := "helper", permissions := ["post"] }),
    sent space 3 (.subspaceCreate {
      key := keyOf 5
      name := "room"
      priv := false
      writeRoles := ["helper"] }),
    sent space 4 (.roleSet { identity := keyOf 20, role := "helper", cut := [] })]

def demotion (cut : List CutEntry) : Body :=
  .roleSet { identity := keyOf 20, role := "member", cut := cut }

def demotionNode (cut : List CutEntry) : Node := sent (keyOf 1) 5 (demotion cut)

/-- As a member they write in the space as before, but no more in the room. -/
theorem demotes (cut : List CutEntry)
    (reads : readNode compact (demotionNode cut).value = some ⟨⟨5, demotion cut⟩, none, false⟩)
    (counted : ((applyNodes (idealEnv (keyOf 1)) roomHelperLog View.empty).toOption.bind fun v =>
      (applyIncoming (idealEnv (keyOf 1)) v (demotionNode cut)
        ⟨⟨5, demotion cut⟩, none, false⟩).toOption.bind fun a =>
      (applyNode (idealEnv (keyOf 1)) v (demotionNode cut)).toOption.map fun w =>
        decide (0 < a.writes) && chainAt v (keyOf 5) = some [keyOf 5]
          && State.canWrite v [keyOf 5] (keyOf 20) && !State.canWrite w [keyOf 5] (keyOf 20)
          && (State.cutAt v [keyOf 5] (keyOf 20) (keyOf 40)).isNone
          && (State.cutAt w [keyOf 5] (keyOf 20) (keyOf 40)).isNone) = some true)
    : ∃ v w d, Reachable (idealEnv (keyOf 1)) v
      ∧ Counts (idealEnv (keyOf 1)) v (demotionNode cut) d
      ∧ applyNode (idealEnv (keyOf 1)) v (demotionNode cut) = .ok w
      ∧ d.decision.body = demotion cut ∧ IsChain v (some (keyOf 5)) [keyOf 5]
      ∧ State.limitOf v [keyOf 5] (keyOf 20) (keyOf 40) = ⊤
      ∧ State.limitOf w [keyOf 5] (keyOf 20) (keyOf 40) = 0 := by
  simp only [Option.bind_eq_some_iff, Option.map_eq_some_iff, Bool.and_eq_true,
    decide_eq_true_eq, Bool.not_eq_true', Option.isNone_iff_eq_none] at counted
  obtain ⟨v, first, a, applied, w, second, ⟨⟨⟨⟨counts, room⟩, before⟩, after⟩, uncut⟩, none⟩ :=
    counted
  have reached : Reachable (idealEnv (keyOf 1)) v := ⟨roomHelperLog, ok_of_toOption first⟩
  refine ⟨v, w, _, reached, ⟨reads, a, ok_of_toOption applied, counts⟩, ok_of_toOption second,
    rfl, reached.sound.tree.chainAt_iff.mp room, limitOf_eq_top.mpr ⟨uncut, before⟩, ?_⟩
  rw [limitOf_eq_reach, none, after]
  rfl

/-- Witness: a decider who holds none of their logs. -/
theorem keepsHeld_demotion
    : ∃ v w d, Counts (idealEnv (keyOf 1)) v (demotionNode []) d
      ∧ KeepsHeld (carried d.decision.body) v w := by
  obtain ⟨v, w, d, reached, counts, ran, body, _⟩ :=
    demotes [] (by decide +kernel) (by decide +kernel)
  refine ⟨v, w, d, counts, (keepsHeld_iff reached counts ran (by rw [body]; rfl)).mpr ?_⟩
  intro writer chain _ _
  rw [body]
  exact ⟨fun _ _ _ _ _ => .inr fun _ _ => rfl, fun _ _ _ _ _ _ => .inr fun _ _ => rfl⟩

/-- What a helper wrote in the room counts no more, though the decider held five records. -/
theorem demotion_keeps_nothing
    : ∃ v w d, Reachable (idealEnv (keyOf 1)) v
      ∧ Counts (idealEnv (keyOf 1)) v (demotionNode [⟨keyOf 40, 5⟩]) d
      ∧ applyNode (idealEnv (keyOf 1)) v (demotionNode [⟨keyOf 40, 5⟩]) = .ok w
      ∧ dropsAll d.decision.body = false
      ∧ ¬KeepsHeld (carried d.decision.body) v w := by
  obtain ⟨v, w, d, reached, counts, ran, body, path, before, after⟩ :=
    demotes [⟨keyOf 40, 5⟩] (by decide +kernel) (by decide +kernel)
  refine ⟨v, w, d, reached, counts, ran, by rw [body]; rfl, fun kept => ?_⟩
  rw [body] at kept
  obtain ⟨entries, theirs, same⟩ :=
    (kept _ _ path (keyOf 20) (keyOf 40)).1 before (by simp [after])
  cases theirs
  rw [after] at same
  have five : (named [⟨keyOf 40, 5⟩]).lookup (keyOf 40) = some 5 := by decide
  rw [five] at same
  exact absurd same (by decide)

end Hypergraph.Decisions
