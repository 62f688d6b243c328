import Hypergraph.Decisions.Branches

/-! The branches of `applyOne` compute the effects given for them: their checks as plain
conditions on a view the log can make, and no step throws.
-/

namespace Hypergraph.Decisions

open Wire Js Encodings Invites

theorem knows_builtIn {name : String} {permissions : List String}
    (builtIn : lookup roles name = .own permissions) (custom : Custom) (v : View)
    : Knows custom v (some name) := by
  simp [Knows, permissionsOf, builtIn]

section Equations

variable {env : Env} {x : Context} {v : Counting}

theorem applyMemberAdd_eq (sound : v.view.Sound) (fits : x.Fits v.view) (id : Key)
    : applyMemberAdd x id v
      = .ok (if x.scope.isNone && holds x.authorRole "decide" v.view.custom
            && (State.member v.view x.chain id).isNone && (v.view.banned none id).isNone then
          Effect.memberAdd x id v
        else v) := by
  unfold applyMemberAdd
  simp only [fits.can sound, fits.roleIn sound, ok_bind, pure_eq_ok,
    sound.plain.truthy_recordedRole]
  cases scope : x.scope with
  | some s => simp
  | none =>
      cases holds x.authorRole "decide" v.view.custom with
      | false => simp
      | true =>
          cases State.member v.view x.chain id with
          | some m => simp
          | none =>
              cases v.view.banned none id with
              | some ban => simp
              | none =>
                  simp only [Option.isSome_none, Bool.false_eq_true, if_false, Bool.not_true,
                    admit_eq (show "member" ∉ objectPrototype by decide)
                      (knows_builtIn rfl x.custom _)]
                  simp [Effect.memberAdd, scope]

/-- Cuts recorded on the way leave what `settle` needs as it was. -/
theorem settle_after_cuts {w w' : Counting} (ready : w.view.Ready)
    (frame : w.view.OnlyCuts w'.view) {custom : Custom} (within : Within custom w.view)
    (id : Key)
    : (settle env w' id custom >>= fun settled => .ok settled.1)
      = .ok (Effect.settle env w' id) := by
  rw [settle_eq env (ready.onlyCuts frame) (within.congr (by rw [frame]))]
  rfl

/-- A cut recorded where someone loses a right changes cuts only. -/
theorem cutIf_frame (w : Counting) (loses : Bool) (scope : Scope) (id : Key)
    (entries : List CutEntry) (stamp : Nat)
    : w.view.OnlyCuts (if loses then recordCut w scope id entries stamp else w).view := by
  split
  · exact recordCut_frame w scope id entries stamp
  · rfl

theorem applyMemberRemove_eq (sound : v.view.Sound) (fits : x.Fits v.view)
    (d : MemberRemove)
    : applyMemberRemove env x d v
      = .ok (if (State.member v.view x.chain d.identity).isSome
            && removes x.authorRole (State.recordedRole v.view x.chain d.identity) "decide"
              v.view.custom
            && (v.view.member x.scope d.identity).isSome then
          Effect.memberRemove env x d v
        else v) := by
  unfold applyMemberRemove Effect.memberRemove
  have before := sound.plain.recordedRole x.chain d.identity
  have within := within_load fits.within [State.recordedRole v.view x.chain d.identity]
  have author := fits.known.load fits.within [State.recordedRole v.view x.chain d.identity]
  have role : Knows (load v.view x.custom [State.recordedRole v.view x.chain d.identity])
      v.view (State.recordedRole v.view x.chain d.identity) :=
    knows_load fits.within (by simp)
  revert within author role
  simp only [fits.roleIn sound, ok_bind, pure_eq_ok, sound.plain.truthy_recordedRole]
  generalize load v.view x.custom [State.recordedRole v.view x.chain d.identity] = custom
  intro within author role
  rw [mayRemove_eq (fits.plain sound) author]
  -- The three checks; each failed one leaves the view as it was.
  cases (State.member v.view x.chain d.identity).isSome with
  | false => rfl
  | true =>
  cases removes x.authorRole (State.recordedRole v.view x.chain d.identity) "decide"
    v.view.custom with
  | false => rfl
  | true =>
  cases v.view.member x.scope d.identity with
  | none => rfl
  | some entry =>
      have removed : (v.write (·.setMember x.scope d.identity none)).view.Ready :=
        sound.toReady.removeMember x.scope d.identity
      have view := dropBelow_view x.scope d.identity removed.tree
      simp only [Bool.not_true, Bool.false_eq_true, if_false, Option.isNone_some,
        dropBelow_eq x.scope d.identity removed.tree, ok_bind, Option.isSome_some,
        Bool.and_self, if_true]
      revert view
      generalize Effect.dropBelow x.scope d.identity
        (v.write (·.setMember x.scope d.identity none)) = w
      intro view
      have ready : w.view.Ready := by
        rw [view]
        exact removed.dropped x.scope d.identity
      have path : IsChain w.view x.scope x.chain := by
        rw [view]
        exact IsChain.congr (v := v.view) rfl fits.path
      have same : w.view.role = v.view.role := by
        rw [view]
        rfl
      have loaded := within_load (within.congr same)
        [State.recordedRole w.view x.chain d.identity]
      have known := (role.congr same).load (within.congr same)
        [State.recordedRole w.view x.chain d.identity]
      have after := ready.plain.recordedRole x.chain d.identity
      have isNamed : State.recordedRole w.view x.chain d.identity
          ∈ [State.recordedRole w.view x.chain d.identity] := by simp
      have knownAfter := knows_load (within.congr same) isNamed
      simp only [recordedRole_recorded path ready.topBan, ok_bind,
        losesPost_eq before after known knownAfter,
        lostPermissions_eq before after known knownAfter, custom_congr same]
      refine settle_after_cuts ready ?_ loaded d.identity
      exact (cutIf_frame w _ _ _ _ _).trans (recordEditCuts_frame _ _ _ _ _)

/-- The permissions a definition gives a role: named ones, each once. -/
def definedAs (d : RoleDefine) : List String := (d.permissions.filter (· ≠ "")).eraseDups

/-- Would a definition take a permission of the app, or `post`, from a role? -/
def takesFrom (v : View) (d : RoleDefine) : Bool :=
  (v.role d.name).any fun node =>
    node.permissions.any fun p => !own.contains p && !(definedAs d).contains p

theorem applyRoleDefine_eq (sound : v.view.Sound) (fits : x.Fits v.view) (d : RoleDefine)
    : applyRoleDefine x d v
      = .ok (if x.scope.isNone && holds x.authorRole "roles" v.view.custom && d.name ≠ ""
            && lookup roles d.name = .undefined && !takesFrom v.view d
            && grants x.authorRole (definedAs d) v.view.custom then
          Effect.roleDefine x d.name (definedAs d) v
        else v) := by
  unfold applyRoleDefine Effect.roleDefine takesFrom definedAs
  simp only [fits.can sound, ok_bind, pure_eq_ok, grantable_plain (fits.plain sound),
    grants_congr fits.known]
  generalize (d.permissions.filter (· ≠ "")).eraseDups = permissions
  generalize ((v.view.role d.name).any fun node =>
    node.permissions.any fun p => !own.contains p && !permissions.contains p) = taken
  generalize grants x.authorRole permissions v.view.custom = granted
  cases scope : x.scope with
  | some s => rfl
  | none =>
  cases holds x.authorRole "roles" v.view.custom with
  | false => rfl
  | true =>
      by_cases name : d.name = ""
      · simp [name]
      · by_cases free : lookup roles d.name = .undefined
        · cases taken <;> cases granted <;> simp [name, free]
        · simp [name, free]

theorem ne_empty_of_assigns {author current : Option String} {role : String}
    {custom : Custom} (assigned : assigns author current role custom = true)
    : role ≠ "" := by
  rintro rfl
  simp [assigns, permissionsOf] at assigned

theorem not_banned_none {v : View} {chain : List Key} {id : Key}
    (free : bannedIn v chain id = false)
    : v.banned none id = none := by
  simp only [bannedIn, List.any_eq_false] at free
  simpa using free none (by simp)

theorem addMemberKey_eq {role : String} {custom : Custom} (plain : role ∉ objectPrototype)
    (known : Knows custom v.view (some role)) (id : Key) (writer device : Option Key)
    : addMemberKey v id role writer device custom
      = .ok (Effect.addMemberKey v id role writer device) := by
  unfold addMemberKey Effect.addMemberKey
  cases writer with
  | none => rfl
  | some writer =>
      simp only [mayWrite_eq (by simpa using plain) known, ok_bind]
      cases decides (some role) v.view.custom <;> rfl

theorem addMemberKey_frame (id : Key) (role : String) (writer device : Option Key)
    : v.view.OnlyWriters (Effect.addMemberKey v id role writer device).view := by
  unfold Effect.addMemberKey
  split
  · rfl
  · split
    · exact addKey_frame v id _ device
    · rfl

theorem View.WriterKeys.addMemberKey (keys : v.view.WriterKeys) (id : Key) (role : String)
    (writer device : Option Key)
    : (Effect.addMemberKey v id role writer device).view.WriterKeys := by
  unfold Effect.addMemberKey
  split
  · exact keys
  · split
    · exact keys.addKey id _ device
    · exact keys

theorem applyRoleSet_eq (sound : v.view.Sound) (fits : x.Fits v.view) (d : RoleSet)
    (plain : d.role ∉ objectPrototype)
    : applyRoleSet env x d v
      = .ok (if !bannedIn v.view x.chain d.identity
            && assigns x.authorRole (State.recordedRole v.view x.chain d.identity) d.role
              v.view.custom then
          Effect.roleSet env x d v
        else v) := by
  obtain ⟨member, found⟩ : ∃ m, State.member v.view x.chain d.identity = m := ⟨_, rfl⟩
  obtain ⟨custom, load⟩ : ∃ c, load v.view x.custom [member.map Member.role, some d.role] = c :=
    ⟨_, rfl⟩
  have before : Plain (member.map Member.role) :=
    found ▸ sound.plain.recordedRole x.chain d.identity
  have isTruthy : truthy (member.map Member.role) = member.isSome :=
    found ▸ sound.plain.truthy_recordedRole x.chain d.identity
  have role : Knows custom v.view (member.map Member.role) :=
    load ▸ knows_load fits.within (by simp)
  have given : Knows custom v.view (some d.role) := load ▸ knows_load fits.within (by simp)
  have within : Within custom v.view := load ▸ within_load fits.within _
  have author : Knows custom v.view x.authorRole := load ▸ fits.known.load fits.within _
  have isGiven : Plain (some d.role) := by simpa using plain
  unfold applyRoleSet Effect.roleSet
  simp only [fits.memberIn sound, ok_bind, pure_eq_ok, State.recordedRole, found, load,
    mayAssign_eq (fits.plain sound) plain author given]
  cases banned : bannedIn v.view x.chain d.identity with
  | true => rfl
  | false =>
  cases assigned : assigns x.authorRole (member.map Member.role) d.role v.view.custom with
  | false => rfl
  | true =>
      obtain ⟨w, write⟩ : ∃ w, v.write (·.setMember x.scope d.identity (some ⟨d.role, x.author,
          x.stamp, member.bind Member.writer, member.bind Member.writerDevice⟩)) = w :=
        ⟨_, rfl⟩
      have ready : w.view.Ready := write ▸ sound.toReady.setMember
        ⟨ne_empty_of_assigns assigned, plain⟩ fun _ => not_banned_none banned
      have same : w.view.role = v.view.role := write ▸ rfl
      simp only [Bool.false_eq_true, if_false, Bool.not_true, Bool.not_false, Bool.true_and,
        if_true, write, admit_eq plain (given.congr same), ok_bind, isTruthy]
      obtain ⟨admitted, isAdmitted⟩ : ∃ a, Effect.admitBack w x.scope d.identity d.role x.code = a :=
        ⟨_, rfl⟩
      have frame : w.view.OnlyCuts admitted.view := isAdmitted ▸ admit_frame w _ _ _ _
      have roles : admitted.view.role = v.view.role := by
        rw [frame]
        exact same
      have loses : (if member.isSome then losesPost (member.map Member.role) (some d.role) custom
            else .ok false)
          = .ok (holds (member.map Member.role) "post" v.view.custom
              && !holds (some d.role) "post" v.view.custom) := by
        rw [losesPost_eq before isGiven role given]
        cases member <;> rfl
      have takes : (if member.isSome then
            lostPermissions (member.map Member.role) (some d.role) custom else .ok [])
          = .ok (lost (member.map Member.role) (some d.role) v.view.custom) := by
        rw [lostPermissions_eq before isGiven role given]
        cases member <;> rfl
      simp only [isAdmitted, loses, takes, ok_bind]
      have cuts := (frame.trans (cutIf_frame admitted (holds (member.map Member.role) "post"
        v.view.custom && !holds (some d.role) "post" v.view.custom) x.scope d.identity d.cut
        x.stamp)).trans (recordEditCuts_frame _ x.scope d.identity d.cut
          (lost (member.map Member.role) (some d.role) v.view.custom))
      generalize recordEditCuts _ x.scope d.identity _ d.cut = cut at cuts ⊢
      have readyCut := ready.onlyCuts cuts
      have sameCut : cut.view.role = v.view.role := by
        rw [cuts]
        exact same
      rw [addMemberKey_eq plain (given.congr sameCut)]
      have keyed := addMemberKey_frame (v := cut) d.identity d.role
        (member.bind Member.writer) (member.bind Member.writerDevice)
      rw [ok_bind, settle_eq env (readyCut.onlyWriters keyed (readyCut.keys.addMemberKey _ _ _ _))
        (within.congr (by rw [keyed]; exact sameCut))]
      rfl

theorem lost_plain_none {role : Option String} {custom : Custom} (plain : Plain role)
    (known : Knows custom v.view role)
    : lostPermissions role none custom = .ok (lost role none v.view.custom) :=
  lostPermissions_eq plain plain_none known rfl

variable (env) in
/-- A ban that passes its checks, of a 32-byte identity not banned in this scope yet. -/
theorem applyBan_eq (sound : v.view.Sound) (fits : x.Fits v.view) (d : Moderate) {id : Key}
    (target : d.target = some id)
    : applyBan env x d v
      = .ok (if id.length ≠ 32 then v
        else if (v.view.banned x.scope id).isSome then
          if d.drop = some "all" then Effect.dropAll v x.scope id d.cut x.stamp else v
        else if removes x.authorRole (State.recordedRole v.view x.chain id) "moderate"
            v.view.custom then
          Effect.ban env x id d v
        else v) := by
  have before := sound.plain.recordedRole x.chain id
  have isTruthy := sound.plain.truthy_recordedRole x.chain id
  obtain ⟨custom, load⟩ : ∃ c, load v.view x.custom [State.recordedRole v.view x.chain id] = c :=
    ⟨_, rfl⟩
  have role : Knows custom v.view (State.recordedRole v.view x.chain id) :=
    load ▸ knows_load fits.within (by simp)
  have within : Within custom v.view := load ▸ within_load fits.within _
  have author : Knows custom v.view x.authorRole := load ▸ fits.known.load fits.within _
  unfold applyBan
  simp only [target, fits.roleIn sound, ok_bind, pure_eq_ok, load, isTruthy,
    mayRemove_eq (fits.plain sound) author, dropAll_eq sound.tree]
  by_cases length : id.length = 32
  swap
  · simp [length]
  cases banned : v.view.banned x.scope id with
  | some ban =>
      by_cases all : d.drop = some "all" <;> simp [length, all]
  | none =>
  cases removable : removes x.authorRole (State.recordedRole v.view x.chain id) "moderate"
    v.view.custom with
  | false => simp [length]
  | true =>
      unfold Effect.ban
      unfold State.recordedRole at before role removable ⊢
      simp only [length, ne_eq, not_true_eq_false, if_false, Option.isSome_none,
        Bool.false_eq_true, Bool.not_true, if_true]
      have dropped (w : Counting) (tree : w.view.Tree)
          : (if d.drop = some "all" then dropAll w x.scope id d.cut x.stamp
              else .ok w : Run Counting)
            = .ok (if d.drop = some "all" then Effect.dropAll w x.scope id d.cut x.stamp
              else w) := by
        split
        · exact dropAll_eq tree x.scope id d.cut x.stamp
        · rfl
      have dropIf (w : Counting)
          : w.view.OnlyCuts (if d.drop = some "all" then
              Effect.dropAll w x.scope id d.cut x.stamp else w).view := by
        split
        · exact dropAll_frame w x.scope id d.cut x.stamp
        · rfl
      -- Nobody with a role in the top space is left with an entry there.
      have banning (w : View) (ready : w.Ready) (ban : Option Ban)
          (gone : x.scope = none → w.member none id = none)
          : (w.setBanned x.scope id ban).Ready := ready.setBanned x.scope id ban gone
      cases found : State.member v.view x.chain id with
      | none =>
          obtain ⟨w, write⟩ : ∃ w, v.write (·.setBanned x.scope id (some ⟨x.author, d.reason,
              x.stamp, decide (d.drop = some "all")⟩)) = w := ⟨_, rfl⟩
          have ready : w.view.Ready := by
            refine write ▸ banning v.view sound.toReady _ fun top => ?_
            have chain : x.chain = [] := (top ▸ fits.path).eq_nil
            rw [chain] at found
            exact found
          have same : w.view.role = v.view.role := write ▸ rfl
          simp only [write, Option.isSome_none, Bool.not_false, if_true, Option.isNone_none]
          have cut : w.view.OnlyCuts
              (if d.cut ≠ [] then recordCut w x.scope id d.cut x.stamp else w).view := by
            split <;> rfl
          generalize (if d.cut ≠ [] then recordCut w x.scope id d.cut x.stamp else w) = w' at cut ⊢
          rw [dropped w' (ready.onlyCuts cut).tree, ok_bind]
          exact settle_after_cuts ready (cut.trans (dropIf w')) (within.congr same) id
      | some m =>
          rw [found, Option.map_some] at before role
          obtain ⟨w, write⟩ : ∃ w, (v.write (·.setBanned x.scope id (some ⟨x.author, d.reason,
              x.stamp, decide (d.drop = some "all")⟩))).write (·.setMember x.scope id none) = w :=
            ⟨_, rfl⟩
          have ready : w.view.Ready := write ▸ banning (v.view.setMember x.scope id none)
            (sound.toReady.removeMember x.scope id) _ (fun top => by simp [top])
          have same : w.view.role = v.view.role := write ▸ rfl
          simp only [write, Option.map_some, Option.isSome_some, Bool.not_true, Bool.false_eq_true, if_false,
            Option.isNone_some, can_eq before role, ok_bind]
          have cut := (cutIf_frame w (holds (some m.role) "post"
            v.view.custom) x.scope id d.cut x.stamp).trans (recordEditCuts_frame _ x.scope id
              d.cut (lost (some m.role) none v.view.custom))
          rw [lost_plain_none before role, ok_bind]
          generalize recordEditCuts _ x.scope id _ d.cut = w' at cut ⊢
          rw [dropped w' (ready.onlyCuts cut).tree, ok_bind]
          exact settle_after_cuts ready (cut.trans (dropIf w')) (within.congr same) id

/-- A ban is lifted by whoever may moderate and is not below who made it. -/
def unbans (author byRole : Option String) : Bool :=
  author = some "owner" || byRole.isNone || !less (rankOf author) (rankOf byRole)

theorem applyUnban_eq (sound : v.view.Sound) (fits : x.Fits v.view) (d : Moderate) {id : Key}
    (target : d.target = some id)
    : applyUnban x d v
      = .ok (if id.length = 32 && (v.view.banned x.scope id).any (fun ban =>
            unbans x.authorRole (State.recordedRole v.view x.chain ban.by_)) then
          v.write (·.setBanned x.scope id none)
        else v) := by
  unfold applyUnban unbans
  simp only [target]
  by_cases length : id.length = 32
  swap
  · simp [length]
  cases banned : v.view.banned x.scope id with
  | none => simp [length]
  | some ban =>
      have isTruthy := sound.plain.truthy_recordedRole x.chain ban.by_
      simp only [fits.roleIn sound, ok_bind, pure_eq_ok, isTruthy, length, Option.any_some]
      by_cases owner : x.authorRole = some "owner"
      · simp [owner]
      · unfold State.recordedRole
        cases State.member v.view x.chain ban.by_ with
        | none => simp [owner]
        | some m =>
            rw [Option.map_some]
            cases less (rankOf x.authorRole) (rankOf (some m.role)) <;> simp [owner]

variable (env) in
theorem applyModerate_eq (sound : v.view.Sound) (fits : x.Fits v.view) (d : Moderate)
    : applyModerate env x d v
      = if actions.contains d.action && holds x.authorRole "moderate" v.view.custom then
          if d.action = "ban" then applyBan env x d v
          else if d.action = "unban" then applyUnban x d v
          else .ok (applyRecordAction env x d v)
        else .ok v := by
  unfold applyModerate
  simp only [fits.can sound, ok_bind, pure_eq_ok]
  cases actions.contains d.action <;> cases holds x.authorRole "moderate" v.view.custom <;> rfl

/-- An entry of one's own in a sub-space is what counts there, for someone not banned. -/
theorem State.member_own {v : View} {key : Key} {chain : List Key} {id : Key} {m : Member}
    (path : IsChain v (some key) chain) (free : bannedIn v chain id = false)
    (own : v.member (some key) id = some m)
    : State.member v chain id = some m := by
  cases chain with
  | nil => exact absurd path.head? (by simp)
  | cons s up =>
      have same : s = key := by simpa using path.head?
      subst same
      simp [State.member, State.banned, free, own]

theorem ne_empty_of_invites {maker : Option String} {role : String} {custom : Custom}
    (invited : invites maker role custom = true)
    : role ≠ "" := by
  rintro rfl
  simp [invites, permissionsOf] at invited

/-- Routing gives the role in that sub-space, or does nothing. -/
theorem route_cases (inv : Invite) (id : Key) (custom : Custom) (v : Counting) (key : Key)
    : Effect.route x inv id custom v key = v
      ∨ (v.view.setMember (some key) id
          (some { role := inv.role, by_ := inv.maker, stamp := x.stamp })).OnlyCuts
        (Effect.route x inv id custom v key).view := by
  unfold Effect.route
  split
  · exact .inl rfl
  · split
    · exact .inl rfl
    · split
      · exact .inl rfl
      · split
        · exact .inl rfl
        · exact .inr (admit_frame (v.write _) _ _ _ _)

theorem route_eq {w : Counting} (ready : w.view.Ready) (spaces : w.view.subspace = v.view.subspace)
    (list : w.view.subspaces = v.view.subspaces) (inv : Invite) (id : Key) (custom : Custom)
    (plain : inv.role ∉ objectPrototype) (known : Knows custom w.view (some inv.role))
    (key : Key)
    : route x inv id custom (subspacesOf v.view) w key
      = .ok (Effect.route x inv id custom w key) := by
  have subs : subspacesOf v.view = subspacesOf w.view := by
    unfold subspacesOf
    rw [spaces, list]
  unfold route Effect.route
  simp only [subs, below_eq ready.tree, ready.tree.chainOf_eq, ok_bind, pure_eq_ok]
  cases found : chainAt w.view key with
  | none => cases belowAt w.view key x.scope <;> rfl
  | some chain =>
      have path := ready.tree.chainAt_iff.mp found
      simp only [memberIn_eq ready.topBan path.recorded, ok_bind]
      cases belowAt w.view key x.scope with
      | false => rfl
      | true =>
      cases banned : bannedIn w.view chain id with
      | true => rfl
      | false =>
      cases makerThere : State.member w.view chain inv.maker with
      | none => rfl
      | some m =>
      have maker : Plain (some m.role) := by
        obtain ⟨scope, _, entry⟩ := State.member_entry makerThere
        simpa using (ready.plain scope _ m entry).2
      simp only [mayInvite_plain maker plain, ok_bind, Bool.not_true, Bool.false_eq_true,
        if_false, Bool.or_self]
      cases invites (some m.role) inv.role custom with
      | false => rfl
      | true =>
      cases higher : (State.member w.view chain id).any (fun m =>
        atLeast (rankOf (some m.role)) (rankOf (some inv.role))) with
      | true => rfl
      | false =>
          have ownLower : (w.view.member (some key) id).any (fun m =>
              atLeast (rankOf (some m.role)) (rankOf (some inv.role))) = false := by
            cases own : w.view.member (some key) id with
            | none => rfl
            | some entry =>
                rw [State.member_own path banned own] at higher
                exact higher
          simp only [ownLower, Bool.not_true, Bool.false_eq_true, if_false, Bool.or_self]
          rw [admit_eq (v := w.write _) plain (known.congr (v := w.view) rfl)]

section Arrive

variable {r : Redemption} {device : Key}

/-- Whoever arrives gets the invite's role in its scope; their cuts and keys may change too. -/
theorem arrive_frame (r : Redemption) (device : Key) (v : Counting)
    : ∃ w, (v.view.setMember x.scope r.identity (some
          ⟨r.invite.role, r.invite.maker, x.stamp, some r.writer, some device⟩)).OnlyCuts w
        ∧ w.OnlyWriters (Effect.arrive x r device v).view :=
  ⟨_, admit_frame (v.write (·.setMember x.scope r.identity (some
      ⟨r.invite.role, r.invite.maker, x.stamp, some r.writer, some device⟩))) x.scope
      r.identity r.invite.role x.code,
    addMemberKey_frame r.identity r.invite.role (some r.writer) (some device)⟩

theorem arrive_role (r : Redemption) (device : Key) (v : Counting)
    : (Effect.arrive x r device v).view.role = v.view.role := by
  obtain ⟨w, cuts, keys⟩ := arrive_frame (x := x) r device v
  rw [keys, cuts]
  rfl

theorem arrive_ready (ready : v.view.Ready) (plain : r.invite.role ∉ objectPrototype)
    (named : r.invite.role ≠ "") (free : bannedIn v.view x.chain r.identity = false)
    : (Effect.arrive x r device v).view.Ready := by
  have given : (v.view.setMember x.scope r.identity (some
      ⟨r.invite.role, r.invite.maker, x.stamp, some r.writer, some device⟩)).Ready :=
    ready.setMember ⟨named, plain⟩ fun _ => not_banned_none free
  have admitted := given.onlyCuts (admit_frame (v.write (·.setMember x.scope r.identity (some
    ⟨r.invite.role, r.invite.maker, x.stamp, some r.writer, some device⟩))) x.scope r.identity
    r.invite.role x.code)
  exact admitted.onlyWriters (addMemberKey_frame _ _ _ _) (admitted.keys.addMemberKey _ _ _ _)

theorem join_eq (ready : v.view.Ready) {custom : Custom}
    (plain : r.invite.role ∉ objectPrototype) (named : r.invite.role ≠ "")
    (free : bannedIn v.view x.chain r.identity = false) (within : Within custom v.view)
    (known : Knows custom v.view (some r.invite.role))
    : join env x r device custom v
      = .ok (Effect.settle env (Effect.arrive x r device v) r.identity,
        loadedBy (Effect.arrive x r device v).view
          (rolesAt (Effect.arrive x r device v).view r.identity) custom) := by
  have arrived : (Effect.arrive x r device v).view.Ready := arrive_ready ready plain named free
  have settled := settle_eq env arrived (within.congr (arrive_role r device v)) r.identity
  obtain ⟨w, write⟩ : ∃ w, v.write (·.setMember x.scope r.identity (some
      ⟨r.invite.role, r.invite.maker, x.stamp, some r.writer, some device⟩)) = w := ⟨_, rfl⟩
  have same : w.view.role = v.view.role := write ▸ rfl
  have frame := admit_frame w x.scope r.identity r.invite.role x.code
  have admitted : (Effect.admitBack w x.scope r.identity r.invite.role x.code).view.role
      = v.view.role := by
    rw [frame]
    exact same
  unfold join
  unfold Effect.arrive at settled ⊢
  simp only [write] at settled ⊢
  rw [admit_eq plain (known.congr same), ok_bind, addMemberKey_eq plain (known.congr admitted),
    ok_bind, settled]

variable (env) (device) in
/-- Taking a step up, or none, leaves what routing needs. -/
theorem enter_spec (ready : v.view.Ready) (plain : r.invite.role ∉ objectPrototype)
    (named : r.invite.role ≠ "") (free : bannedIn v.view x.chain r.identity = false)
    (within : Within (Effect.redeemCustom x r v.view) v.view)
    (known : Knows (Effect.redeemCustom x r v.view) v.view (some r.invite.role))
    : (Effect.enter env x r device v).1.view.Ready
      ∧ Knows (Effect.enter env x r device v).2 (Effect.enter env x r device v).1.view
        (some r.invite.role)
      ∧ (Effect.enter env x r device v).1.view.role = v.view.role
      ∧ (Effect.enter env x r device v).1.view.subspace = v.view.subspace
      ∧ (Effect.enter env x r device v).1.view.subspaces = v.view.subspaces := by
  unfold Effect.enter
  split
  · obtain ⟨w, cuts, keys⟩ := arrive_frame (x := x) r device v
    have settled := settle_frame env (Effect.arrive x r device v) r.identity
    have role := arrive_role (x := x) r device v
    refine ⟨(arrive_ready ready plain named free).settle env r.identity, ?_, ?_, ?_, ?_⟩
    · refine (((known.congr role).loadedBy (within.congr role) _)).congr ?_
      rw [settled]
    all_goals
      rw [settled, keys, cuts]
      rfl
  · exact ⟨ready, known, rfl, rfl, rfl⟩

end Arrive

/-- Routing to one sub-space keeps what routing to the next needs. -/
theorem route_ready {w : Counting} (ready : w.view.Ready) (inv : Invite) (id : Key)
    (custom : Custom) (plain : inv.role ∉ objectPrototype) (named : inv.role ≠ "") (key : Key)
    : (Effect.route x inv id custom w key).view.Ready
      ∧ (Effect.route x inv id custom w key).view.role = w.view.role
      ∧ (Effect.route x inv id custom w key).view.subspace = w.view.subspace
      ∧ (Effect.route x inv id custom w key).view.subspaces = w.view.subspaces := by
  rcases route_cases (x := x) inv id custom w key with same | frame
  · rw [same]
    exact ⟨ready, rfl, rfl, rfl⟩
  · refine ⟨(ready.setMember ⟨named, plain⟩ (fun top => by cases top)).onlyCuts frame,
      ?_, ?_, ?_⟩
    all_goals
      rw [frame]
      rfl

/-- What lets an invite be redeemed by someone, its maker's right to make it apart. -/
def redeemable (v : View) (x : Context) (inv : Invite) (inviteId id : Key) : Bool :=
  !bannedIn v x.chain id && (v.redeemed x.scope inviteId id).isNone
    && (v.revoked x.scope inviteId).isNone && !(inv.expires ≠ 0 && inv.expires < x.stamp)
    && !(inv.uses ≠ 0 && inv.uses ≤ (v.uses x.scope inviteId).getD 0)

theorem applyRedeem_eq (sound : v.view.Sound) (fits : x.Fits v.view) {redemption : Buffer}
    {r : Redemption} {signer : Attested} {inviteId : Key}
    (decides : holds x.authorRole "decide" v.view.custom = true)
    (read : readBuffer (Encodings.redemption env.c) redemption = some r)
    (verified : verifyRedemption env.c env.keys r env.space = .ok (some signer))
    (here : r.invite.space = env.here x.scope) (identified : r.invite.id = some inviteId)
    (plain : r.invite.role ∉ objectPrototype)
    : applyRedeem env x redemption v
      = .ok (if redeemable v.view x r.invite inviteId r.identity
            && invites (State.recordedRole v.view x.chain r.invite.maker) r.invite.role
              v.view.custom then
          Effect.redeem env x r signer.device inviteId v
        else v) := by
  have maker := sound.plain.recordedRole x.chain r.invite.maker
  obtain ⟨custom, load⟩ : ∃ c, load v.view x.custom
      [State.recordedRole v.view x.chain r.invite.maker, some r.invite.role] = c := ⟨_, rfl⟩
  have known : Knows custom v.view (State.recordedRole v.view x.chain r.invite.maker) :=
    load ▸ knows_load fits.within (by simp)
  have given : Knows custom v.view (some r.invite.role) :=
    load ▸ knows_load fits.within (by simp)
  have within : Within custom v.view := load ▸ within_load fits.within _
  have isRedeem : Effect.redeemCustom x r v.view
      = Decisions.load v.view custom [State.recordedRole v.view x.chain r.identity] := by
    unfold Effect.redeemCustom
    rw [load]
  have withinAll : Within (Effect.redeemCustom x r v.view) v.view :=
    isRedeem ▸ within_load within _
  have givenAll : Knows (Effect.redeemCustom x r v.view) v.view (some r.invite.role) :=
    isRedeem ▸ given.load within _
  unfold applyRedeem redeemable
  simp only [fits.can sound, decides, read, verified, here, identified, ok_bind, pure_eq_ok,
    fits.roleIn sound, fits.memberIn sound, load, mayInvite_eq maker plain known given,
    Bool.not_true, Bool.false_eq_true, if_false, ne_eq, not_true_eq_false]
  -- The checks in the source's order; each failed one leaves the view as it was.
  cases free : bannedIn v.view x.chain r.identity with
  | true => rfl
  | false =>
  cases v.view.redeemed x.scope inviteId r.identity with
  | some redeemed => rfl
  | none =>
  cases v.view.revoked x.scope inviteId with
  | some revoked => rfl
  | none =>
  cases expired : decide (¬r.invite.expires = 0) && decide (r.invite.expires < x.stamp) with
  | true => simp
  | false =>
  cases spent : decide (¬r.invite.uses = 0)
      && decide (r.invite.uses ≤ (v.view.uses x.scope inviteId).getD 0) with
  | true => simp
  | false =>
  cases invited : invites (State.recordedRole v.view x.chain r.invite.maker) r.invite.role
    v.view.custom with
  | false => simp
  | true =>
      have named := ne_empty_of_invites invited
      have entered : (if Effect.joins x r v.view then
            join env x r signer.device (Effect.redeemCustom x r v.view) v
          else .ok (v, Effect.redeemCustom x r v.view))
          = .ok (Effect.enter env x r signer.device v) := by
        unfold Effect.enter
        split
        · exact join_eq sound.toReady plain named free withinAll givenAll
        · rfl
      obtain ⟨ready, roleKnown, roles, spaces, list⟩ :=
        enter_spec env signer.device sound.toReady plain named free withinAll givenAll
      have loaded : Decisions.load v.view custom
          [(State.member v.view x.chain r.identity).map Member.role]
          = Effect.redeemCustom x r v.view := isRedeem.symm
      have lower : (State.member v.view x.chain r.identity).all (fun m =>
          less (rankOf (some m.role)) (rankOf (some r.invite.role))) = Effect.joins x r v.view :=
        rfl
      simp only [Option.isSome_none, Bool.false_eq_true, if_false, Bool.not_true,
        Bool.not_false, Option.isNone_none, Bool.and_self, if_true, loaded, lower, entered,
        ok_bind]
      unfold Effect.redeem
      generalize Effect.enter env x r signer.device v = entry at *
      obtain ⟨w, loadedCustom⟩ := entry
      have routes := foldlM_ok (fun w' : Counting => w'.view.Ready
          ∧ w'.view.role = w.view.role ∧ w'.view.subspace = w.view.subspace
          ∧ w'.view.subspaces = w.view.subspaces) r.invite.subspaces
        (route x r.invite r.identity loadedCustom (subspacesOf w.view))
        (Effect.route x r.invite r.identity loadedCustom) (by
          rintro w' key - ⟨ready', roles', spaces', list'⟩
          obtain ⟨kept, keptRole, keptSpaces, keptList⟩ :=
            route_ready (x := x) ready' r.invite r.identity loadedCustom plain named key
          exact ⟨route_eq ready' spaces' list' r.invite r.identity loadedCustom plain
            (roleKnown.congr roles') key, kept, keptRole.trans roles',
            keptSpaces.trans spaces', keptList.trans list'⟩)
        w ⟨ready, rfl, rfl, rfl⟩
      simp only [routes.1, ok_bind]

theorem applyWriterAdd_eq (sound : v.view.Sound) (fits : x.Fits v.view) (d : WriterAdd)
    : applyWriterAdd env x d v
      = .ok (match Identity.verify env.keys d.proof (writerSignable d.key env.space) with
          | none => v
          | some info =>
              if x.scope.isNone && info.device ≠ info.identity
                  && writesAny v.view info.identity then
                Effect.writerAdd env info d.key v
              else v) := by
  unfold applyWriterAdd
  cases scope : x.scope with
  | some s =>
      cases Identity.verify env.keys d.proof (writerSignable d.key env.space) <;> simp
  | none =>
  cases Identity.verify env.keys d.proof (writerSignable d.key env.space) with
  | none => rfl
  | some info =>
      simp only [Option.isSome_none, Bool.false_eq_true, if_false, pure_eq_ok,
        writesAnywhere_eq sound.tree sound.topBan sound.plain fits.within, ok_bind,
        Option.isNone_none, Bool.true_and]
      by_cases same : info.device = info.identity
      · simp [same]
      · cases writes : writesAny v.view info.identity with
        | false => simp [same]
        | true =>
            simp only [same, if_false, Bool.not_true, Bool.false_eq_true, ne_eq,
              not_false_eq_true, decide_true, Bool.and_self, if_true]
            unfold Effect.writerAdd
            have frame := addKey_frame v info.identity d.key (some info.device)
            have settled := settle_eq env
              (sound.toReady.addKey info.identity d.key (some info.device))
              ((within_loadedBy fits.within (rolesAt v.view info.identity)).congr
                (by rw [frame])) info.identity
            have unchanged : (addKey v info.identity d.key (some info.device)).1 = false
                → (addKey v info.identity d.key (some info.device)).2 = v := by
              unfold addKey
              split
              · exact fun _ => rfl
              · split
                · exact fun _ => rfl
                · exact fun impossible => nomatch impossible
            generalize addKey v info.identity d.key (some info.device) = added at *
            obtain ⟨added, w⟩ := added
            cases added with
            | false => simpa using unchanged rfl
            | true => simp [settled]

theorem deviceGone_spec (keys : v.view.WriterKeys) (id device : Key)
    : (Effect.deviceGone x id device v).view.WriterKeys
      ∧ (∀ k, (Effect.deviceGone x id device v).view.writer k
          = if k ∈ Effect.keysOf v.view id device then none else v.view.writer k)
      ∧ (∀ i, writersOf (Effect.deviceGone x id device v).view i
          = if i = id then (writersOf v.view id).filter (· ∉ Effect.keysOf v.view id device)
            else writersOf v.view i)
      ∧ (v.view.OneSettler → (Effect.deviceGone x id device v).view.OneSettler) := by
  have owns : ∀ key ∈ Effect.keysOf v.view id device, v.view.Owns id key := by
    intro key member w found
    obtain ⟨w', found', same⟩ := keys.known (List.mem_filter.mp member).1
    cases Option.some.inj (found.symm.trans found')
    exact same
  exact foldl_forget id (fun v key => forget v id key) (fun _ _ => rfl) _
    (v.write (·.setGone id device (some ⟨x.author, x.stamp⟩))) (keys.congr rfl rfl) owns

theorem deviceGone_frame (id device : Key)
    : (v.view.setGone id device (some ⟨x.author, x.stamp⟩)).OnlyWriters
        (Effect.deviceGone x id device v).view :=
  foldl_frame View.OnlyWriters (fun _ => rfl) (fun _ _ _ => .trans) _
    (fun v key => forget_frame v id key) _ _

theorem foldl_removeFromBase_view (list : List Key)
    : (list.foldl (removeFromBase env) v).view = v.view := by
  induction list generalizing v with
  | nil => rfl
  | cons first rest ih => rw [List.foldl_cons, ih, removeFromBase_view]

theorem deviceRemove_view (id device : Key)
    : (Effect.deviceRemove env x id device v).view
      = (Effect.settle env (Effect.deviceGone x id device v) id).view :=
  foldl_removeFromBase_view _

theorem applyDeviceRemove_eq (sound : v.view.Sound) (fits : x.Fits v.view) (d : DeviceRemove)
    {cut : Bytes} (named : d.cut = some cut)
    : applyDeviceRemove env x d v
      = .ok (match Identity.verify env.keys d.proof
            (nsRemove ++ env.space ++ d.device ++ cut) with
          | none => v
          | some info =>
              if x.scope.isNone && info.device = info.identity
                  && (v.view.gone info.identity d.device).isNone then
                Effect.deviceRemove env x info.identity d.device v
              else v) := by
  unfold applyDeviceRemove removalSignable
  simp only [named, pure_eq_ok, ok_bind]
  cases scope : x.scope with
  | some s =>
      cases Identity.verify env.keys d.proof (nsRemove ++ env.space ++ d.device ++ cut) <;> simp
  | none =>
  cases Identity.verify env.keys d.proof (nsRemove ++ env.space ++ d.device ++ cut) with
  | none => rfl
  | some info =>
      simp only [Option.isSome_none, Bool.false_eq_true, if_false, Option.isNone_none,
        Bool.true_and]
      by_cases same : info.device = info.identity
      swap
      · simp [same]
      cases gone : v.view.gone info.identity d.device with
      | some entry => simp [same]
      | none =>
          have frame := deviceGone_frame (x := x) (v := v) info.identity d.device
          have ready : (Effect.deviceGone x info.identity d.device v).view.Ready := by
            have noted : (v.view.setGone info.identity d.device
                (some ⟨x.author, x.stamp⟩)).Ready := {
              tree := sound.tree.congr rfl rfl
              topBan := sound.topBan
              plain := sound.plain
              keys := sound.keys.congr rfl rfl }
            exact noted.onlyWriters frame (deviceGone_spec sound.keys _ _).1
          have settled := settle_eq env ready
            (fits.within.congr (by rw [frame]; rfl)) info.identity
          simp only [same, ne_eq, not_true_eq_false, if_false, decide_true, Bool.and_self,
            Option.isSome_none, Bool.false_eq_true, Option.isNone_none, if_true]
          change (settle env (Effect.deviceGone x info.identity d.device v) info.identity
            x.custom >>= _) = _
          rw [settled]
          rfl

end Equations

end Hypergraph.Decisions
