import Hypergraph.Decisions.Equations

/-! Where a branch of `applyOne` throws: a role named like a property of `Object.prototype`
that is about to be given, or a buffer field that was read as `null` and is used as bytes.
-/

namespace Hypergraph.Decisions

open Wire Js Encodings Invites

variable {env : Env} {x : Context} {v : Counting}

-- A role named like a property of `Object.prototype`

/-- Letting someone in with such a role looks for its permission to post. -/
theorem admit_inherited {role : String} (proto : role ∈ objectPrototype) (scope : Scope)
    (id : Key) (custom : Custom) {code : Option Key} (coded : code.isSome)
    : admitBack v scope id role custom code = .error .notAFunction := by
  obtain ⟨code, rfl⟩ := Option.isSome_iff_exists.mp coded
  simp [admitBack, can_inherited proto]

/-- Would setting such a role get as far as looking at its permissions? -/
def roleSetThrows (v : View) (x : Context) (d : RoleSet) : Bool :=
  let current := State.recordedRole v x.chain d.identity
  decide (d.role ∈ objectPrototype) && !bannedIn v x.chain d.identity
    && holds x.authorRole "roles" v.custom && current ≠ some "owner"
    && (x.authorRole = some "owner"
      || !(current.isSome && atLeast (rankOf current) (rankOf x.authorRole)))

variable (env) in
theorem applyRoleSet_inherited (sound : v.view.Sound) (fits : x.Fits v.view) (d : RoleSet)
    (proto : d.role ∈ objectPrototype)
    : applyRoleSet env x d v
      = if roleSetThrows v.view x d then .error .notAFunction else .ok v := by
  have isTruthy := sound.plain.truthy_recordedRole x.chain d.identity
  have author := fits.known.load fits.within
    [State.recordedRole v.view x.chain d.identity, some d.role]
  have isSome : (State.recordedRole v.view x.chain d.identity).isSome
      = (State.member v.view x.chain d.identity).isSome := by simp [State.recordedRole]
  unfold applyRoleSet roleSetThrows
  unfold State.recordedRole at author isTruthy isSome ⊢
  simp only [fits.memberIn sound, ok_bind, pure_eq_ok,
    mayAssign_inherited (fits.plain sound) proto, holds_congr author,
    admit_inherited proto _ _ _ fits.code, error_bind, isTruthy, proto, decide_true, isSome,
    Bool.true_and]
  cases bannedIn v.view x.chain d.identity with
  | true => rfl
  | false =>
  cases holds x.authorRole "roles" v.view.custom with
  | false => rfl
  | true =>
  by_cases owner : (State.member v.view x.chain d.identity).map Member.role = some "owner"
  · simp [owner]
  · by_cases authorOwner : x.authorRole = some "owner"
    · simp [owner, authorOwner]
    · cases (State.member v.view x.chain d.identity).isSome && atLeast
        (rankOf ((State.member v.view x.chain d.identity).map Member.role))
        (rankOf x.authorRole) <;> simp [owner, authorOwner]

/-- Would a redeemer be routed to this sub-space, or the check whether they are throw? -/
def routeThrows (v : View) (x : Context) (inv : Invite) (id : Key) (custom : Custom)
    (key : Key)
    : Bool :=
  belowAt v key x.scope && (chainAt v key).any fun chain =>
    !bannedIn v chain id && (State.member v chain inv.maker).any fun m =>
      holds (some m.role) "invite" custom

theorem route_inherited (ready : v.view.Ready) (coded : x.code.isSome) (inv : Invite) (id : Key)
    (custom : Custom) (proto : inv.role ∈ objectPrototype) (key : Key)
    : route x inv id custom (subspacesOf v.view) v key
      = if routeThrows v.view x inv id custom key then .error .notAFunction else .ok v := by
  unfold route
  simp only [below_eq ready.tree, ready.tree.chainOf_eq, ok_bind, pure_eq_ok]
  cases down : belowAt v.view key x.scope with
  | false => simp [routeThrows, down]
  | true =>
  cases found : chainAt v.view key with
  | none => simp [routeThrows, found]
  | some chain =>
  have path := ready.tree.chainAt_iff.mp found
  simp only [memberIn_eq ready.topBan path.recorded, ok_bind]
  cases banned : bannedIn v.view chain id with
  | true => simp [routeThrows, found, banned]
  | false =>
  cases makerThere : State.member v.view chain inv.maker with
  | none => simp [routeThrows, found, makerThere]
  | some m =>
  have throws : routeThrows v.view x inv id custom key = holds (some m.role) "invite" custom := by
    simp [routeThrows, down, found, banned, makerThere]
  have maker : Plain (some m.role) := by
    obtain ⟨scope, _, entry⟩ := State.member_entry makerThere
    simpa using (ready.plain scope _ m entry).2
  have unranked (m : Member)
      : atLeast (rankOf (some m.role)) (rankOf (some inv.role)) = false := by
    rw [rankOf_inherited proto]
    cases rankOf (some m.role) <;> rfl
  rw [throws]
  simp only [mayInvite_inherited maker proto, unranked, admit_inherited proto _ _ _ coded]
  cases holds (some m.role) "invite" custom with
  | false => simp
  | true =>
      by_cases owner : some m.role = some "owner"
      · simp [owner]
      · simp [owner]

/-- A fold of checks that each throw or change nothing; induction on the list. -/
theorem foldlM_throws {α σ : Type} (throws : α → Bool) (thrown : Thrown) (step : σ → α → Run σ)
    (state : σ)
    (checks : ∀ item, step state item = if throws item then .error thrown else .ok state)
    (list : List α)
    : list.foldlM step state = if list.any throws then .error thrown else .ok state := by
  induction list with
  | nil => rfl
  | cons first rest ih =>
      rw [List.foldlM_cons, checks, List.any_cons]
      cases throws first with
      | true => rfl
      | false => simpa using ih

-- Redemptions

/-- Who signed a redemption, where checking it does not throw. -/
def signer (env : Env) (r : Redemption) : Option Attested :=
  match verifyRedemption env.c env.keys r env.space with
  | .ok signer => signer
  | .error _ => none

/-- Checking a redemption throws just for a valid invite without an id. -/
theorem verifyRedemption_eq (env : Env) (r : Redemption)
    : verifyRedemption env.c env.keys r env.space
      = if verifyInvite env.c env.keys r.invite env.space && r.invite.id.isNone then
          .error .nullValue
        else .ok (signer env r) := by
  unfold signer verifyRedemption redemptionSignable
  cases verifyInvite env.c env.keys r.invite env.space with
  | false => rfl
  | true =>
      cases r.invite.id with
      | none => rfl
      | some id =>
          simp only [pure_eq_ok, ok_bind, Bool.not_true, Bool.false_eq_true, if_false]
          cases Identity.verify env.keys r.proof
            (nsRedeem ++ r.invite.space ++ id ++ r.identity ++ r.writer) <;> rfl

theorem signer_identified {env : Env} {r : Redemption} (unnamed : r.invite.id = none)
    : signer env r = none := by
  unfold signer verifyRedemption redemptionSignable
  cases verifyInvite env.c env.keys r.invite env.space <;> simp [unnamed]

/-- A redemption that counts: what it says, its device and its invite's id. -/
def accepted (env : Env) (v : View) (x : Context) (redemption : Buffer)
    : Option (Redemption × Key × Key) := do
  let r ← readBuffer (Encodings.redemption env.c) redemption
  let signer ← signer env r
  let inviteId ← r.invite.id
  if holds x.authorRole "decide" v.custom && r.invite.space = env.here x.scope
      && redeemable v x r.invite inviteId r.identity
      && invites (State.recordedRole v x.chain r.invite.maker) r.invite.role v.custom then
    some (r, signer.device, inviteId)
  else none

/-- Would a redemption throw by a role named like a property of `Object.prototype` that its maker
may invite to, or that is about to be given?
-/
def redeemRoleThrows (env : Env) (v : View) (x : Context) (r : Redemption) (inviteId : Key) : Bool :=
  let maker := State.recordedRole v x.chain r.invite.maker
  decide (r.invite.role ∈ objectPrototype) && (signer env r).isSome
    && r.invite.space = env.here x.scope
    && redeemable v x r.invite inviteId r.identity && holds maker "invite" v.custom
    && (maker ≠ some "owner" || (State.member v x.chain r.identity).isNone
      || r.invite.subspaces.any
        (routeThrows v x r.invite r.identity (Effect.redeemCustom x r v)))

/-- Would a redemption throw: by an absent id, or by its role? -/
def redeemThrows (env : Env) (v : View) (x : Context) (redemption : Buffer) : Bool :=
  holds x.authorRole "decide" v.custom
    && (readBuffer (Encodings.redemption env.c) redemption).any fun r =>
      match r.invite.id with
      | none => verifyInvite env.c env.keys r.invite env.space
      | some inviteId => redeemRoleThrows env v x r inviteId

/-- Routing to such a role, where it does not throw, does nothing. -/
theorem effectRoute_inherited {inv : Invite} {id : Key} {custom : Custom} {key : Key}
    (free : routeThrows v.view x inv id custom key = false)
    : Effect.route x inv id custom v key = v := by
  unfold routeThrows at free
  unfold Effect.route
  cases found : chainAt v.view key with
  | none => rfl
  | some chain =>
      cases down : belowAt v.view key x.scope with
      | false => rfl
      | true =>
      cases banned : bannedIn v.view chain id with
      | true => simp [banned]
      | false =>
      cases makerThere : State.member v.view chain inv.maker with
      | none => simp [makerThere]
      | some m =>
          have unable : holds (some m.role) "invite" custom = false := by
            simpa [found, down, banned, makerThere] using free
          simp [invites, unable, makerThere]

theorem foldl_effectRoute_inherited {inv : Invite} {id : Key} {custom : Custom}
    {list : List Key} (free : list.any (routeThrows v.view x inv id custom) = false)
    : list.foldl (Effect.route x inv id custom) v = v := by
  induction list with
  | nil => rfl
  | cons first rest ih =>
      rw [List.any_cons, Bool.or_eq_false_iff] at free
      rw [List.foldl_cons, effectRoute_inherited free.1]
      exact ih free.2

/-- Nothing but the permission to invite stands between such a role and an invite to it. -/
theorem invites_inherited {maker : Option String} {role : String} {custom : Custom}
    (proto : role ∈ objectPrototype)
    : invites maker role custom = holds maker "invite" custom := by
  have owner : role ≠ "owner" := ne_of_inherited proto (by decide)
  have nothing : listOf (some role) custom = [] := by
    simp [listOf, permissionsOf_inherited proto]
  simp [invites, owner, permissionsOf_inherited proto, rankOf_inherited proto, atLeast, grants,
    nothing]

/-- With such a role, a redemption its checks let through throws unless its maker is the
owner, its redeemer a member, and nobody is routed; then it only notes itself.
-/
theorem applyRedeem_inherited (sound : v.view.Sound) (fits : x.Fits v.view)
    {redemption : Buffer} {r : Redemption} {signer : Attested} {inviteId : Key}
    (decides : holds x.authorRole "decide" v.view.custom = true)
    (read : readBuffer (Encodings.redemption env.c) redemption = some r)
    (verified : verifyRedemption env.c env.keys r env.space = .ok (some signer))
    (here : r.invite.space = env.here x.scope) (identified : r.invite.id = some inviteId)
    (proto : r.invite.role ∈ objectPrototype)
    : applyRedeem env x redemption v
      = if redeemable v.view x r.invite inviteId r.identity
          && holds (State.recordedRole v.view x.chain r.invite.maker) "invite" v.view.custom then
          if State.recordedRole v.view x.chain r.invite.maker ≠ some "owner"
              || (State.member v.view x.chain r.identity).isNone
              || r.invite.subspaces.any (routeThrows v.view x r.invite r.identity
                (Effect.redeemCustom x r v.view)) then
            .error .notAFunction
          else .ok (Effect.redeem env x r signer.device inviteId v)
        else .ok v := by
  have maker := sound.plain.recordedRole x.chain r.invite.maker
  obtain ⟨custom, load⟩ : ∃ c, load v.view x.custom
      [State.recordedRole v.view x.chain r.invite.maker, some r.invite.role] = c := ⟨_, rfl⟩
  have known : Knows custom v.view (State.recordedRole v.view x.chain r.invite.maker) :=
    load ▸ knows_load fits.within (by simp)
  have loaded : Decisions.load v.view custom
      [(State.member v.view x.chain r.identity).map Member.role]
      = Effect.redeemCustom x r v.view := by
    unfold Effect.redeemCustom
    rw [load]
    rfl
  unfold applyRedeem redeemable
  simp only [fits.can sound, decides, read, verified, here, identified, ok_bind, pure_eq_ok,
    fits.roleIn sound, fits.memberIn sound, load, mayInvite_inherited maker proto,
    holds_congr known, Bool.not_true, Bool.false_eq_true, if_false, ne_eq, not_true_eq_false]
  -- The checks in the source's order; each failed one leaves the view as it was.
  cases free : bannedIn v.view x.chain r.identity with
  | true => rfl
  | false =>
  cases v.view.redeemed x.scope inviteId r.identity with
  | some redeemed => rfl
  | none =>
  cases v.view.revoked x.scope inviteId with
  | some revoked => rfl
  | none =>
  cases expired : decide (¬r.invite.expires = 0) && decide (r.invite.expires < x.stamp) with
  | true => simp
  | false =>
  cases spent : decide (¬r.invite.uses = 0)
      && decide (r.invite.uses ≤ (v.view.uses x.scope inviteId).getD 0) with
  | true => simp
  | false =>
  cases able : holds (State.recordedRole v.view x.chain r.invite.maker) "invite"
    v.view.custom with
  | false => simp
  | true =>
  by_cases owner : State.recordedRole v.view x.chain r.invite.maker = some "owner"
  swap
  · simp [owner]
  have unranked (m : Member)
      : less (rankOf (some m.role)) (rankOf (some r.invite.role)) = false := by
    rw [rankOf_inherited proto]
    cases rankOf (some m.role) <;> rfl
  unfold Effect.redeem Effect.enter Effect.joins
  cases found : State.member v.view x.chain r.identity with
  | none =>
      unfold join
      simp [owner, admit_inherited proto _ _ _ fits.code]
  | some m =>
      have routes := foldlM_throws (routeThrows v.view x r.invite r.identity
          (Effect.redeemCustom x r v.view)) .notAFunction
        (route x r.invite r.identity (Effect.redeemCustom x r v.view) (subspacesOf v.view)) v
        (route_inherited sound.toReady fits.code r.invite r.identity _ proto)
        r.invite.subspaces
      rw [found] at loaded
      simp only [loaded, Option.all_some, unranked]
      cases thrown : r.invite.subspaces.any (routeThrows v.view x r.invite r.identity
          (Effect.redeemCustom x r v.view)) with
      | true =>
          rw [thrown] at routes
          simp [owner, routes]
      | false =>
          have still := foldl_effectRoute_inherited (v := v) thrown
          rw [thrown] at routes
          simp [owner, still, routes]

variable (env) in
theorem applyRedeem_ends (sound : v.view.Sound) (fits : x.Fits v.view) (redemption : Buffer)
    : (redeemThrows env v.view x redemption = true
        → ∃ thrown, applyRedeem env x redemption v = .error thrown)
      ∧ (redeemThrows env v.view x redemption = false
        → applyRedeem env x redemption v
          = .ok (match accepted env v.view x redemption with
              | none => v
              | some (r, device, inviteId) => Effect.redeem env x r device inviteId v)) := by
  have check := fits.can sound "decide"
  cases decides : holds x.authorRole "decide" v.view.custom with
  | false =>
      have unchanged : applyRedeem env x redemption v = .ok v := by
        unfold applyRedeem
        simp [check, decides]
      have refused : accepted env v.view x redemption = none := by
        simp [accepted, decides]
      simp [redeemThrows, decides, unchanged, refused]
  | true =>
  cases read : readBuffer (Encodings.redemption env.c) redemption with
  | none =>
      have unchanged : applyRedeem env x redemption v = .ok v := by
        unfold applyRedeem
        simp [check, decides, read]
      have refused : accepted env v.view x redemption = none := by
        simp [accepted, read]
      simp [redeemThrows, read, unchanged, refused]
  | some r =>
  cases unnamed : r.invite.id with
  | none =>
      have refused : accepted env v.view x redemption = none := by
        simp [accepted, read, signer_identified unnamed]
      cases valid : verifyInvite env.c env.keys r.invite env.space with
      | true =>
          have thrown : applyRedeem env x redemption v = .error .nullValue := by
            unfold applyRedeem
            simp [check, decides, read, verifyRedemption_eq, valid, unnamed]
          simp [redeemThrows, decides, read, unnamed, valid, thrown]
      | false =>
          have unchanged : applyRedeem env x redemption v = .ok v := by
            unfold applyRedeem
            simp [check, decides, read, verifyRedemption_eq, valid, signer_identified unnamed]
          simp [redeemThrows, decides, read, unnamed, valid, unchanged, refused]
  | some inviteId =>
  have verified : verifyRedemption env.c env.keys r env.space = .ok (signer env r) := by
    simp [verifyRedemption_eq, unnamed]
  cases signed : signer env r with
  | none =>
      have unchanged : applyRedeem env x redemption v = .ok v := by
        unfold applyRedeem
        simp [check, decides, read, verified, signed]
      have refused : accepted env v.view x redemption = none := by
        simp [accepted, read, signed]
      simp [redeemThrows, redeemRoleThrows, read, unnamed, signed, unchanged, refused]
  | some attested =>
  rw [signed] at verified
  by_cases here : r.invite.space = env.here x.scope
  swap
  · have unchanged : applyRedeem env x redemption v = .ok v := by
      unfold applyRedeem
      simp [check, decides, read, verified, here]
    have refused : accepted env v.view x redemption = none := by
      simp [accepted, read, signed, unnamed, here]
    simp [redeemThrows, redeemRoleThrows, read, unnamed, here, unchanged, refused]
  have accepts : accepted env v.view x redemption
      = if redeemable v.view x r.invite inviteId r.identity
          && invites (State.recordedRole v.view x.chain r.invite.maker) r.invite.role
            v.view.custom then some (r, attested.device, inviteId) else none := by
    simp [accepted, read, signed, unnamed, here, decides]
  by_cases proto : r.invite.role ∈ objectPrototype
  · have equation := applyRedeem_inherited sound fits decides read verified here unnamed proto
    have throws : redeemThrows env v.view x redemption
        = (redeemable v.view x r.invite inviteId r.identity
          && holds (State.recordedRole v.view x.chain r.invite.maker) "invite" v.view.custom
          && (State.recordedRole v.view x.chain r.invite.maker ≠ some "owner"
            || (State.member v.view x.chain r.identity).isNone
            || r.invite.subspaces.any (routeThrows v.view x r.invite r.identity
              (Effect.redeemCustom x r v.view)))) := by
      simp [redeemThrows, redeemRoleThrows, decides, read, unnamed, proto, signed, here]
    rw [equation, accepts, throws, invites_inherited proto]
    generalize (redeemable v.view x r.invite inviteId r.identity
      && holds (State.recordedRole v.view x.chain r.invite.maker) "invite" v.view.custom)
      = passes
    generalize ((State.recordedRole v.view x.chain r.invite.maker ≠ some "owner" : Bool)
      || (State.member v.view x.chain r.identity).isNone
      || r.invite.subspaces.any (routeThrows v.view x r.invite r.identity
        (Effect.redeemCustom x r v.view))) = thrown
    cases passes <;> cases thrown <;> simp
  · have equation := applyRedeem_eq sound fits decides read verified here unnamed proto
    refine ⟨by simp [redeemThrows, redeemRoleThrows, read, unnamed, proto], fun _ => ?_⟩
    rw [equation, accepts]
    split <;> rfl

-- Revocations and removed devices

/-- An invite someone may revoke here: valid, of this scope, theirs or theirs to decide. -/
def revocable (env : Env) (v : View) (x : Context) (invite : Buffer) : Option Invite := do
  let inv ← readBuffer (Encodings.invite env.c) invite
  if inv.space = env.here x.scope && verifyInvite env.c env.keys inv env.space
      && (holds x.authorRole "decide" v.custom || x.author = inv.maker) then
    some inv
  else none

/-- Would a revocation throw: by an absent id? -/
def revokeThrows (env : Env) (v : View) (x : Context) (invite : Buffer) : Bool :=
  (revocable env v x invite).any fun inv => inv.id.isNone

variable (env) in
theorem applyRevoke_ends (sound : v.view.Sound) (fits : x.Fits v.view) (invite : Buffer)
    : applyRevoke env x invite v
      = match revocable env v.view x invite with
        | none => .ok v
        | some inv =>
            match inv.id with
            | none => .error .nullValue
            | some inviteId =>
                if (v.view.revoked x.scope inviteId).isSome then .ok v
                else .ok (v.write (·.setRevoked x.scope inviteId (some ⟨x.author, x.stamp⟩))) := by
  unfold applyRevoke revocable
  cases readBuffer (Encodings.invite env.c) invite with
  | none => rfl
  | some inv =>
      simp only [fits.can sound, ok_bind, pure_eq_ok, Option.bind_eq_bind, Option.bind_some]
      by_cases here : inv.space = env.here x.scope
      swap
      · simp [here]
      cases valid : verifyInvite env.c env.keys inv env.space with
      | false => simp [here]
      | true =>
      cases decides : holds x.authorRole "decide" v.view.custom with
      | true =>
          simp only [here]
          cases named : inv.id <;> simp [named]
      | false =>
          by_cases theirs : x.author = inv.maker
          · simp only [here, theirs]
            cases named : inv.id <;> simp [named]
          · simp [here, theirs]

/-- Would a device's removal throw: by an absent cut? -/
def deviceThrows (x : Context) (d : DeviceRemove) : Bool := x.scope.isNone && d.cut.isNone

variable (env) in
theorem applyDeviceRemove_ends (sound : v.view.Sound) (fits : x.Fits v.view)
    (d : DeviceRemove)
    : (deviceThrows x d = true → ∃ thrown, applyDeviceRemove env x d v = .error thrown)
      ∧ (deviceThrows x d = false
        → applyDeviceRemove env x d v = .ok v
          ∨ ∃ info : Attested, x.scope = none
            ∧ applyDeviceRemove env x d v
              = .ok (Effect.deviceRemove env x info.identity d.device v)) := by
  cases scope : x.scope with
  | some s =>
      have unchanged : applyDeviceRemove env x d v = .ok v := by
        unfold applyDeviceRemove
        simp [scope]
      simp [deviceThrows, scope, unchanged]
  | none =>
      cases named : d.cut with
      | none =>
          have thrown : applyDeviceRemove env x d v = .error .nullValue := by
            unfold applyDeviceRemove removalSignable
            simp [scope, named]
          simp [deviceThrows, scope, named, thrown]
      | some cut =>
          refine ⟨by simp [deviceThrows, named], fun _ => ?_⟩
          rw [applyDeviceRemove_eq sound fits d named]
          split
          · exact .inl rfl
          · rename_i info _
            split
            · exact .inr ⟨info, rfl, rfl⟩
            · exact .inl rfl

end Hypergraph.Decisions
