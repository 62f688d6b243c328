import Hypergraph.Decisions.Throws

/-! What a decision can do to the view, by its kind: the one place the branches are opened.
Everything later about runs of the log is derived from this.
-/

namespace Hypergraph.Decisions

open Wire Js Encodings Invites

/-- Only what no one's rights or keys depend on differs. -/
def View.OnlyNotes (v w : View) : Prop :=
  w = { v with
    mod := w.mod
    redeemed := w.redeemed
    uses := w.uses
    revoked := w.revoked
    epochs := w.epochs
    types := w.types
    typesAt := w.typesAt
    listed := w.listed
    count := w.count
    list := w.list }

theorem View.OnlyNotes.trans {u v w : View} (first : u.OnlyNotes v) (second : v.OnlyNotes w)
    : u.OnlyNotes w := by
  unfold View.OnlyNotes at *
  rw [second, first]

-- The kinds that change no right

section Notes

variable {env : Env} {x : Context} {v : Counting}

theorem applyRecordAction_frame (d : Moderate)
    : v.view.OnlyNotes (applyRecordAction env x d v).view := by
  unfold applyRecordAction
  split
  · rfl
  · split
    · rfl
    · dsimp only
      split
      · rfl
      · rfl

variable (env) in
theorem applyTypes_ends (sound : v.view.Sound) (fits : x.Fits v.view) (d : TypesSet)
    : ∃ w, applyTypes env x d v = .ok w ∧ v.view.OnlyNotes w.view := by
  unfold applyTypes
  simp only [fits.can sound, ok_bind, pure_eq_ok]
  cases x.scope.isSome with
  | true => exact ⟨v, rfl, rfl⟩
  | false =>
  cases holds x.authorRole "decide" v.view.custom with
  | false => exact ⟨v, rfl, rfl⟩
  | true =>
      simp only [Bool.false_eq_true, if_false, Bool.not_true]
      split
      · exact ⟨v, rfl, rfl⟩
      · split
        · exact ⟨v, rfl, rfl⟩
        · split
          · exact ⟨v, rfl, rfl⟩
          · exact ⟨_, rfl, rfl⟩

theorem applyLogsList_ends (sound : v.view.Sound) (fits : x.Fits v.view)
    (logs : List ListedLog)
    : ∃ w, applyLogsList x logs v = .ok w ∧ v.view.OnlyNotes w.view := by
  unfold applyLogsList
  simp only [fits.mayWrite sound, ok_bind, pure_eq_ok]
  cases x.scope.isSome with
  | true => exact ⟨v, rfl, rfl⟩
  | false =>
  cases decides x.authorRole v.view.custom with
  | false => exact ⟨v, rfl, rfl⟩
  | true =>
      refine ⟨_, rfl, foldl_frame View.OnlyNotes (fun _ => rfl) (fun _ _ _ => .trans) _ ?_ _ v⟩
      intro v entry
      split <;> rfl

theorem begun (sound : v.view.Sound) (fits : x.Fits v.view) {role : String}
    (held : x.authorRole = some role)
    : (v.view.metaOf none).isSome := by
  cases found : v.view.metaOf none with
  | some entry => rfl
  | none =>
      rw [fits.role] at held
      obtain ⟨m, member, _⟩ := Option.map_eq_some_iff.mp held
      obtain ⟨scope, _, entry⟩ := State.member_entry member
      rw [(sound.blank found).member] at entry
      cases entry

theorem role_of_holds {role : Option String} {permission : String} {custom : Custom}
    (held : holds role permission custom = true)
    : ∃ name, role = some name := by
  cases role with
  | none => simp [holds, listOf, permissionsOf] at held
  | some name => exact ⟨name, rfl⟩

theorem role_of_decides {role : Option String} {custom : Custom}
    (held : decides role custom = true)
    : ∃ name, role = some name := by
  rcases Bool.or_eq_true_iff.mp held with held | held <;> exact role_of_holds held

theorem applyKeyRotate_ends (sound : v.view.Sound) (fits : x.Fits v.view) (d : KeyRotate)
    : ∃ w, applyKeyRotate x d v = .ok w ∧ v.view.OnlyNotes w.view := by
  unfold applyKeyRotate
  simp only [fits.mayWrite sound, ok_bind, pure_eq_ok]
  cases writes : decides x.authorRole v.view.custom with
  | false => exact ⟨v, rfl, rfl⟩
  | true =>
      obtain ⟨name, held⟩ := role_of_decides writes
      have rest (priv : Bool) : ∃ w, (if (!priv) = true then Except.ok v
            else if (d.epoch : Int) = ((v.view.epochs x.scope).getD {}).current + 1 then
              .ok (v.write (·.setEpochs x.scope (some { (v.view.epochs x.scope).getD {} with
                current := d.epoch
                commits := (d.epoch, d.commit)
                  :: ((v.view.epochs x.scope).getD {}).commits })))
            else if (d.epoch : Int) ≤ ((v.view.epochs x.scope).getD {}).current
                && ((v.view.epochs x.scope).getD {}).commits.lookup d.epoch ≠ some d.commit
                && (((v.view.epochs x.scope).getD {}).others.lookup d.commit).getD 0 = 0 then
              .ok (v.write (·.setEpochs x.scope (some { (v.view.epochs x.scope).getD {} with
                others := (d.commit, d.epoch)
                  :: ((v.view.epochs x.scope).getD {}).others })))
            else .ok v : Run Counting) = .ok w ∧ v.view.OnlyNotes w.view := by
        split
        · exact ⟨v, rfl, rfl⟩
        · split
          · exact ⟨_, rfl, rfl⟩
          · split
            · exact ⟨_, rfl, rfl⟩
            · exact ⟨v, rfl, rfl⟩
      cases scope : x.scope with
      | none =>
          obtain ⟨entry, found⟩ := Option.isSome_iff_exists.mp (begun sound fits held)
          have := rest entry.priv
          simpa [found, scope] using this
      | some s =>
          have recorded : (v.view.subspace s).isSome := by
            refine fits.path.recorded s ?_
            have head := fits.path.head?
            rw [scope] at head
            exact List.mem_of_mem_head? head
          obtain ⟨info, found⟩ := Option.isSome_iff_exists.mp recorded
          have := rest info.priv
          simpa [found, scope] using this

/-- A space's settings once changed: of the space begun, its owner kept, public for good. -/
structure Resettled (v : View) (scope : Scope) (next : Meta) : Prop where
  begun : (v.metaOf none).isSome
  owner : next.owner = ((v.metaOf scope).getD {}).owner
  pub : ((v.metaOf scope).getD {}).pub = true → next.pub = true

theorem resettled {next : Meta} (begun : (v.view.metaOf none).isSome) {d : SettingsSet}
    (changed : nextMeta v.view x d = some next)
    : Resettled v.view x.scope next := by
  simp only [nextMeta, Option.ite_none_left_eq_some, Option.some_inj] at changed
  obtain ⟨_, rfl⟩ := changed
  exact ⟨begun, rfl, fun pub => by simp [pub]⟩

theorem applySettings_ends (sound : v.view.Sound) (fits : x.Fits v.view) (d : SettingsSet)
    : ∃ w, applySettings x d v = .ok w
      ∧ (w = v ∨ ∃ next, Resettled v.view x.scope next
        ∧ w.view = v.view.setMeta x.scope (some next)) := by
  unfold applySettings
  simp only [fits.can sound, ok_bind, pure_eq_ok]
  cases writes : holds x.authorRole "decide" v.view.custom with
  | false => exact ⟨v, rfl, .inl rfl⟩
  | true =>
      obtain ⟨name, held⟩ := role_of_holds writes
      cases changed : nextMeta v.view x d with
      | none => exact ⟨v, rfl, .inl rfl⟩
      | some next =>
          exact ⟨_, rfl, .inr ⟨next, resettled (begun sound fits held) changed, rfl⟩⟩

variable (env) in
theorem applySubspaceCreate_ends (sound : v.view.Sound) (fits : x.Fits v.view)
    (d : SubspaceCreate)
    : ∃ w, applySubspaceCreate env x d v = .ok w
      ∧ (w = v ∨ holds x.authorRole "decide" v.view.custom = true
        ∧ v.view.subspace d.key = none ∧ w.view
          = (v.view.setSubspace d.key (some ⟨d.name, d.priv,
              (d.writeRoles.filter (· ≠ "")).eraseDups, x.scope, x.author,
              x.stamp⟩)).setSubspaces (some (v.view.subspaces.getD [] ++ [d.key]))) := by
  unfold applySubspaceCreate
  simp only [fits.can sound, ok_bind, pure_eq_ok]
  cases writes : holds x.authorRole "decide" v.view.custom with
  | false => exact ⟨v, rfl, .inl rfl⟩
  | true =>
      simp only [Bool.not_true, Bool.false_eq_true, if_false]
      split
      · exact ⟨v, rfl, .inl rfl⟩
      · rename_i new
        simp only [Bool.or_eq_true, decide_eq_true_eq, not_or, Option.not_isSome_iff_eq_none]
          at new
        exact ⟨_, rfl, .inr ⟨trivial, new.2, rfl⟩⟩

end Notes

-- What applying a decision does, by its kind

/-- Would a branch throw on what this decision carries? -/
def bodyThrows (env : Env) (v : View) (x : Context) : Body → Bool
  | .roleSet d => roleSetThrows v x d
  | .inviteRedeem redemption => redeemThrows env v x redemption
  | .inviteRevoke invite => revokeThrows env v x invite
  | .deviceRemove d => deviceThrows x d
  | .moderate d => actions.contains d.action && holds x.authorRole "moderate" v.custom
      && (d.action = "ban" || d.action = "unban") && d.target.isNone
  | _ => false

/-- The view with a sub-space created. -/
def Effect.subspaceCreate (x : Context) (d : SubspaceCreate) (v : View) : View :=
  (v.setSubspace d.key (some ⟨d.name, d.priv, (d.writeRoles.filter (· ≠ "")).eraseDups,
    x.scope, x.author, x.stamp⟩)).setSubspaces (some (v.subspaces.getD [] ++ [d.key]))

/-- May this ban be made: of an identity, by a moderator above them? -/
def bans (v : View) (x : Context) (id : Key) : Bool :=
  id.length = 32 && (v.banned x.scope id).isNone
    && removes x.authorRole (State.recordedRole v x.chain id) "moderate" v.custom

/-- May this decision redefine a role? -/
def defines (v : View) (x : Context) (d : RoleDefine) : Bool :=
  x.scope.isNone && holds x.authorRole "roles" v.custom && d.name ≠ ""
    && lookup roles d.name = .undefined && !takesFrom v d
    && grants x.authorRole (definedAs d) v.custom

/-- The kinds that change no right and no invite. -/
def noteKind : Body → Bool
  | .moderate d => d.action ≠ "ban" && d.action ≠ "unban"
  | .typesSet _ | .logsList _ | .keyRotate _ => true
  | _ => false

/-- What a decision did to the view, by its kind: nothing, where it does not count. -/
inductive Outcome (env : Env) (x : Context) (v : Counting) : Body → Counting → Prop
  | skipped (body : Body) : Outcome env x v body v
  | memberAdd (id : Key) (top : x.scope = none)
      (decides : holds x.authorRole "decide" v.view.custom = true)
      (absent : State.member v.view x.chain id = none) (free : v.view.banned none id = none)
    : Outcome env x v (.memberAdd id) (Effect.memberAdd x id v)
  | memberRemove (d : MemberRemove)
      (present : (State.member v.view x.chain d.identity).isSome)
      (removes : removes x.authorRole (State.recordedRole v.view x.chain d.identity) "decide"
        v.view.custom = true)
      (own : (v.view.member x.scope d.identity).isSome)
    : Outcome env x v (.memberRemove d) (Effect.memberRemove env x d v)
  | roleDefine (d : RoleDefine) (defines : defines v.view x d = true)
    : Outcome env x v (.roleDefine d) (Effect.roleDefine x d.name (definedAs d) v)
  | roleSet (d : RoleSet) (plain : d.role ∉ objectPrototype)
      (free : bannedIn v.view x.chain d.identity = false)
      (assigns : assigns x.authorRole (State.recordedRole v.view x.chain d.identity) d.role
        v.view.custom = true)
    : Outcome env x v (.roleSet d) (Effect.roleSet env x d v)
  | ban (d : Moderate) (id : Key) (action : d.action = "ban") (target : d.target = some id)
      (moderates : holds x.authorRole "moderate" v.view.custom = true)
      (bans : bans v.view x id = true)
    : Outcome env x v (.moderate d) (Effect.ban env x id d v)
  | dropAll (d : Moderate) (id : Key) (action : d.action = "ban") (target : d.target = some id)
      (banned : (v.view.banned x.scope id).isSome) (all : d.drop = some "all")
    : Outcome env x v (.moderate d) (Effect.dropAll v x.scope id d.cut x.stamp)
  | unban (d : Moderate) (id : Key) (action : d.action = "unban") (target : d.target = some id)
      (banned : (v.view.banned x.scope id).isSome)
    : Outcome env x v (.moderate d) (v.write (·.setBanned x.scope id none))
  | redeem (redemption : Buffer) (r : Redemption) (device inviteId : Key)
      (accepted : accepted env v.view x redemption = some (r, device, inviteId))
      (still : r.invite.role ∈ objectPrototype
        → v.view.OnlyNotes (Effect.redeem env x r device inviteId v).view)
    : Outcome env x v (.inviteRedeem redemption) (Effect.redeem env x r device inviteId v)
  | revoke (invite : Buffer) (inv : Invite) (inviteId : Key)
      (found : revocable env v.view x invite = some inv) (named : inv.id = some inviteId)
      (fresh : v.view.revoked x.scope inviteId = none)
    : Outcome env x v (.inviteRevoke invite)
        (v.write (·.setRevoked x.scope inviteId (some ⟨x.author, x.stamp⟩)))
  | writerAdd (d : WriterAdd) (info : Attested) (top : x.scope = none)
      (writes : writesAny v.view info.identity = true)
    : Outcome env x v (.writerAdd d) (Effect.writerAdd env info d.key v)
  | settings (d : SettingsSet) (next : Meta) (w : Counting)
      (kept : Resettled v.view x.scope next)
      (same : w.view = v.view.setMeta x.scope (some next))
    : Outcome env x v (.settingsSet d) w
  | subspaceCreate (d : SubspaceCreate)
      (decides : holds x.authorRole "decide" v.view.custom = true)
      (new : v.view.subspace d.key = none) (w : Counting) (same : w.view = Effect.subspaceCreate x d v.view)
    : Outcome env x v (.subspaceCreate d) w
  | deviceRemove (d : DeviceRemove) (id : Key) (top : x.scope = none)
    : Outcome env x v (.deviceRemove d) (Effect.deviceRemove env x id d.device v)
  | notes (body : Body) (w : Counting) (kind : noteKind body = true)
      (frame : v.view.OnlyNotes w.view)
    : Outcome env x v body w

section Bodies

variable {env : Env} {x : Context} {v : Counting}

/-- What it takes for a redemption to count. -/
theorem of_accepted {redemption : Buffer} {r : Redemption} {device inviteId : Key}
    (found : accepted env v.view x redemption = some (r, device, inviteId))
    : readBuffer (Encodings.redemption env.c) redemption = some r
      ∧ (∃ attested, signer env r = some attested ∧ attested.device = device)
      ∧ r.invite.id = some inviteId ∧ holds x.authorRole "decide" v.view.custom = true
      ∧ r.invite.space = env.here x.scope
      ∧ redeemable v.view x r.invite inviteId r.identity = true
      ∧ invites (State.recordedRole v.view x.chain r.invite.maker) r.invite.role
        v.view.custom = true := by
  unfold accepted at found
  simp only [Option.bind_eq_bind, Option.bind_eq_some_iff] at found
  obtain ⟨r', read, attested, signed, id', named, passes⟩ := found
  split at passes
  · rename_i checks
    cases passes
    simp only [Bool.and_eq_true, decide_eq_true_eq] at checks
    exact ⟨read, ⟨attested, signed, rfl⟩, named, checks.1.1.1, checks.1.1.2, checks.1.2,
      checks.2⟩
  · cases passes

/-- A role named like a property of `Object.prototype` is never given: where redeeming an
invite to one does not throw, only the redemption is noted.
-/
theorem redeem_inherited {redemption : Buffer} {r : Redemption} {device inviteId : Key}
    (found : accepted env v.view x redemption = some (r, device, inviteId))
    (safe : redeemThrows env v.view x redemption = false)
    (proto : r.invite.role ∈ objectPrototype)
    : v.view.OnlyNotes (Effect.redeem env x r device inviteId v).view := by
  obtain ⟨read, ⟨attested, signed, _⟩, named, decides, here, redeemable, invited⟩ :=
    of_accepted found
  rw [invites_inherited proto] at invited
  simp only [redeemThrows, redeemRoleThrows, decides, read, Option.any_some, named, proto, decide_true, signed,
    Option.isSome_some, here, redeemable, invited, Bool.true_and, Bool.and_true,
    Bool.or_eq_false_iff] at safe
  obtain ⟨⟨_, member⟩, routes⟩ := safe
  obtain ⟨m, present⟩ := Option.isSome_iff_exists.mp (by simpa using member)
  have unranked : less (rankOf (some m.role)) (rankOf (some r.invite.role)) = false := by
    rw [rankOf_inherited proto]
    cases rankOf (some m.role) <;> rfl
  have still := foldl_effectRoute_inherited routes
  unfold Effect.redeem Effect.enter Effect.joins
  simp only [present, Option.all_some, unranked, Bool.false_eq_true, if_false, still]
  rfl

variable (env) in
/-- Where a branch does not throw it ends, having done what its kind may do. -/
theorem applyBody_ends (sound : v.view.Sound) (fits : x.Fits v.view) (body : Body)
    : (bodyThrows env v.view x body = true
        → ∃ thrown, applyBody env x body v = .error thrown)
      ∧ (bodyThrows env v.view x body = false
        → ∃ w, applyBody env x body v = .ok w ∧ Outcome env x v body w) := by
  have unchanged (body : Body) : Outcome env x v body v := .skipped body
  cases body with
  | memberAdd id =>
      refine ⟨by simp [bodyThrows], fun _ => ⟨_, applyMemberAdd_eq sound fits id, ?_⟩⟩
      split
      · rename_i passes
        simp only [Bool.and_eq_true, Option.isNone_iff_eq_none] at passes
        exact .memberAdd id passes.1.1.1 passes.1.1.2 passes.1.2 passes.2
      · exact unchanged _
  | memberRemove d =>
      refine ⟨by simp [bodyThrows], fun _ => ⟨_, applyMemberRemove_eq sound fits d, ?_⟩⟩
      split
      · rename_i passes
        simp only [Bool.and_eq_true] at passes
        exact .memberRemove d passes.1.1 passes.1.2 passes.2
      · exact unchanged _
  | roleDefine d =>
      refine ⟨by simp [bodyThrows], fun _ => ⟨_, applyRoleDefine_eq sound fits d, ?_⟩⟩
      split
      · rename_i passes
        exact .roleDefine d passes
      · exact unchanged _
  | roleSet d =>
      by_cases proto : d.role ∈ objectPrototype
      · have inherited := applyRoleSet_inherited env sound fits d proto
        cases throws : roleSetThrows v.view x d with
        | true =>
            rw [throws] at inherited
            exact ⟨fun _ => ⟨_, inherited⟩, by simp [bodyThrows, throws]⟩
        | false =>
            rw [throws] at inherited
            exact ⟨by simp [bodyThrows, throws], fun _ => ⟨v, inherited, unchanged _⟩⟩
      · refine ⟨by simp [bodyThrows, roleSetThrows, proto],
          fun _ => ⟨_, applyRoleSet_eq sound fits d proto, ?_⟩⟩
        split
        · rename_i passes
          simp only [Bool.and_eq_true, Bool.not_eq_true'] at passes
          exact .roleSet d proto passes.1 passes.2
        · exact unchanged _
  | moderate d =>
      have equation := applyModerate_eq env sound fits d
      by_cases passes : (actions.contains d.action
          && holds x.authorRole "moderate" v.view.custom) = true
      swap
      · rw [if_neg passes] at equation
        refine ⟨fun thrown => ?_, fun _ => ⟨v, equation, unchanged _⟩⟩
        simp only [bodyThrows, Bool.and_eq_true] at thrown
        exact absurd (Bool.and_eq_true_iff.mpr thrown.1.1) passes
      rw [if_pos passes] at equation
      have moderates := (Bool.and_eq_true_iff.mp passes).2
      have throws : bodyThrows env v.view x (.moderate d)
          = ((d.action = "ban" || d.action = "unban") && d.target.isNone) := by
        simp only [bodyThrows, passes, Bool.true_and]
      rw [throws]
      change (_ → ∃ thrown, applyModerate env x d v = .error thrown)
        ∧ (_ → ∃ w, applyModerate env x d v = .ok w ∧ _)
      rw [equation]
      by_cases ban : d.action = "ban"
      · cases target : d.target with
        | none =>
            have thrown : applyBan env x d v = .error .nullValue := by
              unfold applyBan
              simp [target]
            simp [ban, thrown]
        | some id =>
            have banned := applyBan_eq env sound fits d target
            refine ⟨by simp, fun _ => ?_⟩
            rw [if_pos ban, banned]
            refine ⟨_, rfl, ?_⟩
            split
            · exact unchanged _
            · rename_i length
              split
              · rename_i banned
                split
                · rename_i all
                  exact .dropAll d id ban target banned all
                · exact unchanged _
              · rename_i free
                split
                · rename_i removable
                  refine .ban d id ban target moderates ?_
                  simp only [ne_eq, not_not] at length
                  simpa [bans, length, removable] using free
                · exact unchanged _
      · by_cases unban : d.action = "unban"
        · cases target : d.target with
          | none =>
              have thrown : applyUnban x d v = .error .nullValue := by
                unfold applyUnban
                simp [target]
              simp [unban, thrown]
          | some id =>
              have lifted := applyUnban_eq sound fits d target
              refine ⟨by simp, fun _ => ?_⟩
              rw [if_neg ban, if_pos unban, lifted]
              refine ⟨_, rfl, ?_⟩
              split
              · rename_i banned
                refine .unban d id unban target ?_
                simp only [Bool.and_eq_true] at banned
                exact Option.isSome_of_any banned.2
              · exact unchanged _
        · refine ⟨by simp [ban, unban], fun _ => ?_⟩
          rw [if_neg ban, if_neg unban]
          exact ⟨_, rfl, .notes _ _ (by simp [noteKind, ban, unban]) (applyRecordAction_frame d)⟩
  | inviteRedeem redemption =>
      have ends := applyRedeem_ends env sound fits redemption
      refine ⟨ends.1, fun safe => ⟨_, ends.2 safe, ?_⟩⟩
      split
      · exact unchanged _
      · rename_i r device inviteId found
        exact .redeem redemption r device inviteId found (redeem_inherited found safe)
  | inviteRevoke invite =>
      have ends := applyRevoke_ends env sound fits invite
      cases found : revocable env v.view x invite with
      | none =>
          rw [found] at ends
          exact ⟨by simp [bodyThrows, revokeThrows, found], fun _ => ⟨v, ends, unchanged _⟩⟩
      | some inv =>
          cases named : inv.id with
          | none =>
              simp only [found, named] at ends
              exact ⟨fun _ => ⟨_, ends⟩, by simp [bodyThrows, revokeThrows, found, named]⟩
          | some inviteId =>
              simp only [found, named] at ends
              refine ⟨by simp [bodyThrows, revokeThrows, found, named], fun _ => ?_⟩
              simp only [applyBody, ends]
              split
              · exact ⟨v, rfl, unchanged _⟩
              · rename_i fresh
                exact ⟨_, rfl, .revoke invite inv inviteId found named (by simpa using fresh)⟩
  | writerAdd d =>
      refine ⟨by simp [bodyThrows], fun _ => ⟨_, applyWriterAdd_eq sound fits d, ?_⟩⟩
      split
      · exact unchanged _
      · rename_i info _
        split
        · rename_i passes
          simp only [Bool.and_eq_true, Option.isNone_iff_eq_none] at passes
          exact .writerAdd d info passes.1.1 passes.2
        · exact unchanged _
  | settingsSet d =>
      refine ⟨by simp [bodyThrows], fun _ => ?_⟩
      obtain ⟨w, ends, rfl | ⟨next, kept, same⟩⟩ := applySettings_ends sound fits d
      · exact ⟨w, ends, unchanged _⟩
      · exact ⟨w, ends, .settings d next w kept same⟩
  | typesSet d =>
      refine ⟨by simp [bodyThrows], fun _ => ?_⟩
      obtain ⟨w, ends, frame⟩ := applyTypes_ends env sound fits d
      exact ⟨w, ends, .notes _ w rfl frame⟩
  | logsList logs =>
      refine ⟨by simp [bodyThrows], fun _ => ?_⟩
      obtain ⟨w, ends, frame⟩ := applyLogsList_ends sound fits logs
      exact ⟨w, ends, .notes _ w rfl frame⟩
  | subspaceCreate d =>
      refine ⟨by simp [bodyThrows], fun _ => ?_⟩
      obtain ⟨w, ends, rfl | ⟨decides, new, same⟩⟩ :=
        applySubspaceCreate_ends env sound fits d
      · exact ⟨w, ends, unchanged _⟩
      · exact ⟨w, ends, .subspaceCreate d decides new w same⟩
  | keyRotate d =>
      refine ⟨by simp [bodyThrows], fun _ => ?_⟩
      obtain ⟨w, ends, frame⟩ := applyKeyRotate_ends sound fits d
      exact ⟨w, ends, .notes _ w rfl frame⟩
  | deviceRemove d =>
      have ends := applyDeviceRemove_ends env sound fits d
      refine ⟨ends.1, fun safe => ?_⟩
      rcases ends.2 safe with same | ⟨info, top, removed⟩
      · exact ⟨v, same, unchanged _⟩
      · exact ⟨_, removed, .deviceRemove d info.identity top⟩
  | _ => exact ⟨by simp [bodyThrows], fun _ => ⟨v, rfl, unchanged _⟩⟩

end Bodies

-- The shape of each effect: members and bans, then cuts, then keys

section Shapes

variable (env : Env) (x : Context) (v : Counting)

theorem memberAdd_shape (id : Key)
    : (v.view.setMember none id (some { role := "member", by_ := x.author, stamp := x.stamp })
        ).OnlyCuts (Effect.memberAdd x id v).view :=
  admit_frame (v.write (·.setMember none id
    (some { role := "member", by_ := x.author, stamp := x.stamp }))) _ _ _ _

theorem memberRemove_shape (tree : v.view.Tree) (d : MemberRemove)
    : ∃ u, ((v.view.setMember x.scope d.identity none).dropped x.scope d.identity).OnlyCuts u.view
      ∧ Effect.memberRemove env x d v = Effect.settle env u d.identity := by
  refine ⟨_, ?_, rfl⟩
  have view : (Effect.dropBelow x.scope d.identity
      (v.write (·.setMember x.scope d.identity none))).view
      = (v.view.setMember x.scope d.identity none).dropped x.scope d.identity :=
    dropBelow_view x.scope d.identity (tree.congr rfl rfl)
  rw [← view]
  exact (cutIf_frame _ _ _ _ _ _).trans (recordEditCuts_frame _ _ _ _ _)

/-- The member entry a role change leads to. -/
def Effect.nextMember (x : Context) (d : RoleSet) (v : View) : Member :=
  let member := State.member v x.chain d.identity
  ⟨d.role, x.author, x.stamp, member.bind Member.writer, member.bind Member.writerDevice⟩

theorem roleSet_shape (d : RoleSet)
    : ∃ u writer device,
        (v.view.setMember x.scope d.identity (some (Effect.nextMember x d v.view))).OnlyCuts u.view
        ∧ Effect.roleSet env x d v
          = Effect.settle env (Effect.addMemberKey u d.identity d.role writer device)
            d.identity :=
  ⟨_, _, _, ((admit_frame (v.write (·.setMember x.scope d.identity
      (some (Effect.nextMember x d v.view)))) _ _ _ _).trans (cutIf_frame _ _ _ _ _ _)).trans
    (recordEditCuts_frame _ _ _ _ _), rfl⟩

/-- A ban takes away the entry of someone with a role; without one, an entry stays. -/
def Effect.banned (x : Context) (id : Key) (ban : Ban) (v : View) : View :=
  if (State.member v x.chain id).isNone then v.setBanned x.scope id (some ban)
  else (v.setBanned x.scope id (some ban)).setMember x.scope id none

/-- The entry of a ban. -/
def Effect.banOf (x : Context) (d : Moderate) : Ban :=
  ⟨x.author, d.reason, x.stamp, d.drop = some "all"⟩

theorem ban_shape (id : Key) (d : Moderate)
    : ∃ u, (Effect.banned x id (Effect.banOf x d) v.view).OnlyCuts u.view
      ∧ Effect.ban env x id d v = Effect.settle env u id := by
  refine ⟨_, ?_, rfl⟩
  have dropIf (w : Counting) : w.view.OnlyCuts
      (if d.drop = some "all" then Effect.dropAll w x.scope id d.cut x.stamp else w).view := by
    split
    · exact dropAll_frame w x.scope id d.cut x.stamp
    · rfl
  refine View.OnlyCuts.trans ?_ (dropIf _)
  unfold Effect.banned
  split
  · split <;> rfl
  · exact (cutIf_frame (Counting.write _ _) _ _ _ _ _).trans (recordEditCuts_frame _ _ _ _ _)

end Shapes

end Hypergraph.Decisions
