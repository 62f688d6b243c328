import Hypergraph.Decisions.Rights
import Hypergraph.Decisions.Ideal

/-! Writer keys follow rights: who may neither decide nor moderate anywhere has none, and one
key of each who decides in the top space settles the order. Every branch but a role's
redefinition restores this for the identity whose role it changed.
-/

namespace Hypergraph.Decisions

open Wire Js Encodings Invites

def decidesTop (v : View) (id : Key) : Bool :=
  holds (State.recordedRole v [] id) "decide" v.custom

/-- One identity's keys follow its rights. -/
structure Follows (v : View) (id : Key) : Prop where
  idle : writesAny v id = false → writersOf v id = []
  settles : decidesTop v id = true → writersOf v id ≠ []
    → ∃ key w, v.writer key = some w ∧ w.identity = id ∧ w.indexer = true
  quiet : decidesTop v id = false
    → ∀ key w, v.writer key = some w → w.identity = id → w.indexer = false

theorem writesAny_of_decidesTop {v : View} {id : Key} (decides : decidesTop v id = true)
    : writesAny v id = true := by
  unfold decidesTop at decides
  simp [writesAny, rolesAt, Decisions.decides, decides]

-- Where rights stay or grow

section Same

variable {v w : View} {id : Key}

theorem Follows.mono (follows : Follows v id)
    (grows : writesAny v id = true → writesAny w id = true)
    (top : decidesTop w id = decidesTop v id) (keys : writersOf w id = writersOf v id)
    (entries : ∀ k e, e.identity = id → (w.writer k = some e ↔ v.writer k = some e))
    : Follows w id where
  idle unable := by
    rw [keys]
    refine follows.idle ?_
    cases before : writesAny v id with
    | false => rfl
    | true => exact (unable.symm.trans (grows before)).symm
  settles decides some := by
    rw [top] at decides
    rw [keys] at some
    obtain ⟨key, e, found, theirs, settles⟩ := follows.settles decides some
    exact ⟨key, e, (entries key e theirs).mpr found, theirs, settles⟩
  quiet decides key e found theirs := by
    rw [top] at decides
    exact follows.quiet decides key e ((entries key e theirs).mp found) theirs

/-- Roles on each chain decide where someone writes. -/
theorem writesAny_mono (treeV : v.Tree) (treeW : w.Tree)
    (roles : ∀ scope chain, IsChain v scope chain
      → decides (State.recordedRole v chain id) v.custom = true
      → IsChain w scope chain ∧ decides (State.recordedRole w chain id) w.custom = true)
    : writesAny v id = true → writesAny w id = true := by
  intro writes
  obtain ⟨scope, chain, path, decides⟩ := (writesAny_iff treeV).mp writes
  obtain ⟨path', decides'⟩ := roles scope chain path decides
  exact (writesAny_iff treeW).mpr ⟨scope, chain, path', decides'⟩

theorem SameRights.decidesTop (same : SameRights v w id)
    : Decisions.decidesTop w id = Decisions.decidesTop v id := by
  unfold Decisions.decidesTop
  rw [same.recordedRole, custom_congr same.role]

theorem Follows.same (follows : Follows v id) (same : SameRights v w id)
    (keys : writersOf w id = writersOf v id)
    (entries : ∀ k e, e.identity = id → (w.writer k = some e ↔ v.writer k = some e))
    : Follows w id :=
  follows.mono (fun writes => same.writesAny ▸ writes) same.decidesTop keys entries

end Same

-- Settled

section Settled

variable {env : Env} {v : Counting} {id : Key}

/-- `settle` makes an identity's keys follow its rights, whatever they did before. -/
theorem follows_settle (keys : v.view.WriterKeys) (one : v.view.OneSettler)
    : Follows (Effect.settle env v id).view id := by
  have rights : SameRights v.view (Effect.settle env v id).view id :=
    (SameRoster.onlyWriters (settle_frame env v id)).rights
  have writes := rights.writesAny
  have top := rights.decidesTop
  cases able : writesAny v.view id with
  | false =>
      have spec := forgetAll_spec id env keys
      have gone : (Effect.settle env v id) = Effect.forgetAll env v id := by
        unfold Effect.settle
        simp [able]
      rw [gone] at writes top ⊢
      have none : writersOf (Effect.forgetAll env v id).view id = [] := by
        rw [spec.2.2.1, if_pos rfl]
      refine ⟨fun _ => none, fun _ some => absurd none some, fun _ key w found theirs => ?_⟩
      have listed := spec.1.listed found
      rw [theirs, none] at listed
      cases listed
  | true =>
      rw [able] at writes
      refine ⟨fun unable => ?_, fun decides some => ?_, fun decides key w found theirs => ?_⟩
      · rw [writes] at unable
        cases unable
      · rw [top] at decides
        have held : holds (State.recordedRole v.view [] id) "decide" v.view.custom = true :=
          decides
        cases first : Effect.settler v.view id with
        | some key =>
            have same : Effect.settle env v id = v := by
              unfold Effect.settle
              simp [able, held, first]
            rw [same]
            obtain ⟨w, found, theirs, settles⟩ := settler_some id keys first
            exact ⟨key, w, found, theirs, settles⟩
        | none =>
            cases list : writersOf v.view id with
            | nil =>
                have same : Effect.settle env v id = v := by
                  unfold Effect.settle
                  simp [able, held, first, list]
                rw [same] at some
                exact absurd list some
            | cons key rest =>
                have same : Effect.settle env v id
                    = (Effect.mark v key true).call (.addWriter key true) := by
                  unfold Effect.settle
                  simp [able, held, first, list]
                rw [same]
                have first : key ∈ writersOf v.view id := by simp [list]
                obtain ⟨w, found, theirs⟩ := keys.known first
                refine ⟨key, { w with indexer := true }, ?_, theirs, rfl⟩
                change (Effect.mark v key true).view.writer key = _
                rw [mark_writer, if_pos rfl, found]
                rfl
      · rw [top] at decides
        have held : holds (State.recordedRole v.view [] id) "decide" v.view.custom = false :=
          decides
        cases first : Effect.settler v.view id with
        | none =>
            have same : Effect.settle env v id = v := by
              unfold Effect.settle
              simp [able, held, first]
            rw [same] at found
            exact settler_none id keys first found theirs
        | some settling =>
            have same : (Effect.settle env v id).view = (Effect.mark v settling false).view := by
              unfold Effect.settle
              simp only [able, held, first, Bool.not_true, Bool.false_eq_true, if_false]
              split <;> rfl
            rw [same, mark_writer] at found
            split at found
            · obtain ⟨e, _, rfl⟩ := Option.map_eq_some_iff.mp found
              rfl
            · rename_i other
              obtain ⟨e, known, their, settles⟩ := settler_some id keys first
              cases quiet : w.indexer with
              | false => rfl
              | true =>
                  exact absurd (one key settling w e found known quiet settles
                    (theirs.trans their.symm)) other

theorem Follows.settle {i : Key} (follows : Follows v.view i) (keys : v.view.WriterKeys)
    (other : i ≠ id)
    : Follows (Effect.settle env v id).view i :=
  have untouched := settle_others id env keys other
  follows.same (SameRoster.onlyWriters (settle_frame env v id)).rights untouched.1 untouched.2

/-- So after `settle` everyone's do, if everyone else's did. -/
theorem follows_all (keys : v.view.WriterKeys) (one : v.view.OneSettler)
    (others : ∀ i, i ≠ id → Follows v.view i) (i : Key)
    : Follows (Effect.settle env v id).view i := by
  by_cases theirs : i = id
  · exact theirs ▸ follows_settle keys one
  · exact (others i theirs).settle keys theirs

theorem Follows.addKey {i : Key} (follows : Follows v.view i) (other : i ≠ id) (key : Key)
    (device : Option Key)
    : Follows (addKey v id key device).2.view i := by
  rcases addKey_cases (v := v) id key device with same | ⟨fresh, writer, writers⟩
  · rwa [same]
  · refine follows.same (SameRoster.onlyWriters (addKey_frame v id key device)).rights
      (by rw [writers, if_neg other]) fun k e theirs => ?_
    rw [writer]
    split
    · rename_i here
      subst here
      rw [fresh]
      refine ⟨fun found => ?_, fun impossible => nomatch impossible⟩
      cases found
      exact absurd theirs.symm other
    · rfl

theorem Follows.addMemberKey {i : Key} (follows : Follows v.view i) (other : i ≠ id)
    (role : String) (writer device : Option Key)
    : Follows (Effect.addMemberKey v id role writer device).view i := by
  unfold Effect.addMemberKey
  split
  · exact follows
  · split
    · exact follows.addKey other _ device
    · exact follows

theorem View.OneSettler.addMemberKey (one : v.view.OneSettler) (role : String)
    (writer device : Option Key)
    : (Effect.addMemberKey v id role writer device).view.OneSettler := by
  unfold Effect.addMemberKey
  split
  · exact one
  · split
    · exact one.addKey id _ device
    · exact one

end Settled

-- One decision

/-- Everyone's keys follow their rights. -/
structure View.KeysFollow (v : View) : Prop where
  one : v.OneSettler
  follows : ∀ id, Follows v id

/-- Everyone with writer keys still decides or moderates somewhere once a role is redefined,
and decides in the top space just as before.
-/
def RightsKept (v : View) (d : RoleDefine) : Prop :=
  ∀ id, writersOf v id ≠ []
    → (rolesAt v id).any (fun role => decides role (redefined v d)) = true
      ∧ holds (State.recordedRole v [] id) "decide" (redefined v d)
        = holds (State.recordedRole v [] id) "decide" v.custom

section Kept

variable {v w : View} {id : Key}

theorem View.OneSettler.congr (one : v.OneSettler) (same : w.writer = v.writer)
    : w.OneSettler := by
  intro key other
  rw [same]
  exact one key other

theorem View.OneSettler.onlyCuts {u : View} (one : v.OneSettler) (frame : u.OnlyCuts w)
    (same : u.writer = v.writer)
    : w.OneSettler :=
  one.congr (by rw [frame]; exact same)

theorem View.WriterKeys.onlyCuts {u : View} (keys : v.WriterKeys) (frame : u.OnlyCuts w)
    (same : u.writer = v.writer) (lists : u.writers = v.writers)
    : w.WriterKeys :=
  keys.congr (by rw [frame]; exact same) (by rw [frame]; exact lists)

theorem Follows.onlyCuts (follows : Follows v id) (frame : v.OnlyCuts w) : Follows w id := by
  have rights : SameRights v w id := (SameRoster.onlyCuts frame).rights
  refine follows.same rights ?_ ?_ <;> rw [frame]
  · rfl
  · exact fun _ _ _ => Iff.rfl

theorem View.KeysFollow.same (keys : v.KeysFollow) (rights : ∀ i, SameRights v w i)
    (writer : w.writer = v.writer) (writers : w.writers = v.writers)
    : w.KeysFollow where
  one := keys.one.congr writer
  follows i := (keys.follows i).same (rights i) (by unfold writersOf; rw [writers])
    fun _ _ _ => by rw [writer]

theorem View.KeysFollow.onlyCuts (keys : v.KeysFollow) (frame : v.OnlyCuts w)
    : w.KeysFollow := by
  have rights (i : Key) : SameRights v w i := (SameRoster.onlyCuts frame).rights
  refine keys.same rights ?_ ?_ <;> rw [frame]

theorem View.KeysFollow.onlyNotes (keys : v.KeysFollow) (frame : v.OnlyNotes w)
    : w.KeysFollow := by
  have rights (i : Key) : SameRights v w i := (SameRoster.onlyNotes frame).rights
  refine keys.same rights ?_ ?_ <;> rw [frame]

/-- Rights of one identity grew, and not in the top space. -/
theorem View.KeysFollow.grow (keys : v.KeysFollow)
    (others : ∀ i, i ≠ id → SameRights v w i)
    (grows : writesAny v id = true → writesAny w id = true)
    (top : decidesTop w id = decidesTop v id)
    (writer : w.writer = v.writer) (writers : w.writers = v.writers)
    : w.KeysFollow where
  one := keys.one.congr writer
  follows i := by
    have list : writersOf w i = writersOf v i := by
      unfold writersOf
      rw [writers]
    have entries (k : Key) (e : Writer) (_ : e.identity = i)
        : w.writer k = some e ↔ v.writer k = some e := by rw [writer]
    by_cases theirs : i = id
    · subst theirs
      exact (keys.follows i).mono grows top list entries
    · exact (keys.follows i).same (others i theirs) list entries

/-- Rights of one identity changed, and `settle` was called for it. -/
theorem View.KeysFollow.settled {env : Env} {u : Counting} (ready : u.view.WriterKeys)
    (one : u.view.OneSettler) (others : ∀ i, i ≠ id → Follows u.view i)
    : (Effect.settle env u id).view.KeysFollow where
  one := one.settle id env ready
  follows := follows_all ready one others

theorem View.KeysFollow.setRole (keys : v.KeysFollow) (agree : v.WriterKeys)
    {d : RoleDefine} {entry : CustomRole} (permissions : entry.permissions = definedAs d)
    (kept : RightsKept v d)
    : (v.setRole d.name (some entry)).KeysFollow := by
  have custom := custom_setRole (v := v) permissions
  have role (chain : List Key) (i : Key)
      : State.recordedRole (v.setRole d.name (some entry)) chain i
        = State.recordedRole v chain i :=
    State.recordedRole_congr (fun _ _ => rfl) (fun _ _ => rfl) fun _ _ => rfl
  have roles (i : Key) : rolesAt (v.setRole d.name (some entry)) i = rolesAt v i := by
    unfold rolesAt subspacesOf
    simp only [role, View.setRole_subspaces, View.setRole_subspace,
      chainAt_congr (v := v) (w := v.setRole d.name (some entry)) rfl rfl]
  refine ⟨keys.one, fun i => ?_⟩
  by_cases idle : writersOf v i = []
  · have unknown (key : Key) (e : Writer) (found : v.writer key = some e)
        (theirs : e.identity = i) : False := by
      have listed := agree.listed found
      rw [theirs, idle] at listed
      cases listed
    exact ⟨fun _ => idle, fun _ some => absurd idle some,
      fun _ key e found theirs => (unknown key e found theirs).elim⟩
  · obtain ⟨writes, decides⟩ := kept i idle
    refine (keys.follows i).mono (fun _ => ?_) ?_ rfl fun _ _ _ => Iff.rfl
    · unfold writesAny
      rw [roles, custom]
      exact writes
    · unfold decidesTop
      rw [role, custom]
      exact decides

/-- A raised role decides or moderates wherever the lower one did. -/
theorem writesAny_raised {scope : Scope} {base : List Key} {new : Member} (sound : v.Sound)
    (tree : (v.setMember scope id (some new)).Tree)
    (here : IsChain v scope base) (free : bannedIn v base id = false)
    (raised : ∀ m, State.member v base id = some m
      → atLeast (rankOf (some m.role)) (rankOf (some new.role)) = false)
    (plain : new.role ∉ objectPrototype) (below : new.role ≠ "owner")
    : writesAny v id = true → writesAny (v.setMember scope id (some new)) id = true := by
  refine writesAny_mono sound.tree tree fun t chain path writes => ⟨path.congr (v := v) rfl, ?_⟩
  unfold State.recordedRole at writes ⊢
  rcases State.member_raised here free raised plain below path with same | ⟨isNew, isAbove⟩
  · rwa [same]
  · rw [isNew]
    cases before : State.member v chain id with
    | none =>
        rw [before] at writes
        cases writes
    | some m =>
        rw [before] at writes
        have known := sound.plain.recordedRole chain id
        unfold State.recordedRole at known
        rw [before] at known
        exact decides_of_above (by simpa using known) plain (isAbove m before) writes

/-- Adding a member gives no right to decide. -/
theorem View.KeysFollow.memberAdd (keys : v.KeysFollow) (sound : v.Sound)
    {new : Member} (role : new.role = "member") (absent : v.member none id = none)
    (free : v.banned none id = none)
    : (v.setMember none id (some new)).KeysFollow := by
  have grows : writesAny v id = true → writesAny (v.setMember none id (some new)) id = true :=
    writesAny_raised sound (sound.tree.congr rfl rfl) .top (by simp [bannedIn, free]) (fun m found => by
      rw [State.member, absent] at found
      cases found) (by rw [role]; decide) (by rw [role]; decide)
  refine keys.grow (fun i other => sameRights_setMember other none _) grows ?_ rfl rfl
  unfold decidesTop State.recordedRole State.member
  simp only [View.setMember_member, and_self, if_true, absent, Option.map_some, role,
    Option.map_none]
  rfl

/-- A role routed to a sub-space is never a step down there. -/
theorem View.KeysFollow.route {x : Context} {v : Counting} (keys : v.view.KeysFollow)
    (sound : v.view.Sound) (inv : Invite) (custom : Custom)
    (plain : inv.role ∉ objectPrototype) (below : inv.role ≠ "owner") (key : Key)
    : (Effect.route x inv id custom v key).view.KeysFollow := by
  rcases route_given (x := x) sound.tree inv id custom key with
    same | ⟨chain, maker, path, _, free, _, _, raised, cuts⟩
  · rwa [same]
  · have given := keys.grow (fun i other => sameRights_setMember other (some key)
        (some { role := inv.role, by_ := inv.maker, stamp := x.stamp }))
      (writesAny_raised sound (sound.tree.congr rfl rfl) path free raised plain below)
      rfl rfl rfl
    exact given.onlyCuts cuts

theorem View.KeysFollow.unban (keys : v.KeysFollow) (sound : v.Sound) {scope : Scope}
    (banned : (v.banned scope id).isSome)
    : (v.setBanned scope id none).KeysFollow := by
  refine keys.grow (fun i other => sameRights_setBanned other scope none) ?_ rfl rfl rfl
  refine writesAny_mono sound.tree (sound.tree.congr rfl rfl) fun t chain path writes =>
    ⟨path.congr (v := v) rfl, ?_⟩
  have absent : scope ∉ scopesOf chain := by
    intro met
    have isOut : bannedIn v chain id = true := by
      simp only [bannedIn, List.any_eq_true]
      exact ⟨scope, met, banned⟩
    have out := State.member_banned sound.topBan isOut
    unfold State.recordedRole at writes
    rw [out] at writes
    cases writes
  rw [State.recordedRole_congr (v := v) (w := v.setBanned scope id none) (fun _ _ => rfl)
    (fun s met => ?_) fun _ _ => rfl]
  · exact writes
  · have other : s ≠ scope := fun same => absent (same ▸ met)
    simp [other]

/-- A new sub-space takes no right away. -/
theorem View.KeysFollow.subspaceCreate {x : Context} {d : SubspaceCreate}
    (keys : v.KeysFollow) (sound : v.Sound) (path : IsChain v x.scope x.chain)
    (new : v.subspace d.key = none)
    : (Effect.subspaceCreate x d v).KeysFollow where
  one := keys.one.congr rfl
  follows i := by
    refine (keys.follows i).mono ?_ rfl rfl fun _ _ _ => Iff.rfl
    refine writesAny_mono sound.tree (sound.tree.subspaceCreate path new)
      fun t chain found writes => ⟨found.subspaceCreate new, ?_⟩
    rw [State.recordedRole_congr (v := v) (w := Effect.subspaceCreate x d v) (fun _ _ => rfl)
      (fun _ _ => rfl) fun s met => ?_]
    · exact writes
    · have other : s ≠ d.key := by
        rintro rfl
        have known := found.recorded _ met
        rw [new] at known
        cases known
      simp [Effect.subspaceCreate, other]

end Kept

section Step

variable {env : Env} {x : Context} {v w : Counting}

theorem View.KeysFollow.redeem (keys : v.view.KeysFollow) (sound : v.view.Sound)
    (begun : (v.view.metaOf none).isSome) (fits : x.Fits v.view) {redemption : Buffer}
    {r : Redemption} {device inviteId : Key}
    (found : accepted env v.view x redemption = some (r, device, inviteId))
    (plain : r.invite.role ∉ objectPrototype)
    : (Effect.redeem env x r device inviteId v).view.KeysFollow := by
  obtain ⟨_, _, _, _, _, redeemable, invited⟩ := of_accepted found
  have named := ne_empty_of_invites invited
  have below := ne_owner_of_invites invited
  have free : bannedIn v.view x.chain r.identity = false := by
    simp only [Decisions.redeemable, Bool.and_eq_true, Bool.not_eq_true'] at redeemable
    exact redeemable.1.1.1.1
  have entered : (Effect.enter env x r device v).1.view.KeysFollow
      ∧ (Effect.enter env x r device v).1.view.Sound
      ∧ ((Effect.enter env x r device v).1.view.metaOf none).isSome := by
    unfold Effect.enter
    split
    · have arrived := sound.arrive begun fits device plain named below free
      obtain ⟨u, cuts, writers⟩ := arrive_frame (x := x) r device v
      have still := writers.begun (cuts.begun begun)
      refine ⟨.settled arrived.keys ?_ fun i other => ?_, arrived.settle still _,
        (settle_frame env _ _).begun still⟩
      · refine View.OneSettler.addMemberKey ?_ r.invite.role (some r.writer) (some device)
        exact keys.one.onlyCuts (admit_frame (v.write _) _ _ _ _) rfl
      · refine Follows.addMemberKey ?_ other r.invite.role (some r.writer) (some device)
        have given := (keys.follows i).same (sameRights_setMember other x.scope
          (some ⟨r.invite.role, r.invite.maker, x.stamp, some r.writer, some device⟩)) rfl
          fun _ _ _ => Iff.rfl
        exact given.onlyCuts (admit_frame (v.write _) _ _ _ _)
    · exact ⟨keys, sound, begun⟩
  have routed := foldl_keeps (fun v : Counting => v.view.KeysFollow ∧ v.view.Sound
      ∧ (v.view.metaOf none).isSome)
    (Effect.route x r.invite r.identity (Effect.enter env x r device v).2) (by
      rintro u key ⟨keys, sound, begun⟩
      have step := sound.routes (x := x) begun r.invite r.identity
        (Effect.enter env x r device v).2 plain named below [key]
      exact ⟨keys.route sound r.invite _ plain below key, step⟩)
    r.invite.subspaces _ entered
  exact routed.1.onlyNotes rfl

/-- Every decision keeps keys following rights, but for a role redefined that takes or gives
them.
-/
theorem Outcome.keysFollow {body : Body} (outcome : Outcome env x v body w)
    (sound : v.view.Sound) (begun : (v.view.metaOf none).isSome) (fits : x.Fits v.view)
    (keys : v.view.KeysFollow)
    (kept : ∀ d, body = .roleDefine d → defines v.view x d = true → RightsKept v.view d)
    : w.view.KeysFollow := by
  cases outcome with
  | skipped => exact keys
  | memberAdd id top decides absent free =>
      have chain : x.chain = [] := (top ▸ fits.path).eq_nil
      rw [chain] at absent
      exact (keys.memberAdd sound rfl absent free).onlyCuts (memberAdd_shape x v id)
  | memberRemove d present removes own =>
      obtain ⟨u, cuts, same⟩ := memberRemove_shape env x v sound.tree d
      rw [same]
      refine .settled (sound.keys.onlyCuts cuts rfl rfl) (keys.one.onlyCuts cuts rfl)
        fun i other => ?_
      exact ((keys.follows i).same ((sameRights_setMember other x.scope none).trans
          (sameRights_dropped other x.scope)) rfl fun _ _ _ => Iff.rfl).onlyCuts cuts
  | roleDefine d defines => exact keys.setRole sound.keys rfl (kept d rfl defines)
  | roleSet d plain free assigned =>
      obtain ⟨u, writer, device, cuts, same⟩ := roleSet_shape env x v d
      have agree : u.view.WriterKeys := sound.keys.onlyCuts cuts rfl rfl
      rw [same]
      refine .settled (agree.addMemberKey d.identity d.role writer device)
        ((keys.one.onlyCuts cuts rfl).addMemberKey d.role writer device)
        fun i other => ?_
      have others := (keys.follows i).same (sameRights_setMember other x.scope
        (some (Effect.nextMember x d v.view))) rfl fun _ _ _ => Iff.rfl
      exact (others.onlyCuts cuts).addMemberKey other d.role writer device
  | ban d id action target moderates bans =>
      obtain ⟨u, cuts, same⟩ := ban_shape env x v id d
      have writer : (Effect.banned x id (Effect.banOf x d) v.view).writer = v.view.writer := by
        unfold Effect.banned
        split <;> rfl
      have writers : (Effect.banned x id (Effect.banOf x d) v.view).writers = v.view.writers := by
        unfold Effect.banned
        split <;> rfl
      rw [same]
      refine .settled (sound.keys.onlyCuts cuts writer writers) (keys.one.onlyCuts cuts writer)
        fun i other => ?_
      exact ((keys.follows i).same (sameRights_banned other x _)
        (by unfold writersOf; rw [writers]) fun _ _ _ => by rw [writer]).onlyCuts cuts
  | dropAll d id action target banned all => exact keys.onlyCuts (dropAll_frame v x.scope id d.cut x.stamp)
  | unban d id action target banned => exact keys.unban sound banned
  | redeem redemption r device inviteId found still =>
      by_cases proto : r.invite.role ∈ objectPrototype
      · exact keys.onlyNotes (still proto)
      · exact keys.redeem sound begun fits found proto
  | revoke invite inv inviteId found named fresh => exact keys.onlyNotes rfl
  | writerAdd d info top writes =>
      unfold Effect.writerAdd
      split
      · exact .settled (sound.keys.addKey info.identity d.key (some info.device))
          (keys.one.addKey info.identity d.key (some info.device))
          fun i other => (keys.follows i).addKey other d.key (some info.device)
      · exact keys
  | settings d next w kept same =>
      rw [same]
      exact keys.same (fun _ => ⟨fun _ => rfl, fun _ => rfl, rfl, rfl, rfl⟩) rfl rfl
  | subspaceCreate d decides new w same =>
      rw [same]
      exact keys.subspaceCreate sound fits.path new
  | deviceRemove d id top =>
      obtain ⟨agree, writer, writers, one⟩ := deviceGone_spec (x := x) sound.keys id d.device
      rw [deviceRemove_view]
      refine .settled agree (one keys.one) fun i other => ?_
      refine (keys.follows i).same (((SameRoster.setGone v.view id d.device _).trans
        (.onlyWriters (deviceGone_frame (x := x) (v := v) id d.device))).rights)
        (by rw [writers, if_neg other]) fun k e theirs => ?_
      rw [writer]
      split
      · rename_i removed
        obtain ⟨w', found, same⟩ := sound.keys.known (List.mem_filter.mp removed).1
        rw [found, Option.some_inj]
        constructor
        · intro impossible
          cases impossible
        · rintro rfl
          exact absurd (theirs.symm.trans same) other
      · rfl
  | notes body w kind frame => exact keys.onlyNotes frame

end Step

-- Runs

/-- Writer keys as the view holds them, against rights as the state gives them. -/
structure View.KeysFollowRights (v : View) : Prop where
  agree : ∀ key id, (∃ w, v.writer key = some w ∧ w.identity = id) ↔ key ∈ writersOf v id
  once : ∀ id, (writersOf v id).Nodup
  idle : ∀ id, (∀ scope chain, IsChain v scope chain → State.writes v chain id = false)
    → writersOf v id = []
  settles : ∀ id, State.can v [] id "decide" = true → writersOf v id ≠ []
    → ∃! key, key ∈ writersOf v id ∧ (v.writer key).any Writer.indexer = true
  quiet : ∀ id, State.can v [] id "decide" = false
    → ∀ key ∈ writersOf v id, (v.writer key).any Writer.indexer = false

section Runs

variable {env : Env} {v w : View} {node : Node}

theorem View.KeysFollow.rights (keys : v.KeysFollow) (sound : v.Sound)
    : v.KeysFollowRights where
  agree := sound.keys.agree
  once := sound.keys.nodup
  idle id unable := by
    refine (keys.follows id).idle ?_
    cases writes : writesAny v id with
    | false => rfl
    | true =>
        obtain ⟨scope, chain, path, decides⟩ := (writesAny_iff sound.tree).mp writes
        have not := unable scope chain path
        rw [State.writes_eq, decides] at not
        cases not
  settles id can some := by
    rw [State.can_own (by decide)] at can
    obtain ⟨key, e, found, theirs, settles⟩ := (keys.follows id).settles can some
    refine ⟨key, ⟨theirs ▸ sound.keys.listed found, by simp [found, settles]⟩, ?_⟩
    rintro other ⟨listed, also⟩
    obtain ⟨e', found', theirs'⟩ := sound.keys.known listed
    rw [found', Option.any_some] at also
    exact keys.one other key e' e found' found also settles (theirs'.trans theirs.symm)
  quiet id cannot key listed := by
    rw [State.can_own (by decide)] at cannot
    obtain ⟨e, found, theirs⟩ := sound.keys.known listed
    simp [found, (keys.follows id).quiet cannot key e found theirs]

theorem View.KeysFollow.empty : View.empty.KeysFollow where
  one key other e e' found := by simp [View.empty] at found
  follows id := ⟨fun _ => rfl, fun _ some => absurd rfl some,
    fun _ key e found => by simp [View.empty] at found⟩

/-- The space begins with one key, which settles the order, of an owner, who decides. -/
theorem View.KeysFollow.begin (sound : v.Sound) (unbegun : v.metaOf none = none) (stamp : Nat)
    (d : SpaceInit) (writer : Key) (info : Attested)
    : (Effect.begin stamp d writer info v).KeysFollow := by
  have blank := sound.blank unbegun
  have entry (key : Key) : (Effect.begin stamp d writer info v).writer key
      = if key = writer then some ⟨info.identity, some info.device, true⟩ else none := by
    simp [Effect.begin, blank.writer]
  have list (id : Key) : writersOf (Effect.begin stamp d writer info v) id
      = if id = info.identity then [writer] else [] := by
    by_cases theirs : id = info.identity <;>
      simp [Effect.begin, writersOf, theirs, blank.writers]
  have decides : decidesTop (Effect.begin stamp d writer info v) info.identity = true := by
    simp [decidesTop, Effect.begin, State.recordedRole, State.member, holds]
  constructor
  · intro key other e e' found found' _ _ _
    simp only [entry, Option.ite_none_right_eq_some] at found found'
    exact found.1.trans found'.1.symm
  · intro id
    by_cases theirs : id = info.identity
    · subst theirs
      refine ⟨fun unable => ?_, fun _ _ => ⟨writer, _, by rw [entry, if_pos rfl], rfl, rfl⟩,
        fun cannot => ?_⟩
      · rw [writesAny_of_decidesTop decides] at unable
        cases unable
      · rw [decides] at cannot
        cases cannot
    · refine ⟨fun _ => by rw [list, if_neg theirs], fun _ some => ?_, fun _ key e found same => ?_⟩
      · rw [list, if_neg theirs] at some
        exact absurd rfl some
      · simp only [entry, Option.ite_none_right_eq_some, Option.some_inj] at found
        obtain ⟨_, rfl⟩ := found
        exact absurd same.symm theirs

/-- A node that redefines a role changes no one's right to keys. -/
def RoleKept (env : Env) (v : View) (node : Node) : Prop :=
  ∀ incoming d writer chain, readNode env.c node.value = some incoming
    → incoming.decision.body = .roleDefine d → v.writer node.from_ = some writer
    → chainHere v incoming = some chain
    → defines v (contextAt v chain writer incoming.decision.stamp (env.codeOf node)) d = true
    → RightsKept v d

theorem NodeStep.keysFollow (step : NodeStep env v node w) (sound : v.Sound)
    (kept : RoleKept env v node) (keys : v.KeysFollow)
    : w.KeysFollow := by
  cases step with
  | unread bad => exact keys
  | read incoming reads applied came did w frame =>
      refine View.KeysFollow.onlyNotes ?_ frame.onlyNotes
      cases did with
      | skipped => exact keys
      | begun init body info unbegun applied same =>
          rw [same]
          exact .begin sound unbegun incoming.decision.stamp init node.from_ info
      | decided other writer known chain here applied outcome =>
          exact outcome.keysFollow (v := { view := v }) sound (sound.begun_of_writer known)
            (contextAt_fits (chainHere_path sound.tree here) _ _ _) keys
            fun d body defines => kept incoming d writer chain reads body known here defines

/-- In any run whose role redefinitions each keep everyone's right to their keys, writer keys
follow rights.
-/
theorem keysFollowRights_of_run {nodes : List Node}
    (kept : EachNode env (RoleKept env) View.empty nodes)
    (ran : applyNodes env nodes View.empty = .ok w)
    : w.KeysFollowRights := by
  obtain ⟨sound, keys⟩ := applyNodes_keeps_each (RoleKept env) View.KeysFollow
    (fun v node w sound kept keys step => step.keysFollow sound kept keys) .empty .empty kept ran
  exact keys.rights sound

theorem owner_of_first (step : NodeStep env View.empty node w) (id : Key)
    (keyed : writersOf w id ≠ [])
    : State.recordedRole w [] id = some "owner" := by
  cases step with
  | unread bad => exact absurd rfl keyed
  | read incoming reads applied came did w frame =>
      rw [frame] at keyed ⊢
      cases did with
      | skipped => exact absurd rfl keyed
      | begun init body info unbegun applied same =>
          rw [same] at keyed ⊢
          have theirs : info.identity = id := by
            by_contra other
            simp [Effect.begin, writersOf, View.empty, Ne.symm other] at keyed
          simp [Effect.begin, State.recordedRole, State.member, theirs]
      | decided other writer known chain here applied outcome => cases known

/-- A role defined by an owner alone in their space changes nothing for them. -/
theorem rightsKept_of_owner {d : RoleDefine}
    (owners : ∀ id, writersOf v id ≠ [] → State.recordedRole v [] id = some "owner")
    : RightsKept v d := by
  intro id some
  have owner := owners id some
  constructor
  · unfold rolesAt
    rw [List.any_cons, owner]
    rfl
  · rw [owner]
    rfl

end Runs

-- A role taken from its holders

/-- A role that moderates is defined, given to someone with a key, and emptied. -/
def helperLog : List Node :=
  let space := keyOf 1
  let invite := makeInvite space (idOf 9) "helper" 0 [] (keyOf 10) space
  [sent space 1 (initial space (keyOf 10) (keyOf 11)),
    sent space 2 (.roleDefine { name := "helper", permissions := ["moderate"] }),
    sent space 3 (redeeming invite (keyOf 20) (keyOf 21)),
    sent space 4 (.roleDefine { name := "helper", permissions := [] })]

/-- Witness: the log up to where the role is defined. -/
theorem keysFollowRights_of_run_defined
    : ∃ w, applyNodes (idealEnv (keyOf 1)) (helperLog.take 2) View.empty = .ok w
      ∧ w.KeysFollowRights := by
  have ends : (applyNodes (idealEnv (keyOf 1)) (helperLog.take 2) View.empty).isOk = true := by
    decide +kernel
  cases ran : applyNodes (idealEnv (keyOf 1)) (helperLog.take 2) View.empty with
  | error thrown =>
      rw [ran] at ends
      cases ends
  | ok w =>
      refine ⟨w, rfl, keysFollowRights_of_run ?_ ran⟩
      obtain ⟨v, first, _⟩ := bind_eq_ok.mp ((applyNodes_cons _ _ _ _).symm.trans ran)
      refine (eachNode_cons first).mpr ⟨fun _ _ _ _ _ _ known => (by cases known), ?_⟩
      intro before node after u split came
      cases before with
      | nil =>
          cases came
          exact fun _ _ _ _ _ _ _ _ _ =>
            rightsKept_of_owner (owner_of_first (applyNode_step .empty first))
      | cons next before => simp at split

/-- Whose role was emptied keeps their key: redefining a role settles no one. -/
theorem keysFollowRights_fails
    : ∃ w, Reachable (idealEnv (keyOf 1)) w ∧ ¬w.KeysFollowRights := by
  have left : (applyNodes (idealEnv (keyOf 1)) helperLog View.empty).toOption.map (fun w =>
      (writersOf w (keyOf 20), writesAny w (keyOf 20))) = some ([keyOf 21], false) := by
    decide +kernel
  cases ran : applyNodes (idealEnv (keyOf 1)) helperLog View.empty with
  | error thrown =>
      rw [ran] at left
      cases left
  | ok w =>
      have reached : Reachable (idealEnv (keyOf 1)) w := ⟨helperLog, ran⟩
      rw [ran] at left
      obtain ⟨keys, idle⟩ := Prod.mk.inj (Option.some.inj left)
      refine ⟨w, reached, fun follows => ?_⟩
      have none := follows.idle (keyOf 20) fun scope chain path => by
        cases writes : State.writes w chain (keyOf 20) with
        | false => rfl
        | true =>
            rw [State.writes_eq] at writes
            have any := (writesAny_iff reached.sound.tree).mpr ⟨scope, chain, path, writes⟩
            rw [idle] at any
            cases any
      rw [none] at keys
      cases keys

end Hypergraph.Decisions
