import Hypergraph.Decisions.Reachable

/-! What roles someone has where, after entries of theirs change: in the scope of the change,
and in the sub-spaces below that inherit from it.
-/

namespace Hypergraph.Decisions

open Wire Js Encodings Invites

-- What a role is read from

/-- Someone's role in a chain is read from their entries and bans in it and above, and from
the sub-spaces of it; induction on the chain.
-/
theorem State.member_congr {v w : View} {chain : List Key} {id : Key}
    (members : ∀ s ∈ scopesOf chain, w.member s id = v.member s id)
    (bans : ∀ s ∈ scopesOf chain, (w.banned s id).isSome = (v.banned s id).isSome)
    (spaces : ∀ s ∈ chain, w.subspace s = v.subspace s)
    : State.member w chain id = State.member v chain id := by
  have banned (chain : List Key)
      (bans : ∀ s ∈ scopesOf chain, (w.banned s id).isSome = (v.banned s id).isSome)
      : bannedIn w chain id = bannedIn v chain id := by
    unfold bannedIn
    refine Bool.eq_iff_iff.mpr ?_
    simp only [List.any_eq_true]
    exact ⟨fun ⟨s, met, out⟩ => ⟨s, met, bans s met ▸ out⟩,
      fun ⟨s, met, out⟩ => ⟨s, met, (bans s met).symm ▸ out⟩⟩
  induction chain with
  | nil => exact members none (by simp)
  | cons s up ih =>
      have above := ih (fun t met => members t (by simp [met]))
        (fun t met => bans t (by simp [met])) fun t met => spaces t (by simp [met])
      unfold State.member
      rw [above, members (some s) (by simp)]
      have same : State.banned w (s :: up) id = State.banned v (s :: up) id :=
        banned (s :: up) bans
      have priv : State.priv w s = State.priv v s := by
        unfold State.priv
        rw [spaces s (by simp)]
      rw [same, priv]

theorem State.recordedRole_congr {v w : View} {chain : List Key} {id : Key}
    (members : ∀ s ∈ scopesOf chain, w.member s id = v.member s id)
    (bans : ∀ s ∈ scopesOf chain, (w.banned s id).isSome = (v.banned s id).isSome)
    (spaces : ∀ s ∈ chain, w.subspace s = v.subspace s)
    : State.recordedRole w chain id = State.recordedRole v chain id := by
  unfold State.recordedRole
  rw [State.member_congr members bans spaces]

/-- What writes decisions does not count as posting: a public scope gives no such right. -/
theorem State.can_own {v : View} {chain : List Key} {id : Key} {permission : String}
    (isOwn : permission ∈ own)
    : State.can v chain id permission
      = holds (State.recordedRole v chain id) permission v.custom := by
  unfold State.can State.roleOf State.recordedRole
  cases State.member v chain id with
  | some m => rfl
  | none =>
      have absent : holds none permission v.custom = false := rfl
      have fallback : holds (some "member") permission v.custom = false := by
        simp only [own, List.mem_cons, List.not_mem_nil, or_false] at isOwn
        rcases isOwn with rfl | rfl | rfl | rfl <;> rfl
      rw [Option.map_none, absent]
      split
      · rename_i impossible
        cases impossible
      · split
        · exact fallback
        · exact absent

theorem State.writes_eq (v : View) (chain : List Key) (id : Key)
    : State.writes v chain id = decides (State.recordedRole v chain id) v.custom := by
  unfold State.writes decides
  rw [State.can_own (by decide), State.can_own (by decide)]

-- Rosters

/-- What rights are read from is the same: entries, bans, sub-spaces, roles and settings. -/
structure SameRoster (v w : View) : Prop where
  member : w.member = v.member
  banned : w.banned = v.banned
  subspace : w.subspace = v.subspace
  subspaces : w.subspaces = v.subspaces
  role : w.role = v.role
  metaOf : w.metaOf = v.metaOf

namespace SameRoster

variable {u v w : View}

@[refl]
theorem refl (v : View) : SameRoster v v := ⟨rfl, rfl, rfl, rfl, rfl, rfl⟩

theorem trans (first : SameRoster u v) (second : SameRoster v w) : SameRoster u w :=
  ⟨second.member.trans first.member, second.banned.trans first.banned,
    second.subspace.trans first.subspace, second.subspaces.trans first.subspaces,
    second.role.trans first.role, second.metaOf.trans first.metaOf⟩

theorem onlyCuts (frame : v.OnlyCuts w) : SameRoster v w := by
  constructor <;> rw [frame]

theorem onlyWriters (frame : v.OnlyWriters w) : SameRoster v w := by
  constructor <;> rw [frame]

theorem onlyNotes (frame : v.OnlyNotes w) : SameRoster v w := by
  constructor <;> rw [frame]

theorem setGone (v : View) (id device : Key) (entry : Option Recorded)
    : SameRoster v (v.setGone id device entry) :=
  ⟨rfl, rfl, rfl, rfl, rfl, rfl⟩

theorem custom (same : SameRoster v w) : w.custom = v.custom := custom_congr same.role

theorem stateMember (same : SameRoster v w) (chain : List Key) (id : Key)
    : State.member w chain id = State.member v chain id :=
  State.member_congr (fun s _ => by rw [same.member]) (fun s _ => by rw [same.banned])
    fun s _ => by rw [same.subspace]

theorem recordedRole (same : SameRoster v w) (chain : List Key) (id : Key)
    : State.recordedRole w chain id = State.recordedRole v chain id := by
  unfold State.recordedRole
  rw [same.stateMember]

theorem isChain (same : SameRoster v w) {scope : Scope} {chain : List Key}
    : IsChain w scope chain ↔ IsChain v scope chain :=
  ⟨fun path => path.congr same.subspace.symm, fun path => path.congr same.subspace⟩

end SameRoster

section Same

variable {v w : View} {id : Key}

/-- Nothing someone's roles are read from differs. -/
structure SameRights (v w : View) (id : Key) : Prop where
  member : ∀ s, w.member s id = v.member s id
  banned : ∀ s, (w.banned s id).isSome = (v.banned s id).isSome
  subspace : w.subspace = v.subspace
  subspaces : w.subspaces = v.subspaces
  role : w.role = v.role

theorem SameRights.recordedRole (same : SameRights v w id) (chain : List Key)
    : State.recordedRole w chain id = State.recordedRole v chain id :=
  State.recordedRole_congr (fun s _ => same.member s) (fun s _ => same.banned s)
    fun s _ => by rw [same.subspace]

theorem SameRights.writesAny (same : SameRights v w id)
    : Decisions.writesAny w id = Decisions.writesAny v id := by
  unfold Decisions.writesAny rolesAt subspacesOf
  rw [same.subspaces, same.subspace]
  simp only [same.recordedRole, custom_congr same.role,
    chainAt_congr same.subspace same.subspaces]

theorem SameRoster.rights (same : SameRoster v w) : SameRights v w id :=
  ⟨fun s => by rw [same.member], fun s => by rw [same.banned], same.subspace, same.subspaces,
    same.role⟩

theorem SameRights.trans {u : View} (first : SameRights u v id) (second : SameRights v w id)
    : SameRights u w id :=
  ⟨fun s => (second.member s).trans (first.member s),
    fun s => (second.banned s).trans (first.banned s),
    second.subspace.trans first.subspace, second.subspaces.trans first.subspaces,
    second.role.trans first.role⟩

end Same

-- Everyone else

section Others

variable {v w : View} {i id : Key}

theorem sameRights_setMember (other : i ≠ id) (scope : Scope) (entry : Option Member)
    : SameRights v (v.setMember scope id entry) i :=
  ⟨fun s => by simp [other], fun _ => rfl, rfl, rfl, rfl⟩

theorem sameRights_setBanned (other : i ≠ id) (scope : Scope) (entry : Option Ban)
    : SameRights v (v.setBanned scope id entry) i :=
  ⟨fun _ => rfl, fun s => by simp [other], rfl, rfl, rfl⟩

theorem sameRights_dropped (other : i ≠ id) (scope : Scope)
    : SameRights v (v.dropped scope id) i :=
  ⟨fun s => by simp [View.dropped, other], fun _ => rfl, rfl, rfl, rfl⟩

theorem sameRights_banned (other : i ≠ id) (x : Context) (ban : Ban)
    : SameRights v (Effect.banned x id ban v) i := by
  unfold Effect.banned
  split
  · exact sameRights_setBanned other x.scope _
  · exact (sameRights_setBanned other x.scope _).trans (sameRights_setMember other x.scope none)

end Others

section Shapes

variable {env : Env} (x : Context) (v : Counting)

theorem memberAdd_roster (id : Key)
    : SameRoster (v.view.setMember none id
        (some { role := "member", by_ := x.author, stamp := x.stamp }))
        (Effect.memberAdd x id v).view :=
  .onlyCuts (memberAdd_shape x v id)

variable (env) in
theorem memberRemove_roster (tree : v.view.Tree) (d : MemberRemove)
    : SameRoster ((v.view.setMember x.scope d.identity none).dropped x.scope d.identity)
        (Effect.memberRemove env x d v).view := by
  obtain ⟨u, cuts, same⟩ := memberRemove_shape env x v tree d
  rw [same]
  exact (SameRoster.onlyCuts cuts).trans (.onlyWriters (settle_frame env u d.identity))

theorem roleSet_roster (d : RoleSet)
    : SameRoster (v.view.setMember x.scope d.identity (some (Effect.nextMember x d v.view)))
        (Effect.roleSet env x d v).view := by
  obtain ⟨u, writer, device, cuts, same⟩ := roleSet_shape env x v d
  rw [same]
  exact ((SameRoster.onlyCuts cuts).trans (.onlyWriters (addMemberKey_frame _ _ _ _))).trans
    (.onlyWriters (settle_frame env _ d.identity))

theorem banned_roster (id : Key) (d : Moderate)
    : SameRoster (Effect.banned x id (Effect.banOf x d) v.view)
        (Effect.ban env x id d v).view := by
  obtain ⟨u, cuts, same⟩ := ban_shape env x v id d
  rw [same]
  exact (SameRoster.onlyCuts cuts).trans (.onlyWriters (settle_frame env u id))

variable (env) in
theorem ban_roster (id : Key) (d : Moderate)
    : ∃ ban, SameRoster (Effect.banned x id ban v.view) (Effect.ban env x id d v).view :=
  ⟨_, banned_roster x v id d⟩

theorem dropAll_roster (id : Key) (d : Moderate)
    : SameRoster v.view (Effect.dropAll v x.scope id d.cut x.stamp).view :=
  .onlyCuts (dropAll_frame v x.scope id d.cut x.stamp)

theorem writerAdd_roster (info : Attested) (key : Key)
    : SameRoster v.view (Effect.writerAdd env info key v).view := by
  unfold Effect.writerAdd
  split
  · exact (SameRoster.onlyWriters (addKey_frame v _ _ _)).trans
      (.onlyWriters (settle_frame env _ info.identity))
  · rfl

theorem deviceRemove_roster (id device : Key)
    : SameRoster v.view (Effect.deviceRemove env x id device v).view := by
  rw [deviceRemove_view]
  exact ((SameRoster.setGone v.view id device _).trans
    (.onlyWriters (deviceGone_frame id device))).trans (.onlyWriters (settle_frame env _ id))

variable (env) in
/-- Who arrives has the invite's role in its scope, whatever keys they have then. -/
theorem arrive_roster (r : Redemption) (device : Key)
    : SameRoster (v.view.setMember x.scope r.identity (some
          ⟨r.invite.role, r.invite.maker, x.stamp, some r.writer, some device⟩))
        (Effect.settle env (Effect.arrive x r device v) r.identity).view := by
  obtain ⟨w, cuts, keys⟩ := arrive_frame (x := x) r device v
  exact ((SameRoster.onlyCuts cuts).trans (.onlyWriters keys)).trans
    (.onlyWriters (settle_frame env _ r.identity))

end Shapes

-- Ranks

/-- A plain role ranks as one of the built-in ones, or as a custom one. -/
theorem rankOf_cases {role : String} (plain : role ∉ objectPrototype)
    : role = "owner" ∨ role = "admin" ∨ role = "moderator" ∨ role = "guest"
      ∨ rankOf (some role) = some customRank := by
  unfold rankOf lookup rank
  simp only [Option.getD_some, List.lookup_cons, List.lookup_nil, plain, if_false]
  by_cases owner : role = "owner"
  · exact .inl owner
  by_cases admin : role = "admin"
  · exact .inr (.inl admin)
  by_cases moderator : role = "moderator"
  · exact .inr (.inr (.inl moderator))
  by_cases guest : role = "guest"
  · exact .inr (.inr (.inr (.inl guest)))
  by_cases member : role = "member"
  · simp [member, customRank]
  · have apart (name : String) (other : role ≠ name) : (role == name) = false := by simpa
    simp [apart, owner, admin, moderator, guest, member, customRank]

/-- Nothing but the owner's role is above an admin's. -/
theorem eq_owner_of_above {m role : String} (high : m = "owner" ∨ m = "admin")
    (plain : role ∉ objectPrototype)
    (above : atLeast (rankOf (some m)) (rankOf (some role)) = false)
    : role = "owner" := by
  rcases rankOf_cases plain with rfl | rfl | rfl | rfl | custom
  · rfl
  all_goals rcases high with rfl | rfl
  all_goals first
    | exact absurd above (by decide)
    | exact absurd (custom ▸ above) (by decide)

/-- Whoever decides or moderates with a role still does with one above it. -/
theorem decides_of_above {m role : String} {custom : Custom} (plain : m ∉ objectPrototype)
    (plain' : role ∉ objectPrototype)
    (above : atLeast (rankOf (some m)) (rankOf (some role)) = false)
    (writes : decides (some m) custom = true)
    : decides (some role) custom = true := by
  have guest : decides (some "guest") custom = false := rfl
  have high : role = "owner" ∨ role = "admin" ∨ role = "moderator" := by
    rcases rankOf_cases plain' with same | same | same | rfl | custom'
    · exact .inl same
    · exact .inr (.inl same)
    · exact .inr (.inr same)
    · rcases rankOf_cases plain with rfl | rfl | rfl | rfl | custom
      all_goals first
        | exact absurd above (by decide)
        | exact absurd (custom ▸ above) (by decide)
    · rw [custom'] at above
      rcases rankOf_cases plain with rfl | rfl | rfl | rfl | custom
      · exact absurd above (by decide)
      · exact absurd above (by decide)
      · exact absurd above (by decide)
      · rw [guest] at writes
        cases writes
      · exact absurd (custom ▸ above) (by decide)
  rcases high with rfl | rfl | rfl <;> rfl

-- A role given

/-- Where a role is raised, and in the sub-spaces below, it is the raised one or the one
there was; induction on the chain.
-/
theorem State.member_raised {v : View} {scope : Scope} {base : List Key} {id : Key}
    {new : Member} (here : IsChain v scope base) (free : bannedIn v base id = false)
    (raised : ∀ m, State.member v base id = some m
      → atLeast (rankOf (some m.role)) (rankOf (some new.role)) = false)
    (plain : new.role ∉ objectPrototype) (below : new.role ≠ "owner")
    {t : Scope} {chain : List Key} (path : IsChain v t chain)
    : State.member (v.setMember scope id (some new)) chain id = State.member v chain id
      ∨ State.member (v.setMember scope id (some new)) chain id = some new
        ∧ ∀ m, State.member v chain id = some m
          → atLeast (rankOf (some m.role)) (rankOf (some new.role)) = false := by
  induction path with
  | top =>
      cases scope with
      | none =>
          cases here
          exact .inr ⟨by simp [State.member], raised⟩
      | some s => exact .inl (by simp [State.member])
  | @sub s up info found above fresh ih =>
      by_cases same : scope = some s
      · subst same
        cases here.unique (.sub info found above fresh)
        refine .inr ⟨?_, raised⟩
        have open_ : bannedIn (v.setMember (some s) id (some new)) (s :: up) id = false := free
        simp [State.member, State.banned, open_]
      · have other : ¬(some s = scope ∧ id = id) := fun both => same both.1.symm
        have banned : State.banned (v.setMember scope id (some new)) (s :: up) id
            = State.banned v (s :: up) id := rfl
        have priv : State.priv (v.setMember scope id (some new)) s = State.priv v s := rfl
        unfold State.member
        rw [banned, priv, View.setMember_member, if_neg other]
        cases State.banned v (s :: up) id with
        | true => exact .inl rfl
        | false =>
        cases v.member (some s) id with
        | some m => exact .inl rfl
        | none =>
            rcases ih with same | ⟨isNew, isAbove⟩
            · exact .inl (by simp only [same])
            · simp only [isNew, Bool.false_eq_true, if_false, Option.filter_some]
              split
              · refine .inr ⟨rfl, fun m there => isAbove m (Option.mem_filter_iff.mp there).1⟩
              · rename_i hidden
                refine .inl (Eq.symm (Option.filter_eq_none_iff.mpr fun m there passes => ?_))
                simp only [Bool.or_eq_true, Bool.not_eq_true', decide_eq_true_eq, not_or]
                  at hidden passes
                have high : m.role = "owner" ∨ m.role = "admin" := by
                  rcases passes with (open_ | owner) | admin
                  · exact absurd open_ hidden.1.1
                  · exact .inl owner
                  · exact .inr admin
                exact below (eq_owner_of_above high plain (isAbove m there))

-- The role under an entry or a ban

/-- What counts in a chain for someone not banned in the scope itself, with this entry of
their own there.
-/
def State.memberUnder (v : View) : List Key → Option Member → Key → Option Member
  | [], entry, _ => entry
  | s :: up, entry, id =>
      if bannedIn v up id then none
      else entry.or ((State.member v up id).filter fun m =>
        !State.priv v s || m.role = "owner" || m.role = "admin")

def State.roleUnder (v : View) (chain : List Key) (entry : Option Member) (id : Key)
    : Option String :=
  (State.memberUnder v chain entry id).map Member.role

theorem State.member_under {v w : View} {scope : Scope} {chain : List Key} {id : Key}
    (path : IsChain v scope chain)
    (members : ∀ s ∈ scopesOf chain, s ≠ scope → w.member s id = v.member s id)
    (bans : ∀ s ∈ scopesOf chain, s ≠ scope → (w.banned s id).isSome = (v.banned s id).isSome)
    (free : w.banned scope id = none) (spaces : ∀ s ∈ chain, w.subspace s = v.subspace s)
    : State.member w chain id = State.memberUnder v chain (w.member scope id) id := by
  cases path with
  | top => rfl
  | @sub s up info found above fresh =>
      have apart (t : Scope) (met : t ∈ scopesOf up) : t ≠ some s := by
        rintro rfl
        exact fresh (mem_scopesOf.mp met)
      have upper : State.member w up id = State.member v up id :=
        State.member_congr (fun t met => members t (by simp [met]) (apart t met))
          (fun t met => bans t (by simp [met]) (apart t met))
          fun t met => spaces t (by simp [met])
      have out : State.banned w (s :: up) id = bannedIn v up id := by
        unfold State.banned bannedIn
        rw [scopesOf_cons, List.any_cons, free]
        simp only [Option.isSome_none, Bool.false_or]
        refine Bool.eq_iff_iff.mpr ?_
        simp only [List.any_eq_true]
        exact ⟨fun ⟨t, met, isOut⟩ => ⟨t, met, bans t (by simp [met]) (apart t met) ▸ isOut⟩,
          fun ⟨t, met, isOut⟩ =>
            ⟨t, met, (bans t (by simp [met]) (apart t met)).symm ▸ isOut⟩⟩
      have priv : State.priv w s = State.priv v s := by
        unfold State.priv
        rw [spaces s (by simp)]
      simp only [State.member, State.memberUnder, out, upper, priv]
      cases bannedIn v up id with
      | true => rfl
      | false => cases w.member (some s) id <;> rfl

/-- A sub-space below a scope is none of those above it. -/
theorem IsChain.below_fresh {v : View} {scope : Scope} {chain : List Key}
    (path : IsChain v scope chain) (tree : v.Tree) {key : Key}
    (below : belowAt v key scope = true)
    : key ∉ chain := by
  intro member
  obtain ⟨up, path', met⟩ := (belowAt_iff tree).mp below
  obtain ⟨rest, restPath, part⟩ := path.suffix (mem_scopesOf.mpr member)
  cases restPath.unique path'
  cases scope with
  | none =>
      cases path
      cases member
  | some s =>
      obtain ⟨info, found, above, same⟩ : ∃ info, v.subspace s = some info
          ∧ IsChain v info.parent chain.tail ∧ chain = s :: chain.tail := by
        cases path with
        | sub info found above fresh => exact ⟨info, found, above, rfl⟩
      have nodup := path.nodup
      have inside : s ∈ chain.tail := by
        have within := mem_scopesOf.mp met
        rw [same] at part
        rcases List.suffix_cons_iff.mp part with whole | later
        · rw [(List.cons.inj whole).2] at within
          exact within
        · exact later.mem (List.mem_cons_of_mem _ within)
      rw [same] at nodup
      exact (List.nodup_cons.mp nodup).1 inside

/-- Whoever has the owner's role anywhere is the owner. -/
theorem View.Sound.owner_of_role {v : View} (sound : v.Sound) {chain : List Key} {id : Key}
    (role : State.recordedRole v chain id = some "owner")
    : v.owner = some id := by
  obtain ⟨m, there, named⟩ := Option.map_eq_some_iff.mp role
  obtain ⟨scope, _, entry⟩ := State.member_entry there
  exact (sound.owned scope id m entry named).2

-- An entry in one scope

/-- Someone given a role in a scope where nobody bans them has it there. -/
theorem State.recordedRole_given {v : View} {scope : Scope} {chain : List Key} {id : Key}
    (path : IsChain v scope chain) (free : bannedIn v chain id = false) (m : Member)
    : State.recordedRole (v.setMember scope id (some m)) chain id = some m.role := by
  unfold State.recordedRole
  cases path with
  | top => simp [State.member]
  | @sub s up info found above fresh =>
      have open_ : State.banned (v.setMember (some s) id (some m)) (s :: up) id = false := free
      simp [State.member, open_]

theorem State.recordedRole_other {v : View} {scope : Scope} {i id : Key} (other : i ≠ id)
    (chain : List Key) (entry : Option Member)
    : State.recordedRole (v.setMember scope id entry) chain i = State.recordedRole v chain i :=
  State.recordedRole_congr (fun s _ => by simp [other]) (fun _ _ => rfl) fun _ _ => rfl

/-- An entry in a scope that a chain does not meet does not count there. -/
theorem State.recordedRole_apart {v : View} {scope : Scope} {chain : List Key}
    (apart : scope ∉ scopesOf chain) (i id : Key) (entry : Option Member)
    : State.recordedRole (v.setMember scope id entry) chain i = State.recordedRole v chain i := by
  refine State.recordedRole_congr (fun s met => ?_) (fun _ _ => rfl) fun _ _ => rfl
  have other : s ≠ scope := fun same => apart (same ▸ met)
  simp [other]

-- A role redefined

/-- The custom roles once one is redefined. -/
def redefined (v : View) (d : RoleDefine) : Custom :=
  fun name => if name = d.name then some (definedAs d) else v.custom name

theorem custom_setRole {v : View} {d : RoleDefine} {entry : CustomRole}
    (permissions : entry.permissions = definedAs d)
    : (v.setRole d.name (some entry)).custom = redefined v d := by
  funext name
  unfold View.custom redefined
  rw [View.setRole_role]
  split
  · simp [permissions]
  · rfl

/-- Every other role's permissions are as they were. -/
theorem permissionsOf_redefined {v : View} {d : RoleDefine} {role : Option String}
    (other : role ≠ some d.name)
    : permissionsOf role (redefined v d) = permissionsOf role v.custom := by
  cases role with
  | none => rfl
  | some name =>
      have apart : name ≠ d.name := fun same => other (congrArg some same)
      unfold permissionsOf
      simp only [redefined, apart, if_false]

/-- A role holds after a redefinition what it held, or is the one redefined. -/
theorem holds_redefined {v : View} {d : RoleDefine} {role : Option String} {p : String}
    (held : holds role p (redefined v d) = true)
    : holds role p v.custom = true ∨ role = some d.name ∧ p ∈ definedAs d := by
  simp only [holds, Bool.or_eq_true, decide_eq_true_eq] at held
  rcases held with owner | listed
  · exact .inl (by simp [holds, owner])
  · cases role with
    | none => cases listed
    | some name =>
        by_cases here : name = d.name ∧ lookup roles name = .undefined ∧ name ≠ ""
        · obtain ⟨rfl, unknown, named⟩ := here
          refine .inr ⟨rfl, ?_⟩
          simpa [listOf, permissionsOf, unknown, named, redefined] using listed
        · -- Any other role is read as it was: elsewhere, or built in, or no role at all.
          have same : permissionsOf (some name) (redefined v d)
              = permissionsOf (some name) v.custom := by
            by_cases empty : name = ""
            · simp [permissionsOf, empty]
            · cases known : lookup roles name with
              | undefined =>
                  have other : name ≠ d.name := fun same => here ⟨same, known, empty⟩
                  simp only [permissionsOf, redefined, other, if_false]
              | own list => simp [permissionsOf, known]
              | inherited => simp [permissionsOf, known]
          rw [listOf_congr same] at listed
          exact .inl (by simp only [holds, listed, Bool.or_true])

end Hypergraph.Decisions
