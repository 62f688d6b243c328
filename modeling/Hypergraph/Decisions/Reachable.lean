import Hypergraph.Decisions.Steps

/-! Every view the log can make is sound: the empty one is, and each node keeps it so. -/

namespace Hypergraph.Decisions

open Wire Js Encodings Invites

namespace View.Sound

variable {v w : View}

/-- Once the space has begun, what was before it does not matter. -/
theorem of_begun (ready : w.Ready) (begun : (w.metaOf none).isSome)
    (owned : ∀ scope id m, w.member scope id = some m → m.role = "owner"
      → scope = none ∧ w.owner = some id)
    (members : ∀ s id, (w.member (some s) id).isSome → (w.subspace s).isSome)
    (bans : ∀ s id, (w.banned (some s) id).isSome → (w.subspace s).isSome)
    : w.Sound where
  toReady := ready
  blank unbegun := by
    rw [unbegun] at begun
    cases begun
  owned := owned
  members := members
  bans := bans

theorem onlyCuts (sound : v.Sound) (frame : v.OnlyCuts w) : w.Sound := by
  have ready := sound.toReady.onlyCuts frame
  rw [frame] at ready ⊢
  exact {
    toReady := ready
    blank := fun unbegun => ⟨(sound.blank unbegun).member, (sound.blank unbegun).banned,
      (sound.blank unbegun).writer, (sound.blank unbegun).writers⟩
    owned := sound.owned
    members := sound.members
    bans := sound.bans }

theorem onlyWriters (sound : v.Sound) (begun : (v.metaOf none).isSome)
    (frame : v.OnlyWriters w) (keys : w.WriterKeys)
    : w.Sound := by
  refine of_begun (sound.toReady.onlyWriters frame keys) ?_ ?_ ?_ ?_
  all_goals rw [frame]
  · exact begun
  · exact sound.owned
  · exact sound.members
  · exact sound.bans

theorem onlyNotes (sound : v.Sound) (frame : v.OnlyNotes w) : w.Sound := by
  rw [frame]
  exact {
    tree := sound.tree.congr rfl rfl
    topBan := sound.topBan
    plain := sound.plain
    keys := sound.keys.congr rfl rfl
    blank := fun unbegun => ⟨(sound.blank unbegun).member, (sound.blank unbegun).banned,
      (sound.blank unbegun).writer, (sound.blank unbegun).writers⟩
    owned := sound.owned
    members := sound.members
    bans := sound.bans }

theorem setGone (sound : v.Sound) (id device : Key) (entry : Option Recorded)
    : (v.setGone id device entry).Sound where
  tree := sound.tree.congr rfl rfl
  topBan := sound.topBan
  plain := sound.plain
  keys := sound.keys.congr rfl rfl
  blank unbegun := ⟨(sound.blank unbegun).member, (sound.blank unbegun).banned,
    (sound.blank unbegun).writer, (sound.blank unbegun).writers⟩
  owned := sound.owned
  members := sound.members
  bans := sound.bans

theorem setMember (sound : v.Sound) (begun : (v.metaOf none).isSome) {scope : Scope}
    {id : Key} {m : Member} (plain : m.role ∉ objectPrototype) (named : m.role ≠ "")
    (below : m.role ≠ "owner") (free : scope = none → v.banned none id = none)
    (recorded : ∀ s, scope = some s → (v.subspace s).isSome)
    : (v.setMember scope id (some m)).Sound := by
  refine of_begun (sound.toReady.setMember ⟨named, plain⟩ free) begun ?_ ?_ sound.bans
  · intro s i entry found owner
    simp only [View.setMember_member] at found
    split at found
    · cases found
      exact absurd owner below
    · exact sound.owned s i entry found owner
  · intro s i found
    simp only [View.setMember_member] at found
    split at found
    · rename_i here
      exact recorded s here.1.symm
    · exact sound.members s i found

theorem fewer (sound : v.Sound) (begun : (v.metaOf none).isSome) (frame : v.OnlyMembers w)
    (fewer : ∀ scope id, w.member scope id = none ∨ w.member scope id = v.member scope id)
    : w.Sound := by
  refine of_begun (sound.toReady.fewer frame fewer) ?_ ?_ ?_ ?_
  · rw [frame]
    exact begun
  · intro s i entry found owner
    rcases fewer s i with gone | same
    · rw [gone] at found
      cases found
    · rw [frame]
      exact sound.owned s i entry (same ▸ found) owner
  · intro s i found
    rcases fewer (some s) i with gone | same
    · rw [gone] at found
      cases found
    · rw [frame]
      exact sound.members s i (same ▸ found)
  · rw [frame]
    exact sound.bans

theorem removeMember (sound : v.Sound) (begun : (v.metaOf none).isSome) (scope : Scope)
    (id : Key)
    : (v.setMember scope id none).Sound := by
  refine sound.fewer begun rfl fun s i => ?_
  simp only [View.setMember_member]
  split
  · exact .inl rfl
  · exact .inr rfl

theorem dropped (sound : v.Sound) (begun : (v.metaOf none).isSome) (scope : Scope) (id : Key)
    : (v.dropped scope id).Sound := by
  refine sound.fewer begun rfl fun s i => ?_
  simp only [View.dropped]
  split
  · exact .inl rfl
  · exact .inr rfl

theorem setBanned (sound : v.Sound) (begun : (v.metaOf none).isSome) (scope : Scope)
    (id : Key) (ban : Option Ban) (out : ban.isSome → scope = none → v.member none id = none)
    (recorded : ∀ s, scope = some s → (v.subspace s).isSome)
    : (v.setBanned scope id ban).Sound := by
  refine of_begun ⟨sound.tree.congr rfl rfl, ?_, sound.plain, sound.keys.congr rfl rfl⟩ begun
    sound.owned sound.members ?_
  · intro i banned
    simp only [View.setBanned_banned] at banned
    split at banned
    · rename_i here
      obtain ⟨same, rfl⟩ := here
      exact out banned same.symm
    · exact sound.topBan i banned
  · intro s i found
    simp only [View.setBanned_banned] at found
    split at found
    · rename_i here
      exact recorded s here.1.symm
    · exact sound.bans s i found

theorem setRole (sound : v.Sound) (name : String) (entry : Option CustomRole)
    : (v.setRole name entry).Sound where
  tree := sound.tree.congr rfl rfl
  topBan := sound.topBan
  plain := sound.plain
  keys := sound.keys.congr rfl rfl
  blank unbegun := ⟨(sound.blank unbegun).member, (sound.blank unbegun).banned,
    (sound.blank unbegun).writer, (sound.blank unbegun).writers⟩
  owned := sound.owned
  members := sound.members
  bans := sound.bans

theorem setMeta (sound : v.Sound) {scope : Scope} {next : Meta}
    (kept : Resettled v scope next)
    : (v.setMeta scope (some next)).Sound := by
  have owner : (v.setMeta scope (some next)).owner = v.owner := by
    unfold View.owner
    simp only [View.setMeta_metaOf]
    split
    · rename_i top
      subst top
      obtain ⟨entry, found⟩ := Option.isSome_iff_exists.mp kept.begun
      have same := kept.owner
      rw [found] at same ⊢
      simpa using same
    · rfl
  refine of_begun ⟨sound.tree.congr rfl rfl, sound.topBan, sound.plain,
    sound.keys.congr rfl rfl⟩ ?_ ?_ sound.members sound.bans
  · simp only [View.setMeta_metaOf]
    split
    · rfl
    · exact kept.begun
  · rw [owner]
    exact sound.owned

end View.Sound

-- A new sub-space

section Create

variable {v : View} {x : Context} {d : SubspaceCreate}

theorem IsChain.subspaceCreate {scope : Scope} {chain : List Key}
    (path : IsChain v scope chain) (new : v.subspace d.key = none)
    : IsChain (Effect.subspaceCreate x d v) scope chain := by
  induction path with
  | top => exact .top
  | @sub s up info found above fresh ih =>
      have other : s ≠ d.key := by
        rintro rfl
        rw [new] at found
        cases found
      exact .sub info (by simpa [Effect.subspaceCreate, other] using found) ih fresh

theorem View.Tree.subspaceCreate (tree : v.Tree) (path : IsChain v x.scope x.chain)
    (new : v.subspace d.key = none)
    : (Effect.subspaceCreate x d v).Tree where
  listed s recorded := by
    simp only [Effect.subspaceCreate, View.setSubspaces_subspaces, Option.getD_some,
      View.setSubspaces_subspace, View.setSubspace_subspace] at recorded ⊢
    split at recorded
    · simp_all
    · exact List.mem_append_left _ (tree.listed s recorded)
  known s listed := by
    simp only [Effect.subspaceCreate, View.setSubspaces_subspaces, Option.getD_some,
      View.setSubspaces_subspace, View.setSubspace_subspace] at listed ⊢
    split
    · rfl
    · rename_i other
      rcases List.mem_append.mp listed with before | now
      · exact tree.known s before
      · exact absurd (List.mem_singleton.mp now) other
  unique := by
    refine List.nodup_append.mpr ⟨tree.unique, by simp, ?_⟩
    intro s listed other now same
    have recorded := tree.known s listed
    rw [same, List.mem_singleton.mp now, new] at recorded
    cases recorded
  chain s recorded := by
    by_cases same : s = d.key
    · subst same
      have found : (Effect.subspaceCreate x d v).subspace d.key = some ⟨d.name, d.priv,
          (d.writeRoles.filter (· ≠ "")).eraseDups, x.scope, x.author, x.stamp⟩ := by
        simp [Effect.subspaceCreate]
      refine ⟨d.key :: x.chain, .sub _ found ?_ ?_⟩
      · exact path.subspaceCreate new
      · intro met
        have known := path.recorded d.key met
        rw [new] at known
        cases known
    · have before : (v.subspace s).isSome := by
        simpa [Effect.subspaceCreate, same] using recorded
      obtain ⟨chain, found⟩ := tree.chain s before
      exact ⟨chain, found.subspaceCreate new⟩

theorem View.Sound.subspaceCreate (sound : v.Sound) (begun : (v.metaOf none).isSome)
    (path : IsChain v x.scope x.chain) (new : v.subspace d.key = none)
    : (Effect.subspaceCreate x d v).Sound := by
  have more (s : Key) (before : (v.subspace s).isSome)
      : ((Effect.subspaceCreate x d v).subspace s).isSome := by
    simp only [Effect.subspaceCreate, View.setSubspaces_subspace, View.setSubspace_subspace]
    split
    · rfl
    · exact before
  exact .of_begun ⟨sound.tree.subspaceCreate path new, sound.topBan, sound.plain,
    sound.keys.congr rfl rfl⟩ begun sound.owned (fun s i found => more s (sound.members s i found))
    (fun s i found => more s (sound.bans s i found))

end Create

-- One decision

section Decision

variable {env : Env} {x : Context} {v w : Counting}

theorem ne_owner_of_assigns {author current : Option String} {role : String}
    {custom : Custom} (assigned : assigns author current role custom = true)
    : role ≠ "owner" := by
  rintro rfl
  simp [assigns] at assigned

theorem ne_owner_of_invites {maker : Option String} {role : String} {custom : Custom}
    (invited : invites maker role custom = true)
    : role ≠ "owner" := by
  rintro rfl
  simp [invites] at invited

theorem Context.Fits.recorded (fits : x.Fits v.view) {s : Key} (scope : x.scope = some s)
    : (v.view.subspace s).isSome := by
  refine fits.path.recorded s ?_
  have head := fits.path.head?
  rw [scope] at head
  exact List.mem_of_mem_head? head

theorem View.Sound.settle (sound : v.view.Sound) (begun : (v.view.metaOf none).isSome)
    (id : Key)
    : (Effect.settle env v id).view.Sound :=
  sound.onlyWriters begun (settle_frame env v id) (sound.keys.settle id env)

theorem View.Sound.addMemberKey (sound : v.view.Sound) (begun : (v.view.metaOf none).isSome)
    (id : Key) (role : String) (writer device : Option Key)
    : (Effect.addMemberKey v id role writer device).view.Sound :=
  sound.onlyWriters begun (addMemberKey_frame id role writer device)
    (sound.keys.addMemberKey id role writer device)

theorem View.OnlyCuts.begun {u u' : View} (frame : u.OnlyCuts u')
    (begun : (u.metaOf none).isSome)
    : (u'.metaOf none).isSome := by
  rw [frame]
  exact begun

theorem View.OnlyWriters.begun {u u' : View} (frame : u.OnlyWriters u')
    (begun : (u.metaOf none).isSome)
    : (u'.metaOf none).isSome := by
  rw [frame]
  exact begun

theorem View.Sound.banned (sound : v.view.Sound) (begun : (v.view.metaOf none).isSome)
    (fits : x.Fits v.view) (id : Key) (ban : Ban)
    : (Effect.banned x id ban v.view).Sound := by
  unfold Effect.banned
  split
  · rename_i absent
    refine sound.setBanned begun x.scope id _ (fun _ top => ?_) fun s => fits.recorded
    have chain : x.chain = [] := (top ▸ fits.path).eq_nil
    rw [chain] at absent
    simpa [State.member] using absent
  · exact (sound.removeMember begun x.scope id).setBanned begun x.scope id _
      (fun _ top => by simp [top]) fun s => fits.recorded

/-- The redeemer's arrival, where their maker may invite them. -/
theorem View.Sound.arrive (sound : v.view.Sound) (begun : (v.view.metaOf none).isSome)
    (fits : x.Fits v.view) {r : Redemption} (device : Key)
    (plain : r.invite.role ∉ objectPrototype) (named : r.invite.role ≠ "")
    (below : r.invite.role ≠ "owner") (free : bannedIn v.view x.chain r.identity = false)
    : (Effect.arrive x r device v).view.Sound := by
  have given : (v.view.setMember x.scope r.identity (some
      ⟨r.invite.role, r.invite.maker, x.stamp, some r.writer, some device⟩)).Sound :=
    sound.setMember begun plain named below (fun _ => not_banned_none free)
      fun s => fits.recorded
  have admitted := given.onlyCuts (admit_frame (v.write (·.setMember x.scope r.identity (some
    ⟨r.invite.role, r.invite.maker, x.stamp, some r.writer, some device⟩))) x.scope r.identity
    r.invite.role x.code)
  exact admitted.addMemberKey ((admit_frame (v.write _) _ _ _ _).begun begun) _ _ _ _

/-- A property kept by each step of a fold is kept by the fold; induction on the list. -/
theorem foldl_keeps {α σ : Type} (keeps : σ → Prop) (step : σ → α → σ)
    (kept : ∀ state item, keeps state → keeps (step state item)) (list : List α) (state : σ)
    (start : keeps state)
    : keeps (list.foldl step state) := by
  induction list generalizing state with
  | nil => exact start
  | cons first rest ih => exact ih _ (kept state first start)

/-- A route given is to a sub-space below, where nobody above bans the redeemer, their role
is a lower one, and the maker's role lets them invite.
-/
theorem route_given (tree : v.view.Tree) (inv : Invite) (id : Key) (custom : Custom)
    (key : Key)
    : Effect.route x inv id custom v key = v
      ∨ ∃ chain maker, IsChain v.view (some key) chain
        ∧ belowAt v.view key x.scope = true ∧ bannedIn v.view chain id = false
        ∧ State.member v.view chain inv.maker = some maker
        ∧ invites (some maker.role) inv.role custom = true
        ∧ (∀ m, State.member v.view chain id = some m
          → atLeast (rankOf (some m.role)) (rankOf (some inv.role)) = false)
        ∧ (v.view.setMember (some key) id
            (some { role := inv.role, by_ := inv.maker, stamp := x.stamp })).OnlyCuts
          (Effect.route x inv id custom v key).view := by
  unfold Effect.route
  split
  · exact .inl rfl
  · rename_i chain found
    split
    · exact .inl rfl
    · rename_i free
      simp only [Bool.or_eq_true, Bool.not_eq_true', not_or, Bool.not_eq_true,
        Bool.not_eq_false] at free
      split
      · exact .inl rfl
      · rename_i maker there
        split
        · exact .inl rfl
        · rename_i passes
          simp only [Bool.or_eq_true, Bool.not_eq_true', not_or, Bool.not_eq_false,
            Bool.not_eq_true] at passes
          refine .inr ⟨chain, maker, tree.chainAt_iff.mp found, free.1, free.2, there, passes.1,
            fun m lower => ?_, admit_frame (v.write _) _ _ _ _⟩
          simpa [lower] using passes.2

theorem View.Sound.routes (sound : v.view.Sound) (begun : (v.view.metaOf none).isSome)
    (inv : Invite) (id : Key) (custom : Custom) (plain : inv.role ∉ objectPrototype)
    (named : inv.role ≠ "") (below : inv.role ≠ "owner") (list : List Key)
    : (list.foldl (Effect.route x inv id custom) v).view.Sound
      ∧ ((list.foldl (Effect.route x inv id custom) v).view.metaOf none).isSome := by
  refine foldl_keeps (fun v : Counting => v.view.Sound ∧ (v.view.metaOf none).isSome) _ ?_ list
    v ⟨sound, begun⟩
  rintro v key ⟨sound, begun⟩
  rcases route_given (x := x) sound.tree inv id custom key with
    same | ⟨chain, maker, path, _, _, _, _, _, given⟩
  · rw [same]
    exact ⟨sound, begun⟩
  · have recorded : (v.view.subspace key).isSome := by
      have head := path.head?
      exact path.recorded key (List.mem_of_mem_head? head)
    refine ⟨(sound.setMember begun plain named below (fun top => by cases top)
      fun s same => ?_).onlyCuts given, given.begun begun⟩
    cases same
    exact recorded

theorem View.Sound.redeem (sound : v.view.Sound) (begun : (v.view.metaOf none).isSome)
    (fits : x.Fits v.view) {redemption : Buffer} {r : Redemption} {device inviteId : Key}
    (found : accepted env v.view x redemption = some (r, device, inviteId))
    (plain : r.invite.role ∉ objectPrototype)
    : (Effect.redeem env x r device inviteId v).view.Sound := by
  obtain ⟨_, _, _, _, _, redeemable, invited⟩ := of_accepted found
  have named := ne_empty_of_invites invited
  have below := ne_owner_of_invites invited
  have free : bannedIn v.view x.chain r.identity = false := by
    simp only [Decisions.redeemable, Bool.and_eq_true, Bool.not_eq_true'] at redeemable
    exact redeemable.1.1.1.1
  have entered : (Effect.enter env x r device v).1.view.Sound
      ∧ ((Effect.enter env x r device v).1.view.metaOf none).isSome := by
    unfold Effect.enter
    split
    · obtain ⟨w, cuts, keys⟩ := arrive_frame (x := x) r device v
      have arrived : ((Effect.arrive x r device v).view.metaOf none).isSome :=
        keys.begun (cuts.begun begun)
      exact ⟨(sound.arrive begun fits device plain named below free).settle arrived _,
        (settle_frame env _ _).begun arrived⟩
    · exact ⟨sound, begun⟩
  have routed := entered.1.routes (x := x) entered.2 r.invite r.identity
    (Effect.enter env x r device v).2 plain named below r.invite.subspaces
  exact routed.1.onlyNotes rfl

/-- Whatever a decision of a writer does, the view it leaves is sound. -/
theorem Outcome.sound {body : Body} (outcome : Outcome env x v body w) (sound : v.view.Sound)
    (begun : (v.view.metaOf none).isSome) (fits : x.Fits v.view)
    : w.view.Sound := by
  cases outcome with
  | skipped => exact sound
  | memberAdd id top decides absent free =>
      have given : (v.view.setMember none id
          (some { role := "member", by_ := x.author, stamp := x.stamp })).Sound :=
        sound.setMember begun (show "member" ∉ objectPrototype by decide)
          (show "member" ≠ "" by decide) (show "member" ≠ "owner" by decide) (fun _ => free)
          (fun s impossible => by cases impossible)
      exact given.onlyCuts (memberAdd_shape x v id)
  | memberRemove d present removes own =>
      obtain ⟨u, cuts, same⟩ := memberRemove_shape env x v sound.tree d
      have dropped := (sound.removeMember begun x.scope d.identity).dropped begun x.scope
        d.identity
      rw [same]
      exact (dropped.onlyCuts cuts).settle (cuts.begun begun) d.identity
  | roleDefine d defines => exact sound.setRole d.name _
  | roleSet d plain free assigned =>
      obtain ⟨u, writer, device, cuts, same⟩ := roleSet_shape env x v d
      have given : (v.view.setMember x.scope d.identity
          (some (Effect.nextMember x d v.view))).Sound :=
        sound.setMember begun plain (ne_empty_of_assigns assigned) (ne_owner_of_assigns assigned)
          (fun _ => not_banned_none free) fun s => fits.recorded
      rw [same]
      exact ((given.onlyCuts cuts).addMemberKey (cuts.begun begun) d.identity d.role writer
        device).settle ((addMemberKey_frame _ _ _ _).begun (cuts.begun begun)) d.identity
  | ban d id action target moderates bans =>
      obtain ⟨u, cuts, same⟩ := ban_shape env x v id d
      have still : ((Effect.banned x id (Effect.banOf x d) v.view).metaOf none).isSome := by
        unfold Effect.banned
        split <;> exact begun
      rw [same]
      exact ((sound.banned begun fits id _).onlyCuts cuts).settle (cuts.begun still) id
  | dropAll d id action target banned all => exact sound.onlyCuts (dropAll_frame v x.scope id d.cut x.stamp)
  | unban d id action target banned =>
      exact sound.setBanned begun x.scope id none (fun impossible => by cases impossible)
        fun s => fits.recorded
  | redeem redemption r device inviteId found still =>
      by_cases proto : r.invite.role ∈ objectPrototype
      · exact sound.onlyNotes (still proto)
      · exact sound.redeem begun fits found proto
  | revoke invite inv inviteId found named fresh => exact sound.onlyNotes rfl
  | writerAdd d info top writes =>
      unfold Effect.writerAdd
      have keyed := sound.onlyWriters begun (addKey_frame v info.identity d.key (some info.device))
        (sound.keys.addKey _ _ _)
      split
      · exact keyed.settle ((addKey_frame v _ _ _).begun begun) info.identity
      · exact sound
  | settings d next w kept same =>
      rw [same]
      exact sound.setMeta kept
  | subspaceCreate d decides new w same =>
      rw [same]
      exact sound.subspaceCreate begun fits.path new
  | deviceRemove d id top =>
      rw [deviceRemove_view]
      have noted := sound.setGone id d.device (some ⟨x.author, x.stamp⟩)
      have frame := deviceGone_frame (x := x) (v := v) id d.device
      exact (noted.onlyWriters begun frame (deviceGone_spec sound.keys id d.device).1).settle
        (frame.begun begun) id
  | notes body w kind frame => exact sound.onlyNotes frame

end Decision

-- The space's first decision

/-- The view a space begins with. -/
def Effect.begin (stamp : Nat) (d : SpaceInit) (writer : Key) (info : Attested)
    (v : View)
    : View :=
  (((v.setMeta none (some {
      name := some d.name
      owner := some info.identity
      policy := some d.policy
      priv := d.priv
      version := some d.version
      parent := d.parent
      stamp := some stamp })).setMember none info.identity
    (some { role := "owner", by_ := info.identity, stamp := stamp })).setWriter writer
    (some ⟨info.identity, some info.device, true⟩)).setWriters info.identity (some [writer])

theorem applySpaceInit_cases (env : Env) (stamp : Nat) (d : SpaceInit) (writer : Key)
    (v : Counting)
    : applySpaceInit env stamp d writer v = v
      ∨ v.view.metaOf none = none ∧ ∃ info,
        (applySpaceInit env stamp d writer v).view
          = Effect.begin stamp d writer info v.view := by
  unfold applySpaceInit
  split
  · exact .inl rfl
  · rename_i unbegun
    split
    · exact .inl rfl
    · split
      · exact .inl rfl
      · exact .inr ⟨by simpa using unbegun, _, rfl⟩

theorem View.Sound.begin {v : View} (sound : v.Sound) (unbegun : v.metaOf none = none)
    (stamp : Nat) (d : SpaceInit) (writer : Key) (info : Attested)
    : (Effect.begin stamp d writer info v).Sound := by
  have blank := sound.blank unbegun
  refine .of_begun ⟨sound.tree.congr rfl rfl, ?_, ?_, ?_⟩ (by simp [Effect.begin]) ?_ ?_ ?_
  · intro i banned
    simp [Effect.begin, blank.banned] at banned
  · intro s i m found
    simp only [Effect.begin, View.setWriters_member, View.setWriter_member,
      View.setMember_member, View.setMeta_member, blank.member] at found
    split at found
    · cases found
      exact ⟨show "owner" ≠ "" by decide, show "owner" ∉ objectPrototype by decide⟩
    · cases found
  · constructor
    · intro k i
      have none : writersOf v i = [] := by simp [writersOf, blank.writers]
      by_cases here : k = writer
      · subst here
        by_cases theirs : i = info.identity
        · simp [Effect.begin, writersOf, theirs]
        · have other : info.identity ≠ i := fun same => theirs same.symm
          simp [Effect.begin, writersOf, theirs, other, blank.writers]
      · by_cases theirs : i = info.identity
        · simp [Effect.begin, writersOf, theirs, here, blank.writer]
        · simp [Effect.begin, writersOf, theirs, here, blank.writer, blank.writers]
    · intro i
      by_cases theirs : i = info.identity
      · simp [Effect.begin, writersOf, theirs]
      · simp [Effect.begin, writersOf, theirs, blank.writers]
  · intro s i m found _
    simp only [Effect.begin, View.setWriters_member, View.setWriter_member,
      View.setMember_member, View.setMeta_member, blank.member] at found
    split at found
    · rename_i here
      obtain ⟨rfl, rfl⟩ := here
      simp [Effect.begin, View.owner]
    · cases found
  · intro s i found
    simp [Effect.begin, blank.member] at found
  · intro s i found
    simp [Effect.begin, blank.banned] at found

-- One node

/-- What a decision by a writer is judged with, as a plain function of the view. -/
def contextAt (v : View) (chain : List Key) (w : Writer) (stamp : Nat) (code : Key)
    : Context where
  chain := chain
  author := w.identity
  authorRole := State.recordedRole v chain w.identity
  custom := loadRole v (fun _ => none) (State.recordedRole v chain w.identity)
  stamp := stamp
  code := some code

/-- The chain a decision is applied in, or nothing where it is not applied. -/
def chainHere (v : View) (d : Incoming) : Option (List Key) :=
  if d.ignored then none else d.scope.elim (some []) (chainAt v)

section Node

variable {env : Env} {v : View} {node : Node} {d : Incoming}

theorem chainFor_eq (tree : v.Tree) (d : Incoming) : chainFor v d = .ok (chainHere v d) := by
  unfold chainFor chainHere
  cases d.scope with
  | none => rfl
  | some s =>
      simp only [tree.chainOf_eq, ok_bind]
      rfl

theorem chainHere_path (tree : v.Tree) {chain : List Key} (found : chainHere v d = some chain)
    : IsChain v d.scope chain := by
  unfold chainHere at found
  split at found
  · cases found
  · cases scope : d.scope with
    | none =>
        rw [scope] at found
        cases found
        exact .top
    | some s =>
        rw [scope] at found
        exact tree.chainAt_iff.mp found

theorem contextAt_fits {scope : Scope} {chain : List Key} (path : IsChain v scope chain)
    (w : Writer) (stamp : Nat) (code : Key)
    : (contextAt v chain w stamp code).Fits v where
  path := by
    have head : chain.head? = scope := path.head?
    simpa [contextAt, Context.scope, head] using path
  role := rfl
  within := within_loadRole within_none _
  known := knows_loadRole within_none _
  code := rfl

theorem contextOf_contextAt (topBan : v.TopBan) {scope : Scope} {chain : List Key}
    (path : IsChain v scope chain) (w : Writer) (stamp : Nat) (code : Key)
    : contextOf v chain w stamp (some code) = .ok (contextAt v chain w stamp code) := by
  unfold contextOf
  rw [recordedRole_recorded path topBan]
  rfl

theorem View.Sound.begun_of_writer (sound : v.Sound) {key : Key} {w : Writer}
    (found : v.writer key = some w)
    : (v.metaOf none).isSome := by
  cases entry : v.metaOf none with
  | some info => rfl
  | none =>
      rw [(sound.blank entry).writer] at found
      cases found

/-- What applying a decision came to, before it is listed. -/
inductive Applied (env : Env) (v : View) (node : Node) (d : Incoming) : Counting → Prop
  | skipped : Applied env v node d { view := v }
  | begun (init : SpaceInit) (body : d.decision.body = .spaceInit init) (info : Attested)
      (unbegun : v.metaOf none = none) (w : Counting)
      (same : w.view = Effect.begin d.decision.stamp init node.from_ info v)
    : Applied env v node d w
  | decided (other : ∀ init, d.decision.body ≠ .spaceInit init) (writer : Writer)
      (known : v.writer node.from_ = some writer) (chain : List Key)
      (here : chainHere v d = some chain) (w : Counting)
      (outcome : Outcome env
        (contextAt v chain writer d.decision.stamp (env.codeOf node)) { view := v }
        d.decision.body w)
    : Applied env v node d w

/-- Would applying a decision throw, in the branch of its kind? -/
def applyThrows (env : Env) (v : View) (node : Node) (d : Incoming) : Bool :=
  (v.writer node.from_).any fun writer =>
    (chainHere v d).any fun chain =>
      bodyThrows env v (contextAt v chain writer d.decision.stamp (env.codeOf node))
        d.decision.body

/-- A decision that does not begin the space is one of its writer's, if it has one. -/
theorem applyOne_eq {d : Decision} (other : ∀ init, d.body ≠ .spaceInit init) (writer : Key)
    (v : Counting) (chain : List Key) (code : Option Key)
    : applyOne env d writer v chain code
      = match v.view.writer writer with
        | none => .ok v
        | some w => contextOf v.view chain w d.stamp code >>= fun x => applyBody env x d.body v := by
  unfold applyOne
  cases body : d.body with
  | spaceInit init => exact absurd body (other init)
  | _ => rfl

variable (env) in
theorem applyIncoming_ends (sound : v.Sound) (node : Node) (d : Incoming)
    : (applyThrows env v node d = true
        → ∃ thrown, applyIncoming env v node d = .error thrown)
      ∧ (applyThrows env v node d = false
        → ∃ w, applyIncoming env v node d = .ok w ∧ Applied env v node d w) := by
  unfold applyIncoming applyThrows
  rw [chainFor_eq sound.tree, ok_bind]
  cases here : chainHere v d with
  | none =>
      refine ⟨fun thrown => ?_, fun _ => ⟨_, rfl, .skipped⟩⟩
      cases v.writer node.from_ <;> simp at thrown
  | some chain =>
      have path := chainHere_path sound.tree here
      by_cases init : ∃ i, d.decision.body = .spaceInit i
      · obtain ⟨i, body⟩ := init
        refine ⟨fun thrown => ?_, fun _ => ?_⟩
        · rw [body] at thrown
          cases v.writer node.from_ <;> simp [bodyThrows] at thrown
        · refine ⟨_, by simp only [applyOne, body]; rfl, ?_⟩
          rcases applySpaceInit_cases env d.decision.stamp i node.from_ { view := v }
            with same | ⟨unbegun, info, same⟩
          · rw [same]
            exact .skipped
          · exact .begun i body info unbegun _ same
      · simp only [applyOne_eq fun i body => init ⟨i, body⟩]
        cases known : v.writer node.from_ with
        | none => exact ⟨by simp, fun _ => ⟨_, rfl, .skipped⟩⟩
        | some w =>
            have fits := contextAt_fits path w d.decision.stamp (env.codeOf node)
            have ends := applyBody_ends env (v := { view := v }) sound fits
              d.decision.body
            simp only [contextOf_contextAt sound.topBan path, ok_bind, Option.any_some]
            refine ⟨ends.1, fun safe => ?_⟩
            obtain ⟨result, same, outcome⟩ := ends.2 safe
            exact ⟨result, same, .decided (fun i body => init ⟨i, body⟩) w known chain here result
              outcome⟩

theorem Applied.sound {w : Counting} (applied : Applied env v node d w) (sound : v.Sound)
    : w.view.Sound := by
  cases applied with
  | skipped => exact sound
  | begun init body info unbegun w same =>
      rw [same]
      exact sound.begin unbegun d.decision.stamp init node.from_ info
  | decided other writer known chain here w outcome =>
      exact outcome.sound (v := { view := v }) sound (sound.begun_of_writer known)
        (contextAt_fits (chainHere_path sound.tree here) _ _ _)

-- Listing it

/-- A decision is shown unless it moderates an absent target. -/
def shownThrows : Body → Bool
  | .moderate d => d.target.isNone
  | _ => false

theorem details_ends (c : Primitives) (body : Body)
    : (shownThrows body = true → ∃ thrown, details c body = .error thrown)
      ∧ (shownThrows body = false → ∃ shown, details c body = .ok shown) := by
  cases body with
  | moderate d =>
      unfold details
      cases target : d.target <;> simp [shownThrows, target]
  | inviteRedeem redemption | inviteRevoke invite =>
      refine ⟨by simp [shownThrows], fun _ => ?_⟩
      unfold details
      dsimp only
      split
      · exact ⟨_, rfl⟩
      · split <;> exact ⟨_, rfl⟩
  | _ => exact ⟨by simp [shownThrows], fun _ => ⟨_, rfl⟩⟩

/-- Only the list of decisions differs. -/
def View.OnlyListed (v w : View) : Prop := w = { v with count := w.count, list := w.list }

theorem View.OnlyListed.onlyNotes {v w : View} (frame : v.OnlyListed w) : v.OnlyNotes w := by
  unfold View.OnlyNotes
  rw [frame]

/-- Is the decision listed? Logs listed are bookkeeping. -/
def listedKind : Body → Bool
  | .logsList _ => false
  | _ => true

/-- What a node came to: bytes that say nothing, or a decision applied and listed. -/
inductive NodeStep (env : Env) (v : View) (node : Node) : View → Prop
  | unread (bad : readNode env.c node.value = none) : NodeStep env v node v
  | read (d : Incoming) (reads : readNode env.c node.value = some d) (applied : Counting)
      (came : applyIncoming env v node d = .ok applied) (did : Applied env v node d applied)
      (w : View) (frame : applied.view.OnlyListed w)
    : NodeStep env v node w

/-- Would a node throw: in the branch of its decision's kind, or when it is listed? -/
def nodeThrows (env : Env) (v : View) (node : Node) : Bool :=
  (readNode env.c node.value).any fun d =>
    applyThrows env v node d || shownThrows d.decision.body

/-- Once applied, a `space/init` that counted left the space begun. -/
theorem Applied.begun_of_counted {w : Counting} (applied : Applied env v node d w)
    {init : SpaceInit} (body : d.decision.body = .spaceInit init) (counted : 0 < w.writes)
    : (w.view.metaOf none).isSome := by
  cases applied with
  | skipped => cases counted
  | begun init body info unbegun w same =>
      rw [same]
      simp [Effect.begin]
  | decided other writer known chain here w outcome => exact absurd body (other init)

theorem listDecision_ends {w : Counting} (applied : Applied env v node d w)
    (before : Option Writer)
    : (shownThrows d.decision.body = true → ∃ thrown, listDecision env w.view d.decision
          node.from_ before (decide (0 < w.writes)) d.scope = .error thrown)
      ∧ (shownThrows d.decision.body = false → ∃ listed, listDecision env w.view d.decision
          node.from_ before (decide (0 < w.writes)) d.scope = .ok listed
          ∧ w.view.OnlyListed listed) := by
  have shows := details_ends env.c d.decision.body
  constructor
  · intro thrown
    obtain ⟨why, same⟩ := shows.1 thrown
    refine ⟨why, ?_⟩
    unfold listDecision
    rw [same]
    rfl
  · intro safe
    obtain ⟨shown, same⟩ := shows.2 safe
    unfold listDecision
    rw [same]
    cases body : d.decision.body with
    | spaceInit init =>
        by_cases counted : 0 < w.writes
        · obtain ⟨info, found⟩ := Option.isSome_iff_exists.mp
            (applied.begun_of_counted body counted)
          simp only [ok_bind, counted, decide_true, if_true, found]
          exact ⟨_, rfl, rfl⟩
        · simp only [ok_bind, counted, decide_false, Bool.false_eq_true, if_false]
          exact ⟨_, rfl, rfl⟩
    | _ => exact ⟨_, rfl, rfl⟩

variable (env) in
/-- A node runs to its end just when neither its branch nor its listing throws. -/
theorem applyNode_ends (sound : v.Sound) (node : Node)
    : (nodeThrows env v node = true → ∃ thrown, applyNode env v node = .error thrown)
      ∧ (nodeThrows env v node = false
        → ∃ w, applyNode env v node = .ok w ∧ NodeStep env v node w) := by
  cases reads : readNode env.c node.value with
  | none =>
      refine ⟨by simp [nodeThrows, reads], fun _ => ⟨v, ?_, .unread reads⟩⟩
      unfold applyNode
      rw [reads]
      rfl
  | some d =>
      have equation : applyNode env v node = (applyIncoming env v node d >>= fun counting =>
          if listedKind d.decision.body then
            listDecision env counting.view d.decision node.from_ (v.writer node.from_)
              (decide (0 < counting.writes)) d.scope
          else .ok counting.view) := by
        unfold applyNode
        rw [reads]
        dsimp only
        cases applyIncoming env v node d with
        | error thrown => rfl
        | ok counting => cases d.decision.body <;> rfl
      have throws : nodeThrows env v node
          = (applyThrows env v node d || shownThrows d.decision.body) := by
        simp [nodeThrows, reads]
      have ends := applyIncoming_ends env sound node d
      rw [throws, equation]
      cases branch : applyThrows env v node d with
      | true =>
          obtain ⟨why, thrown⟩ := ends.1 branch
          rw [thrown]
          exact ⟨fun _ => ⟨why, rfl⟩, by simp⟩
      | false =>
          obtain ⟨counting, came, did⟩ := ends.2 branch
          have lists := listDecision_ends did (v.writer node.from_)
          rw [came, ok_bind, Bool.false_or]
          cases kind : listedKind d.decision.body with
          | true =>
              refine ⟨lists.1, fun safe => ?_⟩
              obtain ⟨w, same, frame⟩ := lists.2 safe
              exact ⟨w, same, .read d reads counting came did w frame⟩
          | false =>
              have quiet : shownThrows d.decision.body = false := by
                cases body : d.decision.body <;> simp_all [listedKind, shownThrows]
              rw [quiet]
              exact ⟨by simp, fun _ => ⟨_, rfl, .read d reads counting came did _ rfl⟩⟩

theorem applyNode_step (sound : v.Sound) {w : View} (ran : applyNode env v node = .ok w)
    : NodeStep env v node w := by
  have ends := applyNode_ends env sound node
  cases throws : nodeThrows env v node with
  | true =>
      obtain ⟨thrown, same⟩ := ends.1 throws
      rw [same] at ran
      cases ran
  | false =>
      obtain ⟨w', same, step⟩ := ends.2 throws
      cases same.symm.trans ran
      exact step

theorem NodeStep.sound {w : View} (step : NodeStep env v node w) (sound : v.Sound)
    : w.Sound := by
  cases step with
  | unread bad => exact sound
  | read d reads applied came did w frame => exact (did.sound sound).onlyNotes frame.onlyNotes

end Node

-- Runs

theorem View.Sound.empty : View.empty.Sound where
  tree := {
    listed := by simp [View.empty]
    known := by simp [View.empty]
    unique := by simp [View.empty]
    chain := by simp [View.empty] }
  topBan _ banned := by simp [View.empty] at banned
  plain _ _ _ found := by simp [View.empty] at found
  keys := {
    agree := by simp [View.empty, writersOf]
    nodup := by simp [View.empty, writersOf] }
  blank _ := ⟨fun _ _ => rfl, fun _ _ => rfl, fun _ => rfl, fun _ => rfl⟩
  owned _ _ _ found := by simp [View.empty] at found
  members _ _ found := by simp [View.empty] at found
  bans _ _ found := by simp [View.empty] at found

/-- The views some log of decisions leads to. -/
def Reachable (env : Env) (v : View) : Prop :=
  ∃ nodes, applyNodes env nodes View.empty = .ok v

theorem applyNodes_cons (env : Env) (node : Node) (rest : List Node) (v : View)
    : applyNodes env (node :: rest) v = applyNode env v node >>= applyNodes env rest := by
  rw [applyNodes, List.foldlM_cons]
  rfl

theorem applyNodes_append (env : Env) (first second : List Node) (v : View)
    : applyNodes env (first ++ second) v
      = applyNodes env first v >>= applyNodes env second :=
  List.foldlM_append

theorem applyNodes_single {env : Env} {node : Node} {v : View}
    : applyNodes env [node] v = applyNode env v node := by
  rw [applyNodes_cons]
  cases applyNode env v node <;> rfl

theorem Reachable.later {env : Env} {v w : View} {nodes : List Node}
    (reached : Reachable env v) (ran : applyNodes env nodes v = .ok w)
    : Reachable env w := by
  obtain ⟨before, earlier⟩ := reached
  exact ⟨before ++ nodes, by rw [applyNodes_append, earlier, ok_bind, ran]⟩

theorem Reachable.node {env : Env} {v w : View} {node : Node} (reached : Reachable env v)
    (ran : applyNode env v node = .ok w)
    : Reachable env w :=
  reached.later (applyNodes_single.trans ran)

/-- Each node meets a condition at the view the nodes before it lead to. -/
def EachNode (env : Env) (meets : View → Node → Prop) (v : View) (nodes : List Node) : Prop :=
  ∀ before node after w, nodes = before ++ node :: after → applyNodes env before v = .ok w
    → meets w node

theorem eachNode_cons {env : Env} {meets : View → Node → Prop} {v w : View} {node : Node}
    {rest : List Node} (ran : applyNode env v node = .ok w)
    : EachNode env meets v (node :: rest) ↔ meets v node ∧ EachNode env meets w rest := by
  constructor
  · intro each
    refine ⟨each [] node rest v rfl rfl, fun before next after u split came => ?_⟩
    refine each (node :: before) next after u (by rw [split]; rfl) ?_
    rw [applyNodes_cons, ran]
    exact came
  · rintro ⟨here, later⟩ before next after u split came
    cases before with
    | nil =>
        cases split
        cases came
        exact here
    | cons first before =>
        obtain ⟨rfl, tail⟩ := List.cons.inj split
        rw [applyNodes_cons, ran] at came
        exact later before next after u tail came

/-- Each node of the start of a log meets what each of the log does, and of its rest from where
the start leads to.
-/
theorem EachNode.start {env : Env} {meets : View → Node → Prop} {v : View}
    {before after : List Node} (each : EachNode env meets v (before ++ after))
    : EachNode env meets v before :=
  fun start node rest u split ran =>
    each start node (rest ++ after) u (by rw [split]; simp) ran

theorem EachNode.rest {env : Env} {meets : View → Node → Prop} {v w : View}
    {before after : List Node} (each : EachNode env meets v (before ++ after))
    (ran : applyNodes env before v = .ok w)
    : EachNode env meets w after := by
  intro start node rest u split came
  refine each (before ++ start) node rest u (by rw [split, List.append_assoc]) ?_
  rw [applyNodes_append, ran, ok_bind, came]

/-- What a node came to, where its decision counts. -/
structure Counts (env : Env) (v : View) (node : Node) (d : Incoming) : Prop where
  reads : readNode env.c node.value = some d
  changes : ∃ applied, applyIncoming env v node d = .ok applied ∧ 0 < applied.writes

/-- What a decision that counts came to, and that it is listed then. -/
theorem Counts.listed {env : Env} {v w : View} {node : Node} {d : Incoming}
    (counts : Counts env v node d) (sound : v.Sound) (ran : applyNode env v node = .ok w)
    : ∃ applied, applyIncoming env v node d = .ok applied ∧ 0 < applied.writes
      ∧ Applied env v node d applied ∧ applied.view.OnlyListed w := by
  obtain ⟨reads, changed, came, writes⟩ := counts
  cases applyNode_step sound ran with
  | unread bad =>
      rw [bad] at reads
      cases reads
  | read d' reads' applied came' did w frame =>
      cases Option.some.inj (reads.symm.trans reads')
      cases Except.ok.inj (came.symm.trans came')
      exact ⟨changed, came, writes, did, frame⟩

/-- What a decision that counts, and does not begin the space, did to the view. -/
theorem Counts.decided {env : Env} {v w : View} {node : Node} {d : Incoming}
    (counts : Counts env v node d) (sound : v.Sound) (ran : applyNode env v node = .ok w)
    (other : ∀ init, d.decision.body ≠ .spaceInit init)
    : ∃ writer chain applied, v.writer node.from_ = some writer ∧ chainHere v d = some chain
      ∧ 0 < applied.writes
      ∧ Outcome env (contextAt v chain writer d.decision.stamp (env.codeOf node)) { view := v }
        d.decision.body applied
      ∧ applied.view.OnlyListed w := by
  obtain ⟨changed, _, writes, did, frame⟩ := counts.listed sound ran
  cases did with
  | skipped => cases writes
  | begun init body => exact absurd body (other init)
  | decided _ writer known chain here applied outcome =>
      exact ⟨writer, chain, _, known, here, writes, outcome, frame⟩

/-- Once a space has begun, no decision that counts begins it. -/
theorem Counts.other {env : Env} {v : View} {node : Node} {d : Incoming}
    (counts : Counts env v node d) (sound : v.Sound) (begun : (v.metaOf none).isSome)
    (init : SpaceInit)
    : d.decision.body ≠ .spaceInit init := by
  intro body
  obtain ⟨_, changed, came, writes⟩ := counts
  have ends := applyIncoming_ends env sound node d
  cases throws : applyThrows env v node d with
  | true =>
      obtain ⟨thrown, same⟩ := ends.1 throws
      rw [same] at came
      cases came
  | false =>
      obtain ⟨applied, same, did⟩ := ends.2 throws
      cases Except.ok.inj (same.symm.trans came)
      cases did with
      | skipped => cases writes
      | begun init' body' info unbegun =>
          rw [unbegun] at begun
          cases begun
      | decided other => exact other init body

/-- What each node keeps that meets a condition, a log of such nodes keeps; induction on the
nodes.
-/
theorem applyNodes_keeps_each {env : Env} (meets : View → Node → Prop) (keeps : View → Prop)
    (kept : ∀ v node w, v.Sound → meets v node → keeps v → NodeStep env v node w → keeps w)
    {nodes : List Node} {v w : View} (sound : v.Sound) (start : keeps v)
    (each : EachNode env meets v nodes) (ran : applyNodes env nodes v = .ok w)
    : w.Sound ∧ keeps w := by
  induction nodes generalizing v with
  | nil =>
      cases ran
      exact ⟨sound, start⟩
  | cons node rest ih =>
      rw [applyNodes_cons, bind_eq_ok] at ran
      obtain ⟨u, first, later⟩ := ran
      have step := applyNode_step sound first
      obtain ⟨here, there⟩ := (eachNode_cons first).mp each
      exact ih (step.sound sound) (kept v node u sound here start step) there later

/-- What each node keeps, the log keeps. -/
theorem applyNodes_keeps {env : Env} (keeps : View → Prop)
    (kept : ∀ v node w, v.Sound → keeps v → NodeStep env v node w → keeps w)
    {nodes : List Node} {v w : View} (sound : v.Sound) (start : keeps v)
    (ran : applyNodes env nodes v = .ok w)
    : w.Sound ∧ keeps w :=
  applyNodes_keeps_each (fun _ _ => True) keeps (fun v node w sound _ => kept v node w sound)
    sound start (fun _ _ _ _ _ _ => trivial) ran

theorem Reachable.sound {env : Env} {v : View} (reached : Reachable env v) : v.Sound := by
  obtain ⟨nodes, ran⟩ := reached
  exact (applyNodes_keeps (fun _ => True) (fun _ _ _ _ _ _ => trivial) .empty trivial ran).1

end Hypergraph.Decisions
