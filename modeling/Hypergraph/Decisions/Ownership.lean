import Hypergraph.Decisions.Rights
import Hypergraph.Decisions.Ideal

/-! A space has one owner: whom its first decision proves, from then on and in every scope.
-/

namespace Hypergraph.Decisions

open Wire Js Encodings Invites

/-- Someone is the owner by one entry, in the top space, and is banned nowhere. -/
structure View.OwnedBy (v : View) (id : Key) (entry : Member) : Prop where
  owner : v.owner = some id
  held : v.member none id = some entry
  role : entry.role = "owner"
  alone : ∀ s, v.member (some s) id = none
  free : ∀ scope, v.banned scope id = none

namespace View.OwnedBy

variable {v w : View} {id : Key} {entry : Member}

/-- The entry counts in every sub-space, a private one included; induction on the chain. -/
theorem member (owned : v.OwnedBy id entry) (chain : List Key)
    : State.member v chain id = some entry := by
  induction chain with
  | nil => exact owned.held
  | cons s up ih =>
      have free : State.banned v (s :: up) id = false := by
        unfold State.banned bannedIn
        simp only [owned.free, Option.isSome_none, List.any_eq_false]
        intro scope _
        exact Bool.false_ne_true
      rw [State.member, free, owned.alone s, ih]
      simp [owned.role]

theorem recordedRole (owned : v.OwnedBy id entry) (chain : List Key)
    : State.recordedRole v chain id = some "owner" := by
  unfold State.recordedRole
  rw [owned.member chain, Option.map_some, owned.role]

theorem begun (owned : v.OwnedBy id entry) : (v.metaOf none).isSome := by
  have named := owned.owner
  obtain ⟨info, found, _⟩ := Option.bind_eq_some_iff.mp named
  simp [found]

theorem congr (owned : v.OwnedBy id entry) (settings : w.owner = v.owner)
    (members : ∀ scope, w.member scope id = v.member scope id)
    (bans : ∀ scope, w.banned scope id = v.banned scope id)
    : w.OwnedBy id entry :=
  ⟨settings.trans owned.owner, (members none).trans owned.held, owned.role,
    fun s => (members (some s)).trans (owned.alone s),
    fun scope => (bans scope).trans (owned.free scope)⟩

theorem roster (owned : v.OwnedBy id entry) (same : SameRoster v w) : w.OwnedBy id entry :=
  owned.congr (by unfold View.owner; rw [same.metaOf]) (fun _ => by rw [same.member])
    fun _ => by rw [same.banned]

theorem setMember (owned : v.OwnedBy id entry) {i : Key} (other : i ≠ id) (scope : Scope)
    (m : Option Member)
    : (v.setMember scope i m).OwnedBy id entry :=
  owned.congr rfl (fun s => by simp [other.symm]) fun _ => rfl

theorem setBanned (owned : v.OwnedBy id entry) {i : Key} (other : i ≠ id) (scope : Scope)
    (ban : Option Ban)
    : (v.setBanned scope i ban).OwnedBy id entry :=
  owned.congr rfl (fun _ => rfl) fun s => by simp [other.symm]

theorem dropped (owned : v.OwnedBy id entry) {i : Key} (other : i ≠ id) (scope : Scope)
    : (v.dropped scope i).OwnedBy id entry :=
  owned.congr rfl (fun s => by simp [View.dropped, other.symm]) fun _ => rfl

theorem other_of_role (owned : v.OwnedBy id entry) {chain : List Key} {i : Key}
    (role : State.recordedRole v chain i ≠ some "owner")
    : i ≠ id := by
  rintro rfl
  exact role (owned.recordedRole chain)

end View.OwnedBy

theorem ne_owner_of_removes {author target : Option String} {permission : String}
    {custom : Custom} (removes : removes author target permission custom = true)
    : target ≠ some "owner" := by
  simp only [Decisions.removes, Bool.and_eq_true, decide_eq_true_eq] at removes
  exact removes.1.2

theorem current_of_assigns {author current : Option String} {role : String} {custom : Custom}
    (assigned : assigns author current role custom = true)
    : current ≠ some "owner" := by
  simp only [assigns, Bool.and_eq_true, decide_eq_true_eq] at assigned
  exact assigned.1.1.2

theorem atLeast_owner {role : String} (plain : role ∉ objectPrototype) (below : role ≠ "owner")
    : atLeast (rankOf (some "owner")) (rankOf (some role)) = true := by
  cases above : atLeast (rankOf (some "owner")) (rankOf (some role)) with
  | true => rfl
  | false => exact absurd (eq_owner_of_above (.inl rfl) plain above) below

section Steps

variable {env : Env} {x : Context} {v w : Counting} {id : Key} {entry : Member}

/-- A redemption gives the owner nothing and takes nothing from them. -/
theorem View.OwnedBy.redeem (owned : v.view.OwnedBy id entry) (sound : v.view.Sound)
    {redemption : Buffer} {r : Redemption} {device inviteId : Key}
    (found : accepted env v.view x redemption = some (r, device, inviteId))
    (plain : r.invite.role ∉ objectPrototype)
    : (Effect.redeem env x r device inviteId v).view.OwnedBy id entry := by
  obtain ⟨_, _, _, _, _, redeemable, invited⟩ := of_accepted found
  have named := ne_empty_of_invites invited
  have below := ne_owner_of_invites invited
  have top := atLeast_owner plain below
  have free : bannedIn v.view x.chain r.identity = false := by
    simp only [Decisions.redeemable, Bool.and_eq_true, Bool.not_eq_true'] at redeemable
    exact redeemable.1.1.1.1
  have entered : (Effect.enter env x r device v).1.view.OwnedBy id entry
      ∧ (Effect.enter env x r device v).1.view.Ready := by
    unfold Effect.enter
    split
    · rename_i joins
      have other : r.identity ≠ id := by
        intro same
        have lower := joins
        unfold Effect.joins at lower
        rw [same, owned.member, Option.all_some, owned.role] at lower
        unfold atLeast at top
        unfold less at lower
        cases theirs : rankOf (some "owner") <;> cases given : rankOf (some r.invite.role)
        all_goals simp only [theirs, given, decide_eq_true_eq] at top lower
        all_goals first
          | omega
          | contradiction
      have same := arrive_roster env x v r device
      exact ⟨(owned.setMember other _ _).roster same,
        (arrive_ready sound.toReady plain named free).settle env r.identity⟩
    · exact ⟨owned, sound.toReady⟩
  have routed := foldl_keeps
    (fun u : Counting => u.view.OwnedBy id entry ∧ u.view.Ready)
    (Effect.route x r.invite r.identity (Effect.enter env x r device v).2) (by
      intro u key kept
      obtain ⟨owned, ready⟩ := kept
      refine ⟨?_, (route_ready (x := x) ready r.invite r.identity _ plain named key).1⟩
      rcases route_given (x := x) ready.tree r.invite r.identity
          (Effect.enter env x r device v).2 key with
        same | ⟨chain, maker, _, _, _, _, _, lower, cuts⟩
      · rwa [same]
      · have other : r.identity ≠ id := by
          intro same
          have above := lower entry (same ▸ owned.member chain)
          rw [owned.role, top] at above
          cases above
        exact (owned.setMember other _ _).roster (.onlyCuts cuts))
    r.invite.subspaces _ entered
  exact routed.1.roster ⟨rfl, rfl, rfl, rfl, rfl, rfl⟩

/-- Every decision leaves the owner as they are. -/
theorem Outcome.ownedBy {body : Body} (outcome : Outcome env x v body w)
    (owned : v.view.OwnedBy id entry) (sound : v.view.Sound)
    : w.view.OwnedBy id entry := by
  cases outcome with
  | skipped => exact owned
  | memberAdd i top decides absent =>
      have other : i ≠ id := by
        rintro rfl
        rw [owned.member] at absent
        cases absent
      exact (owned.setMember other _ _).roster (memberAdd_roster x v i)
  | memberRemove d present removes =>
      have other := owned.other_of_role (ne_owner_of_removes removes)
      exact ((owned.setMember other _ _).dropped other _).roster
        (memberRemove_roster env x v sound.tree d)
  | roleDefine d => exact owned.congr rfl (fun _ => rfl) fun _ => rfl
  | roleSet d plain free assigned =>
      have other := owned.other_of_role (current_of_assigns assigned)
      exact (owned.setMember other _ _).roster (roleSet_roster x v d)
  | ban d i action target moderates bans =>
      simp only [Decisions.bans, Bool.and_eq_true] at bans
      have other := owned.other_of_role (ne_owner_of_removes bans.2)
      refine View.OwnedBy.roster ?_ (banned_roster x v i d)
      unfold Effect.banned
      split
      · exact owned.setBanned other _ _
      · exact (owned.setBanned other _ _).setMember other _ _
  | dropAll d i => exact owned.roster (dropAll_roster x v i d)
  | unban d i action target banned =>
      have other : i ≠ id := by
        rintro rfl
        rw [owned.free] at banned
        cases banned
      exact owned.setBanned other _ _
  | redeem redemption r device inviteId found still =>
      by_cases proto : r.invite.role ∈ objectPrototype
      · exact owned.roster (.onlyNotes (still proto))
      · exact owned.redeem sound found proto
  | revoke => exact owned.congr rfl (fun _ => rfl) fun _ => rfl
  | writerAdd d info => exact owned.roster (writerAdd_roster v info d.key)
  | settings d next w kept same =>
      rw [same]
      refine owned.congr ?_ (fun _ => rfl) fun _ => rfl
      unfold View.owner
      rw [View.setMeta_metaOf]
      split
      · rename_i here
        obtain ⟨info, found⟩ := Option.isSome_iff_exists.mp owned.begun
        rw [Option.bind_some, kept.owner, ← here, found]
        rfl
      · rfl
  | subspaceCreate d decides new w same =>
      rw [same]
      exact owned.congr rfl (fun _ => rfl) fun _ => rfl
  | deviceRemove d i => exact owned.roster (deviceRemove_roster x v i d.device)
  | notes body w kind frame => exact owned.roster (.onlyNotes frame)

end Steps

theorem NodeStep.ownedBy {env : Env} {v w : View} {node : Node} {id : Key} {entry : Member}
    (step : NodeStep env v node w) (owned : v.OwnedBy id entry) (sound : v.Sound)
    : w.OwnedBy id entry := by
  cases step with
  | unread bad => exact owned
  | read d reads applied came did w frame =>
      refine View.OwnedBy.roster (v := applied.view) ?_ (.onlyNotes frame.onlyNotes)
      cases did with
      | skipped => exact owned
      | begun init body info unbegun =>
          have begun := owned.begun
          rw [unbegun] at begun
          cases begun
      | decided other writer known chain here w outcome =>
          exact outcome.ownedBy (v := { view := v }) owned sound

/-- A space that begins is its prover's. -/
theorem ownedBy_begin {v : View} (blank : v.Blank) (stamp : Nat) (d : SpaceInit)
    (writer : Key) (info : Attested)
    : (Effect.begin stamp d writer info v).OwnedBy info.identity
        { role := "owner", by_ := info.identity, stamp := stamp } where
  owner := by simp [Effect.begin, View.owner]
  held := by simp [Effect.begin]
  role := rfl
  alone s := by simp [Effect.begin, blank.member]
  free scope := by simp [Effect.begin, blank.banned]

/-- A first decision counts only before the space begins, for whom its proof attests. -/
theorem Counts.begins {env : Env} {v w : View} {node : Node} {d : Incoming}
    (counts : Counts env v node d) (sound : v.Sound) (ran : applyNode env v node = .ok w)
    {init : SpaceInit} (body : d.decision.body = .spaceInit init)
    : ∃ info, Identity.verify env.keys init.proof (writerSignable node.from_ env.space)
          = some info
        ∧ v.metaOf none = none
        ∧ (Effect.begin d.decision.stamp init node.from_ info v).OnlyListed w := by
  obtain ⟨applied, came, writes, _, frame⟩ := counts.listed sound ran
  unfold applyIncoming at came
  rw [chainFor_eq sound.tree, ok_bind] at came
  have unchanged (same : applied = { view := v }) : False := by
    rw [same] at writes
    exact Nat.lt_irrefl 0 writes
  cases here : chainHere v d with
  | none =>
      rw [here] at came
      exact absurd (Except.ok.inj came).symm unchanged
  | some chain =>
      have did : applied = applySpaceInit env d.decision.stamp init node.from_ { view := v } := by
        rw [here] at came
        simp only [applyOne, body, pure_eq_ok] at came
        exact (Except.ok.inj came).symm
      unfold applySpaceInit at did
      split at did
      · exact absurd did unchanged
      · rename_i unbegun
        split at did
        · exact absurd did unchanged
        · split at did
          · exact absurd did unchanged
          · rename_i info proved
            have view : applied.view
                = Effect.begin d.decision.stamp init node.from_ info v := by
              rw [did]
              rfl
            refine ⟨info, proved, by simpa using unbegun, ?_⟩
            rw [← view]
            exact frame

-- The owner, for good

/-- Someone is the only owner: by an entry that does not change, with that role in every
scope, banned in none.
-/
structure SingleOwner (v : View) (id : Key) (entry : Member) : Prop where
  settings : v.owner = some id
  top : v.member none id = some entry ∧ entry.role = "owner"
  only : ∀ scope i m, v.member scope i = some m → m.role = "owner" → i = id
  banned : ∀ scope, v.banned scope id = none
  everywhere : ∀ scope chain, IsChain v scope chain → memberIn v chain id = .ok (some entry)

theorem View.OwnedBy.single {v : View} {id : Key} {entry : Member} (owned : v.OwnedBy id entry)
    (sound : v.Sound)
    : SingleOwner v id entry where
  settings := owned.owner
  top := ⟨owned.held, owned.role⟩
  only scope i m found role :=
    Option.some.inj ((sound.owned scope i m found role).2.symm.trans owned.owner)
  banned := owned.free
  everywhere scope chain path := by
    rw [memberIn_eq sound.topBan path.recorded, owned.member]

/-- Whoever a space's first decision proves is its single owner ever after, whatever is
decided, by whom and in which order.
-/
theorem owner_for_good {env : Env} {v u w : View} {node : Node} {d : Incoming}
    {init : SpaceInit} {nodes : List Node} (reached : Reachable env v)
    (counts : Counts env v node d) (body : d.decision.body = .spaceInit init)
    (begins : applyNode env v node = .ok u) (ran : applyNodes env nodes u = .ok w)
    : ∃ info, Identity.verify env.keys init.proof (writerSignable node.from_ env.space)
          = some info
        ∧ SingleOwner w info.identity
          { role := "owner", by_ := info.identity, stamp := d.decision.stamp } := by
  have sound := reached.sound
  obtain ⟨info, proved, unbegun, frame⟩ := counts.begins sound begins body
  have begun := (ownedBy_begin (sound.blank unbegun) d.decision.stamp init node.from_ info).roster
    (.onlyNotes frame.onlyNotes)
  obtain ⟨later, owned⟩ := applyNodes_keeps
    (fun w => w.OwnedBy info.identity
      { role := "owner", by_ := info.identity, stamp := d.decision.stamp })
    (fun v node w sound owned step => step.ownedBy owned sound)
    (reached.node begins).sound begun ran
  exact ⟨info, proved, owned.single later⟩

/-- The owner's first decision, as they send it. -/
def firstNode : Node := sent (keyOf 1) 1 (initial (keyOf 1) (keyOf 10) (keyOf 11))

/-- Witness: a space that begins and adds a member. -/
theorem owner_for_good_begun
    : ∃ u w, applyNode (idealEnv (keyOf 1)) View.empty firstNode = .ok u
      ∧ applyNodes (idealEnv (keyOf 1)) [sent (keyOf 1) 2 (.memberAdd (keyOf 20))] u = .ok w
      ∧ SingleOwner w (keyOf 10) { role := "owner", by_ := keyOf 10, stamp := 1 } := by
  have reads : readNode compact firstNode.value
      = some ⟨⟨1, initial (keyOf 1) (keyOf 10) (keyOf 11)⟩, none, false⟩ := by decide +kernel
  have proves : (Identity.verify idealKeys (attest (keyOf 10) (keyOf 11)
        (writerSignable (keyOf 1) (keyOf 1))) (writerSignable (keyOf 1) (keyOf 1))).map
          Attested.identity = some (keyOf 10) := by
    decide +kernel
  have facts : ((applyIncoming (idealEnv (keyOf 1)) View.empty firstNode
        ⟨⟨1, initial (keyOf 1) (keyOf 10) (keyOf 11)⟩, none, false⟩).toOption.bind fun a =>
      (applyNode (idealEnv (keyOf 1)) View.empty firstNode).toOption.bind fun u =>
      (applyNodes (idealEnv (keyOf 1)) [sent (keyOf 1) 2 (.memberAdd (keyOf 20))]
        u).toOption.map fun _ => decide (0 < a.writes)) = some true := by
    decide +kernel
  simp only [Option.bind_eq_some_iff, Option.map_eq_some_iff, decide_eq_true_eq] at facts
  obtain ⟨a, applied, u, first, w, later, counts⟩ := facts
  refine ⟨u, w, ok_of_toOption first, ok_of_toOption later, ?_⟩
  have start : Reachable (idealEnv (keyOf 1)) View.empty := ⟨[], rfl⟩
  have counted : Counts (idealEnv (keyOf 1)) View.empty firstNode
      ⟨⟨1, initial (keyOf 1) (keyOf 10) (keyOf 11)⟩, none, false⟩ :=
    ⟨reads, a, ok_of_toOption applied, counts⟩
  obtain ⟨info, proved, single⟩ := owner_for_good start counted rfl (ok_of_toOption first)
    (ok_of_toOption later)
  have same : info.identity = keyOf 10 := by
    change Identity.verify idealKeys (attest (keyOf 10) (keyOf 11)
      (writerSignable (keyOf 1) (keyOf 1))) (writerSignable (keyOf 1) (keyOf 1)) = _ at proved
    rw [proved] at proves
    exact Option.some.inj proves
  rw [same] at single
  exact single

end Hypergraph.Decisions
