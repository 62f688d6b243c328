import Hypergraph.Decisions.Bans

/-! Hypergraph's own permissions pass from who holds them: what a decision gives in its scope
its author held there, or an invite's maker. Taking an entry or a ban away gives too, where a
role shows from under it, and no check looks at that role.
-/

namespace Hypergraph.Decisions

open Wire Js Encodings Invites

-- What a decision gives

/-- Every own permission someone holds in a scope after a decision, they held before, or its
giver did.
-/
def NoEscalation (v w : View) (chain : List Key) (giver : Key) : Prop :=
  ∀ id, ∀ p ∈ own, State.can w chain id p = true
    → State.can v chain id p = true ∨ State.can v chain giver p = true

/-- Who gives: the maker of an invite redeemed, else the decision's author. -/
def giverOf (c : Primitives) (author : Key) : Body → Key
  | .inviteRedeem redemption =>
      (readBuffer (Encodings.redemption c) redemption).elim author fun r => r.invite.maker
  | _ => author

/-- Own permissions that show from under an entry or a ban taken away are ones the identity
or the author held.
-/
def covers (v : View) (chain : List Key) (author id : Key) (entry : Option Member) : Bool :=
  own.all fun p => !holds (State.roleUnder v chain entry id) p v.custom
    || holds (State.recordedRole v chain id) p v.custom
    || holds (State.recordedRole v chain author) p v.custom

/-- A removal, or a ban lifted, uncovers nothing its author did not hold. -/
def uncoversNothing (v : View) (scope : Scope) (chain : List Key) (author : Key) : Body → Bool
  | .memberRemove d => covers v chain author d.identity none
  | .moderate d =>
      d.action ≠ "unban" || d.target.all fun id => covers v chain author id (v.member scope id)
  | _ => true

section Escalation

variable {v w : View} {chain : List Key} {giver : Key}

/-- A role given grants no more of its own permissions than its giver holds. -/
theorem holds_of_grants {author : Option String} {role : String} {custom : Custom}
    (granted : grants author (listOf (some role) custom) custom = true) {p : String}
    (isOwn : p ∈ own) (below : role ≠ "owner") (held : holds (some role) p custom = true)
    : holds author p custom = true := by
  have listed : p ∈ listOf (some role) custom := by
    simpa [holds, below] using held
  simp only [grants, Bool.or_eq_true, decide_eq_true_eq, List.all_eq_true] at granted
  rcases granted with owner | all
  · simp [holds, owner]
  · rcases all p listed with no | yes
    · simp [isOwn] at no
    · simp only [holds, yes, Bool.or_true]

/-- Where each role is as before, or one whose permissions the giver holds, none escalates. -/
theorem noEscalation_of (custom : w.custom = v.custom)
    (roles : ∀ id, State.recordedRole w chain id = State.recordedRole v chain id
      ∨ ∀ p ∈ own, holds (State.recordedRole w chain id) p v.custom = true
        → holds (State.recordedRole v chain giver) p v.custom = true)
    : NoEscalation v w chain giver := by
  intro id p isOwn held
  rw [State.can_own isOwn, custom] at held
  rw [State.can_own isOwn, State.can_own isOwn]
  rcases roles id with same | given
  · rw [same] at held
    exact .inl held
  · exact .inr (given p isOwn held)

theorem SameRoster.noEscalation (same : SameRoster v w) : NoEscalation v w chain giver :=
  noEscalation_of same.custom fun id => .inl (same.recordedRole chain id)

/-- One identity's role changes to one under an entry or a ban: exactly what that role covers
decides.
-/
theorem noEscalation_uncovered_iff {id : Key} {entry : Option Member}
    (custom : w.custom = v.custom)
    (others : ∀ i, i ≠ id → State.recordedRole w chain i = State.recordedRole v chain i)
    (role : State.recordedRole w chain id = State.roleUnder v chain entry id)
    : NoEscalation v w chain giver ↔ covers v chain giver id entry = true := by
  unfold covers
  simp only [List.all_eq_true, Bool.or_eq_true, Bool.not_eq_true']
  constructor
  · intro none p isOwn
    have kept := none id p isOwn
    rw [State.can_own isOwn, State.can_own isOwn, State.can_own isOwn, role, custom] at kept
    cases held : holds (State.roleUnder v chain entry id) p v.custom with
    | false => exact .inl (.inl rfl)
    | true => exact (kept held).elim (fun mine => .inl (.inr mine)) .inr
  · intro all i p isOwn held
    rw [State.can_own isOwn, custom] at held
    rw [State.can_own isOwn, State.can_own isOwn]
    by_cases theirs : i = id
    · subst theirs
      rw [role] at held
      rcases all p isOwn with (not | mine) | givers
      · rw [held] at not
        cases not
      · exact .inl mine
      · exact .inr givers
    · rw [others i theirs] at held
      exact .inl held

end Escalation

-- One decision

section Decision

variable {env : Env} {x : Context} {v w : Counting} {body : Body}

/-- A role given by who grants it escalates nothing. -/
theorem noEscalation_given {v : View} {scope : Scope} {chain : List Key} {id giver : Key}
    (path : IsChain v scope chain) (free : bannedIn v chain id = false) (m : Member)
    (below : m.role ≠ "owner")
    (granted : grants (State.recordedRole v chain giver) (listOf (some m.role) v.custom) v.custom
      = true)
    : NoEscalation v (v.setMember scope id (some m)) chain giver := by
  refine noEscalation_of rfl fun i => ?_
  by_cases theirs : i = id
  · subst theirs
    refine .inr fun p isOwn held => ?_
    rw [State.recordedRole_given path free m] at held
    exact holds_of_grants granted isOwn below held
  · exact .inl (State.recordedRole_other theirs chain _)

/-- Who may assign or invite grants what they give. -/
theorem grants_of_assigns {author current : Option String} {role : String} {custom : Custom}
    (assigned : assigns author current role custom = true)
    : grants author (listOf (some role) custom) custom = true := by
  simp only [assigns, Bool.and_eq_true, Bool.or_eq_true] at assigned
  rcases assigned.2 with owner | checks
  · simpa [grants] using .inl (of_decide_eq_true owner)
  · exact checks.2

theorem grants_of_invites {maker : Option String} {role : String} {custom : Custom}
    (invited : invites maker role custom = true)
    : grants maker (listOf (some role) custom) custom = true := by
  simp only [invites, Bool.and_eq_true, Bool.or_eq_true] at invited
  rcases invited.2 with owner | checks
  · simpa [grants] using .inl (of_decide_eq_true owner)
  · exact checks.2

theorem NoEscalation.roster {v u w : View} {chain : List Key} {giver : Key}
    (none : NoEscalation v u chain giver) (same : SameRoster u w)
    : NoEscalation v w chain giver := by
  intro id p isOwn held
  refine none id p isOwn ?_
  rw [State.can_own isOwn] at held ⊢
  rwa [same.recordedRole, same.custom] at held

/-- A redemption gives in its scope what the invite's maker grants. -/
theorem redeem_noEscalation (sound : v.view.Sound) (fits : x.Fits v.view)
    {redemption : Buffer} {r : Redemption} {device inviteId : Key}
    (found : accepted env v.view x redemption = some (r, device, inviteId))
    (plain : r.invite.role ∉ objectPrototype)
    : NoEscalation v.view (Effect.redeem env x r device inviteId v).view x.chain
        r.invite.maker := by
  obtain ⟨_, _, _, _, _, redeemable, invited⟩ := of_accepted found
  have named := ne_empty_of_invites invited
  have below := ne_owner_of_invites invited
  have free : bannedIn v.view x.chain r.identity = false := by
    simp only [Decisions.redeemable, Bool.and_eq_true, Bool.not_eq_true'] at redeemable
    exact redeemable.1.1.1.1
  have entered : NoEscalation v.view (Effect.enter env x r device v).1.view x.chain r.invite.maker
      ∧ (Effect.enter env x r device v).1.view.Ready
      ∧ IsChain (Effect.enter env x r device v).1.view x.scope x.chain := by
    unfold Effect.enter
    split
    · have same := arrive_roster env x v r device
      exact ⟨(noEscalation_given fits.path free _ below (grants_of_invites invited)).roster same,
        (arrive_ready sound.toReady plain named free).settle env r.identity,
        fits.path.congr (v := v.view) same.subspace⟩
    · exact ⟨(SameRoster.refl _).noEscalation, sound.toReady, fits.path⟩
  have routed := foldl_keeps
    (fun u : Counting => NoEscalation v.view u.view x.chain r.invite.maker ∧ u.view.Ready
      ∧ IsChain u.view x.scope x.chain)
    (Effect.route x r.invite r.identity (Effect.enter env x r device v).2) (by
      rintro u key ⟨none, ready, path⟩
      obtain ⟨ready', _, spaces, _⟩ :=
        route_ready (x := x) ready r.invite r.identity _ plain named key
      refine ⟨?_, ready', path.congr spaces⟩
      rcases route_given (x := x) ready.tree r.invite r.identity
          (Effect.enter env x r device v).2 key with
        same | ⟨chain, maker, _, below, _, _, _, _, cuts⟩
      · rwa [same]
      · have apart := path.below_fresh ready.tree below
        refine NoEscalation.roster ?_ (.onlyCuts cuts)
        intro id p isOwn held
        refine none id p isOwn ?_
        rw [State.can_own isOwn] at held ⊢
        rwa [State.recordedRole_apart fun met => apart (mem_scopesOf.mp met)] at held)
    r.invite.subspaces _ entered
  exact routed.1.roster ⟨rfl, rfl, rfl, rfl, rfl, rfl⟩

/-- Redefining a role gives its holders what the author grants. -/
theorem roleDefine_noEscalation (fits : x.Fits v.view) {d : RoleDefine}
    (defines : defines v.view x d = true) (below : x.authorRole ≠ some "owner")
    : NoEscalation v.view (Effect.roleDefine x d.name (definedAs d) v).view x.chain x.author := by
  simp only [Decisions.defines, Bool.and_eq_true] at defines
  intro id p isOwn held
  rw [State.can_own isOwn] at held
  rw [State.can_own isOwn, State.can_own isOwn, ← fits.role]
  have same : State.recordedRole (Effect.roleDefine x d.name (definedAs d) v).view x.chain id
      = State.recordedRole v.view x.chain id :=
    State.recordedRole_congr (fun _ _ => rfl) (fun _ _ => rfl) fun _ _ => rfl
  have custom : (Effect.roleDefine x d.name (definedAs d) v).view.custom = redefined v.view d :=
    custom_setRole rfl
  rw [same, custom] at held
  rcases holds_redefined held with before | ⟨_, listed⟩
  · exact .inl before
  · have granted := defines.2
    simp only [grants, below, decide_false, Bool.false_or, List.all_eq_true] at granted
    have mine := granted p listed
    have known : own.contains p = true := by simpa using isOwn
    rw [known, Bool.not_true, Bool.false_or] at mine
    exact .inr (by simp only [holds, mine, Bool.or_true])

theorem memberAdd_noEscalation (fits : x.Fits v.view) (top : x.scope = none)
    {id giver : Key} (free : v.view.banned none id = none)
    : NoEscalation v.view (Effect.memberAdd x id v).view x.chain giver := by
  have chain : x.chain = [] := (top ▸ fits.path).eq_nil
  refine NoEscalation.roster ?_ (memberAdd_roster x v id)
  rw [chain]
  refine noEscalation_of rfl fun i => ?_
  by_cases theirs : i = id
  · subst theirs
    refine .inr fun p isOwn held => ?_
    rw [State.recordedRole_given .top (by simp [bannedIn, free])] at held
    simp only [own, List.mem_cons, List.not_mem_nil, or_false] at isOwn
    rcases isOwn with rfl | rfl | rfl | rfl <;> cases held
  · exact .inl (State.recordedRole_other theirs [] _)

/-- A removal leaves its target what the chain above gives. -/
theorem memberRemove_noEscalation_iff (sound : v.view.Sound) (fits : x.Fits v.view)
    {d : MemberRemove} {giver : Key}
    (present : (State.member v.view x.chain d.identity).isSome)
    : NoEscalation v.view (Effect.memberRemove env x d v).view x.chain giver
      ↔ covers v.view x.chain giver d.identity none = true := by
  have same := memberRemove_roster env x v sound.tree d
  have untouched (s : Scope) (met : s ∈ scopesOf x.chain)
      : s.any (fun key => belowAt (v.view.setMember x.scope d.identity none) key x.scope)
        = false := by
    cases s with
    | none => rfl
    | some key =>
        rw [Option.any_some,
          belowAt_congr (v := v.view) (w := v.view.setMember x.scope d.identity none) rfl rfl]
        cases below : belowAt v.view key x.scope with
        | false => rfl
        | true => exact absurd (mem_scopesOf.mp met) (fits.path.below_fresh sound.tree below)
  refine noEscalation_uncovered_iff same.custom (fun i other => ?_) ?_
  · rw [same.recordedRole]
    refine State.recordedRole_congr (fun s _ => ?_) (fun _ _ => rfl) fun _ _ => rfl
    simp [View.dropped, other]
  · rw [same.recordedRole]
    unfold State.recordedRole State.roleUnder
    have free : v.view.banned x.scope d.identity = none := by
      cases out : v.view.banned x.scope d.identity with
      | none => rfl
      | some ban =>
          have banned : bannedIn v.view x.chain d.identity = true := by
            simp only [bannedIn, List.any_eq_true]
            exact ⟨x.scope, fits.path.scope_mem, by simp [out]⟩
          rw [State.member_banned sound.topBan banned] at present
          cases present
    rw [State.member_under (w := (v.view.setMember x.scope d.identity none).dropped x.scope
      d.identity) fits.path (fun s met other => by simp [View.dropped, untouched s met, other])
      (fun _ _ _ => rfl) free fun _ _ => rfl]
    simp [View.dropped]

/-- Lifting a ban gives back the entry under it, or what the chain above gives. -/
theorem unban_noEscalation_iff (fits : x.Fits v.view) {id giver : Key}
    : NoEscalation v.view (v.view.setBanned x.scope id none) x.chain giver
      ↔ covers v.view x.chain giver id (v.view.member x.scope id) = true := by
  refine noEscalation_uncovered_iff rfl (fun i other => ?_) ?_
  · exact State.recordedRole_congr (fun _ _ => rfl) (fun s _ => by simp [other])
      fun _ _ => rfl
  · unfold State.recordedRole State.roleUnder
    rw [State.member_under (w := v.view.setBanned x.scope id none) fits.path
      (fun _ _ _ => rfl) (fun s _ other => by simp [other]) (by simp) fun _ _ => rfl]
    rfl

/-- A ban takes its target's role and gives no one anything. -/
theorem ban_noEscalation (sound : v.view.Sound) (begun : (v.view.metaOf none).isSome)
    (fits : x.Fits v.view) (id : Key) (d : Moderate) {giver : Key}
    : NoEscalation v.view (Effect.ban env x id d v).view x.chain giver := by
  obtain ⟨ban, same⟩ := ban_roster env x v id d
  have banned : (Effect.banned x id ban v.view).banned
      = (v.view.setBanned x.scope id (some ban)).banned := by
    unfold Effect.banned
    split <;> rfl
  have custom : (Effect.banned x id ban v.view).custom = v.view.custom := by
    unfold Effect.banned
    split <;> rfl
  refine NoEscalation.roster (noEscalation_of custom fun i => ?_) same
  by_cases theirs : i = id
  · subst theirs
    have out : bannedIn (Effect.banned x i ban v.view) x.chain i = true := by
      simp only [bannedIn, List.any_eq_true]
      exact ⟨x.scope, fits.path.scope_mem, by simp [banned]⟩
    refine .inr fun p _ held => ?_
    unfold State.recordedRole at held
    rw [State.member_banned (sound.banned begun fits i ban).topBan out] at held
    cases held
  · have rights := sameRights_banned theirs x ban (v := v.view)
    exact .inl (rights.recordedRole x.chain)

/-- A decision that counts, by anyone but the owner, escalates nothing just when what it
uncovers does not.
-/
theorem Outcome.escalates_iff (outcome : Outcome env x v body w) (sound : v.view.Sound)
    (begun : (v.view.metaOf none).isSome) (fits : x.Fits v.view)
    (notOwner : v.view.owner ≠ some x.author) (counts : v.writes < w.writes)
    : NoEscalation v.view w.view x.chain (giverOf env.c x.author body)
      ↔ uncoversNothing v.view x.scope x.chain x.author body = true := by
  have below : x.authorRole ≠ some "owner" := by
    rw [fits.role]
    exact fun role => notOwner (sound.owner_of_role role)
  cases outcome with
  | skipped => exact absurd counts (Nat.lt_irrefl _)
  | memberAdd id top decides absent free =>
      exact iff_of_true (memberAdd_noEscalation fits top free) rfl
  | memberRemove d present removes own => exact memberRemove_noEscalation_iff sound fits present
  | roleDefine d defines => exact iff_of_true (roleDefine_noEscalation fits defines below) rfl
  | roleSet d plain free assigned =>
      refine iff_of_true (NoEscalation.roster ?_ (roleSet_roster x v d)) rfl
      have granted := grants_of_assigns assigned
      rw [fits.role] at granted
      exact noEscalation_given fits.path free (Effect.nextMember x d v.view)
        (ne_owner_of_assigns assigned) granted
  | ban d id action target moderates bans =>
      refine iff_of_true (ban_noEscalation sound begun fits id d) ?_
      simp [uncoversNothing, action]
  | dropAll d id action target banned all =>
      refine iff_of_true (dropAll_roster x v id d).noEscalation ?_
      simp [uncoversNothing, action]
  | unban d id action target banned =>
      refine (unban_noEscalation_iff fits).trans ?_
      simp [uncoversNothing, action, target, giverOf]
  | redeem redemption r device inviteId found still =>
      refine iff_of_true ?_ rfl
      by_cases proto : r.invite.role ∈ objectPrototype
      · exact (SameRoster.onlyNotes (still proto)).noEscalation
      · obtain ⟨read, _⟩ := of_accepted found
        simp only [giverOf, read, Option.elim_some]
        exact redeem_noEscalation sound fits found proto
  | revoke invite inv inviteId =>
      exact iff_of_true (SameRoster.noEscalation ⟨rfl, rfl, rfl, rfl, rfl, rfl⟩) rfl
  | writerAdd d info => exact iff_of_true (writerAdd_roster v info d.key).noEscalation rfl
  | settings d next w kept same =>
      rw [same]
      exact iff_of_true (noEscalation_of rfl fun i => .inl (State.recordedRole_congr
        (fun _ _ => rfl) (fun _ _ => rfl) fun _ _ => rfl)) rfl
  | subspaceCreate d decides new w same =>
      rw [same]
      refine iff_of_true (noEscalation_of rfl fun i => .inl (State.recordedRole_congr
        (fun _ _ => rfl) (fun _ _ => rfl) fun s met => ?_)) rfl
      have other : s ≠ d.key := by
        rintro rfl
        have known := fits.path.recorded _ met
        rw [new] at known
        cases known
      simp [Effect.subspaceCreate, other]
  | deviceRemove d id => exact iff_of_true (deviceRemove_roster x v id d.device).noEscalation rfl
  | notes body w kind frame =>
      refine iff_of_true (SameRoster.onlyNotes frame).noEscalation ?_
      cases body <;> simp_all [noteKind, uncoversNothing]

end Decision

/-- A decision that counts, by a writer who is not the owner, gives no one an own permission
that its author (an invite's maker) did not hold, just when it does not uncover one.
-/
theorem noEscalation_iff {env : Env} {v w : View} {node : Node} {d : Incoming}
    (reached : Reachable env v) (counts : Counts env v node d)
    (ran : applyNode env v node = .ok w) {writer : Writer}
    (known : v.writer node.from_ = some writer) (notOwner : v.owner ≠ some writer.identity)
    {chain : List Key} (here : chainHere v d = some chain)
    : NoEscalation v w chain (giverOf env.c writer.identity d.decision.body)
      ↔ uncoversNothing v d.scope chain writer.identity d.decision.body = true := by
  have sound := reached.sound
  have begun := sound.begun_of_writer known
  obtain ⟨writer', chain', applied, known', here', writes, outcome, frame⟩ :=
    counts.decided sound ran (counts.other sound begun)
  cases Option.some.inj (known.symm.trans known')
  cases Option.some.inj (here.symm.trans here')
  have path := chainHere_path sound.tree here
  have fits := contextAt_fits path writer d.decision.stamp (env.codeOf node)
  have scope : (contextAt v chain writer d.decision.stamp (env.codeOf node)).scope = d.scope :=
    path.head?
  have decision := outcome.escalates_iff (v := { view := v }) sound begun fits notOwner writes
  rw [scope] at decision
  have same : SameRoster applied.view w := .onlyNotes frame.onlyNotes
  have back : SameRoster w applied.view :=
    ⟨same.member.symm, same.banned.symm, same.subspace.symm, same.subspaces.symm,
      same.role.symm, same.metaOf.symm⟩
  exact ⟨fun none => decision.mp (none.roster back),
    fun covered => (decision.mpr covered).roster same⟩

-- A guest's entry removed

/-- Someone with a role in the space is a guest in one room; a helper may decide, and removes
them there.
-/
def roomLog (role : String) : List Node :=
  let space := keyOf 1
  let invite := makeInvite space (idOf 9) "helper" 0 [] (keyOf 10) space
  [sent space 1 (initial space (keyOf 10) (keyOf 11)),
    sent space 2 (.roleDefine { name := "helper", permissions := ["decide"] }),
    sent space 3 (redeeming invite (keyOf 30) (keyOf 31)),
    sent space 4 (.subspaceCreate {
      key := keyOf 5
      name := "room"
      priv := false
      writeRoles := [] }),
    sent space 5 (.roleSet { identity := keyOf 20, role := role, cut := [] }),
    sentIn (keyOf 5) space 6 (.roleSet { identity := keyOf 20, role := "guest", cut := [] })]

def roomNode : Node :=
  sentIn (keyOf 5) (keyOf 31) 7 (.memberRemove { identity := keyOf 20, cut := [] })

/-- The removal counts, whatever role shows from under the guest's. -/
theorem room_removes (role : String) (counted : ((applyNodes (idealEnv (keyOf 1)) (roomLog role)
      View.empty).toOption.bind fun v => (applyIncoming (idealEnv (keyOf 1)) v roomNode
        ⟨⟨7, .memberRemove { identity := keyOf 20, cut := [] }⟩, some (keyOf 5),
          false⟩).toOption.bind fun a =>
      (applyNode (idealEnv (keyOf 1)) v roomNode).toOption.map fun w =>
        decide (0 < a.writes) && chainAt v (keyOf 5) = some [keyOf 5]
          && (v.writer (keyOf 31)).any (fun w => w.identity = keyOf 30 && v.owner ≠ some (keyOf 30))
          && State.recordedRole v [keyOf 5] (keyOf 30) = some "helper"
          && State.recordedRole v [keyOf 5] (keyOf 20) = some "guest"
          && State.roleUnder v [keyOf 5] none (keyOf 20) = some role
          && State.recordedRole w [keyOf 5] (keyOf 20) = some role
          && !holds (some "helper") "moderate" v.custom) = some true)
    : ∃ v w d writer, Reachable (idealEnv (keyOf 1)) v
      ∧ Counts (idealEnv (keyOf 1)) v roomNode d ∧ applyNode (idealEnv (keyOf 1)) v roomNode = .ok w
      ∧ v.writer roomNode.from_ = some writer ∧ v.owner ≠ some writer.identity
      ∧ chainHere v d = some [keyOf 5] ∧ d.scope = some (keyOf 5)
      ∧ d.decision.body = .memberRemove { identity := keyOf 20, cut := [] }
      ∧ State.recordedRole v [keyOf 5] writer.identity = some "helper"
      ∧ State.recordedRole v [keyOf 5] (keyOf 20) = some "guest"
      ∧ State.roleUnder v [keyOf 5] none (keyOf 20) = some role
      ∧ State.recordedRole w [keyOf 5] (keyOf 20) = some role
      ∧ holds (some "helper") "moderate" v.custom = false := by
  have reads : readNode compact roomNode.value
      = some ⟨⟨7, .memberRemove { identity := keyOf 20, cut := [] }⟩, some (keyOf 5), false⟩ := by
    decide +kernel
  simp only [Option.bind_eq_some_iff, Option.map_eq_some_iff, Bool.and_eq_true,
    decide_eq_true_eq, Option.any_eq_true, Bool.not_eq_true'] at counted
  obtain ⟨v, first, a, applied, w, second,
    ⟨⟨⟨⟨⟨⟨counts, chain⟩, ⟨writer, known, theirs, notOwner⟩⟩, helper⟩, guest⟩, under⟩, now⟩,
    limited⟩ := counted
  refine ⟨v, w, _, writer, ⟨roomLog role, ok_of_toOption first⟩,
    ⟨reads, a, ok_of_toOption applied, counts⟩, ok_of_toOption second, known, ?_, chain, rfl, rfl,
    ?_, guest, under, now, limited⟩
  · rw [theirs]
    exact notOwner
  · rw [theirs]
    exact helper

/-- Witness: someone with no more than a member's role under the guest's. -/
theorem noEscalation_member
    : ∃ v w d writer, Counts (idealEnv (keyOf 1)) v roomNode d
      ∧ NoEscalation v w [keyOf 5] (giverOf compact writer d.decision.body) := by
  obtain ⟨v, w, d, writer, reached, counts, ran, known, notOwner, here, _, body, _, _, under, _⟩ :=
    room_removes "member" (by decide +kernel)
  refine ⟨v, w, d, writer.identity, counts,
    (noEscalation_iff reached counts ran known notOwner here).mpr ?_⟩
  rw [body]
  simp only [uncoversNothing, covers, under]
  rfl

/-- A helper who may only decide makes someone an admin of a room, by removing the guest's
entry that stood before the role they have in the space.
-/
theorem removal_escalates
    : ∃ v w d writer, Reachable (idealEnv (keyOf 1)) v ∧ Counts (idealEnv (keyOf 1)) v roomNode d
      ∧ applyNode (idealEnv (keyOf 1)) v roomNode = .ok w
      ∧ v.writer roomNode.from_ = some writer ∧ v.owner ≠ some writer.identity
      ∧ chainHere v d = some [keyOf 5]
      ∧ ¬NoEscalation v w [keyOf 5] (giverOf compact writer.identity d.decision.body) := by
  obtain ⟨v, w, d, writer, reached, counts, ran, known, notOwner, here, _, body, helper, guest, _,
    now, limited⟩ := room_removes "admin" (by decide +kernel)
  refine ⟨v, w, d, writer, reached, counts, ran, known, notOwner, here, fun none => ?_⟩
  have isOwn : "moderate" ∈ own := by decide
  rw [body] at none
  have escalated := none (keyOf 20) "moderate" isOwn (by
    rw [State.can_own isOwn, now]
    rfl)
  rw [State.can_own isOwn, State.can_own isOwn, guest] at escalated
  change _ ∨ holds (State.recordedRole v [keyOf 5] writer.identity) _ _ = true at escalated
  rw [helper, limited] at escalated
  rcases escalated with held | held <;> cases held

end Hypergraph.Decisions
