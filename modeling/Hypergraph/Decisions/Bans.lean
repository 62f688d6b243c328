import Hypergraph.Decisions.Rights
import Hypergraph.Decisions.Ideal

/-! What a ban leaves: no member entry of its scope, nor of a sub-space below, as long as no
later decision names the banned identity. `moderate ban` deletes only the entry of a role that
counts in its own scope, where `member/remove` also drops those below.
-/

namespace Hypergraph.Decisions

open Wire Js Encodings Invites

/-- A scope itself, or a sub-space below it. -/
def AtOrBelow (v : View) (scope t : Scope) : Prop :=
  ∃ chain, IsChain v t chain ∧ scope ∈ scopesOf chain

/-- An identity has no member entry of its own in a scope nor below it. -/
def Cleared (v : View) (scope : Scope) (id : Key) : Prop :=
  ∀ t, AtOrBelow v scope t → v.member t id = none

/-- Does a decision name an identity as one to let in? -/
def names (c : Primitives) (id : Key) : Body → Bool
  | .memberAdd other => other = id
  | .roleSet d => d.identity = id
  | .inviteRedeem redemption =>
      (readBuffer (Encodings.redemption c) redemption).any fun r => r.identity = id
  | _ => false

-- What lets someone in counts

section Writes

variable (env : Env) (x : Context) (v : Counting) (scope : Scope) (id : Key)

theorem writes_admitBack (role : String) (code : Option Key)
    : v.writes ≤ (Effect.admitBack v scope id role code).writes := by
  unfold Effect.admitBack
  split
  · exact Nat.le_refl _
  · split
    · exact Nat.le_succ _
    · exact Nat.le_refl _

theorem writes_addMemberKey (role : String) (writer device : Option Key)
    : v.writes ≤ (Effect.addMemberKey v id role writer device).writes := by
  unfold Effect.addMemberKey addKey
  split
  · exact Nat.le_refl _
  · split
    · split
      · exact Nat.le_refl _
      · split
        · exact Nat.le_refl _
        · simp only [Counting.call_writes, Counting.write_writes]
          omega
    · exact Nat.le_refl _

theorem writes_forgetAll : v.writes ≤ (Effect.forgetAll env v id).writes := by
  refine foldl_keeps (fun u : Counting => v.writes ≤ u.writes) _ (fun u key below => ?_) _ v
    (Nat.le_refl _)
  unfold removeFromBase forget
  split <;> simp only [Counting.call_writes, Counting.write_writes] <;> omega

theorem writes_settle : v.writes ≤ (Effect.settle env v id).writes := by
  unfold Effect.settle Effect.mark
  split
  · exact writes_forgetAll env v id
  · split
    · split
      · simp only [Counting.call_writes, Counting.write_writes]
        omega
      · exact Nat.le_refl _
    · split
      · exact Nat.le_refl _
      · dsimp only
        split <;> simp only [Counting.call_writes, Counting.write_writes] <;> omega

theorem memberAdd_counts : v.writes < (Effect.memberAdd x id v).writes :=
  Nat.lt_of_lt_of_le (Nat.lt_succ_self _) (writes_admitBack (v.write _) x.scope id _ _)

theorem roleSet_counts (d : RoleSet) : v.writes < (Effect.roleSet env x d v).writes := by
  refine Nat.lt_of_lt_of_le ?_ (Nat.le_trans (writes_addMemberKey _ _ _ _ _)
    (writes_settle env _ _))
  have given := writes_admitBack (v.write (·.setMember x.scope d.identity (some ⟨d.role, x.author,
    x.stamp, (State.member v.view x.chain d.identity).bind Member.writer,
    (State.member v.view x.chain d.identity).bind Member.writerDevice⟩))) x.scope d.identity
    d.role x.code
  simp only [Counting.write_writes] at given
  have cut (u : Counting) (scope : Scope) (entries : List CutEntry) (stamp : Nat)
      : u.writes < (recordCut u scope d.identity entries stamp).writes := by
    simp only [recordCut, Counting.write_writes]
    omega
  have edits (u : Counting) (lost : List String)
      : u.writes ≤ (recordEditCuts u x.scope d.identity lost d.cut).writes := by
    unfold recordEditCuts
    split
    · exact Nat.le_refl _
    · exact Nat.le_succ _
  refine Nat.lt_of_lt_of_le ?_ (edits _ _)
  split
  · exact Nat.lt_trans (by omega) (cut _ _ _ _)
  · omega

end Writes

-- What a decision may add

section Adds

variable {env : Env} {x : Context} {v w : Counting} {body : Body}

/-- Only one identity has entries it had not, where nobody bans it. -/
structure LetsIn (v w : View) (id : Key) : Prop where
  given : ∀ t i, (w.member t i).isSome → (v.member t i).isSome
    ∨ i = id ∧ ∃ chain, IsChain v t chain ∧ bannedIn v chain i = false
  banned : w.banned = v.banned
  subspace : w.subspace = v.subspace
  metaOf : w.metaOf = v.metaOf

theorem LetsIn.setMember {u : View} {id : Key} (lets : LetsIn v.view u id) {t : Scope}
    {chain : List Key} (path : IsChain v.view t chain) (free : bannedIn v.view chain id = false)
    (entry : Option Member)
    : LetsIn v.view (u.setMember t id entry) id where
  given s i there := by
    simp only [View.setMember_member] at there
    split at there
    · rename_i here
      obtain ⟨rfl, rfl⟩ := here
      exact .inr ⟨rfl, chain, path, free⟩
    · exact lets.given s i there
  banned := lets.banned
  subspace := lets.subspace
  metaOf := lets.metaOf

theorem LetsIn.roster {u u' : View} {id : Key} (lets : LetsIn v.view u id)
    (same : SameRoster u u')
    : LetsIn v.view u' id where
  given t i there := lets.given t i (same.member ▸ there)
  banned := same.banned.trans lets.banned
  subspace := same.subspace.trans lets.subspace
  metaOf := same.metaOf.trans lets.metaOf

theorem LetsIn.refl (v : View) (id : Key) : LetsIn v v id :=
  ⟨fun _ _ there => .inl there, rfl, rfl, rfl⟩

/-- A redemption lets its redeemer in, in its scope and the sub-spaces it routes to. -/
theorem redeem_letsIn (sound : v.view.Sound) (fits : x.Fits v.view) {redemption : Buffer}
    {r : Redemption} {device inviteId : Key}
    (found : accepted env v.view x redemption = some (r, device, inviteId))
    (plain : r.invite.role ∉ objectPrototype)
    : LetsIn v.view (Effect.redeem env x r device inviteId v).view r.identity := by
  obtain ⟨_, _, _, _, _, redeemable, invited⟩ := of_accepted found
  have named := ne_empty_of_invites invited
  have free : bannedIn v.view x.chain r.identity = false := by
    simp only [Decisions.redeemable, Bool.and_eq_true, Bool.not_eq_true'] at redeemable
    exact redeemable.1.1.1.1
  have entered : LetsIn v.view (Effect.enter env x r device v).1.view r.identity
      ∧ (Effect.enter env x r device v).1.view.Ready := by
    unfold Effect.enter
    split
    · exact ⟨((LetsIn.refl v.view r.identity).setMember fits.path free _).roster
          (arrive_roster _ x v r device),
        (arrive_ready sound.toReady plain named free).settle env r.identity⟩
    · exact ⟨.refl v.view r.identity, sound.toReady⟩
  have routed := foldl_keeps
    (fun u : Counting => LetsIn v.view u.view r.identity ∧ u.view.Ready)
    (Effect.route x r.invite r.identity (Effect.enter env x r device v).2) (by
      rintro u key ⟨lets, ready⟩
      refine ⟨?_, (route_ready (x := x) ready r.invite r.identity _ plain named key).1⟩
      rcases route_given (x := x) ready.tree r.invite r.identity
          (Effect.enter env x r device v).2 key with
        same | ⟨chain, maker, path, _, free, _, _, _, cuts⟩
      · rwa [same]
      · refine (lets.setMember (path.congr lets.subspace.symm) ?_ _).roster (.onlyCuts cuts)
        unfold bannedIn at free ⊢
        rwa [← lets.banned])
    r.invite.subspaces _ entered
  exact ⟨routed.1.given, routed.1.banned, routed.1.subspace, routed.1.metaOf⟩

/-- Only creating a sub-space changes the tree of them. -/
theorem Outcome.spaces (outcome : Outcome env x v body w) (sound : v.view.Sound)
    (fits : x.Fits v.view)
    : w.view.subspace = v.view.subspace
      ∨ ∃ d, v.view.subspace d.key = none ∧ w.view = Effect.subspaceCreate x d v.view := by
  cases outcome with
  | memberAdd id => exact .inl (memberAdd_roster x v id).subspace
  | memberRemove d => exact .inl (memberRemove_roster _ x v sound.tree d).subspace
  | roleSet d => exact .inl (roleSet_roster x v d).subspace
  | ban d id =>
      obtain ⟨ban, same⟩ := ban_roster env x v id d
      refine .inl (same.subspace.trans ?_)
      unfold Effect.banned
      split <;> rfl
  | dropAll d id => exact .inl (dropAll_roster x v id d).subspace
  | redeem redemption r device inviteId found still =>
      by_cases proto : r.invite.role ∈ objectPrototype
      · exact .inl (SameRoster.onlyNotes (still proto)).subspace
      · exact .inl (redeem_letsIn sound fits found proto).subspace
  | writerAdd d info => exact .inl (writerAdd_roster v info d.key).subspace
  | settings d next w kept same => exact .inl (by rw [same]; rfl)
  | subspaceCreate d decides new w same => exact .inr ⟨d, new, same⟩
  | deviceRemove d id => exact .inl (deviceRemove_roster x v id d.device).subspace
  | notes body w kind frame => exact .inl (SameRoster.onlyNotes frame).subspace
  | _ => exact .inl rfl

theorem Outcome.begun (outcome : Outcome env x v body w) (sound : v.view.Sound)
    (fits : x.Fits v.view) (begun : (v.view.metaOf none).isSome)
    : (w.view.metaOf none).isSome := by
  cases outcome with
  | memberAdd id => rwa [(memberAdd_roster x v id).metaOf]
  | memberRemove d => rwa [(memberRemove_roster _ x v sound.tree d).metaOf]
  | roleSet d => rwa [(roleSet_roster x v d).metaOf]
  | ban d id =>
      obtain ⟨ban, same⟩ := ban_roster env x v id d
      rw [same.metaOf]
      unfold Effect.banned
      split <;> exact begun
  | dropAll d id => rwa [(dropAll_roster x v id d).metaOf]
  | redeem redemption r device inviteId found still =>
      by_cases proto : r.invite.role ∈ objectPrototype
      · rwa [(SameRoster.onlyNotes (still proto)).metaOf]
      · rwa [(redeem_letsIn sound fits found proto).metaOf]
  | writerAdd d info => rwa [(writerAdd_roster v info d.key).metaOf]
  | settings d next w kept same =>
      rw [same, View.setMeta_metaOf]
      split
      · rfl
      · exact begun
  | subspaceCreate d decides new w same => rwa [same]
  | deviceRemove d id => rwa [(deviceRemove_roster x v id d.device).metaOf]
  | notes body w kind frame => rwa [(SameRoster.onlyNotes frame).metaOf]
  | _ => exact begun

/-- Chains stay as they were. -/
theorem Outcome.chains (outcome : Outcome env x v body w) (sound : v.view.Sound)
    (fits : x.Fits v.view) {scope : Scope} {chain : List Key}
    (path : IsChain v.view scope chain)
    : IsChain w.view scope chain := by
  rcases outcome.spaces sound fits with same | ⟨d, new, same⟩
  · exact path.congr same
  · rw [same]
    exact path.subspaceCreate new

/-- Someone has a member entry now who had none only where the decision names them and counts,
and they are not banned.
-/
theorem Outcome.given (outcome : Outcome env x v body w) (sound : v.view.Sound)
    (fits : x.Fits v.view) {t : Scope} {id : Key} (there : (w.view.member t id).isSome)
    : (v.view.member t id).isSome
      ∨ names env.c id body = true ∧ 0 < w.writes
        ∧ ∃ chain, IsChain v.view t chain ∧ bannedIn v.view chain id = false := by
  cases outcome with
  | skipped => exact .inl there
  | memberAdd other top decides absent free =>
      rw [(memberAdd_roster x v other).member, View.setMember_member] at there
      split at there
      · rename_i here
        obtain ⟨rfl, rfl⟩ := here
        exact .inr ⟨by simp [names], Nat.zero_lt_of_lt (memberAdd_counts x v id), [], .top,
          by simp [bannedIn, free]⟩
      · exact .inl there
  | memberRemove d =>
      rw [(memberRemove_roster _ x v sound.tree d).member] at there
      refine .inl ?_
      simp only [View.dropped, View.setMember_member] at there
      split at there
      · cases there
      · split at there
        · cases there
        · exact there
  | roleDefine d defines => exact .inl there
  | roleSet d plain free =>
      rw [(roleSet_roster x v d).member, View.setMember_member] at there
      split at there
      · rename_i here
        obtain ⟨rfl, rfl⟩ := here
        exact .inr ⟨by simp [names], Nat.zero_lt_of_lt (roleSet_counts env x v d), x.chain,
          fits.path, free⟩
      · exact .inl there
  | ban d other =>
      obtain ⟨ban, same⟩ := ban_roster env x v other d
      rw [same.member] at there
      refine .inl ?_
      unfold Effect.banned at there
      split at there
      · exact there
      · simp only [View.setMember_member] at there
        split at there
        · cases there
        · exact there
  | dropAll d other => exact .inl ((dropAll_roster x v other d).member ▸ there)
  | unban d other => exact .inl there
  | redeem redemption r device inviteId found still =>
      by_cases proto : r.invite.role ∈ objectPrototype
      · exact .inl ((SameRoster.onlyNotes (still proto)).member ▸ there)
      · rcases (redeem_letsIn sound fits found proto).given t id there with before | ⟨rfl, open_⟩
        · exact .inl before
        · obtain ⟨read, _⟩ := of_accepted found
          exact .inr ⟨by simp [names, read], Nat.succ_pos _, open_⟩
  | revoke invite inv inviteId => exact .inl there
  | writerAdd d info => exact .inl ((writerAdd_roster v info d.key).member ▸ there)
  | settings d next w kept same =>
      rw [same] at there
      exact .inl there
  | subspaceCreate d decides new w same =>
      rw [same] at there
      exact .inl there
  | deviceRemove d other => exact .inl ((deviceRemove_roster x v other d.device).member ▸ there)
  | notes body w kind frame => exact .inl ((SameRoster.onlyNotes frame).member ▸ there)

/-- Someone is banned now who was not only by a ban of them in that scope. -/
theorem Outcome.bannedBy (outcome : Outcome env x v body w) (sound : v.view.Sound)
    (fits : x.Fits v.view) {scope : Scope} {id : Key} (out : (w.view.banned scope id).isSome)
    : (v.view.banned scope id).isSome
      ∨ scope = x.scope ∧ ∃ d, body = .moderate d ∧ d.action = "ban" ∧ d.target = some id
        ∧ w = Effect.ban env x id d v ∧ bans v.view x id = true := by
  cases outcome with
  | skipped => exact .inl out
  | memberAdd other => exact .inl ((memberAdd_roster x v other).banned ▸ out)
  | memberRemove d => exact .inl ((memberRemove_roster _ x v sound.tree d).banned ▸ out)
  | roleDefine d defines => exact .inl out
  | roleSet d => exact .inl ((roleSet_roster x v d).banned ▸ out)
  | ban d other action target moderates bans =>
      obtain ⟨ban, same⟩ := ban_roster env x v other d
      have entry : (Effect.banned x other ban v.view).banned
          = (v.view.setBanned x.scope other (some ban)).banned := by
        unfold Effect.banned
        split <;> rfl
      rw [same.banned, entry, View.setBanned_banned] at out
      split at out
      · rename_i here
        obtain ⟨rfl, rfl⟩ := here
        exact .inr ⟨rfl, d, rfl, action, target, rfl, bans⟩
      · exact .inl out
  | dropAll d other => exact .inl ((dropAll_roster x v other d).banned ▸ out)
  | unban d other =>
      simp only [Counting.write_view, View.setBanned_banned] at out
      split at out
      · cases out
      · exact .inl out
  | redeem redemption r device inviteId found still =>
      by_cases proto : r.invite.role ∈ objectPrototype
      · exact .inl ((SameRoster.onlyNotes (still proto)).banned ▸ out)
      · exact .inl ((redeem_letsIn sound fits found proto).banned ▸ out)
  | revoke invite inv inviteId => exact .inl out
  | writerAdd d info => exact .inl ((writerAdd_roster v info d.key).banned ▸ out)
  | settings d next w kept same =>
      rw [same] at out
      exact .inl out
  | subspaceCreate d decides new w same =>
      rw [same] at out
      exact .inl out
  | deviceRemove d other => exact .inl ((deviceRemove_roster x v other d.device).banned ▸ out)
  | notes body w kind frame => exact .inl ((SameRoster.onlyNotes frame).banned ▸ out)

end Adds

-- One node

theorem Cleared.roster {v w : View} {scope : Scope} {id : Key} (cleared : Cleared v scope id)
    (same : SameRoster v w)
    : Cleared w scope id := by
  rintro t ⟨chain, path, met⟩
  rw [same.member]
  exact cleared t ⟨chain, same.isChain.mp path, met⟩

/-- A node whose decision counts is a ban of an identity in a scope. -/
def CountedBan (env : Env) (v : View) (node : Node) (scope : Scope) (id : Key) : Prop :=
  ∃ d m, Counts env v node d ∧ d.scope = scope ∧ d.decision.body = .moderate m
    ∧ m.action = "ban" ∧ m.target = some id

/-- A node whose decision counts names an identity as one to let in. -/
def LetIn (env : Env) (v : View) (node : Node) (id : Key) : Prop :=
  ∃ d, Counts env v node d ∧ names env.c id d.decision.body = true

/-- Whoever is banned in a scope has no entry of its own there nor below. -/
def BansClear (v : View) : Prop :=
  ∀ scope id, (v.banned scope id).isSome → Cleared v scope id

/-- A ban has nothing to leave: the banned identity has no entry below the scope, and one in
the scope itself only if a role of theirs counts there.
-/
def LeavesNothing (v : View) (chain : List Key) (scope : Scope) (id : Key) : Prop :=
  (∀ t, t ≠ scope → AtOrBelow v scope t → v.member t id = none)
    ∧ (State.member v chain id = none → v.member scope id = none)

/-- Each ban a node makes has nothing to leave. -/
def BanClears (env : Env) (v : View) (node : Node) : Prop :=
  ∀ d m writer chain id, readNode env.c node.value = some d → d.decision.body = .moderate m
    → m.action = "ban" → m.target = some id → v.writer node.from_ = some writer
    → chainHere v d = some chain
    → bans v (contextAt v chain writer d.decision.stamp (env.codeOf node)) id = true
    → LeavesNothing v chain d.scope id

section Steps

variable {env : Env} {x : Context} {v w : Counting} {body : Body}

/-- Where an identity is cleared it stays so, but for decisions that let it in. -/
theorem Outcome.cleared (outcome : Outcome env x v body w) (sound : v.view.Sound)
    (fits : x.Fits v.view) {scope : Scope} {id : Key} (cleared : Cleared v.view scope id)
    (shut : ∀ t chain, names env.c id body = true → 0 < w.writes → IsChain v.view t chain
      → bannedIn v.view chain id = false → scope ∉ scopesOf chain)
    : Cleared w.view scope id := by
  rintro t ⟨chain, path, met⟩
  by_contra there
  have there := Option.isSome_iff_ne_none.mpr there
  rcases outcome.given sound fits there with before | ⟨named, counts, chain', path', free⟩
  · have known : ∃ chain, IsChain v.view t chain := by
      cases t with
      | none => exact ⟨[], .top⟩
      | some s => exact sound.tree.chain s (sound.members s id before)
    obtain ⟨chain', path'⟩ := known
    cases path.unique (outcome.chains sound fits path')
    rw [cleared t ⟨chain, path', met⟩] at before
    cases before
  · cases path.unique (outcome.chains sound fits path')
    exact shut t chain named counts path' free met

theorem ban_clears {id : Key} {d : Moderate}
    (leaves : LeavesNothing v.view x.chain x.scope id)
    : Cleared (Effect.ban env x id d v).view x.scope id := by
  obtain ⟨ban, same⟩ := ban_roster env x v id d
  rintro t ⟨chain, path, met⟩
  have spaces : (Effect.banned x id ban v.view).subspace = v.view.subspace := by
    unfold Effect.banned
    split <;> rfl
  have path' := path.congr (same.subspace.trans spaces).symm
  rw [same.member]
  unfold Effect.banned
  by_cases here : t = x.scope
  · subst here
    split
    · rename_i absent
      exact leaves.2 (by simpa using absent)
    · simp
  · have below := leaves.1 t here ⟨chain, path', met⟩
    split
    · exact below
    · simp [here, below]

theorem Outcome.bansClear (outcome : Outcome env x v body w) (sound : v.view.Sound)
    (fits : x.Fits v.view) (clear : BansClear v.view)
    (leaves : ∀ m id, body = .moderate m → m.action = "ban" → m.target = some id
      → bans v.view x id = true → LeavesNothing v.view x.chain x.scope id)
    : BansClear w.view := by
  intro scope id out
  rcases outcome.bannedBy sound fits out with before | ⟨rfl, m, same, action, target, rfl, bans⟩
  · refine outcome.cleared sound fits (clear scope id before) fun t chain _ _ path free met => ?_
    rw [bannedIn, List.any_eq_false] at free
    exact free scope met before
  · exact ban_clears (leaves m id same action target bans)

end Steps

-- Runs

section Runs

variable {env : Env} {v w : View} {node : Node} {scope : Scope} {id : Key}

theorem NodeStep.bansClear (step : NodeStep env v node w) (sound : v.Sound)
    (clears : BanClears env v node) (clear : BansClear v)
    : BansClear w := by
  cases step with
  | unread bad => exact clear
  | read d reads applied came did w frame =>
      have same := SameRoster.onlyNotes frame.onlyNotes
      intro scope id out
      refine Cleared.roster ?_ same
      rw [same.banned] at out
      revert out
      revert scope id
      cases did with
      | skipped => exact clear
      | begun init body info unbegun applied same =>
          intro scope id out
          rw [same] at out
          simp [Effect.begin, (sound.blank unbegun).banned] at out
      | decided other writer known chain here applied outcome =>
          have path := chainHere_path sound.tree here
          have scope : (contextAt v chain writer d.decision.stamp (env.codeOf node)).scope
              = d.scope := path.head?
          refine outcome.bansClear (v := { view := v }) sound (contextAt_fits path _ _ _) clear
            fun m id body action target bans => ?_
          rw [scope]
          exact clears d m writer chain id reads body action target known here bans

theorem NodeStep.begun (step : NodeStep env v node w) (sound : v.Sound)
    (begun : (v.metaOf none).isSome)
    : (w.metaOf none).isSome := by
  cases step with
  | unread bad => exact begun
  | read d reads applied came did w frame =>
      rw [(SameRoster.onlyNotes frame.onlyNotes).metaOf]
      cases did with
      | skipped => exact begun
      | begun init body info unbegun applied same =>
          rw [unbegun] at begun
          cases begun
      | decided other writer known chain here applied outcome =>
          exact outcome.begun (v := { view := v }) sound
            (contextAt_fits (chainHere_path sound.tree here) _ _ _) begun

/-- Where an identity is cleared it stays so, until a decision that counts names it. -/
theorem NodeStep.cleared (step : NodeStep env v node w) (sound : v.Sound)
    (begun : (v.metaOf none).isSome) (shut : ¬LetIn env v node id)
    (cleared : Cleared v scope id)
    : Cleared w scope id := by
  cases step with
  | unread bad => exact cleared
  | read d reads applied came did w frame =>
      refine Cleared.roster ?_ (.onlyNotes frame.onlyNotes)
      cases did with
      | skipped => exact cleared
      | begun init body info unbegun applied same =>
          rw [unbegun] at begun
          cases begun
      | decided other writer known chain here applied outcome =>
          exact outcome.cleared (v := { view := v }) sound
            (contextAt_fits (chainHere_path sound.tree here) _ _ _) cleared
            fun _ _ named counts _ _ => absurd ⟨d, ⟨reads, applied, came, counts⟩, named⟩ shut

/-- After a ban that counts the banned identity is cleared: at once, or because it was
banned already.
-/
theorem CountedBan.cleared (ban : CountedBan env v node scope id) (sound : v.Sound)
    (ran : applyNode env v node = .ok w) (clears : BanClears env v node) (clear : BansClear v)
    : Cleared w scope id ∧ (v.metaOf none).isSome := by
  obtain ⟨d, m, counts, rfl, body, action, target⟩ := ban
  obtain ⟨writer, chain, applied, known, here, writes, outcome, frame⟩ :=
    counts.decided sound ran (by simp [body])
  refine ⟨?_, sound.begun_of_writer known⟩
  have path := chainHere_path sound.tree here
  have fits := contextAt_fits path writer d.decision.stamp (env.codeOf node)
  have scope : (contextAt v chain writer d.decision.stamp (env.codeOf node)).scope
      = d.scope := path.head?
  have kept := outcome.bansClear (v := { view := v }) sound fits clear
    fun m id body action target bans => by
      rw [scope]
      exact clears d m writer chain id counts.reads body action target known here bans
  refine Cleared.roster (kept d.scope id ?_) (.onlyNotes frame.onlyNotes)
  rw [body] at outcome
  cases outcome with
  | skipped => cases writes
  | ban m id' action target' moderates bans =>
      cases Option.some.inj (target.symm.trans target')
      obtain ⟨ban, same⟩ := ban_roster env
        (contextAt v chain writer d.decision.stamp (env.codeOf node)) { view := v } id m
      rw [same.banned, ← scope]
      unfold Effect.banned
      split <;> simp
  | dropAll m id' action target' banned all =>
      cases Option.some.inj (target.symm.trans target')
      rw [(dropAll_roster _ _ id m).banned, ← scope]
      exact banned
  | unban m id' other =>
      rw [action] at other
      exact absurd other (by decide)
  | notes body w kind frame => simp [noteKind, action] at kind

/-- In any run whose bans each have nothing to leave: no one banned in a scope has an entry
there, and after a ban that counts, as long as no decision that counts lets them in, the banned
identity has no entry in that scope nor below it, whether the ban stands or not.
-/
theorem bans_give_nothing {nodes : List Node}
    (clears : EachNode env (BanClears env) View.empty nodes)
    (ran : applyNodes env nodes View.empty = .ok w)
    : (∀ scope id, (w.banned scope id).isSome → w.member scope id = none)
      ∧ ∀ before ban after v u scope id, nodes = before ++ ban :: after
        → applyNodes env before View.empty = .ok v → applyNode env v ban = .ok u
        → CountedBan env v ban scope id → EachNode env (fun v node => ¬LetIn env v node id) u after
        → ∀ t, AtOrBelow w scope t → w.member t id = none := by
  have empty : BansClear View.empty := fun scope id out => by simp [View.empty] at out
  have keeps {nodes : List Node} {w : View}
      (clears : EachNode env (BanClears env) View.empty nodes)
      (ran : applyNodes env nodes View.empty = .ok w) : w.Sound ∧ BansClear w :=
    applyNodes_keeps_each (BanClears env) BansClear
      (fun v node w sound clears clear step => step.bansClear sound clears clear) .empty empty
      clears ran
  constructor
  · intro scope id out
    obtain ⟨sound, clear⟩ := keeps clears ran
    have known : ∃ chain, IsChain w scope chain := by
      cases scope with
      | none => exact ⟨[], .top⟩
      | some s => exact sound.tree.chain s (sound.bans s id out)
    obtain ⟨chain, path⟩ := known
    refine clear scope id out scope ⟨chain, path, ?_⟩
    cases path <;> simp
  · rintro before ban after v u scope id rfl earlier now counted shut
    obtain ⟨sound, clear⟩ := keeps clears.start earlier
    have step := applyNode_step sound now
    obtain ⟨cleared, begun⟩ := counted.cleared sound now
      (clears before ban after v rfl earlier) clear
    have later : applyNodes env after u = .ok w := by
      rwa [applyNodes_append, earlier, ok_bind, applyNodes_cons, now] at ran
    exact (applyNodes_keeps_each (fun v node => ¬LetIn env v node id)
      (fun v => Cleared v scope id ∧ (v.metaOf none).isSome)
      (fun v node w sound shut kept step =>
        ⟨step.cleared sound kept.2 shut kept.1, step.begun sound kept.2⟩)
      (step.sound sound) ⟨cleared, step.begun sound begun⟩ shut later).2.1

end Runs

-- A guest banned above, and let back in

/-- What a node bans from the whole space is a member of it, and of no sub-space listed. -/
def bansMembers (v : View) (node : Node) : Bool :=
  (readNode compact node.value).all fun d =>
    match d.decision.body with
    | .moderate m =>
        d.scope = none && m.target.all fun id =>
          (v.subspaces.getD []).all (fun s => (v.member (some s) id).isNone) && (State.member v [] id).isSome
    | _ => true

theorem banClears_of_members {space : Key} {v : View} {node : Node} (sound : v.Sound)
    (members : bansMembers v node = true)
    : BanClears (idealEnv space) v node := by
  intro d m writer chain id reads body _ target _ here _
  unfold bansMembers at members
  rw [show readNode compact node.value = some d from reads, Option.all_some] at members
  simp only [body, target, Option.all_some, Bool.and_eq_true, decide_eq_true_eq, List.all_eq_true,
    Option.isNone_iff_eq_none] at members
  obtain ⟨scope, listed, role⟩ := members
  have path := chainHere_path sound.tree here
  rw [scope] at path ⊢
  cases path
  refine ⟨fun t other => ?_, fun absent => ?_⟩
  · rintro ⟨chain, path, _⟩
    cases t with
    | none => exact absurd rfl other
    | some s => exact listed s (sound.tree.listed s (path.recorded s (by cases path; simp)))
  · rw [absent] at role
    cases role

/-- A moderation of someone, without a cut. -/
def moderation (action : String) (id : Key) : Body :=
  .moderate { action := action, target := some id, reason := "", cut := [], drop := none }

/-- Someone is made a member of a sub-space, and someone else of the space and banned. -/
def bannedLog : List Node :=
  let space := keyOf 1
  [sent space 1 (initial space (keyOf 10) (keyOf 11)),
    sent space 2 (.subspaceCreate {
      key := keyOf 5
      name := "room"
      priv := false
      writeRoles := [] }),
    sentIn (keyOf 5) space 3 (.roleSet { identity := keyOf 21, role := "member", cut := [] }),
    sent space 4 (.memberAdd (keyOf 20)),
    sent space 5 (moderation "ban" (keyOf 20))]

/-- Witness: a member of the top space banned, while another is of a sub-space. -/
theorem bans_give_nothing_top
    : ∃ w, applyNodes (idealEnv (keyOf 1)) bannedLog View.empty = .ok w
      ∧ (w.banned none (keyOf 20)).isSome ∧ (w.member (some (keyOf 5)) (keyOf 21)).isSome
      ∧ ∀ scope id, (w.banned scope id).isSome → w.member scope id = none := by
  have ends : (applyNodes (idealEnv (keyOf 1)) bannedLog View.empty).toOption.any (fun w =>
      (w.banned none (keyOf 20)).isSome && (w.member (some (keyOf 5)) (keyOf 21)).isSome) = true := by
    decide +kernel
  have members (n : Nat) (short : n < 5) : (applyNodes (idealEnv (keyOf 1)) (bannedLog.take n)
      View.empty).toOption.all (fun w => bannedLog[n]?.all (bansMembers w)) = true := by
    revert short n
    decide +kernel
  obtain ⟨w, ran, entries⟩ := (Option.any_eq_true _ _).mp ends
  have ran := ok_of_toOption ran
  obtain ⟨banned, guest⟩ := Bool.and_eq_true_iff.mp entries
  refine ⟨w, ran, banned, guest, (bans_give_nothing (fun before node after v split came => ?_) ran).1⟩
  have start : before = bannedLog.take before.length := by rw [split]; simp
  have short : before.length < 5 := by
    have length := congrArg List.length split
    simp only [bannedLog, List.length_cons, List.length_nil, List.length_append] at length
    omega
  have here := members before.length short
  rw [← start, came, split, List.getElem?_append_right (le_refl _), Nat.sub_self] at here
  exact banClears_of_members (Reachable.sound ⟨before, came⟩) here

/-- Someone is made a member of one sub-space alone. -/
def guestLog : List Node :=
  let space := keyOf 1
  [sent space 1 (initial space (keyOf 10) (keyOf 11)),
    sent space 2 (.subspaceCreate {
      key := keyOf 5
      name := "room"
      priv := false
      writeRoles := [] }),
    sentIn (keyOf 5) space 3 (.roleSet { identity := keyOf 20, role := "member", cut := [] })]

/-- A guest of a sub-space banned from the whole space keeps their entry there, and has its
role again once the ban is lifted.
-/
theorem bans_give_back
    : ∃ v u w, Reachable (idealEnv (keyOf 1)) v
      ∧ applyNode (idealEnv (keyOf 1)) v (sent (keyOf 1) 4 (moderation "ban" (keyOf 20))) = .ok u
      ∧ CountedBan (idealEnv (keyOf 1)) v (sent (keyOf 1) 4 (moderation "ban" (keyOf 20))) none
        (keyOf 20)
      ∧ EachNode (idealEnv (keyOf 1)) (fun v node => ¬LetIn (idealEnv (keyOf 1)) v node (keyOf 20))
        u [sent (keyOf 1) 5 (moderation "unban" (keyOf 20))]
      ∧ applyNodes (idealEnv (keyOf 1)) [sent (keyOf 1) 5 (moderation "unban" (keyOf 20))] u
        = .ok w
      ∧ AtOrBelow w none (some (keyOf 5)) ∧ (w.member (some (keyOf 5)) (keyOf 20)).isSome
      ∧ (State.member w [keyOf 5] (keyOf 20)).isSome := by
  have reads : readNode compact (sent (keyOf 1) 4 (moderation "ban" (keyOf 20))).value
      = some ⟨⟨4, moderation "ban" (keyOf 20)⟩, none, false⟩ := by decide +kernel
  have readsLift : readNode compact (sent (keyOf 1) 5 (moderation "unban" (keyOf 20))).value
      = some ⟨⟨5, moderation "unban" (keyOf 20)⟩, none, false⟩ := by decide +kernel
  have facts : ((applyNodes (idealEnv (keyOf 1)) guestLog View.empty).toOption.bind fun v =>
      (applyIncoming (idealEnv (keyOf 1)) v (sent (keyOf 1) 4 (moderation "ban" (keyOf 20)))
        ⟨⟨4, moderation "ban" (keyOf 20)⟩, none, false⟩).toOption.bind fun a =>
      (applyNode (idealEnv (keyOf 1)) v
        (sent (keyOf 1) 4 (moderation "ban" (keyOf 20)))).toOption.bind fun u =>
      (applyNodes (idealEnv (keyOf 1)) [sent (keyOf 1) 5 (moderation "unban" (keyOf 20))]
        u).toOption.map fun w =>
      decide (0 < a.writes) && (w.subspace (keyOf 5)).isSome
        && (w.member (some (keyOf 5)) (keyOf 20)).isSome
        && (State.member w [keyOf 5] (keyOf 20)).isSome) = some true := by
    decide +kernel
  simp only [Option.bind_eq_some_iff, Option.map_eq_some_iff, Bool.and_eq_true,
    decide_eq_true_eq] at facts
  obtain ⟨v, first, a, applied, u, second, w, third, ⟨⟨counts, room⟩, entry⟩, role⟩ := facts
  have start : Reachable (idealEnv (keyOf 1)) v := ⟨guestLog, ok_of_toOption first⟩
  have reached := (start.node (ok_of_toOption second)).later (ok_of_toOption third)
  obtain ⟨chain, path⟩ := reached.sound.tree.chain (keyOf 5) room
  refine ⟨v, u, w, start, ok_of_toOption second, ?_, ?_, ok_of_toOption third,
    ⟨chain, path, none_mem_scopesOf chain⟩, entry, role⟩
  · exact ⟨_, _, ⟨reads, a, ok_of_toOption applied, counts⟩, rfl, rfl, rfl, rfl⟩
  · refine (eachNode_cons (applyNodes_single ▸ ok_of_toOption third)).mpr ⟨?_, ?_⟩
    · rintro ⟨d, ⟨reads', _⟩, named⟩
      cases Option.some.inj (readsLift.symm.trans reads')
      exact absurd named (by decide)
    · exact fun before node after u split => by simp at split

end Hypergraph.Decisions
