import Hypergraph.Decisions.Bans

/-! How the tree of sub-spaces grows: only `subspace/create` writes it, and what it adds stands
under a sub-space there already, so every parent was recorded before its children.
-/

namespace Hypergraph.Decisions

open Wire Js Encodings Invites

-- The same tree

/-- The sub-spaces, and the list of them, are the same. -/
structure SameTree (v w : View) : Prop where
  subspace : w.subspace = v.subspace
  subspaces : w.subspaces = v.subspaces

namespace SameTree

variable {u v w : View}

@[refl]
theorem refl (v : View) : SameTree v v := ⟨rfl, rfl⟩

theorem trans (first : SameTree u v) (second : SameTree v w) : SameTree u w :=
  ⟨second.subspace.trans first.subspace, second.subspaces.trans first.subspaces⟩

theorem roster (same : SameRoster v w) : SameTree v w := ⟨same.subspace, same.subspaces⟩

theorem ofRoster (same : SameRoster u w) (subspace : u.subspace = v.subspace)
    (subspaces : u.subspaces = v.subspaces)
    : SameTree v w :=
  ⟨same.subspace.trans subspace, same.subspaces.trans subspaces⟩

theorem onlyListed (frame : v.OnlyListed w) : SameTree v w := by
  constructor <;> rw [frame]

end SameTree

section Steps

variable {env : Env} {x : Context} {v w : Counting}

theorem enter_tree (r : Redemption) (device : Key)
    : SameTree v.view (Effect.enter env x r device v).1.view := by
  unfold Effect.enter
  split
  · exact .ofRoster (arrive_roster env x v r device) rfl rfl
  · rfl

theorem routes_tree (inv : Invite) (id : Key) (custom : Custom) (list : List Key)
    : SameTree v.view (list.foldl (Effect.route x inv id custom) v).view := by
  refine foldl_keeps (fun u : Counting => SameTree v.view u.view) _ (fun u key same => ?_)
    list v (.refl _)
  rcases route_cases (x := x) inv id custom u key with still | cuts
  · rwa [still]
  · exact same.trans (.ofRoster (.onlyCuts cuts) rfl rfl)

/-- Only creating a sub-space changes the tree. -/
theorem Outcome.tree {body : Body} (outcome : Outcome env x v body w) (sound : v.view.Sound)
    : SameTree v.view w.view
      ∨ ∃ d, body = .subspaceCreate d ∧ v.view.subspace d.key = none
        ∧ w.view = Effect.subspaceCreate x d v.view := by
  cases outcome with
  | skipped => exact .inl (.refl _)
  | memberAdd id => exact .inl (.ofRoster (memberAdd_roster x v id) rfl rfl)
  | memberRemove d => exact .inl (.ofRoster (memberRemove_roster _ x v sound.tree d) rfl rfl)
  | roleDefine d => exact .inl ⟨rfl, rfl⟩
  | roleSet d => exact .inl (.ofRoster (roleSet_roster x v d) rfl rfl)
  | ban d id =>
      obtain ⟨ban, same⟩ := ban_roster env x v id d
      refine .inl (.trans ?_ (.roster same))
      unfold Effect.banned
      split <;> exact ⟨rfl, rfl⟩
  | dropAll d id => exact .inl (.roster (dropAll_roster x v id d))
  | unban d id => exact .inl ⟨rfl, rfl⟩
  | redeem redemption r device inviteId found still =>
      exact .inl (((enter_tree r device).trans (routes_tree (x := x) r.invite r.identity
        (Effect.enter env x r device v).2 r.invite.subspaces)).trans ⟨rfl, rfl⟩)
  | revoke invite inv inviteId => exact .inl ⟨rfl, rfl⟩
  | writerAdd d info => exact .inl (.roster (writerAdd_roster v info d.key))
  | settings d next w kept same => exact .inl (by rw [same]; exact ⟨rfl, rfl⟩)
  | subspaceCreate d decides new w same => exact .inr ⟨d, rfl, new, same⟩
  | deviceRemove d id => exact .inl (.roster (deviceRemove_roster x v id d.device))
  | notes body w kind frame => exact .inl (.roster (.onlyNotes frame))

end Steps

section Node

variable {env : Env} {v w : View} {node : Node}

/-- A node leaves the tree, or creates a sub-space in a scope of it. -/
theorem NodeStep.tree (step : NodeStep env v node w) (sound : v.Sound)
    : SameTree v w
      ∨ ∃ d created x, readNode env.c node.value = some d
        ∧ d.decision.body = .subspaceCreate created ∧ IsChain v x.scope x.chain
        ∧ v.subspace created.key = none ∧ SameTree (Effect.subspaceCreate x created v) w := by
  cases step with
  | unread bad => exact .inl (.refl v)
  | read d reads applied came did w frame =>
      cases did with
      | skipped => exact .inl (.onlyListed frame)
      | begun init body info unbegun applied same =>
          exact .inl (.trans (same ▸ ⟨rfl, rfl⟩) (.onlyListed frame))
      | decided other writer known chain here applied outcome =>
          have path := chainHere_path sound.tree here
          rcases outcome.tree (v := { view := v }) sound with
            same | ⟨created, body, new, same⟩
          · exact .inl (same.trans (.onlyListed frame))
          · exact .inr ⟨d, created, _, reads, body, (contextAt_fits path writer _ _).path, new,
              same ▸ SameTree.onlyListed frame⟩

/-- A sub-space recorded stays recorded, the same. -/
theorem NodeStep.spaces (step : NodeStep env v node w) (sound : v.Sound) {s : Key}
    {info : Subspace} (found : v.subspace s = some info)
    : w.subspace s = some info := by
  rcases step.tree sound with same | ⟨d, created, x, _, _, _, new, same⟩
  · rw [same.subspace, found]
  · rw [same.subspace]
    have other : s ≠ created.key := by
      intro is
      rw [is, new] at found
      cases found
    simpa [Effect.subspaceCreate, other] using found

end Node

-- Parents first

/-- Every parent recorded is a sub-space listed before. -/
def View.ParentsFirst (v : View) : Prop :=
  ∀ before s after info parent, v.subspaces.getD [] = before ++ s :: after
    → v.subspace s = some info → info.parent = some parent → parent ∈ before

section ParentsFirst

variable {env : Env} {v w : View} {node : Node}

theorem View.ParentsFirst.congr (first : v.ParentsFirst) (same : SameTree v w) : w.ParentsFirst := by
  intro before s after info parent split found up
  rw [same.subspaces] at split
  rw [same.subspace] at found
  exact first before s after info parent split found up

theorem View.ParentsFirst.subspaceCreate (first : v.ParentsFirst) (sound : v.Sound) {x : Context}
    (path : IsChain v x.scope x.chain) {d : SubspaceCreate} (new : v.subspace d.key = none)
    : (Effect.subspaceCreate x d v).ParentsFirst := by
  intro before s after info parent split found up
  have list : v.subspaces.getD [] ++ [d.key] = before ++ s :: after := split
  rcases List.eq_nil_or_concat after with rfl | ⟨after, final, rfl⟩
  · obtain ⟨rfl, last⟩ := List.append_inj' list rfl
    cases List.singleton_inj.mp last
    have made : info.parent = x.scope := by
      have here : (Effect.subspaceCreate x d v).subspace d.key = some ⟨d.name, d.priv,
          (d.writeRoles.filter (· ≠ "")).eraseDups, x.scope, x.author, x.stamp⟩ := by
        simp [Effect.subspaceCreate]
      rw [← Option.some.inj (here.symm.trans found)]
    rw [made] at up
    have head := path.head?
    rw [up] at head
    exact sound.tree.listed parent (path.recorded parent (List.mem_of_mem_head? head))
  · rw [List.concat_eq_append, ← List.cons_append, ← List.append_assoc] at list
    obtain ⟨earlier, _⟩ := List.append_inj' list rfl
    have known : (v.subspace s).isSome := sound.tree.known s (by rw [earlier]; simp)
    have other : s ≠ d.key := by
      intro is
      rw [is, new] at known
      cases known
    exact first before s after info parent earlier
      (by simpa [Effect.subspaceCreate, other] using found) up

theorem NodeStep.parentsFirst (step : NodeStep env v node w) (sound : v.Sound)
    (first : v.ParentsFirst)
    : w.ParentsFirst := by
  rcases step.tree sound with same | ⟨d, created, x, _, _, path, new, same⟩
  · exact first.congr same
  · exact (first.subspaceCreate sound path new).congr same

theorem Reachable.parentsFirst (reached : Reachable env v) : v.ParentsFirst := by
  obtain ⟨nodes, ran⟩ := reached
  refine (applyNodes_keeps View.ParentsFirst (fun v node w sound first step =>
    step.parentsFirst sound first) .empty ?_ ran).2
  intro before s after info parent split
  cases before <;> cases split

end ParentsFirst

-- Ancestors

/-- One scope is the parent of another. -/
def Parent (v : View) (scope parent : Scope) : Prop :=
  ∃ s info, scope = some s ∧ v.subspace s = some info ∧ info.parent = parent

/-- What is above a scope: its parent, or above its parent. -/
def Ancestor (v : View) : Scope → Scope → Prop := Relation.TransGen (Parent v)

section Ancestor

variable {v : View}

/-- Above a sub-space stand just those its chain goes on with, and the top space. -/
theorem ancestor_iff {scope : Scope} {chain : List Key} (path : IsChain v scope chain)
    {top : Scope}
    : Ancestor v scope top ↔ ∃ s up, chain = s :: up ∧ top ∈ scopesOf up := by
  constructor
  · intro above
    induction above using Relation.TransGen.head_induction_on generalizing chain with
    | single parent =>
        obtain ⟨s, info, rfl, found, rfl⟩ := parent
        obtain ⟨t, up, rfl⟩ : ∃ t up, chain = t :: up := by
          cases path with
          | sub info found above fresh => exact ⟨_, _, rfl⟩
        obtain ⟨info', found', upper, same⟩ := path.tail
        cases same
        cases Option.some.inj (found.symm.trans found')
        exact ⟨s, up, rfl, upper.scope_mem⟩
    | head parent _ ih =>
        obtain ⟨s, info, rfl, found, rfl⟩ := parent
        obtain ⟨t, up, rfl⟩ : ∃ t up, chain = t :: up := by
          cases path with
          | sub info found above fresh => exact ⟨_, _, rfl⟩
        obtain ⟨info', found', upper, same⟩ := path.tail
        cases same
        cases Option.some.inj (found.symm.trans found')
        obtain ⟨t, rest, rfl, member⟩ := ih upper
        exact ⟨s, t :: rest, rfl, by simp [member]⟩
  · intro on
    obtain ⟨s, up, rfl, member⟩ := on
    induction up generalizing scope s with
    | nil =>
        obtain ⟨info, found, upper, rfl⟩ := path.tail
        have same : top = none := by simpa using member
        exact .single ⟨s, info, rfl, found, same ▸ upper.head?.symm⟩
    | cons t rest ih =>
        obtain ⟨info, found, upper, rfl⟩ := path.tail
        have parent : Parent v (some s) info.parent := ⟨s, info, rfl, found, rfl⟩
        have is : info.parent = some t := upper.head?.symm
        rcases List.mem_cons.mp (show top ∈ some t :: scopesOf rest by simpa using member) with
          here | later
        · rw [here, ← is]
          exact .single parent
        · exact .head parent (ih t later upper)

/-- `below` says whether a scope stands above a sub-space; a key that is none has nothing above. -/
theorem belowAt_iff_ancestor (tree : v.Tree) {s : Key} {top : Scope}
    : belowAt v s top = true ↔ Ancestor v (some s) top := by
  rw [belowAt_iff tree]
  constructor
  · intro on
    obtain ⟨up, path, member⟩ := on
    exact (ancestor_iff path).mpr ⟨s, up, rfl, member⟩
  · intro above
    have recorded : (v.subspace s).isSome := by
      obtain ⟨parent, ⟨s', info, same, found, _⟩, _⟩ := Relation.TransGen.head'_iff.mp above
      cases same
      rw [found]
      rfl
    obtain ⟨chain, path⟩ := tree.chain s recorded
    obtain ⟨t, up, rfl, member⟩ := (ancestor_iff path).mp above
    obtain ⟨_, _, _, same⟩ := path.tail
    cases same
    exact ⟨up, path, member⟩

end Ancestor

end Hypergraph.Decisions
