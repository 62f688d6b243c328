import Hypergraph.Decisions.Rebuilt

/-! What the order decides by and what readers ask agree: `memberIn` and `bannedIn` of a view
against the state built of its entries, over the tree of sub-spaces that both climb.
-/

namespace Hypergraph.Decisions

open Wire Js Encodings Readers

-- The tree

/-- The chain of a scope: of the top space none, of a sub-space what `chainOf` finds. -/
def chainIn (v : View) : Scope → Run (Option (List Key))
  | none => return some []
  | some s => chainOf v s

/-- A state built of a view's entries shows a scope's: itself, or what `sub` gives. -/
def Shows (s : Readers.State) : Scope → Standing → Prop
  | none, standing => standing = .state s.maps
  | some k, standing => ∃ after, s.Gives (hex k) (some standing) after

/-- Sub-spaces form a tree, and whatever climbs it ends. -/
structure Climbs (v : View) (s : Readers.State) : Prop where
  listed : ∀ k, k ∈ v.subspaces.getD [] ↔ (v.subspace k).isSome
  once : (v.subspaces.getD []).Nodup
  parents : v.ParentsFirst
  chain : ∀ k, (v.subspace k).isSome → ∃ chain, chainOf v k = .ok (some chain)
    ∧ IsChain v (some k) chain ∧ chain ≠ [] ∧ chain.Nodup
  below : ∀ k top, ∃ answer, below (subspacesOf v) k top = .ok answer
    ∧ (answer = true ↔ Ancestor v (some k) top)
  made : ∀ k, (v.subspace k).isSome → ∃ standing, Shows s (some k) standing

section Agreement

variable {env : Env} {v : View} {entries : List (Text × Value)}

theorem shows_of_stands {s : Readers.State} (fresh : s.Fresh) {scope : Scope} {standing : Standing}
    (stands : Stands s scope standing)
    : Shows s scope standing := by
  cases scope with
  | none => exact stands
  | some k =>
      obtain ⟨fuel, after, asked⟩ := sub_of_made fresh stands
      exact ⟨after, fuel, asked⟩

/-- In every view a log leads to, the sub-spaces listed are those recorded, each once, every
parent was recorded before its children, and `chainOf`, `below` and `sub` end: with the chain up
to the top, with whether a scope stands above, and with a state for each sub-space.
-/
theorem subspaces_form_tree (reached : Reachable env v) (fixed : FixedKeys env.c)
    (has : Entries v entries)
    : Climbs v (.ofEntries entries) := by
  have tree := reached.sound.tree
  have built := ofEntries_between (reached.housed fixed) has
  constructor
  · exact fun k => ⟨tree.known k, tree.listed k⟩
  · exact tree.unique
  · exact reached.parentsFirst
  · intro k recorded
    obtain ⟨chain, path⟩ := tree.chain k recorded
    refine ⟨chain, tree.chainOf_eq_chain path, path, ?_, path.nodup⟩
    intro empty
    rw [empty] at path
    cases path
  · intro k top
    exact ⟨belowAt v k top, below_eq tree k top, belowAt_iff_ancestor tree⟩
  · intro k recorded
    obtain ⟨chain, path⟩ := tree.chain k recorded
    obtain ⟨standing, stands⟩ := exists_stands built.keeps path
    exact ⟨standing, shows_of_stands built.fresh stands⟩

end Agreement

/-- Witness: the tree of the owner's space with its sub-space. -/
theorem subspaces_form_tree_garden
    : ∃ w, Reachable (idealEnv (keyOf 1)) w ∧ (w.subspace (keyOf 5)).isSome
      ∧ Climbs w (.ofEntries (topEntries (ownerEntries ++ gardenEntries))) := by
  obtain ⟨v, w, began, _, grown, has⟩ := garden_grows
  have reached : Reachable (idealEnv (keyOf 1)) w := Reachable.later ⟨_, began⟩ grown
  exact ⟨w, reached, garden_recorded has,
    subspaces_form_tree reached fixedKeys_compact (entries_of_list has)⟩

-- Members and bans

section Members

variable {env : Env} {v : View} {entries : List (Text × Value)}

/-- In every view a log leads to, for the top space and every sub-space and whoever is asked
for: the order's `memberIn` along the scope's chain and the readers' `_member` name a member or
neither does, with the same role, and `bannedIn` and `isBanned` say the same.
-/
theorem memberships_agree (reached : Reachable env v) (fixed : FixedKeys env.c)
    (has : Entries v entries) {scope : Scope}
    (recorded : ∀ k, scope = some k → (v.subspace k).isSome) (id : Key)
    : ∃ chain standing member, chainIn v scope = .ok (some chain)
      ∧ Shows (.ofEntries entries) scope standing ∧ memberIn v chain id = .ok member
      ∧ (member = none ↔ standing.memberAt (hex id) = none)
      ∧ member.map Member.role = (standing.memberAt (hex id)).map Kept.role
      ∧ bannedIn v chain id = standing.isBanned id := by
  have sound := reached.sound
  have housed := reached.housed fixed
  have built := ofEntries_between housed has
  obtain ⟨chain, found, path⟩ : ∃ chain, chainIn v scope = .ok (some chain)
      ∧ IsChain v scope chain := by
    cases scope with
    | none => exact ⟨[], rfl, .top⟩
    | some k =>
        obtain ⟨chain, path⟩ := sound.tree.chain k (recorded k rfl)
        exact ⟨chain, sound.tree.chainOf_eq_chain path, path⟩
  obtain ⟨standing, stands⟩ := exists_stands built.keeps path
  have reads := stands.reads built.keeps housed.long path
  refine ⟨chain, standing, State.member v chain id, found, shows_of_stands built.fresh stands,
    memberIn_eq sound.topBan path.recorded id, ?_, ?_, (reads.banned id).symm⟩
  · rw [reads.member, Option.map_eq_none_iff]
  · rw [reads.member, Option.map_map]
    rfl

end Members

/-- Witness: the owner is the owner in the sub-space too, whoever is asked. -/
theorem memberships_agree_garden
    : ∃ w chain standing member, chainIn w (some (keyOf 5)) = .ok (some chain)
      ∧ Shows (.ofEntries (topEntries (ownerEntries ++ gardenEntries))) (some (keyOf 5)) standing
      ∧ memberIn w chain (keyOf 10) = .ok member
      ∧ (member = none ↔ standing.memberAt (hex (keyOf 10)) = none)
      ∧ member.map Member.role = (standing.memberAt (hex (keyOf 10))).map Kept.role
      ∧ bannedIn w chain (keyOf 10) = standing.isBanned (keyOf 10) := by
  obtain ⟨v, w, began, _, grown, has⟩ := garden_grows
  have reached : Reachable (idealEnv (keyOf 1)) w := Reachable.later ⟨_, began⟩ grown
  exact ⟨w, memberships_agree reached fixedKeys_compact (entries_of_list has)
    (fun k is => by cases is; exact garden_recorded has) (keyOf 10)⟩

-- Rights

section Rights

variable {env : Env} {v : View} {entries : List (Text × Value)}

/-- A reader's state says of everyone's rights and logs what the decisions do along a chain. -/
structure TellsRights (v : View) (chain : List Key) (standing : Standing) : Prop where
  roleOf : ∀ id, standing.roleOf id = State.roleOf v chain id
  can : ∀ id permission, standing.can id permission = State.can v chain id permission
  canWrite : ∀ id, standing.canWrite id = State.canWrite v chain id
  limitOf : ∀ id log, standing.limitOf id log = State.limitOf v chain id log
  editLimit
    : ∀ id permission log, standing.editLimit id permission log = State.editLimit v chain id permission log
  isCut : ∀ id log, standing.isCut id log = State.isCut v chain id log
  mustAdmit : ∀ id log, standing.mustAdmit id log = State.mustAdmit v chain id log
  admission : ∀ id, standing.admission id = State.admission v chain id

/-- In every view a log leads to, the readers' state of the top space and of every sub-space says who
may do what, and how much of whose log counts, as the decisions do along the scope's chain.
-/
theorem rights_agree (reached : Reachable env v) (fixed : FixedKeys env.c) (has : Entries v entries)
    {scope : Scope} (recorded : ∀ k, scope = some k → (v.subspace k).isSome)
    : ∃ chain standing, chainIn v scope = .ok (some chain)
      ∧ Shows (.ofEntries entries) scope standing ∧ TellsRights v chain standing := by
  have housed := reached.housed fixed
  have built := ofEntries_between housed has
  obtain ⟨chain, found, path⟩ : ∃ chain, chainIn v scope = .ok (some chain)
      ∧ IsChain v scope chain := by
    cases scope with
    | none => exact ⟨[], rfl, .top⟩
    | some k =>
        obtain ⟨chain, path⟩ := reached.sound.tree.chain k (recorded k rfl)
        exact ⟨chain, reached.sound.tree.chainOf_eq_chain path, path⟩
  obtain ⟨standing, stands⟩ := exists_stands built.keeps path
  have reads := stands.reads built.keeps housed.long path
  exact ⟨chain, standing, found, shows_of_stands built.fresh stands, reads.roleOf, reads.can,
    stands.canWrite built.keeps housed.long path, stands.limitOf built.keeps housed.long path,
    reads.editLimit, reads.isCut, reads.mustAdmit, reads.admission⟩

end Rights

/-- Witness: the rights in the owner's sub-space. -/
theorem rights_agree_garden
    : ∃ w chain standing, chainIn w (some (keyOf 5)) = .ok (some chain)
      ∧ Shows (.ofEntries (topEntries (ownerEntries ++ gardenEntries))) (some (keyOf 5)) standing
      ∧ TellsRights w chain standing := by
  obtain ⟨v, w, began, _, grown, has⟩ := garden_grows
  have reached : Reachable (idealEnv (keyOf 1)) w := Reachable.later ⟨_, began⟩ grown
  exact ⟨w, rights_agree reached fixedKeys_compact (entries_of_list has)
    fun k is => by cases is; exact garden_recorded has⟩

end Hypergraph.Decisions
