import Hypergraph.Decisions.State

/-! The tree of sub-spaces in a view, and what the loops that climb it compute there:
`chainOf`, `below` and `memberIn` neither throw nor run on.
-/

namespace Hypergraph.Decisions

open Js Encodings

-- Chains

/-- The sub-spaces from a scope up to the top space, nearest first. -/
inductive IsChain (v : View) : Scope → List Key → Prop
  | top : IsChain v none []
  | sub {s : Key} {up : List Key} (info : Subspace) (found : v.subspace s = some info)
      (above : IsChain v info.parent up) (fresh : s ∉ up)
    : IsChain v (some s) (s :: up)

/-- The sub-spaces a view records form a tree, all of them listed once. -/
structure View.Tree (v : View) : Prop where
  listed : ∀ s, (v.subspace s).isSome → s ∈ v.subspaces.getD []
  known : ∀ s ∈ v.subspaces.getD [], (v.subspace s).isSome
  unique : (v.subspaces.getD []).Nodup
  chain : ∀ s, (v.subspace s).isSome → ∃ chain, IsChain v (some s) chain

namespace IsChain

variable {v : View} {scope : Scope} {chain : List Key}

theorem unique {other : List Key} (first : IsChain v scope chain)
    (second : IsChain v scope other)
    : chain = other := by
  induction first generalizing other with
  | top => cases second; rfl
  | sub info found above fresh ih =>
      cases second with
      | sub info' found' above' fresh' =>
          cases Option.some.inj (found.symm.trans found')
          rw [ih above']

theorem head? (path : IsChain v scope chain) : chain.head? = scope := by
  cases path <;> rfl

theorem eq_nil (path : IsChain v none chain) : chain = [] := by
  cases path
  rfl

theorem nodup (path : IsChain v scope chain) : chain.Nodup := by
  induction path with
  | top => exact List.nodup_nil
  | sub info found above fresh ih => exact List.nodup_cons.mpr ⟨fresh, ih⟩

/-- Every sub-space on a chain is recorded; induction on the chain. -/
theorem recorded (path : IsChain v scope chain) : ∀ s ∈ chain, (v.subspace s).isSome := by
  induction path with
  | top => simp
  | sub info found above fresh ih =>
      intro s member
      rcases List.mem_cons.mp member with rfl | later
      · simp [found]
      · exact ih s later

theorem congr {w : View} (same : w.subspace = v.subspace) (path : IsChain v scope chain)
    : IsChain w scope chain := by
  induction path with
  | top => exact .top
  | sub info found above fresh ih => exact .sub info (same ▸ found) ih fresh

theorem tail {s : Key} {up : List Key} (path : IsChain v scope (s :: up))
    : ∃ info, v.subspace s = some info ∧ IsChain v info.parent up ∧ scope = some s := by
  cases path with
  | sub info found above fresh => exact ⟨info, found, above, rfl⟩

/-- A scope met on the way up has a chain of its own, with what it is made of still on it. -/
theorem suffix {upper : Scope} (path : IsChain v scope chain)
    (met : upper ∈ scopesOf chain)
    : ∃ rest, IsChain v upper rest ∧ rest <:+ chain := by
  induction path with
  | top =>
      have same : upper = none := by simpa [scopesOf] using met
      exact ⟨[], same ▸ .top, List.suffix_refl _⟩
  | @sub s up info found above fresh ih =>
      have cases : upper = some s ∨ upper ∈ scopesOf up := by
        simpa [scopesOf] using met
      rcases cases with same | later
      · exact ⟨s :: up, same ▸ .sub info found above fresh, List.suffix_refl _⟩
      · obtain ⟨rest, restPath, part⟩ := ih later
        exact ⟨rest, restPath, part.trans (List.suffix_cons s up)⟩

end IsChain

@[simp]
theorem scopesOf_nil : scopesOf [] = [none] := rfl

@[simp]
theorem scopesOf_cons (s : Key) (up : List Key) : scopesOf (s :: up) = some s :: scopesOf up :=
  rfl

theorem mem_scopesOf {s : Key} {chain : List Key} : some s ∈ scopesOf chain ↔ s ∈ chain := by
  simp [scopesOf]

@[simp]
theorem none_mem_scopesOf (chain : List Key) : none ∈ scopesOf chain := by
  simp [scopesOf]

theorem IsChain.scope_mem {v : View} {scope : Scope} {chain : List Key}
    (path : IsChain v scope chain)
    : scope ∈ scopesOf chain := by
  cases path <;> simp

-- `chainOf`

/-- The loop reaches the top with the whole chain when it has a step for each of its
sub-spaces; induction on the chain.
-/
theorem chainFrom_eq {v : View} {scope : Scope} {chain : List Key}
    (path : IsChain v scope chain) (fuel : Nat) (seen : List Key)
    (enough : chain.length ≤ fuel) (apart : ∀ s ∈ chain, s ∉ seen)
    : chainFrom v fuel scope seen = .ok (some (seen ++ chain)) := by
  induction path generalizing fuel seen with
  | top => cases fuel <;> simp [chainFrom]
  | @sub s up info found above fresh ih =>
      obtain ⟨fuel, rfl⟩ : ∃ less, fuel = less + 1 := ⟨fuel - 1, by
        simp only [List.length_cons] at enough
        omega⟩
      have new : seen.contains s = false := by simpa using apart s (by simp)
      have next := ih fuel (seen ++ [s]) (by simpa using enough) (by
        intro t member
        have other : t ≠ s := fun same => fresh (same ▸ member)
        simpa [other] using apart t (List.mem_cons_of_mem _ member))
      simp only [chainFrom, found, new, if_false, Bool.false_eq_true, next]
      simp

/-- The chain of a sub-space as a plain function. -/
def chainAt (v : View) (scope : Key) : Option (List Key) :=
  match chainOf v scope with
  | .ok chain => chain
  | .error _ => none

/-- Chains are worked out from the sub-spaces alone; induction on the steps left. -/
theorem chainFrom_congr {v w : View} (spaces : w.subspace = v.subspace) (fuel : Nat)
    (scope : Scope) (seen : List Key)
    : chainFrom w fuel scope seen = chainFrom v fuel scope seen := by
  induction fuel generalizing scope seen with
  | zero => cases scope <;> rfl
  | succ fuel ih =>
      cases scope with
      | none => rfl
      | some s => simp only [chainFrom, spaces, ih]

theorem chainAt_congr {v w : View} (spaces : w.subspace = v.subspace)
    (list : w.subspaces = v.subspaces) (s : Key)
    : chainAt w s = chainAt v s := by
  simp only [chainAt, chainOf, list, chainFrom_congr spaces]

namespace View.Tree

variable {v : View}

theorem congr {w : View} (tree : v.Tree) (spaces : w.subspace = v.subspace)
    (list : w.subspaces = v.subspaces)
    : w.Tree where
  listed := by rw [spaces, list]; exact tree.listed
  known := by rw [spaces, list]; exact tree.known
  unique := by rw [list]; exact tree.unique
  chain s recorded := by
    rw [spaces] at recorded
    exact (tree.chain s recorded).imp fun _ path => path.congr spaces

/-- A chain is no longer than the list of all sub-spaces: it has each at most once. -/
theorem length_le (tree : v.Tree) {scope : Scope} {chain : List Key}
    (path : IsChain v scope chain)
    : chain.length ≤ (v.subspaces.getD []).length :=
  path.nodup.length_le_of_subset fun s member => tree.listed s (path.recorded s member)

theorem chainOf_eq_chain (tree : v.Tree) {s : Key} {chain : List Key}
    (path : IsChain v (some s) chain)
    : chainOf v s = .ok (some chain) := by
  have bound := tree.length_le path
  simpa [chainOf] using chainFrom_eq path _ [] (by omega) (by simp)

/-- `chainOf` never throws; what it finds is a chain, and it finds one of each sub-space. -/
theorem chainOf_eq (tree : v.Tree) (s : Key) : chainOf v s = .ok (chainAt v s) := by
  unfold chainAt
  cases found : v.subspace s with
  | none => simp [chainOf, chainFrom, found]
  | some info =>
      obtain ⟨chain, path⟩ := tree.chain s (by simp [found])
      rw [tree.chainOf_eq_chain path]

theorem chainAt_iff (tree : v.Tree) {s : Key} {chain : List Key}
    : chainAt v s = some chain ↔ IsChain v (some s) chain := by
  constructor
  · intro found
    cases recorded : v.subspace s with
    | none => simp [chainAt, chainOf, chainFrom, recorded] at found
    | some info =>
        obtain ⟨other, path⟩ := tree.chain s (by simp [recorded])
        have same : chainAt v s = some other := by
          simp [chainAt, tree.chainOf_eq_chain path]
        cases Option.some.inj (found.symm.trans same)
        exact path
  · intro path
    simp [chainAt, tree.chainOf_eq_chain path]

end View.Tree

-- `below`

/-- A scope strictly above a sub-space, as a plain function. -/
def belowAt (v : View) (s : Key) (top : Scope) : Bool :=
  match chainAt v s with
  | some (_ :: up) => (scopesOf up).contains top
  | _ => false

theorem belowAt_congr {v w : View} (spaces : w.subspace = v.subspace)
    (list : w.subspaces = v.subspaces) (s : Key) (top : Scope)
    : belowAt w s top = belowAt v s top := by
  simp only [belowAt, chainAt_congr spaces list]

theorem find?_subspacesOf {v : View} (tree : v.Tree) (s : Key)
    : (subspacesOf v).find? (·.key = s)
      = (v.subspace s).map fun info => ⟨s, info.parent, info.priv⟩ := by
  have general (keys : List Key)
      : (keys.filterMap fun key =>
          (v.subspace key).map fun info => (⟨key, info.parent, info.priv⟩ : SubInfo)).find?
            (·.key = s)
        = if s ∈ keys then (v.subspace s).map fun info => ⟨s, info.parent, info.priv⟩
          else none := by
    induction keys with
    | nil => simp
    | cons key rest ih =>
        by_cases same : key = s
        · subst same
          cases found : v.subspace key with
          | none => simp [found, ih]
          | some info => simp [found]
        · have other : s ≠ key := fun h => same h.symm
          cases found : v.subspace key with
          | none => simp [found, ih, other]
          | some info => simp [found, ih, same, other]
  rw [subspacesOf, general]
  split
  · rfl
  · rename_i absent
    cases found : v.subspace s with
    | none => rfl
    | some info => exact absurd (tree.listed s (by simp [found])) absent

/-- The loop climbs the chain and ends with it; induction on the chain. -/
theorem belowFrom_eq {v : View} (tree : v.Tree) {scope : Scope} {chain : List Key}
    (path : IsChain v scope chain) (top : Scope) (fuel : Nat) (enough : chain.length ≤ fuel)
    : belowFrom (subspacesOf v) top fuel scope
      = .ok (match chain with
          | [] => false
          | _ :: up => (scopesOf up).contains top) := by
  induction path generalizing fuel with
  | top => cases fuel <;> simp [belowFrom]
  | @sub s up info found above fresh ih =>
      unfold belowFrom
      simp only [Option.bind_some, find?_subspacesOf tree, found, Option.map_some]
      have head := above.head?
      by_cases parent : info.parent = top
      · have met : top ∈ scopesOf up := by
          rw [← parent, ← head]
          cases up <;> simp
        simp [parent, met]
      · obtain ⟨fuel, rfl⟩ : ∃ less, fuel = less + 1 := ⟨fuel - 1, by
          simp only [List.length_cons] at enough
          omega⟩
        have next := ih fuel (by simpa using enough)
        have other : top ≠ up.head? := fun same => parent (head.symm.trans same.symm)
        simp only [parent, if_false, next]
        cases up with
        | nil => simpa using other
        | cons t upper => simp_all

theorem below_eq {v : View} (tree : v.Tree) (s : Key) (top : Scope)
    : below (subspacesOf v) s top = .ok (belowAt v s top) := by
  cases found : v.subspace s with
  | none =>
      have chain : chainAt v s = none := by simp [chainAt, chainOf, chainFrom, found]
      unfold below belowFrom belowAt
      simp [find?_subspacesOf tree, found, chain]
  | some info =>
      obtain ⟨chain, path⟩ := tree.chain s (by simp [found])
      have length : (subspacesOf v).length = (v.subspaces.getD []).length := by
        have all : ∀ key ∈ v.subspaces.getD [], ((v.subspace key).map fun info =>
            (⟨key, info.parent, info.priv⟩ : SubInfo)).isSome := by
          intro key member
          simpa using tree.known key member
        unfold subspacesOf
        rw [List.filterMap_length_eq_length.mpr all]
      rw [below, belowFrom_eq tree path top _ (by rw [length]; exact tree.length_le path),
        belowAt, tree.chainAt_iff.mpr path]
      cases path
      rfl

/-- What being below means on chains. -/
theorem belowAt_iff {v : View} (tree : v.Tree) {s : Key} {top : Scope}
    : belowAt v s top = true
      ↔ ∃ up, IsChain v (some s) (s :: up) ∧ top ∈ scopesOf up := by
  unfold belowAt
  constructor
  · intro h
    split at h
    · rename_i head up found
      have path := tree.chainAt_iff.mp found
      obtain ⟨_, _, _, same⟩ := path.tail
      cases same
      exact ⟨up, path, by simpa using h⟩
    · simp at h
  · rintro ⟨up, path, met⟩
    rw [tree.chainAt_iff.mpr path]
    simpa using met

-- `memberIn`

/-- Nobody banned in the top space has a member entry there. -/
def View.TopBan (v : View) : Prop := ∀ id, (v.banned none id).isSome → v.member none id = none

/-- Climbing a chain of recorded sub-spaces, one's own entries and the parent's are what
`State` and `SubState` give someone not banned; induction on the chain.
-/
theorem ownMember_eq {v : View} {chain : List Key}
    (recorded : ∀ s ∈ chain, (v.subspace s).isSome) (id : Key)
    (free : bannedIn v chain id = false)
    : ownMember v id chain = .ok (State.member v chain id) := by
  induction chain with
  | nil => rfl
  | cons s up ih =>
      have freeUp : bannedIn v up id = false := by
        simp only [bannedIn, scopesOf_cons, List.any_cons, Bool.or_eq_false_iff] at free
        exact free.2
      have above := ih (fun t member => recorded t (List.mem_cons_of_mem _ member)) freeUp
      obtain ⟨info, found⟩ := Option.isSome_iff_exists.mp (recorded s (by simp))
      unfold ownMember State.member
      cases v.member (some s) id with
      | some m => simp [State.banned, free]
      | none =>
          simp only [above, ok_bind, State.banned, free]
          cases State.member v up id with
          | none => simp
          | some m =>
              simp only [found, State.priv, Option.any_some, Option.filter_some]
              by_cases hidden : info.priv && m.role ≠ "owner" && m.role ≠ "admin"
              · rw [if_pos hidden]
                simp_all
              · rw [if_neg hidden]
                simp_all

/-- `memberIn` never throws on a chain, and agrees with the state. -/
theorem memberIn_eq {v : View} (topBan : v.TopBan) {chain : List Key}
    (recorded : ∀ s ∈ chain, (v.subspace s).isSome) (id : Key)
    : memberIn v chain id = .ok (State.member v chain id) := by
  unfold memberIn
  by_cases out : bannedIn v chain id = true
  · rw [if_pos out]
    cases chain with
    | nil =>
        have entry : v.member none id = none := topBan id (by simpa [bannedIn] using out)
        simp [State.member, entry]
    | cons s up => simp [State.member, State.banned, out]
  · rw [if_neg out]
    exact ownMember_eq recorded id (by simpa using out)

/-- A member's recorded role, without a public scope's fallback. -/
def State.recordedRole (v : View) (chain : List Key) (id : Key) : Option String :=
  (State.member v chain id).map Member.role

theorem roleIn_eq {v : View} (topBan : v.TopBan) {chain : List Key}
    (recorded : ∀ s ∈ chain, (v.subspace s).isSome) (id : Key)
    : roleIn v chain id = .ok (State.recordedRole v chain id) := by
  simp [roleIn, memberIn_eq topBan recorded, State.recordedRole]

end Hypergraph.Decisions
