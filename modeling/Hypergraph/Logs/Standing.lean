import Hypergraph.Decisions.State

/-! How much of a log counts in a space, and which identities' logs a change of the decisions
touches: `limitOf` and `mayRetry` of `lib/space.js`, and `touched` of `lib/decisions/state.js`.
-/

namespace Hypergraph.Logs

open Js Encodings Decisions

/-- Who a log's header says writes it, and the admission code it carries. -/
structure Who where
  identity : Key
  device : Option Key
  admitted : Option Key
  deriving DecidableEq, Repr

/-- What logs are judged by at a member: the decisions as they count in the space, and the cuts
of the removals of devices indexed there.
-/
structure Standing where
  view : View
  chain : List Key
  removals : Key → Key → List Lengths

namespace Standing

variable (standing : Standing) (who : Who) (log : Key)

def isRemoved : Bool :=
  who.device.any fun device => standing.removals who.identity device ≠ []

/-- The decisions' limit and, for a removed device, the lowest of its removals' cuts: a log a
removal doesn't name counts for nothing.
-/
def limitOf : ℕ∞ :=
  let recorded := State.limitOf standing.view standing.chain who.identity log
  let unadmitted := 1 < recorded ∧ who.device ≠ some who.identity
    ∧ State.mustAdmit standing.view standing.chain who.identity log = true
    ∧ who.admitted ≠ State.admission standing.view standing.chain who.identity
  let limit := if unadmitted then 0 else recorded
  match who.device with
  | none => limit
  | some device =>
      (standing.removals who.identity device).foldl
        (fun cut named =>
          let length : ℕ∞ := ((named.lookup log).getD 0 : Nat)
          if length < cut then length else cut) limit

/-- May a log that counts for nothing come to count? -/
def mayRetry : Bool :=
  !standing.isRemoved who && !State.isCut standing.view standing.chain who.identity log

end Standing

-- What a change touches

/-- The identities whose membership, ban or cuts moved, or `all` when something moved that may
matter to anyone.
-/
structure Touched where
  all : Bool
  ids : List Key
  deriving DecidableEq, Repr

def Touched.touches (touched : Touched) (id : Key) : Bool := touched.all || touched.ids.contains id

/-- The standing changed, and `touched` is what its keys say: anything but one identity's own
entries touches all.
-/
structure Changed (touched : Touched) (before after : Standing) : Prop where
  chain : after.chain = before.chain
  shared
    : touched.all = true
      ∨ (after.view.metaOf = before.view.metaOf ∧ after.view.role = before.view.role
        ∧ after.view.subspace = before.view.subspace ∧ after.removals = before.removals)
  own
    : ∀ id, touched.touches id = false → ∀ scope,
        after.view.member scope id = before.view.member scope id
          ∧ after.view.banned scope id = before.view.banned scope id
          ∧ after.view.cut scope id = before.view.cut scope id
          ∧ after.view.admits scope id = before.view.admits scope id

section Changed

variable {before after : Standing} {touched : Touched} {id : Key} (chain : List Key)

/-- The entries an identity's rights in a scope are read from are the same in two views. -/
structure SameFor (id : Key) (v v' : View) : Prop where
  metaOf : v'.metaOf = v.metaOf
  role : v'.role = v.role
  subspace : v'.subspace = v.subspace
  member : ∀ scope, v'.member scope id = v.member scope id
  banned : ∀ scope, v'.banned scope id = v.banned scope id
  cut : ∀ scope, v'.cut scope id = v.cut scope id
  admits : ∀ scope, v'.admits scope id = v.admits scope id

variable {v v' : View}

theorem SameFor.bannedIn (same : SameFor id v v')
    : State.banned v' chain id = State.banned v chain id := by
  unfold State.banned Decisions.bannedIn
  simp only [same.banned]

/-- Induction on the chain, from the space up. -/
theorem SameFor.memberIn (same : SameFor id v v')
    : State.member v' chain id = State.member v chain id := by
  induction chain with
  | nil => exact same.member none
  | cons s up ih =>
      unfold State.member State.priv
      rw [same.bannedIn, same.member, ih, same.subspace]

theorem SameFor.cutIn (same : SameFor id v v')
    : State.cut v' chain id = State.cut v chain id := by
  induction chain with
  | nil =>
      unfold State.cut
      rw [same.cut]
  | cons s up ih =>
      unfold State.cut
      rw [same.cut, ih]

theorem SameFor.admitsIn (same : SameFor id v v')
    : State.admits v' chain id = State.admits v chain id := by
  induction chain with
  | nil => exact same.admits none
  | cons s up ih =>
      unfold State.admits
      rw [same.admits, ih]

theorem SameFor.pubIn (same : SameFor id v v') : State.pub v' chain = State.pub v chain := by
  unfold State.pub
  rw [same.metaOf]

theorem SameFor.canWrite (same : SameFor id v v')
    : State.canWrite v' chain id = State.canWrite v chain id := by
  have role : State.roleOf v' chain id = State.roleOf v chain id := by
    unfold State.roleOf
    rw [same.memberIn, same.pubIn, same.bannedIn]
  have custom : v'.custom = v.custom := by
    unfold View.custom
    rw [same.role]
  unfold State.canWrite State.can
  rw [role, custom, same.subspace]

/-- Whom a change doesn't touch, counts as before. -/
theorem Changed.limitOf {who : Who} (changed : Changed touched before after)
    (untouched : touched.touches who.identity = false) (log : Key)
    : after.limitOf who log = before.limitOf who log := by
  have partial_ : touched.all = false := by
    exact (Bool.or_eq_false_iff.mp untouched).1
  obtain ⟨metaOf, role, subspace, removals⟩ :=
    changed.shared.resolve_left (by rw [partial_]; decide)
  have own := changed.own who.identity untouched
  have same : SameFor who.identity before.view after.view :=
    ⟨metaOf, role, subspace, fun s => (own s).1, fun s => (own s).2.1, fun s => (own s).2.2.1,
      fun s => (own s).2.2.2⟩
  have limit (chain : List Key) : State.limitOf after.view chain who.identity log
      = State.limitOf before.view chain who.identity log := by
    unfold State.limitOf State.cutAt
    rw [same.cutIn, same.canWrite]
  have must (chain : List Key) : State.mustAdmit after.view chain who.identity log
      = State.mustAdmit before.view chain who.identity log := by
    unfold State.mustAdmit State.isCut State.cutAt
    rw [same.memberIn, same.pubIn, same.cutIn]
  unfold Standing.limitOf State.admission
  rw [changed.chain, removals, limit, must, same.admitsIn]

end Changed

end Hypergraph.Logs
