import Hypergraph.Decisions.Loading

/-! What holds of every view the log can make, and so of every view a decision is judged in:
sub-spaces form a tree, roles are plain names, writer keys and their identities agree.
-/

namespace Hypergraph.Decisions

open Js Encodings

namespace View

/-- Every recorded role has a name, and not that of a property of `Object.prototype`. -/
def PlainRoles (v : View) : Prop :=
  ∀ scope id m, v.member scope id = some m → m.role ≠ "" ∧ m.role ∉ objectPrototype

/-- A writer key speaks for an identity just when it is listed, once, among its keys. -/
structure WriterKeys (v : View) : Prop where
  agree : ∀ key id, (∃ w, v.writer key = some w ∧ w.identity = id) ↔ key ∈ writersOf v id
  nodup : ∀ id, (writersOf v id).Nodup

/-- The owner's identity (`state.owner`). -/
def owner (v : View) : Option Key := (v.metaOf none).bind Meta.owner

/-- Before the space begins there is nothing. -/
structure Blank (v : View) : Prop where
  member : ∀ scope id, v.member scope id = none
  banned : ∀ scope id, v.banned scope id = none
  writer : ∀ key, v.writer key = none
  writers : ∀ id, v.writers id = none

/-- What the helpers of a decision need of the view, in the middle of one too. -/
structure Ready (v : View) : Prop where
  tree : v.Tree
  topBan : v.TopBan
  plain : v.PlainRoles
  keys : v.WriterKeys

structure Sound (v : View) : Prop extends v.Ready where
  blank : v.metaOf none = none → v.Blank
  /-- Only the owner's entry in the top space gives the owner's role. -/
  owned : ∀ scope id m, v.member scope id = some m → m.role = "owner"
    → scope = none ∧ v.owner = some id
  /-- A scope's own members and bans are of a sub-space recorded before. -/
  members : ∀ s id, (v.member (some s) id).isSome → (v.subspace s).isSome
  bans : ∀ s id, (v.banned (some s) id).isSome → (v.subspace s).isSome

end View

-- What a role someone has is

/-- Whoever is a member in a scope is one by an entry of it or of a scope above. -/
theorem State.member_entry {v : View} {chain : List Key} {id : Key} {m : Member}
    (found : State.member v chain id = some m)
    : ∃ scope ∈ scopesOf chain, v.member scope id = some m := by
  induction chain with
  | nil => exact ⟨none, by simp, found⟩
  | cons s up ih =>
      unfold State.member at found
      split at found
      · cases found
      · cases entry : v.member (some s) id with
        | some own =>
            rw [entry] at found
            exact ⟨some s, by simp, entry.trans found⟩
        | none =>
            rw [entry] at found
            obtain ⟨scope, above, same⟩ := ih (Option.filter_eq_some_iff.mp found).1
            exact ⟨scope, by simp [above], same⟩

theorem State.member_banned {v : View} (topBan : v.TopBan) {chain : List Key} {id : Key}
    (out : bannedIn v chain id = true)
    : State.member v chain id = none := by
  cases chain with
  | nil => exact topBan id (by simpa [bannedIn] using out)
  | cons s up => simp [State.member, State.banned, out]

section Roles

variable {v : View}

theorem View.PlainRoles.recordedRole (plain : v.PlainRoles) (chain : List Key) (id : Key)
    : Plain (State.recordedRole v chain id) := by
  intro name same
  obtain ⟨m, found, role⟩ := Option.map_eq_some_iff.mp same
  obtain ⟨scope, _, entry⟩ := State.member_entry found
  exact role ▸ (plain scope id m entry).2

/-- A recorded role is never the empty name, so testing it is testing for one. -/
theorem View.PlainRoles.truthy_recordedRole (plain : v.PlainRoles) (chain : List Key)
    (id : Key)
    : truthy (State.recordedRole v chain id) = (State.member v chain id).isSome := by
  unfold State.recordedRole
  cases found : State.member v chain id with
  | none => rfl
  | some m =>
      obtain ⟨scope, _, entry⟩ := State.member_entry found
      simp [truthy, (plain scope id m entry).1]

end Roles

-- Writer keys

namespace View.WriterKeys

variable {v : View} {id key : Key}

theorem known (keys : v.WriterKeys) (listed : key ∈ writersOf v id)
    : ∃ w, v.writer key = some w ∧ w.identity = id :=
  (keys.agree key id).mpr listed

theorem listed (keys : v.WriterKeys) {w : Writer} (found : v.writer key = some w)
    : key ∈ writersOf v w.identity :=
  (keys.agree key w.identity).mp ⟨w, found, rfl⟩

theorem congr {w : View} (keys : v.WriterKeys) (writer : w.writer = v.writer)
    (writers : w.writers = v.writers)
    : w.WriterKeys where
  agree key id := by
    unfold writersOf
    rw [writer, writers]
    exact keys.agree key id
  nodup id := by
    unfold writersOf
    rw [writers]
    exact keys.nodup id

end View.WriterKeys

end Hypergraph.Decisions
