import Hypergraph.Engine.Linked

/-! Who indexes last in a context: an event leaves it without an indexer where it has the only one write
without indexing, or takes the right to index from a member whose writers are all who do, several of them
(`#applyContextWriter`, `#applyContextRole`, `#applyContextRedeem` in `src/context-base.js`).
-/

namespace Hypergraph.Engine

open Js Wire

-- The last indexer

namespace Autobase

variable {W : Type} (autobase : Autobase W) (w : W) (key : Key)

/-- A key is the only one that indexes. -/
def Only : Prop := ∀ other, autobase.indexes w other = some true ↔ other = key

def Indexed : Prop := ∃ key, autobase.indexes w key = some true

/-- What is documented of the last indexer: it isn't removeable, and to remove it throws. -/
structure KeepsLast : Prop where
  removeable : ∀ w key, autobase.removeable w key = false ↔ autobase.Only w key
  remove : ∀ w key, autobase.Only w key → autobase.removeWriter w key = none

variable {autobase w key} {w' : W} {flag : Bool}

theorem Indexed.other (some_ : autobase.Indexed w) (more : ¬ autobase.Only w key)
    : ∃ other, other ≠ key ∧ autobase.indexes w other = some true := by
  by_contra none_
  simp only [not_exists, not_and'] at none_
  have only (other : Key) (is : autobase.indexes w other = some true) : other = key := not_not.mp (none_ other is)
  obtain ⟨first, is⟩ := some_
  obtain rfl := only first is
  exact more fun other => ⟨only other, fun same => same ▸ is⟩

/-- A key set to index or not leaves an indexer, unless it was the only one and is to be none. -/
theorem Indexed.set (some_ : autobase.Indexed w)
    (set : ∀ other, autobase.indexes w' other = if other = key then some flag else autobase.indexes w other)
    : autobase.Indexed w' ↔ flag = true ∨ ¬ autobase.Only w key := by
  constructor
  · rintro ⟨other, is⟩
    rw [set] at is
    split at is
    · exact .inl (Option.some.inj is)
    · rename_i apart
      exact .inr fun only => apart ((only other).mp is)
  · rintro (rfl | more)
    · exact ⟨key, by rw [set, if_pos rfl]⟩
    · obtain ⟨other, apart, is⟩ := some_.other more
      exact ⟨other, by rw [set, if_neg apart, is]⟩

end Autobase

namespace Governance

variable {W : Type} (peer : Peer W) (s : Governance W) (node : Node)

-- What a node asks of the writers

/-- The writer that a node adds once it passes its checks, and whether it is to index. -/
def added : Option (Key × Bool) :=
  match node.event with
  | .contextWriter key member author timestamp signature =>
      if node.optimistic = false ∧ key ≠ ""
          ∧ verifies peer (.writer key member peer.contextKey author timestamp) author signature = true
          ∧ (peer.closed = true → canIn s.roles author "context.write" = true) then
        some (fromHex key, if member ≠ "" then canIn s.roles member "context.index" else false)
      else none
  | .contextRedeem inviteKey member key timestamp signature memberSignature encryptionKey =>
      match s.invites[inviteKey]?, s.roles with
      | some inv, some table =>
          if key = toHex node.from_ ∧ member ≠ "" ∧ ¬ (inv.revoked ∨ inv.uses ≤ inv.used)
              ∧ redeems peer inviteKey member key timestamp signature memberSignature encryptionKey = true then
            some (node.from_, (given table member inv.role).can member "context.index")
          else none
      | _, _ => none
  | .addWriter key =>
      if node.optimistic = false ∧ peer.closed = false then some (fromHex key, false) else none
  | .rolesAddWriter key author timestamp signature =>
      if node.optimistic = false ∧ s.mayChange peer "roles/addWriter" key author timestamp signature = true then
        some (fromHex key, false)
      else none
  | .contextRole .. | .contextInvite .. | .rolesRemoveWriter .. => none

/-- The member that a node is to take the right to index from, once it passes its checks. -/
def demoted : Option String :=
  match node.event with
  | .contextRole member role author timestamp signature =>
      if node.optimistic = false ∧ member ≠ ""
          ∧ verifies peer (.role member role peer.contextKey author timestamp) author signature = true
          ∧ mayAssign s.roles author member role = true ∧ canIn s.roles member "context.index" = true
          ∧ (applyRoleEvent s.roles (roleEvent member role)).any (fun next => !next.can member "context.index")
            = true then
        some member
      else none
  | _ => none

/-- Are all who index a member's writers? -/
def AllOf (member : String) : Prop :=
  ∀ key, peer.autobase.indexes s.writers key = some true → key ∈ s.writersOf member

/-- Someone indexes after a node, and one that would take the right to index from the last changes nothing. -/
structure Stays : Prop where
  indexed : peer.autobase.Indexed (s.apply peer node).writers
  whole : ∀ member, demoted peer s node = some member → AllOf peer s member → s.apply peer node = s

/-- A node has no key write without indexing that is the only one to index, and takes the right to index
from no member whose writers are all who do, unless there is one.
-/
structure Spares : Prop where
  added : ∀ key, added peer s node = some (key, false) → ¬ peer.autobase.Only s.writers key
  demoted : ∀ member, demoted peer s node = some member → AllOf peer s member →
    ∃ key, peer.autobase.Only s.writers key

variable {peer s node} {key : Key} {flag : Bool} {member : String}

/-- A writer is added as the node says. -/
theorem indexes_added (documented : peer.autobase.Documented) (is : added peer s node = some (key, flag))
    (other : Key)
    : peer.autobase.indexes (s.apply peer node).writers other
      = if other = key then some flag else peer.autobase.indexes s.writers other := by
  unfold added at is
  unfold apply
  cases event : node.event with
  | contextWriter text member author timestamp signature =>
      simp only [event, Option.ite_none_right_eq_some, Option.some.injEq, Prod.mk.injEq] at is
      obtain ⟨⟨plain, named, signed, may⟩, rfl, rfl⟩ := is
      have may_ : ¬ (peer.closed = true ∧ ¬ canIn s.roles author "context.write" = true) := fun both =>
        both.2 (may both.1)
      simp only [plain, Bool.false_eq_true, if_false]
      rw [applyContextWriter, if_neg named, if_neg (not_not.mpr signed), if_neg may_]
      have writers : (if member ≠ "" then s.linkWriter text member else s).writers = s.writers := by split <;> rfl
      rw [addWriter, documented.add, writers]
  | contextRedeem inviteKey member text timestamp signature memberSignature encryptionKey =>
      simp only [event] at is
      cases invited : s.invites[inviteKey]? with
      | none => simp [invited] at is
      | some inv =>
          cases roles : s.roles with
          | none => simp [invited, roles] at is
          | some table =>
              simp only [invited, roles, Option.ite_none_right_eq_some, Option.some.injEq, Prod.mk.injEq] at is
              obtain ⟨⟨own, named, fresh, signed⟩, rfl, rfl⟩ := is
              have made : s.applyContextRedeem peer inviteKey member text timestamp signature memberSignature encryptionKey
                    node.from_ node.optimistic
                  = s.redeemed peer table inv inviteKey member text encryptionKey node.from_ node.optimistic := by
                rw [applyContextRedeem, if_neg (not_not.mpr own), if_neg named]
                simp only [invited]
                rw [if_neg fresh, if_neg (not_not.mpr signed)]
                simp only [roles]
                rfl
              dsimp only
              rw [made, writers_redeemed, documented.add]
              split
              · rfl
              · rename_i apart
                split
                · exact documented.ack _ _ _ apart
                · rfl
  | addWriter text =>
      simp only [event, Option.ite_none_right_eq_some, Option.some.injEq, Prod.mk.injEq] at is
      obtain ⟨⟨plain, open_⟩, rfl, rfl⟩ := is
      simp only [plain, open_, Bool.false_eq_true, if_false]
      rw [addWriter, documented.add]
  | rolesAddWriter text author timestamp signature =>
      simp only [event, Option.ite_none_right_eq_some, Option.some.injEq, Prod.mk.injEq] at is
      obtain ⟨⟨plain, may⟩, rfl, rfl⟩ := is
      simp only [plain, may, not_true, Bool.false_eq_true, if_false]
      rw [addWriter, documented.add]
  | contextRole => simp [event] at is
  | contextInvite => simp [event] at is
  | rolesRemoveWriter => simp [event] at is

/-- A member is demoted with all of its writers, if each is removeable. -/
theorem apply_demoted (is : demoted peer s node = some member)
    : ∃ next, s.apply peer node
      = if (s.writersOf member).all (peer.autobase.removeable s.writers) then
          (s.writersOf member).foldl (fun s key => s.addWriter peer key false) { s with roles := some next }
        else s := by
  unfold demoted at is
  unfold apply
  cases event : node.event with
  | contextRole member_ role author timestamp signature =>
      simp only [event, Option.ite_none_right_eq_some, Option.some.injEq] at is
      obtain ⟨⟨plain, named, signed, may, before, after⟩, rfl⟩ := is
      obtain ⟨next, made, after⟩ := Option.any_eq_true .. |>.mp after
      rw [Bool.not_eq_true'] at after
      refine ⟨next, ?_⟩
      simp only [plain, Bool.false_eq_true, if_false]
      rw [applyContextRole, if_neg named, if_neg (not_not.mpr signed), if_neg (not_not.mpr may)]
      simp only [made, before, after, Bool.true_eq_false, Bool.false_eq_true, if_false, not_false_eq_true, true_and]
      by_cases all : (s.writersOf member_).all (peer.autobase.removeable s.writers) = true
      · rw [if_neg (not_not.mpr all), if_pos all]
      · rw [if_pos all, if_neg all]
  | _ => simp [event] at is

/-- Where a node is turned away, someone indexes as before. -/
theorem indexed_ite {turned : Prop} [Decidable turned] {s' : Governance W} (some_ : peer.autobase.Indexed s.writers)
    (otherwise : ¬ turned → peer.autobase.Indexed s'.writers)
    : peer.autobase.Indexed (if turned then s else s').writers := by
  split
  · exact some_
  · rename_i passes
    exact otherwise passes

/-- Where no writer is added and no member demoted, someone goes on to index. -/
theorem indexed_of_none (documented : peer.autobase.Documented) (keeps : peer.autobase.KeepsLast)
    (some_ : peer.autobase.Indexed s.writers) (none_ : added peer s node = none) (none' : demoted peer s node = none)
    : peer.autobase.Indexed (s.apply peer node).writers := by
  unfold added at none_
  unfold demoted at none'
  unfold apply
  cases event : node.event with
  | contextWriter text member author timestamp signature =>
      simp only [event, ite_eq_right_iff, reduceCtorEq, imp_false] at none_
      refine indexed_ite some_ fun plain => indexed_ite some_ fun named => indexed_ite some_ fun signed =>
        indexed_ite some_ fun may => absurd ⟨by simpa using plain, named, not_not.mp signed, fun closed => ?_⟩ none_
      by_contra mayNot
      exact may ⟨closed, mayNot⟩
  | contextRedeem inviteKey member text timestamp signature memberSignature encryptionKey =>
      simp only [event] at none_
      refine indexed_ite some_ fun own => indexed_ite some_ fun named => ?_
      cases invited : s.invites[inviteKey]? with
      | none => exact some_
      | some inv =>
          refine indexed_ite some_ fun fresh => indexed_ite some_ fun signed => ?_
          cases roles : s.roles with
          | none => exact some_
          | some table =>
              simp only [invited, roles, ite_eq_right_iff, reduceCtorEq, imp_false] at none_
              exact absurd ⟨not_not.mp own, named, fresh, not_not.mp signed⟩ none_
  | addWriter text =>
      simp only [event, ite_eq_right_iff, reduceCtorEq, imp_false] at none_
      exact indexed_ite some_ fun plain => indexed_ite some_ fun open_ =>
        absurd ⟨by simpa using plain, by simpa using open_⟩ none_
  | rolesAddWriter text author timestamp signature =>
      simp only [event, ite_eq_right_iff, reduceCtorEq, imp_false] at none_
      exact indexed_ite some_ fun plain => indexed_ite some_ fun may =>
        absurd ⟨by simpa using plain, not_not.mp may⟩ none_
  | contextRole member role author timestamp signature =>
      simp only [event, ite_eq_right_iff, reduceCtorEq, imp_false] at none'
      refine indexed_ite some_ fun plain => indexed_ite some_ fun named => indexed_ite some_ fun signed =>
        indexed_ite some_ fun may => ?_
      cases made : applyRoleEvent s.roles (roleEvent member role) with
      | none => exact some_
      | some next =>
          refine indexed_ite some_ fun _ => ?_
          -- The member isn't demoted, so whichever writers are set are to index.
          have promotes : canIn s.roles member "context.index" = true → next.can member "context.index" = true := by
            intro before
            by_contra after
            exact none' ⟨by simpa using plain, named, not_not.mp signed, not_not.mp may, before,
              by simpa [made] using after⟩
          by_cases same : canIn s.roles member "context.index" = next.can member "context.index"
          · rw [if_pos same]
            exact some_
          · have after : next.can member "context.index" = true := by
              cases before : canIn s.roles member "context.index" with
              | true => exact promotes before
              | false =>
                  rw [before] at same
                  exact Bool.eq_true_of_not_eq_false (Ne.symm same)
            obtain ⟨first, is⟩ := some_
            refine ⟨first, ?_⟩
            rw [if_neg same, indexes_foldl_addWriter documented.regular, after]
            split
            · rfl
            · exact is
  | contextInvite inviteKey role uses author timestamp signature asked =>
      refine indexed_ite some_ fun _ => indexed_ite some_ fun _ => indexed_ite some_ fun _ => ?_
      by_cases revoke : uses = 0
      · rw [if_pos revoke]
        cases s.invites[inviteKey]? with
        | none => exact some_
        | some inv => exact indexed_ite some_ fun _ => some_
      · rw [if_neg revoke]
        exact indexed_ite some_ fun _ => indexed_ite some_ fun _ => indexed_ite some_ fun _ =>
          indexed_ite some_ fun _ => some_
  | rolesRemoveWriter text author timestamp signature =>
      refine indexed_ite some_ fun _ => indexed_ite some_ fun _ => ?_
      cases removed : peer.autobase.removeWriter s.writers (fromHex text) with
      | none => exact some_
      | some writers =>
          have more : ¬ peer.autobase.Only s.writers (fromHex text) := fun only => by
            rw [keeps.remove _ _ only] at removed
            cases removed
          obtain ⟨other, apart, is⟩ := some_.other more
          exact ⟨other, by rw [documented.remove _ _ _ removed, if_neg apart, is]⟩

/-- After a node someone goes on to index, and a demotion of the last changes nothing, exactly if the node spares
the last indexer.
-/
theorem stays_iff (documented : peer.autobase.Documented) (keeps : peer.autobase.KeepsLast)
    (some_ : peer.autobase.Indexed s.writers)
    : Stays peer s node ↔ Spares peer s node := by
  constructor
  · rintro ⟨indexed, whole⟩
    refine ⟨fun key is => ?_, fun member is all => ?_⟩
    · have set := (some_.set (indexes_added documented is)).mp indexed
      simpa using set
    · by_contra none_
      rw [not_exists] at none_
      obtain ⟨next, after⟩ := apply_demoted is
      have removeable : (s.writersOf member).all (peer.autobase.removeable s.writers) = true := by
        rw [List.all_eq_true]
        intro key _
        by_contra stays
        rw [Bool.not_eq_true, keeps.removeable] at stays
        exact none_ key stays
      rw [if_pos removeable] at after
      obtain ⟨key, is⟩ := indexed
      rw [after, indexes_foldl_addWriter documented.regular] at is
      split at is
      · cases is
      · rename_i apart
        exact apart (all key is)
  · rintro ⟨added_, demoted_⟩
    have whole (member : String) (is : demoted peer s node = some member) (all : AllOf peer s member)
        : s.apply peer node = s := by
      obtain ⟨key, only⟩ := demoted_ member is all
      obtain ⟨next, after⟩ := apply_demoted is
      rw [after, if_neg]
      intro removeable
      have free := List.all_eq_true.mp removeable key (all key ((only key).mpr rfl))
      rw [(keeps.removeable _ _).mpr only] at free
      cases free
    refine ⟨?_, whole⟩
    cases is : added peer s node with
    | some given =>
        obtain ⟨key, flag⟩ := given
        refine (some_.set (indexes_added documented is)).mpr ?_
        cases flag with
        | true => exact .inl rfl
        | false => exact .inr (added_ key is)
    | none =>
        cases is' : demoted peer s node with
        | none => exact indexed_of_none documented keeps some_ is is'
        | some member =>
            by_cases all : AllOf peer s member
            · rw [whole member is' all]
              exact some_
            · -- Someone else's writer goes on to index.
              obtain ⟨next, after⟩ := apply_demoted is'
              simp only [AllOf, not_forall] at all
              obtain ⟨key, is, apart⟩ := all
              refine ⟨key, ?_⟩
              rw [after]
              split
              · rw [indexes_foldl_addWriter documented.regular, if_neg apart]
                exact is
              · exact is

/-- In every run from a state with an indexer, someone indexes after each event and none that would demote the last
changes anything, exactly if each event spares the last indexer.
-/
theorem indexers_remain (documented : peer.autobase.Documented) (keeps : peer.autobase.KeepsLast)
    (some_ : peer.autobase.Indexed s.writers) (log : List Node)
    : Runs.Each (apply peer) (Stays peer) s log ↔ Runs.Each (apply peer) (Spares peer) s log := by
  induction log generalizing s with
  | nil => exact Iff.rfl
  | cons node rest ih =>
      constructor
      · rintro ⟨stays, each⟩
        exact ⟨(stays_iff documented keeps some_).mp stays, (ih stays.indexed).mp each⟩
      · rintro ⟨spares, each⟩
        have stays := (stays_iff documented keeps some_).mpr spares
        exact ⟨stays, (ih stays.indexed).mpr each⟩

-- A context

/-- Is a key the only one in a list to index? -/
def onlyInList (writers : List (Key × Bool)) (key : Key) : Bool :=
  writers.lookup key = some true && writers.all fun writer => writers.lookup writer.1 ≠ some true || writer.1 = key

/-- The calls on a list of writers, where the last indexer stays. -/
def lastKept : Autobase (List (Key × Bool)) :=
  { Autobase.inList with
    removeWriter writers key := if onlyInList writers key then none else some (Js.delete writers key)
    removeable writers key := !onlyInList writers key }

theorem mem_of_indexes {writers : List (Key × Bool)} {key : Key} (is : lastKept.indexes writers key = some true)
    : (key, true) ∈ writers := by
  obtain ⟨first, rest, split, _⟩ := List.lookup_eq_some_iff.mp is
  rw [split]
  exact List.mem_append_right _ (.head _)

theorem only_lastKept {writers : List (Key × Bool)}
    : onlyInList writers key = true ↔ lastKept.Only writers key := by
  unfold onlyInList Autobase.Only
  rw [Bool.and_eq_true, decide_eq_true_iff, List.all_eq_true]
  constructor
  · rintro ⟨is, others⟩ other
    refine ⟨fun is' => ?_, fun same => same ▸ is⟩
    have mem := mem_of_indexes is'
    simpa [show writers.lookup other = some true from is'] using others _ mem
  · intro only
    refine ⟨(only key).mpr rfl, fun writer _ => ?_⟩
    rw [Bool.or_eq_true, decide_eq_true_iff, decide_eq_true_iff]
    by_cases is : writers.lookup writer.1 = some true
    · exact .inr ((only writer.1).mp is)
    · exact .inl is

theorem documented_lastKept : lastKept.Documented where
  add := Autobase.documented_inList.add
  remove writers key writers' removed other := by
    rw [lastKept, Option.ite_none_left_eq_some] at removed
    obtain ⟨_, is⟩ := removed
    cases is
    exact Js.lookup_delete writers key other
  ack := Autobase.documented_inList.ack

theorem keepsLast_lastKept : lastKept.KeepsLast where
  removeable writers key := by
    rw [← only_lastKept]
    simp [lastKept]
  remove writers key only := if_pos (only_lastKept.mpr only)

def keptPeer : Peer (List (Key × Bool)) := { closedPeer with autobase := lastKept }

/-- A context as its owner made it, with the owner's writer. -/
def owned : Governance (List (Key × Bool)) := start (someone 1) [3] [([3], true)]

/-- The owner's second writer is linked, the first stops to index, and the second is to be removed. -/
def second : List Node :=
  [⟨.contextWriter (toHex [4]) (someone 1) (someone 1) 1 (some (someone 1)), [3], false⟩,
    ⟨.rolesAddWriter (toHex [3]) (some (someone 1)) 2 (some (someone 1)), [3], false⟩,
    ⟨.rolesRemoveWriter (toHex [4]) (some (someone 1)) 3 (some (someone 1)), [3], false⟩]

theorem indexers_remain_second : Runs.Each (apply keptPeer) (Stays keptPeer) owned second := by
  have spares {s : Governance (List (Key × Bool))} {node : Node} (given : Option (Key × Bool))
      (is : added keptPeer s node = given) (none_ : demoted keptPeer s node = none)
      (more : ∀ key, given = some (key, false) → onlyInList s.writers key = false) : Spares keptPeer s node := by
    refine ⟨fun key is' only => ?_, fun member is' => ?_⟩
    · have stays := more key (is.symm.trans is')
      rw [only_lastKept.mpr only] at stays
      cases stays
    · rw [none_] at is'
      cases is'
  refine (indexers_remain documented_lastKept keepsLast_lastKept ⟨[3], by decide⟩ second).mpr
    ⟨spares (some ([4], true)) (by decide +kernel) (by decide +kernel) ?_,
      spares (some ([3], false)) (by decide +kernel) (by decide +kernel) ?_,
      spares none (by decide +kernel) (by decide +kernel) ?_, trivial⟩
  · intro key is
    cases is
  · intro key is
    cases is
    decide +kernel
  · intro key is
    cases is

/-- A member's two writers are linked, and the owner's removed. -/
def membersOnly : List Node :=
  [⟨.contextRole (someone 2) "admin" (someone 1) 1 (some (someone 1)), [3], false⟩,
    ⟨.contextWriter (toHex [4]) (someone 2) (someone 1) 2 (some (someone 1)), [3], false⟩,
    ⟨.contextWriter (toHex [5]) (someone 2) (someone 1) 3 (some (someone 1)), [3], false⟩,
    ⟨.rolesRemoveWriter (toHex [3]) (some (someone 1)) 4 (some (someone 1)), [3], false⟩]

/-- The only indexer is named as one to write, and a member with the only two is demoted: no one indexes. -/
theorem none_indexes
    : ¬ Stays keptPeer owned ⟨.rolesAddWriter (toHex [3]) (some (someone 1)) 1 (some (someone 1)), [3], false⟩
      ∧ ¬ Stays keptPeer (owned.run keptPeer membersOnly)
          ⟨.contextRole (someone 2) "" (someone 1) 5 (some (someone 1)), [4], false⟩ := by
  have gone {s : Governance (List (Key × Bool))} {node : Node}
      (none_ : ∀ writer ∈ (s.apply keptPeer node).writers, writer.2 = false) : ¬ Stays keptPeer s node := by
    intro stays
    obtain ⟨key, is⟩ := stays.indexed
    cases none_ _ (mem_of_indexes is)
  exact ⟨gone (by decide +kernel), gone (by decide +kernel)⟩

end Governance

end Hypergraph.Engine
