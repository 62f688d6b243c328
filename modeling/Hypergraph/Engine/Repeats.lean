import Hypergraph.Engine.Governance

/-! A governance event appended again: when its copy changes nothing. Signatures cover no place in
the log, and of the events that were applied the view remembers only the invites'.
-/

namespace Hypergraph.Engine

open Js Wire

namespace Governance

variable {W : Type} (peer : Peer W) (s s' : Governance W)

/-- The same role table, writers, indexers and invites. -/
structure Same : Prop where
  roles : s'.roles.map Registry.roles = s.roles.map Registry.roles
  members : ∀ member, s'.roles.map (fun table => Js.lookup table.members member)
    = s.roles.map fun table => Js.lookup table.members member
  writers : ∀ key, peer.autobase.indexes s'.writers key = peer.autobase.indexes s.writers key
  invites : s'.invites = s.invites

/-- Appended again by a writer, an event changes nothing. -/
def Idle (event : GovernanceEvent) (from_ : Key) : Prop := Same peer s (s.apply peer ⟨event, from_, false⟩)

/-- A member has a role already, or none where the role is to be removed. -/
def HasRole (table : Registry) (member role : String) : Prop :=
  if role ≠ "" then member = "__proto__" ∨ Js.lookup table.members member = .own (.role role)
  else table.members.lookup member = none

instance (table : Registry) (member role : String) : Decidable (HasRole table member role) :=
  inferInstanceAs (Decidable (ite _ _ _))

/-- A role change would take the right to index from a member with a writer that can't go. -/
def Refused (table : Registry) (member role : String) : Prop :=
  table.can member "context.index" = true
    ∧ (∀ next, applyRoleEvent (some table) (roleEvent member role) = some next →
        next.can member "context.index" = false)
    ∧ ∃ key ∈ s.writersOf member, peer.autobase.removeable s.writers key = false

/-- What an event says can't be done by its author (any more), or is so already. -/
def Settled (from_ : Key) : GovernanceEvent → Prop
  | .contextWriter key member author timestamp signature =>
      key = ""
        ∨ verifies peer (.writer key member peer.contextKey author timestamp) author signature = false
        ∨ (peer.closed = true ∧ canIn s.roles author "context.write" = false)
        ∨ peer.autobase.indexes s.writers (fromHex key)
          = some (if member ≠ "" then canIn s.roles member "context.index" else false)
  | .contextRole member role author timestamp signature =>
      member = ""
        ∨ verifies peer (.role member role peer.contextKey author timestamp) author signature = false
        ∨ mayAssign s.roles author member role = false
        ∨ ∃ table, s.roles = some table
          ∧ (HasRole table member role ∨ Refused peer s table member role)
  | .contextInvite inviteKey role uses author timestamp signature asked =>
      length inviteKey ≠ 64
        ∨ verifies peer (.invite inviteKey role uses (askedOf asked) peer.contextKey author timestamp)
          author signature = false
        ∨ (uses = 0 ∧ ∀ inv, s.invites[inviteKey]? = some inv →
          inv.revoked = true ∨ (inv.author ≠ author ∧ mayAssign s.roles author "" inv.role = false))
        ∨ (0 < uses ∧ (s.invites[inviteKey]?.isSome ∨ role = "owner"
          ∨ mayAssign s.roles author "" (if role ≠ "" then role else "member") = false
          ∨ askedFine (askedOf asked) = false))
  | .contextRedeem inviteKey member key timestamp signature memberSignature encryptionKey =>
      key ≠ toHex from_ ∨ member = ""
        ∨ (∀ inv, s.invites[inviteKey]? = some inv → inv.revoked = true ∨ inv.uses ≤ inv.used)
        ∨ redeems peer inviteKey member key timestamp signature memberSignature encryptionKey = false
  | .addWriter key =>
      peer.closed = true ∨ peer.autobase.indexes s.writers (fromHex key) = some false
  | .rolesAddWriter key author timestamp signature =>
      s.mayChange peer "roles/addWriter" key author timestamp signature = false
        ∨ peer.autobase.indexes s.writers (fromHex key) = some false
  | .rolesRemoveWriter key author timestamp signature =>
      s.mayChange peer "roles/removeWriter" key author timestamp signature = false
        ∨ peer.autobase.indexes s.writers (fromHex key) = none
        ∨ peer.autobase.removeWriter s.writers (fromHex key) = none

-- Role tables

section Tables

variable {table : Registry} {member role : String}

/-- A table stays the same if the member has the role already, and only then. -/
theorem lookup_assign_iff
    : (∀ name, Js.lookup (assign table member role).members name = Js.lookup table.members name)
      ↔ HasRole table member role := by
  have at_ : (∀ name, Js.lookup (assign table member role).members name
        = Js.lookup table.members name)
      ↔ Js.lookup (assign table member role).members member = Js.lookup table.members member := by
    refine ⟨fun all => all member, fun here name => ?_⟩
    by_cases same : name = member
    · rw [same, here]
    · exact lookup_assign_of_ne same
  rw [at_]
  by_cases role_ : role = ""
  · simp only [assign, role_, HasRole, ne_eq, not_true_eq_false, if_false, Registry.lookup_delete_self]
    cases listed : table.members.lookup member with
    | none => simp [Js.lookup, listed]
    | some value =>
        simp only [Js.lookup, listed, List.lookup_nil, reduceCtorEq, iff_false]
        split <;> simp
  · by_cases proto : member = "__proto__"
    · simp [assign, role_, HasRole, proto, Js.set]
    · simp [assign, role_, HasRole, proto, Registry.lookup_set_self proto, eq_comm]

end Tables

-- What stays

section Kept

variable {peer s s'}

theorem Same.refl : Same peer s s := ⟨rfl, fun _ => rfl, fun _ => rfl, rfl⟩

/-- Nothing changes where an event is turned away, or where its change is none. -/
theorem same_ite {turned : Prop} [Decidable turned]
    : Same peer s (if turned then s else s') ↔ turned ∨ Same peer s s' := by
  by_cases is : turned
  · simp [is, Same.refl]
  · simp [is]

/-- A writer added changes nothing where it is one already, and indexes or not as before. -/
theorem same_addWriter (documented : peer.autobase.Documented) {key : Key} {indexer : Bool}
    (roles : s'.roles = s.roles) (invites : s'.invites = s.invites) (writers : s'.writers = s.writers)
    : Same peer s (s'.addWriter peer key indexer)
      ↔ peer.autobase.indexes s.writers key = some indexer := by
  have added (other : Key) : peer.autobase.indexes (s'.addWriter peer key indexer).writers other
      = if other = key then some indexer else peer.autobase.indexes s.writers other := by
    rw [addWriter, documented.add, writers]
  constructor
  · intro same
    rw [← same.writers key, added, if_pos rfl]
  · intro is
    refine ⟨by simp [addWriter, roles], by simp [addWriter, roles], fun other => ?_, invites⟩
    rw [added]
    split
    · rename_i here
      rw [here, is]
    · rfl

/-- A writer linked and added again. -/
theorem idle_contextWriter (documented : peer.autobase.Documented) {key member author : String}
    {timestamp : Nat} {signature : Option String} {from_ : Key}
    : Idle peer s (.contextWriter key member author timestamp signature) from_
      ↔ Settled peer s from_ (.contextWriter key member author timestamp signature) := by
  simp only [Idle, apply, Settled, applyContextWriter, Bool.false_eq_true, if_false, same_ite,
    Bool.not_eq_true]
  refine or_congr_right (or_congr_right (or_congr_right ?_))
  by_cases of : member = ""
  · simpa [of] using same_addWriter documented rfl rfl rfl
  · have linked : Same peer s ((s.linkWriter key member).addWriter peer (fromHex key)
          (canIn s.roles member "context.index"))
        ↔ peer.autobase.indexes s.writers (fromHex key)
          = some (canIn s.roles member "context.index") :=
      same_addWriter documented rfl rfl rfl
    simpa [of] using linked

theorem idle_contextRole {table : Registry} (roles : s.roles = some table) (version : table.version = 1)
    {member role author : String} {timestamp : Nat} {signature : Option String} {from_ : Key}
    : Idle peer s (.contextRole member role author timestamp signature) from_
      ↔ Settled peer s from_ (.contextRole member role author timestamp signature) := by
  simp only [Idle, apply, Settled, applyContextRole, Bool.false_eq_true, if_false, same_ite,
    Bool.not_eq_true]
  by_cases named : member = ""
  · simp [named]
  refine or_congr_right (or_congr_right (or_congr_right ?_))
  have made : applyRoleEvent (some table) (roleEvent member role) = some (assign table member role) :=
    applyRoleEvent_roleEvent version named
  simp only [roles, made, canIn, Option.some.injEq, exists_eq_left', Refused, forall_eq', same_ite]
  have listed : (∀ name, Js.lookup (assign table member role).members name
        = Js.lookup table.members name)
      ↔ HasRole table member role := lookup_assign_iff
  by_cases has : HasRole table member role
  · -- Nothing is set that isn't so: who may index is as before.
    have alike : (assign table member role).can member "context.index"
        = table.can member "context.index" :=
      Registry.can_congr rfl (listed.mpr has member)
    refine iff_of_true (Or.inr ?_) (Or.inl has)
    rw [if_pos alike.symm]
    exact ⟨by simp [roles, assign], fun name => by simp [roles, listed.mpr has name], fun _ => rfl, rfl⟩
  · have changed (writers : List Key) (indexer : Bool)
        : ¬ Same peer s (writers.foldl (fun s key => s.addWriter peer key indexer)
          { s with roles := some (assign table member role) }) := by
      intro same
      refine has (listed.mp fun name => ?_)
      have members := same.members name
      obtain ⟨after, is⟩ := foldl_addWriter _ _
      rw [is, roles] at members
      exact Option.some.inj members
    simp only [changed, or_false, has, false_or]
    cases before : table.can member "context.index" with
    | false => simp
    | true =>
        cases after : (assign table member role).can member "context.index" with
        | true => simp
        | false => simp

/-- An invite minted or revoked again. -/
theorem idle_contextInvite {inviteKey role author : String} {uses timestamp : Nat}
    {signature : Option String} {asked : Option ScopeAsked} {from_ : Key}
    : Idle peer s (.contextInvite inviteKey role uses author timestamp signature asked) from_
      ↔ Settled peer s from_ (.contextInvite inviteKey role uses author timestamp signature asked) := by
  have minted {inv : Invite} (other : s.invites[inviteKey]? ≠ some inv)
      : ¬ Same peer s { s with invites := s.invites.insert inviteKey inv } := by
    intro same
    refine other ?_
    rw [← same.invites]
    simp
  simp only [Idle, apply, Settled, applyContextInvite, Bool.false_eq_true, if_false, same_ite,
    Bool.not_eq_true]
  refine or_congr_right (or_congr_right ?_)
  by_cases revoke : uses = 0
  · simp only [revoke, if_true, true_and, lt_irrefl, false_and, or_false]
    cases at_ : s.invites[inviteKey]? with
    | none => simp [Same.refl]
    | some inv =>
        simp only [same_ite, Option.some.injEq, forall_eq']
        have again : Same peer s { s with invites := s.invites.insert inviteKey { inv with revoked := true } }
            ↔ inv.revoked = true := by
          constructor
          · intro same
            by_contra valid
            exact minted (fun is => valid (by rw [Option.some.inj (at_.symm.trans is)])) same
          · intro revoked
            have is : { inv with revoked := true } = inv := by rw [← revoked]
            rw [is, Table.insert_self at_]
            exact Same.refl
        rw [again, or_comm]
  · simp only [revoke, if_false, false_and, false_or, Nat.pos_of_ne_zero revoke, true_and, same_ite]
    refine or_congr_right' fun fresh => ?_
    have owner : (if role ≠ "" then role else "member") = "owner" ↔ role = "owner" := by
      by_cases plain : role = "" <;> simp [plain]
    rw [owner]
    refine or_congr_right (or_congr_right (or_iff_left ?_))
    exact minted fun is => fresh (by simp [is])

/-- An invite redeemed again. -/
theorem idle_contextRedeem {table : Registry} (roles : s.roles = some table)
    {inviteKey member key : String} {timestamp : Nat}
    {signature memberSignature encryptionKey : Option String} {from_ : Key}
    : Idle peer s
        (.contextRedeem inviteKey member key timestamp signature memberSignature encryptionKey) from_
      ↔ Settled peer s from_
        (.contextRedeem inviteKey member key timestamp signature memberSignature encryptionKey) := by
  simp only [Idle, apply, Settled, applyContextRedeem, same_ite]
  refine or_congr_right (or_congr_right ?_)
  cases at_ : s.invites[inviteKey]? with
  | none => simp [Same.refl]
  | some inv =>
      simp only [same_ite, roles, Bool.not_eq_true, Option.some.injEq, forall_eq']
      have counted : ∀ s' : Governance W,
          s'.invites = s.invites.insert inviteKey { inv with used := inv.used + 1 } → ¬ Same peer s s' := by
        intro s' is same
        have at' : s'.invites[inviteKey]? = some inv := by rw [same.invites, at_]
        rw [is, Std.ExtTreeMap.getElem?_insert_self] at at'
        have used := congrArg Invite.used (Option.some.inj at')
        exact absurd used (Nat.succ_ne_self _)
      refine or_congr_right (or_iff_left (counted _ ?_))
      cases request inv member encryptionKey <;> rfl

/-- A writer removed again. -/
theorem idle_rolesRemoveWriter (documented : peer.autobase.Documented) {key : String} {author : Option String}
    {timestamp : Nat} {signature : Option String} {from_ : Key}
    : Idle peer s (.rolesRemoveWriter key author timestamp signature) from_
      ↔ Settled peer s from_ (.rolesRemoveWriter key author timestamp signature) := by
  simp only [Idle, apply, Settled, Bool.false_eq_true, if_false, same_ite, Bool.not_eq_true]
  refine or_congr_right ?_
  cases removed : peer.autobase.removeWriter s.writers (fromHex key) with
  | none => simp [Same.refl]
  | some writers =>
      simp only [reduceCtorEq, or_false]
      constructor
      · intro same
        rw [← same.writers, documented.remove _ _ _ removed, if_pos rfl]
      · intro none_
        refine ⟨rfl, fun _ => rfl, fun other => ?_, rfl⟩
        simp only [documented.remove _ _ _ removed]
        split
        · rename_i here
          rw [here, none_]
        · rfl

/-- Each event says what its author may not do (any more), or what is so already, exactly if it
changes nothing.
-/
theorem idle_iff (documented : peer.autobase.Documented) (has : HasTable s) {event : GovernanceEvent}
    {from_ : Key}
    : Idle peer s event from_ ↔ Settled peer s from_ event := by
  obtain ⟨table, roles, version⟩ := has
  cases event with
  | contextWriter => exact idle_contextWriter documented
  | contextRole => exact idle_contextRole roles version
  | contextInvite => exact idle_contextInvite
  | contextRedeem => exact idle_contextRedeem roles
  | addWriter key =>
      simp only [Idle, apply, Settled, Bool.false_eq_true, if_false, same_ite]
      exact or_congr_right (same_addWriter documented rfl rfl rfl)
  | rolesAddWriter key author timestamp signature =>
      simp only [Idle, apply, Settled, Bool.false_eq_true, if_false, same_ite, Bool.not_eq_true]
      exact or_congr_right (same_addWriter documented rfl rfl rfl)
  | rolesRemoveWriter => exact idle_rolesRemoveWriter documented

end Kept

-- Runs

section Runs

variable {peer}

/-- Of every context of version 3, at every time, in either write mode: an event appended again by a
writer changes no role, writer, indexer or invite, exactly if its author may not do any more what it
says, or what it says is so.
-/
theorem repeated_iff (documented : peer.autobase.Documented) (owner : String) (bootstrapKey : Key)
    (writers : W) (log : List Node) (event : GovernanceEvent) (from_ : Key)
    : Idle peer ((start owner bootstrapKey writers).run peer log) event from_
      ↔ Settled peer ((start owner bootstrapKey writers).run peer log) from_ event :=
  idle_iff documented ((hasTable_start owner bootstrapKey writers).run log)

/-- The owner makes someone a mod, and takes the role away. -/
def demotion : List Node :=
  [⟨.contextRole (someone 2) "mod" (someone 1) 1 (some (someone 1)), List.replicate 32 3, false⟩,
    ⟨.contextRole (someone 2) "" (someone 1) 2 (some (someone 1)), List.replicate 32 3, false⟩]

/-- The event that takes the role away, once more: the member has none. -/
theorem repeated_iff_demotion
    : Idle closedPeer ((start (someone 1) [3] [([3], true)]).run closedPeer demotion)
      (.contextRole (someone 2) "" (someone 1) 2 (some (someone 1))) [4] :=
  (repeated_iff Autobase.documented_inList ..).mpr
    (.inr (.inr (.inr ⟨_, rfl, .inl (by decide)⟩)))

/-- The event that gave the role, once more, by another writer: the member has it again. -/
theorem demotion_undone
    : ¬ ∀ (W : Type) (peer : Peer W), peer.autobase.Documented → peer.closed = true →
        ∀ (owner : String) (bootstrapKey : Key) (writers : W) (log : List Node), ∀ node ∈ log,
          ∀ from_ : Key, Idle peer ((start owner bootstrapKey writers).run peer log) node.event from_ := by
  intro holds
  have same := (holds _ closedPeer Autobase.documented_inList rfl (someone 1) [3] [([3], true)] demotion
    _ (.head _) [4]).members (someone 2)
  exact absurd same (by decide)

end Runs

end Governance

end Hypergraph.Engine
