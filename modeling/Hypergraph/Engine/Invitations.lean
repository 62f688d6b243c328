import Hypergraph.Lib.Runs
import Hypergraph.Engine.Repeats

/-! Invites over whole runs of a context's log: minted once by who may grant the role, redeemed as often
as they say at most, never again once revoked, and never for a role above the one a member has.
-/

namespace Hypergraph.Engine

open Js Wire

namespace Governance

variable {W : Type} (peer : Peer W) (s : Governance W)

-- Minting, revoking and redeeming

/-- A node mints an invite, by who may then grant its role to someone new. -/
def Mints (node : Node) (inviteKey : String) (inv : Invite) : Prop :=
  ∃ role uses author timestamp signature asked,
    node.event = .contextInvite inviteKey role uses author timestamp signature asked
      ∧ node.optimistic = false ∧ length inviteKey = 64 ∧ 0 < uses
      ∧ verifies peer (.invite inviteKey role uses (askedOf asked) peer.contextKey author timestamp)
        author signature = true
      ∧ s.invites[inviteKey]? = none
      ∧ mayAssign s.roles author "" inv.role = true ∧ inv.role ≠ "owner"
      ∧ askedFine (askedOf asked) = true
      ∧ inv = { role := if role ≠ "" then role else "member", uses, author, asked := askedOf asked }

/-- A node revokes an invite, by its minter or by who may then grant its role. -/
def Revokes (node : Node) (inviteKey : String) : Prop :=
  ∃ role author timestamp signature asked,
    node.event = .contextInvite inviteKey role 0 author timestamp signature asked
      ∧ node.optimistic = false ∧ length inviteKey = 64
      ∧ verifies peer (.invite inviteKey role 0 (askedOf asked) peer.contextKey author timestamp) author
        signature = true
      ∧ ∃ inv, s.invites[inviteKey]? = some inv
        ∧ (inv.author = author ∨ mayAssign s.roles author "" inv.role = true)

/-- The invite that a node is a redemption of, and the member, where it counts. -/
def counted (node : Node) : Option (String × String) :=
  match node.event with
  | .contextRedeem inviteKey member key timestamp signature memberSignature encryptionKey =>
      match s.invites[inviteKey]? with
      | some inv =>
          if key = toHex node.from_ ∧ member ≠ "" ∧ inv.revoked = false ∧ inv.used < inv.uses
              ∧ redeems peer inviteKey member key timestamp signature memberSignature encryptionKey then
            some (inviteKey, member)
          else none
      | none => none
  | _ => none

/-- How many redemptions of an invite count in a log. -/
def redemptions (inviteKey : String) : Governance W → List Node → Nat
  | _, [] => 0
  | s, node :: rest =>
      (if (counted peer s node).map Prod.fst = some inviteKey then 1 else 0)
        + redemptions inviteKey (s.apply peer node) rest

/-- What a node makes of an invite. -/
inductive Dealt (node : Node) (inviteKey : String) : Option Invite → Prop
  | nothing
    : (∀ inv, ¬ Mints peer s node inviteKey inv) → ¬ Revokes peer s node inviteKey
      → (counted peer s node).map Prod.fst ≠ some inviteKey
      → Dealt node inviteKey s.invites[inviteKey]?
  | minted {inv : Invite}
    : Mints peer s node inviteKey inv → ¬ Revokes peer s node inviteKey
      → (counted peer s node).map Prod.fst ≠ some inviteKey
      → Dealt node inviteKey (some inv)
  | revoked {inv : Invite}
    : s.invites[inviteKey]? = some inv → Revokes peer s node inviteKey
      → (counted peer s node).map Prod.fst ≠ some inviteKey
      → Dealt node inviteKey (some { inv with revoked := true })
  | redeemed {inv : Invite}
    : s.invites[inviteKey]? = some inv → (∀ inv, ¬ Mints peer s node inviteKey inv)
      → ¬ Revokes peer s node inviteKey → inv.revoked = false → inv.used < inv.uses
      → (counted peer s node).map Prod.fst = some inviteKey
      → Dealt node inviteKey (some { inv with used := inv.used + 1 })

variable {peer s} {node : Node} {inviteKey : String}

/-- A node that is neither about an invite nor a redemption leaves every invite. -/
theorem dealt_other (mints : ∀ key role uses author timestamp signature asked,
      node.event ≠ .contextInvite key role uses author timestamp signature asked)
    (redeems : counted peer s node = none) {s' : Governance W} (same : s'.invites = s.invites)
    : Dealt peer s node inviteKey s'.invites[inviteKey]? := by
  rw [same]
  refine .nothing ?_ ?_ ?_
  · rintro inv ⟨_, _, _, _, _, _, is, _⟩
    exact mints _ _ _ _ _ _ _ is
  · rintro ⟨_, _, _, _, _, is, _⟩
    exact mints _ _ _ _ _ _ _ is
  · simp [redeems]

/-- What an event about an invite makes of one. -/
theorem dealt_contextInvite {key role author : String} {uses timestamp : Nat}
    {signature : Option String} {asked : Option ScopeAsked}
    (is : node.event = .contextInvite key role uses author timestamp signature asked)
    (writer : node.optimistic = false)
    : Dealt peer s node inviteKey
        (s.applyContextInvite peer key role uses author timestamp signature asked).invites[inviteKey]? := by
  have none_ : counted peer s node = none := by simp [counted, is]
  have uncounted : (counted peer s node).map Prod.fst ≠ some inviteKey := by simp [none_]
  have mints (inv : Invite) : Mints peer s node inviteKey inv
      ↔ key = inviteKey ∧ length key = 64 ∧ 0 < uses
        ∧ verifies peer (.invite key role uses (askedOf asked) peer.contextKey author timestamp) author
          signature = true
        ∧ s.invites[key]? = none ∧ mayAssign s.roles author "" inv.role = true ∧ inv.role ≠ "owner"
        ∧ askedFine (askedOf asked) = true
        ∧ inv = { role := if role ≠ "" then role else "member", uses, author, asked := askedOf asked } := by
    constructor
    · rintro ⟨_, _, _, _, _, _, same, _, rest⟩
      cases is.symm.trans same
      exact ⟨rfl, rest⟩
    · rintro ⟨rfl, rest⟩
      exact ⟨_, _, _, _, _, _, is, writer, rest⟩
  have revokes : Revokes peer s node inviteKey
      ↔ key = inviteKey ∧ uses = 0 ∧ length key = 64
        ∧ verifies peer (.invite key role uses (askedOf asked) peer.contextKey author timestamp) author
          signature = true
        ∧ ∃ inv, s.invites[key]? = some inv
          ∧ (inv.author = author ∨ mayAssign s.roles author "" inv.role = true) := by
    constructor
    · rintro ⟨_, _, _, _, _, same, _, rest⟩
      cases is.symm.trans same
      exact ⟨rfl, rfl, rest⟩
    · rintro ⟨rfl, rfl, rest⟩
      exact ⟨_, _, _, _, _, is, writer, rest⟩
  -- Turned away, the event neither mints nor revokes.
  have turned (mints : ∀ inv, ¬ Mints peer s node inviteKey inv) (revokes : ¬ Revokes peer s node inviteKey)
      : Dealt peer s node inviteKey s.invites[inviteKey]? :=
    .nothing mints revokes uncounted
  simp only [applyContextInvite]
  by_cases long : length key = 64
  swap
  · rw [if_pos long]
    exact turned (fun inv is => long ((mints inv).mp is).2.1) fun is => long (revokes.mp is).2.2.1
  rw [if_neg (by simpa using long)]
  by_cases signed : verifies peer (.invite key role uses (askedOf asked) peer.contextKey author timestamp)
      author signature = true
  swap
  · rw [if_pos signed]
    exact turned (fun inv is => signed ((mints inv).mp is).2.2.2.1)
      fun is => signed (revokes.mp is).2.2.2.1
  rw [if_neg (by simpa using signed)]
  by_cases revoke : uses = 0
  · subst revoke
    rw [if_pos rfl]
    have unminted (inv : Invite) : ¬ Mints peer s node inviteKey inv := fun is =>
      absurd ((mints inv).mp is).2.2.1 (lt_irrefl 0)
    cases at_ : s.invites[key]? with
    | none =>
        refine turned unminted fun is => ?_
        obtain ⟨_, _, _, _, inv, there, _⟩ := revokes.mp is
        cases at_.symm.trans there
    | some inv =>
        by_cases may : inv.author ≠ author ∧ ¬ mayAssign s.roles author "" inv.role = true
        · simp only [if_pos may]
          refine turned unminted fun is => ?_
          obtain ⟨_, _, _, _, inv', there, may'⟩ := revokes.mp is
          cases at_.symm.trans there
          exact may'.elim may.1 may.2
        · simp only [if_neg may]
          by_cases same : key = inviteKey
          · subst same
            simp only [Std.ExtTreeMap.getElem?_insert_self]
            refine .revoked at_ (revokes.mpr ⟨rfl, rfl, long, signed, inv, at_, ?_⟩) uncounted
            by_contra neither
            exact may ⟨fun is => neither (.inl is), fun is => neither (.inr is)⟩
          · rw [Std.ExtTreeMap.getElem?_insert, if_neg (by simpa using same)]
            exact turned unminted fun is => same (revokes.mp is).1
  · rw [if_neg revoke]
    have unrevoked : ¬ Revokes peer s node inviteKey := fun is => revoke (revokes.mp is).2.1
    by_cases exists_ : s.invites[key]?.isSome
    · rw [if_pos exists_]
      refine turned (fun inv is => ?_) unrevoked
      rw [((mints inv).mp is).2.2.2.2.1] at exists_
      cases exists_
    rw [if_neg exists_]
    have fresh : s.invites[key]? = none := by simpa using exists_
    generalize given_ : (if role ≠ "" then role else "member") = granted
    rw [given_] at mints
    by_cases owner : granted = "owner"
    · rw [if_pos owner]
      refine turned (fun inv is => ?_) unrevoked
      obtain ⟨_, _, _, _, _, _, other, _, rfl⟩ := (mints inv).mp is
      exact other owner
    rw [if_neg owner]
    by_cases may : mayAssign s.roles author "" granted = true
    swap
    · rw [if_pos may]
      refine turned (fun inv is => ?_) unrevoked
      obtain ⟨_, _, _, _, _, allowed, _, _, rfl⟩ := (mints inv).mp is
      exact may allowed
    rw [if_neg (by simpa using may)]
    by_cases fine : askedFine (askedOf asked) = true
    swap
    · rw [if_pos fine]
      exact turned (fun inv is => fine ((mints inv).mp is).2.2.2.2.2.2.2.1) unrevoked
    rw [if_neg (by simpa using fine)]
    by_cases same : key = inviteKey
    · subst same
      simp only [Std.ExtTreeMap.getElem?_insert_self]
      exact .minted ((mints _).mpr
        ⟨rfl, long, Nat.pos_of_ne_zero revoke, signed, fresh, may, owner, fine, rfl⟩) unrevoked uncounted
    · rw [Std.ExtTreeMap.getElem?_insert, if_neg (by simpa using same)]
      exact turned (fun inv is => same ((mints inv).mp is).1) unrevoked

theorem invites_redeemed {table : Registry} {inv : Invite} {member key : String}
    {encryptionKey : Option String} {from_ : Key} {optimistic : Bool}
    : (s.redeemed peer table inv inviteKey member key encryptionKey from_ optimistic).invites
      = s.invites.insert inviteKey { inv with used := inv.used + 1 } := by
  rw [redeemed]
  cases request inv member encryptionKey <;> cases optimistic <;> rfl

/-- A redemption that counts, and what it makes of the state; any other makes nothing of it. -/
theorem apply_contextRedeem {table : Registry} (roles : s.roles = some table)
    {invite member key : String} {timestamp : Nat}
    {signature memberSignature encryptionKey : Option String}
    (is : node.event
      = .contextRedeem invite member key timestamp signature memberSignature encryptionKey)
    : (counted peer s node = none ∧ s.apply peer node = s)
      ∨ ∃ inv, counted peer s node = some (invite, member) ∧ member ≠ ""
        ∧ s.invites[invite]? = some inv ∧ inv.revoked = false ∧ inv.used < inv.uses
        ∧ s.apply peer node
          = s.redeemed peer table inv invite member key encryptionKey node.from_ node.optimistic := by
  simp only [counted, apply, is, applyContextRedeem, roles]
  by_cases own : key = toHex node.from_
  swap
  · left
    cases s.invites[invite]? <;> simp [own]
  by_cases named : member = ""
  · left
    cases s.invites[invite]? <;> simp [own, named]
  cases at_ : s.invites[invite]? with
  | none => exact .inl ⟨rfl, by simp⟩
  | some inv =>
      by_cases left_ : inv.revoked = true ∨ inv.uses ≤ inv.used
      · left
        have not : ¬ (inv.revoked = false ∧ inv.used < inv.uses) := by
          rintro ⟨valid, more⟩
          rcases left_ with revoked | used
          · rw [valid] at revoked
            cases revoked
          · omega
        exact ⟨if_neg fun all => not ⟨all.2.2.1, all.2.2.2.1⟩, by simp [left_]⟩
      · obtain ⟨valid, more⟩ := not_or.mp left_
        by_cases signed : redeems peer invite member key timestamp signature memberSignature encryptionKey
        · refine .inr ⟨inv, ?_, named, rfl, by simpa using valid, by omega, ?_⟩
          · exact if_pos ⟨own, named, by simpa using valid, by omega, signed⟩
          · subst own
            simp only [ne_eq, named, left_, not_true_eq_false, if_false]
            rw [if_neg (not_not.mpr signed)]
            rfl
        · left
          simp [signed]

/-- Events that are about no invite leave them all. -/
theorem invites_apply (mints : ∀ key role uses author timestamp signature asked,
      node.event ≠ .contextInvite key role uses author timestamp signature asked)
    (redeems : ∀ invite member key timestamp signature memberSignature encryptionKey,
      node.event ≠ .contextRedeem invite member key timestamp signature memberSignature encryptionKey)
    : (s.apply peer node).invites = s.invites := by
  rw [apply]
  cases is : node.event with
  | contextInvite => exact (mints _ _ _ _ _ _ _ is).elim
  | contextRedeem => exact (redeems _ _ _ _ _ _ _ is).elim
  | contextWriter key member author timestamp signature =>
      simp only [applyContextWriter]
      split_ifs <;> rfl
  | contextRole member role author timestamp signature =>
      simp only [applyContextRole]
      split_ifs
      any_goals rfl
      cases applyRoleEvent s.roles (roleEvent member role) with
      | none => rfl
      | some next =>
          simp only
          split_ifs
          any_goals rfl
          all_goals
            obtain ⟨writers, after⟩ := foldl_addWriter _ _
            rw [after]
  | addWriter key =>
      simp only
      split_ifs <;> rfl
  | rolesAddWriter key author timestamp signature =>
      simp only
      split_ifs <;> rfl
  | rolesRemoveWriter key author timestamp signature =>
      simp only
      split_ifs
      any_goals rfl
      cases peer.autobase.removeWriter s.writers (fromHex key) <;> rfl

theorem dealt_apply (has : HasTable s)
    : Dealt peer s node inviteKey (s.apply peer node).invites[inviteKey]? := by
  obtain ⟨table, roles, _⟩ := has
  cases is : node.event with
  | contextRedeem invite member key timestamp signature memberSignature encryptionKey =>
      have unminted (inv : Invite) : ¬ Mints peer s node inviteKey inv := by
        rintro ⟨_, _, _, _, _, _, same, _⟩
        cases is.symm.trans same
      have unrevoked : ¬ Revokes peer s node inviteKey := by
        rintro ⟨_, _, _, _, _, same, _⟩
        cases is.symm.trans same
      rcases apply_contextRedeem roles is with
        ⟨none_, same⟩ | ⟨inv, counts, _, at_, valid, more, made⟩
      · rw [same]
        exact .nothing unminted unrevoked (by simp [none_])
      · rw [made, invites_redeemed]
        by_cases same : invite = inviteKey
        · subst same
          rw [Std.ExtTreeMap.getElem?_insert_self]
          exact .redeemed at_ unminted unrevoked valid more (by simp [counts])
        · rw [Std.ExtTreeMap.getElem?_insert, if_neg (by simpa using same)]
          exact .nothing unminted unrevoked (by simpa [counts] using same)
  | contextInvite key role uses author timestamp signature asked =>
      rw [apply, is]
      cases optimistic : node.optimistic with
      | true =>
          refine .nothing ?_ ?_ (by simp [counted, is])
          · rintro inv ⟨_, _, _, _, _, _, _, writer, _⟩
            cases optimistic.symm.trans writer
          · rintro ⟨_, _, _, _, _, _, writer, _⟩
            cases optimistic.symm.trans writer
      | false => exact dealt_contextInvite is optimistic
  | _ =>
      exact dealt_other (by simp [is]) (by simp [counted, is])
        (invites_apply (by simp [is]) (by simp [is]))

-- Runs

/-- Where a context starts: created, or made of an older one. -/
inductive Begins (peer : Peer W) : Governance W → Prop
  | created (owner : String) (bootstrapKey : Key) (writers : W)
    : Begins peer (start owner bootstrapKey writers)
  | upgraded (owner : String) (bootstrapKey : Key) (indexers : List Key) (writers : W)
    : Begins peer (upgraded peer owner bootstrapKey indexers writers)

theorem Begins.fresh (begins : Begins peer s) : s.invites = ∅ ∧ HasTable s := by
  cases begins with
  | created owner bootstrapKey writers => exact ⟨rfl, hasTable_start ..⟩
  | upgraded owner bootstrapKey indexers writers =>
      rw [Governance.upgraded]
      have kept (s : Governance W) (fresh : s.invites = ∅ ∧ HasTable s)
          : (indexers.foldl (fun s key => if key = bootstrapKey then s else s.addWriter peer key false)
              s).invites = ∅
            ∧ HasTable (indexers.foldl
              (fun s key => if key = bootstrapKey then s else s.addWriter peer key false) s) := by
        induction indexers generalizing s with
        | nil => exact fresh
        | cons key rest ih =>
            rw [List.foldl_cons]
            split
            · exact ih s fresh
            · exact ih _ fresh
      exact kept _ ⟨rfl, hasTable_start ..⟩

theorem run_append (log : List Node) (node : Node)
    : s.run peer (log ++ [node]) = (s.run peer log).apply peer node := by
  rw [run, List.foldl_append]
  rfl

theorem redemptions_append (log : List Node) (node : Node)
    : redemptions peer inviteKey s (log ++ [node])
      = redemptions peer inviteKey s log
        + if (counted peer (s.run peer log) node).map Prod.fst = some inviteKey then 1 else 0 := by
  induction log generalizing s with
  | nil => exact Nat.add_comm _ _
  | cons first rest ih =>
      rw [List.cons_append, redemptions, ih, redemptions, Nat.add_assoc]
      rfl

/-- What is so of an invite after a log: it was minted once, what was counted of it, and whether it was
revoked.
-/
structure Accounted (peer : Peer W) (s : Governance W) (log : List Node) (inviteKey : String)
    (inv : Invite) : Prop where
  minted : ∃ before node after, log = before ++ node :: after
    ∧ Mints peer (s.run peer before) node inviteKey { inv with used := 0, revoked := false }
    ∧ ∀ before' node' after' other, log = before' ++ node' :: after'
      → Mints peer (s.run peer before') node' inviteKey other → before' = before
  used : inv.used = redemptions peer inviteKey s log
  limit : inv.used ≤ inv.uses
  revoked : inv.revoked = true ↔ ∃ before node after, log = before ++ node :: after
    ∧ Revokes peer (s.run peer before) node inviteKey

/-- What is so of a key under which there is no invite. -/
structure Unused (peer : Peer W) (s : Governance W) (log : List Node) (inviteKey : String) : Prop where
  minted : ∀ before node after inv, log = before ++ node :: after
    → ¬ Mints peer (s.run peer before) node inviteKey inv
  used : redemptions peer inviteKey s log = 0
  revoked : ∀ before node after, log = before ++ node :: after
    → ¬ Revokes peer (s.run peer before) node inviteKey

section Append

variable {log : List Node}

/-- A node that mints was there already, or is the last. -/
theorem mints_append {before after : List Node} {node last : Node} {inv : Invite}
    (unminted : ∀ inv, ¬ Mints peer (s.run peer log) last inviteKey inv)
    (split : log ++ [last] = before ++ node :: after)
    (mints : Mints peer (s.run peer before) node inviteKey inv)
    : ∃ after', log = before ++ node :: after' := by
  rcases Runs.append_singleton_eq_iff.mp split with ⟨after', is, _⟩ | ⟨rfl, rfl, _⟩
  · exact ⟨after', is⟩
  · exact (unminted inv mints).elim

theorem revokes_append {last : Node}
    : (∃ before node after, log ++ [last] = before ++ node :: after
        ∧ Revokes peer (s.run peer before) node inviteKey)
      ↔ (∃ before node after, log = before ++ node :: after
          ∧ Revokes peer (s.run peer before) node inviteKey)
        ∨ Revokes peer (s.run peer log) last inviteKey := by
  constructor
  · rintro ⟨before, node, after, split, revokes⟩
    rcases Runs.append_singleton_eq_iff.mp split with ⟨after', is, _⟩ | ⟨rfl, rfl, _⟩
    · exact .inl ⟨before, node, after', is, revokes⟩
    · exact .inr revokes
  · rintro (⟨before, node, after, rfl, revokes⟩ | revokes)
    · exact ⟨before, node, after ++ [last], by simp, revokes⟩
    · exact ⟨log, last, [], rfl, revokes⟩

/-- What was minted stays so. -/
theorem minted_append {last : Node} {inv : Invite}
    (unminted : ∀ inv, ¬ Mints peer (s.run peer log) last inviteKey inv)
    (minted : ∃ before node after, log = before ++ node :: after
      ∧ Mints peer (s.run peer before) node inviteKey inv
      ∧ ∀ before' node' after' other, log = before' ++ node' :: after'
        → Mints peer (s.run peer before') node' inviteKey other → before' = before)
    : ∃ before node after, log ++ [last] = before ++ node :: after
      ∧ Mints peer (s.run peer before) node inviteKey inv
      ∧ ∀ before' node' after' other, log ++ [last] = before' ++ node' :: after'
        → Mints peer (s.run peer before') node' inviteKey other → before' = before := by
  obtain ⟨before, node, after, is, mints, once⟩ := minted
  refine ⟨before, node, after ++ [last], by simp [is], mints, ?_⟩
  intro before' node' after' other split mints'
  obtain ⟨after'', is'⟩ := mints_append unminted split mints'
  exact once before' node' after'' other is' mints'

/-- One more node accounts for what it makes of an invite. -/
theorem accounted_append {last : Node} (has : HasTable (s.run peer log))
    (unused : (s.run peer log).invites[inviteKey]? = none → Unused peer s log inviteKey)
    (accounted : ∀ inv, (s.run peer log).invites[inviteKey]? = some inv
      → Accounted peer s log inviteKey inv)
    : ((s.run peer (log ++ [last])).invites[inviteKey]? = none
        → Unused peer s (log ++ [last]) inviteKey)
      ∧ ∀ inv, (s.run peer (log ++ [last])).invites[inviteKey]? = some inv
        → Accounted peer s (log ++ [last]) inviteKey inv := by
  rw [run_append]
  have dealt : Dealt peer (s.run peer log) last inviteKey
      ((s.run peer log).apply peer last).invites[inviteKey]? := dealt_apply has
  have count := @redemptions_append _ peer s inviteKey log last
  generalize ((s.run peer log).apply peer last).invites[inviteKey]? = after at dealt
  cases dealt with
  | nothing unminted unrevoked uncounted =>
      rw [if_neg uncounted, Nat.add_zero] at count
      constructor
      · intro none_
        have before := unused none_
        refine ⟨?_, count.trans before.used, ?_⟩
        · intro first node later inv split mints
          obtain ⟨after', is⟩ := mints_append unminted split mints
          exact before.minted first node after' inv is mints
        · intro first node later split revokes
          rcases revokes_append.mp ⟨first, node, later, split, revokes⟩ with
            ⟨first, node, later, split, revokes⟩ | revokes
          · exact before.revoked first node later split revokes
          · exact unrevoked revokes
      · intro inv there
        have before := accounted inv there
        refine ⟨minted_append unminted before.minted, before.used.trans count.symm, before.limit, ?_⟩
        rw [revokes_append, or_iff_left unrevoked]
        exact before.revoked
  | @minted inv mints unrevoked uncounted =>
      rw [if_neg uncounted, Nat.add_zero] at count
      refine ⟨(fun none_ => by cases none_), fun inv same => ?_⟩
      obtain rfl := Option.some.inj same
      have fresh : (s.run peer log).invites[inviteKey]? = none := by
        obtain ⟨_, _, _, _, _, _, _, _, _, _, _, fresh, _⟩ := mints
        exact fresh
      have before := unused fresh
      obtain ⟨used, revoked⟩ : inv.used = 0 ∧ inv.revoked = false := by
        obtain ⟨_, _, _, _, _, _, _, _, _, _, _, _, _, _, _, rfl⟩ := mints
        exact ⟨rfl, rfl⟩
      have new : { inv with used := 0, revoked := false } = inv := by rw [← used, ← revoked]
      refine ⟨⟨log, last, [], rfl, by rwa [new], ?_⟩, ?_, ?_, ?_⟩
      · intro first node later other split mints'
        rcases Runs.append_singleton_eq_iff.mp split with ⟨after', is, _⟩ | ⟨rfl, rfl, _⟩
        · exact (before.minted first node after' other is mints').elim
        · rfl
      · rw [used, count, before.used]
      · omega
      · rw [revokes_append, or_iff_left unrevoked, revoked]
        simp only [Bool.false_eq_true, false_iff]
        rintro ⟨first, node, later, split, revokes⟩
        exact before.revoked first node later split revokes
  | @revoked inv there revokes uncounted =>
      rw [if_neg uncounted, Nat.add_zero] at count
      refine ⟨(fun none_ => by cases none_), fun inv' same => ?_⟩
      obtain rfl := Option.some.inj same
      have before := accounted inv there
      have unminted (other : Invite) : ¬ Mints peer (s.run peer log) last inviteKey other := by
        rintro ⟨_, _, _, _, _, _, _, _, _, _, _, fresh, _⟩
        cases there.symm.trans fresh
      refine ⟨minted_append unminted before.minted, before.used.trans count.symm, before.limit, ?_⟩
      rw [revokes_append]
      exact ⟨fun _ => .inr revokes, fun _ => rfl⟩
  | @redeemed inv there unminted unrevoked valid more counts =>
      rw [if_pos counts] at count
      refine ⟨(fun none_ => by cases none_), fun inv' same => ?_⟩
      obtain rfl := Option.some.inj same
      have before := accounted inv there
      refine ⟨minted_append unminted before.minted, ?_, more, ?_⟩
      · rw [count, ← before.used]
      · rw [revokes_append, or_iff_left unrevoked]
        exact before.revoked

end Append

/-- After every log each invite is accounted for, and of every other key there was never one. -/
theorem accounted_run (begins : Begins peer s) (log : List Node)
    : ((s.run peer log).invites[inviteKey]? = none → Unused peer s log inviteKey)
      ∧ ∀ inv, (s.run peer log).invites[inviteKey]? = some inv → Accounted peer s log inviteKey inv := by
  obtain ⟨fresh, has⟩ := begins.fresh
  induction log using List.reverseRecOn with
  | nil =>
      refine ⟨fun _ => ⟨?_, rfl, ?_⟩, fun inv there => ?_⟩
      · intro before node after inv split
        simp at split
      · intro before node after split
        simp at split
      · rw [run, List.foldl_nil, fresh, Std.ExtTreeMap.getElem?_empty] at there
        cases there
  | append_singleton log last ih => exact accounted_append (has.run log) ih.1 ih.2

/-- Who has no role yet is given the invite's. -/
theorem given_eq {table : Registry} {member role : String} (version : table.version = 1)
    (named : member ≠ "") (role_ : role ≠ "")
    : given table member role
      = if (table.current member).isSome then table
        else { table with members := Js.set table.members member (.role role) } := by
  rw [given, Registry.applyRoleEvent_setRole, if_pos (⟨version, named, role_⟩ : _ ∧ _ ∧ _)]
  rfl

/-- What a redemption that counts is of, and what it gives. -/
structure Redeemed (peer : Peer W) (s : Governance W) (before : List Node) (node : Node)
    (inviteKey member : String) : Prop where
  unrevoked : ∀ first earlier later, before = first ++ earlier :: later
    → ¬ Revokes peer (s.run peer first) earlier inviteKey
  given : ∃ inv table, (s.run peer before).invites[inviteKey]? = some inv ∧ inv.role ≠ "owner"
    ∧ (s.run peer before).roles = some table
    ∧ (s.run peer (before ++ [node])).roles = some
      (if (table.current member).isSome then table
        else { table with members := Js.set table.members member (.role inv.role) })

theorem redeemed_of_counted (begins : Begins peer s) {before : List Node} {member : String}
    (counts : counted peer (s.run peer before) node = some (inviteKey, member))
    : Redeemed peer s before node inviteKey member := by
  obtain ⟨table, roles, version⟩ : HasTable (s.run peer before) := begins.fresh.2.run before
  rw [counted] at counts
  split at counts
  swap
  · cases counts
  rename_i invite member' key timestamp signature memberSignature encryptionKey is
  have counted_ : counted peer (s.run peer before) node = some (inviteKey, member) := by
    rw [counted, is]
    exact counts
  rcases apply_contextRedeem roles is with
    ⟨none_, _⟩ | ⟨inv, counts, named, at_, valid, more, made⟩
  · cases none_.symm.trans counted_
  · obtain ⟨rfl, rfl⟩ : invite = inviteKey ∧ member' = member := by
      simpa using counts.symm.trans counted_
    have accounted := (accounted_run begins before).2 inv at_
    obtain ⟨first, minting, later, _, mints, _⟩ := accounted.minted
    obtain ⟨role, _, _, _, _, _, _, _, _, _, _, _, _, unowned, _, same⟩ := mints
    have role_ : inv.role ≠ "" := by
      have is := congrArg Invite.role same
      simp only at is
      rw [is]
      split
      · assumption
      · decide
    refine ⟨?_, inv, table, at_, unowned, roles, ?_⟩
    · intro first earlier later split revokes
      rw [accounted.revoked.mpr ⟨first, earlier, later, split, revokes⟩] at valid
      cases valid
    · rw [run_append, made, roles_redeemed, given_eq version named role_]

/-- Invites are accounted for, in every run of a context of version 3. -/
theorem invites_counted (begins : Begins peer s) (log : List Node)
    : (∀ inviteKey inv, (s.run peer log).invites[inviteKey]? = some inv
        → Accounted peer s log inviteKey inv)
      ∧ ∀ before node after inviteKey member, log = before ++ node :: after
        → counted peer (s.run peer before) node = some (inviteKey, member)
        → Redeemed peer s before node inviteKey member :=
  ⟨fun _ => (accounted_run begins log).2, fun _ _ _ _ _ _ => redeemed_of_counted begins⟩

/-- The owner mints an invite for one mod, and someone redeems it. -/
def invited : List Node :=
  [⟨.contextInvite (someone 9) "mod" 1 (someone 1) 1 (some (someone 1)) none, [3], false⟩,
    ⟨.contextRedeem (someone 9) (someone 2) (toHex [4]) 2 (some (someone 9)) (some (someone 2)) none,
      [4], true⟩]

theorem invites_counted_redeemed
    : Accounted closedPeer (start (someone 1) [3] [([3], true)]) invited (someone 9)
      { role := "mod", uses := 1, used := 1, author := someone 1 } :=
  (invites_counted (.created (someone 1) [3] [([3], true)]) invited).1 _ _ (by decide +kernel)

end Governance

end Hypergraph.Engine
