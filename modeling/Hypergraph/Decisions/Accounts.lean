import Hypergraph.Decisions.Notes
import Mathlib.Data.Set.Card

/-! Invite accounting over whole runs of the log: the counter of an invite's uses and the set of
its redeemers move together, an invite with limited uses is never redeemed by more people, and
after a revocation nobody redeems it.
-/

namespace Hypergraph.Decisions

open Wire Js Encodings Invites

-- What happened in a run

/-- Some node of a log met the view the nodes before it lead to so. -/
def Happened (env : Env) (event : View → Node → Prop) (nodes : List Node) : Prop :=
  ∃ before node after u, nodes = before ++ node :: after
    ∧ applyNodes env before View.empty = .ok u ∧ event u node

section Happened

variable {env : Env} {event : View → Node → Prop}

theorem not_happened_nil : ¬Happened env event [] := by
  rintro ⟨before, node, after, u, split, _⟩
  cases before <;> cases split

/-- In a longer log either it happened before, or the last node is it. -/
theorem happened_snoc {nodes : List Node} {node : Node} {v : View}
    (ran : applyNodes env nodes View.empty = .ok v)
    : Happened env event (nodes ++ [node]) ↔ Happened env event nodes ∨ event v node := by
  constructor
  · intro happened
    obtain ⟨before, last, after, u, split, came, is⟩ := happened
    induction after using List.reverseRecOn with
    | nil =>
        obtain ⟨rfl, same⟩ := List.append_inj' split rfl
        cases List.singleton_inj.mp same
        cases Except.ok.inj (ran.symm.trans came)
        exact .inr is
    | append_singleton after final _ =>
        rw [← List.cons_append, ← List.append_assoc] at split
        obtain ⟨same, _⟩ := List.append_inj' split rfl
        exact .inl ⟨before, last, after, u, same, came, is⟩
  · intro either
    rcases either with ⟨before, last, after, u, split, came, is⟩ | is
    · exact ⟨before, last, after ++ [node], u, by simp [split], came, is⟩
    · exact ⟨nodes, node, [], v, rfl, ran, is⟩

/-- What holds of the empty log, and of a log once of the log before its last node, holds of
every log that ends; induction on the log from its end.
-/
theorem applyNodes_snoc_keeps (keeps : List Node → View → Prop) (start : keeps [] View.empty)
    (kept : ∀ nodes node u w, applyNodes env nodes View.empty = .ok u → u.Sound → keeps nodes u
      → applyNode env u node = .ok w → keeps (nodes ++ [node]) w)
    {nodes : List Node} {v : View} (ran : applyNodes env nodes View.empty = .ok v)
    : keeps nodes v := by
  induction nodes using List.reverseRecOn generalizing v with
  | nil =>
      cases ran
      exact start
  | append_singleton nodes node ih =>
      rw [applyNodes_append, bind_eq_ok] at ran
      obtain ⟨u, first, last⟩ := ran
      rw [applyNodes_single] at last
      exact kept nodes node u v first (Reachable.sound ⟨nodes, first⟩) (ih first) last

end Happened

-- One redemption

/-- A node whose decision counts and redeems an invite for someone. -/
def Redeems (env : Env) (scope : Scope) (inv : Invite) (id : Key) (v : View) (node : Node)
    : Prop :=
  ∃ d redemption r, Counts env v node d ∧ d.scope = scope
    ∧ d.decision.body = .inviteRedeem redemption
    ∧ readBuffer (Encodings.redemption env.c) redemption = some r
    ∧ r.invite = inv ∧ r.identity = id

/-- A node whose decision counts and revokes an invite. -/
def Revokes (env : Env) (scope : Scope) (inv : Invite) (v : View) (node : Node) : Prop :=
  ∃ d invite, Counts env v node d ∧ d.scope = scope ∧ d.decision.body = .inviteRevoke invite
    ∧ readBuffer (Encodings.invite env.c) invite = some inv

section Redemption

variable {env : Env} {v w : View} {node : Node} {scope : Scope} {inv : Invite} {id : Key}

theorem Redeems.unique {other : Scope} {inv' : Invite} {id' : Key}
    (first : Redeems env scope inv id v node) (second : Redeems env other inv' id' v node)
    : other = scope ∧ inv' = inv ∧ id' = id := by
  obtain ⟨d, redemption, r, counts, at_, body, read, rfl, rfl⟩ := first
  obtain ⟨d', redemption', r', counts', at', body', read', rfl, rfl⟩ := second
  cases Option.some.inj (counts.reads.symm.trans counts'.reads)
  cases body.symm.trans body'
  cases Option.some.inj (read.symm.trans read')
  exact ⟨at'.symm.trans at_, rfl, rfl⟩

/-- What a redemption that counts found, and what it left of the ledger. -/
structure Redeemable (v w : View) (scope : Scope) (inv : Invite) (inviteId id : Key)
    : Prop where
  named : inv.id = some inviteId
  fresh : v.redeemed scope inviteId id = none
  valid : v.revoked scope inviteId = none
  unused : inv.uses ≠ 0 → (v.uses scope inviteId).getD 0 < inv.uses
  redeemed : ∃ entry, w.redeemed = (v.setRedeemed scope id inviteId (some entry)).redeemed
  uses : w.uses = (v.setUses scope inviteId (some ((v.uses scope inviteId).getD 0 + 1))).uses
  revoked : w.revoked = v.revoked

theorem Redeems.ledger (redeems : Redeems env scope inv id v node) (sound : v.Sound)
    (ran : applyNode env v node = .ok w)
    : ∃ inviteId, Redeemable v w scope inv inviteId id := by
  obtain ⟨d, redemption, r, counts, rfl, body, read, rfl, rfl⟩ := redeems
  obtain ⟨writer, chain, applied, known, here, writes, outcome, frame⟩ :=
    counts.decided sound ran (by simp [body])
  have scope : (contextAt v chain writer d.decision.stamp (env.codeOf node)).scope = d.scope :=
    (chainHere_path sound.tree here).head?
  rw [body] at outcome
  cases outcome with
  | skipped => cases writes
  | notes body w kind frame => cases kind
  | redeem redemption r' device inviteId found still =>
      obtain ⟨read', _, named, _, _, redeemable, _⟩ := of_accepted found
      cases Option.some.inj (read.symm.trans read')
      have ledger := (redeem_notes env
        (x := contextAt v chain writer d.decision.stamp (env.codeOf node))
        (v := { view := v }) r device inviteId).trans (.onlyListed frame)
      rw [scope] at ledger
      simp only [Decisions.redeemable, Bool.and_eq_true, Bool.not_eq_true', scope,
        Option.isNone_iff_eq_none, Bool.and_eq_false_iff, decide_eq_false_iff_not, not_not,
        not_le] at redeemable
      exact ⟨inviteId, named, redeemable.1.1.1.2, redeemable.1.1.2,
        fun limited => redeemable.2.resolve_left limited, ⟨_, ledger.redeemed⟩, ledger.uses,
        ledger.revoked⟩

/-- What is noted is a redemption, or leaves who redeemed what; nothing revoked is valid again. -/
theorem Noted.ledger {x : Context} {body : Body} {u : View} (noted : Noted env x v body u)
    : (u.redeemed = v.redeemed ∧ u.uses = v.uses
        ∧ ∀ s k, (v.revoked s k).isSome → (u.revoked s k).isSome)
      ∨ ∃ redemption r device inviteId, body = .inviteRedeem redemption
        ∧ accepted env v x redemption = some (r, device, inviteId)
        ∧ u = (v.setRedeemed x.scope r.identity inviteId (some ⟨x.stamp, x.author⟩)).setUses x.scope
          inviteId (some ((v.uses x.scope inviteId).getD 0 + 1)) := by
  cases noted with
  | redeemed redemption r device inviteId found =>
      exact .inr ⟨redemption, r, device, inviteId, rfl, found, rfl⟩
  | revoked invite inv gone found named fresh =>
      refine .inl ⟨rfl, rfl, fun s k still => ?_⟩
      simp only [View.setRevoked_revoked]
      split
      · rfl
      · exact still
  | _ => exact .inl ⟨rfl, rfl, fun s k still => still⟩

/-- Without a redemption that counts nobody comes to have redeemed anything. -/
theorem ledger_of_not_redeems (sound : v.Sound) (ran : applyNode env v node = .ok w)
    (none_ : ∀ scope inv id, ¬Redeems env scope inv id v node)
    : w.redeemed = v.redeemed ∧ w.uses = v.uses := by
  rcases (applyNode_step sound ran).noted sound with
    same | ⟨d, writer, chain, u, counts, known, here, noted, same⟩
  · exact ⟨same.redeemed, same.uses⟩
  · rw [same.redeemed, same.uses]
    rcases noted.ledger with ⟨redeemed, uses, _⟩ | ⟨redemption, r, device, inviteId, body, found, _⟩
    · exact ⟨redeemed, uses⟩
    · obtain ⟨read, _⟩ := of_accepted (v := { view := v }) found
      exact absurd ⟨d, redemption, r, counts, rfl, body, read, rfl, rfl⟩ (none_ _ _ _)

end Redemption

-- Every run

/-- What holds of an invite id's ledger after a log: the counter is the number of redeemers,
each of them redeemed an invite of that id, and limited ones were not redeemed by more.
-/
structure Accounted (env : Env) (nodes : List Node) (v : View) (scope : Scope) (inviteId : Key)
    : Prop where
  counted : {id | (v.redeemed scope inviteId id).isSome}.encard
    = ((v.uses scope inviteId).getD 0 : Nat)
  recorded : ∀ id, (v.redeemed scope inviteId id).isSome
    ↔ ∃ inv, inv.id = some inviteId ∧ Happened env (Redeems env scope inv id) nodes
  bounded : ∀ inv : Invite, inv.id = some inviteId → inv.uses ≠ 0
    → {id | Happened env (Redeems env scope inv id) nodes}.encard ≤ inv.uses

section Runs

variable {env : Env}

/-- A redemption of this id adds its redeemer to the set and one to the counter. -/
theorem Accounted.redeem {nodes : List Node} {node : Node} {u w : View} {scope : Scope}
    {inv : Invite} {inviteId id : Key} (accounted : Accounted env nodes u scope inviteId)
    (first : applyNodes env nodes View.empty = .ok u) (event : Redeems env scope inv id u node)
    (step : Redeemable u w scope inv inviteId id)
    : Accounted env (nodes ++ [node]) w scope inviteId := by
  obtain ⟨entry, redeemed⟩ := step.redeemed
  have grown : {i | (w.redeemed scope inviteId i).isSome}
      = insert id {i | (u.redeemed scope inviteId i).isSome} := by
    ext i
    rw [Set.mem_ofPred_eq, redeemed]
    by_cases same : i = id <;> simp [same]
  have absent : id ∉ {i | (u.redeemed scope inviteId i).isSome} := by simp [step.fresh]
  have among (inv' : Invite) (named : inv'.id = some inviteId)
      : {i | Happened env (Redeems env scope inv' i) nodes}
        ⊆ {i | (u.redeemed scope inviteId i).isSome} :=
    fun i happened => (accounted.recorded i).mpr ⟨inv', named, happened⟩
  constructor
  · rw [grown, Set.encard_insert_of_notMem absent, accounted.counted, step.uses]
    simp
  · intro i
    have either : (w.redeemed scope inviteId i).isSome
        ↔ i = id ∨ (u.redeemed scope inviteId i).isSome := by
      rw [← Set.mem_ofPred_eq (p := fun i => (w.redeemed scope inviteId i).isSome = true), grown]
      exact Set.mem_insert_iff
    rw [either]
    constructor
    · intro redeemer
      rcases redeemer with rfl | before
      · exact ⟨inv, step.named, (happened_snoc first).mpr (.inr event)⟩
      · obtain ⟨inv', named, happened⟩ := (accounted.recorded i).mp before
        exact ⟨inv', named, (happened_snoc first).mpr (.inl happened)⟩
    · intro happens
      obtain ⟨inv', named, happened⟩ := happens
      rcases (happened_snoc first).mp happened with before | now
      · exact .inr ((accounted.recorded i).mpr ⟨inv', named, before⟩)
      · exact .inl (event.unique now).2.2
  · intro inv' named limited
    by_cases same : inv' = inv
    · subst same
      have all : {i | Happened env (Redeems env scope inv' i) (nodes ++ [node])}
          ⊆ insert id {i | (u.redeemed scope inviteId i).isSome} := by
        intro i happened
        rcases (happened_snoc first).mp happened with before | now
        · exact .inr (among inv' named before)
        · exact .inl (event.unique now).2.2
      have room := step.unused limited
      calc {i | Happened env (Redeems env scope inv' i) (nodes ++ [node])}.encard
          ≤ (insert id {i | (u.redeemed scope inviteId i).isSome}).encard := Set.encard_le_encard all
        _ = ((u.uses scope inviteId).getD 0 : Nat) + 1 := by
            rw [Set.encard_insert_of_notMem absent, accounted.counted]
        _ ≤ inv'.uses := by exact_mod_cast room
    · refine le_trans (Set.encard_le_encard fun i happened => ?_)
        (accounted.bounded inv' named limited)
      rcases (happened_snoc first).mp happened with before | now
      · exact before
      · exact absurd (event.unique now).2.1 same

/-- What is no redemption of this id leaves its ledger as it was. -/
theorem Accounted.other {nodes : List Node} {node : Node} {u w : View} {scope : Scope}
    {inviteId : Key} (accounted : Accounted env nodes u scope inviteId)
    (first : applyNodes env nodes View.empty = .ok u)
    (none_ : ∀ inv id, inv.id = some inviteId → ¬Redeems env scope inv id u node)
    (redeemed : w.redeemed scope inviteId = u.redeemed scope inviteId)
    (uses : w.uses scope inviteId = u.uses scope inviteId)
    : Accounted env (nodes ++ [node]) w scope inviteId := by
  have still (inv : Invite) (named : inv.id = some inviteId) (id : Key)
      : Happened env (Redeems env scope inv id) (nodes ++ [node])
        ↔ Happened env (Redeems env scope inv id) nodes := by
    rw [happened_snoc first]
    exact or_iff_left (none_ inv id named)
  constructor
  · rw [redeemed, uses]
    exact accounted.counted
  · intro id
    rw [redeemed, accounted.recorded id]
    exact exists_congr fun inv => and_congr_right fun named => (still inv named id).symm
  · intro inv named limited
    simp only [still inv named]
    exact accounted.bounded inv named limited

theorem accounted {nodes : List Node} {v : View} (ran : applyNodes env nodes View.empty = .ok v)
    (scope : Scope) (inviteId : Key)
    : Accounted env nodes v scope inviteId := by
  refine applyNodes_snoc_keeps (fun nodes v => Accounted env nodes v scope inviteId) ?_ ?_ ran
  · constructor
    · simp [View.empty]
    · simp [View.empty, not_happened_nil]
    · simp [not_happened_nil]
  · intro nodes node u w first sound accounted last
    by_cases redeems : ∃ scope' inv id, Redeems env scope' inv id u node
    · obtain ⟨scope', inv, id, event⟩ := redeems
      obtain ⟨inviteId', step⟩ := event.ledger sound last
      by_cases here : scope' = scope ∧ inviteId' = inviteId
      · obtain ⟨rfl, rfl⟩ := here
        exact accounted.redeem first event step
      · have apart : ¬(scope = scope' ∧ inviteId = inviteId') :=
          fun same => here ⟨same.1.symm, same.2.symm⟩
        obtain ⟨entry, redeemed⟩ := step.redeemed
        refine accounted.other first (fun inv' id' named now => ?_) ?_ ?_
        · obtain ⟨rfl, rfl, _⟩ := event.unique now
          exact here ⟨rfl, Option.some.inj (step.named.symm.trans named)⟩
        · rw [redeemed]
          funext i
          exact if_neg fun same => apart ⟨same.1, same.2.1⟩
        · rw [step.uses]
          exact if_neg apart
    · have none_ : ∀ scope inv id, ¬Redeems env scope inv id u node :=
        fun s inv id event => redeems ⟨s, inv, id, event⟩
      obtain ⟨redeemed, uses⟩ := ledger_of_not_redeems sound last none_
      exact accounted.other first (fun inv id _ => none_ scope inv id) (by rw [redeemed])
        (by rw [uses])

-- After a revocation

/-- A revocation that counts is recorded. -/
theorem Revokes.recorded {v w : View} {node : Node} {scope : Scope} {inv : Invite}
    {inviteId : Key} (revokes : Revokes env scope inv v node) (named : inv.id = some inviteId)
    (sound : v.Sound) (ran : applyNode env v node = .ok w)
    : (w.revoked scope inviteId).isSome := by
  obtain ⟨d, invite, counts, rfl, body, read⟩ := revokes
  obtain ⟨writer, chain, applied, known, here, writes, outcome, frame⟩ :=
    counts.decided sound ran (by simp [body])
  have scope : (contextAt v chain writer d.decision.stamp (env.codeOf node)).scope = d.scope :=
    (chainHere_path sound.tree here).head?
  rw [body] at outcome
  cases outcome with
  | skipped => cases writes
  | notes body w kind frame => cases kind
  | revoke invite inv' inviteId' found named' fresh =>
      have same : inv' = inv := by
        unfold revocable at found
        simp only [read, Option.bind_eq_bind, Option.bind_some, Option.ite_none_right_eq_some,
          Option.some_inj] at found
        exact found.2.symm
      subst same
      cases Option.some.inj (named.symm.trans named')
      rw [(SameNotes.onlyListed frame).revoked]
      simp [scope]

/-- A revocation is never taken back, and nobody redeems the id after it. -/
theorem revoked_lasts {v w : View} {nodes : List Node} {scope : Scope} {inviteId : Key}
    (sound : v.Sound) (revoked : (v.revoked scope inviteId).isSome)
    (ran : applyNodes env nodes v = .ok w)
    : (w.revoked scope inviteId).isSome ∧ w.redeemed scope inviteId = v.redeemed scope inviteId := by
  refine (applyNodes_keeps (fun u => (u.revoked scope inviteId).isSome
    ∧ u.redeemed scope inviteId = v.redeemed scope inviteId) ?_ sound ⟨revoked, rfl⟩ ran).2
  intro u node t sound kept step
  obtain ⟨still, same⟩ := kept
  rcases step.noted sound with noted | ⟨d, writer, chain, s, counts, known, here, noted, rest⟩
  · rw [noted.revoked, noted.redeemed]
    exact ⟨still, same⟩
  · rw [rest.revoked, rest.redeemed]
    rcases noted.ledger with ⟨redeemed, _, kept⟩ | ⟨redemption, r, device, used, _, found, result⟩
    · rw [redeemed]
      exact ⟨kept _ _ still, same⟩
    · obtain ⟨_, _, _, _, _, redeemable, _⟩ := of_accepted (v := { view := u }) found
      simp only [Decisions.redeemable, Bool.and_eq_true, Option.isNone_iff_eq_none] at redeemable
      have valid := redeemable.1.1.2
      rw [result]
      refine ⟨still, ?_⟩
      funext id
      rw [← same]
      refine if_neg fun here => ?_
      rw [here.1, here.2.1, valid] at still
      cases still

/-- After any log, whoever recorded what in which order: an invite's counter is the number of
its redeemers, one that allows some uses was redeemed by no more people, and nobody was added
after a revocation of its id counted.
-/
theorem invites_accounted {nodes : List Node} {v : View}
    (ran : applyNodes env nodes View.empty = .ok v) (scope : Scope) (inviteId : Key)
    : Accounted env nodes v scope inviteId
      ∧ ∀ before node after u w inv, nodes = before ++ node :: after
        → applyNodes env before View.empty = .ok u → applyNode env u node = .ok w
        → Revokes env scope inv u node → inv.id = some inviteId
        → v.redeemed scope inviteId = w.redeemed scope inviteId := by
  refine ⟨accounted ran scope inviteId, ?_⟩
  intro before node after u w inv split first second revokes named
  have sound : u.Sound := Reachable.sound ⟨before, first⟩
  have later : applyNodes env after w = .ok v := by
    rw [split, applyNodes_append, first, ok_bind, applyNodes_cons, second, ok_bind] at ran
    exact ran
  exact (revoked_lasts ((applyNode_step sound second).sound sound)
    (revokes.recorded named sound second) later).2

end Runs

/-- Witness: a guest redeemed their invite, once. -/
theorem invites_accounted_guest
    : ∃ v, applyNodes (idealEnv (keyOf 1)) (makersLog ++ [guestNode]) View.empty = .ok v
      ∧ v.uses none (idOf 9) = some 1
      ∧ Accounted (idealEnv (keyOf 1)) (makersLog ++ [guestNode]) v none (idOf 9) := by
  have facts : ((applyNodes (idealEnv (keyOf 1)) (makersLog ++ [guestNode])
      View.empty).toOption.map fun v => v.uses none (idOf 9)) = some (some 1) := by
    decide +kernel
  obtain ⟨v, ran, uses⟩ := Option.map_eq_some_iff.mp facts
  exact ⟨v, ok_of_toOption ran, uses, (invites_accounted (ok_of_toOption ran) none (idOf 9)).1⟩

end Hypergraph.Decisions
