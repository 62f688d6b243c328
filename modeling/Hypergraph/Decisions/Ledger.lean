import Hypergraph.Decisions.Bans

/-! What the log keeps of invites: who redeemed one, how often, and whether it was revoked. All
of it is kept under the scope and the invite's id alone, which its maker chose.
-/

namespace Hypergraph.Decisions

open Wire Js Encodings Invites

-- An invite's standing

section Standing

variable (v : View) (scope : Scope) (inv : Invite) (inviteId : Key)

/-- Somebody may redeem an invite still: to a role there are invites to, neither revoked nor
used up.
-/
def stands : Bool :=
  inv.role ≠ "owner" && inv.role ≠ "" && (v.revoked scope inviteId).isNone
    && !(inv.uses ≠ 0 && inv.uses ≤ (v.uses scope inviteId).getD 0)

/-- How often an invite can be redeemed yet. -/
def usesLeft : ℕ∞ :=
  if !stands v scope inv inviteId then 0
  else if inv.uses = 0 then ⊤
  else (inv.uses - (v.uses scope inviteId).getD 0 : Nat)

/-- May this identity redeem it at this time, as far as the invite goes? -/
def awaits (id : Key) (stamp : Nat) : Bool :=
  stands v scope inv inviteId && (v.redeemed scope inviteId id).isNone
    && !(inv.expires ≠ 0 && inv.expires < stamp)

end Standing

-- What decisions about an invite write

/-- What the log keeps of invites is the same. -/
structure SameLedger (v w : View) : Prop where
  redeemed : w.redeemed = v.redeemed
  uses : w.uses = v.uses
  revoked : w.revoked = v.revoked

namespace SameLedger

variable {u v w : View}

@[refl]
theorem refl (v : View) : SameLedger v v := ⟨rfl, rfl, rfl⟩

theorem trans (first : SameLedger u v) (second : SameLedger v w) : SameLedger u w :=
  ⟨second.redeemed.trans first.redeemed, second.uses.trans first.uses,
    second.revoked.trans first.revoked⟩

theorem onlyCuts (frame : v.OnlyCuts w) : SameLedger v w := by
  constructor <;> rw [frame]

theorem onlyWriters (frame : v.OnlyWriters w) : SameLedger v w := by
  constructor <;> rw [frame]

theorem setRedeemed (same : SameLedger v w) (scope : Scope) (id inviteId : Key)
    (entry : Option Redeemed)
    : SameLedger (v.setRedeemed scope id inviteId entry) (w.setRedeemed scope id inviteId entry) where
  redeemed := by
    funext s k i
    simp only [View.setRedeemed_redeemed, same.redeemed]
  uses := same.uses
  revoked := same.revoked

theorem setUses (same : SameLedger v w) (scope : Scope) (inviteId : Key) (entry : Option Nat)
    : SameLedger (v.setUses scope inviteId entry) (w.setUses scope inviteId entry) where
  redeemed := same.redeemed
  uses := by
    funext s k
    simp only [View.setUses_uses, same.uses]
  revoked := same.revoked

end SameLedger

/-- What no decision about rights or writer keys changes. -/
structure SameNotes (v w : View) : Prop extends SameLedger v w where
  mod : w.mod = v.mod
  epochs : w.epochs = v.epochs
  types : w.types = v.types
  typesAt : w.typesAt = v.typesAt
  listed : w.listed = v.listed

namespace SameNotes

variable {u v w : View}

@[refl]
theorem refl (v : View) : SameNotes v v := ⟨.refl v, rfl, rfl, rfl, rfl, rfl⟩

theorem trans (first : SameNotes u v) (second : SameNotes v w) : SameNotes u w where
  toSameLedger := first.toSameLedger.trans second.toSameLedger
  mod := second.mod.trans first.mod
  epochs := second.epochs.trans first.epochs
  types := second.types.trans first.types
  typesAt := second.typesAt.trans first.typesAt
  listed := second.listed.trans first.listed

theorem onlyCuts (frame : v.OnlyCuts w) : SameNotes v w := by
  refine ⟨.onlyCuts frame, ?_, ?_, ?_, ?_, ?_⟩ <;> rw [frame]

theorem onlyWriters (frame : v.OnlyWriters w) : SameNotes v w := by
  refine ⟨.onlyWriters frame, ?_, ?_, ?_, ?_, ?_⟩ <;> rw [frame]

theorem onlyListed (frame : v.OnlyListed w) : SameNotes v w := by
  refine ⟨⟨?_, ?_, ?_⟩, ?_, ?_, ?_, ?_, ?_⟩ <;> rw [frame]

theorem setMember (scope : Scope) (id : Key) (entry : Option Member)
    : SameNotes v (v.setMember scope id entry) :=
  ⟨⟨rfl, rfl, rfl⟩, rfl, rfl, rfl, rfl, rfl⟩

/-- Noting a redemption commutes with what leaves the notes alone. -/
theorem noteRedeemed (same : SameNotes v w) (scope : Scope) (id inviteId : Key)
    (entry : Option Redeemed) (uses : Option Nat)
    : SameNotes ((v.setRedeemed scope id inviteId entry).setUses scope inviteId uses)
        ((w.setRedeemed scope id inviteId entry).setUses scope inviteId uses) where
  toSameLedger := (same.toSameLedger.setRedeemed scope id inviteId entry).setUses scope inviteId uses
  mod := same.mod
  epochs := same.epochs
  types := same.types
  typesAt := same.typesAt
  listed := same.listed

end SameNotes

section Redeem

variable {env : Env} {x : Context} {v : Counting}

variable (env) in
theorem enter_notes (r : Redemption) (device : Key)
    : SameNotes v.view (Effect.enter env x r device v).1.view := by
  unfold Effect.enter
  split
  · obtain ⟨u, cuts, writers⟩ := arrive_frame (x := x) r device v
    exact (((SameNotes.setMember _ _ _).trans (.onlyCuts cuts)).trans
      (.onlyWriters writers)).trans (.onlyWriters (settle_frame env _ _))
  · rfl

theorem routes_notes (inv : Invite) (id : Key) (custom : Custom) (list : List Key)
    : SameNotes v.view (list.foldl (Effect.route x inv id custom) v).view := by
  refine foldl_keeps (fun u : Counting => SameNotes v.view u.view) _ (fun u key same => ?_)
    list v (.refl _)
  rcases route_cases (x := x) inv id custom u key with still | cuts
  · rwa [still]
  · exact (same.trans (.setMember _ _ _)).trans (.onlyCuts cuts)

variable (env) in
/-- Beside the rights it gives, a redemption is noted for its redeemer and counted once. -/
theorem redeem_notes (r : Redemption) (device inviteId : Key)
    : SameNotes ((v.view.setRedeemed x.scope r.identity inviteId
          (some ⟨x.stamp, x.author⟩)).setUses x.scope inviteId
            (some ((v.view.uses x.scope inviteId).getD 0 + 1)))
        (Effect.redeem env x r device inviteId v).view :=
  ((enter_notes env (x := x) (v := v) r device).trans (routes_notes (x := x) r.invite r.identity
    (Effect.enter env x r device v).2 r.invite.subspaces)).noteRedeemed
      x.scope r.identity inviteId _ _

end Redeem

-- Two invites

/-- An invite can be redeemed by the same identities at the same times, and as often. -/
structure Untouched (v w : View) (scope : Scope) (inv : Invite) (inviteId : Key) : Prop where
  awaits : ∀ id stamp, awaits w scope inv inviteId id stamp = awaits v scope inv inviteId id stamp
  usesLeft : usesLeft w scope inv inviteId = usesLeft v scope inv inviteId

section Untouched

variable {v w : View} {scope : Scope} {inv : Invite} {inviteId : Key}

theorem SameLedger.stands (same : SameLedger v w)
    : Decisions.stands w scope inv inviteId = Decisions.stands v scope inv inviteId := by
  unfold Decisions.stands
  rw [same.revoked, same.uses]

theorem SameLedger.untouched (same : SameLedger v w) : Untouched v w scope inv inviteId where
  awaits id stamp := by
    unfold Decisions.awaits
    rw [same.stands, same.redeemed]
  usesLeft := by
    unfold Decisions.usesLeft
    rw [same.stands, same.uses]

theorem Untouched.trans {u : View} (first : Untouched u v scope inv inviteId)
    (second : Untouched v w scope inv inviteId)
    : Untouched u w scope inv inviteId :=
  ⟨fun id stamp => (second.awaits id stamp).trans (first.awaits id stamp),
    second.usesLeft.trans first.usesLeft⟩

theorem awaits_of_stands (standing : stands v scope inv inviteId = true) {id : Key}
    (fresh : v.redeemed scope inviteId id = none)
    : awaits v scope inv inviteId id 0 = true := by
  simp [Decisions.awaits, standing, fresh]

theorem usesLeft_of_stands (standing : stands v scope inv inviteId = true)
    : usesLeft v scope inv inviteId ≠ 0 := by
  unfold usesLeft
  rw [standing]
  simp only [stands, Bool.and_eq_true, Bool.not_eq_true', Bool.and_eq_false_iff,
    decide_eq_false_iff_not, not_not, not_le] at standing
  simp only [Bool.not_true, Bool.false_eq_true, if_false]
  split
  · simp
  · rename_i limited
    have more := standing.2.resolve_left limited
    simp only [ne_eq, Nat.cast_eq_zero]
    omega

theorem untouched_of_fallen (before : stands v scope inv inviteId = false)
    (after : stands w scope inv inviteId = false)
    : Untouched v w scope inv inviteId where
  awaits id stamp := by simp [Decisions.awaits, before, after]
  usesLeft := by simp [Decisions.usesLeft, before, after]

/-- A redemption of an id touches just the invites with that id that stand. -/
theorem untouched_redeemed_iff {used : Key} {id : Key} {entry : Redeemed}
    (fresh : v.redeemed scope used id = none)
    : Untouched v ((v.setRedeemed scope id used (some entry)).setUses scope used
          (some ((v.uses scope used).getD 0 + 1))) scope inv inviteId
      ↔ inviteId ≠ used ∨ stands v scope inv inviteId = false := by
  by_cases same : inviteId = used
  · subst same
    simp only [ne_eq, not_true_eq_false, false_or]
    constructor
    · intro untouched
      by_contra standing
      have awaited := awaits_of_stands (by simpa using standing) fresh
      rw [← untouched.awaits] at awaited
      simp [Decisions.awaits] at awaited
    · intro fallen
      refine untouched_of_fallen fallen ?_
      simp only [stands, Bool.and_eq_false_iff, Bool.not_eq_false', Bool.and_eq_true,
        decide_eq_true_eq] at fallen ⊢
      rcases fallen with revoked | ⟨limited, spent⟩
      · exact .inl revoked
      · refine .inr ⟨limited, ?_⟩
        simp only [View.setUses_uses, and_self, if_true, Option.getD_some]
        omega
  · simp only [ne_eq, same, not_false_eq_true, true_or, iff_true]
    constructor
    · intro id' stamp
      simp [Decisions.awaits, stands, same]
    · simp [Decisions.usesLeft, stands, same]

theorem untouched_revoked_iff {gone : Key} {entry : Recorded}
    : Untouched v (v.setRevoked scope gone (some entry)) scope inv inviteId
      ↔ inviteId ≠ gone ∨ stands v scope inv inviteId = false := by
  by_cases same : inviteId = gone
  · subst same
    have fallen : stands (v.setRevoked scope inviteId (some entry)) scope inv inviteId = false := by
      simp [stands]
    simp only [ne_eq, not_true_eq_false, false_or]
    constructor
    · intro untouched
      by_contra standing
      refine usesLeft_of_stands (by simpa using standing) (untouched.usesLeft.symm.trans ?_)
      simp [Decisions.usesLeft, fallen]
    · exact fun before => untouched_of_fallen before fallen
  · simp only [ne_eq, same, not_false_eq_true, true_or, iff_true]
    constructor
    · intro id' stamp
      simp [Decisions.awaits, stands, same]
    · simp [Decisions.usesLeft, stands, same]

end Untouched

-- One node

/-- A decision about an invite by others than those who decide: a redemption of it, or its
maker's revocation of it.
-/
inductive About (env : Env) (v : View) (node : Node) (d : Incoming) (inv : Invite) : Prop
  | redeemed (redemption : Buffer) (r : Redemption)
      (body : d.decision.body = .inviteRedeem redemption)
      (read : readBuffer (Encodings.redemption env.c) redemption = some r)
      (same : r.invite = inv)
    : About env v node d inv
  | revoked (invite : Buffer) (body : d.decision.body = .inviteRevoke invite)
      (read : readBuffer (Encodings.invite env.c) invite = some inv) (maker : Writer)
      (known : v.writer node.from_ = some maker) (theirs : maker.identity = inv.maker)
      (undeciding : ∀ chain, chainHere v d = some chain
        → holds (State.recordedRole v chain maker.identity) "decide" v.custom = false)
    : About env v node d inv

theorem Untouched.congr {v u w : View} {scope : Scope} {inv : Invite} {inviteId : Key}
    (same : SameLedger u w)
    : Untouched v w scope inv inviteId ↔ Untouched v u scope inv inviteId := by
  have back : SameLedger w u := ⟨same.redeemed.symm, same.uses.symm, same.revoked.symm⟩
  exact ⟨fun untouched => untouched.trans back.untouched,
    fun untouched => untouched.trans same.untouched⟩

/-- A decision about one invite leaves another alone just when they differ in their ids, or
nobody could redeem the other any more.
-/
theorem invites_apart_iff {env : Env} {v w : View} {node : Node} {d : Incoming}
    (reached : Reachable env v) (counts : Counts env v node d)
    (ran : applyNode env v node = .ok w) {a b : Invite} (about : About env v node d b)
    {aId : Key} (named : a.id = some aId)
    : Untouched v w d.scope a aId ↔ a.id ≠ b.id ∨ stands v d.scope a aId = false := by
  have sound := reached.sound
  have decided := counts.decided sound ran
  have listed {applied : Counting} (frame : applied.view.OnlyListed w)
      : SameLedger applied.view w := by
    constructor <;> rw [frame]
  cases about with
  | redeemed redemption r body read same =>
      subst same
      obtain ⟨writer, chain, applied, known, here, writes, outcome, frame⟩ :=
        decided (by simp [body])
      have scope : (contextAt v chain writer d.decision.stamp (env.codeOf node)).scope
          = d.scope := (chainHere_path sound.tree here).head?
      rw [body] at outcome
      cases outcome with
      | skipped => cases writes
      | notes body w kind frame => cases kind
      | redeem redemption r' device inviteId found still =>
          obtain ⟨read', _, inviteNamed, _, _, redeemable, _⟩ := of_accepted found
          cases Option.some.inj (read.symm.trans read')
          have ledger := redeem_notes env
            (x := contextAt v chain writer d.decision.stamp (env.codeOf node))
            (v := { view := v }) r device inviteId
          rw [Untouched.congr (ledger.toSameLedger.trans (listed frame)), scope, untouched_redeemed_iff, named,
            inviteNamed]
          · simp
          · simp only [Decisions.redeemable, Bool.and_eq_true, scope] at redeemable
            exact Option.isNone_iff_eq_none.mp redeemable.1.1.1.2
  | revoked invite body read maker known theirs undeciding =>
      obtain ⟨writer, chain, applied, known, here, writes, outcome, frame⟩ :=
        decided (by simp [body])
      have scope : (contextAt v chain writer d.decision.stamp (env.codeOf node)).scope
          = d.scope := (chainHere_path sound.tree here).head?
      rw [body] at outcome
      cases outcome with
      | skipped => cases writes
      | notes body w kind frame => cases kind
      | revoke invite inv inviteId found inviteNamed fresh =>
          have same : inv = b := by
            unfold revocable at found
            simp only [read, Option.bind_eq_bind, Option.bind_some,
              Option.ite_none_right_eq_some, Option.some_inj] at found
            exact found.2.symm
          subst same
          rw [Untouched.congr (listed frame), Counting.write_view, scope, untouched_revoked_iff,
            named, inviteNamed]
          simp

-- Two invites with one id

/-- An owner, and an admin they made. -/
def makersLog : List Node :=
  let space := keyOf 1
  [sent space 1 (initial space (keyOf 10) (keyOf 11)),
    sent space 2 (.roleSet { identity := keyOf 30, role := "admin", cut := [] })]

/-- The admin's invite for guests, redeemed. -/
def guestInvite : Invite := makeInvite (keyOf 1) (idOf 9) "guest" 0 [] (keyOf 30) (keyOf 1)

def guestNode : Node := sent (keyOf 1) 3 (redeeming guestInvite (keyOf 20) (keyOf 21))

/-- The owner's invite for one member, with some id. -/
def memberInvite (inviteId : Key) : Invite :=
  makeInvite (keyOf 1) inviteId "member" 1 [] (keyOf 10) (keyOf 1)

/-- The guest's redemption counts, whatever other invites there are. -/
theorem guest_redeems
    : ∃ v w d, Reachable (idealEnv (keyOf 1)) v ∧ Counts (idealEnv (keyOf 1)) v guestNode d
      ∧ applyNode (idealEnv (keyOf 1)) v guestNode = .ok w
      ∧ About (idealEnv (keyOf 1)) v guestNode d guestInvite ∧ d.scope = none
      ∧ stands v none (memberInvite (idOf 9)) (idOf 9) = true
      ∧ stands w none (memberInvite (idOf 9)) (idOf 9) = false := by
  have reads : readNode compact guestNode.value
      = some ⟨⟨3, redeeming guestInvite (keyOf 20) (keyOf 21)⟩, none, false⟩ := by
    decide +kernel
  have facts : ((applyNodes (idealEnv (keyOf 1)) makersLog View.empty).toOption.bind fun v =>
      (applyIncoming (idealEnv (keyOf 1)) v guestNode
        ⟨⟨3, redeeming guestInvite (keyOf 20) (keyOf 21)⟩, none, false⟩).toOption.bind fun a =>
      (applyNode (idealEnv (keyOf 1)) v guestNode).toOption.map fun w =>
      decide (0 < a.writes) && stands v none (memberInvite (idOf 9)) (idOf 9)
        && !stands w none (memberInvite (idOf 9)) (idOf 9)) = some true := by
    decide +kernel
  simp only [Option.bind_eq_some_iff, Option.map_eq_some_iff, Bool.and_eq_true,
    decide_eq_true_eq, Bool.not_eq_true'] at facts
  obtain ⟨v, first, a, applied, w, second, ⟨counts, before⟩, after⟩ := facts
  have read : readBuffer (Encodings.redemption compact) (some ((redemption compact).encode
      ⟨guestInvite, keyOf 20, keyOf 21, attest (keyOf 20) (keyOf 21) (nsRedeem
        ++ guestInvite.space ++ guestInvite.id.getD [] ++ keyOf 20 ++ keyOf 21)⟩))
      = some ⟨guestInvite, keyOf 20, keyOf 21, attest (keyOf 20) (keyOf 21) (nsRedeem
        ++ guestInvite.space ++ guestInvite.id.getD [] ++ keyOf 20 ++ keyOf 21)⟩ := by
    decide +kernel
  exact ⟨v, w, _, ⟨makersLog, ok_of_toOption first⟩, ⟨reads, a, ok_of_toOption applied, counts⟩,
    ok_of_toOption second, .redeemed _ _ rfl read rfl, rfl, before, after⟩

/-- Witness: an invite of another id is left alone. -/
theorem invites_apart_other
    : ∃ v w d, Counts (idealEnv (keyOf 1)) v guestNode d
      ∧ Untouched v w d.scope (memberInvite (idOf 8)) (idOf 8) := by
  obtain ⟨v, w, d, reached, counts, ran, about, _⟩ := guest_redeems
  exact ⟨v, w, d, counts, (invites_apart_iff reached counts ran about rfl).mpr
    (.inl (by decide))⟩

/-- An invite for one member, validly signed, is used up by the redemption of another of the
same id that someone else made.
-/
theorem invites_of_one_id
    : ∃ v w d, Reachable (idealEnv (keyOf 1)) v ∧ Counts (idealEnv (keyOf 1)) v guestNode d
      ∧ applyNode (idealEnv (keyOf 1)) v guestNode = .ok w
      ∧ About (idealEnv (keyOf 1)) v guestNode d guestInvite
      ∧ memberInvite (idOf 9) ≠ guestInvite
      ∧ verifyInvite compact idealKeys (memberInvite (idOf 9)) (keyOf 1) = true
      ∧ ¬Untouched v w d.scope (memberInvite (idOf 9)) (idOf 9) := by
  obtain ⟨v, w, d, reached, counts, ran, about, scope, before, after⟩ := guest_redeems
  refine ⟨v, w, d, reached, counts, ran, about, by decide, by decide +kernel, fun untouched => ?_⟩
  rw [scope] at untouched
  refine usesLeft_of_stands before (untouched.usesLeft.symm.trans ?_)
  simp [Decisions.usesLeft, after]

end Hypergraph.Decisions
