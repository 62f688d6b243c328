import Hypergraph.Decisions.Ledger

/-! What a redeemer is told of an invite before it is recorded (`inviteRefusal` in
`lib/decisions/state.js`), and what recording it does.
-/

namespace Hypergraph.Decisions

open Wire Js Encodings Invites

/-- Why a redemption would be refused at a time, if it would; `used`: how many people redeemed the
invite.
-/
def State.inviteRefusal (v : View) (chain : List Key) (inv : Invite) (id : Key) (now used : Nat)
    : Run (Option String) := do
  match inv.id with
  | none => throw .nullValue
  | some inviteId =>
      if inv.expires ≠ 0 && inv.expires < now then return some "INVITE_EXPIRED"
      if (v.revoked chain.head? inviteId).isSome then return some "INVITE_REVOKED"
      if inv.uses ≠ 0 && inv.uses ≤ used then return some "INVITE_USED_UP"
      if State.banned v chain id then return some "NOT_ALLOWED"
      if !(← mayInvite (State.roleOf v chain inv.maker) inv.role v.custom) then
        return some "NOT_ALLOWED"
      return none

/-- Someone a public scope takes for a member may not invite, as one with no role may not. -/
theorem mayInvite_fallback (v : View) (chain : List Key) (maker : Key) (role : String)
    : mayInvite (State.roleOf v chain maker) role v.custom
      = mayInvite (State.recordedRole v chain maker) role v.custom := by
  unfold State.roleOf State.recordedRole
  cases State.member v chain maker with
  | some m => rfl
  | none =>
      dsimp only [Option.map_none]
      split <;> rfl

/-- May somebody redeem it, as far as the invite, the time and they themselves go? -/
def openTo (v : View) (chain : List Key) (inv : Invite) (inviteId id : Key) (now : Nat) : Bool :=
  !bannedIn v chain id && (v.revoked chain.head? inviteId).isNone
    && !(inv.expires ≠ 0 && inv.expires < now)
    && !(inv.uses ≠ 0 && inv.uses ≤ (v.uses chain.head? inviteId).getD 0)

theorem inviteRefusal_eq_none {v : View} {chain : List Key} {inv : Invite} {inviteId id : Key}
    {now : Nat} (named : inv.id = some inviteId)
    : State.inviteRefusal v chain inv id now ((v.uses chain.head? inviteId).getD 0) = .ok none
      ↔ openTo v chain inv inviteId id now = true
        ∧ mayInvite (State.recordedRole v chain inv.maker) inv.role v.custom = .ok true := by
  unfold State.inviteRefusal openTo State.banned
  rw [named, mayInvite_fallback]
  dsimp only
  cases inv.expires ≠ 0 && inv.expires < now with
  | true => simp
  | false =>
  cases v.revoked chain.head? inviteId with
  | some revoked => simp
  | none =>
  cases inv.uses ≠ 0 && inv.uses ≤ (v.uses chain.head? inviteId).getD 0 with
  | true => simp
  | false =>
  cases bannedIn v chain id with
  | true => simp
  | false =>
  cases mayInvite (State.recordedRole v chain inv.maker) inv.role v.custom with
  | error thrown => simp
  | ok may => cases may <;> simp

/-- A redemption that no refusal tells of, though recording it throws: of an invite by the owner to
a role named like a property every object has, by someone who is about to be given it.
-/
def Unforeseen (v : View) (x : Context) (r : Redemption) (inviteId : Key) : Prop :=
  r.invite.role ∈ objectPrototype
    ∧ openTo v x.chain r.invite inviteId r.identity x.stamp = true
    ∧ State.recordedRole v x.chain r.invite.maker = some "owner"
    ∧ ((State.member v x.chain r.identity).isNone = true
      ∨ r.invite.subspaces.any
          (routeThrows v x r.invite r.identity (Effect.redeemCustom x r v)) = true)

instance (v : View) (x : Context) (r : Redemption) (inviteId : Key)
    : Decidable (Unforeseen v x r inviteId) := by
  unfold Unforeseen
  infer_instance

section Foretold

variable {env : Env} {v : View} {x : Context} {redemption : Buffer} {r : Redemption}
  {signed : Attested} {inviteId : Key}

/-- Recording a redemption notes it just where its checks let it through. -/
theorem redeemed_iff (sound : v.Sound) (fits : x.Fits v)
    (read : readBuffer (Encodings.redemption env.c) redemption = some r)
    (named : r.invite.id = some inviteId)
    (fresh : v.redeemed x.scope inviteId r.identity = none)
    : (∃ w, applyRedeem env x redemption { view := v } = .ok w
        ∧ (w.view.redeemed x.scope inviteId r.identity).isSome)
      ↔ redeemThrows env v x redemption = false ∧ (accepted env v x redemption).isSome := by
  obtain ⟨throws, ends⟩ := applyRedeem_ends env (v := { view := v }) sound fits redemption
  cases thrown : redeemThrows env v x redemption with
  | true =>
      obtain ⟨err, failed⟩ := throws thrown
      rw [failed]
      exact ⟨fun ⟨_, same, _⟩ => (nomatch same), fun ⟨same, _⟩ => (nomatch same)⟩
  | false =>
      rw [ends thrown]
      cases found : accepted env v x redemption with
      | none =>
          constructor
          · rintro ⟨_, same, noted⟩
            cases same
            rw [fresh] at noted
            cases noted
          · exact fun ⟨_, some_⟩ => (nomatch some_)
      | some entry =>
          obtain ⟨r', device, inviteId'⟩ := entry
          obtain ⟨read', _, named', _⟩ := of_accepted (v := { view := v }) found
          cases read.symm.trans read'
          cases named.symm.trans named'
          refine ⟨fun _ => ⟨rfl, rfl⟩, fun _ => ⟨_, rfl, ?_⟩⟩
          rw [(redeem_notes env (x := x) (v := { view := v }) r device inviteId).redeemed]
          simp

/-- What is asked of a redemption beside its signatures, as one who records it asks it. -/
theorem redeemable_openTo (fresh : v.redeemed x.scope inviteId r.identity = none)
    : redeemable v x r.invite inviteId r.identity
      = openTo v x.chain r.invite inviteId r.identity x.stamp := by
  unfold redeemable openTo
  rw [fresh, Option.isNone_none, Bool.and_true]
  rfl

end Foretold

/-- An invite is said to be good just where recording its redemption notes it, but for a role named
like a property every object has: what the owner invites to it is said to be good, and throws when
it is recorded.
-/
theorem refusal_foretells_iff {env : Env} {v : View} (reached : Reachable env v) {scope : Scope}
    {chain : List Key} (path : IsChain v scope chain) {redemption : Buffer} {r : Redemption}
    {signed : Attested} {inviteId : Key}
    (read : readBuffer (Encodings.redemption env.c) redemption = some r)
    (verified : verifyRedemption env.c env.keys r env.space = .ok (some signed))
    (here : r.invite.space = env.here scope) (named : r.invite.id = some inviteId)
    (fresh : v.redeemed scope inviteId r.identity = none) {key : Key} {writer : Writer}
    (known : v.writer key = some writer)
    (decides : holds (State.recordedRole v chain writer.identity) "decide" v.custom = true)
    (stamp : Nat) (code : Key)
    : (State.inviteRefusal v chain r.invite r.identity stamp ((v.uses scope inviteId).getD 0)
          = .ok none
        ↔ ∃ w, applyOne env ⟨stamp, .inviteRedeem redemption⟩ key { view := v } chain (some code)
            = .ok w ∧ (w.view.redeemed scope inviteId r.identity).isSome)
      ↔ ¬Unforeseen v (contextAt v chain writer stamp code) r inviteId := by
  have sound := reached.sound
  obtain ⟨x, isContext⟩ : ∃ x, contextAt v chain writer stamp code = x := ⟨_, rfl⟩
  have fits : x.Fits v := isContext ▸ contextAt_fits path writer stamp code
  have at_ : x.chain = chain := by rw [← isContext]; rfl
  have since : x.stamp = stamp := by rw [← isContext]; rfl
  have top : chain.head? = scope := path.head?
  have placed : x.scope = scope := by rw [Context.scope, at_, top]
  have may : holds x.authorRole "decide" v.custom = true := by rw [← isContext]; exact decides
  have applies : applyOne env ⟨stamp, .inviteRedeem redemption⟩ key { view := v } chain (some code)
      = applyRedeem env x redemption { view := v } := by
    rw [applyOne_eq (by rintro init ⟨⟩), known]
    dsimp only
    rw [contextOf_contextAt sound.topBan path, isContext]
    rfl
  have attested : signer env r = some signed := by
    unfold signer
    rw [verified]
  have plain := sound.plain.recordedRole chain r.invite.maker
  rw [isContext, applies, ← placed]
  rw [← placed] at fresh here
  rw [redeemed_iff sound fits read named fresh]
  have told := @inviteRefusal_eq_none v chain r.invite inviteId r.identity stamp named
  rw [top, ← placed] at told
  rw [told]
  have throws : redeemThrows env v x redemption
      = (decide (r.invite.role ∈ objectPrototype)
        && openTo v chain r.invite inviteId r.identity stamp
        && holds (State.recordedRole v chain r.invite.maker) "invite" v.custom
        && (State.recordedRole v chain r.invite.maker ≠ some "owner"
          || (State.member v chain r.identity).isNone
          || r.invite.subspaces.any
              (routeThrows v x r.invite r.identity (Effect.redeemCustom x r v)))) := by
    simp only [redeemThrows, redeemRoleThrows, may, read, Option.any_some, named, attested, Option.isSome_some, here,
      decide_true, Bool.true_and, Bool.and_true, redeemable_openTo fresh, at_, since]
  have accepts : (accepted env v x redemption).isSome
      = (openTo v chain r.invite inviteId r.identity stamp
        && invites (State.recordedRole v chain r.invite.maker) r.invite.role v.custom) := by
    simp only [accepted, read, attested, named, may, here, redeemable_openTo fresh, at_, since,
      Option.bind_eq_bind, Option.bind_some, decide_true, Bool.true_and]
    split
    · rename_i passes
      exact passes.symm
    · rename_i fails
      exact (Bool.eq_false_iff.mpr fails).symm
  rw [throws, accepts]
  unfold Unforeseen
  rw [at_, since]
  by_cases proto : r.invite.role ∈ objectPrototype
  · rw [mayInvite_inherited plain proto, invites_inherited proto]
    generalize openTo v chain r.invite inviteId r.identity stamp = opens
    generalize r.invite.subspaces.any _ = routes
    generalize (State.member v chain r.identity).isNone = stranger
    by_cases owner : State.recordedRole v chain r.invite.maker = some "owner"
    · have invites : holds (some "owner") "invite" v.custom = true := rfl
      rw [owner, invites]
      cases opens <;> cases routes <;> cases stranger <;> simp [proto]
    · cases holds (State.recordedRole v chain r.invite.maker) "invite" v.custom with
      | false => cases opens <;> simp [owner]
      | true => cases opens <;> simp [proto, owner]
  · rw [mayInvite_plain plain proto]
    cases openTo v chain r.invite inviteId r.identity stamp <;> simp [proto]

-- An owner's invites

def ownerLog : List Node := [sent (keyOf 1) 1 (initial (keyOf 1) (keyOf 10) (keyOf 11))]

/-- The view of a space its owner has begun. -/
def ownerView : View := (applyNodes (idealEnv (keyOf 1)) ownerLog .empty).toOption.getD .empty

theorem ownerView_reachable : Reachable (idealEnv (keyOf 1)) ownerView := by
  have ends : (applyNodes (idealEnv (keyOf 1)) ownerLog .empty).toOption.isSome = true := by
    decide +kernel
  unfold ownerView
  cases ran : applyNodes (idealEnv (keyOf 1)) ownerLog .empty with
  | error thrown => rw [ran] at ends; cases ends
  | ok v => exact ⟨ownerLog, ran⟩

/-- Someone redeems the owner's invite to a role. -/
def invited (role : String) : Redemption :=
  let inv := makeInvite (keyOf 1) (idOf 9) role 0 [] (keyOf 10) (keyOf 1)
  ⟨inv, keyOf 20, keyOf 21,
    attest (keyOf 20) (keyOf 21) (nsRedeem ++ keyOf 1 ++ idOf 9 ++ keyOf 20 ++ keyOf 21)⟩

def invitedBytes (role : String) : Buffer := some ((redemption compact).encode (invited role))

/-- Applied by the owner's first writer. -/
def recordedAt (role : String) : Run Counting :=
  applyOne (idealEnv (keyOf 1)) ⟨2, .inviteRedeem (invitedBytes role)⟩ (keyOf 1)
    { view := ownerView } [] (some (keyOf 7))

/-- Witness: an invite to be a member is good, and is recorded. -/
theorem refusal_foretells_member
    : State.inviteRefusal ownerView [] (invited "member").invite (keyOf 20) 2 0 = .ok none
      ∧ ∃ w, recordedAt "member" = .ok w ∧ (w.view.redeemed none (idOf 9) (keyOf 20)).isSome := by
  have told : State.inviteRefusal ownerView [] (invited "member").invite (keyOf 20) 2 0 = .ok none := by
    decide +kernel
  have known : ownerView.writer (keyOf 1) = some ⟨keyOf 10, some (keyOf 11), true⟩ := by
    decide +kernel
  have read : readBuffer (redemption compact) (invitedBytes "member") = some (invited "member") := by
    decide +kernel
  have verified : verifyRedemption compact idealKeys (invited "member") (keyOf 1)
      = .ok (some ⟨keyOf 20, keyOf 21⟩) := by
    decide +kernel
  have foretells := (refusal_foretells_iff ownerView_reachable .top read verified rfl rfl
    (by decide +kernel) known (by decide +kernel) 2 (keyOf 7)).mpr (by decide +kernel)
  have unused : (ownerView.uses none (idOf 9)).getD 0 = 0 := by decide +kernel
  rw [unused] at foretells
  exact ⟨told, foretells.mp told⟩

/-- An owner's invite to a role named `constructor` is said to be good, and throws. -/
theorem refusal_misses_constructor
    : Reachable (idealEnv (keyOf 1)) ownerView
      ∧ readBuffer (redemption compact) (invitedBytes "constructor") = some (invited "constructor")
      ∧ verifyRedemption compact idealKeys (invited "constructor") (keyOf 1)
        = .ok (some ⟨keyOf 20, keyOf 21⟩)
      ∧ (invited "constructor").invite.space = (idealEnv (keyOf 1)).here none
      ∧ ownerView.redeemed none (idOf 9) (keyOf 20) = none
      ∧ holds (State.recordedRole ownerView [] (keyOf 10)) "decide" ownerView.custom = true
      ∧ ¬(State.inviteRefusal ownerView [] (invited "constructor").invite (keyOf 20) 2
            ((ownerView.uses none (idOf 9)).getD 0) = .ok none
          ↔ ∃ w, recordedAt "constructor" = .ok w
            ∧ (w.view.redeemed none (idOf 9) (keyOf 20)).isSome) := by
  refine ⟨ownerView_reachable, by decide +kernel, by decide +kernel, rfl, by decide +kernel,
    by decide +kernel, fun foretells => ?_⟩
  obtain ⟨w, applied, _⟩ := foretells.mp (by decide +kernel)
  have fails : (recordedAt "constructor").toOption.isSome = false := by decide +kernel
  rw [applied] at fails
  cases fails

end Hypergraph.Decisions
