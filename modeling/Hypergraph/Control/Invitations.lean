import Hypergraph.Lib.Joined
import Hypergraph.Control.Calm

/-! A community's invites: their uses are the redemptions counted, none after a revocation, and what a
redemption or a revocation of one does to the others. Both are kept by an invite's id, which its maker
chooses.
-/

namespace Hypergraph.Control

open Wire Js Engine
open Governance (someone)

variable {W Number : Type} (peer : Peer W Number) (s s' : State W Number) (node : Node Number)

-- Invites, their uses and who may redeem them

/-- An event of an author that revokes an invite. -/
def RevokesInvite (author : String) (inv : SignedInvite) : Prop :=
  ∃ fields, node.value = .object fields
    ∧ Json.string? (Json.field fields "type") = some "revokeInvite"
    ∧ peer.signer fields = some author
    ∧ decodeInvite peer.primitives (Json.string? (Json.field fields "invite")) = some inv

/-- The uses recorded of an invite's id. -/
def usesOf (id : String) : Nat := s.view.uses[id]?.getD 0

/-- Is a redemption's key one of `<id>:*`? -/
def isOf (id key : String) : Bool := (id ++ ":").toList.isPrefixOf key.toList

/-- The entries `redeemed:<id>:*`. -/
def redemptionsOf (id : String) : Nat := (s.view.redeemed.filter fun key _ => isOf id key).size

/-- Who may redeem an invite, and how often it was redeemed, are the same in two states. -/
structure Alike (inv : Invite) : Prop where
  redeems : ∀ timestamp r, r.invite.toInvite = inv
    → (Redeems peer s timestamp r ↔ Redeems peer s' timestamp r)
  uses : usesOf s' (toHex inv.id) = usesOf s (toHex inv.id)

/-- A node that redeems or revokes another invite leaves this one alone, unless it was decided by an
admin.
-/
structure LeavesAlone (inv : Invite) : Prop where
  redeeming : ∀ author timestamp r, Records peer node author timestamp r
    → ¬ Above peer (s.roleOf (toHex r.invite.maker)) 3 → inv ≠ r.invite.toInvite → Alike peer s s' inv
  revoking : ∀ author revoked, RevokesInvite peer node author revoked
    → ¬ Above peer (s.roleOf author) 3 → inv ≠ revoked.toInvite → Alike peer s s' inv

/-- What a redemption does to a member's role: nothing, or it gives the invite's, a step up that its
maker could make.
-/
def RoleKept (r : SignedRedemption) (member : String) : Prop :=
  s'.roleOf member = s.roleOf member
    ∨ ∃ role current, r.invite.role = some role ∧ s'.roleOf member = some (.string role)
      ∧ mayAssign (s.roleOf (toHex r.invite.maker)) (s.roleOf member) (some (.string role))
      ∧ rankName peer.numbers (s.roleOf member) = some current ∧ stepsUp current role

/-- No other invite with this one's id is redeemed, but where an admin made it and uses of this one are
left, or revoked by who made it and is no admin, unless the id is revoked already.
-/
structure Own (inv : Invite) : Prop where
  redeemed : ∀ author timestamp r, Records peer node author timestamp r
    → Above peer (s.roleOf author) 1 → Redeems peer s timestamp r → inv.id = r.invite.id
    → inv = r.invite.toInvite
      ∨ Above peer (s.roleOf (toHex r.invite.maker)) 3
        ∧ (inv.uses = 0 ∨ usesOf s (toHex inv.id) < inv.uses)
  revoked : ∀ author revoked, RevokesInvite peer node author revoked → peer.verifyInvite revoked
    → author = toHex revoked.maker → ¬ Above peer (s.roleOf author) 3
    → s.view.invitesRevoked[toHex revoked.id]? = none → inv.id = revoked.id → inv = revoked.toInvite

section Proofs

variable {peer s s' node}

-- Counting

theorem colon_not_mem_toHex {bytes : Bytes} : ':' ∉ (toHex bytes).toList := by
  rw [toHex, String.toList_ofList]
  intro mem
  have digit := hexValue_of_mem mem
  revert digit
  decide

theorem isOf_key {id : String} {inv : Bytes} (identity : Bytes)
    : isOf id (toHex inv ++ ":" ++ toHex identity) = true ↔ id = toHex inv := by
  rw [isOf, List.isPrefixOf_iff_prefix]
  simp only [String.toList_append]
  constructor
  · rintro ⟨rest, same⟩
    rw [List.append_assoc, List.append_assoc] at same
    exact String.toList_injective (Joined.append_cons_inj same colon_not_mem_toHex colon_not_mem_toHex).1
  · rintro rfl
    exact List.prefix_append _ _

theorem redeemed_apart {inv identity inv' identity' : Bytes}
    (same : toHex inv ++ ":" ++ toHex identity = toHex inv' ++ ":" ++ toHex identity')
    : inv = inv' ∧ identity = identity' := by
  have lists := congrArg String.toList same
  simp only [String.toList_append, List.append_assoc] at lists
  obtain ⟨first, second⟩ := Joined.append_cons_inj lists colon_not_mem_toHex colon_not_mem_toHex
  exact ⟨toHex_injective (String.toList_injective first), toHex_injective (String.toList_injective second)⟩

/-- A redemption counted adds one to its invite's, and none to another's. -/
theorem redemptionsOf_putRedemption {author : String} {timestamp : Option (Json Number)} {r : Redemption}
    (new : s.view.redeemed[toHex r.invite.id ++ ":" ++ toHex r.identity]? = none) (id : String)
    : redemptionsOf (s.putRedemption author timestamp r) id
      = redemptionsOf s id + if id = toHex r.invite.id then 1 else 0 := by
  unfold redemptionsOf State.putRedemption
  by_cases same : id = toHex r.invite.id
  · have has := (isOf_key r.identity).mpr same
    rw [if_pos same, Table.filter_insert_of_has has, Std.ExtTreeMap.size_insert, if_neg]
    intro mem
    rw [Std.ExtTreeMap.contains_eq_isSome_getElem?, Std.ExtTreeMap.getElem?_filter', new] at mem
    cases mem
  · have out := Bool.eq_false_iff.mpr fun has => same ((isOf_key r.identity).mp has)
    rw [if_neg same, Table.filter_insert out]
    rfl

theorem usesOf_putRedemption {author : String} {timestamp : Option (Json Number)} {r : Redemption}
    (id : String)
    : usesOf (s.putRedemption author timestamp r) id
      = usesOf s id + if id = toHex r.invite.id then 1 else 0 := by
  unfold usesOf State.putRedemption
  rw [Std.ExtTreeMap.getElem?_insert]
  by_cases same : id = toHex r.invite.id
  · simp [same]
  · simp [same, Ne.symm same]

theorem Redeems.new {timestamp : Option (Json Number)} {r : SignedRedemption}
    (redeems : Redeems peer s timestamp r)
    : s.view.redeemed[toHex r.invite.id ++ ":" ++ toHex r.identity]? = none := by
  have redeemable := redeems.redeemable
  simp only [State.redeemable, Bool.and_eq_true] at redeemable
  simpa using redeemable.1.2

theorem Redeems.unrevoked {timestamp : Option (Json Number)} {r : SignedRedemption}
    (redeems : Redeems peer s timestamp r)
    : s.view.invitesRevoked[toHex r.invite.id]? = none := by
  have redeemable := redeems.redeemable
  simp only [State.redeemable, Bool.and_eq_true] at redeemable
  simpa using redeemable.2

/-- What gives a role leaves what is recorded of invites. -/
theorem Gives.invites {r : SignedRedemption} (gives : Gives peer s r s')
    : s'.view.redeemed = s.view.redeemed ∧ s'.view.uses = s.view.uses
      ∧ s'.view.invitesRevoked = s.view.invitesRevoked ∧ s'.view.channels = s.view.channels := by
  cases gives <;> exact ⟨rfl, rfl, rfl, rfl⟩

/-- A step counts one redemption, or none. -/
theorem counts_of_step (step : Step peer s node s')
    : (∀ id, usesOf s' id = usesOf s id ∧ redemptionsOf s' id = redemptionsOf s id)
      ∨ ∃ author timestamp r, Records peer node author timestamp r ∧ Above peer (s.roleOf author) 1
        ∧ Redeems peer s timestamp r
        ∧ ∀ id, usesOf s' id = usesOf s id + (if id = toHex r.invite.id then 1 else 0)
          ∧ redemptionsOf s' id = redemptionsOf s id + if id = toHex r.invite.id then 1 else 0 := by
  cases step with
  | removeRole =>
      left
      intro id
      unfold usesOf redemptionsOf
      rw [view_removeRole]
      exact ⟨rfl, rfl⟩
  | @redeem author timestamp r s'' records above redeems _ gives =>
      obtain ⟨redeemed, uses, _⟩ := gives.invites
      refine .inr ⟨author, timestamp, r, records, above, redeems, fun id => ?_⟩
      rw [usesOf_putRedemption, redemptionsOf_putRedemption (by rw [redeemed]; exact redeems.new)]
      unfold usesOf redemptionsOf
      rw [redeemed, uses]
      exact ⟨rfl, rfl⟩
  | _ => exact .inl fun _ => ⟨rfl, rfl⟩

/-- An id that is revoked stays so, and no redemption of it is counted. -/
theorem revoked_step {id : String} (revoked : (s.view.invitesRevoked[id]?).isSome)
    (step : Step peer s node s')
    : (s'.view.invitesRevoked[id]?).isSome ∧ redemptionsOf s' id = redemptionsOf s id := by
  constructor
  · cases step with
    | removeRole =>
        rw [view_removeRole]
        exact revoked
    | redeem _ _ _ _ gives =>
        simp only [State.putRedemption, gives.invites.2.2.1]
        exact revoked
    | revokeInvite =>
        simp only [State.putInviteRevoked, Std.ExtTreeMap.getElem?_insert]
        split
        · rfl
        · exact revoked
    | _ => exact revoked
  · rcases counts_of_step step with same | ⟨author, timestamp, r, _, _, redeems, counts⟩
    · exact (same id).2
    · rw [(counts id).2, if_neg]
      · rfl
      · rintro rfl
        rw [redeems.unrevoked] at revoked
        cases revoked

/-- Where no other with its id counts, an invite is redeemed no more often than it may be. -/
theorem limit_step {inv : Invite} (own : Own peer s node inv) (step : Step peer s node s')
    (limited : 0 < inv.uses) (limit : usesOf s (toHex inv.id) ≤ inv.uses)
    : usesOf s' (toHex inv.id) ≤ inv.uses := by
  rcases counts_of_step step with same | ⟨author, timestamp, r, records, above, redeems, counts⟩
  · rw [(same _).1]
    exact limit
  rw [(counts _).1]
  split
  · rename_i id
    have id_ : inv.id = r.invite.id := toHex_injective id
    rcases own.redeemed author timestamp r records above redeems id_ with rfl | ⟨_, left⟩
    · have givable := redeems.givable
      simp only [State.givable, Bool.and_eq_true, Bool.or_eq_true, decide_eq_true_eq] at givable
      rcases givable.1 with unlimited | left
      · omega
      · exact left
    · omega
  · exact limit

-- One invite and another

/-- What recording a redemption does. -/
theorem records_cases {author : String} {timestamp : Option (Json Number)} {r : SignedRedemption}
    (records : Records peer node author timestamp r) (applied : s.apply peer node = some s')
    : s' = s ∨ Above peer (s.roleOf author) 1 ∧ Redeems peer s timestamp r
      ∧ ∃ s'', Gives peer s r s'' ∧ s' = s''.putRedemption author timestamp r.toRedemption := by
  obtain ⟨fields, value, type, signer, rfl, decoded⟩ := records
  rw [apply_of_signed value type (by decide) signer] at applied
  rcases redeem_cases applied with same | ⟨r', s'', decoded', above, redeems, gives, made⟩
  · exact .inl same
  · obtain rfl := Option.some.inj (decoded.symm.trans decoded')
    exact .inr ⟨above, redeems, s'', gives, made⟩

/-- What revoking an invite does. -/
theorem revokes_cases {author : String} {inv : SignedInvite} (revokes : RevokesInvite peer node author inv)
    (applied : s.apply peer node = some s')
    : s' = s ∨ peer.verifyInvite inv ∧ (Above peer (s.roleOf author) 3 ∨ author = toHex inv.maker)
      ∧ ∃ noted, s' = s.putInviteRevoked (toHex inv.id) noted := by
  obtain ⟨fields, value, type, signer, decoded⟩ := revokes
  rw [apply_of_signed value type (by decide) signer] at applied
  rcases revokeInvite_cases applied with same | ⟨inv', decoded', verified, may, made⟩
  · exact .inl same
  · obtain rfl := Option.some.inj (decoded.symm.trans decoded')
    exact .inr ⟨verified, may, _, made⟩

theorem channelsOk_congr (channels : s'.view.channels = s.view.channels)
    (makerRole : Option (Json Number)) (ids : List String)
    : s'.channelsOk peer makerRole ids = s.channelsOk peer makerRole ids := by
  induction ids with
  | nil => rfl
  | cons id rest ih => rw [State.channelsOk, State.channelsOk, ih, State.privateChannel,
      State.privateChannel, channels]

theorem alike_refl {inv : Invite} : Alike peer s s inv := ⟨fun _ _ _ => Iff.rfl, rfl⟩

/-- Where nothing of an invite's id, of the roles and of the channels is another, who may redeem it is the
same.
-/
theorem alike_of_same {inv : Invite} (roles : s'.view.roles = s.view.roles)
    (channels : s'.view.channels = s.view.channels)
    (redeemed : ∀ identity, s'.view.redeemed[toHex inv.id ++ ":" ++ toHex identity]?
      = s.view.redeemed[toHex inv.id ++ ":" ++ toHex identity]?)
    (uses : s'.view.uses[toHex inv.id]? = s.view.uses[toHex inv.id]?)
    (revoked : (s'.view.invitesRevoked[toHex inv.id]?).isNone
      = (s.view.invitesRevoked[toHex inv.id]?).isNone)
    : Alike peer s s' inv := by
  have roleOf (member : String) : s'.roleOf member = s.roleOf member := by
    rw [State.roleOf, State.roleOf, roles]
  refine ⟨fun timestamp r is => ?_, by rw [usesOf, usesOf, uses]⟩
  have id : r.invite.id = inv.id := congrArg Invite.id is
  have redeemable : s'.redeemable peer r = s.redeemable peer r := by
    simp only [State.redeemable, id, redeemed, revoked]
  have givable : s'.givable r.invite.toInvite r.identity = s.givable r.invite.toInvite r.identity := by
    simp only [State.givable, id, uses, roleOf]
  have channels_ : s'.channelsOk peer (s.roleOf (toHex r.invite.maker)) r.invite.channels
      = s.channelsOk peer (s.roleOf (toHex r.invite.maker)) r.invite.channels :=
    channelsOk_congr channels _ _
  constructor
  · intro redeems
    refine ⟨redeemable ▸ redeems.redeemable, redeems.timely, givable ▸ redeems.givable, ?_⟩
    rw [roleOf, channels_]
    exact redeems.channels
  · intro redeems
    refine ⟨redeemable ▸ redeems.redeemable, redeems.timely, givable ▸ redeems.givable, ?_⟩
    rw [← channels_, ← roleOf]
    exact redeems.channels

theorem above_of_mayAssign {authorRole current role : Option (Json Number)}
    (may : mayAssign authorRole current role = true)
    : Above peer authorRole 3 := by
  have named : authorRole = some (.string "owner") ∨ authorRole = some (.string "admin") := by
    rw [mayAssign] at may
    split at may
    · cases may
    split at may
    · rename_i owner
      exact .inl (by simpa [isRole] using owner)
    split at may
    · rename_i admin
      exact .inr (by simpa [isRole] using admin)
    · cases may
  rcases named with rfl | rfl <;> simp [Above, atLeast, rankName, rankOf, ownRank]

/-- A redemption of an invite whose maker is no admin gives no role. -/
theorem Gives.eq_self {timestamp : Option (Json Number)} {r : SignedRedemption}
    (redeems : Redeems peer s timestamp r) (gives : Gives peer s r s')
    (unranked : ¬ Above peer (s.roleOf (toHex r.invite.maker)) 3)
    : s' = s := by
  cases gives with
  | nothing => rfl
  | role gives =>
      have givable := redeems.givable
      simp only [State.givable, gives, Option.all_some, Bool.and_eq_true] at givable
      exact (unranked (above_of_mayAssign givable.2)).elim

theorem Own.leavesAlone {inv : Invite} (own : Own peer s node inv) (applied : s.apply peer node = some s')
    : LeavesAlone peer s s' node inv := by
  constructor
  · intro author timestamp r records unranked different
    rcases records_cases records applied with rfl | ⟨above, redeems, s'', gives, rfl⟩
    · exact alike_refl
    obtain rfl := gives.eq_self redeems unranked
    have apart : inv.id ≠ r.invite.id := by
      intro id
      rcases own.redeemed author timestamp r records above redeems id with same | ⟨above, _⟩
      · exact different same
      · exact unranked above
    have apart_ : toHex r.invite.id ≠ toHex inv.id := fun same => apart (toHex_injective same).symm
    refine alike_of_same rfl rfl (fun identity => ?_) ?_ rfl
    · simp only [State.putRedemption, Std.ExtTreeMap.getElem?_insert]
      rw [if_neg]
      rw [Std.compare_eq_iff_eq]
      exact fun same => apart (redeemed_apart same).1.symm
    · simp only [State.putRedemption, Std.ExtTreeMap.getElem?_insert]
      rw [if_neg]
      rwa [Std.compare_eq_iff_eq]
  · intro author revoked revokes unranked different
    rcases revokes_cases revokes applied with rfl | ⟨verified', may, noted, rfl⟩
    · exact alike_refl
    have own_ : author = toHex revoked.maker := may.resolve_left unranked
    refine alike_of_same rfl rfl (fun _ => rfl) rfl ?_
    simp only [State.putInviteRevoked, Std.ExtTreeMap.getElem?_insert, Std.compare_eq_iff_eq]
    split
    · rename_i same
      cases already : s.view.invitesRevoked[toHex revoked.id]? with
      | none =>
          exact (different (own.revoked author revoked revokes verified' own_ unranked already
            (toHex_injective same).symm)).elim
      | some _ => rw [← same, already, Option.isNone_some, Option.isNone_some]
    · rfl

/-- A redemption gives a role only as a step up that the invite's maker could make. -/
theorem roleKept_of_records {author : String} {timestamp : Option (Json Number)} {r : SignedRedemption}
    (records : Records peer node author timestamp r) (applied : s.apply peer node = some s')
    (member : String)
    : RoleKept peer s s' r member := by
  rcases records_cases records applied with rfl | ⟨_, redeems, s'', gives, rfl⟩
  · exact .inl rfl
  cases gives with
  | nothing => exact .inl rfl
  | @role role current gives current_ up =>
      by_cases same : member = toHex r.identity
      · have givable := redeems.givable
        simp only [State.givable, gives, Option.all_some, Bool.and_eq_true] at givable
        refine .inr ⟨role, current, gives, ?_, same ▸ givable.2, same ▸ current_, up⟩
        simp [State.roleOf, State.putRedemption, State.assign, State.putRole, same]
      · left
        simp [State.roleOf, State.putRedemption, State.assign, State.putRole,
          Std.ExtTreeMap.getElem?_insert, Ne.symm same]

-- Runs

/-- Invites are accounted for in every run, whatever their ids: uses are the redemptions counted, a
redemption gives no role but as a step up that the maker could make, and none is counted after a
revocation. An invite that no other with its id counts against keeps its limit, and a redemption or a
revocation of another leaves it alone, unless an admin decided it.
-/
theorem invites_apart {writers : W} {log : List (Node Number)}
    (reached : State.run peer { writers } log = some s)
    : (∀ id, usesOf s id = redemptionsOf s id)
      ∧ (∀ node s', s.apply peer node = some s'
        → ∀ author timestamp r, Records peer node author timestamp r → ∀ member, RoleKept peer s s' r member)
      ∧ (∀ id, (s.view.invitesRevoked[id]?).isSome → ∀ later s', s.run peer later = some s'
        → redemptionsOf s' id = redemptionsOf s id)
      ∧ ∀ inv : Invite,
        (Runs.AsFar (State.apply peer) (fun s node => Own peer s node inv) { writers } log → 0 < inv.uses →
          redemptionsOf s (toHex inv.id) ≤ inv.uses)
        ∧ ∀ node s', Own peer s node inv → s.apply peer node = some s' → LeavesAlone peer s s' node inv := by
  have counted : ∀ id, usesOf s id = redemptionsOf s id := by
    refine Runs.foldlM_keeps (fun s => ∀ id, usesOf s id = redemptionsOf s id)
      (fun s node s' same applied id => ?_) (fun id => ?_) reached
    · rcases counts_of_step (step_of_apply applied) with kept | ⟨_, _, r, _, _, _, counts⟩
      · rw [(kept id).1, (kept id).2, same id]
      · rw [(counts id).1, (counts id).2, same id]
    · have empty : ((∅ : Table String (Redeemed Number)).filter fun key _ => isOf id key) = ∅ := by
        apply Std.ExtTreeMap.ext_getElem?
        simp
      simp [usesOf, redemptionsOf, empty]
  refine ⟨counted, fun node s' applied author timestamp r records => roleKept_of_records records applied,
    fun id revoked later s' ran => ?_, fun inv => ⟨fun own limited => ?_, fun node s' own applied =>
      own.leavesAlone applied⟩⟩
  · refine (Runs.foldlM_keeps (fun s' : State W Number => (s'.view.invitesRevoked[id]?).isSome
      ∧ redemptionsOf s' id = redemptionsOf s id) (fun s₁ node s₂ both applied => ?_) ⟨revoked, rfl⟩ ran).2
    obtain ⟨revoked', same⟩ := revoked_step both.1 (step_of_apply applied)
    exact ⟨revoked', same.trans both.2⟩
  · rw [← counted]
    have start : usesOf ({ writers } : State W Number) (toHex inv.id) ≤ inv.uses := by simp [usesOf]
    exact Runs.AsFar.keeps (fun s => usesOf s (toHex inv.id) ≤ inv.uses)
      (fun s node s' limit own applied => limit_step own (step_of_apply applied) limited limit)
      start own reached

end Proofs

-- An id and its invites

/-- Someone's invite of an id, for one. -/
def inviteBy (maker : UInt8) : SignedInvite where
  id := List.replicate 16 5
  community := List.replicate 32 0
  role := none
  channels := []
  expires := 0
  uses := 1
  maker := List.replicate 32 maker
  sig := List.replicate 64 maker

def inviteBytes (maker : UInt8) : Bytes :=
  List.replicate 16 5 ++ List.replicate 32 0 ++ [0, 0, 0, 1] ++ List.replicate 32 maker
    ++ List.replicate 64 maker

/-- Someone revokes their own invite. -/
def revokesOwn (maker : UInt8) : Node Nat :=
  signedBy (someone maker) "revokeInvite" [("invite", .string (toHex (inviteBytes maker)))] 0

def redeemsIt (maker identity : UInt8) : SignedRedemption where
  invite := inviteBy maker
  identity := List.replicate 32 identity
  encryptionKey := List.replicate 32 identity
  writer := none
  t := 0
  sig := List.replicate 64 identity

theorem redeems_owners : Redeems listPeer founded none (redeemsIt 1 6) := by
  refine ⟨?_, ?_, ?_, ?_⟩ <;> decide +kernel

/-- The owner records it. -/
def recordsIt : Node Nat :=
  signedBy (someone 1) "redeem"
    [("redemption", .string (toHex (inviteBytes 1 ++ List.replicate 32 6 ++ List.replicate 32 6 ++ [0, 0]
      ++ List.replicate 64 6)))] 0

theorem records_recordsIt : Records listPeer recordsIt (someone 1) none (redeemsIt 1 6) := by
  refine ⟨_, rfl, rfl, by decide +kernel, rfl, ?_⟩
  change decodeRedemption compact (some (toHex _)) = _
  rw [decodeRedemption, Option.bind_some, fromHex_toHex]
  decide +kernel

theorem run_recordsIt
    : ∃ s, State.run listPeer { writers := [(List.replicate 32 0, true)] } [founding, recordsIt] = some s
        ∧ usesOf s (toHex (inviteBy 1).id) = 1 := by
  have made : (founded.redeem listPeer (someone 1) none (redeemsIt 1 6)).map
      (usesOf · (toHex (inviteBy 1).id)) = some 1 := by
    decide +kernel
  obtain ⟨s, made, uses⟩ := Option.map_eq_some_iff.mp made
  obtain ⟨fields, value, type, signer, timestamp, decoded⟩ := records_recordsIt
  have ranked : atLeast listPeer.numbers (founded.roleOf (someone 1)) 1 = some true := by decide +kernel
  have founds := run_founding
  rw [State.run, List.foldlM_cons, Option.bind_eq_bind, Option.bind_eq_some_iff] at founds
  obtain ⟨s', applied, same⟩ := founds
  cases same
  refine ⟨s, ?_, uses⟩
  rw [State.run, List.foldlM_cons, applied, Option.bind_eq_bind, Option.bind_some, List.foldlM_cons,
    apply_of_signed value type (by decide) signer]
  simp only [State.applySigned, State.applyRedeem, ranked, decoded, timestamp, Option.bind_eq_bind,
    Option.bind_some, not_true_eq_false, if_false, made, List.foldlM_nil]
  rfl

theorem own_recordsIt (s : State (List (Key × Bool)) Nat)
    : Own listPeer s founding (inviteBy 1).toInvite ∧ Own listPeer s recordsIt (inviteBy 1).toInvite := by
  refine ⟨⟨?_, ?_⟩, ?_, ?_⟩
  · rintro _ _ _ ⟨_, value, type, _⟩
    cases value
    exact absurd type (by decide)
  · rintro _ _ ⟨_, value, type, _⟩
    cases value
    exact absurd type (by decide)
  · intro author timestamp r records _ _ _
    obtain ⟨_, value, _, _, _, decoded⟩ := records
    obtain ⟨_, value', _, _, _, decoded'⟩ := records_recordsIt
    cases value.symm.trans value'
    cases Option.some.inj (decoded.symm.trans decoded')
    exact .inl rfl
  · rintro _ _ ⟨_, value, type, _⟩
    cases value
    exact absurd type (by decide)

/-- The owner's invite is redeemed, for the one time it may be. -/
theorem invites_apart_redeemed
    : ∃ s, State.run listPeer { writers := [(List.replicate 32 0, true)] } [founding, recordsIt] = some s
        ∧ usesOf s (toHex (inviteBy 1).id) = 1 ∧ redemptionsOf s (toHex (inviteBy 1).id) ≤ 1 := by
  obtain ⟨s, ran, uses⟩ := run_recordsIt
  have own : Runs.AsFar (State.apply listPeer) (fun s node => Own listPeer s node (inviteBy 1).toInvite)
      { writers := [(List.replicate 32 0, true)] } [founding, recordsIt] :=
    ⟨(own_recordsIt _).1, fun _ _ => ⟨(own_recordsIt _).2, fun _ _ => trivial⟩⟩
  exact ⟨s, ran, uses, ((invites_apart ran).2.2.2 (inviteBy 1).toInvite).1 own Nat.one_pos⟩

theorem revokes_revokesOwn : RevokesInvite listPeer (revokesOwn 4) (someone 4) (inviteBy 4) := by
  refine ⟨_, rfl, rfl, by decide +kernel, ?_⟩
  change decodeInvite compact (some (toHex _)) = _
  rw [decodeInvite, Option.bind_some, fromHex_toHex]
  decide +kernel

/-- Someone without a role revokes an invite they made of the owner's invite's id, and the owner's can no
longer be redeemed.
-/
theorem revoked_by_another
    : State.run listPeer { writers := [(List.replicate 32 0, true)] } [founding] = some founded
      ∧ listPeer.verifyInvite (inviteBy 1) ∧ ∃ s', founded.apply listPeer (revokesOwn 4) = some s'
        ∧ ¬ LeavesAlone listPeer founded s' (revokesOwn 4) (inviteBy 1).toInvite := by
  have unranked : atLeast listPeer.numbers (founded.roleOf (someone 4)) 3 = some false := by
    decide +kernel
  obtain ⟨fields, value, type, signer, decoded⟩ := revokes_revokesOwn
  have applied : founded.apply listPeer (revokesOwn 4)
      = some (founded.putInviteRevoked (toHex (inviteBy 4).id)
        ⟨someone 4, Json.field fields "timestamp"⟩) := by
    rw [apply_of_signed value type (by decide) signer]
    simp only [State.applySigned, State.applyRevokeInvite, decoded, unranked, Option.bind_eq_bind,
      Option.bind_some]
    rfl
  refine ⟨run_founding, by decide +kernel, _, applied, fun leaves => ?_⟩
  have alike := leaves.revoking _ _ revokes_revokesOwn (by rw [Above, unranked]; decide) (by decide +kernel)
  have redeems := (alike.redeems none (redeemsIt 1 6) rfl).mp redeems_owners
  have unrevoked := redeems.unrevoked
  simp only [State.putInviteRevoked] at unrevoked
  rw [show toHex (redeemsIt 1 6).invite.id = toHex (inviteBy 4).id from rfl,
    Std.ExtTreeMap.getElem?_insert_self] at unrevoked
  cases unrevoked

end Hypergraph.Control
