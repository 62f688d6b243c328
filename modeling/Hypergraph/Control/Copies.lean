import Hypergraph.Control.Calm

/-! A node of a control log appended again: when its copy changes nothing of the view. Signatures cover
no place in the log, and of the events that counted the view remembers only redemptions, channels and
the number of the current epoch.
-/

namespace Hypergraph.Control

open Wire Js Engine
open Governance (someone)

variable {W Number : Type} (peer : Peer W Number) (s : State W Number)

-- What is already so

variable (author : String) (fields : List (String × Json Number))

/-- A role change its author may not make, or that is already made. -/
def RoleSettled : Prop :=
  ∀ member, Json.fieldText peer.numbers (Json.field fields "member") = some member
    → ∀ role, Json.fieldOrNull peer.numbers (Json.field fields "role") = role
    → mayAssign (s.roleOf author) (s.roleOf member) role
    → ∀ writer, (Json.string? (Json.field fields "writer")).filter (length · = 64) = writer
    → match role with
      | none => s.view.roles[member]? = none
      | some role =>
          (∀ key, writer = some key → (fromHex key).length = 32)
            → s.view.roles[member]? = some ⟨role, writer, author⟩

/-- A channel that isn't made, or that is there. -/
def ChannelSettled : Prop :=
  Above peer (s.roleOf author) 3 → ∀ id, required (Json.string? (Json.field fields "id")) = some id
    → (firstCommit fields).isSome → (channelName peer fields).isSome → (s.view.channels[id]?).isSome

/-- A rotation its author may not make, or not to the next epoch. -/
def RotateSettled : Prop :=
  Above peer (s.roleOf author) 3 → ((Json.string? (Json.field fields "commit")).filter isHex64).isSome
    → ∀ channel, Json.fieldText peer.numbers (Json.field fields "channel") = some channel
    → ∀ found private_, s.privateChannel channel = some (found, private_)
    → ∀ epoch, Json.field fields "epoch" = some (.number epoch)
    → peer.numbers.nat? epoch ≠ some (private_.epoch + 1)

/-- A redemption that doesn't count; one that counts would throw. -/
def RedeemSettled : Prop :=
  Above peer (s.roleOf author) 1
    → ∀ r, decodeRedemption peer.primitives (Json.string? (Json.field fields "redemption")) = some r
    → Redeems peer s (Json.field fields "timestamp") r
    → r.invite.role.isSome ∧ ¬ Rankable peer (s.roleOf (toHex r.identity))

/-- A revocation of an invite that its author may not make, or that is recorded like this. -/
def RevokeInviteSettled : Prop :=
  ∀ inv, decodeInvite peer.primitives (Json.string? (Json.field fields "invite")) = some inv
    → peer.verifyInvite inv
    → Above peer (s.roleOf author) 3
      ∨ atLeast peer.numbers (s.roleOf author) 3 = some false ∧ author = toHex inv.maker
    → s.view.invitesRevoked[toHex inv.id]? = some ⟨author, Json.field fields "timestamp"⟩

/-- A member's access that its author may not change, or that is recorded like this. -/
def RevokeSettled (revoke : Bool) : Prop :=
  Above peer (s.roleOf author) 3 → ∀ member, Json.string? (Json.field fields "member") = some member
    → ∀ channel, Json.fieldText peer.numbers (Json.field fields "channel") = some channel
    → (s.privateChannel channel).isSome
    → s.view.revoked[channel ++ ":" ++ member]?
      = if revoke then some ⟨author, Json.field fields "timestamp"⟩ else none

def BanSettled : Prop :=
  Above peer (s.roleOf author) 2
    → ∀ member, Json.fieldText peer.numbers (Json.field fields "member") = some member
    → isRole (s.roleOf member) "owner" = false
    → s.view.bans[member]? = some
        { at_ := Json.field fields "timestamp", reason := reasonOf peer fields, by_ := author,
          cut := banCut peer.numbers (Json.field fields "cut") }

def UnbanSettled : Prop :=
  Above peer (s.roleOf author) 2
    → ∀ member, Json.fieldText peer.numbers (Json.field fields "member") = some member
    → s.view.bans[member]? = none

def HideSettled : Prop :=
  Above peer (s.roleOf author) 2
    → ∀ member, Json.fieldText peer.numbers (Json.field fields "member") = some member
    → ∀ log, Json.fieldText peer.numbers (Json.field fields "log") = some log
    → ∀ seq, Json.fieldText peer.numbers (Json.field fields "seq") = some seq
    → s.view.hides[member ++ ":" ++ log ++ ":" ++ seq]? = some
        { reason := reasonOf peer fields, by_ := author, at_ := Json.field fields "timestamp" }

def KeeperSettled : Prop :=
  Above peer (s.roleOf author) 1 → ∀ rosterKey, Json.string? (Json.field fields "rosterKey") = some rosterKey
    → ∀ channel, Json.string? (Json.field fields "channel") = some channel
    → s.view.keepers[channel ++ ":" ++ author]? = some rosterKey

/-- What a signed event says can't be done by its author, or is so already. -/
def SignedSettled : (type : String) → Prop
  | "role" => RoleSettled peer s author fields
  | "channel" => ChannelSettled peer s author fields
  | "rotate" => RotateSettled peer s author fields
  | "redeem" => RedeemSettled peer s author fields
  | "revokeInvite" => RevokeInviteSettled peer s author fields
  | "revoke" => RevokeSettled peer s author fields true
  | "unrevoke" => RevokeSettled peer s author fields false
  | "ban" => BanSettled peer s author fields
  | "unban" => UnbanSettled peer s author fields
  | "hide" => HideSettled peer s author fields
  | "keeper" => KeeperSettled peer s author fields
  | _ => True

/-- What a value says, appended by a writer, can't be done or is so already. -/
def Settled (value : Json Number) (from_ : Key) : Prop :=
  ∀ fields, value = .object fields
    → ∀ type, Json.string? (Json.field fields "type") = some type
    → ∀ author, peer.signer fields = some author
    → if type = "init" then from_ = peer.key → s.view.community.isSome
      else SignedSettled peer s author fields type

-- Each kind of event

/-- What comes next, if anything does, has the same view. -/
def Idle (next : Option (State W Number)) : Prop := ∀ s', next = some s' → s'.view = s.view

section Kinds

variable {peer s author fields}

@[simp]
theorem idle_none : Idle s none := fun _ is => by cases is

@[simp]
theorem idle_some {s' : State W Number} : Idle s (some s') ↔ s'.view = s.view := by
  simp [Idle]

theorem idle_bind_atLeast {role : Option (Json Number)} {wanted : Nat} {next : Bool → Option (State W Number)}
    (otherwise : next false = some s)
    : Idle s ((atLeast peer.numbers role wanted).bind next)
      ↔ (Above peer role wanted → Idle s (next true)) := by
  rw [Above]
  cases atLeast peer.numbers role wanted with
  | none => simp
  | some above => cases above <;> simp [otherwise]

theorem putRole_view_iff {member : String} {role : Json Number} {writer : Option String}
    : (s.putRole member role writer author).view = s.view
      ↔ s.view.roles[member]? = some ⟨role, writer, author⟩ := by
  rw [← Table.insert_eq_self_iff]
  constructor
  · exact congrArg View.roles
  · intro same
    rw [State.putRole, same]

theorem idle_applyRole
    : Idle s (s.applyRole peer author (s.roleOf author) fields) ↔ RoleSettled peer s author fields := by
  rw [State.applyRole, RoleSettled]
  cases Json.fieldText peer.numbers (Json.field fields "member") with
  | none => simp
  | some member =>
  simp only [Option.bind_eq_bind, Option.bind_some, Option.some.injEq, forall_eq']
  by_cases may : mayAssign (s.roleOf author) (s.roleOf member)
      (Json.fieldOrNull peer.numbers (Json.field fields "role")) = true
  swap
  · simp [may]
  simp only [may, not_true_eq_false, if_false, true_implies]
  cases Json.fieldOrNull peer.numbers (Json.field fields "role") with
  | none =>
      simp only [idle_some, view_removeRole]
      rw [← Table.erase_eq_self_iff]
      constructor
      · exact congrArg View.roles
      · intro same
        rw [same]
  | some role =>
      cases (Json.string? (Json.field fields "writer")).filter (length · = 64) with
      | none => simp [putRole_view_iff]
      | some writer =>
          simp only [State.addWriter, Option.some.injEq, forall_eq']
          split
          · rename_i whole
            rw [idle_some]
            simp only [putRole_view_iff, whole, true_implies]
          · rename_i whole
            simp [whole]

theorem idle_applyChannel
    : Idle s (s.applyChannel peer author (s.roleOf author) fields)
      ↔ ChannelSettled peer s author fields := by
  rw [State.applyChannel, ChannelSettled, Option.bind_eq_bind, idle_bind_atLeast (by simp)]
  refine imp_congr_right fun _ => ?_
  simp only [not_true_eq_false, if_false]
  cases required (Json.string? (Json.field fields "id")) with
  | none => simp
  | some id =>
  simp only [Option.some.injEq, forall_eq']
  cases new : s.view.channels[id]? with
  | some channel => simp
  | none =>
  simp only [Option.isSome_none, Bool.false_eq_true, if_false]
  cases firstCommit fields with
  | none => simp
  | some commit =>
  cases channelName peer fields with
  | none => simp
  | some name =>
      simp only [Option.map_some, idle_some, Option.isSome_some, true_implies, iff_false]
      intro same
      have channel := congrArg (fun view : View Number => view.channels[id]?) same
      simp [State.putChannel, new] at channel

theorem idle_applyRotate
    : Idle s (s.applyRotate peer author (s.roleOf author) fields)
      ↔ RotateSettled peer s author fields := by
  rw [State.applyRotate, RotateSettled, Option.bind_eq_bind, idle_bind_atLeast (by simp)]
  refine imp_congr_right fun _ => ?_
  simp only [not_true_eq_false, if_false]
  cases (Json.string? (Json.field fields "commit")).filter isHex64 with
  | none => simp
  | some commit =>
  cases Json.fieldText peer.numbers (Json.field fields "channel") with
  | none => simp
  | some channel =>
  simp only [Option.bind_eq_bind, Option.bind_some, Option.isSome_some, true_implies,
    Option.some.injEq, forall_eq']
  cases is : s.privateChannel channel with
  | none => simp
  | some pair =>
  obtain ⟨found, private_⟩ := pair
  split
  · rename_i found' private' epoch same epoch_
    obtain ⟨rfl, rfl⟩ := same
    by_cases next : peer.numbers.nat? epoch = some (private_.epoch + 1)
    · simp only [next, ne_eq, not_true_eq_false, if_false, idle_some, epoch_, Option.some.injEq,
        Json.number.injEq, forall_eq', Prod.mk.injEq]
      refine iff_of_false (fun same => ?_) fun never => never found private_ ⟨rfl, rfl⟩ rfl
      have channel_ := congrArg (fun view : View Number => view.channels[channel]?) same
      rw [(privateChannel_eq_some.mp is).1] at channel_
      simp only [State.putEpoch, Std.ExtTreeMap.getElem?_insert_self, Option.some.injEq] at channel_
      have epochs := congrArg (fun found => found.private_.map PrivateChannel.epoch) channel_
      simp [(privateChannel_eq_some.mp is).2] at epochs
    · simp only [next, ne_eq, not_false_eq_true, if_true, idle_some, true_iff]
      intro found' private' same epoch' given
      obtain ⟨rfl, rfl⟩ := same
      simp only [epoch_, Option.some.injEq, Json.number.injEq] at given
      exact given ▸ next
  · rename_i other
    simp only [idle_some, true_iff]
    intro found' private' same epoch given
    exact (other _ _ _ rfl given).elim

theorem idle_applyRedeem
    : Idle s (s.applyRedeem peer author (s.roleOf author) fields)
      ↔ RedeemSettled peer s author fields := by
  rw [State.applyRedeem, RedeemSettled, Option.bind_eq_bind, idle_bind_atLeast (by simp)]
  refine imp_congr_right fun _ => ?_
  simp only [not_true_eq_false, if_false]
  cases decoded : decodeRedemption peer.primitives (Json.string? (Json.field fields "redemption")) with
  | none => simp
  | some r =>
  simp only [Option.some.injEq, forall_eq']
  rw [State.redeem]
  by_cases redeemable : s.redeemable peer r = true
  swap
  · rw [if_pos redeemable, idle_some]
    exact iff_of_true rfl fun redeems => (redeemable redeems.redeemable).elim
  simp only [redeemable, not_true_eq_false, if_false]
  cases timely : expired peer r.invite.toInvite (Json.field fields "timestamp") with
  | none =>
      simp only [Option.bind_eq_bind, Option.bind_none, idle_none, true_iff]
      exact fun redeems => by cases timely.symm.trans redeems.timely
  | some late =>
  cases late with
  | true =>
      simp only [Option.bind_eq_bind, Option.bind_some, if_true, idle_some, true_iff]
      exact fun redeems => by cases timely.symm.trans redeems.timely
  | false =>
  simp only [Option.bind_eq_bind, Option.bind_some, Bool.false_eq_true, if_false]
  by_cases givable : s.givable r.invite.toInvite r.identity = true
  swap
  · rw [if_pos givable, idle_some]
    exact iff_of_true rfl fun redeems => (givable redeems.givable).elim
  simp only [givable, not_true_eq_false, if_false]
  cases channels : s.channelsOk peer (s.roleOf (toHex r.invite.maker)) r.invite.channels with
  | none =>
      simp only [Option.bind_none, idle_none, true_iff]
      exact fun redeems => by cases channels.symm.trans redeems.channels
  | some ok =>
  cases ok with
  | false =>
      simp only [Option.bind_some, Bool.false_eq_true, not_false_eq_true, if_true, idle_some, true_iff]
      exact fun redeems => by cases channels.symm.trans redeems.channels
  | true =>
  have whole (key : Key) (is : r.writer = some key) : key.length = 32 :=
    length_of_decodeRedemption _ decoded is
  rw [← Classical.not_imp, ← isSome_giveRole whole]
  constructor
  · intro idle _ given
    obtain ⟨s', given⟩ := Option.isSome_iff_exists.mp given
    have same := idle _ (by rw [given]; rfl)
    have entry := congrArg
      (fun view : View Number => view.redeemed[toHex r.invite.id ++ ":" ++ toHex r.identity]?) same
    have none_ : s.view.redeemed[toHex r.invite.id ++ ":" ++ toHex r.identity]? = none := by
      simp only [State.redeemable, Bool.and_eq_true] at redeemable
      simpa using redeemable.1.2
    simp [State.putRedemption, none_] at entry
  · intro stuck s' made
    obtain ⟨s'', given, _⟩ := Option.map_eq_some_iff.mp made
    exact (stuck ⟨redeemable, timely, givable, channels⟩ (by rw [given]; rfl)).elim

theorem idle_applyRevokeInvite
    : Idle s (s.applyRevokeInvite peer author (s.roleOf author) fields)
      ↔ RevokeInviteSettled peer s author fields := by
  rw [State.applyRevokeInvite, RevokeInviteSettled]
  cases decodeInvite peer.primitives (Json.string? (Json.field fields "invite")) with
  | none => simp
  | some inv =>
  simp only [Option.some.injEq, forall_eq']
  cases peer.verifyInvite inv with
  | false => simp
  | true =>
  have made : (s.putInviteRevoked (toHex inv.id) ⟨author, Json.field fields "timestamp"⟩).view = s.view
      ↔ s.view.invitesRevoked[toHex inv.id]? = some ⟨author, Json.field fields "timestamp"⟩ := by
    rw [← Table.insert_eq_self_iff]
    constructor
    · exact congrArg View.invitesRevoked
    · intro same
      rw [State.putInviteRevoked, same]
  rw [← made]
  simp only [not_true_eq_false, if_false, Option.bind_eq_bind, true_implies, Above]
  cases atLeast peer.numbers (s.roleOf author) 3 with
  | none => simp
  | some above =>
      cases above with
      | true => simp
      | false => by_cases own : author = toHex inv.maker <;> simp [own]

theorem idle_applyRevoke {revoke : Bool}
    : Idle s (s.applyRevoke peer author (s.roleOf author) fields revoke)
      ↔ RevokeSettled peer s author fields revoke := by
  rw [State.applyRevoke, RevokeSettled, Option.bind_eq_bind, idle_bind_atLeast (by simp)]
  refine imp_congr_right fun _ => ?_
  simp only [not_true_eq_false, if_false]
  cases Json.string? (Json.field fields "member") with
  | none => simp
  | some member =>
  cases Json.fieldText peer.numbers (Json.field fields "channel") with
  | none => simp
  | some channel =>
  simp only [Option.bind_eq_bind, Option.bind_some, Option.some.injEq, forall_eq']
  cases s.privateChannel channel with
  | none => simp
  | some pair =>
  simp only [Option.isNone_some, Bool.false_eq_true, if_false, idle_some, Option.isSome_some, true_implies]
  cases revoke with
  | true =>
      simp only [if_true]
      rw [← Table.insert_eq_self_iff]
      constructor
      · exact congrArg View.revoked
      · intro same
        simp only [State.putRevoked, same]
  | false =>
      simp only [Bool.false_eq_true, if_false]
      rw [← Table.erase_eq_self_iff]
      constructor
      · exact congrArg View.revoked
      · intro same
        simp only [State.putRevoked, same]

theorem idle_applyBan
    : Idle s (s.applyBan peer author (s.roleOf author) fields) ↔ BanSettled peer s author fields := by
  rw [State.applyBan, BanSettled, Option.bind_eq_bind, idle_bind_atLeast (by simp)]
  refine imp_congr_right fun _ => ?_
  simp only [not_true_eq_false, if_false]
  cases Json.fieldText peer.numbers (Json.field fields "member") with
  | none => simp
  | some member =>
  simp only [Option.bind_eq_bind, Option.bind_some, Option.some.injEq, forall_eq']
  cases isRole (s.roleOf member) "owner" with
  | true => simp
  | false =>
      simp only [Bool.false_eq_true, if_false, idle_some, true_implies]
      rw [← Table.insert_eq_self_iff]
      constructor
      · exact congrArg View.bans
      · intro same
        simp only [State.putBan, same]

theorem idle_applyUnban
    : Idle s (s.applyUnban peer (s.roleOf author) fields) ↔ UnbanSettled peer s author fields := by
  rw [State.applyUnban, UnbanSettled, Option.bind_eq_bind, idle_bind_atLeast (by simp)]
  refine imp_congr_right fun _ => ?_
  simp only [not_true_eq_false, if_false]
  cases Json.fieldText peer.numbers (Json.field fields "member") with
  | none => simp
  | some member =>
      simp only [Option.bind_eq_bind, Option.bind_some, Option.some.injEq, forall_eq', idle_some]
      rw [← Table.erase_eq_self_iff]
      constructor
      · exact congrArg View.bans
      · intro same
        simp only [State.putBan, same]

theorem idle_applyHide
    : Idle s (s.applyHide peer author (s.roleOf author) fields) ↔ HideSettled peer s author fields := by
  rw [State.applyHide, HideSettled, Option.bind_eq_bind, idle_bind_atLeast (by simp)]
  refine imp_congr_right fun _ => ?_
  simp only [not_true_eq_false, if_false]
  cases Json.fieldText peer.numbers (Json.field fields "member") with
  | none => simp
  | some member =>
  cases Json.fieldText peer.numbers (Json.field fields "log") with
  | none => simp
  | some log =>
  cases Json.fieldText peer.numbers (Json.field fields "seq") with
  | none => simp
  | some seq =>
      simp only [Option.bind_eq_bind, Option.bind_some, Option.some.injEq, forall_eq', idle_some]
      rw [← Table.insert_eq_self_iff]
      constructor
      · exact congrArg View.hides
      · intro same
        simp only [State.putHide, same]

theorem idle_applyKeeper
    : Idle s (s.applyKeeper peer author (s.roleOf author) fields) ↔ KeeperSettled peer s author fields := by
  rw [State.applyKeeper, KeeperSettled, Option.bind_eq_bind, idle_bind_atLeast (by simp)]
  refine imp_congr_right fun _ => ?_
  simp only [not_true_eq_false, if_false]
  cases Json.string? (Json.field fields "rosterKey") with
  | none => simp
  | some rosterKey =>
  cases Json.string? (Json.field fields "channel") with
  | none => simp
  | some channel =>
      simp only [Option.some.injEq, forall_eq', idle_some]
      rw [← Table.insert_eq_self_iff]
      constructor
      · exact congrArg View.keepers
      · intro same
        simp only [State.putKeeper, same]

theorem idle_applySigned {type : String}
    : Idle s (s.applySigned peer author (s.roleOf author) fields type)
      ↔ SignedSettled peer s author fields type := by
  unfold State.applySigned
  split
  · exact idle_applyRole
  · exact idle_applyChannel
  · exact idle_applyRotate
  · exact idle_applyRedeem
  · exact idle_applyRevokeInvite
  · exact idle_applyRevoke
  · exact idle_applyRevoke
  · exact idle_applyBan
  · exact idle_applyUnban
  · exact idle_applyHide
  · exact idle_applyKeeper
  · unfold SignedSettled
    split <;> simp_all

theorem view_applyInit {from_ : Key}
    : (s.applyInit peer fields from_).view = s.view
      ↔ ∀ author, peer.signer fields = some author → from_ = peer.key → s.view.community.isSome := by
  rw [State.applyInit]
  by_cases boot : from_ = peer.key
  swap
  · simp [boot]
  cases new : s.view.community with
  | some community => simp
  | none =>
      cases peer.signer fields with
      | none => simp
      | some author =>
          simp only [boot, ne_eq, not_true_eq_false, if_false, Option.isSome_none, Bool.false_eq_true,
            Option.some.injEq, forall_eq', true_implies, iff_false]
          intro same
          have community := congrArg View.community same
          simp [State.found, new] at community

end Kinds

/-- A value that is appended, by whichever writer and in whatever state, changes nothing of the view just
where what it says can't be done by its author or is so already: so too where it is a copy of one that
counted before.
-/
theorem copy_idle (value : Json Number) (from_ : Key)
    : (∀ s', s.apply peer ⟨value, from_⟩ = some s' → s'.view = s.view)
      ↔ Settled peer s value from_ := by
  show Idle s _ ↔ _
  unfold State.apply Settled
  cases value with
  | object fields =>
      simp only [Json.object.injEq, forall_eq']
      cases Json.string? (Json.field fields "type") with
      | none => simp
      | some type =>
          simp only [Option.some.injEq, forall_eq']
          by_cases init : type = "init"
          · simp only [init, idle_some, if_true]
            exact view_applyInit
          · simp only [init, if_false]
            cases peer.signer fields with
            | none => simp
            | some author =>
                simp only [Option.some.injEq, forall_eq']
                exact idle_applySigned
  | _ => simp

/-- The owner bans someone, or lifts the ban. -/
def bans (member : UInt8) (from_ : UInt8) : Node Nat :=
  signedBy (someone 1) "ban" [("member", .string (someone member))] from_

def unbans (member : UInt8) : Node Nat :=
  signedBy (someone 1) "unban" [("member", .string (someone member))] 0

/-- A ban that was lifted stands again when a writer appends a copy of it. -/
theorem ban_again
    : ∃ s s', State.run listPeer { writers := [(List.replicate 32 0, true)] }
          [founding, bans 2 0, unbans 2] = some s
        ∧ s.apply listPeer (bans 2 7) = some s' ∧ (bans 2 7).value = (bans 2 0).value
        ∧ s.view.bans[someone 2]? = none ∧ s'.view.bans[someone 2]? ≠ none := by
  have ran : (State.run listPeer { writers := [(List.replicate 32 0, true)] }
      [founding, bans 2 0, unbans 2]).any (fun s => s.view.bans[someone 2]?.isNone
        ∧ (s.apply listPeer (bans 2 7)).any fun s' => s'.view.bans[someone 2]?.isSome) = true := by
    decide +kernel
  obtain ⟨s, is, has⟩ := (Option.any_eq_true _ _).mp ran
  obtain ⟨lifted, again⟩ := of_decide_eq_true has
  obtain ⟨s', made, stands⟩ := (Option.any_eq_true _ _).mp again
  refine ⟨s, s', is, made, rfl, Option.isNone_iff_eq_none.mp lifted, fun none_ => ?_⟩
  rw [none_] at stands
  cases stands

end Hypergraph.Control
