import Hypergraph.Lib.Runs
import Hypergraph.Control.Steps

/-! When a control log is applied to its end: what its events' fields and the roles they are judged by
have to be for no branch to throw, and that the keys handed to Autobase are whole.
-/

namespace Hypergraph.Control

open Wire Js Engine
open Governance (someone)

variable {W Number : Type} (peer : Peer W Number) (s : State W Number)

-- What has to be so of an event

/-- A field that can be put into a text. -/
def Readable (value : Option (Json Number)) : Prop := (Json.fieldText peer.numbers value).isSome

/-- A role that can be ranked. -/
def Rankable (role : Option (Json Number)) : Prop := (rankName peer.numbers role).isSome

variable (authorRole : Option (Json Number)) (fields : List (String × Json Number))

/-- The member of a role event is readable; a writer it gives in 64 characters is hex. -/
def CalmRole : Prop :=
  ∃ member, Json.fieldText peer.numbers (Json.field fields "member") = some member
    ∧ ∀ role, Json.fieldOrNull peer.numbers (Json.field fields "role") = some role
      → mayAssign authorRole (s.roleOf member) (some role)
      → ∀ writer, Json.string? (Json.field fields "writer") = some writer → length writer = 64
        → (fromHex writer).length = 32

/-- The name of a new channel is readable. -/
def CalmChannel : Prop :=
  Above peer authorRole 3 → ∀ id, required (Json.string? (Json.field fields "id")) = some id
    → s.view.channels[id]? = none → (firstCommit fields).isSome
    → (channelName peer fields).isSome

/-- The channel of a rotation is readable. -/
def CalmRotate : Prop :=
  Above peer authorRole 3 → ((Json.string? (Json.field fields "commit")).filter isHex64).isSome
    → Readable peer (Json.field fields "channel")

/-- What a redemption is judged by: its time compares to the invite's end, and the roles of the invite's
maker and of who redeems it can be ranked where they are.
-/
def CalmRedeem : Prop :=
  Above peer authorRole 1
    → ∀ r, decodeRedemption peer.primitives (Json.string? (Json.field fields "redemption")) = some r
    → s.redeemable peer r
    → ∃ late, expired peer r.invite.toInvite (Json.field fields "timestamp") = some late
      ∧ (late = false → s.givable r.invite.toInvite r.identity
        → ((∃ channel ∈ r.invite.channels, (s.privateChannel channel).isSome)
            → Rankable peer (s.roleOf (toHex r.invite.maker)))
          ∧ (s.channelsOk peer (s.roleOf (toHex r.invite.maker)) r.invite.channels = some true
            → r.invite.role.isSome → Rankable peer (s.roleOf (toHex r.identity))))

/-- An event that doesn't throw, signed by someone with a role. -/
def CalmSigned : (type : String) → Prop
  | "role" => CalmRole peer s authorRole fields
  | "channel" => Rankable peer authorRole ∧ CalmChannel peer s authorRole fields
  | "rotate" => Rankable peer authorRole ∧ CalmRotate peer authorRole fields
  | "redeem" => Rankable peer authorRole ∧ CalmRedeem peer s authorRole fields
  | "revokeInvite" =>
      (∃ inv, decodeInvite peer.primitives (Json.string? (Json.field fields "invite")) = some inv
        ∧ peer.verifyInvite inv) → Rankable peer authorRole
  | "revoke" | "unrevoke" =>
      Rankable peer authorRole
        ∧ (Above peer authorRole 3 → (Json.string? (Json.field fields "member")).isSome
          → Readable peer (Json.field fields "channel"))
  | "ban" | "unban" =>
      Rankable peer authorRole ∧ (Above peer authorRole 2 → Readable peer (Json.field fields "member"))
  | "hide" =>
      Rankable peer authorRole
        ∧ (Above peer authorRole 2 → Readable peer (Json.field fields "member")
          ∧ Readable peer (Json.field fields "log") ∧ Readable peer (Json.field fields "seq"))
  | "keeper" => Rankable peer authorRole
  | _ => True

/-- A node that doesn't throw. -/
def Calm (node : Node Number) : Prop :=
  ∀ fields, node.value = .object fields
    → ∀ type, Json.string? (Json.field fields "type") = some type → type ≠ "init"
    → ∀ author, peer.signer fields = some author → CalmSigned peer s (s.roleOf author) fields type

-- Each kind of event

section Kinds

variable {peer s authorRole fields} {author : String}

theorem isSome_addWriter {key : Key} {indexer : Bool}
    : (s.addWriter peer key indexer).isSome ↔ key.length = 32 := by
  rw [State.addWriter]
  split <;> simp_all

theorem isSome_atLeast (wanted : Nat)
    : (atLeast peer.numbers authorRole wanted).isSome ↔ Rankable peer authorRole := by
  rw [atLeast, Option.isSome_map, Rankable]

/-- What is asked of a role is answered where the role can be ranked. -/
theorem isSome_bind_atLeast {α : Type} {wanted : Nat} {next : Bool → Option α}
    (otherwise : (next false).isSome)
    : ((atLeast peer.numbers authorRole wanted).bind next).isSome
      ↔ Rankable peer authorRole ∧ (Above peer authorRole wanted → (next true).isSome) := by
  rw [← isSome_atLeast wanted, Above]
  cases atLeast peer.numbers authorRole wanted with
  | none => simp
  | some above => cases above <;> simp [otherwise]

theorem isSome_applyRole
    : (s.applyRole peer author authorRole fields).isSome ↔ CalmRole peer s authorRole fields := by
  rw [State.applyRole, CalmRole]
  cases Json.fieldText peer.numbers (Json.field fields "member") with
  | none => simp
  | some member =>
      simp only [Option.bind_eq_bind, Option.bind_some, Option.some.injEq, exists_eq_left']
      cases Json.fieldOrNull peer.numbers (Json.field fields "role") with
      | none =>
          simp only [reduceCtorEq, false_implies, implies_true, iff_true]
          split
          · rfl
          · cases s.view.roles[member]?.bind RoleRecord.writer <;> rfl
      | some role =>
          simp only [Option.some.injEq, forall_eq']
          by_cases may : mayAssign authorRole (s.roleOf member) (some role) = true
          · simp only [may, not_true_eq_false, if_false, true_implies]
            cases Json.string? (Json.field fields "writer") with
            | none => simp
            | some writer =>
                by_cases long : length writer = 64
                · simp [Option.filter, long, isSome_addWriter]
                · simp [Option.filter, long]
          · simp [may]

theorem isSome_applyChannel
    : (s.applyChannel peer author authorRole fields).isSome
      ↔ Rankable peer authorRole ∧ CalmChannel peer s authorRole fields := by
  rw [State.applyChannel, CalmChannel]
  simp only [Option.bind_eq_bind, Bool.not_eq_true]
  rw [isSome_bind_atLeast (by simp)]
  refine and_congr_right fun _ => imp_congr_right fun _ => ?_
  cases required (Json.string? (Json.field fields "id")) with
  | none => simp
  | some id =>
      simp only [Option.some.injEq, forall_eq']
      cases s.view.channels[id]? with
      | some channel => simp
      | none =>
          cases firstCommit fields with
          | none => simp
          | some commit => simp

theorem isSome_applyRotate
    : (s.applyRotate peer author authorRole fields).isSome
      ↔ Rankable peer authorRole ∧ CalmRotate peer authorRole fields := by
  rw [State.applyRotate, CalmRotate]
  simp only [Option.bind_eq_bind, Bool.not_eq_true]
  rw [isSome_bind_atLeast (by simp)]
  refine and_congr_right fun _ => imp_congr_right fun _ => ?_
  simp only [Bool.true_eq_false, if_false, Readable]
  cases (Json.string? (Json.field fields "commit")).filter isHex64 with
  | none => simp
  | some commit =>
      simp only [Option.isSome_some, true_implies]
      cases Json.fieldText peer.numbers (Json.field fields "channel") with
      | none => simp
      | some channel =>
          simp only [Option.bind_some, Option.isSome_some, iff_true]
          split
          · split <;> rfl
          · rfl

/-- Asking for an invite's channels throws where a private one is met and the maker's role can't be
ranked. Induction on the channels.
-/
theorem isSome_channelsOk {makerRole : Option (Json Number)} {channels : List String}
    : (s.channelsOk peer makerRole channels).isSome
      ↔ ((∃ channel ∈ channels, (s.privateChannel channel).isSome) → Rankable peer makerRole) := by
  induction channels with
  | nil => simp [State.channelsOk]
  | cons channel rest ih =>
      rw [State.channelsOk, List.exists_mem_cons_iff, or_imp, ← ih]
      cases s.privateChannel channel with
      | none => cases s.channelsOk peer makerRole rest <;> simp
      | some found =>
          rw [← isSome_atLeast 3]
          cases atLeast peer.numbers makerRole 3 with
          | none => simp
          | some above => cases s.channelsOk peer makerRole rest <;> simp

theorem isSome_giveRole {inv : Invite} {identity : String} {writer : Option Key}
    (whole : ∀ key, writer = some key → key.length = 32)
    : (s.giveRole peer inv identity writer).isSome
      ↔ (inv.role.isSome → Rankable peer (s.roleOf identity)) := by
  rw [State.giveRole]
  cases inv.role with
  | none => simp
  | some role =>
      simp only [Option.isSome_some, true_implies, Rankable]
      cases rankName peer.numbers (s.roleOf identity) with
      | none => simp
      | some current =>
          simp only [Option.bind_eq_bind, Option.bind_some, Option.isSome_some, iff_true]
          split
          · rfl
          · cases writer with
            | none => rfl
            | some key => exact isSome_addWriter.mpr (whole key rfl)

theorem isSome_redeem {timestamp : Option (Json Number)} {r : SignedRedemption}
    (whole : ∀ key, r.writer = some key → key.length = 32)
    : (s.redeem peer author timestamp r).isSome
      ↔ (s.redeemable peer r
        → ∃ late, expired peer r.invite.toInvite timestamp = some late
          ∧ (late = false → s.givable r.invite.toInvite r.identity
            → ((∃ channel ∈ r.invite.channels, (s.privateChannel channel).isSome)
                → Rankable peer (s.roleOf (toHex r.invite.maker)))
              ∧ (s.channelsOk peer (s.roleOf (toHex r.invite.maker)) r.invite.channels = some true
                → r.invite.role.isSome → Rankable peer (s.roleOf (toHex r.identity))))) := by
  rw [State.redeem]
  cases s.redeemable peer r with
  | false => simp
  | true =>
  cases expired peer r.invite.toInvite timestamp with
  | none => simp
  | some late =>
  cases late with
  | true => simp
  | false =>
  cases s.givable r.invite.toInvite r.identity with
  | false => simp
  | true =>
  rw [← isSome_channelsOk, ← isSome_giveRole whole]
  cases s.channelsOk peer (s.roleOf (toHex r.invite.maker)) r.invite.channels with
  | none => simp
  | some ok => cases ok <;> simp

theorem isSome_applyRedeem
    : (s.applyRedeem peer author authorRole fields).isSome
      ↔ Rankable peer authorRole ∧ CalmRedeem peer s authorRole fields := by
  rw [State.applyRedeem, CalmRedeem]
  simp only [Option.bind_eq_bind, Bool.not_eq_true]
  rw [isSome_bind_atLeast (by simp)]
  refine and_congr_right fun _ => imp_congr_right fun _ => ?_
  cases decoded : decodeRedemption peer.primitives (Json.string? (Json.field fields "redemption")) with
  | none => simp
  | some r =>
      simp only [Option.some.injEq, forall_eq']
      exact isSome_redeem fun key writer => length_of_decodeRedemption _ decoded writer

theorem isSome_applyRevokeInvite
    : (s.applyRevokeInvite peer author authorRole fields).isSome
      ↔ ((∃ inv, decodeInvite peer.primitives (Json.string? (Json.field fields "invite")) = some inv
        ∧ peer.verifyInvite inv) → Rankable peer authorRole) := by
  rw [State.applyRevokeInvite]
  cases decodeInvite peer.primitives (Json.string? (Json.field fields "invite")) with
  | none => simp
  | some inv =>
      simp only [Option.some.injEq, exists_eq_left']
      cases peer.verifyInvite inv with
      | false => simp
      | true =>
          simp only [not_true_eq_false, if_false, true_implies]
          rw [← isSome_atLeast 3]
          cases atLeast peer.numbers authorRole 3 with
          | none => simp
          | some above =>
              simp only [Option.bind_eq_bind, Option.bind_some, Option.isSome_some, iff_true]
              split <;> rfl

theorem isSome_applyRevoke {revoke : Bool}
    : (s.applyRevoke peer author authorRole fields revoke).isSome
      ↔ Rankable peer authorRole
        ∧ (Above peer authorRole 3 → (Json.string? (Json.field fields "member")).isSome
          → Readable peer (Json.field fields "channel")) := by
  rw [State.applyRevoke]
  simp only [Option.bind_eq_bind, Bool.not_eq_true]
  rw [isSome_bind_atLeast (by simp)]
  refine and_congr_right fun _ => imp_congr_right fun _ => ?_
  simp only [Bool.true_eq_false, if_false, Readable]
  cases Json.string? (Json.field fields "member") with
  | none => simp
  | some member =>
      cases Json.fieldText peer.numbers (Json.field fields "channel") with
      | none => simp
      | some channel =>
          simp only [Option.bind_some, Option.isSome_some, true_implies, iff_true]
          split <;> rfl

theorem isSome_applyBan
    : (s.applyBan peer author authorRole fields).isSome
      ↔ Rankable peer authorRole
        ∧ (Above peer authorRole 2 → Readable peer (Json.field fields "member")) := by
  rw [State.applyBan]
  simp only [Option.bind_eq_bind, Bool.not_eq_true]
  rw [isSome_bind_atLeast (by simp)]
  refine and_congr_right fun _ => imp_congr_right fun _ => ?_
  simp only [Bool.true_eq_false, if_false, Readable]
  cases Json.fieldText peer.numbers (Json.field fields "member") with
  | none => simp
  | some member =>
      simp only [Option.bind_some, Option.isSome_some, iff_true]
      split <;> rfl

theorem isSome_applyUnban
    : (s.applyUnban peer authorRole fields).isSome
      ↔ Rankable peer authorRole
        ∧ (Above peer authorRole 2 → Readable peer (Json.field fields "member")) := by
  rw [State.applyUnban]
  simp only [Option.bind_eq_bind, Bool.not_eq_true]
  rw [isSome_bind_atLeast (by simp)]
  refine and_congr_right fun _ => imp_congr_right fun _ => ?_
  simp only [Bool.true_eq_false, if_false, Readable]
  cases Json.fieldText peer.numbers (Json.field fields "member") <;> simp

theorem isSome_applyHide
    : (s.applyHide peer author authorRole fields).isSome
      ↔ Rankable peer authorRole
        ∧ (Above peer authorRole 2 → Readable peer (Json.field fields "member")
          ∧ Readable peer (Json.field fields "log") ∧ Readable peer (Json.field fields "seq")) := by
  rw [State.applyHide]
  simp only [Option.bind_eq_bind, Bool.not_eq_true]
  rw [isSome_bind_atLeast (by simp)]
  refine and_congr_right fun _ => imp_congr_right fun _ => ?_
  simp only [Bool.true_eq_false, if_false, Readable]
  cases Json.fieldText peer.numbers (Json.field fields "member") with
  | none => simp
  | some member =>
      cases Json.fieldText peer.numbers (Json.field fields "log") with
      | none => simp
      | some log => cases Json.fieldText peer.numbers (Json.field fields "seq") <;> simp

theorem isSome_applyKeeper
    : (s.applyKeeper peer author authorRole fields).isSome ↔ Rankable peer authorRole := by
  rw [State.applyKeeper]
  simp only [Option.bind_eq_bind, Bool.not_eq_true]
  rw [isSome_bind_atLeast (by simp)]
  refine (and_iff_left fun _ => ?_)
  simp only [Bool.true_eq_false, if_false]
  split <;> rfl

theorem isSome_applySigned {type : String}
    : (s.applySigned peer author authorRole fields type).isSome
      ↔ CalmSigned peer s authorRole fields type := by
  unfold State.applySigned
  split
  · exact isSome_applyRole
  · exact isSome_applyChannel
  · exact isSome_applyRotate
  · exact isSome_applyRedeem
  · exact isSome_applyRevokeInvite
  · exact isSome_applyRevoke
  · exact isSome_applyRevoke
  · exact isSome_applyBan
  · exact isSome_applyUnban
  · exact isSome_applyHide
  · exact isSome_applyKeeper
  · unfold CalmSigned
    split <;> simp_all

theorem isSome_apply {node : Node Number} : (s.apply peer node).isSome ↔ Calm peer s node := by
  unfold State.apply Calm
  cases node.value with
  | object fields =>
      simp only [Json.object.injEq, forall_eq']
      cases Json.string? (Json.field fields "type") with
      | none => simp
      | some type =>
          simp only [Option.some.injEq, forall_eq']
          by_cases init : type = "init"
          · simp [init]
          · simp only [init, ne_eq, not_false_eq_true, true_implies]
            cases peer.signer fields with
            | none => simp
            | some author =>
                simp only [Option.some.injEq, forall_eq']
                exact isSome_applySigned
  | _ => simp

end Kinds

-- Runs

/-- The keys that role records keep, which are what is taken from the writers again, are whole. -/
def Whole : Prop :=
  ∀ (member : String) (record : RoleRecord Number), s.view.roles[member]? = some record
    → ∀ writer, record.writer = some writer → (fromHex writer).length = 32

section Runs

variable {peer s} {s' : State W Number} {node : Node Number}

theorem Whole.insert {member : String} {record : RoleRecord Number} (whole : Whole s)
    (record_ : ∀ writer, record.writer = some writer → (fromHex writer).length = 32)
    (roles : s'.view.roles = s.view.roles.insert member record)
    : Whole s' := by
  intro other found at_ writer has
  rw [roles, Std.ExtTreeMap.getElem?_insert] at at_
  split at at_
  · cases at_
    exact record_ writer has
  · exact whole other found at_ writer has

/-- A step keeps the keys whole. -/
theorem Whole.step (key : peer.key.length = 32) (whole : Whole s) (step : Step peer s node s')
    : Whole s' := by
  cases step with
  | found => exact whole.insert (by simpa [fromHex_toHex] using key) rfl
  | removeRole _ _ =>
      intro other found at_
      rw [view_removeRole, Std.ExtTreeMap.getElem?_erase] at at_
      split at at_
      · cases at_
      · exact whole other found at_
  | assign _ _ writer => exact whole.insert writer rfl
  | redeem _ _ _ writer gives =>
      cases gives with
      | nothing => exact whole
      | role =>
          refine whole.insert (fun text (is : Option.map _ _ = some text) => ?_) rfl
          obtain ⟨key, given, rfl⟩ := Option.map_eq_some_iff.mp is
          rw [fromHex_toHex]
          exact writer key given
  | _ => exact whole

variable (key : peer.key.length = 32) {writers : W} {log nodes : List (Node Number)}
include key

/-- In every state that a log leads to, the nodes that follow are applied to their end just where each
is calm as far as they go; and every key that may be taken from the writers is whole.
-/
theorem run_calm (reached : State.run peer { writers } log = some s)
    : ((s.run peer nodes).isSome ↔ Runs.AsFar (State.apply peer) (Calm peer) s nodes) ∧ Whole s :=
  ⟨Runs.isSome_foldlM_iff fun _ _ => isSome_apply,
    Runs.foldlM_keeps Whole (fun _ _ _ whole applied => whole.step key (step_of_apply applied))
      (fun _ _ at_ => by simp at at_) reached⟩

end Runs

theorem run_calm_founded
    : (founded.run listPeer [signedBy (someone 1) "ban" [("member", .string (someone 2))] 0]).isSome
        ↔ Runs.AsFar (State.apply listPeer) (Calm listPeer) founded
          [signedBy (someone 1) "ban" [("member", .string (someone 2))] 0] :=
  (run_calm (by decide) run_founding).1

/-- Someone without a role signs a role change for a member that is no text, or the owner one for a
writer of 64 characters that are no hex: neither can be applied.
-/
theorem role_throws
    : State.run listPeer { writers := [(List.replicate 32 0, true)] } [founding] = some founded
      ∧ ¬ (founded.run listPeer
          [signedBy (someone 5) "role" [("member", .object [("toString", .number 1)])] 0]).isSome
      ∧ ¬ (founded.run listPeer
          [signedBy (someone 1) "role"
            [("member", .string (someone 2)), ("role", .string "mod"),
              ("writer", .string (String.ofList (List.replicate 64 'x')))] 0]).isSome :=
  ⟨run_founding, by decide +kernel, by decide +kernel⟩

end Hypergraph.Control
