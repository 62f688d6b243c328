import Hypergraph.Engine.Throwing
import Hypergraph.Lib.Gives

/-! Steps that may throw, beside those of `Applying` and `Governance`: where a step doesn't throw, it
makes what the one without faults does.
-/

namespace Hypergraph.Engine

open Wire Js Layouts Events Faults

variable {W Db Number : Type}

namespace Layouts.Applying

variable {peer : ThrowingPeer W Number} {layout : ThrowingLayout Db Number} {s : Applying Db}

theorem gives_write? {write : Write Number} : Gives (s.write? layout write) (s.write layout.toIndexLayout write) :=
  .unless (.inr rfl)

theorem gives_bumpCount? {direction : Direction} {entityId type : String} {delta : Int}
    : Gives (s.bumpCount? layout direction entityId type delta)
        (s.bumpCount layout.toIndexLayout direction entityId type delta) :=
  .unless (.inr rfl)

theorem gives_applyRelation? {e : Edge Number}
    : Gives (s.applyRelation? layout e) (s.applyRelation layout.toIndexLayout e) :=
  .unless (.ite (.inr rfl) (gives_write?.bind (gives_bumpCount?.bind gives_bumpCount?)))

theorem gives_applyRelationDelete? {source type target : String} {createdAt : Nat}
    : Gives (s.applyRelationDelete? layout source type createdAt target)
        (s.applyRelationDelete layout.toIndexLayout source type createdAt target) :=
  gives_write?.bind (gives_bumpCount?.bind gives_bumpCount?)

/-- What the rules let through, where they don't throw. -/
theorem Gives.passing {event : Event Number} {made : Option (Applying Db)} {t : Applying Db}
    (gives : Gives made t)
    : Gives (s.passesRules? peer layout event >>= fun passes => if passes then made else some s)
        (if ¬ s.passesRules peer.toContextPeer layout.toIndexLayout event then s else t) := by
  rw [ite_not]
  exact Gives.bind (.unless (.inr rfl)) (gives.ite (.inr rfl))

theorem gives_applyData? {event : Event Number}
    : Gives (s.applyData? peer layout event)
        (s.applyData peer.toContextPeer layout.toIndexLayout event) := by
  unfold applyData? applyData
  cases event.body with
  | relationCreate source target type author signature value data =>
      exact .ite (.inr rfl) (.ite (.inr rfl) (.ite (.inr rfl) (.ite (.inr rfl)
        (Gives.passing gives_applyRelation?))))
  | relationDelete source target type author createdAt signature =>
      exact .ite (.inr rfl) (.ite (.inr rfl) (Gives.passing gives_applyRelationDelete?))
  | tag op entityId tag author signature =>
      refine .ite (.inr rfl) (.ite (.inr rfl) (Gives.passing ?_))
      cases op with
      | add => exact gives_write?
      | remove => exact gives_write?
  | _ => exact .inr rfl

end Layouts.Applying

namespace Governance

variable {peer : Peer W} {s : Governance W}

theorem gives_addWriter? {key : Key} {indexer : Bool}
    : Gives (s.addWriter? peer key indexer) (s.addWriter peer key indexer) := by
  unfold addWriter?
  split
  · exact .inr rfl
  · exact .inl rfl

theorem gives_applyContextWriter? {key member author : String} {timestamp : Nat} {signature : Option String}
    : Gives (s.applyContextWriter? peer key member author timestamp signature)
        (s.applyContextWriter peer key member author timestamp signature) :=
  .ite (.inr rfl) (.ite (.inr rfl) (.ite (.inr rfl) gives_addWriter?))

theorem gives_applyContextRole? {member role author : String} {timestamp : Nat} {signature : Option String}
    : Gives (s.applyContextRole? peer member role author timestamp signature)
        (s.applyContextRole peer member role author timestamp signature) := by
  refine .ite (.inr rfl) (.ite (.inr rfl) (.ite (.inr rfl) ?_))
  cases applyRoleEvent s.roles (roleEvent member role) with
  | none => exact .inr rfl
  | some next => exact .ite (.inr rfl) (gives_foldlM (fun _ _ => gives_addWriter?) _)

theorem gives_applyContextRedeem? {inviteKey member key : String} {timestamp : Nat}
    {signature memberSignature encryptionKey : Option String} {from_ : Key} {optimistic : Bool}
    : Gives (s.applyContextRedeem? peer inviteKey member key timestamp signature memberSignature encryptionKey
          from_ optimistic)
        (s.applyContextRedeem peer inviteKey member key timestamp signature memberSignature encryptionKey from_
          optimistic) := by
  unfold applyContextRedeem?
  -- Each check leaves the same state in both.
  generalize is : s.applyContextRedeem .. = made
  unfold applyContextRedeem at is
  split
  case isTrue no => exact .inr (by rw [← is, if_pos no])
  case isFalse own =>
    rw [if_neg own] at is
    split
    case isTrue no => exact .inr (by rw [← is, if_pos no])
    case isFalse named =>
      rw [if_neg named] at is
      cases found : s.invites[inviteKey]? with
      | none =>
          rw [found] at is
          exact .inr (congrArg some is)
      | some inv =>
          rw [found] at is
          dsimp only at is ⊢
          split
          case isTrue no => exact .inr (by rw [← is, if_pos no])
          case isFalse left_ =>
            rw [if_neg left_] at is
            split
            case isTrue no => exact .inr (by rw [← is, if_pos no])
            case isFalse =>
              cases s.roles.bind (given? · member inv.role) with
              | none => exact .inl rfl
              | some table =>
                  dsimp only
                  split
                  · exact .inr rfl
                  · exact .inl rfl

end Governance

namespace ContextView

variable {Tuple : Type} [Ord Tuple] {peer : ThrowingPeer W Number}
  {s : ContextView W Tuple Number} {event : GovernanceEvent} {given : Given}

/-- In a context of version 3, governance is as it is without faults. -/
theorem gives_govern (third : s.recordOf.version = 3)
    : Gives (s.govern peer event given)
        { s with
          governance := s.governance.apply peer.toPeer
            { event, from_ := given.from_, optimistic := given.optimistic } } := by
  have governed {made : Option (Governance W)} {governance : Governance W} (gives : Gives made governance)
      : Gives (made.map fun governance => { s with governance }) { s with governance } :=
    gives.map fun governance => { s with governance }
  have same : Gives (some s) { s with governance := s.governance } := .inr rfl
  have later {c : Prop} [Decidable c] {made : Option (ContextView W Tuple Number)} {governance : Governance W}
      (gives : Gives made { s with governance })
      : Gives (if c then some s else made) { s with governance := if c then s.governance else governance } := by
    split
    · exact same
    · exact gives
  unfold govern Governance.apply
  simp only [third, if_true]
  cases event with
  | contextRedeem => exact governed Governance.gives_applyContextRedeem?
  | contextInvite => exact later (governed (.inr rfl))
  | addWriter key => exact later (later (governed Governance.gives_addWriter?))
  | contextWriter => exact later (governed Governance.gives_applyContextWriter?)
  | contextRole => exact later (governed Governance.gives_applyContextRole?)
  | rolesAddWriter => exact later (later (governed Governance.gives_addWriter?))
  | rolesRemoveWriter => exact later (later (governed (.inr rfl)))

end ContextView

end Hypergraph.Engine
