import Hypergraph.Decisions.Reachable

/-! An ideal identity key, whose proofs say in clear whom they speak for and what they
attest, and decisions sent with it: what concrete logs are evaluated with.
-/

namespace Hypergraph.Decisions

open Wire Js Encodings Invites

/-- A proof is the identity, its device and what it attests, one after the other. -/
def idealKeys : IdentityKey where
  decodeProof bytes := some ⟨[], bytes⟩
  verify proof data :=
    if proof.rest.drop 64 = data then
      some ⟨proof.rest.take 32, (proof.rest.drop 32).take 32⟩
    else none

def attest (identity device : Key) (data : Bytes) : Buffer := some (identity ++ device ++ data)

/-- Such a proof holds for what it attests, by the device it names, and for nothing else. -/
theorem verify_attest {identity device : Key} (long : identity.length = 32)
    (longDevice : device.length = 32) (data other : Bytes)
    : Identity.verify idealKeys (attest identity device data) other
      = if data = other then some ⟨identity, device⟩ else none := by
  have rest : (identity ++ device ++ data).drop 64 = data := by
    have whole : (identity ++ device).length = 64 := by simp [long, longDevice]
    rw [← whole]
    exact List.drop_left
  have head : (identity ++ device ++ data).take 32 = identity := by
    rw [List.append_assoc, ← long]
    exact List.take_left
  have tail : ((identity ++ device ++ data).drop 32).take 32 = device := by
    rw [List.append_assoc, ← long, List.drop_left, long, ← longDevice]
    exact List.take_left
  unfold Identity.verify idealKeys attest
  simp only [Option.bind_eq_bind, Option.bind_some, List.length_nil, rest, head, tail]
  rfl

/-- The program's packages as documented, with that identity key. -/
def idealEnv (space : Key) : Env where
  c := compact
  keys := idealKeys
  hash bytes := (bytes ++ List.replicate 32 0).take 32
  removeable _ _ := true
  declared text _ := some text
  space := space

/-- A key told by its first byte. -/
def keyOf (n : UInt8) : Key := List.replicate 32 n

/-- An id as `makeInvite` draws them, of 16 bytes. -/
def idOf (n : UInt8) : Key := List.replicate 16 n

/-- A decision as a writer sends it. -/
def sent (writer : Key) (stamp : Nat) (body : Body) : Node :=
  ⟨(decision compact).encode ⟨stamp, body⟩, writer⟩

/-- A decision about a sub-space as a writer sends it. -/
def sentIn (scope writer : Key) (stamp : Nat) (body : Body) : Node :=
  sent writer stamp (.scoped ⟨scope, some ((decision compact).encode ⟨stamp, body⟩)⟩)

/-- The first decision of a space, by its owner from the first of their devices. -/
def initial (space : Key) (owner device : Key) : Body :=
  .spaceInit {
    name := "space"
    policy := "auto"
    proof := attest owner device (writerSignable space space)
    priv := false
    version := 1
    parent := none }

/-- An invite as its maker signs it. -/
def makeInvite (space id : Key) (role : String) (uses : Nat) (subspaces : List Key)
    (maker root : Key)
    : Invite :=
  let inv : Invite := ⟨space, some id, role, uses, 0, subspaces, maker, none⟩
  { inv with proof := attest maker maker (inviteSignable compact inv root) }

/-- A redemption as the redeemer signs it. -/
def redeeming (inv : Invite) (identity writer : Key) : Body :=
  let data := nsRedeem ++ inv.space ++ inv.id.getD [] ++ identity ++ writer
  .inviteRedeem (some ((redemption compact).encode
    ⟨inv, identity, writer, attest identity writer data⟩))

/-- Each node of a log passes a check at the view the nodes before it lead to. -/
def checkEach (env : Env) (check : View → Node → Bool) : View → List Node → Bool
  | _, [] => true
  | v, node :: rest => check v node
      && match applyNode env v node with
        | .ok w => checkEach env check w rest
        | .error _ => true

theorem eachNode_of_check {env : Env} {check : View → Node → Bool} {v : View} {nodes : List Node}
    (checks : checkEach env check v nodes = true)
    : EachNode env (fun v node => check v node = true) v nodes := by
  induction nodes generalizing v with
  | nil =>
      intro before node after w split _
      cases before <;> cases split
  | cons node rest ih =>
      simp only [checkEach, Bool.and_eq_true] at checks
      cases ran : applyNode env v node with
      | ok w =>
          rw [ran] at checks
          exact (eachNode_cons ran).mpr ⟨checks.1, ih checks.2⟩
      | error thrown =>
          intro before next after w split came
          cases before with
          | nil =>
              cases split
              cases came
              exact checks.1
          | cons first before =>
              cases split
              rw [applyNodes_cons, ran] at came
              cases came

end Hypergraph.Decisions
