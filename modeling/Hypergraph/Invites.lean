import Hypergraph.Identity
import Hypergraph.Lib.Js

/-! Invites and their redemptions, and whose signature each carries (`lib/invites.js`). -/

namespace Hypergraph.Invites

open Wire Js Encodings

def nsInvite : Bytes := utf8 "hypergraph/invite\x00"

def nsRedeem : Bytes := utf8 "hypergraph/redeem\x00"

variable (c : Primitives) (keys : IdentityKey)

/-- What an invite's maker signs; one to a sub-space is signed with the top space's key. -/
def inviteSignable (inv : Invite) (root : Key) : Bytes :=
  let body := (inviteBody c).encode inv.body
  if root ≠ inv.space then nsInvite ++ body ++ root else nsInvite ++ body

def verifyInvite (inv : Invite) (root : Key) : Bool :=
  match Identity.verify keys inv.proof (inviteSignable c inv root) with
  | some info => info.identity = inv.maker
  | none => false

/-- What a redeemer signs; `b4a.concat` throws for an invite whose id is `null`. -/
def redemptionSignable (inv : Invite) (identity writer : Key) : Run Bytes :=
  match inv.id with
  | none => throw .nullValue
  | some id => return nsRedeem ++ inv.space ++ id ++ identity ++ writer

/-- Who signed a redemption, or nothing if it doesn't hold. -/
def verifyRedemption (r : Redemption) (root : Key) : Run (Option Attested) := do
  if !verifyInvite c keys r.invite root then return none
  let data ← redemptionSignable r.invite r.identity r.writer
  match Identity.verify keys r.proof data with
  | some info => return if info.identity = r.identity then some info else none
  | none => return none

end Hypergraph.Invites
