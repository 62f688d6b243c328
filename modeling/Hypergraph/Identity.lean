import Hypergraph.Encodings

/-! Proofs that a device belongs to an identity (`lib/identity.js`). The key package's own
encoding and check are parameters; `Identity.verify` is what the program makes of them.
-/

namespace Hypergraph

open Wire

/-- Who a valid proof speaks for. -/
structure Attested where
  identity : Key
  device : Key
  deriving DecidableEq, Repr

/-- A decoded proof: its chain of attestations and the rest of it. -/
structure Proof where
  chain : List Bytes
  rest : Bytes
  deriving DecidableEq, Repr

/-- What `keet-identity-key` answers: `ProofEncoding`, and `IdentityKey.verify` (nothing
where it gives `null` or throws).
-/
structure IdentityKey where
  decodeProof : Bytes → Option Proof
  verify : Proof → Bytes → Option Attested

/-- `{ identity, device }` if the proof attests the data, else nothing: it never throws.
Only the identity key itself, or a device it bootstrapped, may sign.
-/
def Identity.verify (keys : IdentityKey) (proof : Buffer) (data : Bytes) : Option Attested := do
  let decoded ← keys.decodeProof (← proof)
  if decoded.chain.length > 1 then none else keys.verify decoded data

/-- The bytes of a text (`b4a.from`). -/
def utf8 (text : String) : Bytes := text.toUTF8.data.toList

end Hypergraph
