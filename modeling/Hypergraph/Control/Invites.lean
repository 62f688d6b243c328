import Hypergraph.Encodings
import Hypergraph.Engine.Governance

/-! Invites of a community and their redemptions, as read from bytes (`src/v2/encodings.js`,
`src/v2/invites.js`).
-/

namespace Hypergraph.Control

open Wire Js Engine

/-- An invite, without its maker's signature. -/
structure Invite where
  id : Bytes
  community : Bytes
  /-- The role it gives; `none`: it gives none. -/
  role : Option String
  channels : List String
  /-- When it ends; 0: never. -/
  expires : Nat
  /-- How many may redeem it; 0: any number. -/
  uses : Nat
  maker : Key
  deriving DecidableEq

structure SignedInvite extends Invite where
  sig : Bytes
  deriving DecidableEq

/-- A newcomer's redemption of an invite, without the newcomer's signature. -/
structure Redemption where
  invite : SignedInvite
  identity : Key
  encryptionKey : Key
  writer : Option Key
  t : Nat
  deriving DecidableEq

structure SignedRedemption extends Redemption where
  sig : Bytes
  deriving DecidableEq

section Reading

-- The encodings of the `compact-encoding` package.
variable (p : Primitives)

def readInvite (bytes : Bytes) : Option (SignedInvite × Bytes) := do
  let (id, bytes) ← readBytes 16 bytes
  let (community, bytes) ← readBytes 32 bytes
  let (role, bytes) ← p.string.decode bytes
  let (channels, bytes) ← (p.array p.string).decode bytes
  let (expires, bytes) ← p.uint.decode bytes
  let (uses, bytes) ← p.uint.decode bytes
  let (maker, bytes) ← readBytes 32 bytes
  let (sig, bytes) ← readBytes 64 bytes
  return ({ id, community, role := required (some role), channels, expires, uses, maker, sig }, bytes)

/-- A redemption's writer, if it has one. -/
def readWriter (bytes : Bytes) : Option (Option Key × Bytes) := do
  let (flag, bytes) ← p.uint.decode bytes
  if flag ≠ 0 then (readBytes 32 bytes).map fun (writer, bytes) => (some writer, bytes)
  else some (none, bytes)

def readRedemption (bytes : Bytes) : Option (SignedRedemption × Bytes) := do
  let (invite, bytes) ← readInvite p bytes
  let (identity, bytes) ← readBytes 32 bytes
  let (encryptionKey, bytes) ← readBytes 32 bytes
  let (writer, bytes) ← readWriter p bytes
  let (t, bytes) ← p.uint.decode bytes
  let (sig, bytes) ← readBytes 64 bytes
  return ({ invite, identity, encryptionKey, writer, t, sig }, bytes)

/-- `decodeHex(inviteEnc, text)`. -/
def decodeInvite (text : Option String) : Option SignedInvite :=
  text.bind fun text => (readInvite p (fromHex text)).map Prod.fst

/-- `decodeHex(redemptionEnc, text)`. -/
def decodeRedemption (text : Option String) : Option SignedRedemption :=
  text.bind fun text => (readRedemption p (fromHex text)).map Prod.fst

theorem length_of_readBytes {count : Nat} {bytes value rest : Bytes}
    (is : readBytes count bytes = some (value, rest))
    : value.length = count := by
  simp only [readBytes, Option.ite_none_right_eq_some, Option.some.injEq, Prod.mk.injEq] at is
  obtain ⟨enough, rfl, _⟩ := is
  rw [List.length_take, Nat.min_eq_left enough]

theorem length_of_readWriter {bytes rest : Bytes} {writer : Key}
    (is : readWriter p bytes = some (some writer, rest))
    : writer.length = 32 := by
  simp only [readWriter, Option.bind_eq_bind, Option.bind_eq_some_iff, Prod.exists] at is
  obtain ⟨flag, bytes, _, is⟩ := is
  split at is
  · obtain ⟨⟨key, rest'⟩, read, same⟩ := Option.map_eq_some_iff.mp is
    cases same
    exact length_of_readBytes read
  · cases is

/-- The writer of a redemption that is decoded is a whole key. -/
theorem length_of_decodeRedemption {text : Option String} {r : SignedRedemption} {writer : Key}
    (is : decodeRedemption p text = some r) (writer_ : r.writer = some writer)
    : writer.length = 32 := by
  simp only [decodeRedemption, readRedemption, Option.bind_eq_bind, Option.bind_eq_some_iff,
    Option.map_eq_some_iff, Prod.exists] at is
  obtain ⟨_, _, _, _, ⟨_, _, _, _, _, _, _, _, _, found, bytes, read, _, _, _, _, _, _, same⟩, rfl⟩ := is
  obtain rfl : found = some writer := by
    rw [← writer_]
    exact congrArg (fun r : SignedRedemption × Bytes => r.1.writer) (Option.some.inj same)
  exact length_of_readWriter p read

end Reading

end Hypergraph.Control
