import Hypergraph.Decisions.Ideal
import Hypergraph.Lib.Base32
import Hypergraph.RoundTrip
import Hypergraph.Types

/-! Invite links and public links (`makeInvite`, `encodeLink`, `decodeLink` and `publicLink` in
`lib/invites.js`): four shapes in one form of text, told apart by their length and by what is left
after an invite. What its maker signs says which invite a link is of and what its root is.
-/

namespace Hypergraph.Links

open Wire Encodings Invites

def PREFIX : String := "hg:"

/-- The `z32` package: bytes as text, and back unless it throws. -/
structure Z32 where
  encode : Bytes → String
  decode : String → Option Bytes

/-- An identity on one of its devices: it signs data with a proof. -/
structure Signer where
  publicKey : Key
  attest : Bytes → Buffer

/-- What an invite is made of. -/
structure Given where
  space : Key
  role : String := "member"
  uses : Nat := 1
  expires : Nat := 0
  subspaces : List Key := []

/-- What a link is read as. -/
inductive Link
  | pub (space root : Key)
  | invite (inv : Invite) (root : Key)
  deriving DecidableEq

def bad : HypergraphError := ⟨"INVITE_INVALID", "Not a hypergraph invite link"⟩

def unsigned : HypergraphError := ⟨"INVITE_INVALID", "This invite link was not signed by its maker"⟩

section Source

variable (c : Primitives) (keys : IdentityKey) (z32 : Z32)

/-- `random`: the bytes drawn for its id. -/
def makeInvite (given : Given) (identity : Signer) (random : Bytes) (root : Option Key) : Invite :=
  let inv : Invite :=
    ⟨given.space, some random, given.role, given.uses, given.expires, given.subspaces, identity.publicKey, none⟩
  { inv with proof := identity.attest (inviteSignable c inv (root.getD inv.space)) }

/-- A root is only said where it is another than the space. -/
def withRoot (bytes : Bytes) (space : Key) : Option Key → Bytes
  | none => bytes
  | some root => if root ≠ space then bytes ++ root else bytes

def encodeLink (inv : Invite) (root : Option Key) : String :=
  PREFIX ++ z32.encode (withRoot ((invite c).encode inv) inv.space root)

def publicLink (space : Key) (root : Option Key) : String := PREFIX ++ z32.encode (withRoot space space root)

/-- An invite read from a link, if its maker signed it with this root. -/
def checked (inv : Invite) (root : Key) : Checked Link :=
  if verifyInvite c keys inv root then return .invite inv root else throw unsigned

/-- The bytes of a link. -/
def decodeBytes (bytes : Bytes) : Checked Link :=
  if bytes.length = 32 ∨ bytes.length = 64 then
    let space := bytes.take 32
    return .pub space (if bytes.length = 64 then bytes.drop 32 else space)
  else
    match (invite c).decode bytes with
    | none => throw bad
    | some (inv, rest) =>
        if rest.length = 32 then checked c keys inv rest
        else if rest = [] then checked c keys inv inv.space
        else throw bad

def decodeLink (link : String) : Checked Link :=
  if PREFIX.toList.isPrefixOf link.toList then
    match z32.decode (String.ofList (link.toList.drop PREFIX.length)) with
    | none => throw bad
    | some bytes => decodeBytes c keys bytes
  else throw bad

end Source

-- What is relied on

/-- What the packages that spell a link promise. -/
structure Promised (c : Primitives) (z32 : Z32) : Prop where
  documented : Documented c
  back : ∀ bytes, z32.decode (z32.encode bytes) = some bytes

/-- A proof holds for the data it was made for, and for no other. -/
structure Signs (keys : IdentityKey) (identity : Signer) : Prop where
  verifies : ∀ data, ∃ device, Identity.verify keys (identity.attest data) data = some ⟨identity.publicKey, device⟩
  binds : ∀ data other info, Identity.verify keys (identity.attest data) other = some info → other = data
  filled : ∀ data, nullable (identity.attest data) = identity.attest data

/-- What an invite is made of is what the encoding carries. -/
structure Given.Valid (given : Given) (identity : Signer) (random : Bytes) : Prop where
  space : Fixed32 given.space
  role : Text given.role
  uses : Safe given.uses
  expires : Safe given.expires
  subspaces : Each Fixed32 given.subspaces
  maker : Fixed32 identity.publicKey
  drawn : random.length = 16

-- Bytes

section Bytes

variable {c : Primitives} {z32 : Z32} {keys : IdentityKey} {inv inv' : Invite} {root root' : Key}

theorem decodeLink_encode (promised : Promised c z32) (bytes : Bytes)
    : decodeLink c keys z32 (PREFIX ++ z32.encode bytes) = decodeBytes c keys bytes := by
  have split : (PREFIX ++ z32.encode bytes).toList = PREFIX.toList ++ (z32.encode bytes).toList := String.toList_append
  have begins : PREFIX.toList.isPrefixOf (PREFIX.toList ++ (z32.encode bytes).toList) = true :=
    List.isPrefixOf_iff_prefix.mpr (List.prefix_append _ _)
  have rest : String.ofList ((PREFIX.toList ++ (z32.encode bytes).toList).drop PREFIX.length) = z32.encode bytes := by
    rw [← String.length_toList, List.drop_left, String.ofList_toList]
  unfold decodeLink
  rw [split, if_pos begins, rest, promised.back]

theorem inviteBody_decode (documented : Documented c) (valid : inv.Valid) (rest : Bytes)
    : (inviteBody c).decode ((inviteBody c).encode inv.body ++ rest) = some (inv.norm.body, rest) := by
  obtain ⟨space, id, role, uses, expires, subspaces, maker, -⟩ := valid
  have restores := documented.fixed32.pair (documented.buffer.pair (documented.string.pair
    (documented.uint.pair (documented.uint.pair
      ((exact_array documented documented.fixed32).pair documented.fixed32)))))
  exact restores.decode_encode ⟨space, id, role, uses, expires, subspaces, maker⟩ rest

theorem length_invite (documented : Documented c) (valid : inv.Valid) : 64 < ((invite c).encode inv).length := by
  obtain ⟨space, -, -, -, -, -, maker, -⟩ := valid
  have first := documented.long inv.space space
  have last := documented.long inv.maker maker
  have uses := List.length_pos_iff.mpr (documented.wide inv.uses)
  simp only [invite, inviteBody, Codec.iso, Codec.pair, Invite.body, List.length_append, first, last]
  omega

/-- What is signed says which invite it is, and what its root. -/
theorem inviteSignable_determines (documented : Documented c) (valid : inv.Valid) (valid' : inv'.Valid)
    (long : Fixed32 root) (long' : Fixed32 root') (same : inviteSignable c inv root = inviteSignable c inv' root')
    : inv.norm.body = inv'.norm.body ∧ root = root' := by
  have spelled (inv : Invite) (root : Key) : inviteSignable c inv root
      = nsInvite ++ ((inviteBody c).encode inv.body ++ if root ≠ inv.space then root else []) := by
    unfold inviteSignable
    split <;> simp
  rw [spelled, spelled] at same
  have read := congrArg (inviteBody c).decode (List.append_cancel_left same)
  rw [inviteBody_decode documented valid, inviteBody_decode documented valid', Option.some_inj, Prod.mk.injEq] at read
  obtain ⟨bodies, tails⟩ := read
  have spaces : inv.space = inv'.space := congrArg Prod.fst bodies
  refine ⟨bodies, ?_⟩
  have filled {key : Key} (long : Fixed32 key) : key ≠ [] := by
    rintro rfl
    cases long
  by_cases own : root = inv.space
  · by_cases own' : root' = inv'.space
    · rw [own, own', spaces]
    · rw [if_neg (not_not.mpr own), if_pos own'] at tails
      exact absurd tails.symm (filled long')
  · by_cases own' : root' = inv'.space
    · rw [if_pos own, if_neg (not_not.mpr own')] at tails
      exact absurd tails (filled long)
    · rwa [if_pos own, if_pos own'] at tails

/-- Bytes of an invite, with a root or without, are read as an invite. -/
theorem decodeBytes_invite (documented : Documented c) (valid : inv.Valid) {tail : Option Key}
    (long : ∀ root ∈ tail, Fixed32 root)
    : decodeBytes c keys ((invite c).encode inv ++ tail.getD []) = checked c keys inv.norm (tail.getD inv.space) := by
  have more := length_invite documented valid
  have decoded := (invite_restores documented).decode_encode valid (tail.getD [])
  have neither : ¬ (((invite c).encode inv ++ tail.getD []).length = 32
      ∨ ((invite c).encode inv ++ tail.getD []).length = 64) := by
    rw [List.length_append]
    omega
  unfold decodeBytes
  rw [if_neg neither, decoded]
  cases tail with
  | none => rfl
  | some root => exact if_pos (long root rfl)

/-- A public link's bytes are read as its space and root. -/
theorem decodeBytes_public {space : Key} {root : Option Key} (long : Fixed32 space)
    (long' : ∀ key ∈ root, Fixed32 key)
    : decodeBytes c keys (withRoot space space root) = .ok (.pub space (root.getD space)) := by
  unfold Fixed32 at long long'
  have alone : decodeBytes c keys space = .ok (.pub space space) := by
    unfold decodeBytes
    rw [if_pos (.inl long)]
    dsimp only
    rw [if_neg (by omega), List.take_of_length_le long.le]
    rfl
  cases root with
  | none => exact alone
  | some root =>
      have length : (space ++ root).length = 64 := by rw [List.length_append, long, long' root rfl]
      unfold withRoot
      dsimp only
      split
      · unfold decodeBytes
        rw [if_pos (.inr length)]
        dsimp only
        rw [if_pos length, ← long, List.take_left, List.drop_left]
        rfl
      · rename_i own
        rw [alone, Option.getD_some, not_not.mp own]

end Bytes

-- Links

/-- How the links of an invite and of its space are read. -/
structure ReadBack (c : Primitives) (keys : IdentityKey) (z32 : Z32) (inv : Invite) (root : Option Key) : Prop where
  invite : decodeLink c keys z32 (encodeLink c z32 inv root) = .ok (.invite inv (root.getD inv.space))
  pub : decodeLink c keys z32 (publicLink z32 inv.space root) = .ok (.pub inv.space (root.getD inv.space))
  /-- The link with any root in place of its own. -/
  rerooted
    : ∀ tail : Option Key, (∀ key ∈ tail, Fixed32 key)
      → decodeLink c keys z32 (PREFIX ++ z32.encode ((Encodings.invite c).encode inv ++ tail.getD []))
        = if tail.getD inv.space = root.getD inv.space then .ok (.invite inv (root.getD inv.space))
          else .error unsigned
  /-- Another invite, with another root, or its own, is signed with the same bytes only if it is the same. -/
  signed
    : ∀ (other : Invite) (root' : Key), other.Valid → Fixed32 root'
      → inviteSignable c other root' = inviteSignable c inv (root.getD inv.space)
      → other.norm.body = inv.body ∧ root' = root.getD inv.space
  /-- Whatever invite, whoever signed it: it isn't read as a public link. -/
  never_public
    : ∀ (other : Invite) (tail : Option Key) space key, other.Valid → (∀ key ∈ tail, Fixed32 key)
      → decodeLink c keys z32 (encodeLink c z32 other tail) ≠ .ok (.pub space key)
  /-- And no public link is read as an invite. -/
  never_invite
    : ∀ (space : Key) (tail : Option Key) other key, Fixed32 space → (∀ key ∈ tail, Fixed32 key)
      → decodeLink c keys z32 (publicLink z32 space tail) ≠ .ok (.invite other key)

section Links

variable {c : Primitives} {z32 : Z32} {keys : IdentityKey} {identity : Signer} {given : Given} {random : Bytes}
  {root : Option Key}

theorem encodeLink_eq (inv : Invite) (root : Option Key)
    : ∃ tail : Option Key, (∀ key ∈ tail, key ∈ root) ∧ tail.getD inv.space = root.getD inv.space
      ∧ encodeLink c z32 inv root = PREFIX ++ z32.encode ((invite c).encode inv ++ tail.getD []) := by
  unfold encodeLink
  cases root with
  | none => exact ⟨none, nofun, rfl, by simp [withRoot]⟩
  | some root =>
      by_cases own : root = inv.space
      · exact ⟨none, nofun, own.symm, by simp [withRoot, own]⟩
      · exact ⟨some root, fun _ mem => mem, rfl, by simp [withRoot, own]⟩

theorem made_valid (valid : given.Valid identity random)
    (buffered : Buffered (makeInvite c given identity random root).proof)
    : (makeInvite c given identity random root).Valid := by
  have id : Buffered (some random) := by
    unfold Buffered
    rw [Option.getD_some, valid.drawn]
    decide
  exact ⟨valid.space, id, valid.role, valid.uses, valid.expires, valid.subspaces, valid.maker, buffered⟩

/-- What `makeInvite` makes has no empty buffers. -/
theorem made_norm (signs : Signs keys identity) (valid : given.Valid identity random)
    : (makeInvite c given identity random root).norm = makeInvite c given identity random root := by
  have id : nullable (some random) = some random := by
    cases random with
    | nil => cases valid.drawn
    | cons byte random => rfl
  unfold Invite.norm makeInvite
  rw [id, signs.filled]

/-- It verifies with its own root, and with no other. -/
theorem checked_made (documented : Documented c) (signs : Signs keys identity) (valid : given.Valid identity random)
    (buffered : Buffered (makeInvite c given identity random root).proof) (long : ∀ key ∈ root, Fixed32 key) {root' : Key} (long' : Fixed32 root')
    : checked c keys (makeInvite c given identity random root) root'
      = if root' = root.getD given.space then .ok (.invite (makeInvite c given identity random root) root')
        else .error unsigned := by
  have own : Fixed32 (root.getD given.space) := by
    cases root with
    | none => exact valid.space
    | some root => exact long root rfl
  have made : (makeInvite c given identity random root).proof
      = identity.attest (inviteSignable c (makeInvite c given identity random root) (root.getD given.space)) := rfl
  have made_valid : (makeInvite c given identity random root).Valid := made_valid valid buffered
  unfold checked verifyInvite
  rw [made]
  by_cases same : root' = root.getD given.space
  · obtain ⟨device, verified⟩ := signs.verifies
      (inviteSignable c (makeInvite c given identity random root) (root.getD given.space))
    rw [if_pos same, same, verified]
    exact if_pos (decide_eq_true rfl)
  · rw [if_neg same]
    cases verified : Identity.verify keys
        (identity.attest (inviteSignable c (makeInvite c given identity random root) (root.getD given.space)))
        (inviteSignable c (makeInvite c given identity random root) root') with
    | none => rfl
    | some info =>
        have signed := signs.binds _ _ _ verified
        exact absurd (inviteSignable_determines documented made_valid made_valid long' own signed).2 same

/-- Whatever an invite is made of, for a root key or none, its link is read back as the invite and its
root, and its space's public link as the space and its root; and with another root it no longer verifies.
-/
theorem links_read_back (promised : Promised c z32) (signs : Signs keys identity)
    (valid : given.Valid identity random) (buffered : Buffered (makeInvite c given identity random root).proof)
    (long : ∀ key ∈ root, Fixed32 key)
    : ReadBack c keys z32 (makeInvite c given identity random root) root := by
  have documented := promised.documented
  have made_valid : (makeInvite c given identity random root).Valid := made_valid valid buffered
  have whole (fallback : Key) (tail : Option Key) (long : ∀ key ∈ tail, Fixed32 key) (fixed : Fixed32 fallback)
      : Fixed32 (tail.getD fallback) := by
    cases tail with
    | none => exact fixed
    | some key => exact long key rfl
  have rerooted (tail : Option Key) (long' : ∀ key ∈ tail, Fixed32 key)
      : decodeLink c keys z32
          (PREFIX ++ z32.encode ((invite c).encode (makeInvite c given identity random root) ++ tail.getD []))
        = if tail.getD given.space = root.getD given.space then
            .ok (.invite (makeInvite c given identity random root) (root.getD given.space))
          else .error unsigned := by
    rw [decodeLink_encode promised, decodeBytes_invite documented made_valid long', made_norm signs valid]
    refine (checked_made documented signs valid buffered long (whole _ _ long' valid.space)).trans ?_
    split
    · rename_i same
      exact congrArg (fun key => Except.ok (Link.invite _ key)) same
    · rfl
  refine ⟨?_, ?_, rerooted, fun other root' valid' long' same => ?_, fun other tail space key valid' long' read => ?_,
    fun space tail other key fixed long' read => ?_⟩
  · obtain ⟨tail, among, same, spelled⟩ := @encodeLink_eq c z32 (makeInvite c given identity random root) root
    rw [spelled, rerooted tail fun key mem => long key (among key mem)]
    exact if_pos same
  · exact (decodeLink_encode promised _).trans (decodeBytes_public valid.space long)
  · have own : Fixed32 (root.getD given.space) := whole _ _ long valid.space
    obtain ⟨bodies, roots⟩ := inviteSignable_determines documented valid' made_valid long' own same
    rw [made_norm signs valid] at bodies
    exact ⟨bodies, roots⟩
  · obtain ⟨tail', among, -, spelled⟩ := @encodeLink_eq c z32 other tail
    rw [spelled, decodeLink_encode promised,
      decodeBytes_invite documented valid' fun key mem => long' key (among key mem)] at read
    unfold checked at read
    split at read
    · cases read
    · cases read
  · rw [publicLink, decodeLink_encode promised, decodeBytes_public fixed long'] at read
    cases read

/-- A sub-space's invite with two sub-spaces and its top space's key, signed by an ideal identity. -/
theorem links_read_back_ideal
    : ReadBack compactNull Decisions.idealKeys ⟨Base32.encode, Base32.decode⟩
        (makeInvite compactNull ⟨Decisions.keyOf 1, "member", 5, 0, [Decisions.keyOf 2, Decisions.keyOf 3]⟩
          ⟨Decisions.keyOf 10, Decisions.attest (Decisions.keyOf 10) (Decisions.keyOf 11)⟩ (Decisions.idOf 7)
          (some (Decisions.keyOf 4)))
        (some (Decisions.keyOf 4)) := by
  have long (n : UInt8) : Fixed32 (Decisions.keyOf n) := List.length_replicate
  have verified (data other : Bytes) := Decisions.verify_attest (long 10) (long 11) data other
  have signs : Signs Decisions.idealKeys
      ⟨Decisions.keyOf 10, Decisions.attest (Decisions.keyOf 10) (Decisions.keyOf 11)⟩ := by
    refine ⟨fun data => ⟨Decisions.keyOf 11, ?_⟩, fun data other info found => ?_, fun data => rfl⟩
    · rw [verified, if_pos rfl]
    · rw [verified] at found
      split at found
      · rename_i same
        exact same.symm
      · cases found
  have subspaces : Each Fixed32 [Decisions.keyOf 2, Decisions.keyOf 3] := by
    refine ⟨by decide, fun key mem => ?_⟩
    rcases List.mem_pair.mp mem with rfl | rfl
    · exact long 2
    · exact long 3
  have text : Text "member" := by
    unfold Text
    decide
  have small {n : Nat} (less : n < 6) : Safe n := by
    unfold Safe
    omega
  refine links_read_back ⟨compactNull_documented, Base32.decode_encode⟩ signs
    ⟨long 1, text, small (by decide), small (by decide), subspaces, long 10, rfl⟩ ?_ fun key mem => ?_
  · unfold Buffered
    decide +kernel
  · cases mem
    exact long 4

end Links

end Hypergraph.Links
