import Hypergraph.Identity
import Hypergraph.Lib.Dict

/-! Grants of a private channel (`src/v2/grants.js`, and `src/v2/index.js` for who may grant): the key
of an epoch sealed to a member, kept by each keeper of the channel in a tree by recipient, epoch and
commitment, beside an index from identities to the encryption keys grants were sealed to.
-/

namespace Hypergraph.Channels.Grants

open Wire Js Encodings

-- A grant

/-- An identity's encryption key pair. -/
structure Box where
  publicKey : Key
  secretKey : Key
  deriving DecidableEq, Repr

/-- The functions of sodium and of Node's crypto in use. -/
structure Sodium where
  /-- `sha256`. -/
  hash : Bytes → Bytes
  /-- Is it a signature of the message by the key? -/
  verify : Bytes → Bytes → Key → Bool
  /-- `crypto_box_seal_open`. -/
  sealOpen : Bytes → Box → Option Bytes

/-- What the tree keeps of a grant. -/
structure Value where
  identity : Key
  commit : Key
  sealed : Buffer
  granter : Key
  sig : Bytes
  deriving DecidableEq, Repr

structure Grant extends Value where
  recipient : Key
  epoch : Nat
  deriving DecidableEq, Repr

def SEALBYTES : Nat := 48

/-- The first bytes of a recipient's key, the epoch, and those of the commitment. -/
abbrev EntryKey := Bytes × Nat × Bytes

/-- The short form of a recipient's key. -/
def shortKey (recipient : Key) : Bytes := recipient.take 16

/-- The short form of a commitment. -/
def shortCommit (commit : Key) : Bytes := commit.take 8

/-- A key of the tree; an epoch of more than four bytes is thrown at. -/
def entryKey (recipient : Key) (epoch : Nat) (commit : Key) : Option EntryKey :=
  if epoch < 2 ^ 32 then some (shortKey recipient, epoch, shortCommit commit) else none

def Grant.key (g : Grant) : Option EntryKey := entryKey g.recipient g.epoch g.commit

section Crypto

variable (s : Sodium) (community : Key) (channel : String)

/-- What the control log records for an epoch: a grant must open to a key with this hash. -/
def commitOf (key : Key) : Key := s.hash (utf8 "hg-v2-epoch\x00" ++ key)

/-- The sealed message, if it is for this key pair. -/
def openSealed (sealed : Buffer) (box : Box) : Option Bytes :=
  match sealed with
  | none => none
  | some bytes => if bytes.length < SEALBYTES then none else s.sealOpen bytes box

/-- What a granter signs; hashing throws for no sealed bytes. -/
def grantSignable (g : Grant) : Option Bytes :=
  g.sealed.map fun sealed => s.hash (utf8 "hg-v2-grant\x00" ++ community ++ utf8 (channel ++ "\x00")
    ++ g.recipient ++ g.identity ++ utf8 (toString g.epoch ++ "\x00") ++ g.commit ++ sealed)

def verifyGrant (g : Grant) : Bool :=
  match grantSignable s community channel g with
  | none => false
  | some message => s.verify message g.sig g.granter

end Crypto

-- A keeper's store

/-- The tree, and the index of encryption keys by identity. -/
structure Store where
  bee : Dict EntryKey Value
  who : Dict Key Key

def Store.empty : Store := ⟨.empty, .empty⟩

/-- Grants in one batch, each unless its entry is there: the store, and how many were written. -/
def putGrants : Store → List Grant → Option (Store × Nat)
  | store, [] => some (store, 0)
  | store, g :: rest =>
      match g.key with
      | none => none
      | some key =>
          if (store.bee.get? key).isSome then putGrants store rest
          else
            (putGrants ⟨store.bee.put key g.toValue, store.who.put g.identity g.recipient⟩ rest).map
              fun (store, written) => (store, written + 1)

/-- A recipient's grants for these epochs, one lookup each. -/
def grantsForEpochs (store : Store) (recipient : Key) (epochs : List (Nat × Key)) : Option (List Grant) :=
  (epochs.mapM fun (epoch, commit) => (entryKey recipient epoch commit).map fun key =>
    (store.bee.get? key).map fun value => Grant.mk value recipient epoch).map (List.filterMap id)

/-- Every identity, and the encryption key its last grant was sealed to. -/
def allRecipients (store : Store) : List (Key × Key) := store.who.entries

def recipientOf (store : Store) (identity : Key) : Option Key := store.who.get? identity

-- Who may grant, and who is granted

/-- A channel as a peer's control log has it. `rank`: of an identity's role, 0 without one. -/
structure Control where
  private_ : Bool
  epoch : Nat
  memberGrants : Bool
  commits : Nat → Option Key
  revoked : Key → Bool
  rank : Key → Nat

/-- The rank of an admin. -/
def ADMIN : Nat := 3

/-- Admins and up; or, where the channel allows it, a member the store lists who isn't revoked. -/
def mayGrant (v : Control) (store : Store) (granter : Key) : Bool :=
  if ADMIN ≤ v.rank granter then true
  else if !v.memberGrants || v.revoked granter then false
  else (recipientOf store granter).isSome

/-- Identities not revoked with the encryption keys a rotation seals to, the last keeper's for each. -/
def recipients (v : Control) (stores : List Store) : Dict Key Key :=
  stores.foldl (fun out store => (allRecipients store).foldl (fun out (identity, recipient) =>
    if v.revoked identity then out else out.put identity recipient) out) .empty

section Keeping

variable (s : Sodium) (community : Key) (channel : String) (v : Control)

/-- Does a grant check out with a keeper? -/
def checksOut (store : Store) (g : Grant) : Bool :=
  decide (g.epoch ≤ v.epoch) && verifyGrant s community channel g && !v.revoked g.identity
    && mayGrant v store g.granter

/-- The grants that check out, in one batch; `none`: it throws, and nothing is written. -/
def acceptGrants (store : Store) (list : List Grant) : Option (Store × Nat) :=
  if !v.private_ then some (store, 0)
  else putGrants store (list.filter (checksOut s community channel v store))

/-- One grant that was sent: is it listed? -/
def acceptGrant (store : Store) (g : Grant) : Option (Store × Bool) :=
  if !v.private_ then some (store, false)
  else if g.epoch > v.epoch || !verifyGrant s community channel g then some (store, false)
  else if v.revoked g.identity then some (store, false)
  else if !mayGrant v store g.granter then some (store, false)
  else (putGrants store [g]).map fun (store, _) => (store, true)

/-- Grants as a keeper gets them, with what its control log says then. -/
structure Submission where
  keeper : Key
  view : Control
  list : List Grant

/-- The keepers' stores once a keeper has gone through a submission. -/
def submit (stores : Key → Store) (e : Submission) : Key → Store :=
  match acceptGrants s community channel e.view (stores e.keeper) e.list with
  | none => stores
  | some (store, _) => Function.update stores e.keeper store

-- A member's keys

/-- The key held of an epoch, if it is the one recorded. -/
def epochKey (held : Dict Nat Key) (epoch : Nat) : Option Key :=
  match held.get? epoch with
  | none => none
  | some key => if v.commits epoch = some (commitOf s key) then some key else none

/-- The epochs the control log has, minus those held. -/
def missing (held : Dict Nat Key) : List (Nat × Key) :=
  (List.range (v.epoch + 1)).filterMap fun epoch =>
    match v.commits epoch with
    | none => none
    | some commit => if (epochKey s v held epoch).isSome then none else some (epoch, commit)

/-- A grant found is checked, opened and its key held. -/
def takeGrant (box : Box) (store : Store) (held : Dict Nat Key) (g : Grant) : Dict Nat Key :=
  if (epochKey s v held g.epoch).isSome then held
  else if !verifyGrant s community channel g then held
  else if !mayGrant v store g.granter then held
  else match openSealed s g.sealed box with
    | none => held
    | some key => if v.commits g.epoch = some (commitOf s key) then held.put g.epoch key else held

/-- The keepers' stores are gone through, until no epoch is missing. -/
def loadFrom (box : Box) : List Store → Dict Nat Key → Dict Nat Key
  | [], held => held
  | store :: rest, held =>
      if missing s v held = [] then held
      else
        let list := (grantsForEpochs store box.publicKey (missing s v held)).getD []
        loadFrom box rest (list.foldl (takeGrant s community channel v box store) held)

/-- This member's grants for the channel, from each keeper. -/
def loadKeys (box : Box) (stores : List Store) (held : Dict Nat Key) : Dict Nat Key :=
  if !v.private_ then held else loadFrom s community channel v box stores held

end Keeping

end Hypergraph.Channels.Grants
