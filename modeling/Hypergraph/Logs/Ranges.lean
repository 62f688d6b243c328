import Mathlib.Data.Fintype.Pi
import Hypergraph.Lib.Dict
import Hypergraph.Encodings

/-! Settling two log lists by key ranges (`lib/ranges.js`): a range is a prefix of the logs' keys; a
`ranges` message gives the count and digest of its sixteen sub-ranges, and those that differ are
settled with keys, or asked about further down. And the count of answers a side waits for
(`#send` and `#onKeys` in `lib/directory.js`).
-/

namespace Hypergraph.Ranges

open Js

/-- Keys sent instead of recursing. -/
def FEW : Nat := 32

/-- Keys per message. -/
def CHUNK : Nat := 1000

abbrev Nibble := Fin 16

/-- The deepest a range may be, in nibbles (`MAX_BITS` is 252). -/
def MAX_DEPTH : Nat := 63

-- Keys

abbrev LogKey := { key : Key // key.length = 32 }

/-- The first or the second nibble of a byte. -/
def high (byte : UInt8) : Nibble := ⟨byte.toNat / 16, by have := byte.toNat_lt; omega⟩

def low (byte : UInt8) : Nibble := ⟨byte.toNat % 16, by omega⟩

def nibbles (key : LogKey) : List Nibble := key.1.flatMap fun byte => [high byte, low byte]

/-- The logs held, with their lengths. -/
abbrev Keys := Dict LogKey Nat

/-- A count and digest of a range's keys. -/
structure Part where
  count : Nat
  digest : BitVec 256
  deriving DecidableEq

section Keys

-- `item`: what an entry adds to a digest, a hash.
variable (item : LogKey → Nat → BitVec 256) (keys : Keys) (range : List Nibble)

def digestOf (entries : List (LogKey × Nat)) : BitVec 256 :=
  entries.foldl (fun digest entry => digest ^^^ item entry.1 entry.2) 0

def partOf (entries : List (LogKey × Nat)) : Part := ⟨entries.length, digestOf item entries⟩

/-- The keys of a range, with their lengths. -/
def within : List (LogKey × Nat) :=
  keys.entries.filter fun entry => range.isPrefixOf (nibbles entry.1)

def count : Nat := (within keys range).length

/-- The range's sixteen sub-ranges. -/
def parts (i : Nibble) : Part := partOf item (within keys (range ++ [i]))

/-- Is a log not held, or held shorter? -/
def lacks (entry : LogKey × Nat) : Bool :=
  match keys.get? entry.1 with
  | none => true
  | some length => decide (length < entry.2)

end Keys

-- A session

inductive Kind
  /-- 0: the sender's keys in the range. -/
  | mine
  /-- 1: "send me yours". -/
  | ask
  /-- 2: keys the receiver lacks. -/
  | lack
  /-- 3: every answer to a message was sent before it. -/
  | done
  deriving DecidableEq

inductive Message
  | ranges (range : List Nibble) (parts : Nibble → Part)
  | keys (range : List Nibble) (kind : Kind) (keys : List (LogKey × Nat))
  deriving DecidableEq

/-- Does it wait for a `done` from the peer? -/
def answered : Message → Bool
  | .ranges _ _ | .keys _ .mine _ | .keys _ .ask _ => true
  | .keys _ .lack _ | .keys _ .done _ => false

/-- One peer's side of the exchange with another. `take`: it wants the other's keys. -/
structure Session where
  keys : Keys
  take : Bool := true
  /-- What the peer gave for a range we asked keys of. -/
  expect : Dict (List Nibble) Part := .empty

/-- What comes of a peer's keys. -/
structure Answer where
  session : Session
  out : List Message := []
  learn : List (LogKey × Nat) := []
  done : Bool := false

/-- A list in slices of at most `CHUNK`. -/
def slices {α : Type} (list : List α) : List (List α) :=
  (List.range ((list.length + CHUNK - 1) / CHUNK)).map fun i => (list.drop (i * CHUNK)).take CHUNK

namespace Session

variable (item : LogKey → Nat → BitVec 256) (session : Session) (range : List Nibble)

/-- The ranges message for a range. -/
def ranges : Message := .ranges range (parts item session.keys range)

def start : Message := session.ranges item []

/-- Is the peer asked for its keys of a sub-range it gave this for? -/
def asks (theirs : Part) : Bool :=
  theirs != partOf item (within session.keys range) && session.take
    && decide (theirs.count ≤ FEW)

/-- What a sub-range the peer gave `theirs` for is answered with. -/
def reply (theirs : Part) : List Message :=
  let mine := partOf item (within session.keys range)
  if theirs = mine then []
  else if session.take = false then
    if FEW < mine.count then [session.ranges item range]
    else if 0 < mine.count then [.keys range .lack (within session.keys range)]
    else []
  else if theirs.count ≤ FEW then [.keys range .ask []]
  else if mine.count ≤ FEW then [.keys range .mine (within session.keys range)]
  else [session.ranges item range]

/-- A peer's ranges: what to send back. -/
def onRanges (theirs : Nibble → Part) : Session × List Message :=
  if MAX_DEPTH < range.length + 1 then (session, [])
  else
    ({ session with
        expect := (List.finRange 16).foldl (fun expect i =>
          if session.asks item (range ++ [i]) (theirs i) then expect.put (range ++ [i]) (theirs i)
          else expect) session.expect },
      ((List.finRange 16).flatMap fun i => session.reply item (range ++ [i]) (theirs i))
        ++ [.keys range .done []])

/-- A peer's keys. -/
def onKeys (kind : Kind) (keys : List (LogKey × Nat)) : Answer :=
  let done := Message.keys range .done []
  if MAX_DEPTH < range.length ∨ CHUNK < keys.length then { session := session }
  else if kind = .done then { session := session, done := true }
  else if ¬ keys.all fun entry => range.isPrefixOf (nibbles entry.1) then { session := session }
  else
    let learn := keys.filter (lacks session.keys)
    match kind with
    | .ask =>
        if FEW < count session.keys range then
          { session := session, out := [session.ranges item range, done] }
        else
          { session := session
            out := [.keys range (if session.take then .mine else .lack)
              (within session.keys range), done] }
    | .lack => { session := session, learn := learn }
    | .done => { session := session }
    | .mine =>
        let session' := { session with expect := session.expect.remove range }
        match session.expect.get? range with
        | some expected =>
            if expected = partOf item keys then
              { session := session', learn := learn
                out := (slices (lacking keys)).map (.keys range .lack) ++ [done] }
            else { session := session', out := [done] }
        | none =>
            if FEW < keys.length then { session := session', out := [done] }
            else
              { session := session', learn := learn
                out := (slices (lacking keys)).map (.keys range .lack) ++ [done] }
where
  /-- The keys held here in the range that the peer lacks. -/
  lacking (keys : List (LogKey × Nat)) : List (LogKey × Nat) :=
    (within session.keys range).filter (lacks (Dict.ofList keys))

end Session

-- Two sides

/-- A side of a connection: what it was sent and didn't read yet, how many answers it waits for,
and what it was told of.
-/
structure Side where
  session : Session
  inbox : List Message := []
  waiting : Nat := 0
  told : List (LogKey × Nat) := []

inductive Act
  /-- A round is started, with none under way. -/
  | start
  /-- The next message is read. -/
  | receive
  /-- A log's length is set, or the log dropped. -/
  | set (key : LogKey) (length : Nat)
  | delete (key : LogKey)
  /-- It wants the other's keys from here on, or no more. -/
  | want (take : Bool)
  deriving DecidableEq

namespace Side

variable (item : LogKey → Nat → BitVec 256)

/-- A side sends messages to the other: those waiting for an answer count. -/
def send (me other : Side) (out : List Message) : Side × Side :=
  ({ me with waiting := me.waiting + (out.filter answered).length },
    { other with inbox := other.inbox ++ out })

def receive (me other : Side) : Option (Side × Side) :=
  match me.inbox with
  | [] => none
  | .ranges range theirs :: rest =>
      let (session, out) := me.session.onRanges item range theirs
      some (send { me with session := session, inbox := rest } other out)
  | .keys range kind keys :: rest =>
      let answer := me.session.onKeys item range kind keys
      let (me, other) := send
        { me with session := answer.session, inbox := rest, told := me.told ++ answer.learn } other
        answer.out
      some (if answer.done then { me with waiting := me.waiting - 1 } else me, other)

def act (me other : Side) : Act → Option (Side × Side)
  | .start => if me.waiting = 0 then some (send me other [me.session.start item]) else none
  | .receive => receive item me other
  | .set key length =>
      some ({ me with session := { me.session with keys := me.session.keys.put key length } }, other)
  | .delete key =>
      some ({ me with session := { me.session with keys := me.session.keys.remove key } }, other)
  | .want take => some ({ me with session := { me.session with take := take } }, other)

end Side

/-- The two sides of a connection. -/
structure Pair where
  a : Side
  b : Side

inductive Who
  | a
  | b
  deriving DecidableEq

def Pair.act (item : LogKey → Nat → BitVec 256) (s : Pair) (who : Who) (act : Act) : Option Pair :=
  match who with
  | .a => (s.a.act item s.b act).map fun (a, b) => ⟨a, b⟩
  | .b => (s.b.act item s.a act).map fun (b, a) => ⟨a, b⟩

/-- What comes of two sides in acts of an allowed kind. -/
inductive Pair.Run (item : LogKey → Nat → BitVec 256) (allowed : Act → Prop) (s : Pair) :
    Pair → Prop
  | refl : Pair.Run item allowed s s
  | act {s' s'' : Pair} {who : Who} {act : Act} : Pair.Run item allowed s s' → allowed act
      → s'.act item who act = some s'' → Pair.Run item allowed s s''

end Hypergraph.Ranges
