import Hypergraph.Records

/-! The space channel's messages (`lib/encodings.js`, and the activity's in `lib/activity.js`), and
all that is encoded: its formats by kind, and how an older version wrote it, without the fields at
the end it did not know.
-/

namespace Hypergraph.Encodings

open Wire

/-- What a log list is summed up by. -/
structure Summary where
  count : Nat
  digest : Key
  records : Nat
  deriving DecidableEq, Repr

structure RangePart where
  count : Nat
  digest : Key
  deriving DecidableEq, Repr

/-- A range of keys, by its first bits, and its sub-ranges. -/
structure RangesMessage where
  start : Buffer
  bits : Nat
  parts : List RangePart
  deriving DecidableEq, Repr

structure KeysMessage where
  start : Buffer
  bits : Nat
  kind : Nat
  keys : List Key
  lengths : List Nat
  deriving DecidableEq, Repr

/-- An activity entry: the first block of a log's period. -/
structure ActivityEntry where
  log : Key
  period : Nat
  start : Nat
  deriving DecidableEq, Repr

/-- Entries, and the lowest period from which they are complete (none: `Infinity`). -/
structure ActivityList where
  since : Option Nat
  entries : List ActivityEntry
  done : Bool
  deriving DecidableEq, Repr

/-- All that is encoded. -/
inductive Value
  | recordId (id : RecordId)
  | header (h : Header)
  | record (r : Record)
  | decision (d : Decision)
  | invite (inv : Invite)
  | redemption (r : Redemption)
  | summary (m : Summary)
  | ranges (m : RangesMessage)
  | keys (m : KeysMessage)
  | logKey (log : Key)
  | redeem (redemption : Buffer)
  | ask (decision : Buffer)
  | hello (proof : Buffer)
  | entry (e : ActivityEntry)
  | want (since : Nat)
  | list (m : ActivityList)
  deriving DecidableEq, Repr

/-- The format a buffer is read with. -/
inductive Kind
  | recordId | header | record | decision | invite | redemption
  | summary | ranges | keys | logKey | redeem | ask | hello | entry | want | list
  deriving DecidableEq, Repr

def Value.kind : Value → Kind
  | .recordId _ => .recordId
  | .header _ => .header
  | .record _ => .record
  | .decision _ => .decision
  | .invite _ => .invite
  | .redemption _ => .redemption
  | .summary _ => .summary
  | .ranges _ => .ranges
  | .keys _ => .keys
  | .logKey _ => .logKey
  | .redeem _ => .redeem
  | .ask _ => .ask
  | .hello _ => .hello
  | .entry _ => .entry
  | .want _ => .want
  | .list _ => .list

variable (c : Primitives)

-- The channel's formats

def summaryFields : Codec (Nat × Key) := c.uint.pair c.fixed32

def encodeSummary (m : Summary) : Bytes :=
  (summaryFields c).encode (m.count, m.digest) ++ c.uint.encode m.records

/-- `records` is 0 where no bytes are left. -/
def decodeSummary (bytes : Bytes) : Option Summary := do
  let ((count, digest), rest) ← (summaryFields c).decode bytes
  if rest = [] then
    return ⟨count, digest, 0⟩
  else
    let (records, _) ← c.uint.decode rest
    return ⟨count, digest, records⟩

def rangePart : Codec RangePart :=
  (c.uint.pair c.fixed32).iso (fun (count, digest) => ⟨count, digest⟩)
    (fun part => (part.count, part.digest)) (fun _ => rfl)

def ranges : Codec RangesMessage :=
  (c.buffer.pair (c.uint.pair (c.array (rangePart c)))).iso
    (fun (start, bits, parts) => ⟨start, bits, parts⟩)
    (fun m => (m.start, m.bits, m.parts)) (fun _ => rfl)

def keys : Codec KeysMessage :=
  (c.buffer.pair (c.uint.pair (c.uint.pair ((c.array c.fixed32).pair (c.array c.uint))))).iso
    (fun (start, bits, kind, keys, lengths) => ⟨start, bits, kind, keys, lengths⟩)
    (fun m => (m.start, m.bits, m.kind, m.keys, m.lengths)) (fun _ => rfl)

def entry : Codec ActivityEntry :=
  (c.fixed32.pair (c.uint.pair c.uint)).iso (fun (log, period, start) => ⟨log, period, start⟩)
    (fun e => (e.log, e.period, e.start)) (fun _ => rfl)

/-- A period after 0, which is `Infinity`. -/
def encodeSince : Option Nat → Nat
  | none => 0
  | some since => since + 1

def decodeSince : Nat → Option Nat
  | 0 => none
  | number + 1 => some number

def since : Codec (Option Nat) :=
  c.uint.iso decodeSince encodeSince (by rintro (_ | _) <;> rfl)

def list : Codec ActivityList :=
  ((since c).pair ((c.array (entry c)).pair c.bool)).iso
    (fun (since, entries, done) => ⟨since, entries, done⟩)
    (fun m => (m.since, m.entries, m.done)) (fun _ => rfl)

-- All that is encoded

/-- `c.encode` of a value (`encodeRecord` for a record, which may throw). -/
def Value.encode : Value → Option Bytes
  | .recordId id => some ((Encodings.recordId c).encode id)
  | .header h => some (encodeHeader c h)
  | .record r => encodeRecord c r
  | .decision d => some ((Encodings.decision c).encode d)
  | .invite inv => some ((Encodings.invite c).encode inv)
  | .redemption r => some ((Encodings.redemption c).encode r)
  | .summary m => some (encodeSummary c m)
  | .ranges m => some ((Encodings.ranges c).encode m)
  | .keys m => some ((Encodings.keys c).encode m)
  | .logKey log => some (c.fixed32.encode log)
  | .redeem buffer => some (c.buffer.encode buffer)
  | .ask buffer => some (c.buffer.encode buffer)
  | .hello proof => some (c.buffer.encode proof)
  | .entry e => some ((Encodings.entry c).encode e)
  | .want since => some (c.uint.encode since)
  | .list m => some ((Encodings.list c).encode m)

/-- `c.decode` of bytes (`decodeRecord` for a record). -/
def decode : Kind → Bytes → Option Value
  | .recordId, bytes => ((recordId c).read bytes).map .recordId
  | .header, bytes => (decodeHeader c bytes).map .header
  | .record, bytes => (decodeRecord c bytes).map .record
  | .decision, bytes => ((decision c).read bytes).map .decision
  | .invite, bytes => ((invite c).read bytes).map .invite
  | .redemption, bytes => ((redemption c).read bytes).map .redemption
  | .summary, bytes => (decodeSummary c bytes).map .summary
  | .ranges, bytes => ((ranges c).read bytes).map .ranges
  | .keys, bytes => ((keys c).read bytes).map .keys
  | .logKey, bytes => (c.fixed32.read bytes).map .logKey
  | .redeem, bytes => (c.buffer.read bytes).map .redeem
  | .ask, bytes => (c.buffer.read bytes).map .ask
  | .hello, bytes => (c.buffer.read bytes).map .hello
  | .entry, bytes => ((entry c).read bytes).map .entry
  | .want, bytes => (c.uint.read bytes).map .want
  | .list, bytes => ((list c).read bytes).map .list

-- Older versions

/-- How many of a decision's fields came after its first version, at its end. -/
def Body.added : Body → Nat
  | .moderate _ => 1
  | .settingsSet _ => 4
  | _ => 0

def Value.added : Value → Nat
  | .header _ => 1
  | .decision d => d.body.added
  | .summary _ => 1
  | _ => 0

/-- A decision's place and fields, of those added the first `known` alone. -/
def encodeBodyUpTo (known : Nat) : Body → Nat × Bytes
  | .moderate d =>
      (5, c.string.encode d.action ++ (c.buffer.encode d.target ++ (c.string.encode d.reason ++
        ((c.array (cutEntry c)).encode d.cut ++
          ([(optTrailingString c).encode d.drop].take known).flatten))))
  | .settingsSet d =>
      (11, (optString c).encode d.policy ++ ((optWriteLimit c).encode d.writeLimit ++
        ([(optTrailingStrings c).encode d.rules, (optTrailingString c).encode d.history,
          (optTrailingStrings c).encode d.helpers,
          (optTrailingBool c).encode d.pub].take known).flatten))
  | body => encodeBody c body

/-- What a version wrote that knew the first `known` of the fields added. -/
def Value.encodeUpTo (known : Nat) : Value → Option Bytes
  | .header h =>
      some ((headerFields c).encode h.fields ++
        ([admittedBytes c h.admitted].take known).flatten)
  | .decision d =>
      some (c.uint.encode (encodeBodyUpTo c known d.body).1 ++
        (c.uint.encode d.stamp ++ (encodeBodyUpTo c known d.body).2))
  | .summary m =>
      some ((summaryFields c).encode (m.count, m.digest) ++
        ([c.uint.encode m.records].take known).flatten)
  | value => value.encode c

/-- A decision with the fields added past the first `known` absent. -/
def Body.upTo (known : Nat) : Body → Body
  | .moderate d => .moderate { d with drop := if 1 ≤ known then d.drop else none }
  | .settingsSet d =>
      .settingsSet { d with
        rules := if 1 ≤ known then d.rules else none
        history := if 2 ≤ known then d.history else none
        helpers := if 3 ≤ known then d.helpers else none
        pub := if 4 ≤ known then d.pub else none }
  | body => body

/-- A value with the fields added past the first `known` `null`, or 0 for a summary's records. -/
def Value.upTo (known : Nat) : Value → Value
  | .header h => .header { h with admitted := if 1 ≤ known then h.admitted else none }
  | .decision d => .decision { d with body := d.body.upTo known }
  | .summary m => .summary { m with records := if 1 ≤ known then m.records else 0 }
  | value => value

end Hypergraph.Encodings
