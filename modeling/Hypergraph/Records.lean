import Hypergraph.Lib.Normal
import Hypergraph.Encodings

/-! A device log's blocks (`header` and `record` in `lib/encodings.js`): the header in block 0, then
records. What follows the header's proof, and a record's links, is read to the buffer's end.
-/

namespace Hypergraph.Encodings

open Wire

/-- The most bytes of a record. -/
def MAX_RECORD : Nat := 64 * 1024

/-- A log's header. `admitted`: the code of the decision that let its author back in. -/
structure Header where
  version : Nat
  space : Key
  decisions : Key
  proof : Buffer
  admitted : Option Key
  deriving DecidableEq, Repr

inductive RecordKind
  | put | edit | delete
  deriving DecidableEq, Repr

structure Record where
  kind : RecordKind
  type : String
  stamp : Nat
  target : Buffer
  /-- Its fields and links are sealed: a private space's. -/
  sealed : Bool
  links : List Buffer
  fields : Bytes
  deriving DecidableEq, Repr

variable (c : Primitives)

-- The header

/-- The fields every version of the header has. -/
def headerFields : Codec (Nat × Key × Key × Buffer) :=
  c.uint.pair (c.fixed32.pair (c.fixed32.pair c.buffer))

def Header.fields (h : Header) : Nat × Key × Key × Buffer :=
  (h.version, h.space, h.decisions, h.proof)

/-- `admitted` is written where it is there, with no flag. -/
def admittedBytes : Option Key → Bytes
  | none => []
  | some code => c.fixed32.encode code

def encodeHeader (h : Header) : Bytes :=
  (headerFields c).encode h.fields ++ admittedBytes c h.admitted

/-- `admitted` is there where bytes are left (`state.start < state.end`). -/
def decodeHeader (bytes : Bytes) : Option Header := do
  let ((version, space, decisions, proof), rest) ← (headerFields c).decode bytes
  if rest = [] then
    return ⟨version, space, decisions, proof, none⟩
  else
    let (admitted, _) ← c.fixed32.decode rest
    return ⟨version, space, decisions, proof, some admitted⟩

-- Records

/-- The numbers of the kinds: `PUT`, `EDIT` and `DELETE`. -/
def RecordKind.number : RecordKind → Nat
  | .put => 0
  | .edit => 1
  | .delete => 2

def kindOf : Nat → Option RecordKind
  | 0 => some .put
  | 1 => some .edit
  | 2 => some .delete
  | _ => none

/-- 1: it has a target; 2: it is sealed. -/
def Record.flags (r : Record) : Nat :=
  (if r.target.isSome then 1 else 0) ||| (if r.sealed then 2 else 0)

def targetBytes (target : Buffer) : Bytes :=
  if target.isSome then c.buffer.encode target else []

/-- The bytes of a record, with the flags given. -/
def recordBytes (flags : Nat) (r : Record) : Bytes :=
  c.uint.encode r.kind.number ++ (c.string.encode r.type ++ (c.uint.encode r.stamp ++
    (c.uint.encode flags ++ (targetBytes c r.target ++
      ((c.array c.buffer).encode r.links ++ r.fields)))))

/-- `c.encode` of a record: the buffer is as long as `preencode` says, which counts its flags as 0,
and is filled by `encode`. Any other length is no record.
-/
def writeRecord (r : Record) : Option Bytes :=
  if (recordBytes c 0 r).length = (recordBytes c r.flags r).length then
    some (recordBytes c r.flags r)
  else none

/-- The target, where the flags say there is one. -/
def readTarget (flags : Nat) (bytes : Bytes) : Option (Buffer × Bytes) :=
  if flags &&& 1 ≠ 0 then c.buffer.decode bytes else some (none, bytes)

/-- `c.decode` of a record. -/
def readRecord (bytes : Bytes) : Option Record := do
  let (number, rest) ← c.uint.decode bytes
  let kind ← kindOf number
  let (type, rest) ← c.string.decode rest
  let (stamp, rest) ← c.uint.decode rest
  let (flags, rest) ← c.uint.decode rest
  let (target, rest) ← readTarget c flags rest
  let (links, fields) ← (c.array c.buffer).decode rest
  return ⟨kind, type, stamp, target, decide (flags &&& 2 ≠ 0), links, fields⟩

def encodeRecord (r : Record) : Option Bytes := do
  let bytes ← writeRecord c r
  if bytes.length ≤ MAX_RECORD then some bytes else none

/-- A record read from a block: not too long, and its target and links are record ids. -/
def decodeRecord (bytes : Bytes) : Option Record := do
  if bytes.length ≤ MAX_RECORD then
    let r ← readRecord c bytes
    if r.target.isSome ∧ (readBuffer (recordId c) r.target).isNone then none
    else if r.links.any fun link => (readBuffer (recordId c) link).isNone then none
    else some r
  else none

-- Reading back

/-- A header whose fields the primitives carry. -/
structure Header.Valid (h : Header) : Prop where
  version : Safe h.version
  space : Fixed32 h.space
  decisions : Fixed32 h.decisions
  proof : Buffered h.proof
  admitted : ∀ code ∈ h.admitted, Fixed32 code

/-- A record id as bytes (`idBytes`). -/
def IsId (buffer : Buffer) : Prop :=
  Buffered buffer ∧ buffer ≠ some [] ∧ (readBuffer (recordId c) buffer).isSome

/-- A record the program writes: its fields are within what the primitives carry, its target is an
id or none, its links are ids, and it takes at most 64 KB.
-/
structure Record.Valid (r : Record) : Prop where
  type : Text r.type
  stamp : Safe r.stamp
  buffered : Buffered r.target
  target : nullable r.target = none ∨ IsId c r.target
  links : r.links.length ≤ MAX_ITEMS
  ids : ∀ link ∈ r.links, IsId c link
  short : (recordBytes c r.flags r).length ≤ MAX_RECORD

/-- Empty buffers as `null`. -/
def Header.norm (h : Header) : Header := { h with proof := nullable h.proof }

def Record.norm (r : Record) : Record := { r with target := nullable r.target }

theorem kindOf_number (kind : RecordKind) : kindOf kind.number = some kind := by
  cases kind <;> rfl

theorem flags_small (r : Record) : r.flags ≤ 3 := by
  unfold Record.flags
  cases r.target <;> cases r.sealed <;> simp

theorem flags_target (r : Record) : r.flags &&& 1 ≠ 0 ↔ r.target.isSome := by
  unfold Record.flags
  cases r.target <;> cases r.sealed <;> simp

theorem flags_sealed (r : Record) : decide (r.flags &&& 2 ≠ 0) = r.sealed := by
  unfold Record.flags
  cases r.target <;> cases r.sealed <;> simp

theorem IsId.nullable_eq {c : Primitives} {buffer : Buffer} (id : IsId c buffer) : nullable buffer = buffer := by
  match buffer, id with
  | none, _ => rfl
  | some [], id => exact absurd rfl id.2.1
  | some (byte :: bytes), _ => rfl

section Back

variable {c} (documented : Documented c)

include documented

theorem headerFields_restores
    : (headerFields c).Restores
        (fun h => Safe h.1 ∧ Fixed32 h.2.1 ∧ Fixed32 h.2.2.1 ∧ Buffered h.2.2.2)
        (Prod.map id (Prod.map id (Prod.map id nullable))) :=
  documented.uint.pair (documented.fixed32.pair (documented.fixed32.pair documented.buffer))

theorem fixed32_filled {bytes : Bytes} (fits : Fixed32 bytes) : c.fixed32.encode bytes ≠ [] := by
  intro empty
  have long := documented.long bytes fits
  simp [empty] at long

theorem decodeHeader_encodeHeader {h : Header} (valid : h.Valid)
    : decodeHeader c (encodeHeader c h) = some h.norm := by
  have fields : ∀ rest, (headerFields c).decode ((headerFields c).encode h.fields ++ rest)
      = some ((h.version, h.space, h.decisions, nullable h.proof), rest) :=
    (headerFields_restores documented).decode_encode
      ⟨valid.version, valid.space, valid.decisions, valid.proof⟩
  cases admitted : h.admitted with
  | none =>
      simp only [decodeHeader, encodeHeader, admittedBytes, admitted, fields, Header.norm]
      rfl
  | some code =>
      have fits := valid.admitted code admitted
      have back := documented.fixed32.decode_whole fits
      have filled := fixed32_filled documented fits
      simp [decodeHeader, encodeHeader, admittedBytes, admitted, fields, Header.norm, back, filled]

/-- The flags take one byte whatever they are, so `preencode` counts what `encode` writes. -/
theorem writeRecord_eq (r : Record) : writeRecord c r = some (recordBytes c r.flags r) := by
  have zero := documented.small 0 (by decide)
  have flags := documented.small r.flags (by have := flags_small r; omega)
  apply if_pos
  simp only [recordBytes, List.length_append, zero, flags]

theorem readTarget_targetBytes {r : Record} (buffered : Buffered r.target) (rest : Bytes)
    : readTarget c r.flags (targetBytes c r.target ++ rest)
      = some (nullable r.target, rest) := by
  simp only [readTarget, targetBytes, flags_target]
  cases target : r.target with
  | none => rfl
  | some bytes =>
      rw [target] at buffered
      exact documented.buffer.decode_encode buffered rest

theorem readRecord_recordBytes {r : Record} (valid : r.Valid c)
    : readRecord c (recordBytes c r.flags r) = some r.norm := by
  have safe : ∀ number ≤ 3, Safe number := by
    intro number small
    unfold Safe
    omega
  have number := documented.uint.decode_encode
    (safe r.kind.number (by cases r.kind <;> decide))
  have type := documented.string.decode_encode valid.type
  have stamp := documented.uint.decode_encode valid.stamp
  have flags := documented.uint.decode_encode (safe r.flags (flags_small r))
  have target := readTarget_targetBytes documented valid.buffered
  have each : Each Buffered r.links :=
    ⟨valid.links, fun link member => (valid.ids link member).1⟩
  have links := (documented.array documented.buffer).decode_encode each r.fields
  have same : r.links.map nullable = r.links :=
    List.map_congr_left (fun link member => (valid.ids link member).nullable_eq)
      |>.trans (List.map_id _)
  simp only [readRecord, recordBytes, number, type, stamp, flags, kindOf_number, target, links,
    same, flags_sealed, Option.bind_eq_bind, Option.bind_some, id_eq]
  rfl

/-- A record the program encodes is read back, its target `null` where it was empty. -/
theorem decodeRecord_encodeRecord {r : Record} (valid : r.Valid c)
    : ∃ bytes, encodeRecord c r = some bytes ∧ decodeRecord c bytes = some r.norm := by
  refine ⟨recordBytes c r.flags r, ?_, ?_⟩
  · simp [encodeRecord, writeRecord_eq documented, valid.short]
  · have target : ¬(r.norm.target.isSome ∧ (readBuffer (recordId c) r.norm.target).isNone) := by
      rintro ⟨some_, none_⟩
      rcases valid.target with empty | id
      · simp [Record.norm, empty] at some_
      · simp [Record.norm, id.nullable_eq, ← Option.not_isSome, id.2.2] at none_
    have links : ¬(r.norm.links.any fun link => (readBuffer (recordId c) link).isNone) := by
      intro bad
      obtain ⟨link, member, none_⟩ := List.any_eq_true.mp bad
      simp [← Option.not_isSome, (valid.ids link member).2.2] at none_
    simp only [decodeRecord, valid.short, readRecord_recordBytes documented valid, if_true,
      Option.bind_eq_bind, Option.bind_some, if_neg target, if_neg links]

end Back

end Hypergraph.Encodings
