import Hypergraph.Lib.CompactEncoding

/-! Formats that give a value back in a normal form: what two values have in common when they
are written with the same bytes. The laws of a format put together from parts are put together
from theirs.
-/

namespace Wire

/-- A valid value is written with the bytes of its normal form, which the format carries. -/
def Codec.Restores {α : Type} (codec : Codec α) (valid : α → Prop) (norm : α → α) : Prop :=
  ∀ value, valid value → codec.Fits (norm value) ∧ codec.encode value = codec.encode (norm value)

/-- An empty buffer is read as `null`. -/
def nullable : Option Bytes → Option Bytes
  | some [] => none
  | buffer => buffer

namespace Codec.Restores

variable {α β : Type} {first : Codec α} {second : Codec β} {valid : α → Prop}
  {valid' : β → Prop} {norm : α → α} {norm' : β → β}

/-- A written value is read back in its normal form, with the bytes after it. -/
theorem decode_encode (restores : first.Restores valid norm) {value : α} (ok : valid value)
    (rest : Bytes)
    : first.decode (first.encode value ++ rest) = some (norm value, rest) := by
  obtain ⟨fits, same⟩ := restores value ok
  rw [same]
  exact first.decode_encode _ rest fits

theorem decode_whole (restores : first.Restores valid norm) {value : α} (ok : valid value)
    : first.decode (first.encode value) = some (norm value, []) := by
  simpa using restores.decode_encode ok []

theorem read_encode (restores : first.Restores valid norm) {value : α} (ok : valid value)
    : first.read (first.encode value) = some (norm value) := by
  simp [read, restores.decode_whole ok]

/-- The first of two formats is read back before any bytes of the second. -/
theorem pair_decode (restores : first.Restores valid norm) {value : α} (ok : valid value)
    (bytes : Bytes)
    : (first.pair second).decode (first.encode value ++ bytes)
      = (second.decode bytes).map (Prod.map (norm value, ·) id) := by
  simp only [Codec.pair, restores.decode_encode ok, Option.bind_eq_bind, Option.bind_some]
  cases second.decode bytes <;> rfl

theorem of (restores : first.Restores valid norm) {strict : α → Prop}
    (enough : ∀ value, strict value → valid value)
    : first.Restores strict norm :=
  fun value ok => restores value (enough value ok)

theorem pair (one : first.Restores valid norm) (two : second.Restores valid' norm')
    : (first.pair second).Restores (fun value => valid value.1 ∧ valid' value.2)
        (Prod.map norm norm') := by
  intro value ok
  obtain ⟨fits, same⟩ := one value.1 ok.1
  obtain ⟨fits', same'⟩ := two value.2 ok.2
  exact ⟨⟨fits, fits'⟩, congrArg₂ (· ++ ·) same same'⟩

theorem iso (one : first.Restores valid norm) (make : α → β) (out : β → α)
    (back : ∀ value, make (out value) = value) (forth : ∀ value, out (make value) = value)
    : (first.iso make out back).Restores (fun value => valid (out value))
        (fun value => make (norm (out value))) := by
  intro value ok
  obtain ⟨fits, same⟩ := one (out value) ok
  refine ⟨?_, ?_⟩
  · simpa only [Codec.iso, forth] using fits
  · simpa only [Codec.iso, forth] using same

/-- An optional value is valid where it is absent, or a valid value. -/
def Maybe (valid : α → Prop) (value : Option α) : Prop := ∀ found ∈ value, valid found

theorem optional {flag : Codec Bool} (flags : flag.Restores (fun _ => True) id)
    (one : first.Restores valid norm)
    : (Codec.optional flag first).Restores (Maybe valid) (Option.map norm) := by
  intro value ok
  cases value with
  | none => exact ⟨(flags false trivial).1, rfl⟩
  | some found =>
      obtain ⟨fits, same⟩ := one found (ok found rfl)
      exact ⟨⟨(flags true trivial).1, fits⟩, congrArg (flag.encode true ++ ·) same⟩

theorem trailing {flag : Codec Bool} {wide : ∀ present, flag.encode present ≠ []}
    (flags : flag.Restores (fun _ => True) id) (one : first.Restores valid norm)
    : (Codec.trailing flag wide first).Restores (Maybe valid) (Option.map norm) :=
  flags.optional one

/-- Bytes that end before an optional value was known are read as without it. -/
theorem trailing_ended {flag : Codec Bool} {wide : ∀ present, flag.encode present ≠ []}
    : (Codec.trailing flag wide first).decode [] = some (none, []) := by
  simp [Codec.trailing]

end Codec.Restores

-- The primitives

/-- The most items of an array. -/
def MAX_ITEMS : Nat := 0x100000

/-- What JavaScript's whole numbers hold exactly. -/
def Safe (number : Nat) : Prop := number < 2 ^ 53

def Text (text : String) : Prop := text.utf8ByteSize < 2 ^ 53

def Fixed32 (bytes : Bytes) : Prop := bytes.length = 32

def Buffered (buffer : Option Bytes) : Prop := (buffer.getD []).length < 2 ^ 53

/-- An array of valid items. -/
def Each {α : Type} (valid : α → Prop) (items : List α) : Prop :=
  items.length ≤ MAX_ITEMS ∧ ∀ item ∈ items, valid item

/-- What the package promises of its primitives but of buffers: each gives back what it is given;
32 bytes are written as they are, small numbers take one byte, others at least one.
-/
structure Regular (c : Primitives) : Prop where
  uint : c.uint.Restores Safe id
  string : c.string.Restores Text id
  fixed32 : c.fixed32.Restores Fixed32 id
  bool : c.bool.Restores (fun _ => True) id
  array : ∀ {α : Type} {item : Codec α} {valid : α → Prop} {norm : α → α},
    item.Restores valid norm → (c.array item).Restores (Each valid) (List.map norm)
  long : ∀ bytes, Fixed32 bytes → (c.fixed32.encode bytes).length = 32
  small : ∀ number ≤ 0xfc, (c.uint.encode number).length = 1
  wide : ∀ number, c.uint.encode number ≠ []

/-- And an empty buffer is given back as `null`. -/
structure Documented (c : Primitives) : Prop extends Regular c where
  buffer : c.buffer.Restores Buffered nullable

/-- A format of the buffers that reads empty ones as `null`: one is written as an absent one is. -/
theorem compactBuffer_restores : (compactBuffer none).Restores Buffered nullable := by
  intro buffer ok
  match buffer with
  | none => exact ⟨⟨fun _ => rfl, ok⟩, rfl⟩
  | some [] => exact ⟨⟨fun _ => rfl, by decide⟩, rfl⟩
  | some (byte :: bytes) =>
      refine ⟨⟨?_, ok⟩, rfl⟩
      simp [nullable]

/-- An array's bytes are its count's and its items', each as its normal form has them. -/
theorem compactArray_restores {α : Type} {item : Codec α} {valid : α → Prop} {norm : α → α}
    (restores : item.Restores valid norm)
    : (compactArray item).Restores (Each valid) (List.map norm) := by
  intro values ok
  refine ⟨⟨by simpa [MAX_ITEMS] using ok.1, ?_⟩, ?_⟩
  · intro value member
    obtain ⟨first, kept, rfl⟩ := List.mem_map.mp member
    exact (restores first (ok.2 first kept)).1
  · have same : values.flatMap item.encode = (values.map norm).flatMap item.encode := by
      rw [List.flatMap_map]
      exact List.flatMap_congr fun value member => (restores value (ok.2 value member)).2
    simp only [compactArray, List.length_map, same]

theorem compact_regular : Regular compact where
  uint _ ok := ⟨ok, rfl⟩
  string text ok := by
    refine ⟨?_, rfl⟩
    simpa [compact, compactString, Text] using ok
  fixed32 _ ok := ⟨ok, rfl⟩
  bool _ _ := ⟨trivial, rfl⟩
  array := compactArray_restores
  long _ fits := fits
  small number bound := by simp [compact, compactUint, bound]
  wide number := by
    simp only [compact, compactUint]
    split_ifs <;> simp

theorem compactNull_documented : Documented compactNull where
  toRegular := { compact_regular with }
  buffer := compactBuffer_restores

end Wire
