import Mathlib.Data.List.Basic
import Mathlib.Tactic.Ring

/-! Prefix codecs: byte formats whose decoder reads back what the encoder wrote and leaves
the bytes after it. The law travels inside the structure, so a format put together from
parts that hold it holds it as well.
-/

namespace Wire

abbrev Bytes := List UInt8

instance lawfulBytes : LawfulBEq Bytes := inferInstance

/-- A byte format for the values of `α`. `Fits` names the values the format can carry
(a key of the right length, a number in range); only these are promised to come back.
-/
structure Codec (α : Type) where
  encode : α → Bytes
  decode : Bytes → Option (α × Bytes)
  Fits : α → Prop
  decode_encode
    : ∀ value rest, Fits value → decode (encode value ++ rest) = some (value, rest)

namespace Codec

variable {α β : Type}

/-- A whole buffer read as one value: what is left after it is not looked at. -/
def read (codec : Codec α) (bytes : Bytes) : Option α :=
  (codec.decode bytes).map Prod.fst

theorem decode_encode_nil (codec : Codec α) {value : α} (fits : codec.Fits value)
    : codec.decode (codec.encode value) = some (value, []) := by
  simpa using codec.decode_encode value [] fits

theorem read_encode (codec : Codec α) {value : α} (fits : codec.Fits value)
    : codec.read (codec.encode value) = some value := by
  simp [read, codec.decode_encode_nil fits]

/-- Every value the format reads has a property. -/
def Yields (codec : Codec α) (has : α → Prop) : Prop :=
  ∀ bytes value rest, codec.decode bytes = some (value, rest) → has value

theorem Yields.of_read {codec : Codec α} {has : α → Prop} (yields : codec.Yields has) {bytes : Bytes}
    {value : α} (read : codec.read bytes = some value)
    : has value := by
  obtain ⟨⟨_, rest⟩, decoded, rfl⟩ := Option.map_eq_some_iff.mp read
  exact yields bytes _ rest decoded

theorem yields_true (codec : Codec α) : codec.Yields fun _ => True := fun _ _ _ _ => trivial

/-- Two formats one after the other. -/
def pair (first : Codec α) (second : Codec β) : Codec (α × β) where
  encode value := first.encode value.1 ++ second.encode value.2
  decode bytes := do
    let (a, rest) ← first.decode bytes
    let (b, rest) ← second.decode rest
    return ((a, b), rest)
  Fits value := first.Fits value.1 ∧ second.Fits value.2
  decode_encode value rest fits := by
    simp [List.append_assoc, first.decode_encode _ _ fits.1, second.decode_encode _ _ fits.2]

/-- Of two formats, each reads its own part. -/
theorem Yields.pair {first : Codec α} {second : Codec β} {has : α → Prop} {has' : β → Prop}
    (one : first.Yields has) (two : second.Yields has')
    : (first.pair second).Yields fun value => has value.1 ∧ has' value.2 := by
  intro bytes value rest decoded
  simp only [Codec.pair, Option.bind_eq_bind, Option.bind_eq_some_iff] at decoded
  obtain ⟨⟨a, middle⟩, first, ⟨b, _⟩, second, same⟩ := decoded
  cases same
  exact ⟨one _ _ _ first, two _ _ _ second⟩

/-- The same bytes read as another type: `out` takes a value apart, `make` puts it together. -/
def iso (codec : Codec α) (make : α → β) (out : β → α) (back : ∀ value, make (out value) = value)
    : Codec β where
  encode value := codec.encode (out value)
  decode bytes := (codec.decode bytes).map (fun (a, rest) => (make a, rest))
  Fits value := codec.Fits (out value)
  decode_encode value rest fits := by
    simp [codec.decode_encode _ _ fits, back]

theorem Yields.iso {codec : Codec α} {has : α → Prop} (yields : codec.Yields has) {make : α → β}
    {out : β → α} {back : ∀ value, make (out value) = value} {has' : β → Prop}
    (made : ∀ value, has value → has' (make value))
    : (codec.iso make out back).Yields has' := by
  intro bytes value rest decoded
  obtain ⟨⟨a, _⟩, read, same⟩ := Option.map_eq_some_iff.mp decoded
  cases same
  exact made a (yields _ _ _ read)

/-- A flag, then the value if the flag is set. -/
def optional (flag : Codec Bool) (codec : Codec α) : Codec (Option α) where
  encode
    | none => flag.encode false
    | some value => flag.encode true ++ codec.encode value
  decode bytes := do
    let (present, rest) ← flag.decode bytes
    if present then
      let (value, rest) ← codec.decode rest
      return (some value, rest)
    else
      return (none, rest)
  Fits
    | none => flag.Fits false
    | some value => flag.Fits true ∧ codec.Fits value
  decode_encode value rest fits := by
    cases value with
    | none => simp [flag.decode_encode _ _ fits]
    | some value =>
        simp [List.append_assoc, flag.decode_encode _ _ fits.1,
          codec.decode_encode _ _ fits.2]

/-- An optional value at the end of a format: bytes written before the field existed end
there and are read as if it were absent. The flag takes at least a byte, so a value that
was written is never taken for one that was not.
-/
def trailing (flag : Codec Bool) (wide : ∀ present, flag.encode present ≠ [])
    (codec : Codec α)
    : Codec (Option α) where
  encode := (optional flag codec).encode
  decode bytes := if bytes = [] then some (none, []) else (optional flag codec).decode bytes
  Fits := (optional flag codec).Fits
  decode_encode value rest fits := by
    have written : (optional flag codec).encode value ++ rest ≠ [] := by
      cases value <;> simp [optional, wide]
    rw [if_neg written]
    exact (optional flag codec).decode_encode value rest fits

end Codec

end Wire
