import Hypergraph.Lib.Codec

/-! The primitives of the `compact-encoding` package. The package itself is a parameter
(`Primitives`); `compact` is its documented format, for evaluating concrete inputs, and
`compactNull` the same with empty buffers read as `null`.
-/

namespace Wire

/-- The primitive formats a program builds its own from. An absent buffer is `null` (`none`). -/
structure Primitives where
  uint : Codec Nat
  string : Codec String
  buffer : Codec (Option Bytes)
  fixed32 : Codec Bytes
  bool : Codec Bool
  array : {α : Type} → Codec α → Codec (List α)
  bool_wide : ∀ present, bool.encode present ≠ []

-- Fixed-width little-endian numbers

def littleEndian : Nat → Nat → Bytes
  | 0, _ => []
  | width + 1, value => UInt8.ofNat (value % 256) :: littleEndian width (value / 256)

def readLittleEndian : Nat → Bytes → Option (Nat × Bytes)
  | 0, bytes => some (0, bytes)
  | _ + 1, [] => none
  | width + 1, byte :: bytes => do
      let (high, rest) ← readLittleEndian width bytes
      return (byte.toNat + 256 * high, rest)

/-- A number below `256 ^ width` is read back from its bytes; induction on the width. -/
theorem readLittleEndian_littleEndian (width value : Nat) (rest : Bytes)
    (bound : value < 256 ^ width)
    : readLittleEndian width (littleEndian width value ++ rest) = some (value, rest) := by
  induction width generalizing value with
  | zero =>
      have zero : value = 0 := by simpa using bound
      simp [littleEndian, readLittleEndian, zero]
  | succ width ih =>
      have high : value / 256 < 256 ^ width := by
        rw [Nat.pow_succ] at bound
        exact Nat.div_lt_of_lt_mul (by omega)
      have low : (UInt8.ofNat (value % 256)).toNat = value % 256 := by
        simp
      simp only [littleEndian, readLittleEndian, List.cons_append, ih _ high, low]
      have whole : value % 256 + 256 * (value / 256) = value := Nat.mod_add_div value 256
      simp [whole]

/-- A given number of bytes, and what follows them. -/
def readBytes (count : Nat) (bytes : Bytes) : Option (Bytes × Bytes) :=
  if count ≤ bytes.length then some (bytes.take count, bytes.drop count) else none

theorem readBytes_append (bytes rest : Bytes)
    : readBytes bytes.length (bytes ++ rest) = some (bytes, rest) := by
  simp [readBytes]

-- The documented format

/-- Whole numbers: one byte up to `0xfc`, else a marker and 2, 4 or 8 bytes. Numbers past
`2 ^ 53 - 1` are not exact in JavaScript, so they are not promised back.
-/
def compactUint : Codec Nat where
  encode value :=
    if value ≤ 0xfc then [UInt8.ofNat value]
    else if value ≤ 0xffff then 0xfd :: littleEndian 2 value
    else if value ≤ 0xffffffff then 0xfe :: littleEndian 4 value
    else 0xff :: littleEndian 8 value
  decode
    | [] => none
    | marker :: bytes =>
        if marker.toNat ≤ 0xfc then some (marker.toNat, bytes)
        else if marker = 0xfd then readLittleEndian 2 bytes
        else if marker = 0xfe then readLittleEndian 4 bytes
        else readLittleEndian 8 bytes
  Fits value := value < 2 ^ 53
  decode_encode value rest fits := by
    split_ifs with one two four
    · have small : (UInt8.ofNat value).toNat = value := by
        rw [UInt8.toNat_ofNat']
        omega
      simp [small, one]
    · simpa using readLittleEndian_littleEndian 2 value rest (by omega)
    · simpa using readLittleEndian_littleEndian 4 value rest (by omega)
    · simpa using readLittleEndian_littleEndian 8 value rest (by omega)

/-- The integers of the package's `int`; it throws on any other. -/
def IntRange (v : Int) : Prop := -2 ^ 52 ≤ v ∧ v < 2 ^ 52

instance (v : Int) : Decidable (IntRange v) := inferInstanceAs (Decidable (_ ∧ _))

/-- A whole number, odd for what is below 0. -/
def compactInt : Codec Int where
  encode v := compactUint.encode (if v < 0 then 2 * v.natAbs - 1 else 2 * v.natAbs)
  decode bytes := (compactUint.decode bytes).map fun (number, rest) =>
    (if number % 2 = 0 then ((number / 2 : Nat) : Int) else -(((number + 1) / 2 : Nat) : Int), rest)
  Fits := IntRange
  decode_encode v rest fits := by
    unfold IntRange at fits
    rw [compactUint.decode_encode]
    · simp only [Option.map_some, Option.some.injEq, Prod.mk.injEq, and_true]
      split_ifs <;> omega
    · simp only [compactUint]
      split_ifs <;> omega

def compactBool : Codec Bool where
  encode value := [if value then 1 else 0]
  decode
    | [] => none
    | byte :: bytes => some (byte == 1, bytes)
  Fits _ := True
  decode_encode value rest _ := by
    cases value <;> simp

def compactFixed32 : Codec Bytes where
  encode value := value
  decode bytes := readBytes 32 bytes
  Fits value := value.length = 32
  decode_encode value rest fits := fits ▸ readBytes_append value rest

/-- The eight bytes of a number. -/
def compactFloat64 : Codec UInt64 where
  encode value := littleEndian 8 value.toNat
  decode bytes := (readLittleEndian 8 bytes).map fun (value, rest) => (UInt64.ofNat value, rest)
  Fits _ := True
  decode_encode value rest _ := by
    have bound := value.toNat_lt
    simp [readLittleEndian_littleEndian 8 value.toNat rest (by omega)]

/-- A length, then the bytes; an absent buffer is written as an empty one, and what an empty one
is read as depends on the package.
-/
def compactBuffer (empty : Option Bytes) : Codec (Option Bytes) where
  encode value := compactUint.encode (value.getD []).length ++ value.getD []
  decode bytes := do
    let (length, rest) ← compactUint.decode bytes
    let (value, rest) ← readBytes length rest
    return (if value = [] then empty else some value, rest)
  Fits value := (value.getD [] = [] → value = empty) ∧ (value.getD []).length < 2 ^ 53
  decode_encode value rest fits := by
    have length := compactUint.decode_encode (value.getD []).length (value.getD [] ++ rest)
      fits.2
    rw [List.append_assoc, length]
    simp only [Option.bind_eq_bind, Option.bind_some, readBytes_append]
    by_cases blank : value.getD [] = []
    · simp only [blank, if_true]
      rw [← fits.1 blank]
      rfl
    · cases value with
      | none => exact absurd rfl blank
      | some bytes =>
          simp only [Option.getD_some] at blank
          simp [blank]

/-- A length in bytes, then the text in UTF-8. -/
def compactString : Codec String where
  encode value :=
    compactUint.encode value.toUTF8.data.toList.length ++ value.toUTF8.data.toList
  decode bytes := do
    let (length, rest) ← compactUint.decode bytes
    let (text, rest) ← readBytes length rest
    let value ← String.fromUTF8? ⟨text.toArray⟩
    return (value, rest)
  Fits value := value.toUTF8.data.toList.length < 2 ^ 53
  decode_encode value rest fits := by
    have length := compactUint.decode_encode value.toUTF8.data.toList.length
      (value.toUTF8.data.toList ++ rest) fits
    have same : (⟨value.toUTF8.data.toList.toArray⟩ : ByteArray) = value.toByteArray := by
      simp
    rw [List.append_assoc, length]
    simp only [Option.bind_eq_bind, Option.bind_some, readBytes_append, same]
    simp [String.fromUTF8?, String.fromUTF8, value.isValidUTF8]

def readItems {α : Type} (item : Codec α) : Nat → Bytes → Option (List α × Bytes)
  | 0, bytes => some ([], bytes)
  | count + 1, bytes => do
      let (first, rest) ← item.decode bytes
      let (others, rest) ← readItems item count rest
      return (first :: others, rest)

theorem readItems_encode {α : Type} (item : Codec α) (values : List α) (rest : Bytes)
    (fits : ∀ value ∈ values, item.Fits value)
    : readItems item values.length (values.flatMap item.encode ++ rest)
      = some (values, rest) := by
  induction values with
  | nil => simp [readItems]
  | cons first others ih =>
      have later := ih (fun value member => fits value (List.mem_cons_of_mem _ member))
      simp [readItems, List.append_assoc, item.decode_encode _ _ (fits first (by simp)),
        later]

/-- A count, at most `0x100000`, then the items. -/
def compactArray {α : Type} (item : Codec α) : Codec (List α) where
  encode values := compactUint.encode values.length ++ values.flatMap item.encode
  decode bytes := do
    let (count, rest) ← compactUint.decode bytes
    if count ≤ 0x100000 then readItems item count rest else none
  Fits values := values.length ≤ 0x100000 ∧ ∀ value ∈ values, item.Fits value
  decode_encode values rest fits := by
    have count := compactUint.decode_encode values.length
      (values.flatMap item.encode ++ rest) (by have := fits.1; simp only [compactUint]; omega)
    rw [List.append_assoc, count]
    simp [fits.1, readItems_encode item values rest fits.2]

/-- The package as pinned (3.5.2): an empty buffer is read as an empty buffer. -/
def compact : Primitives where
  uint := compactUint
  string := compactString
  buffer := compactBuffer (some [])
  fixed32 := compactFixed32
  bool := compactBool
  array := compactArray
  bool_wide present := by simp [compactBool]

/-- The package as `lib/ranges.js` notes it: an empty buffer is read as `null`. -/
def compactNull : Primitives := { compact with buffer := compactBuffer none }

end Wire
