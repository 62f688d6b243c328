import Hypergraph.Lib.Splits
import Hypergraph.Lib.Utf16
import Hypergraph.Engine.EntityIds

/-! Entity ids in index keys (`src/index-layout/entity-id.js`), whatever units their strings are of:
an id is what its key members are of, and what is read of one is what it is written of.
-/

namespace Hypergraph.Engine

namespace KeyParts

open Js Splits Wire
open Layouts (maxSafeInteger isHex64_iff isHex64_toHex hexChars_of_isHex64 hexBytes_ne_nil)

/-- The unit of `/`. -/
def slash : UInt16 := 0x2f

/-- A safe integer's decimal digits, as a template literal has them. -/
def decimal : Int → List Char
  | .ofNat seq => Nat.toDigits 10 seq
  | .negSucc seq => '-' :: Nat.toDigits 10 (seq + 1)

def parseEntityId (id : Units) : Option (Units × Bytes × Int) := do
  let (rest, seqText) ← splitLast slash id
  let (type, hex) ← splitLast slash rest
  if ¬ isHex64 (String.ofList (Units.spelled hex))
      ∨ ¬ Digits.canonical (Units.spelled seqText) then none
  else
    -- digits of an unsafe number round to an unsafe one
    let seq := Nat.ofDigitChars 10 (Units.spelled seqText) 0
    if seq ≤ maxSafeInteger then some (type, hexBytes (Units.spelled hex), seq) else none

def formatEntityId (type : Units) (author : Bytes) (seq : Int) : Units :=
  type ++ slash :: Units.written (hexChars author) ++ slash :: Units.written (decimal seq)

def toKeyParts (id : Units) : Units × Bytes × Int := (parseEntityId id).getD (id, [], 0)

def fromKeyParts : Units × Bytes × Int → Units
  | (typeOrRaw, author, seq) =>
      if author ≠ [] then formatEntityId typeOrRaw author seq else typeOrRaw

-- The units of digits

theorem decimal_natCast (seq : Nat) : decimal seq = Nat.toDigits 10 seq := rfl

theorem ofUnit_slash : Units.ofUnit slash = '/' := by decide

theorem small_of_mem_hexChars {author : Bytes} {c : Char} (mem : c ∈ hexChars author)
    : c.toNat < 0x10000 := by
  rcases lower_of_mem_hexChars mem with ⟨_, high⟩ | ⟨_, high⟩
  · exact Nat.lt_of_le_of_lt high (by decide)
  · exact Nat.lt_of_le_of_lt high (by decide)

theorem isDigit_of_mem {seq : Nat} {c : Char} (mem : c ∈ Nat.toDigits 10 seq) : c.isDigit :=
  Nat.isDigit_of_mem_toDigits (by decide) (by decide) mem

theorem small_of_isDigit {c : Char} (digit : c.isDigit) : c.toNat < 0x10000 := by
  simp only [Char.isDigit, Bool.and_eq_true, decide_eq_true_eq] at digit
  exact Nat.lt_of_le_of_lt digit.2 (by decide)

theorem small_of_mem_decimal {seq : Int} {c : Char} (mem : c ∈ decimal seq)
    : c.toNat < 0x10000 := by
  cases seq with
  | ofNat seq => exact small_of_isDigit (isDigit_of_mem mem)
  | negSucc seq =>
      rcases List.mem_cons.mp mem with rfl | mem
      · decide
      · exact small_of_isDigit (isDigit_of_mem mem)

theorem slash_notMem_hex {author : Bytes} : slash ∉ Units.written (hexChars author) := by
  intro mem
  have held := Units.mem_of_mem_written (fun _ => small_of_mem_hexChars) mem
  rw [ofUnit_slash] at held
  rcases lower_of_mem_hexChars held with ⟨_, _⟩ | ⟨_, _⟩ <;> contradiction

theorem slash_notMem_decimal {seq : Int} : slash ∉ Units.written (decimal seq) := by
  intro mem
  have held := Units.mem_of_mem_written (fun _ => small_of_mem_decimal) mem
  rw [ofUnit_slash] at held
  cases seq with
  | ofNat seq => cases isDigit_of_mem held
  | negSucc seq =>
      rcases List.mem_cons.mp held with same | mem
      · cases same
      · cases isDigit_of_mem mem

/-- An id splits into the parts it is written of. -/
theorem splitLast_format {type : Units} {author : Bytes} {seq : Int}
    : splitLast slash (formatEntityId type author seq)
      = some (type ++ slash :: Units.written (hexChars author), Units.written (decimal seq)) :=
  splitLast_eq_some.mpr ⟨rfl, slash_notMem_decimal⟩

theorem splitLast_hex {type : Units} {author : Bytes}
    : splitLast slash (type ++ slash :: Units.written (hexChars author))
      = some (type, Units.written (hexChars author)) :=
  splitLast_eq_some.mpr ⟨rfl, slash_notMem_hex⟩

-- What is read of an id

/-- What an id is read as: its key and its number formed, its members those digits'. -/
theorem parseEntityId_format (type : Units) (author : Bytes) (seq : Int)
    : parseEntityId (formatEntityId type author seq)
      = if ¬ isHex64 (toHex author) ∨ ¬ Digits.canonical (decimal seq) then none
        else if Nat.ofDigitChars 10 (decimal seq) 0 ≤ maxSafeInteger
          then some (type, author, ((Nat.ofDigitChars 10 (decimal seq) 0 : Nat) : Int)) else none := by
  have key := Units.spelled_written fun c (mem : c ∈ hexChars author) => small_of_mem_hexChars mem
  have number := Units.spelled_written fun c (mem : c ∈ decimal seq) => small_of_mem_decimal mem
  rw [parseEntityId, splitLast_format]
  simp only [Option.bind_eq_bind, Option.bind_some, splitLast_hex, key, number, hexBytes_hexChars,
    toHex]
  rfl

/-- An id that is read is formatted of what is read. -/
theorem format_of_parse {id type : Units} {author : Bytes} {seq : Int}
    (is : parseEntityId id = some (type, author, seq))
    : author.length = 32 ∧ 0 ≤ seq ∧ seq ≤ maxSafeInteger
      ∧ id = formatEntityId type author seq := by
  simp only [parseEntityId, Option.bind_eq_bind, Option.bind_eq_some_iff, Prod.exists] at is
  obtain ⟨rest, seqText, outer, type', hex, inner, is⟩ := is
  split at is
  · cases is
  · rename_i formed
    rw [not_or, not_not, not_not] at formed
    obtain ⟨isHex, isSeq⟩ := formed
    split at is
    · rename_i safe
      obtain ⟨rfl, rfl, rfl⟩ := is
      have key := hexChars_of_isHex64 isHex
      have number := Digits.toDigits_ofDigitChars isSeq
      have length := (isHex64_iff.mp isHex).1
      rw [String.toList_ofList, ← key, length_hexChars] at length
      have keyUnits : Units.written (hexChars (hexBytes (Units.spelled hex))) = hex := by
        rw [key]
        refine Units.written_spelled fun c mem lone => ?_
        rw [← key, lone] at mem
        rcases lower_of_mem_hexChars mem with ⟨_, _⟩ | ⟨_, _⟩ <;> contradiction
      have numberUnits
          : Units.written (decimal (Nat.ofDigitChars 10 (Units.spelled seqText) 0 : Nat))
            = seqText := by
        rw [decimal_natCast, number]
        refine Units.written_spelled fun c mem lone => ?_
        rw [← number, lone] at mem
        cases isDigit_of_mem mem
      refine ⟨by omega, by omega, by exact_mod_cast safe, ?_⟩
      rw [formatEntityId, keyUnits, numberUnits, ← (splitLast_eq_some.mp inner).1]
      exact (splitLast_eq_some.mp outer).1
    · cases is

theorem parse_of_format {type : Units} {author : Bytes} {seq : Int} (length : author.length = 32)
    (natural : 0 ≤ seq) (safe : seq ≤ maxSafeInteger)
    : parseEntityId (formatEntityId type author seq) = some (type, author, seq) := by
  obtain ⟨seq, rfl⟩ := Int.eq_ofNat_of_zero_le natural
  have number : Nat.ofDigitChars 10 (decimal seq) 0 = seq := Nat.ofDigitChars_ten_toDigits
  have formed : ¬(¬ isHex64 (toHex author) ∨ ¬ Digits.canonical (decimal seq)) := by
    rw [not_or, not_not, not_not]
    exact ⟨isHex64_toHex length, Digits.canonical_toDigits seq⟩
  rw [parseEntityId_format, if_neg formed, number, if_pos (by exact_mod_cast safe)]

theorem fromKeyParts_toKeyParts (id : Units) : fromKeyParts (toKeyParts id) = id := by
  rw [toKeyParts]
  cases is : parseEntityId id with
  | none => rfl
  | some parts =>
      obtain ⟨type, author, seq⟩ := parts
      obtain ⟨length, -, -, same⟩ := format_of_parse is
      have held : author ≠ [] := by
        rintro rfl
        cases length
      rw [Option.getD_some, fromKeyParts, if_pos held, same]

/-- Members say which string they are of, and the strings that are read are those a natural safe
number, an author's key and a type are written as.
-/
theorem keyParts_exact
    : (∀ id, fromKeyParts (toKeyParts id) = id) ∧ Function.Injective toKeyParts
      ∧ ∀ id type author seq,
          parseEntityId id = some (type, author, seq)
          ↔ author.length = 32 ∧ 0 ≤ seq ∧ seq ≤ maxSafeInteger
            ∧ id = formatEntityId type author seq := by
  refine ⟨fromKeyParts_toKeyParts, ?_, fun id type author seq => ⟨format_of_parse, ?_⟩⟩
  · exact Function.LeftInverse.injective fromKeyParts_toKeyParts
  · rintro ⟨length, natural, safe, rfl⟩
    exact parse_of_format length natural safe

/-- A number below zero is written with a sign, which none of an id's numbers is read with. -/
theorem negative_refused
    : ¬ ∀ id : Units,
        (parseEntityId id).isSome
        ↔ ∃ type author, ∃ seq : Int, author.length = 32 ∧ seq.natAbs ≤ maxSafeInteger
          ∧ id = formatEntityId type author seq := by
  intro all
  have told := (all (formatEntityId [] (List.replicate 32 0) (-1))).mpr
    ⟨[], List.replicate 32 0, -1, by decide, by decide, rfl⟩
  have signed : ¬ Digits.canonical (decimal (-1)) := by decide
  rw [parseEntityId_format, if_pos (Or.inr signed)] at told
  cases told

-- Text

end KeyParts

end Hypergraph.Engine
