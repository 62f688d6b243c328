import Hypergraph.Lib.Codec

/-! The z-base-32 text of bytes: their bits five at a time, the last ones filled up with zeros. Read
back, the bits make bytes again eight at a time, and those filled in are too few for one.
-/

namespace Base32

open Wire

def ALPHABET : List Char := "ybndrfg8ejkmcpqxot1uwisza345h769".toList

/-- A number's bits, as many as given, the highest first. -/
def toBits (width number : Nat) : List Bool := (List.range width).map fun i => number.testBit (width - 1 - i)

def ofBits (bits : List Bool) : Nat := bits.foldl (fun number bit => 2 * number + bit.toNat) 0

/-- Bits in groups of five, the last one filled up. -/
def fives : List Bool → List (List Bool)
  | a :: b :: c :: d :: e :: rest => [a, b, c, d, e] :: fives rest
  | [] => []
  | rest => [rest ++ List.replicate (5 - rest.length) false]

/-- The bytes that bits make, those left at the end dropped. -/
def octets : List Bool → Bytes
  | a :: b :: c :: d :: e :: f :: g :: h :: rest => UInt8.ofNat (ofBits [a, b, c, d, e, f, g, h]) :: octets rest
  | _ => []

def bitsOf (bytes : Bytes) : List Bool := bytes.flatMap fun byte => toBits 8 byte.toNat

def encode (bytes : Bytes) : String :=
  String.ofList ((fives (bitsOf bytes)).map fun bits => ALPHABET.getD (ofBits bits) 'y')

/-- Nothing for a text with other characters. -/
def decode (text : String) : Option Bytes := do
  let numbers ← text.toList.mapM fun char => ALPHABET.idxOf? char
  return octets (numbers.flatMap (toBits 5))

variable {bits more : List Bool}

theorem toBits_ofBits : ∀ a b c d e : Bool, toBits 5 (ofBits [a, b, c, d, e]) = [a, b, c, d, e] := by
  decide

theorem idxOf_alphabet : ∀ a b c d e : Bool,
    ALPHABET.idxOf? (ALPHABET.getD (ofBits [a, b, c, d, e]) 'y') = some (ofBits [a, b, c, d, e]) := by
  decide

theorem octets_append (byte : UInt8) : octets (toBits 8 byte.toNat ++ more) = byte :: octets more := by
  have all : ∀ n : Fin 256, UInt8.ofNat (ofBits (toBits 8 n)) = UInt8.ofNat n := by
    decide +kernel
  have same := all ⟨byte.toNat, byte.toNat_lt⟩
  rw [UInt8.ofNat_toNat] at same
  exact congrArg (· :: octets more) same

theorem octets_bitsOf (bytes : Bytes) (few : more.length < 8) : octets (bitsOf bytes ++ more) = bytes := by
  induction bytes with
  | nil =>
      match more, few with
      | [], _ => rfl
      | [_], _ => rfl
      | [_, _], _ => rfl
      | [_, _, _], _ => rfl
      | [_, _, _, _], _ => rfl
      | [_, _, _, _, _], _ => rfl
      | [_, _, _, _, _, _], _ => rfl
      | [_, _, _, _, _, _, _], _ => rfl
  | cons byte bytes ih =>
      rw [bitsOf, List.flatMap_cons, List.append_assoc, octets_append]
      exact congrArg (byte :: ·) ih

/-- The characters of groups of five are read back as the bits, with what fills up the last group. -/
theorem mapM_fives (bits : List Bool)
    : ∃ numbers filled, filled < 5
      ∧ ((fives bits).map fun five => ALPHABET.getD (ofBits five) 'y').mapM (fun char => ALPHABET.idxOf? char)
        = some numbers
      ∧ numbers.flatMap (toBits 5) = bits ++ List.replicate filled false := by
  fun_induction fives bits with
  | case1 a b c d e rest ih =>
      obtain ⟨numbers, filled, few, read, same⟩ := ih
      refine ⟨ofBits [a, b, c, d, e] :: numbers, filled, few, ?_, ?_⟩
      · rw [List.map_cons, List.mapM_cons, idxOf_alphabet, read]
        rfl
      · rw [List.flatMap_cons, toBits_ofBits, same]
        rfl
  | case2 => exact ⟨[], 0, by decide, rfl, rfl⟩
  | case3 rest long some_ =>
      -- one to four bits, filled up to five
      have last (a b c d e : Bool)
          : ([[a, b, c, d, e]].map fun five => ALPHABET.getD (ofBits five) 'y').mapM (fun char => ALPHABET.idxOf? char)
            = some [ofBits [a, b, c, d, e]] := by
        rw [List.map_cons, List.mapM_cons, idxOf_alphabet]
        rfl
      match rest, long, some_ with
      | [], _, some_ => exact absurd rfl some_
      | [a], _, _ => exact ⟨_, 4, by decide, last a false false false false, by simp [toBits_ofBits]⟩
      | [a, b], _, _ => exact ⟨_, 3, by decide, last a b false false false, by simp [toBits_ofBits]⟩
      | [a, b, c], _, _ => exact ⟨_, 2, by decide, last a b c false false, by simp [toBits_ofBits]⟩
      | [a, b, c, d], _, _ => exact ⟨_, 1, by decide, last a b c d false, by simp [toBits_ofBits]⟩
      | a :: b :: c :: d :: e :: rest, long, _ => exact (long a b c d e rest rfl).elim

theorem decode_encode (bytes : Bytes) : decode (encode bytes) = some bytes := by
  obtain ⟨numbers, filled, few, read, same⟩ := mapM_fives (bitsOf bytes)
  unfold decode encode
  rw [String.toList_ofList, read]
  have back : octets (numbers.flatMap (toBits 5)) = bytes := by
    rw [same]
    exact octets_bitsOf bytes (by rw [List.length_replicate]; omega)
  exact congrArg some back

end Base32
