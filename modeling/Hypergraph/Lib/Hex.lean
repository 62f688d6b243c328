import Hypergraph.Lib.Codec

/-! Bytes as hex texts, character by character: written in lower case, read in either. -/

namespace Wire

/-- The bytes in hex. -/
def hexChars (bytes : Bytes) : List Char :=
  bytes.flatMap fun byte => [Nat.digitChar (byte.toNat / 16), Nat.digitChar (byte.toNat % 16)]

def hexValue (c : Char) : Option Nat :=
  if '0' ≤ c ∧ c ≤ '9' then some (c.toNat - '0'.toNat)
  else if 'a' ≤ c ∧ c ≤ 'f' then some (c.toNat - 'a'.toNat + 10)
  else if 'A' ≤ c ∧ c ≤ 'F' then some (c.toNat - 'A'.toNat + 10)
  else none

/-- The bytes of a hex text, up to the first two characters that are none. -/
def hexBytes : List Char → Bytes
  | first :: second :: rest =>
      match hexValue first, hexValue second with
      | some high, some low => UInt8.ofNat (high * 16 + low) :: hexBytes rest
      | _, _ => []
  | _ => []

theorem hexValue_digitChar {n : Nat} (small : n < 16) : hexValue (Nat.digitChar n) = some n := by
  have all : ∀ n : Fin 16, hexValue (Nat.digitChar n) = some n.1 := by decide
  exact all ⟨n, small⟩

theorem hexBytes_hexChars (bytes : Bytes) : hexBytes (hexChars bytes) = bytes := by
  induction bytes with
  | nil => rfl
  | cons byte rest ih =>
      have bound := byte.toNat_lt
      have whole : UInt8.ofNat (byte.toNat / 16 * 16 + byte.toNat % 16) = byte := by
        rw [Nat.div_add_mod']
        exact UInt8.ofNat_toNat
      rw [hexChars] at ih ⊢
      simp only [List.flatMap_cons, List.cons_append, List.nil_append, hexBytes]
      rw [hexValue_digitChar (by omega), hexValue_digitChar (Nat.mod_lt _ (by omega))]
      simp only [whole, ih]

theorem hexValue_lower {c : Char} (lower : ('0' ≤ c ∧ c ≤ '9') ∨ ('a' ≤ c ∧ c ≤ 'f'))
    : ∃ value < 16, hexValue c = some value ∧ Nat.digitChar value = c := by
  have all : ∀ n : Fin 16, Nat.digitChar n.1
      = Char.ofNat (if n.1 < 10 then n.1 + 48 else n.1 + 87) := by decide
  rcases lower with ⟨low, high⟩ | ⟨low, high⟩
  · have low' : 48 ≤ c.toNat := low
    have high' : c.toNat ≤ 57 := high
    refine ⟨c.toNat - 48, by omega, if_pos ⟨low, high⟩, (all ⟨c.toNat - 48, by omega⟩).trans ?_⟩
    rw [if_pos (by simp only; omega), Nat.sub_add_cancel low', Char.ofNat_toNat]
  · have low' : 97 ≤ c.toNat := low
    have high' : c.toNat ≤ 102 := high
    have letter : ¬ ('0' ≤ c ∧ c ≤ '9') := fun digit =>
      absurd (show c.toNat ≤ 57 from digit.2) (by omega)
    refine ⟨c.toNat - 97 + 10, by omega, ?_, (all ⟨c.toNat - 97 + 10, by omega⟩).trans ?_⟩
    · rw [hexValue, if_neg letter, if_pos ⟨low, high⟩]
      rfl
    · rw [if_neg (by simp only; omega)]
      have same : c.toNat - 97 + 10 + 87 = c.toNat := by omega
      rw [same, Char.ofNat_toNat]

/-- Digits in lower case, two for each byte, are written again of what is read of them. -/
theorem hexChars_hexBytes {text : List Char}
    (lower : ∀ c ∈ text, ('0' ≤ c ∧ c ≤ '9') ∨ ('a' ≤ c ∧ c ≤ 'f')) (even : text.length % 2 = 0)
    : hexChars (hexBytes text) = text := by
  match text, lower, even with
  | [], _, _ => rfl
  | [_], _, even => simp at even
  | first :: second :: rest, lower, even =>
      have ih : hexChars (hexBytes rest) = rest :=
        hexChars_hexBytes (fun c mem => lower c (.tail _ (.tail _ mem))) (by
          simp only [List.length_cons] at even
          omega)
      obtain ⟨high, _, is, same⟩ := hexValue_lower (lower first (.head _))
      obtain ⟨low, _, is', same'⟩ := hexValue_lower (lower second (.tail _ (.head _)))
      have byte : (UInt8.ofNat (high * 16 + low)).toNat = high * 16 + low := by
        rw [UInt8.toNat_ofNat']
        omega
      have div : (high * 16 + low) / 16 = high := by omega
      have mod : (high * 16 + low) % 16 = low := by omega
      rw [hexChars] at ih ⊢
      simp only [hexBytes, is, is', List.flatMap_cons, byte, div, mod, same, same', ih,
        List.cons_append, List.nil_append]

theorem hexChars_injective : Function.Injective hexChars :=
  Function.LeftInverse.injective hexBytes_hexChars

theorem hexValue_of_mem {bytes : Bytes} {c : Char} (mem : c ∈ hexChars bytes)
    : (hexValue c).isSome := by
  obtain ⟨byte, _, digit⟩ := List.mem_flatMap.mp mem
  have bound := byte.toNat_lt
  rcases List.mem_cons.mp digit with rfl | low
  · rw [hexValue_digitChar (by omega)]
    rfl
  · rw [List.mem_singleton.mp low, hexValue_digitChar (Nat.mod_lt _ (by omega))]
    rfl

theorem length_hexChars (bytes : Bytes) : (hexChars bytes).length = 2 * bytes.length := by
  induction bytes with
  | nil => rfl
  | cons byte rest ih =>
      rw [hexChars, List.flatMap_cons, ← hexChars, List.length_append, ih, List.length_cons]
      simp
      omega

theorem lower_of_mem_hexChars {bytes : Bytes} {c : Char} (mem : c ∈ hexChars bytes)
    : ('0' ≤ c ∧ c ≤ '9') ∨ ('a' ≤ c ∧ c ≤ 'f') := by
  have all : ∀ n : Fin 16, ('0' ≤ Nat.digitChar n.1 ∧ Nat.digitChar n.1 ≤ '9')
      ∨ ('a' ≤ Nat.digitChar n.1 ∧ Nat.digitChar n.1 ≤ 'f') := by decide
  obtain ⟨byte, _, mem⟩ := List.mem_flatMap.mp mem
  have small := byte.toNat_lt
  rcases List.mem_cons.mp mem with rfl | mem
  · exact all ⟨byte.toNat / 16, by omega⟩
  · rcases List.mem_cons.mp mem with rfl | mem
    · exact all ⟨byte.toNat % 16, by omega⟩
    · cases mem

end Wire
