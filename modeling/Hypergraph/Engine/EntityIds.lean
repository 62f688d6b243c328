import Hypergraph.Engine.TupleLayout

/-! Entity ids in canonical form: what is read of one is what it is written of. -/

namespace Hypergraph.Engine

open Wire

namespace Layouts

theorem isHex64_toHex {key : Bytes} (length : key.length = 32) : isHex64 (toHex key) := by
  rw [isHex64_iff, toHex, String.toList_ofList]
  exact ⟨by rw [length_hexChars, length], fun c mem => lower_of_mem_hexChars mem⟩

theorem splitLast_append {first last : List Char} (apart : '/' ∉ last)
    : splitLast (first ++ '/' :: last) = some (first, last) := by
  have others : ∀ c ∈ last.reverse, decide (c ≠ '/') = true := fun c mem =>
    decide_eq_true fun same => apart (same ▸ List.mem_reverse.mp mem)
  rw [splitLast, if_pos (by simp)]
  simp only [List.reverse_append, List.reverse_cons, List.append_assoc, List.singleton_append]
  rw [List.dropWhile_append_of_pos others, List.takeWhile_append_of_pos others]
  simp

theorem splitLast_format {type : String} {author : Bytes} {seq : Nat}
    : splitLast (formatEntityId type author seq).toList
      = some (type.toList ++ '/' :: hexChars author, Nat.toDigits 10 seq) := by
  rw [formatEntityId, String.toList_ofList]
  refine splitLast_append fun mem => ?_
  have digit := Nat.isDigit_of_mem_toDigits (by decide) (by decide) mem
  cases digit

theorem splitLast_hexChars {first : List Char} {author : Bytes}
    : splitLast (first ++ '/' :: hexChars author) = some (first, hexChars author) :=
  splitLast_append fun mem => by
    rcases lower_of_mem_hexChars mem with ⟨_, _⟩ | ⟨_, _⟩ <;> contradiction

theorem authorFromEntityId_format {type : String} {author : Bytes} {seq : Nat}
    : authorFromEntityId (formatEntityId type author seq) = some (toHex author) := by
  rw [authorFromEntityId, splitLast_format]
  simp only [Option.bind_eq_bind, Option.bind_some, splitLast_hexChars, toHex]

theorem formatEntityId_eq {type : String} {author : Bytes} {seq : Nat}
    : formatEntityId type author seq = type ++ "/" ++ toHex author ++ "/" ++ toString seq := by
  rw [← String.toList_inj, formatEntityId, Nat.toString_eq_ofList_toDigits]
  simp [toHex]

theorem parseEntityId_format {type : String} {author : Bytes} {seq : Nat}
    (length : author.length = 32) (safe : seq ≤ maxSafeInteger)
    : parseEntityId (formatEntityId type author seq) = some (type, author, seq) := by
  have formed : ¬(¬ isHex64 (String.ofList (hexChars author))
      ∨ ¬ Digits.canonical (Nat.toDigits 10 seq)) := by
    rw [not_or, not_not, not_not]
    exact ⟨isHex64_toHex length, Digits.canonical_toDigits seq⟩
  rw [parseEntityId, splitLast_format]
  simp only [Option.bind_eq_bind, Option.bind_some, splitLast_hexChars, if_neg formed,
    Nat.ofDigitChars_ten_toDigits, if_pos safe, hexBytes_hexChars, String.ofList_toList]

/-- An id is read where it is written of its parts, an author's key and a safe integer among them. -/
theorem parseEntityId_eq_some {id type : String} {author : Bytes} {seq : Nat}
    : parseEntityId id = some (type, author, seq)
      ↔ author.length = 32 ∧ seq ≤ maxSafeInteger ∧ id = formatEntityId type author seq := by
  constructor
  · intro is
    have told := fromKeyParts_toKeyParts id
    rw [toKeyParts, is, Option.getD_some] at told
    simp only [parseEntityId, Option.bind_eq_bind, Option.bind_eq_some_iff, Prod.exists] at is
    obtain ⟨rest, seqText, _, type', hex, _, is⟩ := is
    split at is
    · cases is
    · rename_i formed
      rw [not_or, not_not, not_not] at formed
      split at is
      · rename_i safe
        obtain ⟨rfl, rfl, rfl⟩ := is
        rw [fromKeyParts, if_pos (hexBytes_ne_nil formed.1)] at told
        refine ⟨?_, safe, told.symm⟩
        have length := (isHex64_iff.mp formed.1).1
        rw [String.toList_ofList, ← hexChars_of_isHex64 formed.1, length_hexChars] at length
        omega
      · cases is
  · rintro ⟨length, safe, rfl⟩
    exact parseEntityId_format length safe

end Layouts

end Hypergraph.Engine
