import Hypergraph.Fields.Back

/-! The documented formats with a codec for doubles and one for ids, and that they keep what is
promised of the packages.
-/

namespace Hypergraph.Fields

open Wire Js

/-- A double as a mark, its sign and eight bytes: of an integer its size, of another its bits. -/
def markedFloat : Codec Number where
  encode
    | .whole value _ => (if value < 0 then 1 else 0) :: littleEndian 8 value.natAbs
    | .other bits _ => 2 :: littleEndian 8 bits.toNat
  decode
    | [] => none
    | mark :: bytes => do
        let (number, rest) ← readLittleEndian 8 bytes
        if mark = 2 then
          let bits := UInt64.ofNat number
          if apart : safeInteger bits = none then some (.other bits apart, rest) else none
        else
          let value : Int := if mark = 1 then -number else number
          if safe : value.natAbs < 2 ^ 53 then some (.whole value safe, rest) else none
  Fits _ := True
  decode_encode value rest _ := by
    cases value with
    | whole value safe =>
        have back := readLittleEndian_littleEndian 8 value.natAbs rest (safe.trans (by decide))
        by_cases below_ : value < 0
        · have same : -(value.natAbs : Int) = value := by
            rw [Int.ofNat_natAbs_of_nonpos below_.le, Int.neg_neg]
          simp only [below_, if_true, List.cons_append, back, Option.bind_eq_bind, Option.bind_some]
          rw [if_neg (by decide)]
          simp only [same, safe, dif_pos]
        · have same : (value.natAbs : Int) = value := Int.natAbs_of_nonneg (not_lt.mp below_)
          simp only [below_, if_false, List.cons_append, back, Option.bind_eq_bind,
            Option.bind_some]
          rw [if_neg (by decide)]
          simp only [show ¬(0 : UInt8) = 1 by decide, if_false, same, safe, dif_pos]
    | other bits apart =>
        have back := readLittleEndian_littleEndian 8 bits.toNat rest bits.toNat_lt
        simp [back, apart]

theorem nil_short : ([] : List UInt16).length < 2 ^ 30 := by decide

/-- An id as the text of its bytes, one unit each; other text is none. -/
def byteText (bytes : Bytes) : Str :=
  if short : bytes.length < 2 ^ 30 then
    ⟨bytes.map UInt8.toUInt16, by rw [List.length_map]; exact short⟩
  else ⟨[], nil_short⟩

def ofByteText (text : Str) : Option Bytes :=
  if text.units.all fun unit => unit.toNat < 256 then some (text.units.map UInt16.toUInt8) else none

def compactPackages : Packages where
  toPrimitives := compact
  int := compactInt
  float64 := markedFloat
  z32 := byteText
  unz32 := ofByteText

theorem compactPackages_promised : Promised compactPackages where
  toRegular := compact_regular
  int _ range := ⟨range, rfl⟩
  float64 _ _ := ⟨trivial, rfl⟩
  tooMany item values rest many few := by
    have count := compactUint.decode_encode values.length (values.flatMap item.encode ++ rest)
      (few.trans (by decide))
    simp only [compactPackages, compact, compactArray, List.append_assoc, count,
      Option.bind_eq_bind, Option.bind_some]
    exact if_neg (by simp only [MAX_ITEMS] at many; omega)
  unz32_empty := rfl
  unz32_z32 bytes known := by
    have short : bytes.length < 2 ^ 30 := by
      rcases known with long | ⟨id, same⟩
      · omega
      · simp only [compactPackages, ofByteText] at same
        split_ifs at same
        cases same
        rw [List.length_map]
        exact id.short
    have small : (bytes.map UInt8.toUInt16).all (fun unit => unit.toNat < 256) = true := by
      simp only [List.all_map, List.all_eq_true, Function.comp_apply, decide_eq_true_eq]
      intro byte _
      have bound := byte.toNat_lt
      simpa using bound
    have back : (bytes.map UInt8.toUInt16).map UInt16.toUInt8 = bytes := by
      rw [List.map_map]
      exact (List.map_congr_left fun byte _ => UInt8.toUInt8_toUInt16 byte).trans (List.map_id _)
    simp only [compactPackages, byteText, dif_pos short, ofByteText, small, if_true, back]

end Hypergraph.Fields
