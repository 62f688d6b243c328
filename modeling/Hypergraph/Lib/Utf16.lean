import Mathlib.Data.String.Basic

/-! JavaScript's strings: sequences of UTF-16 code units, which need not spell characters. Written
as text, a surrogate without its other half is replaced (U+FFFD).
-/

namespace Js

abbrev Units := List UInt16

namespace Units

/-- The first half of a pair. -/
def high (unit : UInt16) : Bool := 0xd800 ≤ unit.toNat && unit.toNat < 0xdc00

/-- The second half of a pair. -/
def low (unit : UInt16) : Bool := 0xdc00 ≤ unit.toNat && unit.toNat < 0xe000

def surrogate (unit : UInt16) : Bool := high unit || low unit

/-- The character a pair spells. -/
def ofPair (first second : UInt16) : Char :=
  Char.ofNat (0x10000 + (first.toNat - 0xd800) * 0x400 + (second.toNat - 0xdc00))

/-- The character a unit on its own spells. -/
def ofUnit (unit : UInt16) : Char :=
  if surrogate unit then Char.ofNat 0xfffd else Char.ofNat unit.toNat

/-- The characters a string spells. -/
def chars : Units → List Char
  | [] => []
  | [unit] => [ofUnit unit]
  | unit :: next :: rest =>
      if high unit && low next then ofPair unit next :: chars rest
      else ofUnit unit :: chars (next :: rest)

/-- The units of a character: one, or a pair past the first 65536. -/
def ofChar (char : Char) : Units :=
  if char.toNat < 0x10000 then [UInt16.ofNat char.toNat]
  else [UInt16.ofNat (0xd800 + (char.toNat - 0x10000) / 0x400),
    UInt16.ofNat (0xdc00 + (char.toNat - 0x10000) % 0x400)]

/-- No surrogate is without its other half (`String.prototype.isWellFormed`). -/
def isWellFormed : Units → Bool
  | [] => true
  | [unit] => !surrogate unit
  | unit :: next :: rest =>
      if high unit && low next then isWellFormed rest
      else !surrogate unit && isWellFormed (next :: rest)

def text (units : Units) : String := String.ofList units.chars

def ofText (text : String) : Units := text.toList.flatMap ofChar

-- Characters and their units

theorem toNat_ofNat {number : Nat} (valid : number.isValidChar)
    : (Char.ofNat number).toNat = number := by
  rw [Char.ofNat, dif_pos valid]
  rfl

theorem ofChar_ofPair {first second : UInt16} (up : high first) (down : low second)
    : ofChar (ofPair first second) = [first, second] := by
  simp only [high, low, Bool.and_eq_true, decide_eq_true_eq] at up down
  have valid : (0x10000 + (first.toNat - 0xd800) * 0x400
      + (second.toNat - 0xdc00)).isValidChar := Or.inr ⟨by omega, by omega⟩
  have number := toNat_ofNat valid
  have past : ¬(ofPair first second).toNat < 0x10000 := by
    simp only [ofPair, number]
    omega
  have one : 0xd800 + ((ofPair first second).toNat - 0x10000) / 0x400 = first.toNat := by
    simp only [ofPair, number]
    omega
  have two : 0xdc00 + ((ofPair first second).toNat - 0x10000) % 0x400 = second.toNat := by
    simp only [ofPair, number]
    omega
  simp only [ofChar, past, if_false, one, two, UInt16.ofNat_toNat]

theorem ofChar_ofUnit {unit : UInt16} (whole : surrogate unit = false)
    : ofChar (ofUnit unit) = [unit] := by
  have bound := unit.toNat_lt
  have valid : unit.toNat.isValidChar := by
    simp only [surrogate, high, low, Bool.or_eq_false_iff, Bool.and_eq_false_iff,
      decide_eq_false_iff_not] at whole
    omega
  have number := toNat_ofNat valid
  have below : (ofUnit unit).toNat < 0x10000 := by
    simp only [ofUnit, whole, Bool.false_eq_true, if_false, number]
    exact bound
  rw [ofChar, if_pos below]
  simp only [ofUnit, whole, Bool.false_eq_true, if_false, number, UInt16.ofNat_toNat]

theorem ofChar_small {char : Char} (small : char.toNat < 0x10000)
    : ∃ unit, ofChar char = [unit] ∧ surrogate unit = false ∧ ofUnit unit = char := by
  have valid : char.toNat.isValidChar := char.valid
  have number : (UInt16.ofNat char.toNat).toNat = char.toNat := by
    rw [UInt16.toNat_ofNat']
    exact Nat.mod_eq_of_lt small
  have whole : surrogate (UInt16.ofNat char.toNat) = false := by
    simp only [surrogate, high, low, number, Bool.or_eq_false_iff, Bool.and_eq_false_iff,
      decide_eq_false_iff_not]
    omega
  refine ⟨UInt16.ofNat char.toNat, if_pos small, whole, ?_⟩
  simp only [ofUnit, whole, Bool.false_eq_true, if_false, number, Char.ofNat_toNat]

theorem ofChar_large {char : Char} (large : ¬char.toNat < 0x10000)
    : ∃ first second, ofChar char = [first, second] ∧ high first ∧ low second ∧
        ofPair first second = char := by
  have bound : char.toNat < 0x110000 := by
    have valid : char.toNat.isValidChar := char.valid
    omega
  obtain ⟨past, spelled⟩ : ∃ past, char.toNat = 0x10000 + past := ⟨char.toNat - 0x10000, by omega⟩
  have one : (UInt16.ofNat (0xd800 + past / 0x400)).toNat = 0xd800 + past / 0x400 := by
    rw [UInt16.toNat_ofNat']
    omega
  have two : (UInt16.ofNat (0xdc00 + past % 0x400)).toNat = 0xdc00 + past % 0x400 := by
    rw [UInt16.toNat_ofNat']
    omega
  refine ⟨UInt16.ofNat (0xd800 + past / 0x400), UInt16.ofNat (0xdc00 + past % 0x400), ?_, ?_, ?_,
    ?_⟩
  · rw [ofChar, if_neg large, spelled, Nat.add_sub_cancel_left]
  · simp only [high, one, Bool.and_eq_true, decide_eq_true_eq]
    omega
  · simp only [low, two, Bool.and_eq_true, decide_eq_true_eq]
    omega
  · have number : 0x10000 + (0xd800 + past / 0x400 - 0xd800) * 0x400
        + (0xdc00 + past % 0x400 - 0xdc00) = char.toNat := by omega
    rw [ofPair, one, two, number, Char.ofNat_toNat]

theorem chars_ofChar_append (char : Char) (rest : Units)
    : chars (ofChar char ++ rest) = char :: chars rest ∧
      isWellFormed (ofChar char ++ rest) = isWellFormed rest := by
  by_cases small : char.toNat < 0x10000
  · obtain ⟨unit, units, whole, spelled⟩ := ofChar_small small
    have first : high unit = false := (Bool.or_eq_false_iff.mp whole).1
    rw [units]
    cases rest with
    | nil => simp [chars, isWellFormed, spelled, whole]
    | cons next rest => simp [chars, isWellFormed, spelled, whole, first]
  · obtain ⟨first, second, units, up, down, spelled⟩ := ofChar_large small
    rw [units]
    simp [chars, isWellFormed, up, down, spelled]

-- Strings and text

theorem isWellFormed_flatMap (text : List Char) : isWellFormed (text.flatMap ofChar) := by
  induction text with
  | nil => rfl
  | cons char rest ih =>
      rw [List.flatMap_cons, (chars_ofChar_append char _).2]
      exact ih

/-- A text's string is well formed. -/
@[simp]
theorem isWellFormed_ofText (string : String) : isWellFormed (ofText string) :=
  isWellFormed_flatMap string.toList

theorem flatMap_chars (units : Units) (formed : isWellFormed units)
    : units.chars.flatMap ofChar = units := by
  induction units using chars.induct with
  | case1 => rfl
  | case2 unit =>
      have whole : surrogate unit = false := by simpa [isWellFormed] using formed
      simp [chars, ofChar_ofUnit whole]
  | case3 unit next rest pair ih =>
      have halves : high unit = true ∧ low next = true := by simpa using pair
      have later : isWellFormed rest := by simpa [isWellFormed, halves] using formed
      simp [chars, halves, ofChar_ofPair halves.1 halves.2, ih later]
  | case4 unit next rest pair ih =>
      rw [isWellFormed, if_neg pair, Bool.and_eq_true] at formed
      have whole : surrogate unit = false := by simpa using formed.1
      rw [chars, if_neg pair, List.flatMap_cons, ofChar_ofUnit whole, ih formed.2]
      rfl

/-- A character comes back as the units it was spelled by, at least as many as it is now. -/
theorem length_ofChar_ofUnit (unit : UInt16) : (ofChar (ofUnit unit)).length = 1 := by
  cases whole : surrogate unit with
  | false => rw [ofChar_ofUnit whole, List.length_singleton]
  | true =>
      rw [ofUnit, whole]
      rfl

/-- Replacing its lone surrogates keeps a string's length. -/
theorem length_ofText_text (units : Units) : (ofText (text units)).length = units.length := by
  rw [ofText, text, String.toList_ofList]
  induction units using chars.induct with
  | case1 => rfl
  | case2 unit => simp [chars, length_ofChar_ofUnit]
  | case3 unit next rest pair ih =>
      have halves : high unit = true ∧ low next = true := by simpa using pair
      simp only [chars, pair, if_true, List.flatMap_cons, List.length_append, ih,
        ofChar_ofPair halves.1 halves.2, List.length_cons, List.length_nil]
      omega
  | case4 unit next rest pair ih =>
      rw [chars, if_neg pair, List.flatMap_cons, List.length_append, ih, length_ofChar_ofUnit]
      simp only [List.length_cons]
      omega

theorem utf8Size_le (char : Char) : char.utf8Size ≤ 3 * (ofChar char).length := by
  by_cases small : char.toNat < 0x10000
  · have few : char.utf8Size ≤ 3 := by
      have below : char.val.toNat < 0x10000 := small
      simp only [Char.utf8Size]
      split_ifs with one two three
      · omega
      · omega
      · omega
      · exact absurd (by rw [UInt32.le_iff_toNat_le]; simp; omega) three
    rw [ofChar, if_pos small]
    simpa using few
  · rw [ofChar, if_neg small]
    have := char.utf8Size_le_four
    simp only [List.length_cons, List.length_nil]
    omega

/-- A unit takes at most three bytes of UTF-8. -/
theorem utf8ByteSize_text (units : Units) : (text units).utf8ByteSize ≤ 3 * units.length := by
  have each : ∀ list : List Char, String.utf8Len list ≤ 3 * (list.flatMap ofChar).length := by
    intro list
    induction list with
    | nil => simp
    | cons char rest ih =>
        have first := utf8Size_le char
        simp only [String.utf8Len_cons, List.flatMap_cons, List.length_append]
        omega
  rw [← length_ofText_text units, ofText, text, String.utf8ByteSize_ofList, String.toList_ofList]
  exact each units.chars

/-- A string comes back from the text it spells exactly where it is well formed. -/
theorem ofText_text (units : Units) : ofText (text units) = units ↔ isWellFormed units := by
  refine ⟨fun same => ?_, fun formed => ?_⟩
  · rw [← same]
    exact isWellFormed_ofText _
  · rw [ofText, text, String.toList_ofList]
    exact flatMap_chars units formed

-- Characters of one unit each

/-- The characters of units one by one, a surrogate's being U+FFFD. -/
def spelled (units : Units) : List Char := units.map ofUnit

/-- The units of characters. -/
def written (chars : List Char) : Units := chars.flatMap ofChar

theorem written_spelled {units : Units} (plain : ∀ c ∈ spelled units, c ≠ Char.ofNat 0xfffd)
    : written (spelled units) = units := by
  induction units with
  | nil => rfl
  | cons unit rest ih =>
      have whole : surrogate unit = false := by
        by_contra half
        exact plain (ofUnit unit) List.mem_cons_self
          (by rw [ofUnit, if_pos (Bool.eq_true_of_not_eq_false half)])
      have others := ih fun c mem => plain c (List.mem_cons_of_mem _ mem)
      rw [spelled, List.map_cons, written, List.flatMap_cons, ofChar_ofUnit whole]
      exact congrArg (unit :: ·) others

theorem spelled_written {chars : List Char} (small : ∀ c ∈ chars, c.toNat < 0x10000)
    : spelled (written chars) = chars := by
  induction chars with
  | nil => rfl
  | cons c rest ih =>
      obtain ⟨unit, is, _, same⟩ := ofChar_small (small c List.mem_cons_self)
      have others := ih fun c mem => small c (List.mem_cons_of_mem _ mem)
      rw [written, List.flatMap_cons, is, spelled, List.map_append, List.map_singleton, same]
      exact congrArg (c :: ·) others

/-- A unit is among those of characters where its character is. -/
theorem mem_of_mem_written {unit : UInt16} {chars : List Char}
    (small : ∀ c ∈ chars, c.toNat < 0x10000) (mem : unit ∈ written chars)
    : ofUnit unit ∈ chars := by
  have held : ofUnit unit ∈ spelled (written chars) := List.mem_map_of_mem mem
  rwa [spelled_written small] at held

end Units

-- Strings an engine can hold

/-- A string: engines hold none of `2 ^ 30` units or more. -/
structure Str where
  units : Units
  short : units.length < 2 ^ 30
  deriving DecidableEq

namespace Str

def text (string : Str) : String := string.units.text

/-- The string of a text, where an engine can hold it. -/
def ofText? (text : String) : Option Str :=
  if short : (Units.ofText text).length < 2 ^ 30 then some ⟨Units.ofText text, short⟩ else none

def isWellFormed (string : Str) : Bool := string.units.isWellFormed

/-- A string with its lone surrogates replaced (`String.prototype.toWellFormed`). -/
def toWellFormed (string : Str) : Str where
  units := Units.ofText string.text
  short := by
    rw [text, Units.length_ofText_text]
    exact string.short

theorem ofText?_text (string : Str) : ofText? string.text = some string.toWellFormed :=
  dif_pos string.toWellFormed.short

@[simp]
theorem isWellFormed_toWellFormed (string : Str) : string.toWellFormed.isWellFormed :=
  Units.isWellFormed_ofText string.text

theorem toWellFormed_eq (string : Str) : string.toWellFormed = string ↔ string.isWellFormed := by
  rw [Str.mk.injEq]
  exact Units.ofText_text string.units

theorem utf8ByteSize_text (string : Str) : string.text.utf8ByteSize < 2 ^ 53 := by
  have units := Units.utf8ByteSize_text string.units
  have short := string.short
  rw [text]
  omega

end Str

end Js
