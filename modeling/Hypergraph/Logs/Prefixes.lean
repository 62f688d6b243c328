import Mathlib.Data.List.GetD
import Hypergraph.Lib.Ascending
import Hypergraph.Logs.Ranges

/-! Ranges of keys as bytes (`bound`, `child` and `within` in `lib/ranges.js`): a prefix of so many
bits, a multiple of four, stands for the nibbles it begins with, and its keys are those between two
bounds.
-/

namespace Hypergraph.Ranges

open Wire

/-- The deepest prefix a range may have, in bits. -/
def MAX_BITS : Nat := 252

/-- `b4a.compare`: is the first before the second? -/
def before : Bytes → Bytes → Bool
  | _, [] => false
  | [], _ :: _ => true
  | a :: first, b :: second => decide (a < b) || decide (a = b) && before first second

/-- The nibble at a bit; past the end, there is none to shift. -/
def nibble (key : Bytes) (bit : Nat) : Nibble :=
  let byte := key.getD (bit / 8) 0
  if bit % 8 = 0 then high byte else low byte

/-- The smallest (fill 0) or largest (fill 0xff) key with this prefix. -/
def bound (prefix_ : Bytes) (bits : Nat) (fill : UInt8) : Bytes :=
  let whole := bits / 8
  let first := prefix_.take whole
  let out := first ++ (List.replicate 32 fill).drop first.length
  if bits % 8 = 0 then out
  else out.set whole ((prefix_.getD whole 0 &&& 0xf0) ||| (fill &&& 0x0f))

/-- The prefix of sub-range `i`. -/
def child (prefix_ : Bytes) (bits : Nat) (i : Nibble) : Bytes :=
  let size := (bits + 4 + 7) / 8
  let first := prefix_.take (min prefix_.length size)
  let out := first ++ (List.replicate size 0).drop first.length
  if bits % 8 = 0 then out.set (bits / 8) (UInt8.ofNat i <<< 4)
  else out.set (bits / 8) ((out.getD (bits / 8) 0 &&& 0xf0) ||| UInt8.ofNat i)

/-- Does a key begin with a prefix? -/
def begins (key prefix_ : Bytes) (bits : Nat) : Bool :=
  (List.range ((bits + 3) / 4)).all fun n => nibble key (4 * n) = nibble prefix_ (4 * n)

/-- A prefix a message may give (`valid`). -/
structure Prefix where
  bytes : Bytes
  bits : Nat
  fours : bits % 4 = 0
  deep : bits ≤ MAX_BITS
  long : (bits + 7) / 8 ≤ bytes.length

-- Nibbles

def nibblesOf (bytes : Bytes) : List Nibble := bytes.flatMap fun byte => [high byte, low byte]

section Nibbles

variable {a b : UInt8} {bytes first second : Bytes}

theorem nibbles_eq (key : LogKey) : nibbles key = nibblesOf key.1 := rfl

@[simp]
theorem nibblesOf_nil : nibblesOf [] = [] := rfl

@[simp]
theorem nibblesOf_cons : nibblesOf (a :: bytes) = high a :: low a :: nibblesOf bytes := rfl

@[simp]
theorem nibblesOf_append : nibblesOf (first ++ second) = nibblesOf first ++ nibblesOf second :=
  List.flatMap_append

@[simp]
theorem length_nibblesOf : (nibblesOf bytes).length = 2 * bytes.length := by
  induction bytes with
  | nil => rfl
  | cons a bytes ih =>
      simp only [nibblesOf_cons, List.length_cons, ih]
      omega

theorem nibblesOf_replicate (same : high a = low a) (n : Nat)
    : nibblesOf (List.replicate n a) = List.replicate (2 * n) (low a) := by
  induction n with
  | zero => rfl
  | succ n ih => rw [List.replicate_succ, nibblesOf_cons, ih, same, Nat.mul_succ, List.replicate_succ, List.replicate_succ]

theorem byte_eq_iff : a = b ↔ high a = high b ∧ low a = low b := by
  simp only [high, low, Fin.mk.injEq, ← UInt8.toNat_inj]
  omega

theorem byte_lt_iff : a < b ↔ high a < high b ∨ high a = high b ∧ low a < low b := by
  simp only [high, low, Fin.mk.injEq, Fin.mk_lt_mk, UInt8.lt_iff_toNat_lt]
  omega

/-- Bytes are compared as their nibbles are. -/
theorem before_iff : before first second = true ↔ nibblesOf first < nibblesOf second := by
  induction first generalizing second with
  | nil =>
      cases second with
      | nil => simp [before]
      | cons b second => simp [before]
  | cons a first ih =>
      cases second with
      | nil => simp [before]
      | cons b second =>
          simp only [before, Bool.or_eq_true, Bool.and_eq_true, decide_eq_true_eq, ih, nibblesOf_cons,
            List.cons_lt_cons_iff, byte_lt_iff, byte_eq_iff]
          tauto

theorem nibblesOf_injective : Function.Injective nibblesOf := by
  intro first
  induction first with
  | nil =>
      intro second same
      cases second with
      | nil => rfl
      | cons b second => cases same
  | cons a first ih =>
      intro second same
      cases second with
      | nil => cases same
      | cons b second =>
          simp only [nibblesOf_cons, List.cons.injEq] at same
          obtain ⟨high_, low_, rest⟩ := same
          rw [byte_eq_iff.mpr ⟨high_, low_⟩, ih rest]

theorem nibblesOf_take (n : Nat) : nibblesOf (bytes.take n) = (nibblesOf bytes).take (2 * n) := by
  induction bytes generalizing n with
  | nil => simp
  | cons a bytes ih =>
      cases n with
      | zero => rfl
      | succ n => simp [Nat.mul_succ, ih]

theorem nibble_eq (n : Nat) : nibble bytes (4 * n) = (nibblesOf bytes).getD n 0 := by
  induction bytes using List.rec generalizing n with
  | nil =>
      simp only [nibble, List.getD_nil, nibblesOf_nil]
      split <;> rfl
  | cons a bytes ih =>
      match n with
      | 0 => rfl
      | 1 => rfl
      | n + 2 =>
          have step : nibble (a :: bytes) (4 * (n + 2)) = nibble bytes (4 * n) := by
            unfold nibble
            have at_ : 4 * (n + 2) / 8 = 4 * n / 8 + 1 := by omega
            have half : 4 * (n + 2) % 8 = 4 * n % 8 := by omega
            rw [at_, half, List.getD_cons_succ]
          rw [step, ih]
          rfl

theorem take_succ_nibblesOf {n : Nat} (there : n < 2 * bytes.length)
    : (nibblesOf bytes).take (n + 1) = (nibblesOf bytes).take n ++ [nibble bytes (4 * n)] := by
  have inside : n < (nibblesOf bytes).length := by rwa [length_nibblesOf]
  rw [List.take_add_one, nibble_eq, List.getD_eq_getElem _ _ inside, List.getElem?_eq_getElem inside]
  rfl

/-- The nibbles at the first bits are the same where the nibbles begin alike. -/
theorem nibble_eq_iff {n : Nat} (there : n ≤ 2 * first.length) (there' : n ≤ 2 * second.length)
    : (∀ m < n, nibble first (4 * m) = nibble second (4 * m))
      ↔ (nibblesOf first).take n = (nibblesOf second).take n := by
  induction n with
  | zero => simp
  | succ n ih =>
      rw [Nat.forall_lt_succ_right, ih (by omega) (by omega), take_succ_nibblesOf (by omega),
        take_succ_nibblesOf (by omega)]
      constructor
      · rintro ⟨same, last⟩
        rw [same, last]
      · intro same
        obtain ⟨same, last⟩ := List.append_inj' same rfl
        exact ⟨same, List.singleton_inj.mp last⟩

theorem high_mixed : high ((a &&& 0xf0) ||| (b &&& 0x0f)) = high a := by
  have below := a.toNat_lt
  have sixteen : 16 = 2 ^ 4 := rfl
  have ones : (0xf0 : UInt8).toNat / 2 ^ 4 = 2 ^ 4 - 1 := rfl
  have none_ : (0x0f : UInt8).toNat / 2 ^ 4 = 0 := rfl
  simp only [high, Fin.mk.injEq, UInt8.toNat_or, UInt8.toNat_and]
  rw [sixteen, Nat.or_div_two_pow, Nat.and_div_two_pow, Nat.and_div_two_pow, ones, none_, Nat.and_zero, Nat.or_zero,
    Nat.and_two_pow_sub_one_eq_mod]
  omega

theorem low_mixed : low ((a &&& 0xf0) ||| (b &&& 0x0f)) = low b := by
  have sixteen : 16 = 2 ^ 4 := rfl
  have none_ : (0xf0 : UInt8).toNat % 2 ^ 4 = 0 := rfl
  have ones : (0x0f : UInt8).toNat % 2 ^ 4 = 2 ^ 4 - 1 := rfl
  simp only [low, Fin.mk.injEq, UInt8.toNat_or, UInt8.toNat_and]
  rw [sixteen, Nat.or_mod_two_pow, Nat.and_mod_two_pow, Nat.and_mod_two_pow, ones, none_, Nat.and_zero, Nat.zero_or,
    Nat.and_two_pow_sub_one_eq_mod]
  omega

theorem high_shifted : ∀ i : Nibble, high (UInt8.ofNat i <<< 4) = i := by
  decide

theorem low_ofNat : ∀ i : Nibble, low (UInt8.ofNat i) = i ∧ UInt8.ofNat i &&& 0x0f = UInt8.ofNat i := by
  decide

end Nibbles

-- Ranges

section Ranges

variable {prefix_ key : Bytes} {bits : Nat} {fill : UInt8} {i : Nibble}

/-- The nibbles a prefix stands for. -/
def rangeOf (prefix_ : Bytes) (bits : Nat) : List Nibble := (nibblesOf prefix_).take (bits / 4)

theorem length_rangeOf (long : (bits + 7) / 8 ≤ prefix_.length) : (rangeOf prefix_ bits).length = bits / 4 := by
  rw [rangeOf, List.length_take, length_nibblesOf]
  omega

/-- A prefix of half a byte ends with its high nibble. -/
theorem take_rangeOf_half (half : bits / 4 = 2 * (bits / 8) + 1) (inside : bits / 8 < prefix_.length)
    : rangeOf prefix_ bits
      = (nibblesOf prefix_).take (2 * (bits / 8)) ++ [high (prefix_.getD (bits / 8) 0)] := by
  have at_ : 4 * (2 * (bits / 8)) / 8 = bits / 8 := by omega
  have whole : 4 * (2 * (bits / 8)) % 8 = 0 := by omega
  rw [rangeOf, half, take_succ_nibblesOf (by omega), nibble]
  rw [if_pos whole, at_]

/-- A bound is the range's nibbles, then those filled in. -/
theorem nibblesOf_bound (fours : bits % 4 = 0) (deep : bits ≤ 256) (long : (bits + 7) / 8 ≤ prefix_.length)
    (same : high fill = low fill)
    : nibblesOf (bound prefix_ bits fill)
      = rangeOf prefix_ bits ++ List.replicate (64 - bits / 4) (low fill) := by
  have size : (prefix_.take (bits / 8)).length = bits / 8 := by
    rw [List.length_take]
    omega
  unfold bound rangeOf
  split
  · have half : bits / 4 = 2 * (bits / 8) := by omega
    rw [nibblesOf_append, nibblesOf_take, List.drop_replicate, nibblesOf_replicate same, size, half, Nat.mul_sub]
  · have half' : bits / 4 = 2 * (bits / 8) + 1 := by omega
    have inside : bits / 8 < prefix_.length := by omega
    obtain ⟨left, enough⟩ : ∃ left, 32 - bits / 8 = left + 1 := ⟨31 - bits / 8, by omega⟩
    have later : 64 - bits / 4 = 2 * left + 1 := by omega
    have head := take_rangeOf_half (by omega) inside
    rw [rangeOf] at head
    rw [List.set_append_right _ _ (by omega), size, Nat.sub_self, List.drop_replicate, enough, List.replicate_succ,
      List.set_cons_zero, nibblesOf_append, nibblesOf_cons, high_mixed, low_mixed, nibblesOf_replicate same,
      nibblesOf_take, head, later, List.replicate_succ, List.append_assoc]
    rfl

theorem rangeOf_child (fours : bits % 4 = 0) (long : (bits + 7) / 8 ≤ prefix_.length)
    : rangeOf (child prefix_ bits i) (bits + 4) = rangeOf prefix_ bits ++ [i] := by
  have size : (bits + 4 + 7) / 8 = bits / 8 + 1 := by omega
  have head : (prefix_.take (bits / 8)).length = bits / 8 := by
    rw [List.length_take]
    omega
  -- what is copied: the whole bytes, and the byte after them or a zero
  have out : prefix_.take (min prefix_.length (bits / 8 + 1))
        ++ (List.replicate (bits / 8 + 1) 0).drop (prefix_.take (min prefix_.length (bits / 8 + 1))).length
      = prefix_.take (bits / 8) ++ [prefix_.getD (bits / 8) 0] := by
    rcases Nat.lt_or_ge (bits / 8) prefix_.length with more | all
    · rw [Nat.min_eq_right more, List.drop_eq_nil_of_le (by simp; omega), List.append_nil, List.take_add_one,
        List.getElem?_eq_getElem more, List.getD_eq_getElem _ _ more]
      rfl
    · have same : prefix_.length = bits / 8 := by omega
      rw [Nat.min_eq_left (by omega), List.take_length, List.drop_replicate, same, Nat.add_sub_cancel_left,
        ← same, List.take_length, List.getD_eq_default _ _ (le_refl _)]
      rfl
  unfold child rangeOf
  dsimp only
  rw [size, out]
  split
  · have half : (bits + 4) / 4 = 2 * (bits / 8) + 1 := by omega
    have half' : bits / 4 = 2 * (bits / 8) := by omega
    rw [List.set_append_right _ _ (by omega), head, Nat.sub_self, List.set_cons_zero, nibblesOf_append, nibblesOf_take,
      nibblesOf_cons, nibblesOf_nil, high_shifted, half, half', List.take_append]
    have length : ((nibblesOf prefix_).take (2 * (bits / 8))).length = 2 * (bits / 8) := by
      rw [List.length_take, length_nibblesOf]
      omega
    rw [length, Nat.add_sub_cancel_left, List.take_take, Nat.min_eq_right (by omega)]
    rfl
  · have inside : bits / 8 < prefix_.length := by omega
    have given : (prefix_.take (bits / 8) ++ [prefix_.getD (bits / 8) 0]).getD (bits / 8) 0
        = prefix_.getD (bits / 8) 0 := by
      rw [List.getD_append_right _ _ _ _ (by omega), head, Nat.sub_self, List.getD_cons_zero]
    have parent := @take_rangeOf_half prefix_ bits (by omega) inside
    rw [rangeOf] at parent
    rw [List.set_append_right _ _ (by omega), head, Nat.sub_self, List.set_cons_zero, given, ← (low_ofNat i).2,
      nibblesOf_append, nibblesOf_take, nibblesOf_cons, nibblesOf_nil, high_mixed, low_mixed, (low_ofNat i).1, parent,
      List.take_of_length_le, List.append_assoc]
    · rfl
    · simp only [List.length_append, List.length_take, length_nibblesOf, List.length_cons, List.length_nil]
      omega

theorem length_child : (child prefix_ bits i).length = (bits + 4 + 7) / 8 := by
  have size : (prefix_.take (min prefix_.length ((bits + 4 + 7) / 8))
        ++ (List.replicate ((bits + 4 + 7) / 8) 0).drop
          (prefix_.take (min prefix_.length ((bits + 4 + 7) / 8))).length).length
      = (bits + 4 + 7) / 8 := by
    rw [List.length_append, List.length_drop, List.length_replicate, List.length_take]
    omega
  unfold child
  split <;> rw [List.length_set, size]

/-- A list begins with others and one more if it begins with these and has that one next. -/
theorem concat_prefix_iff {first list : List Nibble}
    : first ++ [i] <+: list ↔ first <+: list ∧ list[first.length]? = some i := by
  induction first generalizing list with
  | nil =>
      cases list with
      | nil => simp
      | cons b list => simp [eq_comm]
  | cons a first ih =>
      cases list with
      | nil => simp
      | cons b list => simp [List.cons_prefix_cons, ih, and_assoc]

/-- A key begins with a prefix if its nibbles begin with the range's. -/
theorem begins_iff (fours : bits % 4 = 0) (long : (bits + 7) / 8 ≤ prefix_.length) (deep : bits / 4 ≤ 2 * key.length)
    : begins key prefix_ bits = true ↔ rangeOf prefix_ bits <+: nibblesOf key := by
  have many : (bits + 3) / 4 = bits / 4 := by omega
  have same := @nibble_eq_iff key prefix_ (bits / 4) deep (by omega)
  unfold begins
  rw [many, List.prefix_iff_eq_take, length_rangeOf long, rangeOf, @eq_comm _ ((nibblesOf prefix_).take _), ← same]
  simp only [List.all_eq_true, List.mem_range, decide_eq_true_eq]

end Ranges

end Hypergraph.Ranges
