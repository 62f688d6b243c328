import Hypergraph.Lib.Digest
import Hypergraph.Logs.Prefixes

/-! The logs a side holds (`Keys` in `lib/ranges.js`): its keys sorted, each one's length and item,
and the digest of them all, kept as keys are set and deleted. A range's keys are found by two
halving searches, and its parts are those of its sixteen sub-ranges.
-/

namespace Hypergraph.Ranges

open Js Wire Digest

/-- What is kept of a log. -/
structure Held where
  length : Nat
  item : BitVec 256
  deriving DecidableEq

structure KeySet where
  sorted : List LogKey := []
  entries : Dict LogKey Held := .empty
  digest : BitVec 256 := 0

namespace KeySet

section Source

variable (item : LogKey → Nat → BitVec 256) (keys : KeySet)

/-- The first index whose key isn't before another (`#at`). -/
def at_ (key : Bytes) : Nat :=
  Ascending.search (fun mid => (keys.sorted[mid]?).any fun other => before other.1 key) 0 keys.sorted.length

def has (key : LogKey) : Bool := (keys.sorted[keys.at_ key.1]?).any fun other => other = key

/-- Adds a key with a length, or changes its length. -/
def set (key : LogKey) (length : Nat) : KeySet :=
  match keys.entries.get? key with
  | some held =>
      if held.length = length then keys
      else
        { keys with
          entries := keys.entries.put key ⟨length, item key length⟩
          digest := keys.digest ^^^ held.item ^^^ item key length }
  | none =>
      { sorted := keys.sorted.take (keys.at_ key.1) ++ key :: keys.sorted.drop (keys.at_ key.1)
        entries := keys.entries.put key ⟨length, item key length⟩
        digest := keys.digest ^^^ item key length }

def delete (key : LogKey) : KeySet :=
  match keys.entries.get? key with
  | none => keys
  | some held =>
      { sorted := keys.sorted.take (keys.at_ key.1) ++ keys.sorted.drop (keys.at_ key.1 + 1)
        entries := keys.entries.remove key
        digest := keys.digest ^^^ held.item }

/-- From where and up to where the keys have a prefix (`#range`). -/
def range (prefix_ : Bytes) (bits : Nat) : Nat × Nat :=
  if bits = 0 then (0, keys.sorted.length)
  else
    let last := keys.at_ (bound prefix_ bits 0xff)
    (keys.at_ (bound prefix_ bits 0),
      if (keys.sorted[last]?).any fun key => key.1 = bound prefix_ bits 0xff then last + 1 else last)

def within (prefix_ : Bytes) (bits : Nat) : List LogKey :=
  (keys.sorted.take (keys.range prefix_ bits).2).drop (keys.range prefix_ bits).1

def count (prefix_ : Bytes) (bits : Nat) : Int := (keys.range prefix_ bits).2 - (keys.range prefix_ bits).1

/-- One more key in its part; a key without an entry can't be counted. -/
def countIn (bits : Nat) (out : Nibble → Part) (key : LogKey) : Option (Nibble → Part) := do
  let held ← keys.entries.get? key
  let i := nibble key.1 bits
  return Function.update out i ⟨(out i).count + 1, (out i).digest ^^^ held.item⟩

/-- The counts and digests of the sixteen sub-ranges. -/
def parts (prefix_ : Bytes) (bits : Nat) : Option (Nibble → Part) :=
  (keys.within prefix_ bits).foldlM (keys.countIn bits) fun _ => ⟨0, 0⟩

end Source

/-- What is done to a set of keys. -/
inductive Op
  | set (key : LogKey) (length : Nat)
  | delete (key : LogKey)

def apply (item : LogKey → Nat → BitVec 256) (keys : KeySet) : Op → KeySet
  | .set key length => keys.set item key length
  | .delete key => keys.delete key

-- What holds of it

/-- The item of a key held. -/
def itemAt (keys : KeySet) (key : LogKey) : BitVec 256 := (keys.entries.get? key).elim 0 Held.item

/-- The keys are sorted and those of the entries, each entry has its item, and the digest is that of
the items.
-/
structure Well (item : LogKey → Nat → BitVec 256) (keys : KeySet) : Prop where
  ascending : keys.sorted.Pairwise fun first second => before first.1 second.1
  held : ∀ key, key ∈ keys.sorted ↔ key ∈ keys.entries.keys
  items : ∀ key held, keys.entries.get? key = some held → held.item = item key held.length
  digest : keys.digest = xors (keys.entries.entries.map fun entry => entry.2.item)

/-- What is reported of a range is what its keys are, and its parts are its sub-ranges. -/
structure Reports (keys : KeySet) (range : Prefix) (parts : Nibble → Part) : Prop where
  within : keys.within range.bytes range.bits = keys.sorted.filter fun key => begins key.1 range.bytes range.bits
  count : keys.count range.bytes range.bits = (keys.within range.bytes range.bits).length
  given : keys.parts range.bytes range.bits = some parts
  child
    : ∀ i, keys.within (Ranges.child range.bytes range.bits i) (range.bits + 4)
      = (keys.within range.bytes range.bits).filter fun key => nibble key.1 range.bits = i
  begins
    : ∀ i, keys.within (Ranges.child range.bytes range.bits i) (range.bits + 4)
      = keys.sorted.filter fun key => begins key.1 (Ranges.child range.bytes range.bits i) (range.bits + 4)
  counts : ∀ i, (parts i).count = keys.count (Ranges.child range.bytes range.bits i) (range.bits + 4)
  digests
    : ∀ i, (parts i).digest
      = xors ((keys.within (Ranges.child range.bytes range.bits i) (range.bits + 4)).map keys.itemAt)
  sum : (((List.finRange 16).map fun i => (parts i).count).sum : Nat) = keys.count range.bytes range.bits
  xor
    : xors ((List.finRange 16).map fun i => (parts i).digest)
      = xors ((keys.within range.bytes range.bits).map keys.itemAt)

variable {item : LogKey → Nat → BitVec 256} {keys : KeySet} {key : LogKey} {length : Nat}

theorem nibbles_injective : Function.Injective nibbles :=
  fun _ _ same => Subtype.ext (nibblesOf_injective same)

theorem at_eq (other : Bytes) : keys.at_ other = Ascending.place nibbles keys.sorted (nibblesOf other) := by
  unfold at_ Ascending.place
  congr 1
  funext i
  congr 1
  funext key
  rw [Bool.eq_iff_iff, before_iff]
  exact (@decide_eq_true_iff _ (LinearOrder.toDecidableLT _ _)).symm

theorem Well.ordered (well : keys.Well item) : Ascending.Ordered nibbles keys.sorted := by
  refine well.ascending.imp fun less => ?_
  rwa [before_iff] at less

theorem ascending_of_ordered {sorted : List LogKey} (ordered : Ascending.Ordered nibbles sorted)
    : sorted.Pairwise fun first second => before first.1 second.1 := by
  refine List.Pairwise.imp (fun less => ?_) ordered
  rwa [before_iff]

theorem mem_keys_remove {dict : Dict LogKey Held} {other : LogKey}
    : other ∈ (dict.remove key).keys ↔ other ∈ dict.keys ∧ other ≠ key := by
  rw [Dict.mem_keys_iff, Dict.mem_keys_iff, Dict.get?_remove]
  split
  · simp [*]
  · simp [*]

-- Keys set and deleted

theorem well_empty : Well item {} where
  ascending := .nil
  held _ := Iff.rfl
  items _ _ found := by cases found
  digest := rfl

theorem Well.set (well : keys.Well item) : (keys.set item key length).Well item := by
  have items (other : LogKey) (held : Held)
      (found : (keys.entries.put key ⟨length, item key length⟩).get? other = some held)
      : held.item = item other held.length := by
    rw [Dict.get?_put] at found
    split at found
    · rename_i here
      cases found
      rw [here]
    · exact well.items other held found
  have digest : keys.digest ^^^ keys.itemAt key ^^^ item key length
      = xors ((keys.entries.put key ⟨length, item key length⟩).entries.map fun entry => entry.2.item) := by
    rw [well.digest]
    exact (@xors_putEntries 256 LogKey Held _ (fun entry => entry.2.item) keys.entries.entries key
      ⟨length, item key length⟩).symm
  unfold KeySet.set
  cases found : keys.entries.get? key with
  | some old =>
      dsimp only
      split
      · exact well
      · have known : key ∈ keys.entries.keys := by
          rw [Dict.mem_keys_iff, found]
          rfl
        refine ⟨well.ascending, fun other => ?_, items, ?_⟩
        · rw [Dict.keys_put, if_pos known]
          exact well.held other
        · rw [itemAt, found] at digest
          exact digest
  | none =>
      have fresh : key ∉ keys.entries.keys := by
        rw [Dict.mem_keys_iff, found]
        exact Bool.false_ne_true
      have placed : keys.sorted.take (keys.at_ key.1) ++ key :: keys.sorted.drop (keys.at_ key.1)
          = Ascending.put nibbles keys.sorted key := by
        rw [at_eq]
        rfl
      refine ⟨?_, fun other => ?_, items, ?_⟩
      · rw [placed]
        refine ascending_of_ordered (Ascending.ordered_put well.ordered fun other mem same => fresh ?_)
        rw [← nibbles_injective same]
        exact (well.held other).mp mem
      · rw [placed, Ascending.mem_put, Dict.keys_put, if_neg fresh, List.mem_append, List.mem_singleton, well.held,
          or_comm]
      · rw [itemAt, found] at digest
        simpa using digest

theorem Well.delete (well : keys.Well item) : (keys.delete key).Well item := by
  unfold KeySet.delete
  cases found : keys.entries.get? key with
  | none => exact well
  | some old =>
      have known : key ∈ keys.sorted := by
        rw [well.held, Dict.mem_keys_iff, found]
        rfl
      have placed : keys.sorted.take (keys.at_ key.1) ++ keys.sorted.drop (keys.at_ key.1 + 1)
          = Ascending.takeOut nibbles keys.sorted key := by
        rw [at_eq]
        rfl
      refine ⟨?_, fun other => ?_, fun other held there => ?_, ?_⟩
      · rw [placed]
        exact ascending_of_ordered (Ascending.ordered_takeOut well.ordered)
      · rw [placed, Ascending.mem_takeOut well.ordered known, mem_keys_remove, well.held]
        exact and_congr_right fun _ => nibbles_injective.ne_iff
      · rw [Dict.get?_remove] at there
        split at there
        · cases there
        · exact well.items other held there
      · have digest := @xors_remove 256 LogKey Held _ (fun entry => entry.2.item) _ key keys.entries.unique
        unfold Dict.get? at found
        rw [wordAt, found] at digest
        rw [well.digest]
        exact digest.symm

theorem well_foldl (ops : List Op) : (ops.foldl (apply item) {}).Well item := by
  have step (keys : KeySet) (op : Op) (well : keys.Well item) : (apply item keys op).Well item := by
    cases op with
    | set key length => exact well.set
    | delete key => exact well.delete
  have run (keys : KeySet) (well : keys.Well item) : (ops.foldl (apply item) keys).Well item := by
    induction ops generalizing keys with
    | nil => exact well
    | cons op ops ih => exact ih _ (step keys op well)
  exact run {} well_empty

-- What is reported of a range

section Reports

variable {prefix_ : Bytes} {bits : Nat}

/-- The keys of a range are looked for between its bounds. -/
theorem range_eq (some_ : bits ≠ 0)
    : keys.range prefix_ bits
      = (Ascending.place nibbles keys.sorted (nibblesOf (bound prefix_ bits 0)),
        Ascending.placeAfter nibbles keys.sorted (nibblesOf (bound prefix_ bits 0xff))) := by
  have met (key : LogKey) : key.1 = bound prefix_ bits 0xff ↔ nibbles key = nibblesOf (bound prefix_ bits 0xff) :=
    nibblesOf_injective.eq_iff.symm
  unfold KeySet.range Ascending.placeAfter
  rw [if_neg some_]
  simp only [at_eq, met]
  -- equality is decided otherwise for an order
  congr!

/-- A key of 32 bytes begins with a prefix if it stands between its bounds. -/
theorem begins_iff_between (fours : bits % 4 = 0) (deep : bits ≤ 256) (long : (bits + 7) / 8 ≤ prefix_.length)
    : begins key.1 prefix_ bits = true
      ↔ nibblesOf (bound prefix_ bits 0) ≤ nibbles key ∧ nibbles key ≤ nibblesOf (bound prefix_ bits 0xff) := by
  have whole : (nibbles key).length = (rangeOf prefix_ bits).length + (64 - bits / 4) := by
    rw [nibbles_eq, length_nibblesOf, key.2, length_rangeOf long]
    omega
  rw [begins_iff fours long (by rw [key.2]; omega), nibblesOf_bound fours deep long rfl,
    nibblesOf_bound fours deep long rfl]
  exact Ascending.prefix_iff_between whole

theorem Well.within_eq (well : keys.Well item) (fours : bits % 4 = 0) (deep : bits ≤ 256)
    (long : (bits + 7) / 8 ≤ prefix_.length)
    : keys.within prefix_ bits = keys.sorted.filter fun key => begins key.1 prefix_ bits := by
  unfold KeySet.within
  by_cases none_ : bits = 0
  · subst none_
    rw [KeySet.range, if_pos rfl, List.take_length, List.drop_zero]
    exact (List.filter_eq_self.mpr fun _ _ => rfl).symm
  · rw [range_eq none_, Ascending.slice_eq_filter well.ordered]
    refine List.filter_congr fun key _ => ?_
    rw [Bool.eq_iff_iff, decide_eq_true_eq, begins_iff_between fours deep long]

theorem Well.count_eq (well : keys.Well item) (fours : bits % 4 = 0) (deep : bits ≤ 256)
    (long : (bits + 7) / 8 ≤ prefix_.length)
    : keys.count prefix_ bits = (keys.within prefix_ bits).length := by
  have inside : (keys.range prefix_ bits).1 ≤ (keys.range prefix_ bits).2
      ∧ (keys.range prefix_ bits).2 ≤ keys.sorted.length := by
    by_cases none_ : bits = 0
    · rw [KeySet.range, if_pos none_]
      exact ⟨Nat.zero_le _, le_refl _⟩
    · have range : nibblesOf (bound prefix_ bits 0) ≤ nibblesOf (bound prefix_ bits 0xff) := by
        rw [nibblesOf_bound fours deep long rfl, nibblesOf_bound fours deep long rfl]
        exact ((Ascending.prefix_iff_between (by simp)).mp (List.prefix_append _ _)).2
      rw [range_eq none_]
      exact ⟨Ascending.place_le_placeAfter well.ordered range, Ascending.placeAfter_le⟩
  unfold KeySet.count KeySet.within
  rw [List.length_drop, List.length_take]
  omega

/-- A key of a sub-range is one of the range, with that next nibble. -/
theorem begins_child (fours : bits % 4 = 0) (deep : bits ≤ MAX_BITS) (long : (bits + 7) / 8 ≤ prefix_.length)
    (i : Nibble)
    : begins key.1 (child prefix_ bits i) (bits + 4) = true
      ↔ begins key.1 prefix_ bits = true ∧ nibble key.1 bits = i := by
  unfold MAX_BITS at deep
  have enough : bits / 4 < (nibbles key).length := by
    rw [nibbles_eq, length_nibblesOf, key.2]
    omega
  have next : (nibbles key)[bits / 4]? = some (nibble key.1 bits) := by
    have at_ : 4 * (bits / 4) = bits := by omega
    rw [← at_, nibble_eq, at_, List.getElem?_eq_getElem enough, ← List.getD_eq_getElem _ 0 enough]
    rfl
  rw [begins_iff (by omega) length_child.ge (by rw [key.2]; omega), rangeOf_child fours long,
    begins_iff fours long (by rw [key.2]; omega), ← nibbles_eq, concat_prefix_iff, length_rangeOf long, next,
    Option.some_inj]

/-- Each key is counted in its part. -/
theorem foldlM_countIn {list : List LogKey} (there : ∀ key ∈ list, key ∈ keys.entries.keys) (out : Nibble → Part)
    : list.foldlM (keys.countIn bits) out
      = some fun i =>
        ⟨(out i).count + (list.filter fun key => nibble key.1 bits = i).length,
          (out i).digest ^^^ xors ((list.filter fun key => nibble key.1 bits = i).map keys.itemAt)⟩ := by
  induction list generalizing out with
  | nil => simp [pure]
  | cons key list ih =>
      obtain ⟨held, found⟩ := Option.isSome_iff_exists.mp (Dict.mem_keys_iff.mp (there key (.head _)))
      have item : keys.itemAt key = held.item := by
        rw [itemAt, found]
        rfl
      have counted : keys.countIn bits out key
          = some (Function.update out (nibble key.1 bits)
            ⟨(out (nibble key.1 bits)).count + 1, (out (nibble key.1 bits)).digest ^^^ held.item⟩) := by
        rw [countIn, found]
        rfl
      rw [List.foldlM_cons, counted, Option.bind_eq_bind, Option.bind_some, ih fun key mem => there key (.tail _ mem)]
      congr 1
      funext i
      by_cases here : nibble key.1 bits = i
      · subst here
        simp only [Function.update_self, List.filter_cons, decide_true, if_true, List.length_cons, List.map_cons,
          xors_cons, item, BitVec.xor_assoc, Nat.add_assoc, Nat.add_comm 1]
      · simp only [Function.update_of_ne (fun same => here same.symm), List.filter_cons, here, decide_false,
          Bool.false_eq_true, if_false]

/-- Whatever was set and deleted, what is reported of a range is what is held of it. -/
theorem Well.reports (well : keys.Well item) (range : Prefix) : ∃ parts, keys.Reports range parts := by
  obtain ⟨prefix_, bits, fours, deep, long⟩ := range
  have deep' : bits ≤ 256 := deep.trans (by decide)
  have fours' : (bits + 4) % 4 = 0 := by omega
  have deeper : bits + 4 ≤ 256 := Nat.add_le_add_right deep 4
  have within := well.within_eq fours deep' long
  have count := well.count_eq fours deep' long
  have under (i : Nibble) : keys.within (child prefix_ bits i) (bits + 4)
      = keys.sorted.filter fun key => begins key.1 (child prefix_ bits i) (bits + 4) :=
    well.within_eq fours' deeper length_child.ge
  have child_ (i : Nibble) : keys.within (child prefix_ bits i) (bits + 4)
      = (keys.within prefix_ bits).filter fun key => nibble key.1 bits = i := by
    rw [under, within, List.filter_filter]
    refine List.filter_congr fun key _ => ?_
    rw [Bool.eq_iff_iff, begins_child fours deep long, Bool.and_eq_true, decide_eq_true_eq, and_comm]
  have there (key : LogKey) (mem : key ∈ keys.within prefix_ bits) : key ∈ keys.entries.keys := by
    rw [within] at mem
    exact (well.held key).mp (List.mem_of_mem_filter mem)
  refine ⟨_, within, count, foldlM_countIn there _, child_, under, fun i => ?_, fun i => ?_, ?_, ?_⟩
  · rw [well.count_eq fours' deeper length_child.ge, child_]
    simp
  · rw [child_]
    simp
  · rw [count]
    simp only [Nat.zero_add]
    rw [sum_length_filter (List.nodup_finRange 16) fun _ _ => List.mem_finRange _]
  · have none_ (word : BitVec 256) : 0 ^^^ word = word := BitVec.zero_xor
    simp only [none_]
    exact xors_filter (List.nodup_finRange 16) fun _ _ => List.mem_finRange _

end Reports

/-- Whatever keys are set and deleted, they are kept sorted with their digest, and each range is
reported as the keys in it, parted among its sixteen sub-ranges.
-/
theorem keys_well (ops : List Op)
    : (ops.foldl (apply item) {}).Well item
      ∧ ∀ range : Prefix, ∃ parts, (ops.foldl (apply item) {}).Reports range parts :=
  ⟨well_foldl ops, fun range => (well_foldl ops).reports range⟩

end KeySet

end Hypergraph.Ranges
