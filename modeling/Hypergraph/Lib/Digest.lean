import Hypergraph.Lib.Dict
import Mathlib.Data.BitVec

/-! Digests of entries: the words of all of them, one xored onto the other. Their order is no matter,
an entry's word is put in and taken out by xoring it on, and the digests of a list's parts make that
of the list.
-/

namespace Digest

open Js

variable {w : Nat} {κ α : Type} [DecidableEq κ]

def xors (words : List (BitVec w)) : BitVec w := words.foldr (· ^^^ ·) 0

section Xors

variable {words others : List (BitVec w)} {word : BitVec w}

@[simp]
theorem xors_nil : xors ([] : List (BitVec w)) = 0 := rfl

@[simp]
theorem xors_cons : xors (word :: words) = word ^^^ xors words := rfl

@[simp]
theorem xors_append : xors (words ++ others) = xors words ^^^ xors others := by
  induction words with
  | nil => simp
  | cons word words ih => rw [List.cons_append, xors_cons, xors_cons, ih, BitVec.xor_assoc]

theorem xors_perm (same : words.Perm others) : xors words = xors others := same.foldr_op_eq

end Xors

-- Entries

section Entries

variable {worth : κ × α → BitVec w} {entries : List (κ × α)} {key : κ} {value : α}

/-- The word of what is under a key, if there is anything. -/
def wordAt (worth : κ × α → BitVec w) (entries : List (κ × α)) (key : κ) : BitVec w :=
  (entries.lookup key).elim 0 fun value => worth (key, value)

theorem wordAt_cons {k : κ} {v : α}
    : wordAt worth ((k, v) :: entries) key = if k = key then worth (k, v) else wordAt worth entries key := by
  unfold wordAt
  by_cases here : k = key
  · subst here
    simp
  · have apart : (key == k) = false := by simpa using fun same => here same.symm
    rw [List.lookup_cons, apart, if_neg here]

theorem xors_putEntries
    : xors ((Dict.putEntries key value entries).map worth)
      = xors (entries.map worth) ^^^ wordAt worth entries key ^^^ worth (key, value) := by
  induction entries with
  | nil => simp [Dict.putEntries, wordAt]
  | cons first rest ih =>
      obtain ⟨k, v⟩ := first
      rw [wordAt_cons, Dict.putEntries]
      split
      · rename_i here
        simp only [List.map_cons, xors_cons]
        rw [BitVec.xor_comm (worth (k, v)), BitVec.xor_assoc (xors _), BitVec.xor_self, BitVec.xor_zero, BitVec.xor_comm]
      · rw [List.map_cons, xors_cons, ih, List.map_cons, xors_cons]
        simp only [BitVec.xor_assoc]

/-- Deleting an entry takes out its word. -/
theorem xors_remove (unique : (entries.map Prod.fst).Nodup)
    : xors ((entries.filter fun entry => decide (entry.1 ≠ key)).map worth)
      = xors (entries.map worth) ^^^ wordAt worth entries key := by
  induction entries with
  | nil => simp [wordAt]
  | cons first rest ih =>
      obtain ⟨k, v⟩ := first
      obtain ⟨apart, unique⟩ := List.nodup_cons.mp unique
      rw [wordAt_cons, List.filter_cons]
      by_cases here : k = key
      · subst here
        have kept : rest.filter (fun entry => decide (entry.1 ≠ k)) = rest := by
          refine List.filter_eq_self.mpr fun entry mem => ?_
          simp only [decide_eq_true_eq]
          rintro rfl
          exact apart (List.mem_map.mpr ⟨entry, mem, rfl⟩)
        simp only [ne_eq, not_true_eq_false, decide_false, Bool.false_eq_true, if_false, if_true] at kept ⊢
        rw [kept, List.map_cons, xors_cons, BitVec.xor_comm (worth (k, v)), BitVec.xor_assoc, BitVec.xor_self,
          BitVec.xor_zero]
      · simp only [ne_eq, here, not_false_eq_true, decide_true, if_true, if_false, List.map_cons, xors_cons] at ih ⊢
        rw [ih unique, BitVec.xor_assoc]

end Entries

-- Parts

section Parts

variable {ι : Type} [DecidableEq ι] {names : List ι} {part : α → ι} {list : List α}

theorem flatMap_filter_perm (unique : names.Nodup) (all : ∀ a ∈ list, part a ∈ names)
    : (names.flatMap fun i => list.filter fun a => part a = i).Perm list := by
  induction names generalizing list with
  | nil =>
      cases list with
      | nil => exact .refl []
      | cons a list => cases all a (.head _)
  | cons i names ih =>
      obtain ⟨apart, unique⟩ := List.nodup_cons.mp unique
      have rest := @ih (list.filter fun a => !decide (part a = i)) unique fun a mem => by
        rw [List.mem_filter] at mem
        rcases List.mem_cons.mp (all a mem.1) with same | later
        · simp [same] at mem
        · exact later
      have others : (names.flatMap fun j => (list.filter fun a => !decide (part a = i)).filter fun a => part a = j)
          = names.flatMap fun j => list.filter fun a => part a = j := by
        refine List.flatMap_congr fun j mem => ?_
        rw [List.filter_filter]
        refine List.filter_congr fun a _ => ?_
        rw [Bool.and_eq_left_iff_imp]
        intro same
        rw [decide_eq_true_eq] at same
        simp only [Bool.not_eq_true', decide_eq_false_iff_not, same]
        rintro rfl
        exact apart mem
      rw [others] at rest
      exact (rest.append_left _).trans (List.filter_append_perm _ list)

theorem sum_length_filter (unique : names.Nodup) (all : ∀ a ∈ list, part a ∈ names)
    : (names.map fun i => (list.filter fun a => part a = i).length).sum = list.length := by
  rw [← (flatMap_filter_perm unique all).length_eq, List.length_flatMap]

/-- The parts' digests xor to the list's. -/
theorem xors_filter {worth : α → BitVec w} (unique : names.Nodup) (all : ∀ a ∈ list, part a ∈ names)
    : xors (names.map fun i => xors ((list.filter fun a => part a = i).map worth)) = xors (list.map worth) := by
  rw [← xors_perm ((flatMap_filter_perm unique all).map worth)]
  clear unique all
  induction names with
  | nil => rfl
  | cons i names ih => rw [List.map_cons, xors_cons, ih, List.flatMap_cons, List.map_append, xors_append]

end Parts

end Digest
