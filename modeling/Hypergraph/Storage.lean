import Hypergraph.Lib.Dict
import Hypergraph.Lib.Proportion
import Mathlib.Algebra.Order.Ring.Rat

/-! The storage budget (`shares` in `lib/storage.js`): one for the whole app, a space's own taken out
of it, the rest shared by the other spaces in proportion to what each holds. Bytes are exact here.
-/

namespace Hypergraph.Storage

open Js

-- The shares

structure Space where
  id : String
  /-- What it stores. -/
  used : ℚ≥0
  /-- What it can't drop. -/
  floor : ℚ≥0
  /-- Its own budget. -/
  budget : Option ℚ
  /-- Never dropped at all. -/
  keep : Bool
  deriving DecidableEq

/-- What a space gets before any sharing. -/
def Space.own (s : Space) : Option ℚ :=
  if s.keep then some s.used else s.budget.map fun budget => max budget s.floor

/-- The shares given, what is left, and the spaces that share it. -/
structure Division where
  out : Dict String ℚ
  pool : ℚ
  rest : List Space

/-- A space gets its own, or shares the rest. -/
def Division.take (d : Division) (s : Space) : Division :=
  match s.own with
  | some bytes => { d with out := d.out.put s.id bytes, pool := d.pool - bytes }
  | none => { d with rest := d.rest ++ [s] }

/-- In proportion to what each holds. -/
def share (pool : ℚ) (rest : List Space) (s : Space) : ℚ :=
  Proportion.part (fun s : Space => (s.used : ℚ)) pool rest s

/-- The loop of `shares`, in that many passes: a space whose share would be below what it can't drop
gets that, and the others share what is left.
-/
def divide : Nat → Division → Option (Dict String ℚ)
  | 0, _ => none
  | passes + 1, d =>
      let low := d.rest.filter fun s => share d.pool d.rest s < s.floor
      if low = [] then some (d.rest.foldl (fun out s => out.put s.id (share d.pool d.rest s)) d.out)
      else
        divide passes
          { out := low.foldl (fun out s => out.put s.id s.floor) d.out
            pool := low.foldl (fun pool s => pool - s.floor) d.pool
            rest := d.rest.filter fun s => !low.contains s }

/-- `fixed`: bytes the app uses outside any space. -/
def shares (passes : Nat) (app fixed : ℚ) (spaces : List Space) : Option (Dict String ℚ) :=
  divide passes (spaces.foldl Division.take ⟨.empty, app - fixed, []⟩)

-- What they come to

/-- The spaces without a share of their own. -/
def sharing (spaces : List Space) : List Space := spaces.filter fun s => s.own.isNone

/-- What is left for them. -/
def left (app fixed : ℚ) (spaces : List Space) : ℚ := app - fixed - (spaces.filterMap Space.own).sum

def floors (spaces : List Space) : ℚ := Proportion.floors (fun s : Space => (s.floor : ℚ)) spaces

/-- What spaces were given in all. -/
def given (out : Dict String ℚ) (spaces : List Space) : ℚ :=
  (spaces.map fun s => (out.get? s.id).getD 0).sum

/-- A pool is divided between spaces: all of it, or to each its floor where it doesn't cover them. -/
structure Divided (pool : ℚ) (rest : List Space) (out : Dict String ℚ) : Prop where
  atLeast : ∀ s ∈ rest, ∃ bytes, out.get? s.id = some bytes ∧ s.floor ≤ bytes
  whole : rest ≠ [] → floors rest ≤ pool → given out rest = pool
  short : pool < floors rest → ∀ s ∈ rest, out.get? s.id = some ↑s.floor

/-- What every space gets. -/
structure Shared (app fixed : ℚ) (spaces : List Space) (out : Dict String ℚ) : Prop where
  kept : ∀ s ∈ spaces, s.keep = true → out.get? s.id = some ↑s.used
  budgeted
    : ∀ s ∈ spaces, s.keep = false → ∀ budget, s.budget = some budget
      → out.get? s.id = some (max budget s.floor)
  divided : Divided (left app fixed spaces) (sharing spaces) out

variable {out : Dict String ℚ} {pool : ℚ} {rest spaces : List Space} {s : Space}

theorem foldl_pool : rest.foldl (fun pool s => pool - (s.floor : ℚ)) pool = pool - floors rest := by
  unfold floors Proportion.floors
  induction rest generalizing pool with
  | nil => simp
  | cons s rest ih => rw [List.foldl_cons, ih, List.map_cons, List.sum_cons, sub_sub]

theorem given_filter {has : Space → Bool}
    : given out (rest.filter has) + given out (rest.filter fun s => !has s) = given out rest :=
  Proportion.floors_filter

-- The loop

section Loop

theorem used_nonneg (s : Space) : (0 : ℚ) ≤ s.used := s.used.2

theorem floor_nonneg (s : Space) : (0 : ℚ) ≤ s.floor := s.floor.2

/-- Where no share is below its floor, each gets the share. -/
theorem divided_of_no_low (unique : (rest.map Space.id).Nodup)
    (enough : ∀ s ∈ rest, s.floor ≤ share pool rest s)
    : Divided pool rest (rest.foldl (fun out s => out.put s.id (share pool rest s)) out) := by
  have each (s : Space) (mem : s ∈ rest)
      : (rest.foldl (fun out s => out.put s.id (share pool rest s)) out).get? s.id = some (share pool rest s) :=
    Dict.get?_foldl_put_of_mem unique mem
  refine ⟨fun s mem => ⟨_, each s mem, enough s mem⟩, fun filled covers => ?_, fun short s mem => ?_⟩
  · have some_ : 0 ≤ pool := le_trans (List.sum_nonneg fun x there => by
      obtain ⟨s, _, rfl⟩ := List.mem_map.mp there
      exact floor_nonneg s) covers
    have shares_ : given (rest.foldl (fun out s => out.put s.id (share pool rest s)) out) rest
        = (rest.map (share pool rest)).sum :=
      congrArg List.sum (List.map_congr_left fun s mem => by rw [each s mem, Option.getD_some])
    rw [shares_]
    exact Proportion.sum_part (fun s _ => used_nonneg s) filled some_
  · rw [each s mem]
    exact congrArg some
      (Proportion.part_eq_floor (fun s _ => used_nonneg s) (fun s _ => floor_nonneg s) enough short mem)

/-- The spaces whose share is below what they can't drop. -/
def lows (pool : ℚ) (rest : List Space) : List Space := rest.filter fun s => share pool rest s < s.floor

theorem divide_of_low {passes : Nat} (some_ : lows pool rest ≠ [])
    : divide (passes + 1) ⟨out, pool, rest⟩
      = divide passes
          { out := (lows pool rest).foldl (fun out s => out.put s.id s.floor) out
            pool := pool - floors (lows pool rest)
            rest := rest.filter fun s => !decide (share pool rest s < s.floor) } := by
  have others : (rest.filter fun s => !(lows pool rest).contains s)
      = rest.filter fun s => !decide (share pool rest s < s.floor) := by
    refine List.filter_congr fun s mem => congrArg _ ?_
    rw [Bool.eq_iff_iff, List.contains_iff_mem, decide_eq_true_iff]
    unfold lows
    rw [List.mem_filter, decide_eq_true_iff]
    exact and_iff_right mem
  rw [← foldl_pool, ← others]
  exact if_neg some_

/-- What comes of a pass with some below their floor, the others' shares divided. -/
theorem divided_of_low {out' : Dict String ℚ}
    (others : Divided (pool - floors (lows pool rest)) (rest.filter fun s => !decide (share pool rest s < s.floor))
      out')
    (fixed : ∀ s ∈ lows pool rest, out'.get? s.id = some ↑s.floor)
    : Divided pool rest out' := by
  have split : floors (lows pool rest)
      + floors (rest.filter fun s => !decide (share pool rest s < s.floor)) = floors rest :=
    Proportion.floors_filter
  have either (s : Space) (mem : s ∈ rest)
      : s ∈ lows pool rest ∨ s ∈ rest.filter fun s => !decide (share pool rest s < s.floor) := by
    by_cases below : share pool rest s < s.floor
    · exact .inl (List.mem_filter.mpr ⟨mem, decide_eq_true below⟩)
    · exact .inr (List.mem_filter.mpr ⟨mem, by rw [decide_eq_false below]; rfl⟩)
  refine ⟨fun s mem => ?_, fun filled covers => ?_, fun short s mem => ?_⟩
  · rcases either s mem with low | other
    · exact ⟨_, fixed s low, le_refl _⟩
    · exact others.atLeast s other
  · obtain ⟨s, mem, enough⟩ := Proportion.exists_not_low (fun s _ => used_nonneg s) (fun s _ => floor_nonneg s)
      filled covers
    have enough : s.floor ≤ share pool rest s := enough
    have other : s ∈ rest.filter fun s => !decide (share pool rest s < s.floor) :=
      List.mem_filter.mpr ⟨mem, by rw [decide_eq_false (not_lt.mpr enough)]; rfl⟩
    have low : given out' (lows pool rest) = floors (lows pool rest) :=
      congrArg List.sum (List.map_congr_left fun s mem => by rw [fixed s mem, Option.getD_some])
    have rest_ := others.whole (List.ne_nil_of_mem other) (by rw [← split] at covers; exact le_sub_left_of_add_le covers)
    calc given out' rest
        = given out' (lows pool rest) + given out' (rest.filter fun s => !decide (share pool rest s < s.floor)) :=
          given_filter.symm
      _ = floors (lows pool rest) + (pool - floors (lows pool rest)) := by rw [low, rest_]
      _ = pool := add_sub_cancel _ _
  · rcases either s mem with low | other
    · exact fixed s low
    · exact others.short (by rw [← split] at short; exact sub_left_lt_of_lt_add short) s other

/-- Each pass with a share below its floor leaves fewer spaces to share, so one pass more than there
are spaces is enough; induction on their number.
-/
theorem divide_ends (out : Dict String ℚ) (pool : ℚ) (unique : (rest.map Space.id).Nodup)
    : ∃ out', (∀ passes, rest.length < passes → divide passes ⟨out, pool, rest⟩ = some out')
      ∧ Divided pool rest out' ∧ ∀ id, (∀ s ∈ rest, s.id ≠ id) → out'.get? id = out.get? id := by
  induction size : rest.length using Nat.strong_induction_on generalizing out pool rest with
  | _ n ih =>
      by_cases none_ : lows pool rest = []
      · refine ⟨_, fun passes more => ?_, divided_of_no_low unique fun s mem => ?_,
          fun id apart => Dict.get?_foldl_put_of_ne apart⟩
        · obtain ⟨passes, rfl⟩ := Nat.exists_eq_add_of_le' (Nat.one_le_of_lt more)
          exact if_pos none_
        · refine not_lt.mp fun below => ?_
          exact List.ne_nil_of_mem (List.mem_filter.mpr ⟨mem, decide_eq_true below⟩) none_
      · obtain ⟨low, mem⟩ := List.exists_mem_of_ne_nil _ none_
        obtain ⟨there, below⟩ := List.mem_filter.mp mem
        have fewer : (rest.filter fun s => !decide (share pool rest s < s.floor)).length < n := by
          rw [← size]
          exact List.length_filter_lt_length_iff_exists.mpr ⟨low, there, by rw [below]; exact Bool.false_ne_true⟩
        have names (has : Space → Bool) : ((rest.filter has).map Space.id).Nodup :=
          unique.sublist (List.filter_sublist.map _)
        obtain ⟨out', ends, divided, same⟩ := ih _ fewer
          ((lows pool rest).foldl (fun out s => out.put s.id s.floor) out) (pool - floors (lows pool rest)) (names _) rfl
        refine ⟨out', fun passes more => ?_, divided_of_low divided fun s mem => ?_, fun id apart => ?_⟩
        · obtain ⟨passes, rfl⟩ := Nat.exists_eq_add_of_le' (Nat.one_le_of_lt more)
          exact (divide_of_low none_).trans (ends passes (by omega))
        · rw [same s.id fun other kept is => ?_]
          · exact Dict.get?_foldl_put_of_mem (names _) mem
          · obtain ⟨mem', kept⟩ := List.mem_filter.mp kept
            obtain ⟨mem, below⟩ := List.mem_filter.mp mem
            rw [List.inj_on_of_nodup_map unique mem' mem is, below] at kept
            cases kept
        · rw [same id fun s mem => apart s (List.mem_of_mem_filter mem)]
          exact Dict.get?_foldl_put_of_ne fun s mem => apart s (List.mem_of_mem_filter mem)

end Loop

-- All the shares

theorem foldl_take {d : Division}
    : spaces.foldl Division.take d
      = { out := (spaces.filter fun s => s.own.isSome).foldl (fun out s => out.put s.id (s.own.getD 0)) d.out
          pool := d.pool - (spaces.filterMap Space.own).sum
          rest := d.rest ++ sharing spaces } := by
  unfold sharing
  induction spaces generalizing d with
  | nil => simp
  | cons s later ih =>
      rw [List.foldl_cons, ih]
      unfold Division.take
      cases is : s.own with
      | none => simp [is]
      | some bytes => simp [is, sub_sub]

/-- The shares are given in a number of passes: what a space keeps whole, budgets at no less than the
floor, and the rest divided.
-/
theorem shares_end (app fixed : ℚ) (unique : (spaces.map Space.id).Nodup)
    : ∃ out, (∀ passes, spaces.length < passes → shares passes app fixed spaces = some out)
        ∧ Shared app fixed spaces out := by
  have names (has : Space → Bool) : ((spaces.filter has).map Space.id).Nodup :=
    unique.sublist (List.filter_sublist.map _)
  obtain ⟨out, ends, divided, same⟩ := divide_ends
    ((spaces.filter fun s => s.own.isSome).foldl (fun out s => out.put s.id (s.own.getD 0)) .empty)
    (left app fixed spaces) (names fun s => s.own.isNone)
  -- A space with its own isn't among those that share.
  have own (s : Space) (mem : s ∈ spaces) (bytes : ℚ) (is : s.own = some bytes) : out.get? s.id = some bytes := by
    rw [same s.id fun other shares_ named => ?_]
    · have given_ : s ∈ spaces.filter fun s => s.own.isSome := List.mem_filter.mpr ⟨mem, by rw [is]; rfl⟩
      rw [Dict.get?_foldl_put_of_mem (names _) given_, is, Option.getD_some]
    · obtain ⟨there, none_⟩ := List.mem_filter.mp shares_
      rw [List.inj_on_of_nodup_map unique there mem named, is] at none_
      cases none_
  refine ⟨out, fun passes more => ?_, fun s mem keep => own s mem _ (if_pos keep), fun s mem drops budget is => ?_,
    divided⟩
  · have fewer : (sharing spaces).length ≤ spaces.length := List.length_filter_le _ _
    unfold shares
    rw [foldl_take]
    exact ends passes (lt_of_le_of_lt fewer more)
  · refine own s mem _ ?_
    unfold Space.own
    rw [drops, is]
    rfl

/-- The personal space, one with its own budget, and two that share the rest, one below its floor. -/
def home : List Space :=
  [⟨"personal", 10, 10, none, true⟩, ⟨"band", 5, 5, some 20, false⟩, ⟨"news", 90, 0, none, false⟩,
    ⟨"club", 10, 30, none, false⟩]

theorem home_shares
    : ∃ out, (∀ passes, home.length < passes → shares passes 130 0 home = some out) ∧ Shared 130 0 home out :=
  shares_end 130 0 (by decide)

example : (shares 2 130 0 home).map Dict.entries
    = some [("personal", 10), ("band", 20), ("club", 30), ("news", 70)] := by
  decide +kernel

end Hypergraph.Storage
