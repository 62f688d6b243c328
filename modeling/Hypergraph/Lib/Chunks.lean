import Mathlib.Data.List.Induction
import Mathlib.Data.List.ReduceOption

/-! Inputs taken in chunks: what steps keep aside is settled before each chunk's end, so that only
the inputs tell what a run ends with where settling early makes no difference.
-/

namespace Chunks

variable {σ ε : Type}

/-- The inputs of a call, with `none` where what is kept aside is settled: before the input that a
chunk has no place for, and at the end.
-/
def steps (size : Nat) : (pending : Nat) → List ε → List (Option ε)
  | _, [] => [none]
  | pending, e :: rest =>
      if pending + 1 < size then some e :: steps size (pending + 1) rest
      else none :: some e :: steps size 0 rest

/-- Several calls, each with the size of its chunks. -/
def calls (given : List (Nat × List ε)) : List (Option ε) :=
  given.flatMap fun call => steps call.1 0 call.2

theorem reduceOption_steps (size pending : Nat) (inputs : List ε)
    : (steps size pending inputs).reduceOption = inputs := by
  induction inputs generalizing pending with
  | nil => rfl
  | cons e rest ih =>
      rw [steps]
      split
      · rw [List.reduceOption_cons_of_some, ih]
      · rw [List.reduceOption_cons_of_none, List.reduceOption_cons_of_some, ih]

theorem reduceOption_calls (given : List (Nat × List ε))
    : (calls given).reduceOption = given.flatMap Prod.snd := by
  induction given with
  | nil => rfl
  | cons call rest ih =>
      rw [calls, List.flatMap_cons, List.reduceOption_append, reduceOption_steps, ← calls, ih,
        List.flatMap_cons]

theorem flatMap_toList {β : Type} (steps : List (Option ε)) (mark : ε → β)
    : (steps.flatMap fun e => e.toList.map mark) = steps.reduceOption.map mark := by
  induction steps with
  | nil => rfl
  | cons e rest ih =>
      rw [List.flatMap_cons, ih]
      cases e with
      | none => rw [List.reduceOption_cons_of_none]; rfl
      | some e => rw [List.reduceOption_cons_of_some]; rfl

variable (step : σ → ε → σ) (settle : σ → σ)

/-- A step of a run: an input, or settling. -/
def taken (s : σ) : Option ε → σ
  | some e => step s e
  | none => settle s

variable {step settle} {inv : σ → Nat → Prop} {fine : ε → Prop} {inputs : List ε} {s : σ}

/-- Settling before some inputs makes no difference once it is settled after them. What it rests on
may need room for the inputs still to come.
-/
theorem settle_foldl (keeps : ∀ s e n, fine e → inv s (n + 1) → inv (step s e) n)
    (settles : ∀ s n, inv s n → inv (settle s) n)
    (late : ∀ s e n, fine e → inv s (n + 1) → settle (step (settle s) e) = settle (step s e))
    (idem : ∀ s, settle (settle s) = settle s) (all : ∀ e ∈ inputs, fine e)
    (start : inv s inputs.length)
    : settle (inputs.foldl step (settle s)) = settle (inputs.foldl step s) := by
  induction inputs generalizing s with
  | nil => exact idem s
  | cons e rest ih =>
      have here := all e (.head _)
      have later : ∀ e ∈ rest, fine e := fun e mem => all e (.tail _ mem)
      have early := ih later (keeps _ e _ here (settles s _ start))
      rw [late s e _ here start] at early
      exact early.symm.trans (ih later (keeps s e _ here start))

/-- A run's settled end is that of its inputs alone. -/
theorem settle_taken (keeps : ∀ s e n, fine e → inv s (n + 1) → inv (step s e) n)
    (settles : ∀ s n, inv s n → inv (settle s) n)
    (late : ∀ s e n, fine e → inv s (n + 1) → settle (step (settle s) e) = settle (step s e))
    (idem : ∀ s, settle (settle s) = settle s) {steps : List (Option ε)}
    (all : ∀ e ∈ steps.reduceOption, fine e) (start : inv s steps.reduceOption.length)
    : settle (steps.foldl (taken step settle) s) = settle (steps.reduceOption.foldl step s) := by
  induction steps generalizing s with
  | nil => rfl
  | cons e rest ih =>
      cases e with
      | none =>
          rw [List.reduceOption_cons_of_none] at all start ⊢
          exact (ih all (settles s _ start)).trans
            (settle_foldl keeps settles late idem all start)
      | some e =>
          rw [List.reduceOption_cons_of_some] at all start ⊢
          exact ih (fun e mem => all e (.tail _ mem)) (keeps s e _ (all e (.head _)) start)

/-- After calls everything is settled, if it was at the start. -/
theorem settle_calls (idem : ∀ s, settle (settle s) = settle s) (start : settle s = s)
    (given : List (Nat × List ε))
    : settle ((calls given).foldl (taken step settle) s)
      = (calls given).foldl (taken step settle) s := by
  have ends : ∀ (size pending : Nat) (inputs : List ε) (s : σ),
      settle ((steps size pending inputs).foldl (taken step settle) s)
        = (steps size pending inputs).foldl (taken step settle) s := by
    intro size pending inputs
    induction inputs generalizing pending with
    | nil => exact fun s => idem s
    | cons e rest ih =>
        intro s
        rw [steps]
        split
        · exact ih _ _
        · exact ih _ _
  induction given using List.reverseRecOn with
  | nil => exact start
  | append_singleton given call _ =>
      rw [calls, List.flatMap_append, List.foldl_append, List.flatMap_singleton]
      exact ends _ _ _ _

end Chunks
