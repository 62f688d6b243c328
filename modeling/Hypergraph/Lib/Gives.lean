import Mathlib.Tactic.Common

/-! Steps that may throw beside the same steps without: each throws, or makes the same. -/

namespace Faults

variable {σ τ ε : Type}

/-- It throws, or makes this. -/
def Gives (made : Option σ) (s : σ) : Prop := made = none ∨ made = some s

variable {made other : Option σ} {s t : σ} {c : Prop} [Decidable c]

theorem Gives.ite (gives : Gives made s) (otherwise : Gives other t)
    : Gives (if c then made else other) (if c then s else t) := by
  split
  · exact gives
  · exact otherwise

theorem Gives.unless (gives : Gives made s) : Gives (if c then none else made) s := by
  split
  · exact .inl rfl
  · exact gives

theorem Gives.map (gives : Gives made s) (f : σ → τ) : Gives (made.map f) (f s) :=
  gives.imp (fun is => by rw [is]; rfl) fun is => by rw [is]; rfl

theorem Gives.bind {next : σ → Option τ} {after : τ} (gives : Gives made s) (then_ : Gives (next s) after)
    : Gives (made >>= next) after := by
  rcases gives with is | is
  · exact .inl (by rw [is]; rfl)
  · rw [is]
    exact then_

/-- Induction on the list. -/
theorem gives_foldlM {step : σ → ε → Option σ} {plain : σ → ε → σ}
    (each : ∀ s e, Gives (step s e) (plain s e)) (list : List ε)
    : Gives (list.foldlM step s) (list.foldl plain s) := by
  induction list generalizing s with
  | nil => exact .inr rfl
  | cons e rest ih =>
      rw [List.foldlM_cons]
      exact (each s e).bind ih

end Faults
