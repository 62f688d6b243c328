import Mathlib.Data.List.Basic

/-! Steps run for every item of a list: what they make together, from what each makes. -/

namespace Mapping

variable {α β γ : Type}

/-- Where no step does more than return, mapping by them is mapping; induction on the list. -/
theorem mapM_of_pure {m : Type → Type} [Monad m] [LawfulMonad m] {list : List α} {step : α → m β}
    {value : α → β} (each : ∀ a ∈ list, step a = pure (value a))
    : list.mapM step = pure (list.map value) := by
  induction list with
  | nil => rfl
  | cons a rest ih =>
      rw [List.mapM_cons, each a (.head _), ih fun b mem => each b (.tail _ mem)]
      simp only [pure_bind, List.map_cons]

/-- What a run that succeeds for every item lists. -/
theorem mem_of_mapM {list : List α} {results : List β} {run : α → Option β}
    (ran : list.mapM run = some results) {result : β}
    : result ∈ results ↔ ∃ item ∈ list, run item = some result := by
  induction list generalizing results with
  | nil =>
      rw [List.mapM_nil] at ran
      cases ran
      simp
  | cons first rest ih =>
      rw [List.mapM_cons] at ran
      simp only [Option.bind_eq_bind, Option.bind_eq_some_iff, Option.pure_def,
        Option.some.injEq] at ran
      obtain ⟨made, here, others, there, rfl⟩ := ran
      rw [List.mem_cons, ih there]
      simp [here, eq_comm]

/-- A run that succeeds, succeeds for each item. -/
theorem exists_of_mapM {list : List α} {results : List β} {run : α → Option β}
    (ran : list.mapM run = some results) {item : α} (listed : item ∈ list)
    : ∃ result, run item = some result := by
  induction list generalizing results with
  | nil => cases listed
  | cons first rest ih =>
      rw [List.mapM_cons] at ran
      simp only [Option.bind_eq_bind, Option.bind_eq_some_iff] at ran
      obtain ⟨made, here, others, there, _⟩ := ran
      rcases List.mem_cons.mp listed with rfl | later
      · exact ⟨made, here⟩
      · exact ih there later

/-- A list's items are each made by runs with enough fuel; induction on the list. -/
theorem exists_mapM {list : List α} {run : Nat → α → Option γ} {key : β → α} {make : β → γ} {good : β → Prop}
    (each : ∀ a ∈ list, ∃ b, key b = a ∧ good b ∧ ∃ enough, ∀ fuel ≥ enough, run fuel a = some (make b))
    : ∃ made : List β, made.map key = list ∧ (∀ b ∈ made, good b)
      ∧ ∃ enough, ∀ fuel ≥ enough, list.mapM (run fuel) = some (made.map make) := by
  induction list with
  | nil => exact ⟨[], rfl, (fun _ mem => nomatch mem), 0, fun _ _ => rfl⟩
  | cons a rest ih =>
      obtain ⟨b, own, fine, enough, gives⟩ := each a (.head _)
      obtain ⟨made, keys, all, enough', gives'⟩ := ih fun a mem => each a (.tail _ mem)
      refine ⟨b :: made, ?_, ?_, max enough enough', fun fuel more => ?_⟩
      · rw [List.map_cons, own, keys]
      · exact List.forall_mem_cons.mpr ⟨fine, all⟩
      · rw [List.mapM_cons, gives fuel (Nat.le_trans (Nat.le_max_left _ _) more),
          gives' fuel (Nat.le_trans (Nat.le_max_right _ _) more)]
        rfl

end Mapping
