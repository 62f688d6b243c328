import Mathlib.Tactic.Common

/-! Runs of a step function over a list of inputs: what holds at each step, and what a step that
keeps it keeps over the whole run.
-/

namespace Runs

variable {σ ε : Type} (step : σ → ε → σ)

/-- Something holds at each step, of the state before it and the input. -/
def Each (holds : σ → ε → Prop) : σ → List ε → Prop
  | _, [] => True
  | s, e :: rest => holds s e ∧ Each holds (step s e) rest

instance Each.decidable {holds : σ → ε → Prop} [∀ s e, Decidable (holds s e)]
    : ∀ s log, Decidable (Each step holds s log)
  | _, [] => inferInstanceAs (Decidable True)
  | s, e :: rest =>
      @instDecidableAnd _ _ inferInstance (Each.decidable (step s e) rest)

variable {step} {holds holds' : σ → ε → Prop} {inv : σ → Prop} {s : σ} {e last : ε}
  {first rest log before after : List ε}

theorem each_congr (same : ∀ s e, holds s e ↔ holds' s e)
    : Each step holds s log ↔ Each step holds' s log := by
  induction log generalizing s with
  | nil => exact Iff.rfl
  | cons e rest ih => exact and_congr (same s e) ih

theorem Each.keeps (keeps : ∀ s e, inv s → holds s e → inv (step s e)) (start : inv s)
    (each : Each step holds s log)
    : inv (log.foldl step s) := by
  induction log generalizing s with
  | nil => exact start
  | cons e rest ih => exact ih (keeps s e start each.1) each.2

variable (inv) in
theorem keeps (keeps : ∀ s e, inv s → inv (step s e)) (log : List ε) (start : inv s)
    : inv (log.foldl step s) := by
  induction log generalizing s with
  | nil => exact start
  | cons e rest ih => exact ih (keeps s e start)

theorem Each.and {of : ε → Prop} (each : Each step holds s log) (all : ∀ e ∈ log, of e)
    : Each step (fun s e => holds s e ∧ of e) s log := by
  induction log generalizing s with
  | nil => trivial
  | cons e rest ih =>
      exact ⟨⟨each.1, all e (.head _)⟩, ih each.2 fun e mem => all e (.tail _ mem)⟩

theorem each_append
    : Each step holds s (first ++ rest)
      ↔ Each step holds s first ∧ Each step holds (first.foldl step s) rest := by
  induction first generalizing s with
  | nil => simp [Each]
  | cons e first ih => simp [Each, ih, and_assoc]

/-- What is brought about was brought about at some step, or stood at the start. -/
theorem exists_step (by_ : ∀ s e, inv (step s e) → inv s ∨ holds s e) (now : inv (log.foldl step s))
    : inv s ∨ ∃ before e after, log = before ++ e :: after ∧ holds (before.foldl step s) e := by
  induction log generalizing s with
  | nil => exact .inl now
  | cons e rest ih =>
      rcases ih now with here | ⟨before, e', after, is, made⟩
      · rcases by_ s e here with already | made
        · exact .inl already
        · exact .inr ⟨[], e, rest, rfl, made⟩
      · exact .inr ⟨e :: before, e', after, by rw [is]; rfl, made⟩

/-- A place in a list and one more is a place in the list, or the last. -/
theorem append_singleton_eq_iff
    : log ++ [last] = before ++ e :: after
      ↔ (∃ after', log = before ++ e :: after' ∧ after = after' ++ [last])
        ∨ before = log ∧ e = last ∧ after = [] := by
  constructor
  · intro same
    rcases List.eq_nil_or_concat after with rfl | ⟨after', last', rfl⟩
    · right
      obtain ⟨same, same'⟩ := List.append_inj' same rfl
      exact ⟨same.symm, (List.singleton_inj.mp same').symm, rfl⟩
    · left
      rw [List.concat_eq_append] at same ⊢
      rw [← List.cons_append, ← List.append_assoc] at same
      obtain ⟨same, same'⟩ := List.append_inj' same rfl
      exact ⟨after', same, by rw [List.singleton_inj.mp same']⟩
  · rintro (⟨after', rfl, rfl⟩ | ⟨rfl, rfl, rfl⟩)
    · simp
    · rfl

-- What steps give

section Given

variable {β τ : Type} (step)

/-- What the steps of a run give, one after the other. -/
def given (out : σ → ε → List β) : σ → List ε → List β
  | _, [] => []
  | s, e :: rest => out s e ++ given out (step s e) rest

variable {step} {out : σ → ε → List β}

/-- What each step puts into a part of the state, the run does. -/
theorem view_given (view : σ → τ) (put : τ → List β → τ) (nothing : ∀ t, put t [] = t)
    (more : ∀ t first rest, put t (first ++ rest) = put (put t first) rest)
    (each : ∀ s e, view (step s e) = put (view s) (out s e))
    : view (log.foldl step s) = put (view s) (given step out s log) := by
  induction log generalizing s with
  | nil => exact (nothing _).symm
  | cons e rest ih => rw [List.foldl_cons, ih, given, more, each]

/-- What is read of what a run gives is part of what is read of its inputs, where it is so of a step. -/
theorem sublist_given {γ : Type} {mark : β → γ} {marks : ε → List γ}
    (each : ∀ s e, ((out s e).map mark).Sublist (marks e))
    : ((given step out s log).map mark).Sublist (log.flatMap marks) := by
  induction log generalizing s with
  | nil => exact List.Sublist.refl _
  | cons e rest ih =>
      rw [given, List.map_append, List.flatMap_cons]
      exact (each s e).append ih

end Given

-- Runs that may stop

section Stopping

variable (next : σ → ε → Option σ)

/-- Something holds of each input and the state it meets, as far as the run goes. -/
def AsFar (holds : σ → ε → Prop) : σ → List ε → Prop
  | _, [] => True
  | s, e :: rest => holds s e ∧ ∀ s', next s e = some s' → AsFar holds s' rest

variable {next} {s' : σ}

/-- A run goes to its end where no step stops it. Induction on the inputs. -/
theorem isSome_foldlM_iff (stops : ∀ s e, (next s e).isSome ↔ holds s e)
    : (log.foldlM next s).isSome ↔ AsFar next holds s log := by
  induction log generalizing s with
  | nil => simp [AsFar]
  | cons e rest ih =>
      rw [List.foldlM_cons, AsFar, ← stops]
      cases next s e with
      | none => simp
      | some s' => simpa using ih

variable (inv) in
theorem AsFar.keeps (keeps : ∀ s e s', inv s → holds s e → next s e = some s' → inv s') (start : inv s)
    (far : AsFar next holds s log) (ran : log.foldlM next s = some s')
    : inv s' := by
  induction log generalizing s with
  | nil =>
      cases ran
      exact start
  | cons e rest ih =>
      rw [List.foldlM_cons, Option.bind_eq_bind, Option.bind_eq_some_iff] at ran
      obtain ⟨s'', step, ran⟩ := ran
      exact ih (keeps s e s'' start far.1 step) (far.2 s'' step) ran

theorem asFar_of_forall {of : ε → Prop} (all : ∀ e ∈ log, of e)
    : AsFar next (fun _ e => of e) s log := by
  induction log generalizing s with
  | nil => trivial
  | cons e rest ih => exact ⟨all e (.head _), fun _ _ => ih fun e mem => all e (.tail _ mem)⟩

theorem AsFar.and (far : AsFar next holds s log) (far' : AsFar next holds' s log)
    : AsFar next (fun s e => holds s e ∧ holds' s e) s log := by
  induction log generalizing s with
  | nil => trivial
  | cons e rest ih =>
      exact ⟨⟨far.1, far'.1⟩, fun s' step => ih (far.2 s' step) (far'.2 s' step)⟩

theorem AsFar.of_append (far : AsFar next holds s (first ++ rest)) : AsFar next holds s first := by
  induction first generalizing s with
  | nil => trivial
  | cons e first ih => exact ⟨far.1, fun s' step => ih (far.2 s' step)⟩

/-- A step is made, to a state that something holds of. -/
def Ends (inv : σ → Prop) (made : Option σ) : Prop := ∃ s, made = some s ∧ inv s

theorem Ends.bind {τ : Type} {inv' : τ → Prop} {made : Option σ} {then_ : σ → Option τ}
    (ends : Ends inv made) (rest : ∀ s, inv s → Ends inv' (then_ s))
    : Ends inv' (made.bind then_) := by
  obtain ⟨s, rfl, held⟩ := ends
  exact rest s held

theorem Ends.ite {turned : Prop} [Decidable turned] {made : Option σ} (stays : inv s)
    (otherwise : ¬ turned → Ends inv made)
    : Ends inv (if turned then some s else made) := by
  split
  · exact ⟨s, rfl, stays⟩
  · rename_i passes
    exact otherwise passes

variable (inv) in
theorem AsFar.ends (each : ∀ s e, inv s → holds s e → Ends inv (next s e)) (start : inv s)
    (far : AsFar next holds s log)
    : Ends inv (log.foldlM next s) := by
  induction log generalizing s with
  | nil => exact ⟨s, rfl, start⟩
  | cons e rest ih =>
      obtain ⟨s', step, kept⟩ := each s e start far.1
      rw [List.foldlM_cons, step]
      exact ih kept (far.2 s' step)

variable (inv) in
theorem foldlM_keeps (keeps : ∀ s e s', inv s → next s e = some s' → inv s') (start : inv s)
    (ran : log.foldlM next s = some s')
    : inv s' := by
  induction log generalizing s with
  | nil =>
      cases ran
      exact start
  | cons e rest ih =>
      rw [List.foldlM_cons, Option.bind_eq_bind, Option.bind_eq_some_iff] at ran
      obtain ⟨s'', step, ran⟩ := ran
      exact ih (keeps s e s'' start step) ran

end Stopping

end Runs
