import Mathlib.Tactic.Common

/-! Loops that go over a list again and again, until a whole pass changes nothing:
`for (let more = true; more;) { more = false; for (const item of list) … }`.
-/

namespace Js

variable {σ α : Type} (step : σ → α → Option σ)

/-- One item: the state it leads to, if it changes anything. -/
def passItem (found : σ × Bool) (item : α) : σ × Bool :=
  match step found.1 item with
  | none => found
  | some next => (next, true)

/-- One pass over the list: the state it leads to, and whether anything changed. -/
def pass (list : List α) (state : σ) : σ × Bool := list.foldl (passItem step) (state, false)

/-- Passes until one changes nothing, that many at most. -/
def passes (list : List α) : Nat → σ → Option σ
  | 0, _ => none
  | fuel + 1, state =>
      let found := pass step list state
      if found.2 then passes list fuel found.1 else some found.1

variable {step} {list : List α}

/-- What each step keeps, a pass keeps; induction on the list. -/
theorem foldl_passItem_keeps (keeps : σ → Prop)
    (kept : ∀ state item next, item ∈ list → keeps state → step state item = some next → keeps next)
    {found : σ × Bool} (start : keeps found.1)
    : keeps (list.foldl (passItem step) found).1 := by
  induction list generalizing found with
  | nil => exact start
  | cons first rest ih =>
      refine ih (fun state item next listed => kept state item next (List.mem_cons_of_mem _ listed)) ?_
      unfold passItem
      cases stepped : step found.1 first with
      | none => exact start
      | some next => exact kept _ _ _ List.mem_cons_self start stepped

theorem passes_keeps (keeps : σ → Prop)
    (kept : ∀ state item next, item ∈ list → keeps state → step state item = some next → keeps next)
    {fuel : Nat} {state result : σ} (start : keeps state)
    (ends : passes step list fuel state = some result)
    : keeps result := by
  induction fuel generalizing state with
  | zero => cases ends
  | succ fuel ih =>
      have next : keeps (pass step list state).1 := foldl_passItem_keeps keeps kept start
      unfold passes at ends
      dsimp only at ends
      split at ends
      · exact ih next ends
      · exact Option.some.inj ends ▸ next

theorem foldl_passItem_true (list : List α) (state : σ)
    : (list.foldl (passItem step) (state, true)).2 = true := by
  induction list generalizing state with
  | nil => rfl
  | cons first rest ih =>
      rw [List.foldl_cons]
      unfold passItem
      split
      · exact ih state
      · exact ih _

/-- A pass that changed nothing left the state, where no item changes anything. -/
theorem pass_unchanged {state : σ} (same : (pass step list state).2 = false)
    : (pass step list state).1 = state ∧ ∀ item ∈ list, step state item = none := by
  unfold pass at *
  induction list with
  | nil => exact ⟨rfl, fun item listed => (nomatch listed)⟩
  | cons first rest ih =>
      rw [List.foldl_cons] at same ⊢
      cases stepped : step state first with
      | none =>
          have here : passItem step (state, false) first = (state, false) := by
            unfold passItem
            rw [stepped]
          rw [here] at same ⊢
          obtain ⟨left, none⟩ := ih same
          exact ⟨left, List.forall_mem_cons.mpr ⟨stepped, none⟩⟩
      | some next =>
          have here : passItem step (state, false) first = (next, true) := by
            unfold passItem
            rw [stepped]
          rw [here, foldl_passItem_true] at same
          cases same

theorem passes_closed {fuel : Nat} {state result : σ}
    (ends : passes step list fuel state = some result)
    : ∀ item ∈ list, step result item = none := by
  induction fuel generalizing state with
  | zero => cases ends
  | succ fuel ih =>
      unfold passes at ends
      dsimp only at ends
      split at ends
      · exact ih ends
      · rename_i unchanged
        obtain ⟨left, none⟩ := pass_unchanged (Bool.not_eq_true _ ▸ unchanged)
        rw [left] at ends
        exact Option.some.inj ends ▸ none

theorem foldl_passItem_closed {state : σ} {changed : Bool}
    (closed : ∀ item ∈ list, step state item = none)
    : list.foldl (passItem step) (state, changed) = (state, changed) := by
  induction list with
  | nil => rfl
  | cons first rest ih =>
      have here : passItem step (state, changed) first = (state, changed) := by
        unfold passItem
        rw [closed first List.mem_cons_self]
      rw [List.foldl_cons, here]
      exact ih fun item listed => closed item (List.mem_cons_of_mem _ listed)

/-- The states that items of a list lead to, one after another in any order. -/
inductive Steps (step : σ → α → Option σ) (list : List α) (start : σ) : σ → Prop
  | start : Steps step list start start
  | next {state next : σ} (before : Steps step list start state) (item : α) (listed : item ∈ list)
      (stepped : step state item = some next)
    : Steps step list start next

theorem steps_of_passes {fuel : Nat} {state result : σ}
    (ends : passes step list fuel state = some result)
    : Steps step list state result :=
  passes_keeps (Steps step list state)
    (fun _ item _ listed before stepped => .next before item listed stepped) .start ends

theorem exists_pass_of_steps {start result : σ} (steps : Steps step list start result)
    : ∃ order : List α, (∀ item ∈ order, item ∈ list) ∧ (pass step order start).1 = result := by
  induction steps with
  | start => exact ⟨[], nofun, rfl⟩
  | next before item listed stepped ih =>
      obtain ⟨order, among, leads⟩ := ih
      refine ⟨order ++ [item], fun other there => ?_, ?_⟩
      · rcases List.mem_append.mp there with there | there
        · exact among other there
        · exact List.mem_singleton.mp there ▸ listed
      · unfold pass at leads ⊢
        rw [List.foldl_append, List.foldl_cons, List.foldl_nil, passItem, leads, stepped]

/-- Where items lead in an order to a state none of them changes, passes that go over them in that
order first end there.
-/
theorem passes_of_order {order : List α} {fuel : Nat} {start state result : σ}
    (among : ∀ item ∈ order, item ∈ list) (leads : (pass step order start).1 = state)
    (closed : ∀ item ∈ list, step state item = none)
    (ends : passes step (order ++ list) fuel start = some result)
    : result = state := by
  have all : ∀ item ∈ order ++ list, step state item = none := fun item listed =>
    (List.mem_append.mp listed).elim (fun there => closed item (among item there)) (closed item)
  have first : (pass step (order ++ list) start).1 = state := by
    unfold pass at leads ⊢
    rw [List.foldl_append]
    generalize order.foldl (passItem step) (start, false) = found at leads
    cases leads
    rw [foldl_passItem_closed closed]
  have stays : pass step (order ++ list) state = (state, false) := foldl_passItem_closed all
  cases fuel with
  | zero => cases ends
  | succ fuel =>
      simp only [passes, first] at ends
      split at ends
      · cases fuel with
        | zero => cases ends
        | succ fuel =>
            simp only [passes, stays, Bool.false_eq_true, if_false, Option.some.injEq] at ends
            exact ends.symm
      · exact (Option.some.inj ends).symm

section Ends

variable (left : σ → Nat)

theorem foldl_passItem_left
    (lower : ∀ state item next, item ∈ list → step state item = some next → left next < left state)
    (found : σ × Bool)
    : left (list.foldl (passItem step) found).1 ≤ left found.1
      ∧ (found.2 = false → (list.foldl (passItem step) found).2 = true
        → left (list.foldl (passItem step) found).1 < left found.1) := by
  induction list generalizing found with
  | nil =>
      refine ⟨Nat.le_refl _, fun before after => ?_⟩
      rw [List.foldl_nil, before] at after
      cases after
  | cons first rest ih =>
      have later := ih (fun state item next listed =>
        lower state item next (List.mem_cons_of_mem _ listed)) (passItem step found first)
      rw [List.foldl_cons]
      cases stepped : step found.1 first with
      | none =>
          have here : passItem step found first = found := by
            unfold passItem
            rw [stepped]
          rw [here] at later ⊢
          exact later
      | some next =>
          have here : passItem step found first = (next, true) := by
            unfold passItem
            rw [stepped]
          have fell := lower found.1 first next List.mem_cons_self stepped
          rw [here] at later ⊢
          have below := later.1
          dsimp only at below
          exact ⟨by omega, fun _ _ => by omega⟩

/-- Passes end that lower something with each step, given that many and one. -/
theorem passes_ends
    (lower : ∀ state item next, item ∈ list → step state item = some next → left next < left state)
    {fuel : Nat} {state : σ} (enough : left state < fuel)
    : ∃ result, passes step list fuel state = some result := by
  induction fuel generalizing state with
  | zero => exact absurd enough (Nat.not_lt_zero _)
  | succ fuel ih =>
      unfold passes
      dsimp only
      split
      · rename_i changed
        have fell := (foldl_passItem_left left lower (state, false)).2 rfl changed
        dsimp only at fell
        have enough' : left (pass step list state).1 < fuel := by
          unfold pass
          omega
        exact ih enough'
      · exact ⟨_, rfl⟩

end Ends

end Js
