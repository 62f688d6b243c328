import Hypergraph.Decisions.Rights
import Mathlib.Data.Fintype.EquivFin

/-! How far a log counts: the lowest length that the cuts of a scope and the ones above name
for it, else all or nothing by the role. What one decision's cuts and entries change of that.
-/

namespace Hypergraph.Decisions

open Wire Js Encodings Invites

-- The lowest over a chain

/-- The lower of two lengths, where both are there. -/
def lower (above mine : Option Nat) : Option Nat :=
  mine.elim above fun length => some (above.elim length (min length))

/-- The lowest of what each scope of a chain names. -/
def lowestOver (named : Scope → Option Nat) : List Key → Option Nat
  | [] => named none
  | s :: up => lower (lowestOver named up) (named (some s))

section LowestOver

variable {named other : Scope → Option Nat} {chain : List Key}

theorem lower_eq_none {above mine : Option Nat}
    : lower above mine = none ↔ above = none ∧ mine = none := by
  cases above <;> cases mine <;> simp [lower]

theorem lowestOver_eq_none
    : lowestOver named chain = none ↔ ∀ s ∈ scopesOf chain, named s = none := by
  induction chain with
  | nil => simp [lowestOver]
  | cons s up ih =>
      rw [lowestOver, lower_eq_none, ih]
      simp only [scopesOf_cons, List.mem_cons, forall_eq_or_imp]
      exact and_comm

theorem lowestOver_congr (same : ∀ s ∈ scopesOf chain, other s = named s)
    : lowestOver other chain = lowestOver named chain := by
  induction chain with
  | nil => exact same none (by simp)
  | cons s up ih =>
      rw [lowestOver, lowestOver, ih fun t met => same t (by simp [met]), same (some s) (by simp)]

/-- Where only one scope of a chain names a length, it is the lowest; induction on the chain. -/
theorem lowestOver_single {scope : Scope} (nodup : chain.Nodup) (met : scope ∈ scopesOf chain)
    (only : ∀ s ∈ scopesOf chain, s ≠ scope → named s = none)
    : lowestOver named chain = named scope := by
  induction chain with
  | nil =>
      have top : scope = none := by simpa using met
      rw [top, lowestOver]
  | cons s up ih =>
      obtain ⟨fresh, rest⟩ := List.nodup_cons.mp nodup
      rw [lowestOver]
      by_cases here : scope = some s
      · subst here
        have above : lowestOver named up = none := lowestOver_eq_none.mpr fun t inside =>
          only t (by simp [inside]) fun same => fresh (mem_scopesOf.mp (same ▸ inside))
        rw [above]
        cases named (some s) <;> rfl
      · have inside : scope ∈ scopesOf up := by simpa [here] using met
        have mine : named (some s) = none := only (some s) (by simp) (Ne.symm here)
        rw [mine, ih rest inside fun t later => only t (by simp [later])]
        rfl

end LowestOver

-- What each scope's cut names

section Cuts

variable (v : View) (id : Key)

/-- The length a scope's own cut names for a log. -/
def cutHere (log : Key) (s : Scope) : Option Nat :=
  (v.cut s id).bind fun cut => cut.logs.lookup log

/-- The same for one permission. -/
def editCutHere (p : String) (log : Key) (s : Scope) : Option Nat :=
  (v.editcut s id).bind fun perms => (perms.lookup p).bind fun logs => logs.lookup log

theorem cutAt_eq (chain : List Key) (log : Key)
    : State.cutAt v chain id log = lowestOver (cutHere v id log) chain := by
  induction chain with
  | nil =>
      unfold State.cutAt State.cut lowestOver cutHere
      cases v.cut none id <;> rfl
  | cons s up ih =>
      rw [lowestOver, ← ih]
      unfold State.cutAt cutHere
      rw [State.cut]
      cases v.cut (some s) id with
      | none => rfl
      | some mine =>
          simp only [Option.bind_some, lookup_lowest, lower]
          cases State.cut v up id <;> rfl

theorem lookup_map_values {α : Type} (list : List (String × α)) (change : String → α → α)
    (p : String)
    : (list.map fun (q, value) => (q, change q value)).lookup p
      = (list.lookup p).map (change p) := by
  induction list with
  | nil => rfl
  | cons first rest ih =>
      obtain ⟨q, value⟩ := first
      by_cases same : p = q
      · subst same
        simp
      · have different : (p == q) = false := by simpa using same
        simp [List.lookup_cons, different, ih]

theorem editCutAt_eq (chain : List Key) (p : String) (log : Key)
    : State.editCutAt v chain id p log = lowestOver (editCutHere v id p log) chain := by
  induction chain with
  | nil =>
      rfl
  | cons s up ih =>
      rw [lowestOver, ← ih]
      unfold State.editCutAt editCutHere
      rw [State.editcut]
      cases v.editcut (some s) id with
      | none => rfl
      | some mine =>
          have mapped := lookup_map_values mine (fun q logs =>
            lowest ((((State.editcut v up id).getD []).lookup q).getD []) logs) p
          simp only [Option.bind_some, lookup_spread, mapped]
          cases mine.lookup p with
          | none =>
              cases State.editcut v up id with
              | none => rfl
              | some above => cases above.lookup p <;> rfl
          | some logs =>
              simp only [Option.map_some, Option.some_or, Option.bind_some, lookup_lowest, lower]
              cases State.editcut v up id with
              | none => rfl
              | some above => cases found : above.lookup p <;> simp [found]

end Cuts

section Limits

variable {v : View} {chain : List Key} {id log : Key} {p : String}

theorem limitOf_eq_top
    : State.limitOf v chain id log = ⊤
      ↔ State.cutAt v chain id log = none ∧ State.canWrite v chain id = true := by
  unfold State.limitOf
  cases State.cutAt v chain id log with
  | some length => simp
  | none => cases State.canWrite v chain id <;> simp

theorem editLimit_eq_top
    : State.editLimit v chain id p log = ⊤
      ↔ State.editCutAt v chain id p log = none ∧ State.can v chain id p = true := by
  unfold State.editLimit
  cases State.editCutAt v chain id p log with
  | some length => simp
  | none => cases State.can v chain id p <;> simp

theorem exists_fresh (logs : List Key) : ∃ log, log ∉ logs := by
  have infinite : Infinite Key := inferInstanceAs (Infinite (List UInt8))
  obtain ⟨log, absent⟩ := Infinite.exists_notMem_finset logs.toFinset
  exact ⟨log, by simpa using absent⟩

theorem exists_uncut (v : View) (chain : List Key) (id : Key)
    : ∃ log, State.cutAt v chain id log = none := by
  obtain ⟨log, absent⟩ := exists_fresh (((State.cut v chain id).getD []).map Prod.fst)
  refine ⟨log, ?_⟩
  unfold State.cutAt
  cases found : State.cut v chain id with
  | none => rfl
  | some logs =>
      rw [found] at absent
      refine List.lookup_eq_none_iff.mpr fun entry listed => bne_iff_ne.mpr fun same => ?_
      exact absent (List.mem_map.mpr ⟨entry, listed, same.symm⟩)

theorem exists_edit_uncut (v : View) (chain : List Key) (id : Key) (p : String)
    : ∃ log, State.editCutAt v chain id p log = none := by
  obtain ⟨log, absent⟩ := exists_fresh ((((State.editcut v chain id).bind fun perms =>
    perms.lookup p).getD []).map Prod.fst)
  refine ⟨log, ?_⟩
  unfold State.editCutAt
  cases found : State.editcut v chain id with
  | none => rfl
  | some perms =>
      rw [found] at absent
      cases there : perms.lookup p with
      | none => simp [there]
      | some logs =>
          simp only [Option.bind_some, there, Option.getD_some] at absent ⊢
          refine List.lookup_eq_none_iff.mpr fun entry listed => bne_iff_ne.mpr fun same => ?_
          exact absent (List.mem_map.mpr ⟨entry, listed, same.symm⟩)

end Limits

-- What is inherited

/-- What counts in a sub-space: one's own entry there, else the one above if it passes. -/
theorem State.member_cons (v : View) (s : Key) (up : List Key) (id : Key)
    : State.member v (s :: up) id
      = if State.banned v (s :: up) id then none
        else (v.member (some s) id).or ((State.member v up id).filter fun m =>
          !State.priv v s || m.role = "owner" || m.role = "admin") := by
  rw [State.member]
  cases v.member (some s) id <;> rfl

/-- Below a scope someone's entry there is what counts, or that of an owner or admin alone, or
what counts has nothing to do with it; induction on the chain.
-/
theorem State.member_inherits {v w : View} {scope : Scope} {base : List Key} {id : Key}
    (here : IsChain v scope base)
    (members : ∀ s, s ≠ scope → w.member s id = v.member s id)
    (bans : ∀ s, (w.banned s id).isSome = (v.banned s id).isSome)
    (spaces : w.subspace = v.subspace)
    {t : Scope} {chain : List Key} (path : IsChain v t chain)
    : State.member w chain id = State.member v chain id
      ∨ ∃ passes : Member → Bool,
        State.member v chain id = (State.member v base id).filter passes
        ∧ State.member w chain id = (State.member w base id).filter passes := by
  have all (entry : Option Member) : entry.filter (fun _ => true) = entry := by
    cases entry <;> rfl
  have filtered (entry : Option Member) (first second : Member → Bool)
      : (entry.filter first).filter second = entry.filter fun m => first m && second m := by
    cases entry with
    | none => rfl
    | some m =>
        by_cases passes : first m = true <;> simp [passes, Option.filter_some]
  induction path with
  | top =>
      cases scope with
      | none =>
          cases here
          exact .inr ⟨fun _ => true, (all _).symm, (all _).symm⟩
      | some s => exact .inl (members none (by simp))
  | @sub s up info found above fresh ih =>
      by_cases same : scope = some s
      · subst same
        cases here.unique (.sub info found above fresh)
        exact .inr ⟨fun _ => true, (all _).symm, (all _).symm⟩
      · have banned : State.banned w (s :: up) id = State.banned v (s :: up) id := by
          unfold State.banned bannedIn
          simp only [bans]
        have priv : State.priv w s = State.priv v s := by
          unfold State.priv
          rw [spaces]
        simp only [State.member_cons, banned, priv, members (some s) (Ne.symm same)]
        cases State.banned v (s :: up) id with
        | true => exact .inl rfl
        | false =>
        cases v.member (some s) id with
        | some m => exact .inl rfl
        | none =>
            rcases ih with same | ⟨passes, old, new⟩
            · exact .inl (by simp only [same])
            · refine .inr ⟨fun m => passes m
                && (!State.priv v s || m.role = "owner" || m.role = "admin"), ?_, ?_⟩
              · simp only [old, Bool.false_eq_true, if_false, filtered, Option.none_or]
              · simp only [new, Bool.false_eq_true, if_false, filtered, Option.none_or]

end Hypergraph.Decisions
