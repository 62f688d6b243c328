import Hypergraph.Decisions.Effects

/-! Writer keys through `addKey`, `forget` and `settle`: keys and identities stay in
agreement, one key of an identity at most settles the order, and nobody else's keys change.
-/

namespace Hypergraph.Decisions

open Js Encodings

/-- The key speaks for this identity, if for any. -/
def View.Owns (v : View) (id key : Key) : Prop :=
  ∀ w, v.writer key = some w → w.identity = id

/-- Of an identity's keys at most one settles the order. -/
def View.OneSettler (v : View) : Prop :=
  ∀ key other w w', v.writer key = some w → v.writer other = some w'
    → w.indexer = true → w'.indexer = true → w.identity = w'.identity → key = other

-- `forget`

section Forget

variable {v : Counting} {id key : Key}

@[simp]
theorem forget_writer (k : Key)
    : (forget v id key).view.writer k = if k = key then none else v.view.writer k :=
  rfl

theorem writersOf_forget (i : Key)
    : writersOf (forget v id key).view i
      = if i = id then (writersOf v.view id).filter (· ≠ key) else writersOf v.view i := by
  by_cases same : i = id
  · subst same
    simp only [forget, Counting.write_view, View.setWriters_writers, writersOf,
      View.setWriter_writers, if_true]
    split
    · rename_i empty
      rw [empty]
      rfl
    · rfl
  · simp [forget, writersOf, same]

theorem View.WriterKeys.forget (keys : v.view.WriterKeys) (owns : v.view.Owns id key)
    : (Decisions.forget v id key).view.WriterKeys where
  agree k i := by
    rw [writersOf_forget, forget_writer]
    by_cases here : k = key
    · subst here
      have gone : k ∉ (if i = id then (writersOf v.view id).filter (· ≠ k)
          else writersOf v.view i) := by
        split
        · simp
        · rename_i other
          intro listed
          obtain ⟨w, found, same⟩ := keys.known listed
          exact other (same.symm.trans (owns w found))
      simpa using gone
    · have same : k ∈ (if i = id then (writersOf v.view id).filter (· ≠ key)
          else writersOf v.view i) ↔ k ∈ writersOf v.view i := by
        split
        · rename_i theirs
          simp [theirs, here]
        · rfl
      rw [if_neg here, same]
      exact keys.agree k i
  nodup i := by
    rw [writersOf_forget]
    split
    · exact (keys.nodup id).filter _
    · exact keys.nodup i

theorem View.Owns.forget {other : Key} (owns : v.view.Owns id other)
    : (Decisions.forget v id key).view.Owns id other := by
  intro w found
  rw [forget_writer] at found
  split at found
  · cases found
  · exact owns w found

theorem View.OneSettler.forget (one : v.view.OneSettler)
    : (Decisions.forget v id key).view.OneSettler := by
  intro k other w w' found found' settles settles' same
  rw [forget_writer] at found found'
  split at found
  · cases found
  · split at found'
    · cases found'
    · exact one k other w w' found found' settles settles' same

end Forget

/-- Forgetting keys of an identity one by one; induction on the keys. -/
theorem foldl_forget (id : Key) (after : Counting → Key → Counting)
    (same : ∀ v key, (after v key).view = (forget v id key).view) (list : List Key)
    (v : Counting) (keys : v.view.WriterKeys) (owns : ∀ key ∈ list, v.view.Owns id key)
    : let w := list.foldl after v
      w.view.WriterKeys
        ∧ (∀ k, w.view.writer k = if k ∈ list then none else v.view.writer k)
        ∧ (∀ i, writersOf w.view i
            = if i = id then (writersOf v.view id).filter (· ∉ list) else writersOf v.view i)
        ∧ (v.view.OneSettler → w.view.OneSettler) := by
  induction list generalizing v with
  | nil =>
      refine ⟨keys, by simp, fun i => ?_, fun one => one⟩
      by_cases theirs : i = id
      · subst theirs
        have all : (writersOf v.view i).filter (fun key => decide (key ∉ ([] : List Key)))
            = writersOf v.view i := List.filter_eq_self.mpr (by simp)
        simp only [if_true, all, List.foldl_nil]
      · simp [theirs]
  | cons first rest ih =>
      have kept : (after v first).view.WriterKeys := by
        rw [same]
        exact keys.forget (owns first (by simp))
      obtain ⟨restKeys, writer, writers, one⟩ := ih (after v first) kept (by
        intro key member
        rw [same]
        exact (owns key (List.mem_cons_of_mem _ member)).forget)
      refine ⟨restKeys, fun k => ?_, fun i => ?_, fun before => one ?_⟩
      · rw [List.foldl_cons, writer, same, forget_writer]
        by_cases now : k = first
        · simp [now]
        · simp [now]
      · rw [List.foldl_cons, writers, same, writersOf_forget, writersOf_forget]
        by_cases theirs : i = id
        · simp only [theirs, if_true, List.filter_filter, List.mem_cons, not_or]
          refine List.filter_congr fun key _ => ?_
          by_cases here : key = first <;> simp [here]
        · simp [theirs]
      · rw [same]
        exact before.forget

-- `addKey`

section AddKey

variable {v : Counting} (id key : Key) (device : Option Key)

/-- A key is added to an identity's when no one has it, else nothing changes. -/
theorem addKey_cases
    : (addKey v id key device).2 = v
      ∨ v.view.writer key = none
        ∧ (∀ k, (addKey v id key device).2.view.writer k
            = if k = key then some ⟨id, device, false⟩ else v.view.writer k)
        ∧ ∀ i, writersOf (addKey v id key device).2.view i
            = if i = id then writersOf v.view id ++ [key] else writersOf v.view i := by
  unfold addKey
  split
  · exact .inl rfl
  · rename_i fresh
    split
    · exact .inl rfl
    · refine .inr ⟨by simpa using fresh, fun k => rfl, fun i => ?_⟩
      by_cases theirs : i = id
      · simp [theirs, writersOf]
      · simp [theirs, writersOf]

theorem View.WriterKeys.addKey (keys : v.view.WriterKeys)
    : (Decisions.addKey v id key device).2.view.WriterKeys := by
  rcases addKey_cases (v := v) id key device with same | ⟨fresh, writer, writers⟩
  · rwa [same]
  · have unlisted (i : Key) : key ∉ writersOf v.view i := by
      intro listed
      obtain ⟨w, found, _⟩ := keys.known listed
      rw [fresh] at found
      cases found
    constructor
    · intro k i
      rw [writer, writers]
      by_cases here : k = key
      · subst here
        by_cases theirs : i = id
        · simp [theirs]
        · have other : id ≠ i := fun same => theirs same.symm
          simp [theirs, other, unlisted]
      · have before := keys.agree k i
        by_cases theirs : i = id
        · subst theirs
          simpa [here] using before
        · simpa [here, theirs] using before
    · intro i
      rw [writers]
      split
      · refine List.nodup_append.mpr ⟨keys.nodup id, by simp, ?_⟩
        intro k listed other same here
        exact unlisted id (List.mem_singleton.mp same ▸ here ▸ listed)
      · exact keys.nodup i

theorem View.OneSettler.addKey (one : v.view.OneSettler)
    : (Decisions.addKey v id key device).2.view.OneSettler := by
  rcases addKey_cases (v := v) id key device with same | ⟨_, writer, _⟩
  · rwa [same]
  · intro k other w w' found found' settles settles' same
    rw [writer] at found found'
    split at found
    · cases found
      cases settles
    · split at found'
      · cases found'
        cases settles'
      · exact one k other w w' found found' settles settles' same

end AddKey

-- `settle`

section Settle

variable {v : Counting} (id key : Key)

theorem mark_writer (indexer : Bool) (k : Key)
    : (Effect.mark v key indexer).view.writer k
      = if k = key then (v.view.writer key).map fun w => { w with indexer := indexer }
        else v.view.writer k :=
  rfl

@[simp]
theorem writersOf_mark (indexer : Bool) (i : Key)
    : writersOf (Effect.mark v key indexer).view i = writersOf v.view i :=
  rfl

theorem View.WriterKeys.mark (keys : v.view.WriterKeys) (indexer : Bool)
    : (Effect.mark v key indexer).view.WriterKeys where
  agree k i := by
    rw [mark_writer, writersOf_mark, ← keys.agree k i]
    by_cases here : k = key
    · subst here
      cases v.view.writer k <;> simp
    · simp [here]
  nodup i := keys.nodup i

theorem forgetAll_spec (env : Env) (keys : v.view.WriterKeys)
    : (Effect.forgetAll env v id).view.WriterKeys
      ∧ (∀ k, (Effect.forgetAll env v id).view.writer k
          = if k ∈ writersOf v.view id then none else v.view.writer k)
      ∧ (∀ i, writersOf (Effect.forgetAll env v id).view i
          = if i = id then [] else writersOf v.view i)
      ∧ (v.view.OneSettler → (Effect.forgetAll env v id).view.OneSettler) := by
  have owns : ∀ key ∈ writersOf v.view id, v.view.Owns id key := by
    intro key listed w found
    obtain ⟨w', found', same⟩ := keys.known listed
    cases Option.some.inj (found.symm.trans found')
    exact same
  have fold := foldl_forget id (fun v key => removeFromBase env (forget v id key) key)
    (fun v key => removeFromBase_view env _ key) (writersOf v.view id) v keys owns
  refine ⟨fold.1, fold.2.1, fun i => ?_, fold.2.2.2⟩
  refine (fold.2.2.1 i).trans ?_
  split
  · exact List.filter_eq_nil_iff.mpr (by simp)
  · rfl

theorem settler_some (keys : v.view.WriterKeys) {key : Key}
    (found : Effect.settler v.view id = some key)
    : ∃ w, v.view.writer key = some w ∧ w.identity = id ∧ w.indexer = true := by
  obtain ⟨w, entry, same⟩ := keys.known (List.mem_of_find?_eq_some found)
  have settles := List.find?_some found
  exact ⟨w, entry, same, by simpa [entry] using settles⟩

/-- With no settler found, none of the identity's keys settles. -/
theorem settler_none (keys : v.view.WriterKeys)
    (absent : Effect.settler v.view id = none) {key : Key} {w : Writer}
    (found : v.view.writer key = some w) (same : w.identity = id)
    : w.indexer = false := by
  have listed : key ∈ writersOf v.view id := same ▸ keys.listed found
  have not := List.find?_eq_none.mp absent key listed
  simpa [found] using not

/-- `settle` touches no key of anyone else. -/
theorem settle_others (env : Env) (keys : v.view.WriterKeys) {i : Key} (other : i ≠ id)
    : writersOf (Effect.settle env v id).view i = writersOf v.view i
      ∧ ∀ k w, w.identity = i
        → ((Effect.settle env v id).view.writer k = some w ↔ v.view.writer k = some w) := by
  have marked (key : Key) (indexer : Bool) (listed : key ∈ writersOf v.view id) (k : Key)
      (w : Writer) (theirs : w.identity = i)
      : (Effect.mark v key indexer).view.writer k = some w ↔ v.view.writer k = some w := by
    rw [mark_writer]
    split
    · rename_i here
      subst here
      obtain ⟨w', found, same⟩ := keys.known listed
      rw [found, Option.map_some, Option.some_inj, Option.some_inj]
      constructor
      · rintro rfl
        exact absurd (theirs.symm.trans same) other
      · rintro rfl
        exact absurd (theirs.symm.trans same) other
    · rfl
  unfold Effect.settle
  split
  · obtain ⟨_, writer, writers, _⟩ := forgetAll_spec id env keys
    refine ⟨by rw [writers, if_neg other], fun k w theirs => ?_⟩
    rw [writer]
    split
    · rename_i listed
      obtain ⟨w', found, same⟩ := keys.known listed
      rw [found, Option.some_inj]
      constructor
      · intro impossible
        cases impossible
      · rintro rfl
        exact absurd (theirs.symm.trans same) other
    · rfl
  · split
    · split
      · rename_i key rest _ list
        exact ⟨rfl, marked key true (by simp [list])⟩
      · exact ⟨rfl, fun _ _ _ => Iff.rfl⟩
    · split
      · exact ⟨rfl, fun _ _ _ => Iff.rfl⟩
      · rename_i key found
        dsimp only
        have listed := List.mem_of_find?_eq_some found
        split <;> exact ⟨rfl, marked key false listed⟩

theorem View.WriterKeys.settle (env : Env) (keys : v.view.WriterKeys)
    : (Effect.settle env v id).view.WriterKeys := by
  unfold Effect.settle
  split
  · exact (forgetAll_spec id env keys).1
  · split
    · split
      · exact keys.mark _ true
      · exact keys
    · split
      · exact keys
      · dsimp only
        split <;> exact keys.mark _ false

/-- Marking a key keeps one settler at most, if no other key of its identity settles. -/
theorem View.OneSettler.mark (one : v.view.OneSettler) (indexer : Bool)
    (alone : indexer = true → ∀ w, v.view.writer key = some w
      → ∀ other w', v.view.writer other = some w' → w'.identity = w.identity
        → w'.indexer = true → other = key)
    : (Effect.mark v key indexer).view.OneSettler := by
  intro k other w w' found found' settles settles' same
  rw [mark_writer] at found found'
  split at found
  · rename_i here
    obtain ⟨entry, known, rfl⟩ := Option.map_eq_some_iff.mp found
    split at found'
    · rename_i there
      exact here.trans there.symm
    · exact here.trans (alone settles entry known other w' found' same.symm settles').symm
  · split at found'
    · rename_i there
      obtain ⟨entry, known, rfl⟩ := Option.map_eq_some_iff.mp found'
      exact (alone settles' entry known k w found same settles).trans there.symm
    · exact one k other w w' found found' settles settles' same

theorem View.OneSettler.settle (env : Env) (one : v.view.OneSettler)
    (keys : v.view.WriterKeys)
    : (Effect.settle env v id).view.OneSettler := by
  unfold Effect.settle
  split
  · exact (forgetAll_spec id env keys).2.2.2 one
  · split
    · split
      · rename_i key rest absent list
        refine one.mark key true ?_
        intro _ w found other w' found' same settles
        have first : key ∈ writersOf v.view id := by simp [list]
        obtain ⟨w'', known, theirs⟩ := keys.known first
        cases Option.some.inj (found.symm.trans known)
        rw [settler_none id keys absent found' (same.trans theirs)] at settles
        cases settles
      · exact one
    · split
      · exact one
      · dsimp only
        split <;> exact one.mark _ false (fun impossible => nomatch impossible)

end Settle

end Hypergraph.Decisions
