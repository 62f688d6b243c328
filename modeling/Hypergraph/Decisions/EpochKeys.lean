import Hypergraph.Decisions.Notes

/-! The keys of private scopes over whole runs of the log. Rotations race, and of two for one
epoch the first becomes current; what was recorded is never recorded otherwise, but for a
commitment first recorded beside epoch 0, which the check for it overlooks.
-/

namespace Hypergraph.Decisions

open Wire Js Encodings Invites

namespace Epochs

/-- The commitments are those of the epochs up to the current one; one recorded beside them is
of such an epoch, and not its current one.
-/
structure Sound (e : Epochs) : Prop where
  commits : ∀ n : Nat, (e.commits.lookup n).isSome ↔ (n : Int) ≤ e.current
  others : ∀ commit n, e.others.lookup commit = some n
    → (n : Int) ≤ e.current ∧ e.commits.lookup n ≠ some commit

/-- Nothing recorded is recorded otherwise. -/
structure Grows (e later : Epochs) : Prop where
  current : e.current ≤ later.current
  commits : ∀ n commit, e.commits.lookup n = some commit → later.commits.lookup n = some commit
  others : ∀ commit n, e.others.lookup commit = some n → later.others.lookup commit = some n

/-- Does a rotation name a commitment recorded beside epoch 0 again, for another epoch there is
a key for already?
-/
def renames (e : Epochs) (d : KeyRotate) : Bool :=
  e.others.lookup d.commit = some 0 && 0 < d.epoch && (d.epoch : Int) ≤ e.current
    && e.commits.lookup d.epoch ≠ some d.commit

theorem Sound.none_ : ({} : Epochs).Sound where
  commits n := by
    simp only [List.lookup_nil, Option.isSome_none, Bool.false_eq_true, false_iff]
    omega
  others commit n found := by simp at found

@[refl]
theorem Grows.refl (e : Epochs) : e.Grows e := ⟨le_rfl, fun _ _ => id, fun _ _ => id⟩

theorem Grows.trans {e mid later : Epochs} (first : e.Grows mid) (second : mid.Grows later)
    : e.Grows later where
  current := first.current.trans second.current
  commits n commit found := second.commits n commit (first.commits n commit found)
  others commit n found := second.others commit n (first.others commit n found)

section Rotation

variable {e next : Epochs} {d : KeyRotate}

theorem nextEpochs_cases (rotates : nextEpochs e d = some next)
    : ((d.epoch : Int) = e.current + 1
        ∧ next = { e with current := d.epoch, commits := (d.epoch, d.commit) :: e.commits })
      ∨ ((d.epoch : Int) ≤ e.current ∧ e.commits.lookup d.epoch ≠ some d.commit
        ∧ (e.others.lookup d.commit).getD 0 = 0
        ∧ next = { e with others := (d.commit, d.epoch) :: e.others }) := by
  unfold nextEpochs at rotates
  split at rotates
  · rename_i follows
    exact .inl ⟨follows, (Option.some.inj rotates).symm⟩
  · split at rotates
    · rename_i beside
      simp only [Bool.and_eq_true, decide_eq_true_eq] at beside
      exact .inr ⟨beside.1.1, beside.1.2, beside.2, (Option.some.inj rotates).symm⟩
    · cases rotates

theorem Sound.rotated (sound : e.Sound) (rotates : nextEpochs e d = some next) : next.Sound := by
  rcases nextEpochs_cases rotates with ⟨follows, rfl⟩ | ⟨known, other, _, rfl⟩
  · constructor
    · intro n
      by_cases same : n = d.epoch
      · simp [same]
      · have before := sound.commits n
        have different : (n == d.epoch) = false := by simpa using same
        simp only [List.lookup_cons, different, before]
        omega
    · intro commit n found
      obtain ⟨known, apart⟩ := sound.others commit n found
      have different : (n == d.epoch) = false := by
        simp only [beq_eq_false_iff_ne, ne_eq]
        omega
      simp only [List.lookup_cons, different]
      exact ⟨by omega, apart⟩
  · constructor
    · exact sound.commits
    · intro commit n found
      by_cases same : commit = d.commit
      · subst same
        simp only [List.lookup_cons_self, Option.some.injEq] at found
        subst found
        exact ⟨known, other⟩
      · have different : (commit == d.commit) = false := by simpa using same
        simp only [List.lookup_cons, different] at found
        exact sound.others commit n found

theorem Grows.rotated (sound : e.Sound) (rotates : nextEpochs e d = some next)
    (keeps : e.renames d = false)
    : e.Grows next := by
  rcases nextEpochs_cases rotates with ⟨follows, rfl⟩ | ⟨known, other, unseen, rfl⟩
  · refine ⟨by simp only; omega, fun n commit found => ?_, fun _ _ => id⟩
    have before := (sound.commits n).mp (by rw [found]; rfl)
    have different : (n == d.epoch) = false := by
      simp only [beq_eq_false_iff_ne, ne_eq]
      omega
    simp only [List.lookup_cons, different]
    exact found
  · refine ⟨le_rfl, fun _ _ => id, fun commit n found => ?_⟩
    by_cases same : commit = d.commit
    · subst same
      rw [found, Option.getD_some] at unseen
      subst unseen
      have zero : d.epoch = 0 := by
        by_contra later
        have renamed : e.renames d = true := by
          simp only [renames, found, known, other, Nat.pos_of_ne_zero later, decide_true,
            Bool.and_self, ne_eq, not_false_eq_true]
        rw [keeps] at renamed
        cases renamed
      rw [List.lookup_cons_self, zero]
    · have different : (commit == d.commit) = false := by simpa using same
      simp only [List.lookup_cons, different]
      exact found

end Rotation

end Epochs

-- One node

/-- Does a node's rotation, by someone who may rotate a private scope's key, rename a commitment
of the scope?
-/
def renames (env : Env) (v : View) (node : Node) : Bool :=
  (readNode env.c node.value).any fun d =>
    match d.decision.body with
    | .keyRotate r =>
        (v.writer node.from_).any fun writer => (chainHere v d).any fun chain =>
          decides (State.recordedRole v chain writer.identity) v.custom && v.privateAt d.scope
            && (v.epochs d.scope).any fun e => e.renames r
    | _ => false

section Node

variable {env : Env} {v w u : View} {node : Node} {scope : Scope}

/-- What is noted is a rotation, or leaves the keys. -/
theorem Noted.rotation {x : Context} {body : Body} (noted : Noted env x v body u)
    : u.epochs = v.epochs ∨ ∃ d next, body = .keyRotate d
        ∧ decides x.authorRole v.custom = true ∧ v.privateAt x.scope = true
        ∧ nextEpochs ((v.epochs x.scope).getD {}) d = some next
        ∧ u = v.setEpochs x.scope (some next) := by
  cases noted with
  | rotated d decides priv next rotates => exact .inr ⟨d, next, rfl, decides, priv, rotates, rfl⟩
  | _ => exact .inl rfl

/-- A node leaves a scope's keys, or rotates them. -/
theorem NodeStep.rotation (step : NodeStep env v node w) (sound : v.Sound) (scope : Scope)
    : w.epochs scope = v.epochs scope ∨ ∃ d r writer chain next,
        readNode env.c node.value = some d ∧ d.decision.body = .keyRotate r
        ∧ v.writer node.from_ = some writer ∧ chainHere v d = some chain ∧ d.scope = scope
        ∧ decides (State.recordedRole v chain writer.identity) v.custom = true
        ∧ v.privateAt scope = true ∧ nextEpochs ((v.epochs scope).getD {}) r = some next
        ∧ w.epochs scope = some next := by
  rcases step.noted sound with same | ⟨d, writer, chain, u, counts, known, here, noted, rest⟩
  · exact .inl (by rw [same.epochs])
  · rw [rest.epochs]
    rcases noted.rotation with same | ⟨r, next, body, decides, priv, rotates, rfl⟩
    · exact .inl (by rw [same])
    · have at_ : (contextAt v chain writer d.decision.stamp (env.codeOf node)).scope = d.scope :=
        (chainHere_path sound.tree here).head?
      rw [at_] at priv rotates ⊢
      simp only [View.setEpochs_epochs]
      split
      · rename_i same
        subst same
        exact .inr ⟨d, r, writer, chain, next, counts.reads, body, known, here, rfl, decides,
          priv, rotates, rfl⟩
      · exact .inl rfl

/-- The keys of every private scope are as they should be. -/
def View.EpochsSound (v : View) : Prop := ∀ scope e, v.epochs scope = some e → e.Sound

theorem View.EpochsSound.getD (keys : v.EpochsSound) (scope : Scope)
    : ((v.epochs scope).getD {}).Sound := by
  cases found : v.epochs scope with
  | none => exact .none_
  | some e => exact keys scope e found

theorem NodeStep.epochsSound (step : NodeStep env v node w) (sound : v.Sound)
    (keys : v.EpochsSound)
    : w.EpochsSound := by
  intro scope e found
  rcases step.rotation sound scope with same | ⟨_, r, _, _, next, _, _, _, _, _, _, _, rotates, is⟩
  · exact keys scope e (same.symm.trans found)
  · cases Option.some.inj (is.symm.trans found)
    exact (keys.getD scope).rotated rotates

/-- A node that renames no commitment keeps what is recorded of a scope's keys. -/
theorem NodeStep.grows (step : NodeStep env v node w) (sound : v.Sound) (keys : v.EpochsSound)
    (keeps : renames env v node = false) {e : Epochs} (found : v.epochs scope = some e)
    : ∃ later, w.epochs scope = some later ∧ e.Grows later := by
  rcases step.rotation sound scope with
    same | ⟨d, r, writer, chain, next, reads, body, known, here, rfl, decides, priv, rotates, is⟩
  · exact ⟨e, same.trans found, .refl e⟩
  · rw [found, Option.getD_some] at rotates
    refine ⟨next, is, .rotated (keys _ e found) rotates ?_⟩
    simpa [renames, reads, body, known, here, decides, priv, found] using keeps

end Node

-- Every run

/-- In every log that renames no commitment, at every point of it and for every scope: the
commitments are of the epochs up to the current one, no other one is its epoch's current, and
whatever any earlier point had recorded is recorded the same.
-/
theorem epoch_keys_kept {env : Env} {nodes : List Node} {v : View}
    (ran : applyNodes env nodes View.empty = .ok v)
    (each : EachNode env (fun v node => renames env v node = false) View.empty nodes) (scope : Scope)
    : (∀ e, v.epochs scope = some e → e.Sound)
      ∧ ∀ before after u e, nodes = before ++ after → applyNodes env before View.empty = .ok u
        → u.epochs scope = some e → ∃ later, v.epochs scope = some later ∧ e.Grows later := by
  have keys {nodes : List Node} {v : View} (ran : applyNodes env nodes View.empty = .ok v)
      : v.EpochsSound :=
    (applyNodes_keeps View.EpochsSound (fun v node w sound keys step =>
      step.epochsSound sound keys) .empty (fun scope e found => by cases found) ran).2
  refine ⟨keys ran scope, fun before after u e split first found => ?_⟩
  have later : applyNodes env after u = .ok v := by
    rw [split, applyNodes_append, first, ok_bind] at ran
    exact ran
  refine (applyNodes_keeps_each (fun v node => renames env v node = false) (fun t => t.EpochsSound
    ∧ ∃ later, t.epochs scope = some later ∧ e.Grows later) ?_ (Reachable.sound ⟨before, first⟩)
    ⟨keys first, e, found, .refl e⟩ (EachNode.rest (split ▸ each) first) later).2.2
  intro t node w sound keeps kept step
  obtain ⟨keys, mid, here, grown⟩ := kept
  obtain ⟨next, there, more⟩ := step.grows sound keys keeps here
  exact ⟨step.epochsSound sound keys, next, there, grown.trans more⟩

-- A commitment renamed

/-- A private space, its owner's first key, and another key for the same epoch that came
second.
-/
def racedLog : List Node :=
  let space := keyOf 1
  [sent space 1 (.spaceInit {
      name := "space"
      policy := "auto"
      proof := attest (keyOf 10) (keyOf 11) (writerSignable space space)
      priv := true
      version := 1
      parent := none }),
    sent space 2 (.keyRotate ⟨0, keyOf 40⟩), sent space 3 (.keyRotate ⟨0, keyOf 41⟩)]

/-- The next key, and the other one named for its epoch now. -/
def renamingLog : List Node :=
  let space := keyOf 1
  [sent space 4 (.keyRotate ⟨1, keyOf 42⟩), sent space 5 (.keyRotate ⟨1, keyOf 41⟩)]

/-- Witness: the raced keys, both kept. -/
theorem epoch_keys_kept_raced
    : ∃ v e, applyNodes (idealEnv (keyOf 1)) racedLog View.empty = .ok v ∧ v.epochs none = some e
      ∧ e.commits.lookup 0 = some (keyOf 40) ∧ e.others.lookup (keyOf 41) = some 0 ∧ e.Sound := by
  have facts : ((applyNodes (idealEnv (keyOf 1)) racedLog View.empty).toOption.bind fun v =>
      (v.epochs none).map fun e => (e.commits.lookup 0, e.others.lookup (keyOf 41)))
        = some (some (keyOf 40), some 0) := by
    decide +kernel
  have each : checkEach (idealEnv (keyOf 1)) (fun v node => !renames (idealEnv (keyOf 1)) v node)
      View.empty racedLog = true := by
    decide +kernel
  obtain ⟨v, ran, found⟩ := Option.bind_eq_some_iff.mp facts
  obtain ⟨e, keys, same⟩ := Option.map_eq_some_iff.mp found
  obtain ⟨first, other⟩ := Prod.mk.inj same
  have keeps := eachNode_of_check each
  simp only [Bool.not_eq_true'] at keeps
  exact ⟨v, e, ok_of_toOption ran, keys, first, other,
    (epoch_keys_kept (ok_of_toOption ran) keeps none).1 e keys⟩

/-- A commitment recorded beside epoch 0 is recorded beside epoch 1 later. -/
theorem other_key_renamed
    : ∃ u v e later, applyNodes (idealEnv (keyOf 1)) racedLog View.empty = .ok u
      ∧ applyNodes (idealEnv (keyOf 1)) renamingLog u = .ok v
      ∧ u.epochs none = some e ∧ v.epochs none = some later
      ∧ e.others.lookup (keyOf 41) = some 0 ∧ later.others.lookup (keyOf 41) = some 1 := by
  have facts : ((applyNodes (idealEnv (keyOf 1)) racedLog View.empty).toOption.bind fun u =>
      (applyNodes (idealEnv (keyOf 1)) renamingLog u).toOption.bind fun v =>
      (u.epochs none).bind fun e => (v.epochs none).map fun later =>
      (e.others.lookup (keyOf 41), later.others.lookup (keyOf 41))) = some (some 0, some 1) := by
    decide +kernel
  simp only [Option.bind_eq_some_iff, Option.map_eq_some_iff, Prod.mk.injEq] at facts
  obtain ⟨u, first, v, second, e, before, later, after, zero, one⟩ := facts
  exact ⟨u, v, e, later, ok_of_toOption first, ok_of_toOption second, before, after, zero, one⟩

end Hypergraph.Decisions
