import Hypergraph.Decisions.Bans
import Hypergraph.Decisions.Losses

/-! Cuts are for good: a log once named stays named, with a length that only falls, in its
scope and below. A scope's own entries fall only by a ban with `drop: 'all'`, to nothing.
-/

namespace Hypergraph.Decisions

open Wire Js Encodings Invites

-- Lengths that only fall

/-- A length once there is there later, and no higher. -/
def Lasts (before after : Option Nat) : Prop :=
  ∀ length, before = some length → ∃ later, after = some later ∧ later ≤ length

section Lasts

variable {a b c : Option Nat} {named other : Scope → Option Nat} {chain : List Key}

@[refl]
theorem Lasts.refl (a : Option Nat) : Lasts a a :=
  fun length there => ⟨length, there, Nat.le_refl length⟩

theorem Lasts.trans (first : Lasts a b) (second : Lasts b c) : Lasts a c := by
  intro length there
  obtain ⟨middle, here, low⟩ := first length there
  obtain ⟨last, now, lower⟩ := second middle here
  exact ⟨last, now, Nat.le_trans lower low⟩

theorem Lasts.lower {above above' mine mine' : Option Nat} (up : Lasts above above')
    (here : Lasts mine mine')
    : Lasts (lower above mine) (lower above' mine') := by
  intro length there
  cases mine with
  | none =>
      obtain ⟨later, now, low⟩ := up length there
      cases mine' with
      | none => exact ⟨later, now, low⟩
      | some length' =>
          refine ⟨min length' later, by rw [now]; rfl, ?_⟩
          exact Nat.le_trans (Nat.min_le_right length' later) low
  | some own =>
      obtain ⟨own', isOwn, low⟩ := here own rfl
      subst isOwn
      cases above with
      | none =>
          cases there
          cases above' with
          | none => exact ⟨own', rfl, low⟩
          | some length' =>
              exact ⟨min own' length', rfl, Nat.le_trans (Nat.min_le_left own' length') low⟩
      | some top =>
          obtain ⟨top', isTop, lowTop⟩ := up top rfl
          subst isTop
          cases there
          refine ⟨min own' top', rfl, ?_⟩
          change min own' top' ≤ min own top
          omega

/-- What lasts in each scope lasts over a chain; induction on the chain. -/
theorem lasts_lowestOver (each : ∀ s, Lasts (named s) (other s))
    : Lasts (lowestOver named chain) (lowestOver other chain) := by
  induction chain with
  | nil => exact each none
  | cons s up ih => exact ih.lower (each (some s))

theorem lasts_below (s : Key) (up : List Key)
    : Lasts (lowestOver named up) (lowestOver named (s :: up)) := by
  intro length above
  rw [lowestOver, above]
  cases named (some s) with
  | none => exact ⟨length, rfl, Nat.le_refl length⟩
  | some own => exact ⟨min own length, rfl, Nat.min_le_right own length⟩

end Lasts

-- A scope's own cuts

/-- The cuts a scope records itself stay as they are, or fall to nothing where all of what
someone wrote is dropped.
-/
structure CutsStand (v w : View) (drops : Prop) : Prop where
  cut : ∀ scope id log length, cutHere v id log scope = some length
    → cutHere w id log scope = some length ∨ drops ∧ cutHere w id log scope = some 0
  editcut : ∀ scope id p log length, editCutHere v id p log scope = some length
    → editCutHere w id p log scope = some length ∨ drops ∧ editCutHere w id p log scope = some 0

section Stand

variable {u v w : View} {drops : Prop}

theorem SameCuts.stand (same : SameCuts v w) : CutsStand v w drops where
  cut scope id log length there := by
    unfold cutHere at there ⊢
    rw [same.cut]
    exact .inl there
  editcut scope id p log length there := by
    unfold editCutHere at there ⊢
    rw [same.editcut]
    exact .inl there

theorem CutsRecorded.stand {scope : Scope} {id : Key} {posts : Bool} {lost : List String}
    {entries : List CutEntry} (recorded : CutsRecorded v w scope id posts lost entries)
    : CutsStand v w drops where
  cut s i log length there := by
    rw [recorded.cut, there]
    simp
  editcut s i p log length there := by
    rw [recorded.editcut, there]
    simp

theorem CutsStand.trans (first : CutsStand u v drops) (second : CutsStand v w drops)
    : CutsStand u w drops where
  cut scope id log length there := by
    rcases first.cut scope id log length there with same | ⟨all, zero⟩
    · exact second.cut scope id log length same
    · rcases second.cut scope id log 0 zero with zero | dropped
      · exact .inr ⟨all, zero⟩
      · exact .inr dropped
  editcut scope id p log length there := by
    rcases first.editcut scope id p log length there with same | ⟨all, zero⟩
    · exact second.editcut scope id p log length same
    · rcases second.editcut scope id p log 0 zero with zero | dropped
      · exact .inr ⟨all, zero⟩
      · exact .inr dropped

theorem CutsStand.imp {drops' : Prop} (stand : CutsStand v w drops) (weaker : drops → drops')
    : CutsStand v w drops' where
  cut scope id log length there :=
    (stand.cut scope id log length there).imp_right fun ⟨all, zero⟩ => ⟨weaker all, zero⟩
  editcut scope id p log length there :=
    (stand.editcut scope id p log length there).imp_right fun ⟨all, zero⟩ => ⟨weaker all, zero⟩

theorem CutsStand.lasts (stand : CutsStand v w drops) (scope : Scope) (id log : Key)
    : Lasts (cutHere v id log scope) (cutHere w id log scope) := by
  intro length there
  rcases stand.cut scope id log length there with same | ⟨_, zero⟩
  · exact ⟨length, same, Nat.le_refl length⟩
  · exact ⟨0, zero, Nat.zero_le length⟩

theorem CutsStand.editLasts (stand : CutsStand v w drops) (scope : Scope) (id log : Key)
    (p : String)
    : Lasts (editCutHere v id p log scope) (editCutHere w id p log scope) := by
  intro length there
  rcases stand.editcut scope id p log length there with same | ⟨_, zero⟩
  · exact ⟨length, same, Nat.le_refl length⟩
  · exact ⟨0, zero, Nat.zero_le length⟩

end Stand

-- Dropping all

theorem lookup_zero {logs : List Key} {log : Key} (listed : log ∈ logs)
    : (logs.map fun log => (log, 0)).lookup log = some 0 := by
  induction logs with
  | nil => cases listed
  | cons first rest ih =>
      by_cases same : log = first
      · subst same
        simp
      · have later := ih ((List.mem_cons.mp listed).resolve_left same)
        have different : (log == first) = false := by simpa using same
        simpa [List.lookup_cons, different] using later

theorem mem_of_lookup {logs : Lengths} {log : Key} {length : Nat}
    (found : logs.lookup log = some length)
    : log ∈ logs.map Prod.fst := by
  obtain ⟨before, after, split, _⟩ := List.lookup_eq_some_iff.mp found
  exact List.mem_map.mpr ⟨(log, length), by simp [split], rfl⟩

/-- Every log named, counting up to nothing. -/
def zeros (logs : Lengths) : Lengths := (logs.map Prod.fst).map fun log => (log, 0)

section Drop

variable (v : Counting) (scope : Scope) (id : Key) (entries : List CutEntry) (stamp : Nat)

theorem dropIn_stand (s : Scope)
    : CutsStand v.view (Effect.dropIn scope id entries stamp v s).view True where
  cut t i log length there := by
    have frame : (Effect.dropIn scope id entries stamp v s).view.cut
        = (if s = scope || (v.view.cut s id).isSome then
            v.view.setCut s id (some ⟨(entries.map (·.log) ++ ((v.view.cut s id).elim []
              (·.logs)).map Prod.fst).map fun log => (log, 0), stamp⟩)
          else v.view).cut := by
      unfold Effect.dropIn
      dsimp only
      split <;> split <;> rfl
    unfold cutHere at there ⊢
    rw [frame]
    split
    · rw [View.setCut_cut]
      split
      · rename_i here
        obtain ⟨rfl, rfl⟩ := here
        obtain ⟨entry, found, listed⟩ := Option.bind_eq_some_iff.mp there
        refine .inr ⟨trivial, lookup_zero ?_⟩
        rw [found]
        exact List.mem_append_right _ (mem_of_lookup listed)
      · exact .inl there
    · exact .inl there
  editcut t i p log length there := by
    have frame : (Effect.dropIn scope id entries stamp v s).view.editcut
        = ((v.view.editcut s id).elim v.view fun edits => v.view.setEditcut s id
            (some (edits.map fun edit => (edit.1, zeros edit.2)))).editcut := by
      unfold Effect.dropIn
      cases found : v.view.editcut s id
        <;> by_cases here : (decide (s = scope) || (v.view.cut s id).isSome) = true
      all_goals
        simp only [here, if_true, if_false, Bool.false_eq_true, Counting.write_view,
          View.setCut_editcut, found]
      all_goals rfl
    unfold editCutHere at there ⊢
    rw [frame]
    cases found : v.view.editcut s id with
    | none => exact .inl there
    | some edits =>
        rw [Option.elim_some, View.setEditcut_editcut]
        split
        · rename_i here
          obtain ⟨rfl, rfl⟩ := here
          rw [found, Option.bind_some] at there
          obtain ⟨logs, listed, named⟩ := Option.bind_eq_some_iff.mp there
          have mapped : (edits.map fun edit => (edit.1, zeros edit.2)).lookup p
              = (edits.lookup p).map zeros :=
            lookup_map_values edits (fun _ logs => zeros logs) p
          refine .inr ⟨trivial, ?_⟩
          rw [Option.bind_some, mapped, listed]
          exact lookup_zero (mem_of_lookup named)
        · exact .inl there

theorem dropAll_stand
    : CutsStand v.view (Effect.dropAll v scope id entries stamp).view True := by
  have scopes := foldl_keeps (fun w : Counting => CutsStand v.view w.view True)
    (Effect.dropIn scope id entries stamp)
    (fun w s stand => stand.trans (dropIn_stand w scope id entries stamp s))
    (scope :: belowScopes v.view scope) v (SameCuts.stand ⟨rfl, rfl⟩)
  exact scopes.trans (SameCuts.stand ⟨rfl, rfl⟩)

end Drop

-- One decision

section Decision

variable {env : Env} {x : Context} {v w : Counting} {body : Body}

theorem memberRemove_stand (tree : v.view.Tree) (d : MemberRemove)
    : CutsStand v.view (Effect.memberRemove env x d v).view False := by
  have removed : SameCuts v.view (Effect.dropBelow x.scope d.identity
      (v.write (·.setMember x.scope d.identity none))).view := by
    rw [dropBelow_view (v := v.write (·.setMember x.scope d.identity none)) x.scope d.identity
      (tree.congr rfl rfl)]
    exact ⟨rfl, rfl⟩
  exact (removed.stand.trans (cutsRecorded _ x.scope d.identity _ _ d.cut x.stamp).stand).trans
    (SameCuts.onlyWriters (settle_frame env _ d.identity)).stand

theorem roleSet_stand (d : RoleSet)
    : CutsStand v.view (Effect.roleSet env x d v).view False := by
  have given : SameCuts v.view (v.write (·.setMember x.scope d.identity
      (some (Effect.nextMember x d v.view)))).view := ⟨rfl, rfl⟩
  have admitted := given.trans (admit_cuts _ x.scope d.identity d.role x.code)
  have cuts : CutsStand _ _ False := admitted.stand.trans
    (cutsRecorded _ x.scope d.identity
      (holds (State.recordedRole v.view x.chain d.identity) "post" v.view.custom
        && !holds (some d.role) "post" v.view.custom)
      (lost (State.recordedRole v.view x.chain d.identity) (some d.role) v.view.custom) d.cut
      x.stamp).stand
  exact (cuts.trans (SameCuts.onlyWriters (addMemberKey_frame d.identity d.role
    ((State.member v.view x.chain d.identity).bind Member.writer)
    ((State.member v.view x.chain d.identity).bind Member.writerDevice))).stand).trans
    (SameCuts.onlyWriters (settle_frame env _ d.identity)).stand

theorem ban_stand (id : Key) (d : Moderate)
    : CutsStand v.view (Effect.ban env x id d v).view (d.drop = some "all") := by
  have banned : SameCuts v.view (v.write (·.setBanned x.scope id
      (some ⟨x.author, d.reason, x.stamp, d.drop = some "all"⟩))).view := ⟨rfl, rfl⟩
  have dropIf (u : Counting) : CutsStand u.view
      (if d.drop = some "all" then Effect.dropAll u x.scope id d.cut x.stamp else u).view
      (d.drop = some "all") := by
    split
    · rename_i all
      exact (dropAll_stand u x.scope id d.cut x.stamp).imp fun _ => all
    · exact SameCuts.stand ⟨rfl, rfl⟩
  refine CutsStand.trans ?_ (SameCuts.onlyWriters (settle_frame env _ id)).stand
  refine CutsStand.trans ?_ (dropIf _)
  split
  · split
    · exact banned.stand.trans (cutsRecorded _ x.scope id true [] d.cut x.stamp).stand
    · exact banned.stand
  · have gone : SameCuts (v.write (·.setBanned x.scope id
        (some ⟨x.author, d.reason, x.stamp, d.drop = some "all"⟩))).view
        ((v.write (·.setBanned x.scope id
          (some ⟨x.author, d.reason, x.stamp, d.drop = some "all"⟩))).write
            (·.setMember x.scope id none)).view := ⟨rfl, rfl⟩
    refine (banned.stand.trans gone.stand).trans ?_
    exact (cutsRecorded _ x.scope id _ _ d.cut x.stamp).stand

theorem ban_counts (id : Key) (d : Moderate) (all : d.drop = some "all")
    : 0 < (Effect.ban env x id d v).writes := by
  refine Nat.lt_of_lt_of_le ?_ (writes_settle env _ id)
  rw [if_pos all]
  exact Nat.succ_pos _

/-- Every decision lets cuts stand, but for a ban that drops all and counts. -/
theorem Outcome.cutsStand (outcome : Outcome env x v body w) (sound : v.view.Sound)
    : CutsStand v.view w.view (dropsAll body = true ∧ 0 < w.writes) := by
  cases outcome with
  | memberAdd id =>
      exact SameCuts.stand (SameCuts.trans (v := (v.write _).view) ⟨rfl, rfl⟩
        (admit_cuts _ _ _ _ _))
  | memberRemove d => exact (memberRemove_stand sound.tree d).imp False.elim
  | roleSet d => exact (roleSet_stand d).imp False.elim
  | ban d id action =>
      refine (ban_stand id d).imp fun all => ⟨?_, ban_counts id d all⟩
      simp [dropsAll, action, all]
  | dropAll d id action target banned all =>
      refine (dropAll_stand v x.scope id d.cut x.stamp).imp fun _ => ⟨?_, Nat.succ_pos _⟩
      simp [dropsAll, action, all]
  | redeem redemption r device inviteId =>
      exact (redeem_cuts r device inviteId v).stand
  | writerAdd d info => exact (writerAdd_cuts info d.key v).stand
  | settings d next w kept same =>
      rw [same]
      exact SameCuts.stand ⟨rfl, rfl⟩
  | subspaceCreate d decides new w same =>
      rw [same]
      exact SameCuts.stand ⟨rfl, rfl⟩
  | deviceRemove d id => exact (deviceRemove_cuts id d.device v).stand
  | notes body w kind frame => exact (SameCuts.onlyNotes frame).stand
  | _ => exact SameCuts.stand ⟨rfl, rfl⟩

end Decision

-- Runs

/-- A node's decision is a ban that drops all, and counts. -/
def Drops (env : Env) (v : View) (node : Node) : Prop :=
  ∃ d, Counts env v node d ∧ dropsAll d.decision.body = true

theorem NodeStep.cutsStand {env : Env} {v w : View} {node : Node} (step : NodeStep env v node w)
    (sound : v.Sound)
    : CutsStand v w (Drops env v node) := by
  cases step with
  | unread bad => exact SameCuts.stand ⟨rfl, rfl⟩
  | read d reads applied came did w frame =>
      refine CutsStand.trans (v := applied.view) ?_ (SameCuts.onlyNotes frame.onlyNotes).stand
      cases did with
      | skipped => exact SameCuts.stand ⟨rfl, rfl⟩
      | begun init body info unbegun w same =>
          rw [same]
          exact SameCuts.stand ⟨rfl, rfl⟩
      | decided other writer known chain here w outcome =>
          exact (outcome.cutsStand (v := { view := v }) sound).imp fun ⟨all, counts⟩ =>
            ⟨d, ⟨reads, _, came, counts⟩, all⟩

/-- A run keeps every cut a scope named, at most as long. -/
structure CutsLast (v w : View) : Prop where
  cut : ∀ scope id log, Lasts (cutHere v id log scope) (cutHere w id log scope)
  editcut : ∀ scope id p log, Lasts (editCutHere v id p log scope) (editCutHere w id p log scope)

theorem NodeStep.chains {env : Env} {v w : View} {node : Node} (step : NodeStep env v node w)
    (sound : v.Sound) {scope : Scope} {chain : List Key} (path : IsChain v scope chain)
    : IsChain w scope chain := by
  cases step with
  | unread bad => exact path
  | read d reads applied came did w frame =>
      refine (SameRoster.onlyNotes frame.onlyNotes).isChain.mpr ?_
      cases did with
      | skipped => exact path
      | begun init body info unbegun applied same =>
          rw [same]
          exact IsChain.congr (v := v) rfl path
      | decided other writer known chain here applied outcome =>
          exact outcome.chains (v := { view := v }) sound
            (contextAt_fits (chainHere_path sound.tree here) _ _ _) path

/-- Over any run, a log that a scope's cut names, as it counts there, stays named and falls if
anything; below a scope it counts no further; and one step lowers an entry of a scope's own
only where it is a ban that drops all, and to nothing.
-/
theorem cuts_for_good {env : Env} {v w : View} {nodes : List Node} (reached : Reachable env v)
    (ran : applyNodes env nodes v = .ok w)
    : (∀ scope chain chain', IsChain v scope chain → IsChain w scope chain' → ∀ id log,
        Lasts (State.cutAt v chain id log) (State.cutAt w chain' id log)
        ∧ ∀ p, Lasts (State.editCutAt v chain id p log) (State.editCutAt w chain' id p log))
      ∧ (∀ s up, IsChain w (some s) (s :: up) → ∀ id log,
        Lasts (State.cutAt w up id log) (State.cutAt w (s :: up) id log)
        ∧ ∀ p, Lasts (State.editCutAt w up id p log) (State.editCutAt w (s :: up) id p log))
      ∧ EachNode env (fun u node => ∀ u', applyNode env u node = .ok u'
        → CutsStand u u' (Drops env u node)) v nodes := by
  have kept := applyNodes_keeps
    (fun w => (∀ scope chain, IsChain v scope chain → IsChain w scope chain) ∧ CutsLast v w)
    (fun u node u' sound kept step => by
      obtain ⟨chains, last⟩ := kept
      have stand := step.cutsStand sound
      refine ⟨fun scope chain path => step.chains sound (chains scope chain path), ?_, ?_⟩
      · exact fun scope id log => (last.cut scope id log).trans (stand.lasts scope id log)
      · exact fun scope id p log =>
          (last.editcut scope id p log).trans (stand.editLasts scope id log p))
    reached.sound ⟨fun _ _ path => path, fun _ _ _ => .refl _, fun _ _ _ _ => .refl _⟩ ran
  obtain ⟨_, chains, last⟩ := kept
  refine ⟨fun scope chain chain' path path' id log => ?_, fun s up _ id log => ?_, ?_⟩
  · cases (chains scope chain path).unique path'
    refine ⟨?_, fun p => ?_⟩
    · rw [cutAt_eq, cutAt_eq]
      exact lasts_lowestOver fun s => last.cut s id log
    · rw [editCutAt_eq, editCutAt_eq]
      exact lasts_lowestOver fun s => last.editcut s id p log
  · refine ⟨?_, fun p => ?_⟩
    · rw [cutAt_eq, cutAt_eq]
      exact lasts_below s up
    · rw [editCutAt_eq, editCutAt_eq]
      exact lasts_below s up
  · intro before node after u split came u' next
    have sound := (reached.later came).sound
    exact (applyNode_step sound next).cutsStand sound

/-- A member is banned, with five records of theirs held. -/
def cutLog : List Node :=
  let space := keyOf 1
  [sent space 1 (initial space (keyOf 10) (keyOf 11)),
    sent space 2 (.memberAdd (keyOf 20)),
    sent space 3 (.moderate {
      action := "ban"
      target := some (keyOf 20)
      reason := ""
      cut := [⟨keyOf 40, 5⟩]
      drop := none })]

/-- Witness: the cut of someone banned stays when the ban is lifted. -/
theorem cuts_for_good_unbanned
    : ∃ v w, applyNodes (idealEnv (keyOf 1)) cutLog View.empty = .ok v
      ∧ applyNodes (idealEnv (keyOf 1)) [sent (keyOf 1) 4 (moderation "unban" (keyOf 20))] v
        = .ok w
      ∧ State.cutAt v [] (keyOf 20) (keyOf 40) = some 5
      ∧ ∃ length, State.cutAt w [] (keyOf 20) (keyOf 40) = some length ∧ length ≤ 5 := by
  have facts : ((applyNodes (idealEnv (keyOf 1)) cutLog View.empty).toOption.bind fun v =>
      (applyNodes (idealEnv (keyOf 1)) [sent (keyOf 1) 4 (moderation "unban" (keyOf 20))]
        v).toOption.map fun _ => decide (State.cutAt v [] (keyOf 20) (keyOf 40) = some 5))
        = some true := by
    decide +kernel
  simp only [Option.bind_eq_some_iff, Option.map_eq_some_iff, decide_eq_true_eq] at facts
  obtain ⟨v, first, w, later, five⟩ := facts
  have start : Reachable (idealEnv (keyOf 1)) v := ⟨cutLog, ok_of_toOption first⟩
  obtain ⟨last, _⟩ := cuts_for_good start (ok_of_toOption later)
  exact ⟨v, w, ok_of_toOption first, ok_of_toOption later, five,
    (last none [] [] .top .top (keyOf 20) (keyOf 40)).1 5 five⟩

end Hypergraph.Decisions
