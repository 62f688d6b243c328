import Hypergraph.Decisions.Limits
import Hypergraph.Decisions.Ideal

/-! Losing a right: a log that counted in full counts from then on as far as the decision's
cut says. A cut is recorded in the decision's own scope and for what the role lost there;
what else the change takes, in sub-spaces that go by the same role, keeps nothing.
-/

namespace Hypergraph.Decisions

open Wire Js Encodings Invites

-- What a cut keeps

/-- The cut a decision carries. -/
def carried : Body → Option (List CutEntry)
  | .memberRemove d => some d.cut
  | .roleSet d => some d.cut
  | .moderate d => some d.cut
  | _ => none

/-- A limit that was infinite and is not any more is the length the cut names for the log. -/
def LimitKept (cut : Option (List CutEntry)) (log : Key) (before after : ℕ∞) : Prop :=
  before = ⊤ → after ≠ ⊤
    → ∃ entries, cut = some entries ∧ after = ((named entries).lookup log).getD 0

/-- Whoever loses a right, in any scope, keeps what the decider held of their logs. -/
def KeepsHeld (cut : Option (List CutEntry)) (v w : View) : Prop :=
  ∀ scope chain, IsChain v scope chain → ∀ id log,
    LimitKept cut log (State.limitOf v chain id log) (State.limitOf w chain id log)
    ∧ ∀ p, LimitKept cut log (State.editLimit v chain id p log)
        (State.editLimit w chain id p log)

/-- A cut names no length for a log not cut already. -/
def NamesNothing (entries : List CutEntry) (cut : Key → Option Nat) : Prop :=
  ∀ log, cut log = none → ((named entries).lookup log).getD 0 = 0

/-- How far a log counts: to its cut, else all or nothing. -/
def reach (cut : Option Nat) (may : Bool) : ℕ∞ := cut.elim (if may then ⊤ else 0) (↑)

theorem limitOf_eq_reach (v : View) (chain : List Key) (id log : Key)
    : State.limitOf v chain id log
      = reach (State.cutAt v chain id log) (State.canWrite v chain id) := by
  unfold State.limitOf reach
  cases State.cutAt v chain id log <;> rfl

theorem editLimit_eq_reach (v : View) (chain : List Key) (id log : Key) (p : String)
    : State.editLimit v chain id p log
      = reach (State.editCutAt v chain id p log) (State.can v chain id p) := by
  unfold State.editLimit reach
  cases State.editCutAt v chain id p log <;> rfl

section Reach

variable {before after : Key → Option Nat} {may still : Bool}

/-- Where a right is lost, either its cut is recorded or it names nothing to keep. -/
theorem limitKept_iff (may still : Bool) {entries : List CutEntry} {recorded : Bool}
    (cuts : ∀ log, before log = none
      → after log = if recorded then (named entries).lookup log else none)
    : (∀ log, LimitKept (some entries) log (reach (before log) may) (reach (after log) still))
      ↔ (may = true → still = false → recorded = true ∨ NamesNothing entries before) := by
  have infinite (log : Key) : reach (before log) may = ⊤ ↔ before log = none ∧ may = true := by
    unfold reach
    cases before log <;> simp
  constructor
  · rintro kept rfl rfl
    cases recorded with
    | true => exact .inl rfl
    | false =>
        refine .inr fun log free => ?_
        have now : reach (after log) false = 0 := by simp [cuts log free, reach]
        obtain ⟨_, theirs, same⟩ := kept log ((infinite log).mpr ⟨free, rfl⟩) (by simp [now])
        cases theirs
        rw [now] at same
        exact_mod_cast same.symm
  · intro covered log full finite
    obtain ⟨free, rfl⟩ := (infinite log).mp full
    refine ⟨entries, rfl, ?_⟩
    rw [cuts log free] at finite ⊢
    cases recorded with
    | true =>
        cases found : (named entries).lookup log with
        | some length => simp [reach]
        | none =>
            cases still with
            | true => simp [reach, found] at finite
            | false => simp [reach]
    | false =>
        cases still with
        | true => simp [reach] at finite
        | false =>
            have nothing := (covered rfl rfl).resolve_left (by simp) log free
            simp [reach, nothing]

/-- Where no cut is recorded and no right lost, nothing turns finite. -/
theorem limitKept_of_still {cut : Option (List CutEntry)} (cuts : after = before)
    (kept : may = true → still = true) (log : Key)
    : LimitKept cut log (reach (before log) may) (reach (after log) still) := by
  intro full finite
  rw [cuts] at finite
  unfold reach at full finite
  cases found : before log with
  | some length => simp [found] at full
  | none =>
      cases may with
      | true => simp [found, kept rfl] at finite
      | false => simp [found] at full

/-- A decision without a cut keeps nothing of what it takes. -/
theorem still_of_limitKept (uncut : ∃ log, before log = none) (cuts : after = before)
    (kept : ∀ log, LimitKept none log (reach (before log) may) (reach (after log) still))
    : may = true → still = true := by
  rintro rfl
  obtain ⟨log, free⟩ := uncut
  cases still with
  | true => rfl
  | false =>
      obtain ⟨_, impossible, _⟩ := kept log (by simp [reach, free]) (by simp [reach, cuts, free])
      cases impossible

end Reach

-- Standing

/-- What someone may do in a chain is read from the same. -/
structure SameStanding (v w : View) (chain : List Key) (id : Key) : Prop where
  role : State.roleOf w chain id = State.roleOf v chain id
  custom : w.custom = v.custom
  spaces : ∀ s ∈ chain, w.subspace s = v.subspace s

section Standing

variable {u v w : View} {chain : List Key} {id : Key} {p : String}

theorem SameStanding.can (same : SameStanding v w chain id)
    : State.can w chain id p = State.can v chain id p := by
  unfold State.can
  rw [same.role, same.custom]

theorem SameStanding.canWrite (same : SameStanding v w chain id)
    : State.canWrite w chain id = State.canWrite v chain id := by
  unfold State.canWrite
  rw [same.can, same.role]
  cases chain with
  | nil => rfl
  | cons s up =>
      dsimp only
      rw [same.spaces s (by simp)]

theorem State.roleOf_congr (member : State.member w chain id = State.member v chain id)
    (banned : State.banned w chain id = State.banned v chain id) (metaOf : w.metaOf = v.metaOf)
    : State.roleOf w chain id = State.roleOf v chain id := by
  have pub : State.pub w chain = State.pub v chain := by
    cases chain <;> simp only [State.pub, metaOf]
  unfold State.roleOf
  rw [member, banned, pub]

theorem State.banned_congr
    (bans : ∀ s ∈ scopesOf chain, (w.banned s id).isSome = (v.banned s id).isSome)
    : State.banned w chain id = State.banned v chain id := by
  unfold State.banned bannedIn
  refine Bool.eq_iff_iff.mpr ?_
  simp only [List.any_eq_true]
  exact ⟨fun ⟨s, met, out⟩ => ⟨s, met, bans s met ▸ out⟩,
    fun ⟨s, met, out⟩ => ⟨s, met, (bans s met).symm ▸ out⟩⟩

/-- Someone whose entries and bans in a chain are as before stands there as before. -/
theorem sameStanding_of (members : ∀ s ∈ scopesOf chain, w.member s id = v.member s id)
    (bans : ∀ s ∈ scopesOf chain, (w.banned s id).isSome = (v.banned s id).isSome)
    (spaces : ∀ s ∈ chain, w.subspace s = v.subspace s) (metaOf : w.metaOf = v.metaOf)
    (custom : w.custom = v.custom)
    : SameStanding v w chain id :=
  ⟨State.roleOf_congr (State.member_congr members bans spaces) (State.banned_congr bans) metaOf,
    custom, spaces⟩

theorem SameRoster.standing (same : SameRoster v w) : SameStanding v w chain id :=
  sameStanding_of (fun s _ => by rw [same.member]) (fun s _ => by rw [same.banned])
    (fun s _ => by rw [same.subspace]) same.metaOf same.custom

theorem SameRights.standing (same : SameRights v w id) (metaOf : w.metaOf = v.metaOf)
    : SameStanding v w chain id :=
  sameStanding_of (fun s _ => same.member s) (fun s _ => same.banned s)
    (fun s _ => by rw [same.subspace]) metaOf (custom_congr same.role)

theorem SameStanding.trans (first : SameStanding u v chain id)
    (second : SameStanding v w chain id)
    : SameStanding u w chain id :=
  ⟨second.role.trans first.role, second.custom.trans first.custom,
    fun s met => (second.spaces s met).trans (first.spaces s met)⟩

end Standing

/-- Someone may still do, in every scope, what they could. -/
def TakesNothing (v w : View) (id : Key) : Prop :=
  ∀ scope chain, IsChain v scope chain
    → (State.canWrite v chain id = true → State.canWrite w chain id = true)
      ∧ ∀ p, State.can v chain id p = true → State.can w chain id p = true

section Takes

variable {u v w : View} {id : Key}

theorem takesNothing_of_standing
    (same : ∀ scope chain, IsChain v scope chain → SameStanding v w chain id)
    : TakesNothing v w id :=
  fun scope chain path => ⟨fun may => (same scope chain path).canWrite.trans may,
    fun _ may => (same scope chain path).can.trans may⟩

/-- Whoever keeps each role they have keeps what it lets them do. -/
theorem takesNothing_of_roles (custom : w.custom = v.custom)
    (spaces : ∀ s, (v.subspace s).isSome → w.subspace s = v.subspace s)
    (roles : ∀ scope chain, IsChain v scope chain → ∀ role, State.roleOf v chain id = some role
      → State.roleOf w chain id = some role)
    : TakesNothing v w id := by
  intro scope chain path
  cases held : State.roleOf v chain id with
  | none =>
      have can (p : String) : State.can v chain id p = false := by
        unfold State.can
        rw [held]
        rfl
      simp [State.canWrite, can]
  | some role =>
      have same : SameStanding v w chain id :=
        ⟨(roles scope chain path role held).trans held.symm, custom,
          fun s met => spaces s (path.recorded s met)⟩
      exact ⟨fun may => same.canWrite.trans may, fun _ may => same.can.trans may⟩

end Takes

-- Cuts recorded

/-- No cut differs. -/
structure SameCuts (v w : View) : Prop where
  cut : w.cut = v.cut
  editcut : w.editcut = v.editcut

/-- A cut recorded in one scope, and for some permissions; a log's first cut stays. -/
structure CutsRecorded (v w : View) (scope : Scope) (id : Key) (posts : Bool)
    (lost : List String) (entries : List CutEntry)
    : Prop where
  cut : ∀ i log s, cutHere w i log s
    = if posts = true ∧ s = scope ∧ i = id then
        (cutHere v i log s).or ((named entries).lookup log)
      else cutHere v i log s
  editcut : ∀ i p log s, editCutHere w i p log s
    = if (p ∈ lost ∧ p ≠ "__proto__") ∧ s = scope ∧ i = id then
        (editCutHere v i p log s).or ((named entries).lookup log)
      else editCutHere v i p log s

section Cuts

variable {u v w : View} {scope : Scope} {id : Key} {posts : Bool} {lost : List String}
  {entries : List CutEntry}

theorem SameCuts.onlyWriters (frame : v.OnlyWriters w) : SameCuts v w := by
  constructor <;> rw [frame]

theorem SameCuts.onlyNotes (frame : v.OnlyNotes w) : SameCuts v w := by
  constructor <;> rw [frame]

theorem SameCuts.trans (first : SameCuts u v) (second : SameCuts v w) : SameCuts u w :=
  ⟨second.cut.trans first.cut, second.editcut.trans first.editcut⟩

theorem SameCuts.cutAt (same : SameCuts v w) (chain : List Key) (i : Key)
    : State.cutAt w chain i = State.cutAt v chain i := by
  funext log
  rw [cutAt_eq, cutAt_eq]
  exact lowestOver_congr fun s _ => by rw [cutHere, cutHere, same.cut]

theorem SameCuts.editCutAt (same : SameCuts v w) (chain : List Key) (i : Key) (p : String)
    : State.editCutAt w chain i p = State.editCutAt v chain i p := by
  funext log
  rw [editCutAt_eq, editCutAt_eq]
  exact lowestOver_congr fun s _ => by rw [editCutHere, editCutHere, same.editcut]

theorem CutsRecorded.after (recorded : CutsRecorded v u scope id posts lost entries)
    (same : SameCuts u w)
    : CutsRecorded v w scope id posts lost entries where
  cut i log s := by
    rw [← recorded.cut i log s, cutHere, cutHere, same.cut]
  editcut i p log s := by
    rw [← recorded.editcut i p log s, editCutHere, editCutHere, same.editcut]

theorem CutsRecorded.before (recorded : CutsRecorded u w scope id posts lost entries)
    (same : SameCuts v u)
    : CutsRecorded v w scope id posts lost entries where
  cut i log s := by
    have here : cutHere u i log s = cutHere v i log s := by rw [cutHere, cutHere, same.cut]
    rw [recorded.cut i log s, here]
  editcut i p log s := by
    have here : editCutHere u i p log s = editCutHere v i p log s := by
      rw [editCutHere, editCutHere, same.editcut]
    rw [recorded.editcut i p log s, here]

/-- What is recorded for each permission, one after the other; induction on the permissions. -/
theorem lookup_recordPerms (lost : List String) (entries : List CutEntry) (perms : Perms)
    (p : String) (log : Key)
    : ((lost.foldl (fun perms p => set perms p
          (spread (named entries) ((perms.lookup p).getD []))) perms).lookup p).bind
        (fun logs => logs.lookup log)
      = if p ∈ lost ∧ p ≠ "__proto__" then
          ((perms.lookup p).bind fun logs => logs.lookup log).or ((named entries).lookup log)
        else (perms.lookup p).bind fun logs => logs.lookup log := by
  induction lost generalizing perms with
  | nil => simp
  | cons first rest ih =>
      have here : ((set perms first (spread (named entries) ((perms.lookup first).getD []))).lookup
            p).bind (fun logs => logs.lookup log)
          = if p = first ∧ first ≠ "__proto__" then
              ((perms.lookup p).bind fun logs => logs.lookup log).or
                ((named entries).lookup log)
            else (perms.lookup p).bind fun logs => logs.lookup log := by
        rw [lookup_set]
        split
        · rename_i same
          obtain ⟨rfl, _⟩ := same
          rw [Option.bind_some, lookup_spread]
          cases perms.lookup p <;> rfl
        · rfl
      rw [List.foldl_cons, ih, here]
      by_cases proto : p = "__proto__"
      · subst proto
        have other : ¬("__proto__" = first ∧ first ≠ "__proto__") := fun ⟨same, no⟩ => no same.symm
        simp [other]
      · by_cases now : p = first
        · subst now
          cases (perms.lookup p).bind (fun logs => logs.lookup log) <;> simp [proto]
        · simp [now]

/-- What `recordCut` and `recordEditCuts` record. -/
theorem cutsRecorded (v : Counting) (scope : Scope) (id : Key) (posts : Bool)
    (lost : List String) (entries : List CutEntry) (stamp : Nat)
    : CutsRecorded v.view (recordEditCuts (if posts then recordCut v scope id entries stamp else v)
        scope id lost entries).view scope id posts lost entries where
  cut i log s := by
    have frame : (recordEditCuts (if posts then recordCut v scope id entries stamp else v) scope id
        lost entries).view.cut
        = (if posts then recordCut v scope id entries stamp else v).view.cut := by
      unfold recordEditCuts
      split <;> rfl
    unfold cutHere
    rw [frame]
    cases posts with
    | false => simp
    | true =>
        simp only [if_true, recordCut, Counting.write_view, View.setAdmit_cut, View.setCut_cut,
          true_and]
        split
        · rename_i here
          obtain ⟨rfl, rfl⟩ := here
          cases v.view.cut s i <;> simp
        · rfl
  editcut i p log s := by
    have frame : (if posts then recordCut v scope id entries stamp else v).view.editcut
        = v.view.editcut := by
      split <;> rfl
    unfold editCutHere recordEditCuts
    split
    · rename_i none
      simp [none, frame]
    · simp only [Counting.write_view, View.setEditcut_editcut, frame]
      by_cases here : s = scope ∧ i = id
      · obtain ⟨rfl, rfl⟩ := here
        simp only [and_self, if_true, Option.bind_some, lookup_recordPerms, and_true]
        cases v.view.editcut s i <;> simp
      · simp [here]

/-- Where no cut named a log, the one recorded is what counts from its scope down. -/
theorem CutsRecorded.cutAt (recorded : CutsRecorded v w scope id posts lost entries)
    {t : Scope} {chain : List Key} (path : IsChain v t chain) {i log : Key}
    (uncut : State.cutAt v chain i log = none)
    : State.cutAt w chain i log
      = if posts && decide (scope ∈ scopesOf chain ∧ i = id) then (named entries).lookup log
        else none := by
  rw [cutAt_eq] at uncut ⊢
  have free := lowestOver_eq_none.mp uncut
  split
  · rename_i covered
    simp only [Bool.and_eq_true, decide_eq_true_eq] at covered
    obtain ⟨cuts, met, rfl⟩ := covered
    rw [lowestOver_single path.nodup met fun s inside other => by
      simp [recorded.cut, other, free s inside]]
    simp [recorded.cut, cuts, free scope met]
  · rename_i apart
    refine lowestOver_eq_none.mpr fun s inside => ?_
    have other : ¬(posts = true ∧ s = scope ∧ i = id) := by
      rintro ⟨cuts, rfl, theirs⟩
      exact apart (by simp [cuts, inside, theirs])
    simp [recorded.cut, other, free s inside]

theorem CutsRecorded.editCutAt (recorded : CutsRecorded v w scope id posts lost entries)
    {t : Scope} {chain : List Key} (path : IsChain v t chain) {i log : Key} {p : String}
    (uncut : State.editCutAt v chain i p log = none)
    : State.editCutAt w chain i p log
      = if decide (p ∈ lost ∧ p ≠ "__proto__") && decide (scope ∈ scopesOf chain ∧ i = id) then
          (named entries).lookup log
        else none := by
  rw [editCutAt_eq] at uncut ⊢
  have free := lowestOver_eq_none.mp uncut
  split
  · rename_i covered
    simp only [Bool.and_eq_true, decide_eq_true_eq] at covered
    obtain ⟨cuts, met, rfl⟩ := covered
    rw [lowestOver_single path.nodup met fun s inside other => by
      simp [recorded.editcut, other, free s inside]]
    simp [recorded.editcut, cuts.1, cuts.2, free scope met]
  · rename_i apart
    refine lowestOver_eq_none.mpr fun s inside => ?_
    have other : ¬((p ∈ lost ∧ p ≠ "__proto__") ∧ s = scope ∧ i = id) := by
      rintro ⟨cuts, rfl, theirs⟩
      exact apart (by simp [cuts.1, cuts.2, inside, theirs])
    simp [recorded.editcut, other, free s inside]

end Cuts

/-- Each right of someone's that their new entries take has its cut recorded, or a cut with
nothing to keep. `u` is the view with those entries.
-/
structure Covered (v u : View) (id : Key) (posts : Bool) (lost : List String)
    (entries : List CutEntry)
    : Prop where
  writes : ∀ scope chain, IsChain v scope chain → State.canWrite v chain id = true
    → State.canWrite u chain id = false
    → posts = true ∨ NamesNothing entries (State.cutAt v chain id)
  edits : ∀ scope chain, IsChain v scope chain → ∀ p, State.can v chain id p = true
    → State.can u chain id p = false
    → (p ∈ lost ∧ p ≠ "__proto__") ∨ NamesNothing entries (State.editCutAt v chain id p)

section Kept

variable {u v w : View} {scope : Scope} {id : Key} {posts : Bool} {lost : List String}
  {entries : List CutEntry}

/-- Where one identity's entries change in a scope and below, what they had is kept just when
what the change takes is covered.
-/
theorem keepsHeld_iff_covered (cuts : CutsRecorded v w scope id posts lost entries)
    (same : SameRoster u w)
    (others : ∀ i, i ≠ id → ∀ chain, SameStanding v u chain i)
    (apart : ∀ t chain, IsChain v t chain → scope ∉ scopesOf chain
      → SameStanding v u chain id)
    : KeepsHeld (some entries) v w ↔ Covered v u id posts lost entries := by
  have now (chain : List Key) (i : Key)
      : State.canWrite w chain i = State.canWrite u chain i
        ∧ ∀ p, State.can w chain i p = State.can u chain i p :=
    ⟨same.standing.canWrite, fun p => same.standing.can⟩
  have writes {t : Scope} {chain : List Key} (path : IsChain v t chain) (i : Key) :=
    limitKept_iff (State.canWrite v chain i) (State.canWrite w chain i)
      fun log (uncut : State.cutAt v chain i log = none) => cuts.cutAt path uncut
  have edits {t : Scope} {chain : List Key} (path : IsChain v t chain) (i : Key) (p : String) :=
    limitKept_iff (State.can v chain i p) (State.can w chain i p)
      fun log (uncut : State.editCutAt v chain i p log = none) => cuts.editCutAt path uncut
  simp only [now] at writes edits
  constructor
  · intro kept
    refine ⟨fun t chain path may gone => ?_, fun t chain path p may gone => ?_⟩
    · refine ((writes path id).mp (fun log => ?_) may gone).imp_left fun recorded => ?_
      · have here := (kept t chain path id log).1
        rwa [limitOf_eq_reach, limitOf_eq_reach, (now chain id).1] at here
      · exact (Bool.and_eq_true_iff.mp recorded).1
    · refine ((edits path id p).mp (fun log => ?_) may gone).imp_left fun recorded => ?_
      · have here := (kept t chain path id log).2 p
        rwa [editLimit_eq_reach, editLimit_eq_reach, (now chain id).2] at here
      · exact of_decide_eq_true (Bool.and_eq_true_iff.mp recorded).1
  · -- Elsewhere, and for everyone else, nothing is taken.
    intro covered t chain path i log
    have still (away : i ≠ id ∨ scope ∉ scopesOf chain) : SameStanding v u chain i := by
      by_cases theirs : i = id
      · subst theirs
        exact apart t chain path (away.resolve_left fun no => no rfl)
      · exact others i theirs chain
    refine ⟨?_, fun p => ?_⟩
    · rw [limitOf_eq_reach, limitOf_eq_reach, (now chain i).1]
      refine (writes path i).mpr (fun may gone => ?_) log
      by_cases here : i = id ∧ scope ∈ scopesOf chain
      · obtain ⟨rfl, met⟩ := here
        exact (covered.writes t chain path may gone).imp_left fun recorded => by
          simp [recorded, met]
      · rw [(still (not_and_or.mp here)).canWrite, may] at gone
        cases gone
    · rw [editLimit_eq_reach, editLimit_eq_reach, (now chain i).2]
      refine (edits path i p).mpr (fun may gone => ?_) log
      by_cases here : i = id ∧ scope ∈ scopesOf chain
      · obtain ⟨rfl, met⟩ := here
        exact (covered.edits t chain path p may gone).imp_left fun recorded => by
          simp [recorded.1, recorded.2, met]
      · rw [(still (not_and_or.mp here)).can, may] at gone
        cases gone

theorem keepsHeld_of_takesNothing {cut : Option (List CutEntry)} (cuts : SameCuts v w)
    (taken : ∀ i, TakesNothing v w i)
    : KeepsHeld cut v w := by
  intro t chain path i log
  refine ⟨?_, fun p => ?_⟩
  · rw [limitOf_eq_reach, limitOf_eq_reach]
    exact limitKept_of_still (cuts.cutAt chain i) (taken i t chain path).1 log
  · rw [editLimit_eq_reach, editLimit_eq_reach]
    exact limitKept_of_still (cuts.editCutAt chain i p) ((taken i t chain path).2 p) log

/-- A decision without a cut keeps what everyone had just when it takes nothing. -/
theorem keepsHeld_iff_takesNothing (cuts : SameCuts v w)
    : KeepsHeld none v w ↔ ∀ i, TakesNothing v w i := by
  refine ⟨fun kept i t chain path => ⟨?_, fun p => ?_⟩, keepsHeld_of_takesNothing cuts⟩
  · refine still_of_limitKept (exists_uncut v chain i) (cuts.cutAt chain i) fun log => ?_
    have here := (kept t chain path i log).1
    rwa [limitOf_eq_reach, limitOf_eq_reach] at here
  · refine still_of_limitKept (exists_edit_uncut v chain i p) (cuts.editCutAt chain i p)
      fun log => ?_
    have here := (kept t chain path i log).2 p
    rwa [editLimit_eq_reach, editLimit_eq_reach] at here

end Kept

end Hypergraph.Decisions
