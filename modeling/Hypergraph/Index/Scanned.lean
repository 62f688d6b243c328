import Hypergraph.Index.Scan

/-! Indexing skips no block: below the position that is saved every block is done, and each block
past it is a hole, in the batch under way or still to be scanned; in every run in which a log
that lost a batch commits no other before it is opened again.
-/

namespace Hypergraph.Index

open Log

variable {log log' : Log} {top seq : Nat}

-- Where a block can be

/-- The block was handed to `#one` in a committed transaction, is known to be wiped, or was
judged over the write limit.
-/
def Done (log : Log) (seq : Nat) : Prop :=
  seq ∈ log.wiped ∨ seq ∈ log.committed ∨ seq ∈ log.overs

instance : Decidable (Done log seq) := inferInstanceAs (Decidable (_ ∨ _ ∨ _))

/-- The blocks of the batch under way. -/
def Phase.flight : Phase → List Nat
  | .taking _ batch | .fetching _ _ batch | .scanning _ batch | .committing batch _ => batch
  | .reading seq _ batch | .asking seq _ batch => seq :: batch
  | .judging _ todo kept => todo ++ kept
  | .idle | .starting | .resting | .settling _ => []

/-- And the hole whose block is read. -/
def Phase.picked : Phase → List Nat
  | .fetching seq _ batch => seq :: batch
  | phase => phase.flight

/-- A block is done, or a hole, or in the batch under way. -/
def Pursued (log : Log) (seq : Nat) : Prop :=
  Done log seq ∨ seq ∈ log.holes ∨ seq ∈ log.phase.flight

-- What a step does to a block

variable {locked waits : Nat → Bool}

theorem done_learn (done : Done log seq) (learn : Learn log log') : Done log' seq := by
  cases learn with
  | wipe other => exact done.imp_left fun known => mem_addTo.mpr (.inl known)
  | _ => exact done

theorem done_turn (done : Done log seq) (turn : Turn locked waits log log') : Done log' seq := by
  cases turn with
  | judgeOver phase positive =>
      exact done.imp_right (Or.imp_right fun over_ => mem_addTo.mpr (.inl over_))
  | _ => exact done

theorem done_commit (done : Done log seq) (commit : Commit log log') : Done log' seq := by
  obtain ⟨phase⟩ := commit
  exact done.imp_right (Or.imp_left fun handed => List.mem_append_left _ handed)

theorem pursued_learn (pursued : Pursued log seq) (learn : Learn log log')
    : Pursued log' seq := by
  rcases pursued with done | hole | flight
  · exact .inl (done_learn done learn)
  · cases learn with
    | wiped other known =>
        by_cases here : seq = other
        · exact .inl (.inl (here ▸ known))
        · exact .inr (.inl (mem_without.mpr ⟨hole, here⟩))
    | _ => exact .inr (.inl hole)
  · cases learn with
    | index idle =>
        rw [idle] at flight
        cases flight
    | _ => exact .inr (.inr flight)

theorem pursued_commit (positive : 0 < seq) (pursued : Pursued log seq) (commit : Commit log log')
    : Pursued log' seq := by
  rcases pursued with done | hole | flight
  · exact .inl (done_commit done commit)
  · obtain ⟨phase⟩ := commit
    exact .inr (.inl hole)
  · obtain ⟨phase⟩ := commit
    rw [phase] at flight
    refine .inl (.inr (.inl (List.mem_append_right _ (List.mem_filter.mpr ⟨flight, ?_⟩))))
    exact decide_eq_true positive

/-- A run loses no block: what it looks at is a hole, or goes on in its batch. -/
theorem pursued_turn (pursued : Pursued log seq) (turn : Turn locked waits log log')
    : Pursued log' seq := by
  rcases pursued with done | pursued
  · exact .inl (done_turn done turn)
  unfold Pursued
  cases turn with
  | start phase | next phase | around phase | more phase | quiet phase | settle phase | took phase
  | queue phase | skip phase | fetch phase =>
      rw [phase] at pursued
      exact .inr pursued
  | jump phase | scan phase =>
      rw [phase] at pursued
      refine .inr (pursued.imp_right fun listed => ?_)
      first
      | exact List.mem_cons_of_mem _ listed
      | exact phase ▸ listed
  | fetched phase =>
      rw [phase] at pursued
      refine .inr (pursued.imp_right fun listed => ?_)
      split
      · exact List.mem_append_left _ listed
      · exact listed
  | read phase =>
      rw [phase] at pursued
      split
      · exact .inr (by simpa [Phase.flight, or_comm] using pursued)
      · exact .inr pursued
  | asked phase =>
      rw [phase] at pursued
      rcases pursued with hole | listed
      · refine .inr (.inl ?_)
        split
        · exact hole
        · exact mem_addTo.mpr (.inl hole)
      · rcases List.mem_cons.mp listed with rfl | listed
        · split
          · rename_i known
            exact .inl (.inl known)
          · exact .inr (.inl (mem_addTo.mpr (.inr rfl)))
        · exact .inr (.inr listed)
  | @lock end_ batch phase whole =>
      rw [phase] at pursued
      apply Or.inr
      simp only [Phase.flight, List.append_nil, List.mem_filter, mem_lockHoles] at pursued ⊢
      by_cases listed : seq ∈ batch
      · rw [if_pos listed]
        cases isLocked locked seq <;> simp [listed]
      · rw [if_neg listed]
        exact .inl (pursued.resolve_right listed)
  | judgeOver phase positive =>
      rw [phase] at pursued
      simp only [Done, Phase.flight, List.mem_append, mem_without, mem_addTo,
        List.mem_singleton] at pursued ⊢
      tauto
  | judgeOk phase | judgeWait phase positive =>
      rw [phase] at pursued
      simp only [Phase.flight, List.mem_append, mem_addTo, List.mem_cons] at pursued ⊢
      tauto

/-- A run's holes and batch are of those it had, and of the block it scans. -/
theorem sources_turn (turn : Turn locked waits log log')
    (pursued : seq ∈ log'.holes ∨ seq ∈ log'.phase.picked)
    : (seq ∈ log.holes ∨ seq ∈ log.phase.picked)
      ∨ (seq = log.scanned ∧ log'.scanned = log.scanned + 1) := by
  cases turn with
  | start phase | next phase | around phase | more phase | quiet phase | settle phase =>
      rcases pursued with hole | listed
      · exact .inl (.inl hole)
      · cases listed
  | skip phase | took phase | queue phase =>
      rw [phase]
      exact .inl pursued
  | jump phase => exact .inl pursued
  | fetch phase room hole =>
      rw [phase]
      rcases pursued with listed | listed
      · exact .inl (.inl listed)
      · rcases List.mem_cons.mp listed with rfl | listed
        · exact .inl (.inl hole)
        · exact .inl (.inr listed)
  | scan phase =>
      rw [phase]
      rcases pursued with listed | listed
      · exact .inl (.inl listed)
      · rcases List.mem_cons.mp listed with rfl | listed
        · exact .inr ⟨rfl, rfl⟩
        · exact .inl (.inr listed)
  | fetched phase =>
      rw [phase]
      refine .inl (pursued.imp_right fun listed => ?_)
      dsimp only [Phase.picked, Phase.flight] at listed ⊢
      split at listed
      · simpa [or_comm] using listed
      · exact List.mem_cons_of_mem _ listed
  | read phase =>
      rw [phase]
      split at pursued
      · exact .inl (by simpa [Phase.picked, Phase.flight, or_comm] using pursued)
      · exact .inl pursued
  | asked phase =>
      rw [phase]
      split at pursued
      · exact .inl (pursued.imp_right (List.mem_cons_of_mem _))
      · rcases pursued with hole | listed
        · rcases mem_addTo.mp hole with hole | rfl
          · exact .inl (.inl hole)
          · exact .inl (.inr List.mem_cons_self)
        · exact .inl (.inr (List.mem_cons_of_mem _ listed))
  | lock phase whole =>
      rw [phase]
      simp only [Phase.picked, Phase.flight, List.append_nil, List.mem_filter, mem_lockHoles]
        at pursued ⊢
      split at pursued <;> simp_all
  | judgeOver phase positive =>
      rw [phase]
      simp only [Phase.picked, Phase.flight, List.mem_append, mem_without, List.mem_singleton]
        at pursued ⊢
      tauto
  | judgeOk phase | judgeWait phase positive =>
      rw [phase]
      simp only [Phase.picked, Phase.flight, List.mem_append, mem_addTo, List.mem_cons]
        at pursued ⊢
      tauto

/-- What a step leaves as it is, but for one that commits or opens the log again. -/
structure Stays (log log' : Log) : Prop where
  from_ : log'.from_ = log.from_
  failed : log'.failed = log.failed
  persisted : log'.persisted = log.persisted

theorem stays_turn (turn : Turn locked waits log log') : Stays log log' := by
  cases turn <;> exact ⟨rfl, rfl, rfl⟩

theorem stays_learn (learn : Learn log log') : Stays log log' := by
  cases learn <;> exact ⟨rfl, rfl, rfl⟩

/-- With nothing to pass over, a run scans one block at a time. -/
theorem scanned_turn (turn : Turn locked waits log log') (noSkip : log.skip = none)
    : log'.skip = none ∧ (log'.scanned = log.scanned
      ∨ (log'.scanned = log.scanned + 1 ∧ log.scanned ∈ log'.phase.flight)) := by
  cases turn with
  | jump phase room more skip =>
      rw [noSkip] at skip
      cases skip
  | scan => exact ⟨noSkip, .inr ⟨rfl, List.mem_cons_self⟩⟩
  | _ => exact ⟨noSkip, .inl rfl⟩

/-- A batch is to be committed: it was judged, and the position is the log's. -/
theorem queued_turn {batch : List Nat} {indexed : Nat} (turn : Turn locked waits log log')
    (committing : log'.phase = .committing batch indexed)
    : log.phase.flight = batch ∧ indexed = log.position ∧ ∀ seq, Done log seq → Done log' seq := by
  refine ⟨?_, ?_, fun seq done => done_turn done turn⟩
  all_goals
    cases turn with
    | queue phase =>
        cases committing
        first
        | rfl
        | rw [phase]
          rfl
    | read phase =>
        split at committing <;> cases committing
    | jump phase =>
        rw [phase] at committing
        cases committing
    | _ => cases committing

-- What is known below the highest the scan was

/-- What is known of the blocks below `top`, the highest the scan was since the log was opened.
-/
structure Covers (log : Log) (top : Nat) : Prop where
  scanned : log.scanned ≤ top
  bounded : ∀ seq, seq ∈ log.holes ∨ seq ∈ log.phase.picked → seq < top
  covered : log.failed = false → ∀ seq, log.from_ ≤ seq → seq < top → Pursued log seq
  /-- A position to be saved has nothing below it but what its batch brings. -/
  position : log.failed = false → ∀ batch indexed, log.phase = .committing batch indexed
    → ∀ seq, log.from_ ≤ seq → seq < indexed → Done log seq ∨ seq ∈ batch
  saved : ∀ seq, log.from_ ≤ seq → seq < log.persisted → Done log seq
  /-- The header isn't read as a record. -/
  header : 0 < log.from_
  start : log.from_ ≤ top
  noSkip : log.skip = none

def Sound (log : Log) : Prop := ∃ top, Covers log top

theorem Sound.noSkip (sound : Sound log) : log.skip = none := by
  obtain ⟨top, covers⟩ := sound
  exact covers.noSkip

theorem Covers.below_position (covers : Covers log top) (fine : log.failed = false)
    (above_ : log.from_ ≤ seq) (below_ : seq < log.position)
    : Done log seq ∨ seq ∈ log.phase.flight := by
  have bounded : seq < top ∧ seq ∉ log.holes := by
    unfold Log.position at below_
    cases lowest : log.holes.min? with
    | none =>
        rw [lowest] at below_
        rw [List.min?_eq_none_iff] at lowest
        rw [lowest]
        exact ⟨below_.trans_le covers.scanned, by simp⟩
    | some low =>
        rw [lowest] at below_
        rw [List.min?_eq_some_iff] at lowest
        refine ⟨below_.trans (covers.bounded low (.inl lowest.1)), fun listed => ?_⟩
        exact absurd below_ (Nat.not_lt.mpr (lowest.2 seq listed))
  rcases covers.covered fine seq above_ bounded.1 with done | hole | flight
  · exact .inl done
  · exact absurd hole bounded.2
  · exact .inr flight

theorem Covers.turn (covers : Covers log top) (turn : Turn locked waits log log')
    : Covers log' (max top log'.scanned) := by
  have stays := stays_turn turn
  obtain ⟨noSkip, scanned⟩ := scanned_turn turn covers.noSkip
  refine ⟨Nat.le_max_right _ _, ?_, ?_, ?_, ?_, stays.from_ ▸ covers.header, ?_, noSkip⟩
  · intro seq pursued
    rcases sources_turn turn pursued with before | ⟨rfl, more⟩
    · exact lt_max_of_lt_left (covers.bounded seq before)
    · exact lt_max_of_lt_right (more ▸ Nat.lt_succ_self _)
  · rw [stays.failed, stays.from_]
    intro fine seq above_ below_
    rcases Nat.lt_or_ge seq top with known | new
    · exact pursued_turn (covers.covered fine seq above_ known) turn
    · have below_ := (lt_max_iff.mp below_).resolve_left (Nat.not_lt.mpr new)
      have reached := covers.scanned
      rcases scanned with same | ⟨more, here⟩
      · omega
      · have same : seq = log.scanned := by omega
        exact .inr (.inr (same ▸ here))
  · rw [stays.failed, stays.from_]
    intro fine batch indexed committing seq above_ below_
    obtain ⟨flight, rfl, done⟩ := queued_turn turn committing
    exact (covers.below_position fine above_ below_).imp (done seq) fun here => flight ▸ here
  · rw [stays.from_, stays.persisted]
    exact fun seq above_ below_ => done_turn (covers.saved seq above_ below_) turn
  · rw [stays.from_]
    exact covers.start.trans (Nat.le_max_left _ _)

/-- What arrives or becomes known leaves the batch under way, and its position, as they are. -/
theorem Covers.learn (covers : Covers log top) (learn : Learn log log') : Covers log' top := by
  have stays := stays_learn learn
  have here : log'.scanned ≤ top ∧ log'.skip = none
      ∧ ∀ seq, seq ∈ log'.holes ∨ seq ∈ log'.phase.picked → seq < top := by
    cases learn with
    | rescan => exact ⟨covers.start, rfl, covers.bounded⟩
    | wiped other known =>
        exact ⟨covers.scanned, covers.noSkip, fun seq pursued =>
          covers.bounded seq (pursued.imp_left fun hole => (mem_without.mp hole).1)⟩
    | index idle =>
        exact ⟨covers.scanned, covers.noSkip, fun seq pursued =>
          covers.bounded seq (.inl (pursued.resolve_right List.not_mem_nil))⟩
    | _ => exact ⟨covers.scanned, covers.noSkip, covers.bounded⟩
  refine ⟨here.1, here.2.2, ?_, ?_, ?_, stays.from_ ▸ covers.header, stays.from_ ▸ covers.start,
    here.2.1⟩
  · rw [stays.failed, stays.from_]
    exact fun fine seq above_ below_ => pursued_learn (covers.covered fine seq above_ below_) learn
  · rw [stays.failed, stays.from_]
    intro fine batch indexed committing seq above_ below_
    have before : log.phase = .committing batch indexed := by
      cases learn with
      | index idle => cases committing
      | _ => exact committing
    exact (covers.position fine batch indexed before seq above_ below_).imp_left
      fun done => done_learn done learn
  · rw [stays.from_, stays.persisted]
    exact fun seq above_ below_ => done_learn (covers.saved seq above_ below_) learn

theorem Covers.commit (covers : Covers log top) (fine : log.failed = false)
    (commit : Commit log log')
    : Covers log' top := by
  have pursued := fun seq (above_ : log.from_ ≤ seq) (below_ : seq < top) =>
    pursued_commit (covers.header.trans_le above_) (covers.covered fine seq above_ below_) commit
  have done := fun seq (done : Done log seq) => done_commit done commit
  obtain ⟨committing⟩ := commit
  refine ⟨covers.scanned, fun seq listed => ?_, fun _ => pursued, ?_, fun seq above_ below_ => ?_,
    covers.header, covers.start, covers.noSkip⟩
  · exact covers.bounded seq (.inl (listed.resolve_right List.not_mem_nil))
  · exact fun _ batch indexed committing => by cases committing
  · rcases covers.position fine _ _ committing seq above_ below_ with before | listed
    · exact done seq before
    · refine .inr (.inl (List.mem_append_right _ (List.mem_filter.mpr ⟨listed, ?_⟩)))
      exact decide_eq_true (covers.header.trans_le above_)

theorem Covers.fail {batch : List Nat} {indexed : Nat} (covers : Covers log top)
    (committing : log.phase = .committing batch indexed)
    : Covers { log with
        uncommitted := false
        phase := .idle
        failed := log.failed || !(records batch).isEmpty } top := by
  refine ⟨covers.scanned, fun seq listed => ?_, ?_, ?_, covers.saved, covers.header, covers.start,
    covers.noSkip⟩
  rotate_left 2
  · exact fun _ batch indexed committing => by cases committing
  · exact covers.bounded seq (.inl (listed.resolve_right List.not_mem_nil))
  · intro fine seq above_ below_
    obtain ⟨fine, empty⟩ : log.failed = false ∧ records batch = [] := by simpa using fine
    have covered := covers.covered fine seq above_ below_
    unfold Pursued at covered
    rw [committing] at covered
    rcases covered with done | hole | listed
    · exact .inl done
    · exact .inr (.inl hole)
    · have here : seq ∈ records batch :=
        List.mem_filter.mpr ⟨listed, decide_eq_true (Nat.lt_of_lt_of_le covers.header above_)⟩
      rw [empty] at here
      cases here

theorem Covers.open_ (covers : Covers log top)
    : Covers log.open_ (max log.persisted log.from_) where
  scanned := Nat.le_refl _
  bounded := fun seq pursued => by rcases pursued with listed | listed <;> cases listed
  covered := by
    intro _ seq above_ below_
    refine .inl (covers.saved seq above_ ?_)
    rcases lt_max_iff.mp below_ with saved | early
    · exact saved
    · exact absurd early (Nat.not_lt.mpr above_)
  position := fun _ batch indexed committing => by cases committing
  saved := covers.saved
  header := covers.header
  start := Nat.le_max_right _ _
  noSkip := rfl

/-- Every step keeps what is known of the blocks, but for a batch committed after one was lost. -/
theorem sound_step (sound : Sound log) (step : Step log log')
    (careful : log.failed = true → ¬ Commit log log')
    : Sound log' := by
  obtain ⟨top, covers⟩ := sound
  cases step with
  | learn learn => exact ⟨top, covers.learn learn⟩
  | turn turn => exact ⟨_, covers.turn turn⟩
  | commit commit =>
      have fine : log.failed = false := by
        by_contra failed
        exact careful (by simpa using failed) commit
      exact ⟨top, covers.commit fine commit⟩
  | fail committing => exact ⟨top, covers.fail committing⟩
  | reopen => exact ⟨_, covers.open_⟩

theorem sound_begin {from_ : Nat} (limit : Option Nat) (positive : 0 < from_)
    : Sound (Log.begin from_ limit) := by
  refine ⟨from_, Nat.le_refl _, ?_, ?_, ?_, ?_, positive, Nat.le_refl _, rfl⟩
  · rintro seq (listed | listed) <;> cases listed
  · exact fun _ seq above_ below_ => absurd below_ (Nat.not_lt.mpr above_)
  · exact fun _ batch indexed committing => by cases committing
  · exact fun seq above_ below_ => absurd below_ (Nat.not_lt.mpr above_)

theorem sound_run {from_ : Nat} {limit : Option Nat} (positive : 0 < from_)
    (run : Run (Log.begin from_ limit) log)
    : Sound log := by
  induction run with
  | refl => exact sound_begin limit positive
  | step _ step careful ih => exact sound_step ih step careful

-- Never twice

/-- The copy of what arrived, as far as it is still to be looked at. -/
def Phase.left : Phase → List Nat
  | .taking left _ | .fetching _ left _ => left
  | _ => []

/-- The batch's holes are filled. -/
def Phase.filled : Phase → Bool
  | .judging _ _ _ | .committing _ _ => true
  | _ => false

/-- What is handed, and the batch under way, hold each block once; a block that was handed is
neither a hole nor in the batch, nor still to be scanned.
-/
structure Fresh (log : Log) : Prop where
  handed : log.handed.Nodup
  behind : ∀ seq ∈ log.handed, seq < log.scanned ∧ seq ∉ log.holes ∧ seq ∉ log.phase.picked
  picked : log.phase.picked.Nodup
  scanned : ∀ seq, seq ∈ log.holes ∨ seq ∈ log.phase.picked → seq < log.scanned
  arrived : log.arrived.Nodup
  left : log.phase.left.Nodup ∧ ∀ seq ∈ log.phase.left, seq ∉ log.phase.picked
  filled : log.phase.filled = true → ∀ seq ∈ log.phase.picked, seq ∉ log.holes

theorem nodup_addTo {set : List Nat} (nodup : set.Nodup) : (addTo set seq).Nodup := by
  unfold addTo
  split
  · exact nodup
  · rename_i apart
    exact List.nodup_append.mpr ⟨nodup, List.nodup_singleton seq, fun x listed y here same =>
      apart (List.mem_singleton.mp here ▸ same ▸ listed)⟩

theorem nodup_addAll {set holes : List Nat} (nodup : set.Nodup)
    : (holes.foldl addTo set).Nodup := by
  induction holes generalizing set with
  | nil => exact nodup
  | cons seq rest ih => exact ih (nodup_addTo nodup)

theorem Fresh.learn (fresh : Fresh log) (handed : log'.handed = log.handed)
    (phase : log'.phase = log.phase) (scanned : log'.scanned = log.scanned)
    (holes : ∀ seq ∈ log'.holes, seq ∈ log.holes) (arrived : log'.arrived.Nodup)
    : Fresh log' where
  handed := handed ▸ fresh.handed
  behind := by
    rw [handed, phase, scanned]
    intro seq listed
    obtain ⟨before, apart, out⟩ := fresh.behind seq listed
    exact ⟨before, fun hole => apart (holes seq hole), out⟩
  picked := phase ▸ fresh.picked
  scanned := by
    rw [phase, scanned]
    exact fun seq pursued => fresh.scanned seq (pursued.imp_left (holes seq))
  arrived := arrived
  left := phase ▸ fresh.left
  filled := by
    rw [phase]
    exact fun filled seq listed hole => fresh.filled filled seq listed (holes seq hole)

theorem fresh_learn (fresh : log.rescanned = false → Fresh log) (learn : Learn log log')
    : log'.rescanned = false → Fresh log' := by
  cases learn with
  | append n | missed seq | clear seq | wipe seq | again running =>
      exact fun once => (fresh once).learn rfl rfl rfl (fun _ listed => listed) (fresh once).arrived
  | download seq =>
      intro once
      refine (fresh once).learn rfl rfl rfl (fun _ listed => listed) ?_
      split
      · exact nodup_addTo (fresh once).arrived
      · exact (fresh once).arrived
  | recheck =>
      exact fun once => (fresh once).learn rfl rfl rfl (fun _ listed => listed)
        (nodup_addAll (fresh once).arrived)
  | wiped seq known =>
      exact fun once => (fresh once).learn rfl rfl rfl
        (fun _ listed => (mem_without.mp listed).1) (fresh once).arrived
  | rescan => exact fun once => absurd once (by simp)
  | index idle =>
      intro once
      have fresh := fresh once
      refine ⟨fresh.handed, fun seq listed => ?_, List.nodup_nil, fun seq pursued => ?_,
        fresh.arrived, ⟨List.nodup_nil, fun seq listed => ?_⟩, fun filled => by cases filled⟩
      · obtain ⟨before, apart, _⟩ := fresh.behind seq listed
        exact ⟨before, apart, List.not_mem_nil⟩
      · exact fresh.scanned seq (.inl (pursued.resolve_right List.not_mem_nil))
      · cases listed

theorem turn_scanned_le (turn : Turn locked waits log log') : log.scanned ≤ log'.scanned := by
  cases turn with
  | jump phase room more =>
      dsimp only
      split
      · split <;> omega
      · exact Nat.le_refl _
  | scan => exact Nat.le_succ _
  | _ => exact Nat.le_refl _

theorem turn_handed (turn : Turn locked waits log log') : log'.handed = log.handed := by
  cases turn <;> rfl

theorem turn_arrived (nodup : log.arrived.Nodup) (turn : Turn locked waits log log')
    : log'.arrived.Nodup := by
  cases turn with
  | skip | fetch => exact nodup.filter _
  | _ => exact nodup

theorem turn_picked (fresh : Fresh log) (turn : Turn locked waits log log')
    : log'.phase.picked.Nodup := by
  have picked := fresh.picked
  have apart := fresh.left.2
  cases turn with
  | start phase | next phase | around phase | more phase | quiet phase | settle phase =>
      exact List.nodup_nil
  | skip phase | took phase | queue phase =>
      rw [phase] at picked
      exact picked
  | jump phase => exact picked
  | fetch phase =>
      rw [phase] at picked apart
      exact List.nodup_cons.mpr ⟨apart _ List.mem_cons_self, picked⟩
  | @fetched seq left batch phase =>
      rw [phase] at picked
      split
      · exact (List.perm_append_singleton seq batch).nodup_iff.mpr picked
      · exact (List.nodup_cons.mp picked).2
  | scan phase =>
      have scanned := fresh.scanned
      rw [phase] at picked scanned
      refine List.nodup_cons.mpr ⟨fun here => ?_, picked⟩
      exact Nat.lt_irrefl _ (scanned log.scanned (.inr here))
  | @read seq end_ batch phase =>
      rw [phase] at picked
      split
      · exact (List.perm_append_singleton seq batch).nodup_iff.mpr picked
      · exact picked
  | asked phase =>
      rw [phase] at picked
      exact (List.nodup_cons.mp picked).2
  | lock phase =>
      rw [phase] at picked
      simpa [Phase.picked, Phase.flight] using picked.filter _
  | judgeOk phase =>
      rw [phase] at picked
      simpa [Phase.picked, Phase.flight] using picked
  | @judgeWait seq end_ todo kept phase | @judgeOver seq end_ todo kept phase =>
      rw [phase] at picked
      have sub : (todo ++ kept).Sublist ((todo ++ [seq]) ++ kept) :=
        List.Sublist.append (List.sublist_append_left todo [seq]) (List.Sublist.refl kept)
      exact picked.sublist sub

theorem turn_left (fresh : Fresh log) (turn : Turn locked waits log log')
    : log'.phase.left.Nodup ∧ ∀ seq ∈ log'.phase.left, seq ∉ log'.phase.picked := by
  obtain ⟨nodup, apart⟩ := fresh.left
  have none_ : ([] : List Nat).Nodup ∧ ∀ seq ∈ ([] : List Nat), seq ∉ log'.phase.picked :=
    ⟨List.nodup_nil, fun seq listed => by cases listed⟩
  cases turn with
  | start | next | around | more => exact ⟨fresh.arrived, fun seq _ listed => by cases listed⟩
  | skip phase =>
      rw [phase] at nodup apart
      exact ⟨(List.nodup_cons.mp nodup).2, fun x listed => apart x (List.mem_cons_of_mem _ listed)⟩
  | fetch phase =>
      rw [phase] at nodup apart
      obtain ⟨new, rest⟩ := List.nodup_cons.mp nodup
      refine ⟨rest, fun x listed here => ?_⟩
      rcases List.mem_cons.mp here with rfl | here
      · exact new listed
      · exact apart x (List.mem_cons_of_mem _ listed) here
  | fetched phase =>
      rw [phase] at nodup apart
      refine ⟨nodup, fun x listed here => apart x listed ?_⟩
      dsimp only [Phase.picked, Phase.flight] at here ⊢
      split at here
      · simpa [or_comm] using here
      · exact List.mem_cons_of_mem _ here
  | read phase =>
      split <;> exact ⟨List.nodup_nil, fun seq listed => by cases listed⟩
  | jump phase =>
      rw [phase] at nodup
      rw [phase]
      exact ⟨List.nodup_nil, fun seq listed => by cases listed⟩
  | _ => exact none_

theorem turn_filled (fresh : Fresh log) (turn : Turn locked waits log log')
    (filled : log'.phase.filled = true)
    : ∀ seq ∈ log'.phase.picked, seq ∉ log'.holes := by
  have before := fresh.filled
  have picked := fresh.picked
  cases turn with
  | lock phase =>
      intro x listed hole
      simp only [Phase.picked, Phase.flight, List.append_nil, List.mem_filter] at listed
      rw [mem_lockHoles, if_pos listed.1] at hole
      simp [hole] at listed
  | @judgeOk seq end_ todo kept phase =>
      rw [phase] at before
      intro x listed
      refine before rfl x ?_
      simpa [Phase.picked, Phase.flight] using listed
  | @judgeWait seq end_ todo kept phase =>
      rw [phase] at before picked
      have new : seq ∉ todo ++ kept := by
        have perm : ((todo ++ [seq]) ++ kept).Perm (seq :: (todo ++ kept)) := by
          simp
        exact (List.nodup_cons.mp (perm.nodup_iff.mp picked)).1
      intro x listed hole
      rcases mem_addTo.mp hole with hole | rfl
      · refine before rfl x ?_ hole
        rcases List.mem_append.mp listed with listed | listed <;>
          simp [Phase.picked, Phase.flight, listed]
      · exact new listed
  | @judgeOver seq end_ todo kept phase =>
      rw [phase] at before
      intro x listed hole
      refine before rfl x ?_ (mem_without.mp hole).1
      rcases List.mem_append.mp listed with listed | listed <;>
        simp [Phase.picked, Phase.flight, listed]
  | queue phase =>
      rw [phase] at before
      exact before rfl
  | read phase =>
      split at filled <;> cases filled
  | jump phase =>
      rw [phase] at filled
      cases filled
  | _ => cases filled

theorem Fresh.turn (fresh : Fresh log) (turn : Turn locked waits log log') : Fresh log' where
  handed := turn_handed turn ▸ fresh.handed
  behind := by
    rw [turn_handed turn]
    intro seq listed
    obtain ⟨before, apart, out⟩ := fresh.behind seq listed
    have none_ : ¬ (seq ∈ log'.holes ∨ seq ∈ log'.phase.picked) := by
      intro pursued
      rcases sources_turn turn pursued with (hole | here) | ⟨same, _⟩
      · exact apart hole
      · exact out here
      · omega
    exact ⟨before.trans_le (turn_scanned_le turn), not_or.mp none_⟩
  picked := turn_picked fresh turn
  scanned := by
    intro seq pursued
    rcases sources_turn turn pursued with before | ⟨rfl, more⟩
    · exact (fresh.scanned seq before).trans_le (turn_scanned_le turn)
    · exact more ▸ Nat.lt_succ_self _
  arrived := turn_arrived fresh.arrived turn
  left := turn_left fresh turn
  filled := turn_filled fresh turn

theorem fresh_turn (fresh : log.rescanned = false → Fresh log) (turn : Turn locked waits log log')
    : log'.rescanned = false → Fresh log' := by
  have same : log'.rescanned = log.rescanned := by
    cases turn <;> rfl
  exact fun once => (fresh (same ▸ once)).turn turn

theorem fresh_commit (fresh : log.rescanned = false → Fresh log) (commit : Commit log log')
    : log'.rescanned = false → Fresh log' := by
  obtain ⟨phase⟩ := commit
  rename_i batch indexed
  intro once
  have fresh := fresh once
  have picked := fresh.picked
  have filled := fresh.filled
  have behind := fresh.behind
  have scanned := fresh.scanned
  rw [phase] at picked filled behind scanned
  have brought : ∀ x ∈ records batch, x ∈ batch := fun x listed => List.mem_of_mem_filter listed
  refine ⟨?_, ?_, List.nodup_nil, ?_, fresh.arrived, ?_, fun filled => by cases filled⟩
  · refine List.nodup_append.mpr ⟨fresh.handed, picked.filter _, ?_⟩
    rintro x before y new rfl
    exact (behind x before).2.2 (brought x new)
  · intro x listed
    rcases List.mem_append.mp listed with before | new
    · obtain ⟨below_, apart, _⟩ := behind x before
      exact ⟨below_, apart, List.not_mem_nil⟩
    · exact ⟨scanned x (.inr (brought x new)), filled rfl x (brought x new), List.not_mem_nil⟩
  · rintro x (hole | listed)
    · exact scanned x (.inl hole)
    · cases listed
  · exact ⟨List.nodup_nil, fun seq listed => by cases listed⟩

theorem fresh_step (fresh : log.rescanned = false → Fresh log) (step : Step log log')
    : log'.rescanned = false → Fresh log' := by
  cases step with
  | learn learn => exact fresh_learn fresh learn
  | turn turn => exact fresh_turn fresh turn
  | commit commit => exact fresh_commit fresh commit
  | fail phase =>
      intro once
      have fresh := fresh once
      refine ⟨fresh.handed, fun seq listed => ?_, List.nodup_nil, fun seq pursued => ?_,
        fresh.arrived, ⟨List.nodup_nil, fun seq listed => ?_⟩, fun filled => by cases filled⟩
      · obtain ⟨before, apart, _⟩ := fresh.behind seq listed
        exact ⟨before, apart, List.not_mem_nil⟩
      · exact fresh.scanned seq (.inl (pursued.resolve_right List.not_mem_nil))
      · cases listed
  | reopen =>
      intro _
      constructor <;> simp [Log.open_, Phase.picked, Phase.flight, Phase.left, Phase.filled]

theorem fresh_run {from_ : Nat} {limit : Option Nat} (run : Run (Log.begin from_ limit) log)
    : log.rescanned = false → Fresh log := by
  induction run with
  | refl =>
      intro _
      constructor <;> simp [Log.begin, Phase.picked, Phase.flight, Phase.left, Phase.filled]
  | step _ step _ ih => exact fresh_step ih step

end Hypergraph.Index
