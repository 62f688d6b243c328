import Hypergraph.Index.Scanned

/-! No block is lost: once it is held, the log's next run, with nothing failing, hands it to the
index, and ends.
-/

namespace Hypergraph.Index

open Log

variable {locked waits : Nat → Bool} {log log' log'' : Log} {seq : Nat}

/-- A log goes on, its block `seq` held, with no task failing and without being opened again. -/
inductive Later (locked waits : Nat → Bool) (seq : Nat) (log : Log) : Log → Prop
  | refl : Later locked waits seq log log
  | learn {log' log'' : Log} : Later locked waits seq log log' → Learn log' log''
      → seq ∈ log''.held → Later locked waits seq log log''
  | turn {log' log'' : Log} : Later locked waits seq log log' → Turn locked waits log' log''
      → Later locked waits seq log log''
  | commit {log' log'' : Log} : Later locked waits seq log log' → Commit log' log''
      → Later locked waits seq log log''

/-- The holes are looked at again, and `index` is called (`#recheckHoles`), with no run under
way.
-/
def Log.look (log : Log) : Log :=
  { log with arrived := log.holes.foldl addTo log.arrived, phase := .starting }

-- What a run hands on

/-- How far the round under way scans. -/
def Phase.upTo : Phase → Option Nat
  | .scanning end_ _ | .reading _ end_ _ | .asking _ end_ _ | .judging end_ _ _
  | .settling end_ => some end_
  | _ => none

/-- Where a block that the run is to hand on can be: still to be scanned, a hole that arrived, or
in the batch.
-/
def Coming (log : Log) (seq : Nat) : Prop :=
  log.scanned ≤ seq ∨ (seq ∈ log.holes ∧ seq ∈ log.arrived) ∨ seq ∈ log.phase.picked

/-- The block is done, or a run is under way that comes to it. -/
structure Comes (log : Log) (seq : Nat) : Prop where
  running : log.phase ≠ .idle
  held : seq ∈ log.held
  positive : 0 < seq
  from_ : log.from_ ≤ seq
  ends : seq < log.end_
  upTo : ∀ end_, log.phase.upTo = some end_ → seq < end_
  /-- It is held, so that nobody has to ask whether it was wiped. -/
  asking : ∀ end_ batch, log.phase ≠ .asking seq end_ batch
  coming : Coming log seq

theorem Comes.go (comes : Comes log seq) (held : seq ∈ log'.held)
    (from_ : log'.from_ = log.from_) (ends : log.end_ ≤ log'.end_) (running : log'.phase ≠ .idle)
    (upTo : ∀ end_, log'.phase.upTo = some end_ → seq < end_)
    (asking : ∀ end_ batch, log'.phase ≠ .asking seq end_ batch) (coming : Coming log' seq)
    : Comes log' seq where
  running := running
  held := held
  positive := comes.positive
  from_ := from_ ▸ comes.from_
  ends := comes.ends.trans_le ends
  upTo := upTo
  asking := asking
  coming := coming

/-- The run goes on: a block that it comes to is still to be reached, or done. -/
theorem comes_turn (open_ : locked seq = false) (judged : waits seq = false)
    (noSkip : log.skip = none) (comes : Comes log seq) (turn : Turn locked waits log log')
    : Done log' seq ∨ Comes log' seq := by
  have coming := comes.coming
  have upTo := comes.upTo
  unfold Coming at coming
  cases turn with
  | start phase | next phase | around phase | more phase =>
      rw [phase] at coming
      refine .inr (comes.go comes.held rfl (Nat.le_refl _) (by simp [Log.round])
        (by simp [Log.round, Phase.upTo]) (by simp [Log.round]) ?_)
      rcases coming with ahead | hole | listed
      · exact .inl ahead
      · exact .inr (.inl hole)
      · cases listed
  | @skip other left batch phase room apart =>
      rw [phase] at coming
      refine .inr (comes.go comes.held rfl (Nat.le_refl _) (by simp) (by simp [Phase.upTo])
        (by simp) ?_)
      rcases coming with ahead | ⟨hole, arrived⟩ | listed
      · exact .inl ahead
      · have here : seq ≠ other := fun here => apart (here ▸ hole)
        exact .inr (.inl ⟨hole, mem_without.mpr ⟨arrived, here⟩⟩)
      · exact .inr (.inr listed)
  | @fetch other left batch phase room there =>
      rw [phase] at coming
      refine .inr (comes.go comes.held rfl (Nat.le_refl _) (by simp) (by simp [Phase.upTo])
        (by simp) ?_)
      rcases coming with ahead | ⟨hole, arrived⟩ | listed
      · exact .inl ahead
      · by_cases here : seq = other
        · exact .inr (.inr (here ▸ List.mem_cons_self))
        · exact .inr (.inl ⟨hole, mem_without.mpr ⟨arrived, here⟩⟩)
      · exact .inr (.inr (List.mem_cons_of_mem _ listed))
  | @fetched other left batch phase =>
      rw [phase] at coming
      refine .inr (comes.go comes.held rfl (Nat.le_refl _) (by simp) (by simp [Phase.upTo])
        (by simp) ?_)
      refine coming.imp_right (Or.imp_right fun listed => ?_)
      rcases List.mem_cons.mp listed with rfl | listed
      · rw [if_pos comes.held]
        exact List.mem_append_right _ (List.mem_singleton_self _)
      · split
        · exact List.mem_append_left _ listed
        · exact listed
  | @took left batch phase whole =>
      rw [phase] at coming
      refine .inr (comes.go comes.held rfl (Nat.le_refl _) (by simp) ?_ (by simp) coming)
      rintro end_ ⟨⟩
      exact comes.ends
  | jump phase room more skip =>
      rw [noSkip] at skip
      cases skip
  | @scan end_ batch phase room more =>
      rw [phase] at coming upTo
      refine .inr (comes.go comes.held rfl (Nat.le_refl _) (by simp) upTo (by simp) ?_)
      rcases coming with ahead | hole | listed
      · rcases Nat.eq_or_lt_of_le ahead with here | ahead
        · exact .inr (.inr (here ▸ List.mem_cons_self))
        · exact .inl ahead
      · exact .inr (.inl hole)
      · exact .inr (.inr (List.mem_cons_of_mem _ listed))
  | @read other end_ batch phase =>
      rw [phase] at coming upTo
      by_cases here : other ∈ log.held
      · refine .inr (comes.go comes.held rfl (Nat.le_refl _) ?_ ?_ ?_ ?_)
        · simp [here]
        · simpa [here, Phase.upTo] using upTo
        · simp [here]
        · refine coming.imp_right (Or.imp_right fun listed => ?_)
          simpa [here, Phase.picked, Phase.flight, or_comm] using listed
      · have apart : other ≠ seq := fun same => here (same ▸ comes.held)
        refine .inr (comes.go comes.held rfl (Nat.le_refl _) ?_ ?_ ?_ ?_)
        · simp [here]
        · simpa [here, Phase.upTo] using upTo
        · simp [here, apart]
        · refine coming.imp_right (Or.imp_right fun listed => ?_)
          simpa [here, Phase.picked, Phase.flight] using listed
  | @asked other end_ batch phase =>
      have apart : seq ≠ other := fun same => comes.asking end_ batch (same ▸ phase)
      rw [phase] at coming upTo
      refine .inr (comes.go comes.held rfl (Nat.le_refl _) (by simp) upTo (by simp) ?_)
      rcases coming with ahead | ⟨hole, arrived⟩ | listed
      · exact .inl ahead
      · refine .inr (.inl ⟨?_, arrived⟩)
        split
        · exact hole
        · exact mem_addTo.mpr (.inl hole)
      · exact .inr (.inr ((List.mem_cons.mp listed).resolve_left apart))
  | @lock end_ batch phase whole =>
      rw [phase] at coming upTo
      have unlocked : isLocked locked seq = false := by simp [isLocked, open_]
      refine .inr (comes.go comes.held rfl (Nat.le_refl _) (by simp) upTo (by simp) ?_)
      have inBatch : seq ∈ batch → Coming { log with
          holes := lockHoles locked log.holes batch
          phase := .judging end_ (batch.filter fun seq => !isLocked locked seq) [] } seq := by
        intro listed
        refine .inr (.inr ?_)
        simp [Phase.picked, Phase.flight, listed, unlocked]
      rcases coming with ahead | ⟨hole, arrived⟩ | listed
      · exact .inl ahead
      · by_cases listed : seq ∈ batch
        · exact inBatch listed
        · refine .inr (.inl ⟨?_, arrived⟩)
          exact mem_lockHoles.mpr (by rwa [if_neg listed])
      · exact inBatch listed
  | @judgeOk other end_ todo kept phase =>
      rw [phase] at coming upTo
      refine .inr (comes.go comes.held rfl (Nat.le_refl _) (by simp) upTo (by simp) ?_)
      refine coming.imp_right (Or.imp_right fun listed => ?_)
      simpa [Phase.picked, Phase.flight] using listed
  | @judgeWait other end_ todo kept phase positive late =>
      have apart : seq ≠ other := fun same => by
        rw [← same, judged] at late
        cases late
      rw [phase] at coming upTo
      refine .inr (comes.go comes.held rfl (Nat.le_refl _) (by simp) upTo (by simp) ?_)
      rcases coming with ahead | ⟨hole, arrived⟩ | listed
      · exact .inl ahead
      · exact .inr (.inl ⟨mem_addTo.mpr (.inl hole), arrived⟩)
      · refine .inr (.inr ?_)
        simpa [Phase.picked, Phase.flight, apart] using listed
  | @judgeOver other end_ todo kept phase positive =>
      by_cases here : seq = other
      · exact .inl (.inr (.inr (mem_addTo.mpr (.inr here))))
      rw [phase] at coming upTo
      refine .inr (comes.go comes.held rfl (Nat.le_refl _) (by simp) upTo (by simp) ?_)
      rcases coming with ahead | ⟨hole, arrived⟩ | listed
      · exact .inl ahead
      · exact .inr (.inl ⟨mem_without.mpr ⟨hole, here⟩, arrived⟩)
      · refine .inr (.inr ?_)
        simpa [Phase.picked, Phase.flight, here] using listed
  | @quiet end_ phase same =>
      rw [phase] at coming upTo
      exact .inr (comes.go comes.held rfl (Nat.le_refl _) (by simp) upTo (by simp) coming)
  | @queue end_ kept phase new =>
      rw [phase] at coming
      exact .inr (comes.go comes.held rfl (Nat.le_refl _) (by simp) (by simp [Phase.upTo]) (by simp)
        coming)
  | @settle end_ phase whole none_ _ =>
      exfalso
      rw [phase] at coming upTo
      rcases coming with ahead | ⟨hole, arrived⟩ | listed
      · exact Nat.lt_irrefl _ ((upTo end_ rfl).trans_le (whole.trans ahead))
      · rw [none_] at arrived
        cases arrived
      · cases listed

theorem comes_commit (comes : Comes log seq) (commit : Commit log log')
    : Done log' seq ∨ Comes log' seq := by
  have coming := comes.coming
  unfold Coming at coming
  obtain ⟨phase⟩ := commit
  rw [phase] at coming
  rcases coming with ahead | hole | listed
  · exact .inr (comes.go comes.held rfl (Nat.le_refl _) (by simp) (by simp [Phase.upTo]) (by simp)
      (.inl ahead))
  · exact .inr (comes.go comes.held rfl (Nat.le_refl _) (by simp) (by simp [Phase.upTo]) (by simp)
      (.inr (.inl hole)))
  · refine .inl (.inr (.inl (List.mem_append_right _ (List.mem_filter.mpr ⟨listed, ?_⟩))))
    exact decide_eq_true comes.positive

theorem end_le_append (n : Nat) : log.end_ ≤ ({ log with length := log.length + n } : Log).end_ := by
  unfold Log.end_
  dsimp only
  split
  · split <;> split <;> omega
  · omega

theorem subset_addAll {set holes : List Nat} (listed : seq ∈ set ∨ seq ∈ holes)
    : seq ∈ holes.foldl addTo set := by
  induction holes generalizing set with
  | nil => exact listed.resolve_right List.not_mem_nil
  | cons first rest ih =>
      apply ih
      rcases listed with listed | listed
      · exact .inl (mem_addTo.mpr (.inl listed))
      · rcases List.mem_cons.mp listed with rfl | listed
        · exact .inl (mem_addTo.mpr (.inr rfl))
        · exact .inr listed

theorem comes_learn (comes : Comes log seq) (learn : Learn log log') (held : seq ∈ log'.held)
    : Done log' seq ∨ Comes log' seq := by
  have coming := comes.coming
  have same := comes.go held
  cases learn with
  | append n =>
      exact .inr (same rfl (end_le_append n) comes.running comes.upTo comes.asking coming)
  | download other =>
      refine .inr (same rfl (Nat.le_refl _) comes.running comes.upTo comes.asking ?_)
      refine coming.imp_right (Or.imp_left fun ⟨hole, arrived⟩ => ⟨hole, ?_⟩)
      split
      · exact mem_addTo.mpr (.inl arrived)
      · exact arrived
  | missed other | clear other | wipe other =>
      exact .inr (same rfl (Nat.le_refl _) comes.running comes.upTo comes.asking coming)
  | wiped other known =>
      by_cases here : seq = other
      · exact .inl (.inl (here ▸ known))
      · refine .inr (same rfl (Nat.le_refl _) comes.running comes.upTo comes.asking ?_)
        exact coming.imp_right (Or.imp_left fun ⟨hole, arrived⟩ =>
          ⟨mem_without.mpr ⟨hole, here⟩, arrived⟩)
  | recheck =>
      refine .inr (same rfl (Nat.le_refl _) comes.running comes.upTo comes.asking ?_)
      exact coming.imp_right (Or.imp_left fun ⟨hole, arrived⟩ => ⟨hole, subset_addAll (.inl arrived)⟩)
  | index idle => exact absurd idle comes.running
  | again running =>
      exact .inr (same rfl (Nat.le_refl _) comes.running comes.upTo comes.asking coming)
  | rescan =>
      exact .inr (same rfl (Nat.le_refl _) comes.running comes.upTo comes.asking (.inl comes.from_))

/-- A block that a run comes to is still to be reached, or done, as long as the log goes on. -/
theorem done_of_later (open_ : locked seq = false) (judged : waits seq = false)
    (noSkip : log.skip = none) (comes : Done log seq ∨ Comes log seq)
    (later : Later locked waits seq log log')
    : log'.skip = none ∧ (Done log' seq ∨ Comes log' seq) := by
  induction later with
  | refl => exact ⟨noSkip, comes⟩
  | learn _ learn held ih =>
      obtain ⟨noSkip, done | comes⟩ := ih
      · refine ⟨?_, .inl (done_learn done learn)⟩
        cases learn <;> first | exact noSkip | rfl
      · refine ⟨?_, comes_learn comes learn held⟩
        cases learn <;> first | exact noSkip | rfl
  | turn _ turn ih =>
      obtain ⟨noSkip, done | comes⟩ := ih
      · exact ⟨(scanned_turn turn noSkip).1, .inl (done_turn done turn)⟩
      · exact ⟨(scanned_turn turn noSkip).1, comes_turn open_ judged noSkip comes turn⟩
  | commit _ commit ih =>
      obtain ⟨noSkip, done | comes⟩ := ih
      · refine ⟨?_, .inl (done_commit done commit)⟩
        cases commit
        exact noSkip
      · refine ⟨?_, comes_commit comes commit⟩
        cases commit
        exact noSkip

/-- Every block held is come to, once the holes are looked at again. -/
theorem comes_look (sound : Sound log) (fine : log.failed = false) (idle : log.phase = .idle)
    (held : seq ∈ log.held) (from_ : log.from_ ≤ seq) (ends : seq < log.end_)
    : Done log.look seq ∨ Comes log.look seq := by
  obtain ⟨top, covers⟩ := sound
  have running : log.look.phase ≠ .idle := by simp [Log.look]
  have come : Coming log.look seq → Comes log.look seq := fun coming =>
    ⟨running, held, covers.header.trans_le from_, from_, ends, by simp [Log.look, Phase.upTo],
      by simp [Log.look], coming⟩
  rcases Nat.lt_or_ge seq top with below_ | above_
  · rcases covers.covered fine seq from_ below_ with done | hole | flight
    · exact .inl done
    · exact .inr (come (.inr (.inl ⟨hole, subset_addAll (.inr hole)⟩)))
    · rw [idle] at flight
      cases flight
  · exact .inr (come (.inl (covers.scanned.trans above_)))

-- A run ends

/-- The run goes on by itself, its tasks not failing. -/
inductive Goes (locked waits : Nat → Bool) (log : Log) : Log → Prop
  | refl : Goes locked waits log log
  | turn {log' log'' : Log} : Goes locked waits log log' → Turn locked waits log' log''
      → Goes locked waits log log''
  | commit {log' log'' : Log} : Goes locked waits log log' → Commit log' log''
      → Goes locked waits log log''

theorem Goes.trans (first : Goes locked waits log log') (second : Goes locked waits log' log'')
    : Goes locked waits log log'' := by
  induction second with
  | refl => exact first
  | turn _ turn ih => exact ih.turn turn
  | commit _ commit ih => exact ih.commit commit

theorem Goes.later (goes : Goes locked waits log log') : Later locked waits seq log log' := by
  induction goes with
  | refl => exact .refl
  | turn _ turn ih => exact ih.turn turn
  | commit _ commit ih => exact ih.commit commit

/-- The blocks to look at: those not scanned yet, and those that arrived. -/
def Log.work (log : Log) : Nat := (log.end_ - log.scanned) + log.arrived.length

/-- A round begins. -/
def AtRound (log : Log) : Prop := log.phase = .taking log.arrived []

def Ends (locked waits : Nat → Bool) (log : Log) : Prop :=
  ∃ log', Goes locked waits log log' ∧ log'.phase = .idle

theorem goes_judging {end_ : Nat} {todo kept : List Nat}
    (phase : log.phase = .judging end_ todo kept)
    : Goes locked waits log { log with phase := .judging end_ [] (todo ++ kept) } := by
  induction todo using List.reverseRecOn generalizing log kept with
  | nil =>
      have same : log = { log with phase := .judging end_ [] ([] ++ kept) } := by
        cases log
        cases phase
        rfl
      exact same ▸ .refl
  | append_singleton todo seq ih =>
      have first : Goes locked waits log { log with phase := .judging end_ todo (seq :: kept) } :=
        Goes.refl.turn (.judgeOk phase)
      refine first.trans ?_
      rw [List.append_assoc]
      exact ih rfl

/-- What a part of a round leaves as it is. -/
structure Same (log log' : Log) : Prop where
  end_ : log'.end_ = log.end_
  skip : log'.skip = log.skip
  again : log'.again = log.again
  indexed : log'.indexed = log.indexed

theorem Same.trans (first : Same log log') (second : Same log' log'') : Same log log'' :=
  ⟨second.end_.trans first.end_, second.skip.trans first.skip, second.again.trans first.again,
    second.indexed.trans first.indexed⟩

theorem goes_asking {block end_ : Nat} {batch : List Nat}
    (phase : log.phase = .asking block end_ batch)
    : ∃ holes, Goes locked waits log { log with holes := holes, phase := .scanning end_ batch } :=
  ⟨_, Goes.refl.turn (.asked phase)⟩

theorem goes_reading {block end_ : Nat} {batch : List Nat}
    (phase : log.phase = .reading block end_ batch)
    : ∃ holes batch',
        Goes locked waits log { log with holes := holes, phase := .scanning end_ batch' } := by
  have read : Goes locked waits log _ := Goes.refl.turn (.read phase)
  by_cases held : block ∈ log.held
  · rw [if_pos held] at read
    exact ⟨log.holes, _, read⟩
  · rw [if_neg held] at read
    obtain ⟨holes, asked⟩ :=
      @goes_asking locked waits { log with phase := .asking block end_ batch } _ _ _ rfl
    exact ⟨holes, batch, read.trans asked⟩

/-- The scan goes up to its end, or until the batch is full. -/
theorem goes_scanning {end_ : Nat} {batch : List Nat} (noSkip : log.skip = none)
    (phase : log.phase = .scanning end_ batch)
    : ∃ log' todo, Goes locked waits log log' ∧ log'.phase = .judging end_ todo []
      ∧ Same log log' ∧ log'.arrived = log.arrived ∧ log.scanned ≤ log'.scanned
      ∧ (batch.length < BATCH → log.scanned < end_ → log.scanned < log'.scanned)
      ∧ (batch = [] → end_ ≤ log.scanned
        → todo = [] ∧ log'.holes = log.holes ∧ log'.scanned = log.scanned) := by
  induction left : end_ - log.scanned using Nat.strongRecOn generalizing log batch with
  | ind n ih =>
      by_cases more : batch.length < BATCH ∧ log.scanned < end_
      · have none_ : ∀ from_ to_, log.skip = some (from_, to_) → log.scanned < from_ := by
          rw [noSkip]
          exact fun _ _ skip => by cases skip
        have scan : Goes locked waits log _ := Goes.refl.turn (.scan phase more.1 more.2 none_)
        let looking : Log := { log with
          scanned := log.scanned + 1
          phase := .reading log.scanned end_ batch }
        obtain ⟨holes, batch', read⟩ := @goes_reading locked waits looking _ _ _ rfl
        let looked : Log := { looking with holes := holes, phase := .scanning end_ batch' }
        obtain ⟨log', todo, goes, judging, same, arrived, scanned, _, _⟩ :=
          @ih (end_ - (log.scanned + 1)) (by omega) looked _ noSkip rfl rfl
        have scanned : log.scanned + 1 ≤ log'.scanned := scanned
        refine ⟨log', todo, (scan.trans read).trans goes, judging,
          ⟨same.end_, same.skip, same.again, same.indexed⟩, arrived, by omega, fun _ _ => scanned, ?_⟩
        exact fun _ whole => absurd more.2 (Nat.not_lt.mpr whole)
      · refine ⟨_, _, Goes.refl.turn (.lock phase more), rfl, ⟨rfl, rfl, rfl, rfl⟩, rfl,
          Nat.le_refl _, fun room rest => absurd ⟨room, rest⟩ more, ?_⟩
        rintro rfl _
        exact ⟨rfl, rfl, rfl⟩

/-- The holes that arrived are looked at, until the batch is full. -/
theorem goes_taking {left batch : List Nat} (phase : log.phase = .taking left batch)
    : ∃ log' batch', Goes locked waits log log' ∧ log'.phase = .scanning log.end_ batch'
      ∧ Same log log' ∧ log'.scanned = log.scanned ∧ log'.holes = log.holes
      ∧ log'.arrived.length ≤ log.arrived.length
      ∧ (∀ first rest, left = first :: rest → batch.length < BATCH → first ∈ log.arrived
        → log'.arrived.length < log.arrived.length)
      ∧ (left = [] → batch' = batch ∧ log'.arrived = log.arrived) := by
  induction left generalizing log batch with
  | nil =>
      refine ⟨_, batch, Goes.refl.turn (.took phase (.inl rfl)), rfl, ⟨rfl, rfl, rfl, rfl⟩, rfl, rfl,
        Nat.le_refl _, fun first rest none_ => ?_, fun _ => ⟨rfl, rfl⟩⟩
      cases none_
  | cons first rest ih =>
      by_cases room : batch.length < BATCH
      · have fewer : (without log.arrived first).length ≤ log.arrived.length :=
          List.length_filter_le _ _
        have strictly : first ∈ log.arrived
            → (without log.arrived first).length < log.arrived.length := by
          intro listed
          exact List.length_filter_lt_length_iff_exists.mpr ⟨first, listed, by simp⟩
        obtain ⟨batch', next⟩ : ∃ batch', Goes locked waits log {
            log with arrived := without log.arrived first, phase := .taking rest batch' } := by
          by_cases hole : first ∈ log.holes
          · have fetch : Goes locked waits log _ := Goes.refl.turn (.fetch phase room hole)
            exact ⟨_, fetch.turn (.fetched rfl)⟩
          · exact ⟨batch, Goes.refl.turn (.skip phase room hole)⟩
        let taken : Log := { log with
          arrived := without log.arrived first
          phase := .taking rest batch' }
        obtain ⟨log', last, goes, scanning, same, scanned, holes, arrived, _, _⟩ := @ih taken _ rfl
        have arrived : log'.arrived.length ≤ (without log.arrived first).length := arrived
        refine ⟨log', last, next.trans goes, scanning, ⟨same.end_, same.skip, same.again, same.indexed⟩,
          scanned, holes, arrived.trans fewer, ?_, fun none_ => by cases none_⟩
        rintro x xs ⟨⟩ _ listed
        exact arrived.trans_lt (strictly listed)
      · refine ⟨_, batch, Goes.refl.turn (.took phase (.inr (Nat.not_lt.mp room))), rfl,
          ⟨rfl, rfl, rfl, rfl⟩, rfl, rfl, Nat.le_refl _, ?_, fun none_ => by cases none_⟩
        exact fun _ _ _ short => absurd short room

/-- A round's batch is whole and judged: the run ends, or another round begins. -/
theorem after_judging {end_ : Nat} {kept : List Nat} (phase : log.phase = .judging end_ [] kept)
    : Ends locked waits log
      ∨ ∃ log', Goes locked waits log log' ∧ AtRound log' ∧ log'.skip = log.skip
        ∧ (log.again = true ∧ log'.again = false
          ∨ log'.again = log.again ∧ log'.work = log.work ∧ (log.scanned < end_ ∨ log.arrived ≠ [])
          ∨ log'.again = log.again ∧ log'.work = log.work ∧ log'.position = log'.indexed
            ∧ (kept ≠ [] ∨ log.position ≠ log.indexed)) := by
  by_cases new : kept ≠ [] ∨ log.position ≠ log.indexed
  · have queue : Goes locked waits log _ := Goes.refl.turn (.queue phase new)
    have commit := queue.commit (.commit rfl)
    exact .inr ⟨_, commit.turn (.next rfl), rfl, rfl, .inr (.inr ⟨rfl, rfl, rfl, new⟩)⟩
  · obtain ⟨empty, same⟩ := not_or.mp new
    obtain rfl := not_not.mp empty
    have quiet : Goes locked waits log _ := Goes.refl.turn (.quiet phase (not_not.mp same))
    by_cases more : log.scanned < end_ ∨ log.arrived ≠ []
    · exact .inr ⟨_, quiet.turn (.more rfl more), rfl, rfl, .inr (.inl ⟨rfl, rfl, more⟩)⟩
    · obtain ⟨whole, none_⟩ := not_or.mp more
      cases again : log.again with
      | false =>
          exact .inl ⟨_, quiet.turn (.settle rfl (Nat.not_lt.mp whole) (not_not.mp none_) again),
            rfl⟩
      | true =>
          exact .inr ⟨_, quiet.turn (.around rfl (Nat.not_lt.mp whole) (not_not.mp none_) again),
            rfl, rfl, .inl ⟨rfl, rfl⟩⟩

/-- A round looks at something, or has nothing to look at and leaves the log as it is. -/
theorem goes_round (noSkip : log.skip = none) (round : AtRound log)
    : ∃ log' kept, Goes locked waits log log' ∧ log'.phase = .judging log.end_ [] kept
      ∧ Same log log'
      ∧ (log'.work < log.work
        ∨ log'.work = 0 ∧ log.work = 0 ∧ kept = [] ∧ log'.position = log.position) := by
  obtain ⟨taken, batch, take, scanning, same, scanned, holes, fewer, first, none_⟩ :=
    @goes_taking locked waits log _ _ round
  obtain ⟨whole, todo, scan, judging, same', arrived, further, more, rest⟩ :=
    @goes_scanning locked waits taken _ _ (same.skip.trans noSkip) scanning
  have judged := @goes_judging locked waits whole _ _ _ judging
  refine ⟨_, _, (take.trans scan).trans judged, rfl, ⟨(same.trans same').end_,
    (same.trans same').skip, (same.trans same').again, (same.trans same').indexed⟩, ?_⟩
  have work : ({ whole with phase := .judging log.end_ [] (todo ++ []) } : Log).work
      = (log.end_ - whole.scanned) + taken.arrived.length := by
    show (whole.end_ - whole.scanned) + whole.arrived.length = _
    rw [(same.trans same').end_, arrived]
  rw [work]
  unfold Log.work
  cases listed : log.arrived with
  | cons x xs =>
      have fewer := first x xs listed (by decide) (listed ▸ List.mem_cons_self)
      rw [listed] at fewer
      exact .inl (by omega)
  | nil =>
      obtain ⟨empty, arrived'⟩ := none_ listed
      rw [arrived', listed]
      by_cases ahead : log.scanned < log.end_
      · have further := more (by simp [empty, BATCH]) (by omega)
        exact .inl (by simp only [List.length_nil]; omega)
      · obtain ⟨todo_, holes', scanned'⟩ := rest empty (by omega)
        refine .inr ⟨by simp only [List.length_nil]; omega, by simp only [List.length_nil]; omega,
          by simp [todo_], ?_⟩
        show whole.position = log.position
        unfold Log.position
        rw [holes', holes, scanned', scanned]

/-- Rounds end: each looks at something, but for a last one that saves the position, and one
that finds nothing to do.
-/
theorem round_ends_of (again : Bool)
    (back : ∀ log' : Log, log'.skip = none → log'.again = false → AtRound log' → again = true
      → Ends locked waits log')
    (noSkip : log.skip = none) (here : log.again = again) (round : AtRound log)
    : Ends locked waits log := by
  induction left : 2 * log.work + (if log.position = log.indexed then 0 else 1)
      using Nat.strongRecOn generalizing log with
  | ind n ih =>
      obtain ⟨judged, kept, goes, judging, same, work⟩ := @goes_round locked waits log noSkip round
      rcases @after_judging locked waits judged _ _ judging with ⟨log', ends, idle⟩ | next
      · exact ⟨log', goes.trans ends, idle⟩
      · obtain ⟨log', next, round', skip, kind⟩ := next
        have noSkip' := skip.trans (same.skip.trans noSkip)
        have again' := same.again
        suffices Ends locked waits log' by
          obtain ⟨log'', ends, idle⟩ := this
          exact ⟨log'', (goes.trans next).trans ends, idle⟩
        rcases kind with ⟨was, now⟩ | ⟨now, work', more⟩ | ⟨now, work', saved, kind⟩
        · exact back log' noSkip' now round' (by rw [← here, ← again', was])
        · have progress : log'.work < log.work := by
            rcases work with fewer | ⟨none_, _, _, _⟩
            · omega
            · exfalso
              unfold Log.work at none_
              rw [same.end_] at none_
              rcases more with ahead | listed
              · omega
              · have positive := List.length_pos_iff.mpr listed
                omega
          refine ih _ ?_ noSkip' (now.trans (again'.trans here)) round' rfl
          rw [← left]
          split <;> split <;> omega
        · refine ih _ ?_ noSkip' (now.trans (again'.trans here)) round' rfl
          rw [← left, if_pos saved, work']
          rcases work with fewer | ⟨none_, none_', empty, position⟩
          · split <;> omega
          · have apart : log.position ≠ log.indexed := by
              rcases kind with listed | apart
              · exact absurd empty listed
              · rwa [position, same.indexed] at apart
            rw [if_neg apart]
            omega

theorem round_ends (noSkip : log.skip = none) (round : AtRound log) : Ends locked waits log := by
  have calm : ∀ log' : Log, log'.skip = none → log'.again = false → AtRound log'
      → Ends locked waits log' :=
    fun log' noSkip here round =>
      round_ends_of false (fun _ _ _ _ none_ => by cases none_) noSkip here round
  exact round_ends_of log.again (fun log' noSkip here round _ => calm log' noSkip here round) noSkip
    rfl round

theorem Ends.of_goes (goes : Goes locked waits log log') (ends : Ends locked waits log')
    : Ends locked waits log := by
  obtain ⟨log'', rest, idle⟩ := ends
  exact ⟨log'', goes.trans rest, idle⟩

theorem judging_ends {end_ : Nat} {todo kept : List Nat} (noSkip : log.skip = none)
    (phase : log.phase = .judging end_ todo kept)
    : Ends locked waits log := by
  refine .of_goes (goes_judging phase) ?_
  rcases @after_judging locked waits { log with phase := .judging end_ [] (todo ++ kept) } _ _ rfl
    with ends | ⟨log', goes, round, skip, _⟩
  · exact ends
  · exact .of_goes goes (round_ends (skip.trans noSkip) round)

theorem scanning_ends {end_ : Nat} {batch : List Nat} (noSkip : log.skip = none)
    (phase : log.phase = .scanning end_ batch)
    : Ends locked waits log := by
  obtain ⟨log', todo, goes, judging, same, _⟩ := @goes_scanning locked waits log _ _ noSkip phase
  exact .of_goes goes (judging_ends (same.skip.trans noSkip) judging)

theorem taking_ends {left batch : List Nat} (noSkip : log.skip = none)
    (phase : log.phase = .taking left batch)
    : Ends locked waits log := by
  obtain ⟨log', batch', goes, scanning, same, _⟩ := @goes_taking locked waits log _ _ phase
  exact .of_goes goes (scanning_ends (same.skip.trans noSkip) scanning)

theorem run_ends (locked waits : Nat → Bool) (noSkip : log.skip = none)
    : Ends locked waits log := by
  cases phase : log.phase with
  | idle => exact ⟨log, .refl, phase⟩
  | starting => exact .of_goes (.turn .refl (.start phase)) (round_ends noSkip rfl)
  | taking left batch => exact taking_ends noSkip phase
  | fetching seq left batch =>
      exact .of_goes (.turn .refl (.fetched phase)) (taking_ends noSkip rfl)
  | scanning end_ batch => exact scanning_ends noSkip phase
  | reading seq end_ batch =>
      obtain ⟨holes, batch', goes⟩ := @goes_reading locked waits log _ _ _ phase
      exact .of_goes goes (scanning_ends noSkip rfl)
  | asking seq end_ batch =>
      exact .of_goes (.turn .refl (.asked phase)) (scanning_ends noSkip rfl)
  | judging end_ todo kept => exact judging_ends noSkip phase
  | committing batch indexed =>
      exact .of_goes ((Goes.commit .refl (.commit phase)).turn (.next rfl)) (round_ends noSkip rfl)
  | resting => exact .of_goes (.turn .refl (.next phase)) (round_ends noSkip rfl)
  | settling end_ =>
      by_cases more : log.scanned < end_ ∨ log.arrived ≠ []
      · exact .of_goes (.turn .refl (.more phase more)) (round_ends noSkip rfl)
      · obtain ⟨whole, none_⟩ := not_or.mp more
        cases again : log.again with
        | false =>
            exact ⟨_, .turn .refl (.settle phase (Nat.not_lt.mp whole) (not_not.mp none_) again),
              rfl⟩
        | true =>
            exact .of_goes
              (.turn .refl (.around phase (Nat.not_lt.mp whole) (not_not.mp none_) again))
              (round_ends noSkip rfl)

-- No block is skipped

/-- A run that goes on by itself keeps what is known of a log that lost no batch, and what it
holds.
-/
theorem sound_goes (sound : Sound log) (fine : log.failed = false)
    (goes : Goes locked waits log log')
    : Sound log' ∧ log'.failed = false ∧ log'.held = log.held ∧ log'.from_ = log.from_
      ∧ log'.end_ = log.end_ := by
  induction goes with
  | refl => exact ⟨sound, fine, rfl, rfl, rfl⟩
  | turn _ turn ih =>
      obtain ⟨⟨top, covers⟩, fine, held, from_, ends⟩ := ih
      refine ⟨⟨_, covers.turn turn⟩, ?_⟩
      cases turn <;> exact ⟨fine, held, from_, ends⟩
  | commit _ commit ih =>
      obtain ⟨sound, fine, held, from_, ends⟩ := ih
      refine ⟨sound_step sound (.commit commit) fun failed => ?_, ?_⟩
      · rw [fine] at failed
        cases failed
      · obtain ⟨phase⟩ := commit
        exact ⟨fine, held, from_, ends⟩

/-- Where a log that lost a batch goes on: it is opened again. -/
def Log.mended (log : Log) : Log := if log.failed then log.open_ else log

theorem sound_mended (sound : Sound log)
    : Sound log.mended ∧ log.mended.failed = false ∧ log.mended.held = log.held
      ∧ log.mended.from_ = log.from_ ∧ log.mended.end_ = log.end_ := by
  unfold Log.mended
  split
  · obtain ⟨top, covers⟩ := sound
    exact ⟨⟨_, covers.open_⟩, rfl, rfl, rfl, rfl⟩
  · rename_i fine
    exact ⟨sound, by simpa using fine, rfl, rfl, rfl⟩

/-- In every run in which a log that lost a batch commits no other before it is opened again:
every block below the position saved is done; no block is handed to the index twice since the
log was opened, unless it was rescanned; and a held block is handed to it, or done, by any run
that looks at the holes again once the one under way is over, and there is such a run.
-/
theorem no_block_skipped {from_ : Nat} {limit : Option Nat} (positive : 0 < from_)
    (run : Run (Log.begin from_ limit) log)
    : (∀ seq, log.from_ ≤ seq → seq < log.persisted → Done log seq)
      ∧ (log.rescanned = false → log.handed.Nodup)
      ∧ ∀ seq ∈ log.held, log.from_ ≤ seq → seq < log.end_
        → ∀ locked waits : Nat → Bool, locked seq = false → waits seq = false
        → ∃ over_, Goes locked waits log.mended over_ ∧ over_.phase = .idle
          ∧ (∃ log', Later locked waits seq over_.look log' ∧ log'.phase = .idle)
          ∧ ∀ log', Later locked waits seq over_.look log' → log'.phase = .idle
            → Done log' seq := by
  have sound := sound_run positive run
  refine ⟨?_, fun once => (fresh_run run once).handed, ?_⟩
  · obtain ⟨top, covers⟩ := sound
    exact covers.saved
  · intro seq held above_ below_ locked waits open_ judged
    obtain ⟨sound, fine, held', from', ends'⟩ := sound_mended sound
    obtain ⟨over_, goes, idle⟩ := run_ends locked waits sound.noSkip
    obtain ⟨sound, fine, held'', from'', ends''⟩ := sound_goes sound fine goes
    have noSkip : over_.look.skip = none := sound.noSkip
    refine ⟨over_, goes, idle, ?_, fun log' later idle' => ?_⟩
    · obtain ⟨log', goes, idle⟩ := run_ends locked waits noSkip
      exact ⟨log', goes.later, idle⟩
    · have comes := @comes_look over_ seq sound fine idle (by rwa [held'', held'])
        (by rwa [from'', from']) (by rwa [ends'', ends'])
      rcases (done_of_later open_ judged noSkip comes later).2 with done | comes
      · exact done
      · exact absurd idle' comes.running

/-- A log accepted from block 1 on, none of whose batches was committed yet. -/
def fewBlocks (length scanned : Nat) (held : List Nat) (failed : Bool) (phase : Phase) : Log :=
  { from_ := 1, length := length, held := held, persisted := 1, indexed := 1, scanned := scanned,
    uncommitted := phase != .idle && phase != .starting, phase := phase, failed := failed }

/-- Its last block is held, looked at, and is to be committed. -/
theorem last_queued {n : Nat} {held : List Nat} (failed : Bool) (listed : n ∈ held)
    : Relation.ReflTransGen Step (fewBlocks (n + 1) n held failed .idle)
        (fewBlocks (n + 1) (n + 1) held failed (.committing [n] (n + 1))) := by
  let free : Nat → Bool := fun _ => false
  have turn : ∀ {log log' : Log}, Turn free free log log' → Step log log' := fun turn => .turn turn
  have index : Step (fewBlocks (n + 1) n held failed .idle)
      (fewBlocks (n + 1) n held failed .starting) := .learn (.index rfl)
  have start : Step (fewBlocks (n + 1) n held failed .starting)
      (fewBlocks (n + 1) n held failed (.taking [] [])) := turn (.start rfl)
  have took : Step (fewBlocks (n + 1) n held failed (.taking [] []))
      (fewBlocks (n + 1) n held failed (.scanning (n + 1) [])) := turn (.took rfl (.inl rfl))
  have scan : Step (fewBlocks (n + 1) n held failed (.scanning (n + 1) []))
      (fewBlocks (n + 1) (n + 1) held failed (.reading n (n + 1) [])) :=
    turn (.scan rfl (by decide) (Nat.lt_succ_self n) fun _ _ skip => by cases skip)
  have read : Step (fewBlocks (n + 1) (n + 1) held failed (.reading n (n + 1) []))
      (fewBlocks (n + 1) (n + 1) held failed (.scanning (n + 1) [n])) := by
    have read := turn (@Turn.read free free
      (fewBlocks (n + 1) (n + 1) held failed (.reading n (n + 1) [])) _ _ _ rfl)
    have here : n ∈ (fewBlocks (n + 1) (n + 1) held failed (.reading n (n + 1) [])).held := listed
    rwa [if_pos here] at read
  have lock : Step (fewBlocks (n + 1) (n + 1) held failed (.scanning (n + 1) [n]))
      (fewBlocks (n + 1) (n + 1) held failed (.judging (n + 1) [n] [])) := by
    have lock := turn (@Turn.lock free free
      (fewBlocks (n + 1) (n + 1) held failed (.scanning (n + 1) [n])) _ _ rfl
      fun more => Nat.lt_irrefl _ more.2)
    have kept : [n].filter (fun seq => !isLocked free seq) = [n] := by simp [isLocked, free]
    have filled : lockHoles free
        (fewBlocks (n + 1) (n + 1) held failed (.scanning (n + 1) [n])).holes [n] = [] := by
      simp [lockHoles, isLocked, free, without, fewBlocks]
    rwa [kept, filled] at lock
  have judge : Step (fewBlocks (n + 1) (n + 1) held failed (.judging (n + 1) [n] []))
      (fewBlocks (n + 1) (n + 1) held failed (.judging (n + 1) [] [n])) :=
    turn (@Turn.judgeOk free free _ n (n + 1) [] [] rfl)
  have queue : Step (fewBlocks (n + 1) (n + 1) held failed (.judging (n + 1) [] [n]))
      (fewBlocks (n + 1) (n + 1) held failed (.committing [n] (n + 1))) :=
    turn (.queue rfl (.inl (List.cons_ne_nil n [])))
  exact .head index <| .head start <| .head took <| .head scan <| .head read <| .head lock <|
    .head judge <| .single queue

/-- A log whose first block arrived, and is indexed by its next run. -/
theorem no_block_skipped_arrived
    : ∃ over_ log', Goes (fun _ => false) (fun _ => false) (fewBlocks 2 1 [1] false .idle) over_
      ∧ Later (fun _ => false) (fun _ => false) 1 over_.look log' ∧ log'.phase = .idle
      ∧ Done log' 1 := by
  have append : Step (Log.begin 1 none) (fewBlocks 2 1 [] false .idle) := .learn (.append 2)
  have download : Step (fewBlocks 2 1 [] false .idle) (fewBlocks 2 1 [1] false .idle) :=
    .learn (.download 1)
  have run : Run (Log.begin 1 none) (fewBlocks 2 1 [1] false .idle) :=
    (Run.refl.step append fun failed => by cases failed).step download fun failed => by cases failed
  obtain ⟨_, _, handed⟩ := no_block_skipped Nat.one_pos run
  obtain ⟨over_, goes, _, ⟨log', later, idle⟩, done⟩ :=
    handed 1 (by decide) (by decide) (by decide) (fun _ => false) (fun _ => false) rfl rfl
  exact ⟨over_, log', goes, later, idle, done log' later idle⟩

/-- A batch of one block is lost, and the next one saves a position past it. -/
theorem lost_block_skipped
    : ∃ log, Relation.ReflTransGen Step (Log.begin 1 none) log ∧ 1 ∈ log.held
      ∧ log.from_ ≤ 1 ∧ 1 < log.persisted ∧ ¬ Done log 1 := by
  have append : Step (Log.begin 1 none) (fewBlocks 2 1 [] false .idle) := .learn (.append 2)
  have download : Step (fewBlocks 2 1 [] false .idle) (fewBlocks 2 1 [1] false .idle) :=
    .learn (.download 1)
  have fail : Step (fewBlocks 2 2 [1] false (.committing [1] 2)) (fewBlocks 2 2 [1] true .idle) :=
    @Step.fail (fewBlocks 2 2 [1] false (.committing [1] 2)) [1] 2 rfl
  have append' : Step (fewBlocks 2 2 [1] true .idle) (fewBlocks 3 2 [1] true .idle) :=
    .learn (.append 1)
  have download' : Step (fewBlocks 3 2 [1] true .idle) (fewBlocks 3 2 [1, 2] true .idle) :=
    .learn (.download 2)
  have commit : Step (fewBlocks 3 3 [1, 2] true (.committing [2] 3)) _ := .commit (.commit rfl)
  have lost := last_queued false (List.mem_singleton_self 1)
  have next := @last_queued 2 [1, 2] true (by decide)
  have first := ((lost.head download).head append).tail fail
  have run := (((first.tail append').tail download').trans next).tail commit
  exact ⟨_, run, by decide, by decide, by decide, by decide⟩

end Hypergraph.Index
