import Hypergraph.Index.Later

/-! A log is read from further back (`#readFrom` in `lib/space.js`): its scan starts earlier, and
one interval tells which blocks it passes over, as they were looked at. Moved back again before it
came there, the log has only the later interval left.
-/

namespace Hypergraph.Index

open Log

-- Reading further back

namespace Log

variable (log : Log)

/-- `index`: a run begins, or the one under way goes round again. -/
def call : Log :=
  if log.phase = .idle then { log with phase := .starting } else { log with again := true }

/-- `#readFrom`, of a log that is read already. -/
def readFrom (start : Nat) : Log :=
  if log.from_ ≤ start then log
  else
    ({ log with
      skip := some (log.from_, log.scanned)
      rescanned := true
      scanned := start
      indexed := min log.indexed start
      from_ := start } : Log).call

/-- A run is to begin, or to go round again. -/
def Called : Prop := log.phase = .starting ∨ (log.phase ≠ .idle ∧ log.again = true)

/-- No block that was looked at is still to be passed over. -/
def Clear : Prop := ∀ from_ to_, log.skip = some (from_, to_) → to_ ≤ from_

/-- A block is one of those to be passed over. -/
def Passes (seq : Nat) : Prop :=
  ∃ from_ to_, log.skip = some (from_, to_) ∧ from_ ≤ seq ∧ seq < to_

end Log

/-- A log, and the blocks that were scanned, in order. -/
structure Watched where
  log : Log
  looked : List Nat := []

/-- The block that the run goes on to read. -/
def scanOf (log log' : Log) : List Nat :=
  match log.phase, log'.phase with
  | .scanning _ _, .reading seq _ _ => [seq]
  | _, _ => []

/-- What comes of a log with batches, arrivals and moves back, each of these where it may be. -/
inductive Reads (may : Log → Prop) (w : Watched) : Watched → Prop
  | refl : Reads may w w
  | learn {w' : Watched} {log : Log} : Reads may w w' → Learn w'.log log
      → log.scanned = w'.log.scanned → log.skip = w'.log.skip → Reads may w { w' with log := log }
  | turn {locked waits : Nat → Bool} {w' : Watched} {log : Log} : Reads may w w'
      → Turn locked waits w'.log log → Reads may w ⟨log, w'.looked ++ scanOf w'.log log⟩
  | commit {w' : Watched} {log : Log} : Reads may w w' → Commit w'.log log
      → Reads may w { w' with log := log }
  | readFrom {w' : Watched} (start : Nat) : Reads may w w' → (start < w'.log.from_ → may w'.log)
      → Reads may w { w' with log := w'.log.readFrom start }

/-- Moving back redoes nothing. -/
structure RedoesNothing (may : Log → Prop) (w : Watched) : Prop where
  /-- No block is scanned twice. -/
  once : w.looked.Nodup
  /-- A block that was looked at, and is neither a hole nor in the batch under way, becomes none. -/
  whole : ∀ w', Reads may w w' → ∀ seq ∈ w.looked, seq ∉ w.log.holes → seq ∉ w.log.phase.picked
    → seq ∉ w'.log.holes
  /-- A move back has a run come. -/
  called : ∀ start < w.log.from_, (w.log.readFrom start).Called
  /-- A run that is to come ends if left to itself, and by then every block was looked at. -/
  covers : w.log.Called → (∀ locked waits, Ends locked waits w.log)
    ∧ ∀ w', Reads may w w' → w'.log.phase = .idle →
      ∀ seq, w.log.from_ ≤ seq → seq < w.log.end_ → seq ∈ w'.looked

variable {may : Log → Prop} {log log' : Log} {w w' w'' : Watched} {locked waits : Nat → Bool}
  {seq start : Nat}

theorem Reads.trans (first : Reads may w w') (second : Reads may w' w'') : Reads may w w'' := by
  induction second with
  | refl => exact first
  | learn _ learn scanned skip ih => exact ih.learn learn scanned skip
  | turn _ turn ih => exact ih.turn turn
  | commit _ commit ih => exact ih.commit commit
  | readFrom start _ free ih => exact ih.readFrom start free

theorem called_readFrom (earlier : start < log.from_) : (log.readFrom start).Called := by
  unfold Log.readFrom Log.call Log.Called
  rw [if_neg (Nat.not_le.mpr earlier)]
  split
  · exact .inl rfl
  · rename_i running
    exact .inr ⟨running, rfl⟩

/-- What a move back makes of the log, as its scan sees it. -/
theorem readFrom_eq (earlier : start < log.from_)
    : (log.readFrom start).from_ = start ∧ (log.readFrom start).scanned = start
      ∧ (log.readFrom start).skip = some (log.from_, log.scanned) ∧ (log.readFrom start).end_ = log.end_
      ∧ (log.readFrom start).holes = log.holes ∧ (log.readFrom start).phase.upTo = log.phase.upTo
      ∧ (log.readFrom start).phase.picked = log.phase.picked := by
  unfold Log.readFrom Log.call
  rw [if_neg (Nat.not_le.mpr earlier)]
  split
  · rename_i idle
    exact ⟨rfl, rfl, rfl, rfl, rfl, by rw [idle]; rfl, by rw [idle]; rfl⟩
  · exact ⟨rfl, rfl, rfl, rfl, rfl, rfl, rfl⟩

theorem readFrom_of_le (late : log.from_ ≤ start) : log.readFrom start = log := if_pos late

-- What a run scans

/-- A run's holes and batch are of those it had, and of the block it goes on to read. -/
theorem sources_scanOf (turn : Turn locked waits log log')
    (pursued : seq ∈ log'.holes ∨ seq ∈ log'.phase.picked)
    : (seq ∈ log.holes ∨ seq ∈ log.phase.picked) ∨ seq ∈ scanOf log log' := by
  have sources := sources_turn turn pursued
  cases turn with
  | jump phase => exact .inl pursued
  | scan phase =>
      refine sources.imp_right fun scanned => ?_
      rw [scanOf, phase, scanned.1]
      exact List.mem_singleton_self _
  | _ =>
      refine sources.imp_right fun scanned => ?_
      exact absurd scanned.2 (Nat.ne_of_lt (Nat.lt_succ_self _))

/-- A scan, and what is to be passed over, are within a bound where any block was scanned. -/
structure Within (log : Log) (bound : Nat) : Prop where
  scanned : log.from_ < log.scanned → log.scanned ≤ bound
  skip : ∀ from_ to_, log.skip = some (from_, to_) → from_ < to_ → to_ ≤ bound

theorem Within.mono {bound bound' : Nat} (within : Within log bound) (more : bound ≤ bound')
    : Within log bound' :=
  ⟨fun some_ => (within.scanned some_).trans more,
    fun from_ to_ is some_ => (within.skip from_ to_ is some_).trans more⟩

/-- The scan is within the log's end, and the round's. -/
structure Bounded (log : Log) : Prop where
  order : log.from_ ≤ log.scanned
  ends : Within log log.end_
  upTo : ∀ bound, log.phase.upTo = some bound → bound ≤ log.end_ ∧ Within log bound

/-- What was looked at is what is below the scan, and what is to be passed over, which is ahead. -/
structure Kept (w : Watched) : Prop where
  bounded : Bounded w.log
  once : w.looked.Nodup
  looked : ∀ seq, seq ∈ w.looked ↔ (w.log.from_ ≤ seq ∧ seq < w.log.scanned) ∨ w.log.Passes seq
  ahead : ∀ from_ to_, w.log.skip = some (from_, to_) → w.log.scanned ≤ from_ ∧ from_ ≤ to_

/-- What a step leaves as it is that neither scans nor passes blocks over. -/
structure Resumes (log log' : Log) : Prop where
  from_ : log'.from_ = log.from_
  scanned : log'.scanned = log.scanned
  skip : log'.skip = log.skip
  ends : log.end_ ≤ log'.end_
  upTo : ∀ bound, log'.phase.upTo = some bound → log.phase.upTo = some bound ∨ bound = log.end_

theorem Resumes.within {bound : Nat} (resumes : Resumes log log') (within : Within log bound)
    : Within log' bound := by
  refine ⟨?_, ?_⟩
  · rw [resumes.from_, resumes.scanned]
    exact within.scanned
  · rw [resumes.skip]
    exact within.skip

theorem Resumes.bounded (resumes : Resumes log log') (bounded : Bounded log) : Bounded log' := by
  refine ⟨by rw [resumes.from_, resumes.scanned]; exact bounded.order,
    resumes.within (bounded.ends.mono resumes.ends), fun bound is => ?_⟩
  rcases resumes.upTo bound is with was | rfl
  · obtain ⟨below, within⟩ := bounded.upTo bound was
    exact ⟨below.trans resumes.ends, resumes.within within⟩
  · exact ⟨resumes.ends, resumes.within bounded.ends⟩

theorem Resumes.kept {looked : List Nat} (resumes : Resumes log log') (kept : Kept ⟨log, looked⟩)
    : Kept ⟨log', looked⟩ := by
  refine ⟨resumes.bounded kept.bounded, kept.once, fun seq => ?_, ?_⟩
  · rw [kept.looked seq]
    dsimp only [Log.Passes]
    rw [resumes.from_, resumes.scanned, resumes.skip]
  · rw [resumes.skip, resumes.scanned]
    exact kept.ahead

theorem resumes_learn (learn : Learn log log') (scanned : log'.scanned = log.scanned)
    (skip : log'.skip = log.skip)
    : Resumes log log' := by
  refine ⟨(stays_learn learn).from_, scanned, skip, ?_, ?_⟩
  · cases learn with
    | append n => exact end_le_append n
    | _ => exact Nat.le_refl _
  · cases learn with
    | index => exact fun _ is => by cases is
    | _ => exact fun _ is => .inl is

theorem resumes_commit (commit : Commit log log') : Resumes log log' := by
  obtain ⟨phase⟩ := commit
  exact ⟨rfl, rfl, rfl, Nat.le_refl _, fun _ is => by cases is⟩

/-- A turn scans a block, passes blocks over, or does neither. -/
theorem turn_kinds (turn : Turn locked waits log log')
    : (Resumes log log' ∧ scanOf log log' = [])
      ∨ (∃ bound batch, log.phase = .scanning bound batch ∧ log.scanned < bound
        ∧ (∀ from_ to_, log.skip = some (from_, to_) → log.scanned < from_)
        ∧ log' = { log with scanned := log.scanned + 1, phase := .reading log.scanned bound batch })
      ∨ ∃ bound batch from_ to_, log.phase = .scanning bound batch ∧ log.scanned < bound
        ∧ log.skip = some (from_, to_) ∧ from_ ≤ log.scanned
        ∧ log' = { log with
          scanned := if log.scanned < to_ then (if to_ < bound then to_ else bound) else log.scanned
          skip := none } := by
  cases turn with
  | scan phase room more free => exact .inr (.inl ⟨_, _, phase, more, free, rfl⟩)
  | jump phase room more skip before => exact .inr (.inr ⟨_, _, _, _, phase, more, skip, before, rfl⟩)
  | took phase =>
      refine .inl ⟨⟨rfl, rfl, rfl, Nat.le_refl _, fun bound is => ?_⟩, by rw [scanOf, phase]⟩
      exact .inr (Option.some.inj is).symm
  | read phase =>
      refine .inl ⟨⟨rfl, rfl, rfl, Nat.le_refl _, fun bound is => ?_⟩, by rw [scanOf, phase]⟩
      rw [phase]
      split at is <;> exact .inl is
  | start phase | next phase | skip phase | fetch phase | fetched phase | queue phase | settle phase
  | around phase | more phase =>
      exact .inl ⟨⟨rfl, rfl, rfl, Nat.le_refl _, fun bound is => by cases is⟩, by rw [scanOf, phase]⟩
  | asked phase | lock phase | judgeOk phase | judgeWait phase | judgeOver phase | quiet phase =>
      refine .inl ⟨⟨rfl, rfl, rfl, Nat.le_refl _, fun bound is => ?_⟩, by rw [scanOf, phase]⟩
      rw [phase]
      exact .inl is

-- Once each

theorem Log.not_passes (none_ : log.skip = none) : ¬ log.Passes seq := by
  rintro ⟨from_, to_, skip, -⟩
  rw [none_] at skip
  cases skip

/-- The next block is scanned. -/
theorem Kept.scan {bound : Nat} {batch : List Nat} (kept : Kept w)
    (phase : w.log.phase = .scanning bound batch) (more : w.log.scanned < bound)
    (free : ∀ from_ to_, w.log.skip = some (from_, to_) → w.log.scanned < from_)
    : Kept ⟨{ w.log with scanned := w.log.scanned + 1, phase := .reading w.log.scanned bound batch },
        w.looked ++ [w.log.scanned]⟩ := by
  obtain ⟨below, within⟩ := kept.bounded.upTo bound (by rw [phase]; rfl)
  have order := kept.bounded.order
  have new : w.log.scanned ∉ w.looked := by
    intro listed
    rcases (kept.looked _).mp listed with ⟨_, before⟩ | ⟨from_, to_, skip, reached, _⟩
    · exact Nat.lt_irrefl _ before
    · exact absurd (free from_ to_ skip) (Nat.not_lt.mpr reached)
  refine ⟨⟨order.trans (Nat.le_succ _), ⟨fun _ => Nat.succ_le_of_lt (more.trans_le below), ?_⟩, ?_⟩,
    ?_, ?_, ?_⟩
  · exact kept.bounded.ends.skip
  · rintro _ ⟨⟩
    exact ⟨below, fun _ => more, within.skip⟩
  · exact List.nodup_append.mpr ⟨kept.once, List.nodup_singleton _, fun seq before _ here same =>
      new (List.mem_singleton.mp here ▸ same ▸ before)⟩
  · intro seq
    rw [List.mem_append, kept.looked seq, List.mem_singleton]
    constructor
    · rintro ((⟨above_, before⟩ | passes) | rfl)
      · exact .inl ⟨above_, before.trans (Nat.lt_succ_self _)⟩
      · exact .inr passes
      · exact .inl ⟨order, Nat.lt_succ_self _⟩
    · rintro (⟨above_, before⟩ | passes)
      · exact (Nat.lt_succ_iff_lt_or_eq.mp before).imp_left fun before => .inl ⟨above_, before⟩
      · exact .inl (.inr passes)
  · exact fun from_ to_ skip => ⟨free from_ to_ skip, (kept.ahead from_ to_ skip).2⟩

/-- The blocks that were looked at are passed over. -/
theorem Kept.jump {bound from_ to_ : Nat} {batch : List Nat} (kept : Kept w)
    (phase : w.log.phase = .scanning bound batch) (skip : w.log.skip = some (from_, to_))
    (before : from_ ≤ w.log.scanned)
    : Kept ⟨{ w.log with
        scanned := if w.log.scanned < to_ then (if to_ < bound then to_ else bound) else w.log.scanned
        skip := none }, w.looked⟩ := by
  obtain ⟨below, within⟩ := kept.bounded.upTo bound (by rw [phase]; rfl)
  obtain ⟨ahead, ordered⟩ := kept.ahead from_ to_ skip
  have reached : w.log.scanned = from_ := ahead.antisymm before
  have order := kept.bounded.order
  have target : (if w.log.scanned < to_ then (if to_ < bound then to_ else bound)
      else w.log.scanned) = to_ := by
    split
    · have inside := within.skip from_ to_ skip (reached ▸ ‹_›)
      split <;> omega
    · omega
  rw [target]
  have inside : ∀ {limit : Nat}, Within w.log limit → w.log.from_ < to_ → to_ ≤ limit := by
    intro limit within some_
    rcases Nat.eq_or_lt_of_le ordered with none_ | more
    · rw [← none_, ← reached] at some_ ⊢
      exact within.scanned some_
    · exact within.skip from_ to_ skip more
  refine ⟨⟨order.trans (reached ▸ ordered), ⟨inside kept.bounded.ends, ?_⟩, fun limit is => ?_⟩,
    kept.once, ?_, ?_⟩
  · exact fun _ _ is => by cases is
  · obtain ⟨low, within⟩ := kept.bounded.upTo limit is
    exact ⟨low, inside within, fun _ _ is => by cases is⟩
  · intro seq
    rw [kept.looked seq]
    constructor
    · rintro (⟨above_, before⟩ | ⟨_, _, is, above_, before⟩)
      · exact .inl ⟨above_, before.trans_le (reached ▸ ordered)⟩
      · rw [skip] at is
        cases is
        exact .inl ⟨(order.trans ahead).trans above_, before⟩
    · rintro (⟨above_, before⟩ | passes)
      · rcases Nat.lt_or_ge seq w.log.scanned with known | further
        · exact .inl ⟨above_, known⟩
        · exact .inr ⟨from_, to_, skip, reached ▸ further, before⟩
      · exact absurd passes (Log.not_passes rfl)
  · exact fun _ _ is => by cases is

theorem Kept.turn (kept : Kept w) (turn : Turn locked waits w.log log')
    : Kept ⟨log', w.looked ++ scanOf w.log log'⟩ := by
  rcases turn_kinds turn with ⟨resumes, none_⟩ | ⟨bound, batch, phase, more, free, rfl⟩
    | ⟨bound, batch, from_, to_, phase, more, skip, before, rfl⟩
  · rw [none_, List.append_nil]
    exact resumes.kept kept
  · have scans : scanOf w.log { w.log with
        scanned := w.log.scanned + 1
        phase := .reading w.log.scanned bound batch } = [w.log.scanned] := by
      rw [scanOf, phase]
    rw [scans]
    exact kept.scan phase more free
  · have scans : scanOf w.log { w.log with
        scanned := if w.log.scanned < to_ then (if to_ < bound then to_ else bound) else w.log.scanned
        skip := none } = [] := by
      rw [scanOf, phase]
    rw [scans, List.append_nil]
    exact kept.jump phase skip before

theorem Kept.readFrom (kept : Kept w) (free : start < w.log.from_ → w.log.Clear)
    : Kept { w with log := w.log.readFrom start } := by
  rcases Nat.lt_or_ge start w.log.from_ with earlier | late
  · obtain ⟨from_, scanned, skip, ends, _, upTo, _⟩ := readFrom_eq earlier
    have order := kept.bounded.order
    have within : ∀ {bound : Nat}, Within w.log bound → Within (w.log.readFrom start) bound := by
      intro bound within
      refine ⟨fun some_ => ?_, fun _ _ is some_ => ?_⟩
      · rw [from_, scanned] at some_
        exact absurd some_ (Nat.lt_irrefl _)
      · rw [skip] at is
        cases is
        exact within.scanned some_
    refine ⟨⟨from_.trans scanned.symm ▸ Nat.le_refl _, ends ▸ within kept.bounded.ends,
      fun bound is => ?_⟩, kept.once, fun seq => ?_, fun _ _ is => ?_⟩
    · obtain ⟨low, inside⟩ := kept.bounded.upTo bound (upTo ▸ is)
      exact ⟨ends ▸ low, within inside⟩
    · rw [kept.looked seq]
      rw [from_, scanned]
      constructor
      · rintro (known | ⟨low, high, is, above_, before⟩)
        · exact .inr ⟨_, _, skip, known⟩
        · exact absurd (above_.trans_lt before) (Nat.not_lt.mpr (free earlier low high is))
      · rintro (⟨above_, before⟩ | ⟨_, _, is, known⟩)
        · exact absurd before (Nat.not_lt.mpr above_)
        · rw [skip] at is
          cases is
          exact .inl known
    · rw [skip] at is
      cases is
      exact ⟨scanned.le.trans earlier.le, order⟩
  · rw [readFrom_of_le late]
    exact kept

theorem kept_reads (kept : Kept w) (reads : Reads Clear w w') : Kept w' := by
  induction reads with
  | refl => exact kept
  | learn _ learn scanned skip ih => exact (resumes_learn learn scanned skip).kept ih
  | turn _ turn ih => exact ih.turn turn
  | commit _ commit ih => exact (resumes_commit commit).kept ih
  | readFrom start _ free ih => exact ih.readFrom free

theorem kept_begin (from_ : Nat) (limit : Option Nat) : Kept ⟨Log.begin from_ limit, []⟩ := by
  refine ⟨⟨Nat.le_refl _, ⟨fun some_ => ?_, ?_⟩, ?_⟩, List.nodup_nil, fun seq => ?_, ?_⟩
  · exact absurd some_ (Nat.lt_irrefl _)
  · exact fun _ _ is => by cases is
  · exact fun _ is => by cases is
  · constructor
    · exact fun listed => absurd listed List.not_mem_nil
    · rintro (⟨above_, before⟩ | passes)
      · exact absurd before (Nat.not_lt.mpr above_)
      · exact absurd passes (Log.not_passes rfl)
  · exact fun _ _ is => by cases is

-- No new holes

/-- A block was looked at, and is neither a hole nor in the batch under way. -/
structure Rests (w : Watched) (seq : Nat) : Prop where
  looked : seq ∈ w.looked
  hole : seq ∉ w.log.holes
  picked : seq ∉ w.log.phase.picked

theorem Rests.learn (rests : Rests w seq) (learn : Learn w.log log)
    : Rests { w with log := log } seq := by
  refine ⟨rests.looked, fun hole => rests.hole ?_, fun listed => ?_⟩
  · cases learn with
    | wiped other known => exact (mem_without.mp hole).1
    | _ => exact hole
  · cases learn with
    | index idle => cases listed
    | _ => exact rests.picked listed

/-- Only a scan makes a block a hole anew, and none was looked at that is scanned. -/
theorem Rests.turn (rests : Rests w seq) (kept : Kept ⟨log, w.looked ++ scanOf w.log log⟩)
    (turn : Turn locked waits w.log log)
    : Rests ⟨log, w.looked ++ scanOf w.log log⟩ seq := by
  have apart : ¬ (seq ∈ log.holes ∨ seq ∈ log.phase.picked) := by
    intro pursued
    rcases sources_scanOf turn pursued with before | scanned
    · exact before.elim rests.hole rests.picked
    · exact List.disjoint_of_nodup_append kept.once rests.looked scanned
  obtain ⟨hole, picked⟩ := not_or.mp apart
  exact ⟨List.mem_append_left _ rests.looked, hole, picked⟩

theorem rests_reads (kept : Kept w) (rests : Rests w seq) (reads : Reads Clear w w')
    : Rests w' seq := by
  induction reads with
  | refl => exact rests
  | learn _ learn _ _ ih => exact ih.learn learn
  | turn before turn ih => exact ih.turn ((kept_reads kept before).turn turn) turn
  | commit _ commit ih =>
      obtain ⟨phase⟩ := commit
      exact ⟨ih.looked, ih.hole, List.not_mem_nil⟩
  | @readFrom w' start _ _ ih =>
      rcases Nat.lt_or_ge start w'.log.from_ with earlier | late
      · obtain ⟨_, _, _, _, holes, _, picked⟩ := readFrom_eq earlier
        refine ⟨ih.looked, ?_, ?_⟩
        · rw [holes]
          exact ih.hole
        · rw [picked]
          exact ih.picked
      · rw [readFrom_of_le late]
        exact ih

-- Every block

/-- A run is under way that scans up to a bound. -/
def Log.Aims (log : Log) (bound : Nat) : Prop :=
  log.phase ≠ .idle ∧ (log.again = true ∨ log.phase = .starting
    ∨ ∀ end_, log.phase.upTo = some end_ → bound ≤ end_)

theorem aims_called (called : log.Called) (bound : Nat) : log.Aims bound := by
  rcases called with starting | ⟨running, again⟩
  · exact ⟨by rw [starting]; exact nofun, .inr (.inl starting)⟩
  · exact ⟨running, .inl again⟩

theorem aims_learn {bound : Nat} (aims : log.Aims bound) (learn : Learn log log')
    : log'.Aims bound := by
  obtain ⟨running, aims⟩ := aims
  cases learn with
  | index idle => exact absurd idle running
  | again => exact ⟨running, .inl rfl⟩
  | _ => exact ⟨running, aims⟩

theorem aims_commit {bound : Nat} (commit : Commit log log') : log'.Aims bound := by
  obtain ⟨phase⟩ := commit
  exact ⟨nofun, .inr (.inr fun _ is => by cases is)⟩

theorem aims_turn {bound : Nat} (aims : log.Aims bound) (ends : bound ≤ log.end_)
    (turn : Turn locked waits log log')
    : log'.Aims bound ∨ bound ≤ log.scanned := by
  obtain ⟨running, aims⟩ := aims
  cases turn with
  | start phase | next phase | around phase | more phase | skip phase | fetch phase | fetched phase
  | queue phase =>
      exact .inl ⟨nofun, .inr (.inr fun _ is => by cases is)⟩
  | took phase =>
      refine .inl ⟨nofun, .inr (.inr ?_)⟩
      rintro _ ⟨⟩
      exact ends
  | jump phase => exact .inl ⟨running, aims⟩
  | @settle end_ phase whole _ calm =>
      right
      rw [phase, calm] at aims
      obtain again | starting | upTo := aims
      · cases again
      · cases starting
      · exact (upTo end_ rfl).trans whole
  | @read block end_ batch phase =>
      refine .inl ⟨?_, aims.imp_right fun aims => .inr ?_⟩
      · split <;> exact nofun
      · rw [phase] at aims
        have upTo := aims.resolve_left nofun
        split <;> exact upTo
  | scan phase | asked phase | lock phase | judgeOk phase | judgeWait phase | judgeOver phase
  | quiet phase =>
      refine .inl ⟨nofun, aims.imp_right fun aims => .inr ?_⟩
      rw [phase] at aims
      exact aims.resolve_left nofun

theorem turn_end_ (turn : Turn locked waits log log') : log'.end_ = log.end_ := by
  cases turn <;> rfl

/-- Every block from one up to another was looked at, or a run is under way that scans them. -/
structure Sees (w : Watched) (first bound : Nat) : Prop where
  from_ : w.log.from_ ≤ first
  ends : bound ≤ w.log.end_
  seen : (∀ seq, first ≤ seq → seq < bound → seq ∈ w.looked) ∨ w.log.Aims bound

theorem sees_reads {first bound : Nat} (kept : Kept w) (sees : Sees w first bound)
    (reads : Reads Clear w w')
    : Sees w' first bound := by
  induction reads with
  | refl => exact sees
  | @learn w' log _ learn _ _ ih =>
      have ends : w'.log.end_ ≤ log.end_ := by
        cases learn with
        | append n => exact end_le_append n
        | _ => exact Nat.le_refl _
      exact ⟨(stays_learn learn).from_ ▸ ih.from_, ih.ends.trans ends,
        ih.seen.imp_right fun aims => aims_learn aims learn⟩
  | @turn locked waits w' log before turn ih =>
      refine ⟨(stays_turn turn).from_ ▸ ih.from_, turn_end_ turn ▸ ih.ends, ?_⟩
      rcases ih.seen with seen | aims
      · exact .inl fun seq above_ below_ => List.mem_append_left _ (seen seq above_ below_)
      · rcases aims_turn aims ih.ends turn with aims | whole
        · exact .inr aims
        · refine .inl fun seq above_ below_ => List.mem_append_left _ ?_
          exact ((kept_reads kept before).looked seq).mpr
            (.inl ⟨ih.from_.trans above_, below_.trans_le whole⟩)
  | commit _ commit ih =>
      refine ⟨?_, ?_, .inr (aims_commit commit)⟩
      all_goals
        obtain ⟨phase⟩ := commit
      · exact ih.from_
      · exact ih.ends
  | @readFrom w' start _ _ ih =>
      rcases Nat.lt_or_ge start w'.log.from_ with earlier | late
      · obtain ⟨from_, _, _, ends, _⟩ := readFrom_eq earlier
        refine ⟨?_, ends ▸ ih.ends, .inr (aims_called (called_readFrom earlier) bound)⟩
        exact from_.le.trans (earlier.le.trans ih.from_)
      · rw [readFrom_of_le late]
        exact ih

-- A run that passes blocks over ends

/-- A log with something to pass over goes on as one with nothing, or passes it over. -/
theorem turn_skipping (turn : Turn locked waits log log') (none_ : log.skip = none)
    (skip : Option (Nat × Nat))
    : Turn locked waits { log with skip := skip } { log' with skip := skip }
      ∨ ∃ log'', Turn locked waits { log with skip := skip } log'' ∧ log''.skip = none := by
  cases turn with
  | start phase => exact .inl (.start phase)
  | next phase => exact .inl (.next phase)
  | skip phase room apart => exact .inl (.skip phase room apart)
  | fetch phase room hole => exact .inl (.fetch phase room hole)
  | fetched phase => exact .inl (.fetched phase)
  | took phase whole => exact .inl (.took phase whole)
  | jump phase room more some_ =>
      rw [none_] at some_
      cases some_
  | scan phase room more =>
      rcases skip with _ | ⟨from_, to_⟩
      · exact .inl (.scan phase room more fun _ _ is => by cases is)
      · rcases Nat.lt_or_ge log.scanned from_ with before | reached
        · refine .inl (.scan phase room more ?_)
          rintro _ _ ⟨⟩
          exact before
        · exact .inr ⟨_, .jump phase room more rfl reached, rfl⟩
  | read phase => exact .inl (.read phase)
  | asked phase => exact .inl (.asked phase)
  | lock phase whole => exact .inl (.lock phase whole)
  | judgeOk phase => exact .inl (.judgeOk phase)
  | judgeWait phase positive late => exact .inl (.judgeWait phase positive late)
  | judgeOver phase positive => exact .inl (.judgeOver phase positive)
  | quiet phase same => exact .inl (.quiet phase same)
  | queue phase new => exact .inl (.queue phase new)
  | settle phase whole empty calm => exact .inl (.settle phase whole empty calm)
  | around phase whole empty again => exact .inl (.around phase whole empty again)
  | more phase rest => exact .inl (.more phase rest)

theorem goes_skipping (goes : Goes locked waits log log') (none_ : log.skip = none)
    (skip : Option (Nat × Nat))
    : log'.skip = none ∧ (Goes locked waits { log with skip := skip } { log' with skip := skip }
      ∨ ∃ log'', Goes locked waits { log with skip := skip } log'' ∧ log''.skip = none) := by
  induction goes with
  | refl => exact ⟨none_, .inl .refl⟩
  | turn _ turn ih =>
      obtain ⟨none_, ih⟩ := ih
      refine ⟨(scanned_turn turn none_).1, ?_⟩
      rcases ih with goes | passed
      · rcases turn_skipping turn none_ skip with next | ⟨log'', next, passed⟩
        · exact .inl (goes.turn next)
        · exact .inr ⟨log'', goes.turn next, passed⟩
      · exact .inr passed
  | commit _ commit ih =>
      obtain ⟨none_, ih⟩ := ih
      obtain ⟨phase⟩ := commit
      exact ⟨none_, ih.imp_left fun goes => goes.commit (.commit phase)⟩

theorem ends_skipping (locked waits : Nat → Bool) (log : Log) : Ends locked waits log := by
  obtain ⟨over_, goes, idle⟩ := @run_ends { log with skip := none } locked waits rfl
  rcases (goes_skipping goes rfl log.skip).2 with goes | ⟨log', goes, passed⟩
  · exact ⟨_, goes, idle⟩
  · exact .of_goes goes (run_ends locked waits passed)

-- Reading further back redoes nothing

/-- Moving a log back redoes nothing in any run of batches, arrivals and moves back, in which each
move back is made with nothing left to pass over.
-/
theorem reads_once {from_ : Nat} {limit : Option Nat}
    (reads : Reads Clear ⟨Log.begin from_ limit, []⟩ w)
    : RedoesNothing Clear w := by
  have kept := kept_reads (kept_begin from_ limit) reads
  refine ⟨kept.once, ?_, fun start earlier => called_readFrom earlier, fun called => ⟨?_, ?_⟩⟩
  · intro w' reads seq looked hole picked
    exact (rests_reads kept ⟨looked, hole, picked⟩ reads).hole
  · exact fun locked waits => ends_skipping locked waits w.log
  · intro w' reads idle seq above_ below_
    have aims := aims_called called w.log.end_
    rcases (sees_reads kept ⟨Nat.le_refl _, Nat.le_refl _, .inr aims⟩ reads).seen with seen | aims
    · exact seen seq above_ below_
    · exact absurd idle aims.1

/-- A log that blocks were appended to, moved back by one before any was scanned. -/
theorem reads_once_moved
    : RedoesNothing Clear
        ⟨({ Log.begin 3 none with length := 4 } : Log).readFrom 2, []⟩ := by
  have append : Reads Clear ⟨Log.begin 3 none, []⟩ ⟨{ Log.begin 3 none with length := 4 }, []⟩ :=
    Reads.refl.learn (.append 4) rfl rfl
  exact reads_once (append.readFrom 2 fun _ _ _ is => by cases is)

/-- A log accepted from block 3 on, which is held. -/
def oneHeld (scanned : Nat) (phase : Phase) : Log :=
  { from_ := 3, length := 4, held := [3], persisted := 3, indexed := 3, scanned := scanned,
    uncommitted := true, phase := phase }

/-- The log once block 3 was indexed and its content dropped, moved back to block 2, and to 1. -/
def movedTwice (scanned : Nat) (skip : Option (Nat × Nat)) (holes : List Nat) (phase : Phase)
    : Log :=
  { from_ := 1, length := 4, persisted := 4, indexed := 1, scanned := scanned, holes := holes,
    skip := skip, again := true, uncommitted := true, rescanned := true, phase := phase,
    committed := [3], handed := [3] }

theorem third_indexed (may : Log → Prop)
    : Reads may ⟨Log.begin 3 none, []⟩ ⟨{ oneHeld 4 .resting with
        persisted := 4, indexed := 4, uncommitted := false, committed := [3], handed := [3] },
        [3]⟩ := by
  let free : Nat → Bool := fun _ => false
  have starting : Reads may ⟨Log.begin 3 none, []⟩
      ⟨{ oneHeld 3 .starting with uncommitted := false }, []⟩ :=
    ((Reads.refl.learn (.append 4) rfl rfl).learn (.missed 3) rfl rfl).learn (.index rfl) rfl rfl
  have taking : Reads may ⟨Log.begin 3 none, []⟩ ⟨oneHeld 3 (.taking [] []), []⟩ :=
    starting.turn (@Turn.start free free _ rfl)
  have scanning : Reads may ⟨Log.begin 3 none, []⟩ ⟨oneHeld 3 (.scanning 4 []), []⟩ :=
    taking.turn (@Turn.took free free _ _ _ rfl (.inl rfl))
  have reading : Reads may ⟨Log.begin 3 none, []⟩ ⟨oneHeld 4 (.reading 3 4 []), [3]⟩ :=
    scanning.turn (@Turn.scan free free _ _ _ rfl (by decide) (by decide) fun _ _ is => by cases is)
  have read : Reads may ⟨Log.begin 3 none, []⟩ ⟨oneHeld 4 (.scanning 4 [3]), [3]⟩ :=
    reading.turn (@Turn.read free free (oneHeld 4 (.reading 3 4 [])) 3 4 [] rfl)
  have judging : Reads may ⟨Log.begin 3 none, []⟩ ⟨oneHeld 4 (.judging 4 [3] []), [3]⟩ :=
    read.turn (@Turn.lock free free (oneHeld 4 (.scanning 4 [3])) 4 [3] rfl (by decide))
  have judged : Reads may ⟨Log.begin 3 none, []⟩ ⟨oneHeld 4 (.judging 4 [] [3]), [3]⟩ :=
    judging.turn (@Turn.judgeOk free free _ 3 4 [] [] rfl)
  have queued : Reads may ⟨Log.begin 3 none, []⟩ ⟨oneHeld 4 (.committing [3] 4), [3]⟩ :=
    judged.turn (@Turn.queue free free _ _ _ rfl (.inl (List.cons_ne_nil _ _)))
  exact queued.commit (@Commit.commit (oneHeld 4 (.committing [3] 4)) [3] 4 rfl)

/-- The next block isn't held, and becomes a hole. -/
theorem scan_hole {bound : Nat} {batch : List Nat} (phase : w.log.phase = .scanning bound batch)
    (room : batch.length < BATCH) (more : w.log.scanned < bound)
    (free : ∀ from_ to_, w.log.skip = some (from_, to_) → w.log.scanned < from_)
    (away : w.log.scanned ∉ w.log.held) (content : w.log.scanned ∉ w.log.wiped)
    : Reads may w ⟨{ w.log with
        scanned := w.log.scanned + 1
        holes := addTo w.log.holes w.log.scanned
        phase := .scanning bound batch }, w.looked ++ [w.log.scanned]⟩ := by
  let none_ : Nat → Bool := fun _ => false
  let scanned : Log := { w.log with
    scanned := w.log.scanned + 1
    phase := .reading w.log.scanned bound batch }
  have scan : Reads may w ⟨scanned, w.looked ++ scanOf w.log scanned⟩ :=
    Reads.refl.turn (@Turn.scan none_ none_ _ _ _ phase room more free)
  have read := scan.turn (@Turn.read none_ none_ scanned _ _ _ rfl)
  rw [if_neg away] at read
  have asked := read.turn (@Turn.asked none_ none_ { scanned with
    phase := .asking w.log.scanned bound batch } _ _ _ rfl)
  rw [if_neg content] at asked
  have looked : scanOf w.log scanned = [w.log.scanned] := by rw [scanOf, phase]
  rw [looked] at asked
  simpa [scanOf, scanned] using asked

/-- Block 3 was indexed, its content was dropped since, and the log is moved back twice in a row:
it is scanned again, and becomes a hole.
-/
theorem dropped_again
    : ∃ w w', Reads (fun _ => True) ⟨Log.begin 3 none, []⟩ w ∧ Reads (fun _ => True) w w'
      ∧ 3 ∈ w.looked ∧ 3 ∉ w.log.holes ∧ 3 ∉ w.log.phase.picked
      ∧ 3 ∈ w'.log.holes ∧ ¬ w'.looked.Nodup ∧ ¬ RedoesNothing (fun _ => True) w := by
  let free : Nat → Bool := fun _ => false
  let indexed : Log := { oneHeld 4 .resting with
    persisted := 4, indexed := 4, uncommitted := false, committed := [3], handed := [3] }
  have dropped : Reads (fun _ => True) ⟨indexed, [3]⟩ ⟨{ indexed with held := [] }, [3]⟩ :=
    Reads.refl.learn (.clear 3) rfl rfl
  have moved : Reads (fun _ => True) ⟨indexed, [3]⟩
      ⟨{ movedTwice 1 (some (2, 2)) [] .resting with uncommitted := false }, [3]⟩ :=
    (dropped.readFrom 2 fun _ => trivial).readFrom 1 fun _ => trivial
  have scanning : Reads (fun _ => True) ⟨indexed, [3]⟩
      ⟨movedTwice 1 (some (2, 2)) [] (.scanning 4 []), [3]⟩ :=
    (moved.turn (@Turn.next free free _ rfl)).turn (@Turn.took free free _ _ _ rfl (.inl rfl))
  have first : Reads (fun _ => True) ⟨indexed, [3]⟩
      ⟨movedTwice 2 (some (2, 2)) [1] (.scanning 4 []), [3, 1]⟩ := by
    refine scanning.trans (scan_hole rfl (by decide) (by decide) ?_ (by decide) (by decide))
    rintro _ _ ⟨⟩
    decide
  have passed : Reads (fun _ => True) ⟨indexed, [3]⟩
      ⟨movedTwice 2 none [1] (.scanning 4 []), [3, 1]⟩ :=
    first.turn (@Turn.jump free free _ 4 2 2 [] rfl (by decide) (by decide) rfl (by decide))
  have second : Reads (fun _ => True) ⟨indexed, [3]⟩
      ⟨movedTwice 3 none [1, 2] (.scanning 4 []), [3, 1, 2]⟩ :=
    passed.trans (scan_hole rfl (by decide) (by decide) nofun (by decide) (by decide))
  have third : Reads (fun _ => True) ⟨indexed, [3]⟩
      ⟨movedTwice 4 none [1, 2, 3] (.scanning 4 []), [3, 1, 2, 3]⟩ :=
    second.trans (scan_hole rfl (by decide) (by decide) nofun (by decide) (by decide))
  refine ⟨_, _, third_indexed _, third, by decide, by decide, by decide, by decide, by decide, ?_⟩
  intro redoes
  exact redoes.whole _ third 3 (by decide) (by decide) (by decide) (by decide)

end Hypergraph.Index
