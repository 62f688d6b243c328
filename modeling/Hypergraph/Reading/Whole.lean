import Hypergraph.Reading.Complete

/-! What an answer that everything is held is worth (`completeFrom`): each block that is known to
exist was looked at, and committed, where no run lost a batch, no log was opened again with a
position saved past blocks it didn't look at, and the answer left nothing known out.
-/

namespace Hypergraph.Reading

open Index

variable {locked waits : Nat → Bool} {log log' : Log} {held held' : Held} {s s' : Space} {seq : Nat}

-- The blocks the scan passed

/-- The scan passed the block, or will pass it over: it isn't looked at again unless it arrives.
-/
def Passed (log : Log) (seq : Nat) : Prop :=
  (log.from_ ≤ seq ∧ seq < log.scanned)
    ∨ ∃ from_ to_, log.skip = some (from_, to_) ∧ from_ ≤ seq ∧ seq < to_

/-- The block is below the log's cut. -/
def Within (limit : Option Nat) (seq : Nat) : Prop := ∀ cut, limit = some cut → seq < cut

/-- A step brings the scan past no block but one that it looks at. -/
theorem passed_turn (turn : Turn locked waits log log') (passed : Passed log' seq)
    : Passed log seq ∨ seq ∈ log'.phase.flight := by
  cases turn with
  | @jump end_ from_ to_ batch phase room more skip reached =>
      rcases passed with ⟨above_, below_⟩ | ⟨_, _, none_, _⟩
      · refine .inl ?_
        by_cases before : seq < log.scanned
        · exact .inl ⟨above_, before⟩
        · refine .inr ⟨from_, to_, skip, by omega, ?_⟩
          dsimp only at below_
          split at below_
          · split at below_ <;> omega
          · omega
      · cases none_
  | @scan end_ batch phase room more early =>
      rcases passed with ⟨above_, below_⟩ | skipped
      · rcases Nat.lt_succ_iff_lt_or_eq.mp below_ with before | here
        · exact .inl (.inl ⟨above_, before⟩)
        · exact .inr (here ▸ List.mem_cons_self)
      · exact .inl (.inr skipped)
  | _ => exact .inl passed

theorem passed_learn (learn : Learn log log') (passed : Passed log' seq) : Passed log seq := by
  cases learn with
  | rescan =>
      rcases passed with ⟨above_, below_⟩ | ⟨_, _, none_, _⟩
      · exact absurd below_ (Nat.not_lt.mpr above_)
      · cases none_
  | _ => exact passed

/-- No batch is under way. -/
def between : Phase → Bool
  | .idle | .starting | .resting | .settling _ => true
  | _ => false

theorem flight_between {phase : Phase} (between_ : between phase = true) : phase.flight = [] := by
  cases phase with
  | idle | starting | resting | settling => rfl
  | _ => cases between_

/-- While a batch is under way, the log counts as missing something. -/
def Counted (log : Log) : Prop := between log.phase = false → log.uncommitted = true

theorem counted_turn (counted : Counted log) (turn : Turn locked waits log log')
    : Counted log' := by
  unfold Counted at counted ⊢
  cases turn with
  | start | next | around | more => exact fun _ => rfl
  | quiet | settle => exact fun under => by cases under
  | jump phase => exact counted
  | skip phase | fetch phase | fetched phase | took phase | scan phase | read phase | asked phase
  | lock phase | judgeOk phase | judgeWait phase | judgeOver phase | queue phase =>
      rw [phase] at counted
      exact fun _ => counted rfl

theorem counted_learn (counted : Counted log) (learn : Learn log log') : Counted log' := by
  cases learn with
  | index idle => exact fun under => by cases under
  | _ => exact counted

-- What is known of a held log

/-- What every step keeps of a held log: a block that the scan passed is pursued. -/
structure Held.Looks (held : Held) : Prop where
  header : held.read = true → 0 < held.log.from_
  skipped : ∀ from_ to_, held.log.skip = some (from_, to_) → 0 < from_
  own : held.own = true → held.read = true ∧ held.log.from_ = 1
  saved : ∀ from_, held.saved = some (some from_) → 0 < from_
  unread : held.read = false → held.log.holes = [] ∧ held.log.skip = none
    ∧ between held.log.phase = true
  passed : held.read = true → held.log.failed = false → ∀ seq, Passed held.log seq
    → Within held.log.limit seq → Pursued held.log seq
  counted : Counted held.log

theorem Held.Looks.positive (looks : held.Looks) (read : held.read = true)
    (passed : Passed held.log seq)
    : 0 < seq := by
  rcases passed with ⟨above_, _⟩ | ⟨from_, _, skip, above_, _⟩
  · exact (looks.header read).trans_le above_
  · exact (looks.skipped from_ _ skip).trans_le above_

theorem looks_learn (looks : held.Looks) (read : held.read = true) (learn : Learn held.log log)
    : ({ held with log := log } : Held).Looks where
  header := fun read => by
    rw [show log.from_ = held.log.from_ from (stays_learn learn).from_]
    exact looks.header read
  skipped := by
    intro from_ to_ skip
    refine looks.skipped from_ to_ ?_
    cases learn with
    | rescan => cases skip
    | _ => exact skip
  own := fun own => by
    rw [show log.from_ = held.log.from_ from (stays_learn learn).from_]
    exact looks.own own
  saved := looks.saved
  unread := fun unread => by
    rw [show held.read = false from unread] at read
    cases read
  passed := by
    intro read fine seq passed within
    rw [show log.failed = held.log.failed from (stays_learn learn).failed] at fine
    refine pursued_learn (looks.passed read fine seq (passed_learn learn passed) ?_) learn
    have same : log.limit = held.log.limit := by
      cases learn <;> rfl
    exact same ▸ within
  counted := counted_learn looks.counted learn

theorem looks_turn (looks : held.Looks) (read : held.read = true)
    (turn : Turn locked waits held.log log)
    : ({ held with log := log } : Held).Looks where
  header := fun read => by
    rw [show log.from_ = held.log.from_ from (stays_turn turn).from_]
    exact looks.header read
  skipped := by
    intro from_ to_ skip
    refine looks.skipped from_ to_ ?_
    cases turn with
    | jump => cases skip
    | _ => exact skip
  own := fun own => by
    rw [show log.from_ = held.log.from_ from (stays_turn turn).from_]
    exact looks.own own
  saved := looks.saved
  unread := fun unread => by
    rw [show held.read = false from unread] at read
    cases read
  passed := by
    intro read fine seq passed within
    rw [show log.failed = held.log.failed from (stays_turn turn).failed] at fine
    have same : log.limit = held.log.limit := by
      cases turn <;> rfl
    rcases passed_turn turn passed with before | here
    · exact pursued_turn (looks.passed read fine seq before (same ▸ within)) turn
    · exact .inr (.inr here)
  counted := counted_turn looks.counted turn

theorem looks_commit (looks : held.Looks) (read : held.read = true) (commit : Commit held.log log)
    : ({ held with log := log } : Held).Looks := by
  have pursued := fun seq (passed : Passed held.log seq) (pursued : Pursued held.log seq) =>
    pursued_commit (looks.positive read passed) pursued commit
  obtain ⟨phase⟩ := commit
  refine ⟨looks.header, looks.skipped, looks.own, looks.saved, fun unread => ?_, ?_, ?_⟩
  · rw [show held.read = false from unread] at read
    cases read
  · exact fun read fine seq passed within =>
      pursued seq passed (looks.passed read fine seq passed within)
  · exact fun under => by cases under

theorem looks_thrown (looks : held.Looks)
    : ({ held with log := { held.log with
        uncommitted := false
        phase := .idle
        failed := held.log.failed || !(Log.records held.log.phase.flight).isEmpty } } : Held).Looks := by
  refine ⟨looks.header, looks.skipped, looks.own, looks.saved, fun unread => ?_, ?_, ?_⟩
  · obtain ⟨holes, skip, _⟩ := looks.unread unread
    exact ⟨holes, skip, rfl⟩
  · intro read fine seq passed within
    obtain ⟨fine, empty⟩ : held.log.failed = false ∧ Log.records held.log.phase.flight = [] := by
      simpa using fine
    rcases looks.passed read fine seq passed within with done | hole | flight
    · exact .inl done
    · exact .inr (.inl hole)
    · have here : seq ∈ Log.records held.log.phase.flight :=
        List.mem_filter.mpr ⟨flight, decide_eq_true (looks.positive read passed)⟩
      rw [empty] at here
      cases here
  · exact fun under => by cases under

/-- The limit isn't raised past blocks that the scan passed while they were cut. -/
def Held.Lowers (held : Held) (limit : Nat) : Prop :=
  ∀ seq < limit, Passed held.log seq → ¬ Within held.log.limit seq → Pursued held.log seq

theorem looks_cut {limit : Nat} (looks : held.Looks) (lowers : held.Lowers limit)
    : ({ held with log := { held.log with
        limit := some limit
        holes := held.log.holes.filter (· < limit)
        scanned := if limit < held.log.scanned then limit else held.log.scanned } } : Held).Looks := by
  refine ⟨looks.header, looks.skipped, looks.own, looks.saved, fun unread => ?_, ?_, looks.counted⟩
  · obtain ⟨holes, skip, between_⟩ := looks.unread unread
    exact ⟨by simp [holes], skip, between_⟩
  · intro read fine seq passed within
    have below_ : seq < limit := within limit rfl
    have before : Passed held.log seq := by
      refine passed.imp_left fun ⟨above_, reached⟩ => ⟨above_, ?_⟩
      split at reached <;> omega
    have pursued : Pursued held.log seq := by
      by_cases within : Within held.log.limit seq
      · exact looks.passed read fine seq before within
      · exact lowers seq below_ before within
    refine pursued.imp_right (Or.imp_left fun hole => ?_)
    exact List.mem_filter.mpr ⟨hole, decide_eq_true below_⟩

theorem looks_readFrom {start : Nat} (looks : held.Looks) (positive : 0 < start)
    : (held.readFrom start).Looks := by
  unfold Held.readFrom
  split
  · exact looks
  rename_i reads
  obtain ⟨other, later⟩ := not_or.mp reads
  split
  · rename_i read
    refine ⟨fun _ => positive, ?_, fun own => absurd own other, looks.saved, fun unread => ?_, ?_,
      looks.counted⟩
    · rintro from_ to_ ⟨⟩
      exact looks.header read
    · exact absurd unread (by simp [read])
    · intro read fine seq passed within
      rcases passed with ⟨above_, below_⟩ | ⟨from_, to_, skip, above_, below_⟩
      · exact absurd below_ (Nat.not_lt.mpr above_)
      · cases skip
        exact looks.passed read fine seq (.inl ⟨above_, below_⟩) within
  · rename_i unread
    obtain ⟨_, skip, _⟩ := looks.unread (by simpa using unread)
    refine ⟨fun _ => positive, looks.skipped, fun own => absurd own other, looks.saved,
      (fun unread => by cases unread), ?_, looks.counted⟩
    intro _ fine seq passed within
    rcases passed with ⟨above_, below_⟩ | ⟨from_, to_, here, _⟩
    · exact absurd below_ (Nat.not_lt.mpr above_)
    · rw [show held.log.skip = some (from_, to_) from here] at skip
      cases skip

/-- What is saved of a log is true: below its position, every block was looked at from its saved
start on.
-/
def Held.Trusted (held : Held) : Prop :=
  ∀ from_, held.savedFrom = some from_ → ∀ seq, from_ ≤ seq → seq < held.log.persisted
    → Done held.log seq

theorem looks_reopen {now length : Nat} (looks : held.Looks) (trusted : held.Trusted)
    : (held.reopen now length).Looks := by
  have start : ∀ from_, held.savedFrom = some from_ → 0 < from_ := by
    unfold Held.savedFrom
    intro from_ same
    split at same
    · cases same
      exact Nat.one_pos
    · cases saved : held.saved with
      | none =>
          rw [saved] at same
          cases same
          exact Nat.one_pos
      | some kept =>
          rw [saved] at same
          exact looks.saved from_ (saved.trans (congrArg some same))
  unfold Held.reopen
  refine ⟨fun read => ?_, (fun _ _ skip => by cases skip), fun own => ?_, looks.saved,
    fun _ => ⟨rfl, rfl, rfl⟩, ?_, (fun under => by cases under)⟩
  · obtain ⟨from_, same⟩ := Option.isSome_iff_exists.mp read
    rw [same]
    exact start from_ same
  · have own : held.own = true := own
    simp [Held.savedFrom, own, Log.open_]
  · intro read _ seq passed _
    obtain ⟨from_, same⟩ := Option.isSome_iff_exists.mp read
    rcases passed with ⟨above_, below_⟩ | ⟨_, _, skip, _⟩
    · rw [same] at above_ below_
      refine .inl (trusted from_ same seq above_ ?_)
      rcases lt_max_iff.mp below_ with saved | early
      · exact saved
      · exact absurd early (Nat.not_lt.mpr above_)
    · cases skip

theorem looks_accepted {key : Key} {own : Bool} {from_ limit : Option Nat} {now length : Nat}
    (positive : ∀ start, from_ = some start → 0 < start)
    (mine : own = true → from_ = some 1)
    : (Held.accepted key own from_ limit now length).Looks := by
  refine ⟨fun read => ?_, (fun _ _ skip => by cases skip), fun own => ?_, (fun _ saved => by cases saved),
    fun _ => ⟨rfl, rfl, rfl⟩, ?_, (fun under => by cases under)⟩
  · obtain ⟨start, same⟩ := Option.isSome_iff_exists.mp read
    cases same
    exact positive start rfl
  · cases mine own
    exact ⟨rfl, rfl⟩
  · rintro _ _ seq (⟨above_, below_⟩ | ⟨_, _, skip, _⟩) _
    · exact absurd below_ (Nat.not_lt.mpr above_)
    · cases skip

theorem looks_step {limit : Option Nat} (looks : held.Looks) (step : HeldStep held limit held')
    (lowers : ∀ cut, limit = some cut → held.Lowers cut)
    : held'.Looks := by
  cases step with
  | learn read learn => exact looks_learn looks read learn
  | turn read turn => exact looks_turn looks read turn
  | commit read commit => exact looks_commit looks read commit
  | thrown => exact looks_thrown looks
  | cut limit => exact looks_cut looks (lowers limit rfl)
  | blocks length blocks wiped unread =>
      refine ⟨looks.header, looks.skipped, looks.own, looks.saved, looks.unread, ?_, looks.counted⟩
      intro read
      rw [show held.read = true from read] at unread
      cases unread
  | save =>
      refine ⟨looks.header, looks.skipped, looks.own, ?_, looks.unread, looks.passed, looks.counted⟩
      intro from_ saved
      split at saved
      · rename_i read
        cases saved
        exact looks.header read
      · cases saved
  | cutSaved | claim | unclaim | core | hear =>
      exact ⟨looks.header, looks.skipped, looks.own, looks.saved, looks.unread, looks.passed,
        looks.counted⟩

-- What is known of a space's logs

/-- Each log is held once, and what is known of a held log is known of it. -/
structure Space.Sound (s : Space) : Prop where
  logs : ∀ held ∈ s.logs, held.Looks
  keys : (s.logs.map Held.key).Nodup

theorem Space.mem_of_find {key : Key} (found : s.find key = some held)
    : held ∈ s.logs ∧ held.key = key :=
  ⟨List.mem_of_find?_eq_some found, by simpa using List.find?_some found⟩

theorem Space.Sound.find (sound : s.Sound) (listed : held ∈ s.logs)
    : s.find held.key = some held := by
  have keys := sound.keys
  unfold Space.find
  induction logs : s.logs generalizing s with
  | nil =>
      rw [logs] at listed
      cases listed
  | cons first rest ih =>
      rw [logs] at listed keys
      obtain ⟨new, keys⟩ := List.nodup_cons.mp keys
      rcases List.mem_cons.mp listed with rfl | later
      · simp
      · have apart : (first.key == held.key) = false := by
          simp only [beq_eq_false_iff_ne]
          exact fun same => new (same ▸ List.mem_map_of_mem later)
        rw [List.find?_cons_of_neg (by simp [apart])]
        exact @ih { s with logs := rest } ⟨fun held listed => sound.logs held
          (logs ▸ List.mem_cons_of_mem _ listed), keys⟩ later keys rfl

theorem Space.Sound.set (sound : s.Sound) (looks : held.Looks) : (s.set held).Sound where
  logs := by
    intro other listed
    obtain ⟨before, there, rfl⟩ := List.mem_map.mp listed
    split
    · exact looks
    · exact sound.logs before there
  keys := by
    have same : (s.set held).logs.map Held.key = s.logs.map Held.key := by
      unfold Space.set
      rw [List.map_map]
      refine List.map_congr_left fun other _ => ?_
      dsimp only [Function.comp]
      split
      · rename_i same
        simpa using Eq.symm (by simpa using same)
      · rfl
    exact same ▸ sound.keys

theorem Space.Sound.readFrom {key : Key} {start : Nat} (sound : s.Sound) (positive : 0 < start)
    : (s.readFrom key start).Sound := by
  unfold Space.readFrom
  split
  · rename_i held found
    exact sound.set (looks_readFrom (sound.logs held (Space.mem_of_find found).1) positive)
  · exact sound

theorem Space.startOf_pos {key : Key} {period start : Nat}
    (found : s.startOf key period = some start)
    : 0 < start := by
  obtain ⟨row, _, rfl⟩ := List.mem_map.mp (List.min?_mem found)
  exact row.past

theorem Space.Sound.entry (sound : s.Sound) (row : Row) : (s.entry row).Sound := by
  have same : ∀ kept act : List Row, Space.Sound { s with kept := kept, act := act } :=
    fun _ _ => ⟨sound.logs, sound.keys⟩
  unfold Space.entry
  split
  · exact same _ _
  · split
    · exact same _ _
    · exact (same _ _).readFrom row.past

theorem Space.Sound.loaded (sound : s.Sound) (period : Nat) : (s.loaded period).Sound := by
  have begun : ∀ act : List Row,
      Space.Sound { s with act := act, loading := s.loading.erase period } :=
    fun _ => ⟨sound.logs, sound.keys⟩
  unfold Space.loaded
  refine List.foldlRecOn _ _ (begun _) fun s sound row _ => ?_
  split
  · rename_i start found
    exact sound.readFrom (Space.startOf_pos found)
  · exact sound

theorem Space.Sound.accept {key : Key} {own : Bool} {limit : Option Nat} {now length : Nat}
    (sound : s.Sound) (new : s.find key = none)
    : Space.Sound
        { s with logs := s.logs ++ [.accepted key own (s.fromOf key own) limit now length] } where
  logs := by
    intro held listed
    rcases List.mem_append.mp listed with before | here
    · exact sound.logs held before
    · cases List.mem_singleton.mp here
      refine looks_accepted (fun start same => ?_) fun mine => by simp [Space.fromOf, mine]
      unfold Space.fromOf at same
      split at same
      · cases same
        exact Nat.one_pos
      · split at same
        · cases same
          exact Nat.one_pos
        · split at same
          · cases same
            exact Nat.one_pos
          · exact Space.startOf_pos same
  keys := by
    rw [List.map_append]
    refine List.nodup_append.mpr ⟨sound.keys, List.nodup_singleton _, ?_⟩
    intro other there _ here same
    obtain ⟨held, listed, rfl⟩ := List.mem_map.mp there
    have apart := List.find?_eq_none.mp new held listed
    cases List.mem_singleton.mp here
    have same : held.key = key := same
    exact apart (by simpa using same)

/-- No log is opened again with a position saved past blocks it didn't look at, and none's limit
is raised past blocks that the scan passed.
-/
def Space.Careful (s : Space) : Event → Prop
  | .cut key limit => ∀ held ∈ s.logs, held.key = key → held.Lowers limit
  | .reopen => ∀ held ∈ s.logs, held.Trusted
  | .other => True

theorem Space.Sound.step {event : Event} (sound : s.Sound) (step : s.Step event s')
    (careful : s.Careful event)
    : s'.Sound := by
  cases step with
  | log listed step =>
      exact sound.set (looks_step (sound.logs _ listed) step fun cut same => by cases same)
  | cut listed step =>
      refine sound.set (looks_step (sound.logs _ listed) step fun cut same => ?_)
      cases same
      exact careful _ listed rfl
  | accept new => exact sound.accept new
  | drop key =>
      exact ⟨fun held listed => sound.logs held (List.mem_of_mem_filter listed),
        sound.keys.sublist (List.filter_sublist.map _)⟩
  | entry row => exact sound.entry row
  | loaded => exact sound.loaded _
  | reopen rows now length =>
      refine ⟨fun held listed => ?_, ?_⟩
      · obtain ⟨before, there, rfl⟩ := List.mem_map.mp listed
        have there := List.mem_of_mem_filter there
        exact looks_reopen (sound.logs before there) (careful before there)
      · have same : (s.reopen rows now length).logs.map Held.key
            = (s.logs.filter fun held => rows held.key).map Held.key := by
          unfold Space.reopen
          rw [List.map_map]
          rfl
        exact same ▸ sound.keys.sublist (List.filter_sublist.map _)
  | summary | small | widen | load | backfill | save | others =>
      exact ⟨sound.logs, sound.keys⟩

theorem sound_of_run (run : s.Run Space.Careful s') (none_ : s.logs = []) : s'.Sound := by
  induction run with
  | refl => exact ⟨by simp [none_], by simp [none_]⟩
  | step _ step careful ih => exact ih.step step careful

-- Complete means complete

/-- The block is known to exist: a log or a claim of its length reaches past it, and its cut. -/
def Held.Known (held : Held) (seq : Nat) : Prop :=
  (seq < held.log.length ∨ seq < held.claim) ∧ Within held.log.limit seq

/-- From where a log is to be whole: a kept entry's start, at or after the stamp's period, or its
first record where everything is read.
-/
def Space.Starts (s : Space) (stamp : Nat) (key : Key) (start : Nat) : Prop :=
  match s.horizon with
  | none => start = 1
  | some _ => ∃ row ∈ s.kept, row.log = key ∧ periodOf stamp ≤ row.period ∧ row.start = start

/-- The answer leaves out nothing of the log: it lost no batch; where everything is read, it is
read from its first record on; else no claim beyond its length stands, nothing is missing of it
if it is this device's, and its entries are in memory.
-/
def Space.Answers (s : Space) (stamp : Nat) (held : Held) : Prop :=
  held.log.failed = false ∧ match s.horizon with
  | none => held.read = true ∧ held.log.from_ ≤ 1
  | some _ => held.claimed = 0 ∧ (held.own = true → held.behind = 0)
      ∧ ∀ row ∈ s.kept, row.log = held.key → periodOf stamp ≤ row.period
        → ∃ known ∈ s.act, known.log = held.key ∧ periodOf stamp ≤ known.period
          ∧ known.start ≤ row.start

theorem lt_capped {limit : Option Nat} {n : Nat}
    : seq < capped limit n ↔ seq < n ∧ Within limit seq := by
  unfold capped Within
  cases limit with
  | none => simp
  | some cut =>
      simp only [Option.some.injEq, forall_eq']
      split <;> omega

theorem lt_end : seq < log.end_ ↔ seq < log.length ∧ Within log.limit seq := by
  have same : log.end_ = capped log.limit log.length := by
    unfold Log.end_ capped
    cases log.limit <;> rfl
  rw [same]
  exact lt_capped

theorem Held.behind_eq_zero (read : held.read = true)
    : held.behind = 0 ↔ held.log.holes = [] ∧ held.log.end_ ≤ held.log.scanned ∧ held.claimed = 0
      ∧ held.log.uncommitted = false := by
  unfold Held.behind
  rw [if_pos read]
  cases held.log.uncommitted <;> simp [Nat.sub_eq_zero_iff_le, and_assoc]

/-- A log that is whole from a block on was looked at from it on. -/
theorem Held.Looks.looked {start : Nat} (looks : held.Looks) (fine : held.log.failed = false)
    (read : held.read = true) (from_ : held.log.from_ ≤ start)
    (scanned : held.log.end_ ≤ held.log.scanned) (idle : held.log.uncommitted = false)
    (holes : ∀ hole ∈ held.log.holes, hole < start) (claimed : held.claimed = 0)
    (above_ : start ≤ seq) (known : held.Known seq)
    : Done held.log seq ∧ seq ∉ held.log.holes := by
  obtain ⟨exists_, within⟩ := known
  have apart : seq ∉ held.log.holes := fun hole => absurd (holes seq hole) (Nat.not_lt.mpr above_)
  have below_ : seq < held.log.length := by
    rcases exists_ with below_ | told
    · exact below_
    · have capped_ : seq < capped held.log.limit held.claim := lt_capped.mpr ⟨told, within⟩
      unfold Held.claimed at claimed
      omega
  have reached : seq < held.log.scanned := (lt_end.mpr ⟨below_, within⟩).trans_le scanned
  refine ⟨?_, apart⟩
  rcases looks.passed read fine seq (.inl ⟨from_.trans above_, reached⟩) within with
    done | hole | flight
  · exact done
  · exact absurd hole apart
  · have none_ : between held.log.phase = true := by
      by_contra under
      have counted := looks.counted (by simpa using under)
      rw [idle] at counted
      cases counted
    rw [flight_between none_] at flight
    cases flight

theorem Space.missing_eq_zero {now : Nat}
    : s.missing now = 0 ↔ ∀ held ∈ s.logs, held.missing s.settled now = 0 := by
  unfold Space.missing
  simp [List.sum_eq_zero_iff_forall_eq_nat]

theorem Space.startOf_eq_some {key : Key} {period : Nat} {row : Row} (listed : row ∈ s.act)
    (log : row.log = key) (later : period ≤ row.period)
    : ∃ start, s.startOf key period = some start ∧ start ≤ row.start := by
  have here : row.start ∈ (s.act.filter fun row => row.log == key && period ≤ row.period).map
      fun row => row.start :=
    List.mem_map.mpr ⟨row, List.mem_filter.mpr ⟨listed, by simp [log, later]⟩, rfl⟩
  unfold Space.startOf
  cases least : ((s.act.filter fun row => row.log == key && period ≤ row.period).map
      fun row => row.start).min? with
  | none =>
      rw [List.min?_eq_none_iff.mp least] at here
      cases here
  | some start => exact ⟨start, rfl, (List.min?_eq_some_iff.mp least).2 _ here⟩

/-- With the lists of entries whole, an answer from the horizon 0 and one where everything is
read speak of the same: each log is read from its first entry on and has no hole before it, nothing is
missing of this device's own, and no claim stands.
-/
structure Space.Level (s : Space) (now : Nat) : Prop where
  lists : s.undecided = false ∧ s.reachedFrom = 0 ∧ s.waiting = []
  members : s.known = true ∨ (s.members = [s.me] ∧ s.alone = true)
  entries : ∀ row ∈ s.act, (∃ held ∈ s.logs, held.key = row.log) ∨ row.log ∈ s.refused
  logs : ∀ held ∈ s.logs, held.read = true ∧ held.claimed = 0
    ∧ (held.own = true → held.behind = 0)
    ∧ ∃ start, s.startOf held.key 0 = some start ∧ held.log.from_ ≤ start
      ∧ ∀ hole ∈ held.log.holes, start ≤ hole

theorem Space.Sound.wholeFrom {now : Nat} (sound : s.Sound) (level : s.Level now)
    (listed : held ∈ s.logs)
    : s.wholeFrom now 0 held.key = true ↔ held.missing s.settled now = 0 := by
  obtain ⟨read, claimed, mine, start, found, from_, holes⟩ := level.logs held listed
  have none_ : (∀ hole ∈ held.log.holes, hole < start) ↔ held.log.holes = [] := by
    constructor
    · intro before
      apply List.eq_nil_iff_forall_not_mem.mpr
      intro hole here
      exact absurd (before hole here) (Nat.not_lt.mpr (holes hole here))
    · rintro empty hole here
      rw [empty] at here
      cases here
  unfold Space.wholeFrom Held.missing
  rw [found, sound.find listed, if_pos read]
  dsimp only
  cases own : held.own with
  | true => simp [mine own, Held.unheard, own]
  | false =>
      rw [if_neg Bool.false_ne_true, Nat.add_eq_zero_iff, Held.behind_eq_zero read]
      simp only [read, Nat.not_lt.mpr from_, false_or, ← none_, claimed, true_and,
        Bool.true_eq_false]
      by_cases heard : held.unheard s.settled now = 0
      · cases idle : held.log.uncommitted with
        | true => simp [heard]
        | false =>
            by_cases scanned : held.log.end_ ≤ held.log.scanned
            · simp [heard, scanned, Nat.not_lt.mpr scanned]
            · simp [heard, scanned, Nat.not_le.mp scanned]
      · simp [heard]

/-- In every run in which no log is opened again with a position saved past blocks it didn't look
at, and none's limit is raised past blocks that the scan passed: where an answer leaves out nothing
of a log, and is that everything is held, each of its blocks known to exist was looked at and
committed, and is no hole; and both ways to read agree where the lists of entries are whole.
-/
theorem complete_means_complete {joined : Space} (none_ : joined.logs = [])
    (run : joined.Run Space.Careful s)
    : (∀ now stamp, s.completeFrom now stamp = true → ∀ held ∈ s.logs, s.Answers stamp held
        → ∀ start, s.Starts stamp held.key start → ∀ seq, start ≤ seq → held.Known seq
          → Done held.log seq ∧ seq ∉ held.log.holes)
      ∧ ∀ now, s.horizon = some 0 → s.Level now
        → s.completeFrom now 0 = ({ s with horizon := none } : Space).completeFrom now 0 := by
  have sound := sound_of_run run none_
  constructor
  · intro now stamp complete held listed answers start starts seq above_ known
    have looks := sound.logs held listed
    obtain ⟨fine, answers⟩ := answers
    unfold Space.Starts at starts
    unfold Space.completeFrom at complete
    split at complete
    · cases complete
    cases reading : s.horizon with
    | none =>
        rw [reading] at complete answers starts
        obtain ⟨read, from_⟩ := answers
        subst starts
        have missing : s.missing now = 0 := by
          by_contra some_
          simp [Space.completeAll, Nat.pos_of_ne_zero some_] at complete
        have missing := Space.missing_eq_zero.mp missing held listed
        rw [Held.missing, if_pos read, Nat.add_eq_zero_iff, Held.behind_eq_zero read] at missing
        obtain ⟨⟨holes, scanned, claimed, idle⟩, _⟩ := missing
        exact looks.looked fine read from_ scanned idle (by simp [holes]) claimed above_ known
    | some horizon =>
        rw [reading] at complete answers starts
        dsimp only at complete answers starts
        obtain ⟨claimed, mine, entries⟩ := answers
        obtain ⟨row, kept, log, later, rfl⟩ := starts
        obtain ⟨entry, inMemory, log', later', earlier⟩ := entries row kept log later
        split at complete
        · cases complete
        split at complete
        · cases complete
        have whole := List.all_eq_true.mp complete entry inMemory
        obtain ⟨start, found, least⟩ := Space.startOf_eq_some inMemory log' later'
        have above_ : start ≤ seq := least.trans (earlier.trans above_)
        unfold Space.wholeFrom at whole
        rw [log', found, sound.find listed] at whole
        dsimp only at whole
        cases own : held.own with
        | true =>
            obtain ⟨read, from_⟩ := looks.own own
            obtain ⟨holes, scanned, claimed, idle⟩ := (Held.behind_eq_zero read).mp (mine own)
            have first : held.log.from_ ≤ start := from_ ▸ Space.startOf_pos found
            exact looks.looked fine read first scanned idle (by simp [holes]) claimed above_ known
        | false =>
            rw [own, if_neg Bool.false_ne_true] at whole
            split at whole
            · cases whole
            rename_i reads
            simp only [not_or] at reads
            obtain ⟨read, from_, heard, idle⟩ := reads
            split at whole
            · cases whole
            rename_i scanned
            have holes : ∀ hole ∈ held.log.holes, hole < start := by
              simpa using whole
            exact looks.looked fine (by simpa using read) (Nat.not_lt.mp from_)
              (Nat.not_lt.mp scanned) (by simpa using idle) holes claimed above_ known
  · intro now reading level
    obtain ⟨decided, reached, waiting⟩ := level.lists
    have period : periodOf 0 = 0 := by
      simp [periodOf]
    unfold Space.completeFrom
    split
    · rfl
    rw [reading]
    dsimp only
    rw [period, if_neg (by simp [decided]), if_neg (by simp [reached, waiting])]
    have agree : (s.act.all fun row => s.wholeFrom now 0 row.log) = true ↔ s.missing now = 0 := by
      rw [Space.missing_eq_zero, List.all_eq_true]
      constructor
      · intro whole held listed
        obtain ⟨_, _, _, start, found, _⟩ := level.logs held listed
        obtain ⟨row, here, log⟩ : ∃ row ∈ s.act, row.log = held.key := by
          obtain ⟨row, here, _⟩ := List.mem_map.mp (List.min?_mem found)
          obtain ⟨here, same⟩ := List.mem_filter.mp here
          exact ⟨row, here, by simpa using same⟩
        exact (sound.wholeFrom level listed).mp (log ▸ whole row here)
      · intro missing row here
        cases found : s.find row.log with
        | some held =>
            obtain ⟨listed, log⟩ := Space.mem_of_find found
            exact log ▸ (sound.wholeFrom level listed).mpr (missing held listed)
        | none =>
            rcases level.entries row here with ⟨held, listed, log⟩ | refused
            · rw [← log, sound.find listed] at found
              cases found
            · unfold Space.wholeFrom
              split
              · rfl
              · rw [found]
                simpa using refused
    have all : ({ s with horizon := none } : Space).completeAll now
        = if s.missing now = 0 then true else false := by
      have same : ({ s with horizon := none } : Space).missing now = s.missing now := rfl
      unfold Space.completeAll
      rw [same]
      rcases Nat.eq_zero_or_pos (s.missing now) with zero | some_
      · rcases level.members with known | ⟨members, alone⟩
        · simp [zero, known]
        · simp [zero, members, alone]
      · simp [some_, Nat.ne_of_gt some_]
    rw [all, Bool.eq_iff_iff, agree]
    simp

/-- A log of which the header alone is here, read from its first record on. -/
def headerOnly (read : Bool) (claim : Nat) (core : Option Core) : Held :=
  { key := [1], own := false, read := read, acceptedAt := 0, claim := claim, core := core
    log := { Log.begin 1 none with length := 1 } }

/-- Its author's entry. -/
def firstRow : Row := { log := [1], period := 0, start := 1, past := Nat.one_pos }

/-- A space read from the period 0 on, its lists of entries whole or not, with logs and entries. -/
def fromZero (whole : Bool) (rows : List Row) (logs : List Held) : Space :=
  { me := [0], horizon := some 0, kept := rows, act := rows, logs := logs, known := whole
    members := if whole then [[0], [2]] else [], reachedFrom := if whole then 0 else ⊤ }

theorem run_headerOnly (allowed : Space → Event → Prop) (other : ∀ s, allowed s .other)
    : (fromZero false [] []).Run allowed
        (fromZero false [firstRow] [headerOnly true 0 none]) := by
  have accept : (fromZero false [] []).Step .other (fromZero false [] [headerOnly false 0 none]) :=
    @Space.Step.accept (fromZero false [] []) [1] false none 0 1 rfl
  have entry : (fromZero false [] [headerOnly false 0 none]).Step .other
      (fromZero false [firstRow] [headerOnly true 0 none]) := .entry firstRow
  exact .step (.step .refl accept (other _)) entry (other _)

theorem step_whole (rows : List Row) (logs : List Held)
    : (fromZero false rows logs).Step .other (fromZero true rows logs) :=
  @Space.Step.others (fromZero false rows logs) [[0], [2]] [] false true [] 0 []

/-- A log that is read, as far as its run is. -/
def oneRecord (log : Log) : Held :=
  { key := [1], own := false, read := true, acceptedAt := 0, log := log }

/-- Its run goes on, with no record locked and none that waits. -/
theorem run_turn {log log' : Log}
    (run : (fromZero false [] []).Run Space.Careful (fromZero false [firstRow] [oneRecord log]))
    (turn : Turn (fun _ => false) (fun _ => false) log log')
    : (fromZero false [] []).Run Space.Careful (fromZero false [firstRow] [oneRecord log']) :=
  .step run (@Space.Step.log (fromZero false [firstRow] [oneRecord log]) _ _ (List.mem_singleton_self _)
    (.turn rfl turn)) trivial

/-- What is learnt of it. -/
theorem run_learn {log log' : Log}
    (run : (fromZero false [] []).Run Space.Careful (fromZero false [firstRow] [oneRecord log]))
    (learn : Learn log log')
    : (fromZero false [] []).Run Space.Careful (fromZero false [firstRow] [oneRecord log']) :=
  .step run (@Space.Step.log (fromZero false [firstRow] [oneRecord log]) _ _ (List.mem_singleton_self _)
    (.learn rfl learn)) trivial

/-- Its record came, was looked at and committed. -/
def committedRecord : Held :=
  oneRecord { Log.begin 1 none with
    length := 2, held := [1], persisted := 2, indexed := 2, scanned := 2, phase := .resting
    committed := [1], handed := [1] }

theorem run_committedRecord
    : (fromZero false [] []).Run Space.Careful (fromZero true [firstRow] [committedRecord]) := by
  have read := run_learn (run_headerOnly Space.Careful fun _ => trivial) (.append 1)
  have looked := run_turn (run_turn (run_turn (run_turn (run_learn (run_learn read (.download 1)) (.index rfl))
    (.start rfl)) (.took rfl (.inl rfl))) (.scan rfl (by decide) (by decide) nofun)) (.read rfl)
  have queued := run_turn (run_turn (run_turn looked (.lock rfl (by decide))) (@Turn.judgeOk _ _ _ 1 _ [] _ rfl))
    (.queue rfl (.inl nofun))
  have committed := queued.step (@Space.Step.log (fromZero false [firstRow] _) _ _ (List.mem_singleton_self _)
    (.commit rfl (.commit rfl))) trivial
  exact committed.step (step_whole [firstRow] [committedRecord]) trivial

/-- With the record committed everything is held, and everything read it is as well. -/
theorem complete_means_complete_record
    : (fromZero true [firstRow] [committedRecord]).completeFrom 5000 0 = true
      ∧ committedRecord.Known 1
      ∧ Done committedRecord.log 1 ∧ 1 ∉ committedRecord.log.holes
      ∧ (fromZero true [firstRow] [committedRecord]).completeFrom 5000 0
        = ({ fromZero true [firstRow] [committedRecord] with horizon := none } : Space).completeFrom 5000 0 := by
  obtain ⟨all, agree⟩ := complete_means_complete rfl run_committedRecord
  have complete : (fromZero true [firstRow] [committedRecord]).completeFrom 5000 0 = true := by decide +kernel
  have known : committedRecord.Known 1 := ⟨.inl (by decide), nofun⟩
  have looked := all 5000 0 complete committedRecord (List.mem_singleton_self _) ⟨rfl, rfl, nofun, ?_⟩ 1
    ⟨firstRow, List.mem_singleton_self _, rfl, Nat.zero_le _, rfl⟩ 1 (Nat.le_refl _) known
  · refine ⟨complete, known, looked.1, looked.2, agree 5000 rfl ⟨⟨rfl, rfl, rfl⟩, .inl rfl, ?_, ?_⟩⟩
    · intro row listed
      cases List.mem_singleton.mp listed
      exact .inl ⟨_, List.mem_singleton_self _, rfl⟩
    · intro held listed
      cases List.mem_singleton.mp listed
      exact ⟨rfl, rfl, nofun, 1, rfl, Nat.le_refl _, nofun⟩
  · intro row kept log later
    cases List.mem_singleton.mp kept
    exact ⟨firstRow, List.mem_singleton_self _, rfl, later, Nat.le_refl _⟩

/-- A peer claimed that the log has more blocks, and left: from the horizon 0 on everything is
said to be held, and not where everything is read.
-/
theorem claimed_block_complete
    : ∃ s : Space, (fromZero false [] []).Run (fun _ _ => True) s
      ∧ s.completeFrom 5000 0 = true
      ∧ (∃ held ∈ s.logs, s.Starts 0 held.key 1 ∧ held.Known 1 ∧ ¬ Done held.log 1)
      ∧ ({ s with horizon := none } : Space).completeFrom 5000 0 = false := by
  have open_ : (fromZero false [firstRow] [headerOnly true 0 none]).Step .other
      (fromZero false [firstRow] [headerOnly true 0 (some ⟨0, 1, []⟩)]) :=
    @Space.Step.log (fromZero false [firstRow] [headerOnly true 0 none]) (headerOnly true 0 none) _
      (List.mem_singleton_self _) (.core (some ⟨0, 1, []⟩))
  have claim : (fromZero false [firstRow] [headerOnly true 0 (some ⟨0, 1, []⟩)]).Step .other
      (fromZero false [firstRow] [headerOnly true 5 (some ⟨0, 1, []⟩)]) :=
    @Space.Step.log (fromZero false [firstRow] [headerOnly true 0 (some ⟨0, 1, []⟩)])
      (headerOnly true 0 (some ⟨0, 1, []⟩)) _ (List.mem_singleton_self _)
      (.claim 5 rfl (by decide) (by decide))
  have run := (((run_headerOnly (fun _ _ => True) fun _ => trivial).step open_ trivial).step claim
    trivial).step (step_whole _ _) trivial
  refine ⟨_, run, by decide +kernel, ⟨_, List.mem_singleton_self _, ?_, ?_, by decide⟩,
    by decide +kernel⟩
  · exact ⟨firstRow, List.mem_singleton_self _, rfl, Nat.zero_le _, rfl⟩
  · exact ⟨.inr (by decide), fun _ none_ => by cases none_⟩

end Hypergraph.Reading
