import Mathlib.Data.List.MinMax
import Mathlib.Data.List.Nodup

/-! How a log is indexed (`lib/index/indexer.js`, `Indexer.index` and `#run`): its blocks are
looked at in order, those not held are holes until they arrive, and a batch's blocks are handed
to the index in one task of the write queue, with the position below which all are done. What
runs between two waits of the code is one step here.
-/

namespace Hypergraph.Index

/-- Blocks per transaction. -/
def BATCH : Nat := 256

/-- Where a log's run is. -/
inductive Phase
  | idle
  /-- It finds out what the index held when it was opened. -/
  | starting
  /-- The blocks that arrived, a copy: those left, and the batch so far. -/
  | taking (left batch : List Nat)
  /-- A hole's block is read. -/
  | fetching (seq : Nat) (left batch : List Nat)
  /-- The blocks not looked at yet, below `end_`. -/
  | scanning (end_ : Nat) (batch : List Nat)
  | reading (seq end_ : Nat) (batch : List Nat)
  /-- Was the block, not held, wiped by its author? -/
  | asking (seq end_ : Nat) (batch : List Nat)
  /-- The write limit's judgments: the blocks still to judge, and those that count. -/
  | judging (end_ : Nat) (todo kept : List Nat)
  /-- In the write queue, with the position to be saved. -/
  | committing (batch : List Nat) (indexed : Nat)
  /-- A batch was committed, and what follows from it is done. -/
  | resting
  /-- Nothing was to be committed. -/
  | settling (end_ : Nat)
  deriving DecidableEq

/-- A log as its indexing sees it. -/
structure Log where
  /-- The first block read here. -/
  from_ : Nat
  /-- A cut, or none. -/
  limit : Option Nat := none
  length : Nat := 0
  /-- The blocks in the core. -/
  held : List Nat := []
  /-- The blocks known to be wiped. -/
  wiped : List Nat := []
  /-- `indexed` of the log's row. -/
  persisted : Nat
  indexed : Nat
  scanned : Nat
  holes : List Nat := []
  arrived : List Nat := []
  /-- Blocks done already, when reading starts earlier: from the first up to the second. -/
  skip : Option (Nat × Nat) := none
  again : Bool := false
  uncommitted : Bool := false
  rescanned : Bool := false
  phase : Phase := .idle
  /-- The blocks handed to `#one` in committed transactions, and those since it was opened. -/
  committed : List Nat := []
  handed : List Nat := []
  /-- The blocks judged over the write limit. -/
  overs : List Nat := []
  /-- A task with a block in its batch failed since it was opened. -/
  failed : Bool := false
  deriving DecidableEq

/-- `set.add`. -/
def addTo (set : List Nat) (seq : Nat) : List Nat := if seq ∈ set then set else set ++ [seq]

/-- `set.delete`. -/
def without (set : List Nat) (seq : Nat) : List Nat := set.filter (· ≠ seq)

@[simp]
theorem mem_addTo {set : List Nat} {seq other : Nat}
    : other ∈ addTo set seq ↔ other ∈ set ∨ other = seq := by
  unfold addTo
  split
  · rename_i known
    constructor
    · exact .inl
    · rintro (listed | rfl)
      · exact listed
      · exact known
  · simp

@[simp]
theorem mem_without {set : List Nat} {seq other : Nat}
    : other ∈ without set seq ↔ other ∈ set ∧ other ≠ seq := by
  simp [without]

/-- Is the record of a batch locked (its epoch key isn't held)? The header never is. -/
def isLocked (locked : Nat → Bool) (seq : Nat) : Bool := decide (0 < seq) && locked seq

/-- A batch's locked records stay holes; the others' holes are filled. -/
def lockHoles (locked : Nat → Bool) (holes batch : List Nat) : List Nat :=
  batch.foldl (fun holes seq =>
    if isLocked locked seq then addTo holes seq else without holes seq) holes

theorem mem_lockHoles {locked : Nat → Bool} {holes batch : List Nat} {seq : Nat}
    : seq ∈ lockHoles locked holes batch
      ↔ if seq ∈ batch then isLocked locked seq = true else seq ∈ holes := by
  unfold lockHoles
  induction batch generalizing holes with
  | nil => simp
  | cons first rest ih =>
      rw [List.foldl_cons, ih]
      by_cases later : seq ∈ rest
      · simp [later]
      · rw [if_neg later]
        by_cases here : seq = first
        · subst here
          cases isLocked locked seq <;> simp
        · cases isLocked locked first <;> simp [here, later]

namespace Log

variable (log : Log)

/-- `Math.min(log.length, log.limit)`. -/
def end_ : Nat :=
  match log.limit with
  | some limit => if limit < log.length then limit else log.length
  | none => log.length

/-- Below it, every block is done: the lowest hole, or where the scan is. -/
def position : Nat :=
  match log.holes.min? with
  | some lowest => lowest
  | none => log.scanned

/-- The log is opened (again): what isn't saved is gone. -/
def open_ : Log :=
  { log with
    indexed := max log.persisted log.from_
    scanned := max log.persisted log.from_
    holes := []
    arrived := []
    skip := none
    again := false
    uncommitted := false
    rescanned := false
    phase := .idle
    handed := []
    failed := false }

/-- A round of the run begins. -/
def round : Log := { log with phase := .taking log.arrived [], uncommitted := true }

/-- The blocks of a batch that are handed to `#one`: all but the header. -/
def records (batch : List Nat) : List Nat := batch.filter (0 < ·)

end Log

open Log

/-- What arrives or becomes known, and who calls `index`. -/
inductive Learn (log : Log) : Log → Prop
  | append (n : Nat) : Learn log { log with length := log.length + n }
  /-- A block is downloaded. -/
  | download (seq : Nat) :
      Learn log { log with
        held := addTo log.held seq
        arrived := if log.from_ ≤ seq ∧ seq < log.scanned then addTo log.arrived seq
          else log.arrived }
  /-- A block's arrival is missed. -/
  | missed (seq : Nat) : Learn log { log with held := addTo log.held seq }
  | clear (seq : Nat) : Learn log { log with held := without log.held seq }
  /-- A block's wiping becomes known, and then its hole is done (`wiped`). -/
  | wipe (seq : Nat) : Learn log { log with wiped := addTo log.wiped seq }
  | wiped (seq : Nat) : seq ∈ log.wiped → Learn log { log with holes := without log.holes seq }
  /-- Holes are looked at again (`#recheckHoles`). -/
  | recheck : Learn log { log with arrived := log.holes.foldl addTo log.arrived }
  | index : log.phase = .idle → Learn log { log with phase := .starting }
  | again : log.phase ≠ .idle → Learn log { log with again := true }
  /-- Records refused before may count now (the end of `rejudge`). -/
  | rescan :
      Learn log { log with
        rescanned := true
        skip := none
        scanned := log.from_
        indexed := log.from_ }

/-- The run goes on. `locked`: the records whose epoch key isn't held; `waits`: those the write
limit can't be applied to yet.
-/
inductive Turn (locked waits : Nat → Bool) (log : Log) : Log → Prop
  | start : log.phase = .starting → Turn locked waits log { log with again := false }.round
  | next : log.phase = .resting → Turn locked waits log log.round
  | skip {seq : Nat} {left batch : List Nat} :
      log.phase = .taking (seq :: left) batch → batch.length < BATCH → seq ∉ log.holes
      → Turn locked waits log { log with
        arrived := without log.arrived seq
        phase := .taking left batch }
  | fetch {seq : Nat} {left batch : List Nat} :
      log.phase = .taking (seq :: left) batch → batch.length < BATCH → seq ∈ log.holes
      → Turn locked waits log { log with
        arrived := without log.arrived seq
        phase := .fetching seq left batch }
  | fetched {seq : Nat} {left batch : List Nat} :
      log.phase = .fetching seq left batch
      → Turn locked waits log { log with
        phase := .taking left (if seq ∈ log.held then batch ++ [seq] else batch) }
  | took {left batch : List Nat} :
      log.phase = .taking left batch → left = [] ∨ BATCH ≤ batch.length
      → Turn locked waits log { log with phase := .scanning log.end_ batch }
  /-- The blocks done before reading started earlier are passed over. -/
  | jump {end_ from_ to_ : Nat} {batch : List Nat} :
      log.phase = .scanning end_ batch → batch.length < BATCH → log.scanned < end_
      → log.skip = some (from_, to_) → from_ ≤ log.scanned
      → Turn locked waits log { log with
        scanned := if log.scanned < to_ then (if to_ < end_ then to_ else end_) else log.scanned
        skip := none }
  | scan {end_ : Nat} {batch : List Nat} :
      log.phase = .scanning end_ batch → batch.length < BATCH → log.scanned < end_
      → (∀ from_ to_, log.skip = some (from_, to_) → log.scanned < from_)
      → Turn locked waits log { log with
        scanned := log.scanned + 1
        phase := .reading log.scanned end_ batch }
  | read {seq end_ : Nat} {batch : List Nat} :
      log.phase = .reading seq end_ batch
      → Turn locked waits log { log with
        phase := if seq ∈ log.held then .scanning end_ (batch ++ [seq])
          else .asking seq end_ batch }
  | asked {seq end_ : Nat} {batch : List Nat} :
      log.phase = .asking seq end_ batch
      → Turn locked waits log { log with
        holes := if seq ∈ log.wiped then log.holes else addTo log.holes seq
        phase := .scanning end_ batch }
  /-- The batch is whole; those of its records that are locked stay holes. -/
  | lock {end_ : Nat} {batch : List Nat} :
      log.phase = .scanning end_ batch → ¬ (batch.length < BATCH ∧ log.scanned < end_)
      → Turn locked waits log { log with
        holes := lockHoles locked log.holes batch
        phase := .judging end_ (batch.filter fun seq => !isLocked locked seq) [] }
  | judgeOk {seq end_ : Nat} {todo kept : List Nat} :
      log.phase = .judging end_ (todo ++ [seq]) kept
      → Turn locked waits log { log with phase := .judging end_ todo (seq :: kept) }
  | judgeWait {seq end_ : Nat} {todo kept : List Nat} :
      log.phase = .judging end_ (todo ++ [seq]) kept → 0 < seq → waits seq = true
      → Turn locked waits log { log with
        holes := addTo log.holes seq
        phase := .judging end_ todo kept }
  | judgeOver {seq end_ : Nat} {todo kept : List Nat} :
      log.phase = .judging end_ (todo ++ [seq]) kept → 0 < seq
      → Turn locked waits log { log with
        holes := without log.holes seq
        overs := addTo log.overs seq
        phase := .judging end_ todo kept }
  | quiet {end_ : Nat} :
      log.phase = .judging end_ [] [] → log.position = log.indexed
      → Turn locked waits log { log with uncommitted := false, phase := .settling end_ }
  | queue {end_ : Nat} {kept : List Nat} :
      log.phase = .judging end_ [] kept → kept ≠ [] ∨ log.position ≠ log.indexed
      → Turn locked waits log { log with phase := .committing kept log.position }
  | settle {end_ : Nat} :
      log.phase = .settling end_ → end_ ≤ log.scanned → log.arrived = [] → log.again = false
      → Turn locked waits log { log with phase := .idle }
  | around {end_ : Nat} :
      log.phase = .settling end_ → end_ ≤ log.scanned → log.arrived = [] → log.again = true
      → Turn locked waits log { log with again := false }.round
  | more {end_ : Nat} :
      log.phase = .settling end_ → log.scanned < end_ ∨ log.arrived ≠ []
      → Turn locked waits log log.round

/-- A batch's task is done: it is in the index, with the position. -/
inductive Commit (log : Log) : Log → Prop
  | commit {batch : List Nat} {indexed : Nat} :
      log.phase = .committing batch indexed
      → Commit log { log with
        committed := log.committed ++ records batch
        handed := log.handed ++ records batch
        persisted := indexed
        indexed := indexed
        uncommitted := false
        phase := .resting }

inductive Step (log : Log) : Log → Prop
  | learn {log' : Log} : Learn log log' → Step log log'
  | turn {locked waits : Nat → Bool} {log' : Log} : Turn locked waits log log' → Step log log'
  | commit {log' : Log} : Commit log log' → Step log log'
  /-- The task throws: it commits nothing, and the run ends. -/
  | fail {batch : List Nat} {indexed : Nat} :
      log.phase = .committing batch indexed
      → Step log { log with
        uncommitted := false
        phase := .idle
        failed := log.failed || !(records batch).isEmpty }
  /-- The process dies, or the space is closed, and the log is opened again. -/
  | reopen : Step log log.open_

/-- A log is accepted, to be read from a block on. -/
def Log.begin (from_ : Nat) (limit : Option Nat) : Log :=
  { from_ := from_, limit := limit, persisted := from_, indexed := from_, scanned := from_ }

/-- What comes of a log in steps; one that lost a batch commits no other before it is opened
again.
-/
inductive Run (log : Log) : Log → Prop
  | refl : Run log log
  | step {log' log'' : Log} : Run log log' → Step log' log''
      → (log'.failed = true → ¬ Commit log' log'') → Run log log''

end Hypergraph.Index
