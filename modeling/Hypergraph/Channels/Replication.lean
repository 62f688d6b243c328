import Hypergraph.Encodings
import Hypergraph.Lib.Dict
import Mathlib.Data.List.Sort
import Mathlib.Data.Rat.Floor

/-! What a member keeps of a community's channels (`src/v2/replication.js`): passes that plan the
segments to hold, newest first, download them and drop what is no longer wanted, in turns with
downloads, reads and whatever else happens while a pass waits. A pass may start whenever none runs.
-/

namespace Hypergraph.Channels

open Wire Js Encodings

-- What is planned

inductive Mode
  | all | sparse | auto
  deriving DecidableEq, Repr

/-- Blocks of an author's log, from `start` up to `stop`. -/
structure Range where
  log : Key
  start : Nat
  stop : Nat
  deriving DecidableEq, Repr

/-- A channel's segment. -/
abbrev Segment := Key × Int

/-- A segment as a pass plans it. `current`: it still takes entries; `unknown`: no peer could tell the
length of a log listed.
-/
structure Item where
  channel : Key
  segment : Int
  ranges : List Range
  bytes : Nat
  current : Bool
  unknown : Bool
  deriving DecidableEq, Repr

def Item.key (item : Item) : Segment := (item.channel, item.segment)

/-- The blocks a page read of an author's log. -/
structure ReadRange extends Range where
  blockBytes : Rat
  deriving DecidableEq, Repr

/-- What pages read of a segment, and when last. -/
structure Read where
  ranges : List ReadRange
  bytes : Nat
  at_ : Nat
  deriving DecidableEq, Repr

structure Channel where
  id : Key
  segmentMs : Nat
  createdAt : Nat
  deriving DecidableEq, Repr

/-- An entry of a segment's rosters. -/
structure Entry where
  author : Key
  log : Key
  start : Nat
  deriving DecidableEq, Repr

/-- What is asked for while a pass plans: the time, the channels, what their rosters say (`latestFrom`,
`entriesFrom`), and what is known of the logs then.
-/
structure World where
  now : Nat
  channels : List Channel
  latest : Key → Int → Int
  entries : Key → Int → List Entry
  length : Key → Nat
  byteLength : Key → Nat

/-- What a block takes besides its own bytes. -/
def STORED_OVERHEAD : Nat := 130

def segmentOf (t segmentMs : Nat) : Int := (t / segmentMs : Nat)

def averageBlock (w : World) (log : Key) : Rat :=
  if 0 < w.length log then (w.byteLength log : Rat) / w.length log else 0

/-- Where a channel's planning is. `later`: where each author's entry in a later segment starts. -/
structure Cursor where
  channel : Channel
  first : Int
  current : Int
  later : Dict Key Nat
  next : Int

/-- Blocks to clear, except what a read of this segment covers, if there was one. -/
structure Clearing where
  range : Range
  keep : Option Segment
  deriving DecidableEq, Repr

/-- How far a pass is. -/
inductive Phase
  | idle
  /-- Reads are let go of, the oldest first. -/
  | trimming (left : List Segment)
  | planning (budget : Option Nat) (cursors : List Cursor) (want : List Item)
  /-- The wanted segments left are downloaded one by one. -/
  | holding (fits : Bool) (want left : List Item) (waiting retry : Bool)
  /-- What is held and no longer wanted is dropped. -/
  | sweeping (fits : Bool) (want : List Item) (left : List (Segment × Item)) (stalled retry : Bool)

structure Replicator where
  mode : Mode
  budget : Nat
  held : Dict Segment Item
  reads : Dict Segment Read
  closedPlans : Dict Segment Item
  fits : Bool
  /-- The logs downloaded live, and the block each counts from on. -/
  live : Dict Key Nat
  liveBytes : Nat
  retries : Nat
  retryTimer : Option Nat
  closed : Bool
  /-- This member's own logs. -/
  writable : Key → Bool
  /-- Which blocks are here. -/
  blocks : Key → Nat → Bool
  phase : Phase
  /-- What is left of a drop. -/
  queue : List Clearing

namespace Replicator

def new (mode : Mode) (budget : Nat) (writable : Key → Bool) (blocks : Key → Nat → Bool) : Replicator where
  mode := mode
  budget := budget
  held := .empty
  reads := .empty
  closedPlans := .empty
  fits := true
  live := .empty
  liveBytes := 0
  retries := 0
  retryTimer := none
  closed := false
  writable := writable
  blocks := blocks
  phase := .idle
  queue := []

variable (r : Replicator)

-- Reads

def readBytes : Nat := (r.reads.entries.map fun read => read.2.bytes).sum

/-- Reads of segments that aren't held. -/
def readBytesOutside : Nat :=
  ((r.reads.entries.filter fun read => (r.held.get? read.1).isNone).map fun read => read.2.bytes).sum

/-- A range read, with what was read of its log before. -/
def noteRange (range : ReadRange) : List ReadRange → List ReadRange
  | [] => [range]
  | known :: rest =>
      if known.log = range.log then
        { known with
          start := min known.start range.start
          stop := max known.stop range.stop
          blockBytes := range.blockBytes } :: rest
      else known :: noteRange range rest

/-- The estimated size of blocks. -/
def sizeOf (range : Range) (blockBytes : Rat) : Rat :=
  ((range.stop : Rat) - range.start) * (blockBytes + STORED_OVERHEAD)

def noteRead (segment : Segment) (ranges : List ReadRange) (at_ : Nat) : Replicator :=
  if r.mode ≠ .auto ∨ r.closed = true ∨ ranges = [] then r
  else
    let known := ((r.reads.get? segment).map Read.ranges).getD []
    let all := ranges.foldl (fun all range => noteRange range all) known
    let bytes := (all.map fun range => sizeOf range.toRange range.blockBytes).sum
    { r with reads := r.reads.put segment ⟨all, bytes.ceil.toNat, at_⟩ }

-- Planning

/-- The channels that have entries to look at, from the newest on. -/
def cursors (w : World) : List Cursor :=
  w.channels.filterMap fun ch =>
    let first := segmentOf ch.createdAt ch.segmentMs
    let current := segmentOf w.now ch.segmentMs
    let next := w.latest ch.id current
    if first ≤ next then some ⟨ch, first, current, .empty, next⟩ else none

/-- What a plan has come to. -/
structure Planned where
  later : Dict Key Nat
  ranges : List Range
  bytes : Rat
  unknown : Bool

/-- An author's range: up to their entry in a later segment, or as long as their log is known to be. -/
def planEntry (w : World) (plan : Planned) (e : Entry) : Planned :=
  let stop := (plan.later.get? e.author).getD (w.length e.log)
  if stop ≤ e.start then
    { plan with
      later := plan.later.put e.author e.start
      unknown := plan.unknown || (plan.later.get? e.author).isNone }
  else
    { plan with
      later := plan.later.put e.author e.start
      ranges := plan.ranges ++ [⟨e.log, e.start, stop⟩]
      bytes := plan.bytes + sizeOf ⟨e.log, e.start, stop⟩ (averageBlock w e.log) }

/-- A segment's plan, and where the authors' entries in it start. A closed segment's is final, unless
part of it couldn't be seen.
-/
def plan (w : World) (c : Cursor) (segment : Int) : Replicator × Dict Key Nat × Item :=
  let key : Segment := (c.channel.id, segment)
  let current := decide (c.current - 1 ≤ segment)
  let entries := w.entries c.channel.id segment
  match if current then none else r.closedPlans.get? key with
  | some cached => (r, entries.foldl (fun later e => later.put e.author e.start) c.later, cached)
  | none =>
      let made := entries.foldl (planEntry w) ⟨c.later, [], 0, false⟩
      let item : Item :=
        ⟨c.channel.id, segment, made.ranges, made.bytes.ceil.toNat, current, made.unknown⟩
      (if !current && !made.unknown then { r with closedPlans := r.closedPlans.put key item } else r,
        made.later, item)

/-- The pass goes on to what is left to hold, or to what is no longer wanted. -/
def holdNext (fits : Bool) (want left : List Item) (stalled retry : Bool) : Replicator :=
  if stalled = true ∨ left = [] then
    let dropped := r.held.entries.filter fun held => !(want.map Item.key).contains held.1
    { r with phase := .sweeping fits want dropped stalled retry }
  else { r with phase := .holding fits want left false retry }

/-- The next segment, of the channel whose is newest, is planned; the first that doesn't fit ends it.
-/
def planNext (w : World) (budget : Option Nat) (cursors : List Cursor) (want : List Item) : Replicator :=
  match cursors.insertionSort fun a b =>
      b.next * (b.channel.segmentMs : Int) ≤ a.next * (a.channel.segmentMs : Int) with
  | [] => r.holdNext true want want false false
  | c :: others =>
      let (r', later, item) := r.plan w c c.next
      if r'.closed then { r' with phase := .idle }
      else if budget.any fun most => most < (want.map Item.bytes).sum + item.bytes then
        r'.holdNext false want want false false
      else
        let next := if c.first ≤ c.next - 1 then w.latest c.channel.id (c.next - 1) else -1
        let cursors := if next < c.first then others else { c with later := later, next := next } :: others
        { r' with phase := .planning budget cursors (want ++ [item]) }

-- Holding and dropping

/-- `core.has`: is each block of a range here? -/
def has (range : Range) : Bool :=
  (List.range' range.start (range.stop - range.start)).all (r.blocks range.log)

def complete (item : Item) : Bool := item.ranges.all r.has

/-- The logs of a current segment are downloaded live, each counted from where its plan ends. -/
def holdLive (item : Item) : Replicator :=
  { r with
    live := item.ranges.foldl
      (fun live range =>
        live.put range.log (((live.get? range.log).map fun from_ => max from_ range.stop).getD range.stop))
      r.live }

/-- What came of a segment is looked at. A closed one held before stays held. -/
def settle (fits : Bool) (want : List Item) (item : Item) (left : List Item) (retry : Bool) : Replicator :=
  let done := (!item.current && (r.held.get? item.key).isSome) || (r.complete item && !item.unknown)
  let stalled := !item.unknown && !done
  let r := if done then { r with held := r.held.put item.key item } else r
  r.holdNext fits want left stalled (retry || item.unknown)

/-- The parts of a range that are cleared: not what a read of the segment covers. -/
def parts (c : Clearing) : List (Nat × Nat) :=
  match (c.keep.bind r.reads.get?).bind fun read => read.ranges.find? fun k => k.log = c.range.log with
  | none => [(c.range.start, c.range.stop)]
  | some k => [(c.range.start, min c.range.stop k.start), (max c.range.start k.stop, c.range.stop)]

/-- Is this block of the log cleared? This member's own never is. -/
def clears (c : Clearing) (index : Nat) : Bool :=
  !r.writable c.range.log && (r.parts c).any fun part => part.1 ≤ index && index < part.2

def clear (c : Clearing) : Replicator :=
  { r with
    blocks := fun log index => r.blocks log index && !(log = c.range.log && r.clears c index) }

/-- `RETRY_MS`: after logs were out of reach. -/
def RETRY_MS : List Nat := [2000, 5000, 10000, 30000, 60000, 120000]

/-- `STALL_RETRY_MS`: after a download that stalled. -/
def STALL_RETRY_MS : List Nat := [10000, 20000, 40000, 80000, 120000]

def retryLater : Option (List Nat) → Replicator
  | none => { r with retries := 0 }
  | some schedule =>
      if r.retryTimer.isSome ∨ r.closed = true then r
      else
        { r with
          retries := r.retries + 1
          retryTimer := schedule[min r.retries (schedule.length - 1)]? }

/-- Live sessions of logs no longer in a current segment are closed. -/
def finish (fits : Bool) (want : List Item) (stalled retry : Bool) : Replicator :=
  let liveNow := (want.filter Item.current).flatMap fun item => item.ranges.map Range.log
  let r := { r with live := r.live.filter liveNow.contains, fits := fits, phase := .idle }
  r.retryLater (if stalled then some STALL_RETRY_MS else if retry then some RETRY_MS else none)

end Replicator

-- What happens

inductive Event
  /-- A block is downloaded. -/
  | arrive (log : Key) (index byteLength : Nat)
  /-- A page was read. -/
  | read (segment : Segment) (ranges : List ReadRange) (at_ : Nat)
  | start
  /-- The oldest read is let go of. -/
  | trim
  /-- A range of what is dropped is cleared, unless the store refuses. -/
  | clear (works : Bool)
  /-- The channels are looked at. -/
  | survey (w : World)
  | plan (w : World)
  /-- The next segment's downloads start. -/
  | hold
  /-- They are waited for no longer. -/
  | settle
  | sweep
  | finish
  | retry
  | close

/-- The state after an event, if it can happen then. -/
def Replicator.next (r : Replicator) : Event → Option Replicator
  | .arrive log index byteLength =>
      some
        { r with
          blocks := fun other i => r.blocks other i || (other = log && i = index)
          liveBytes := r.liveBytes + if (r.live.get? log).any (· ≤ index) then byteLength + STORED_OVERHEAD else 0 }
  | .read segment ranges at_ => some (r.noteRead segment ranges at_)
  | .start =>
      match r.phase with
      | .idle =>
          if r.closed = true ∨ r.mode = .sparse then none
          else
            let oldest := r.reads.entries.insertionSort fun a b => a.2.at_ ≤ b.2.at_
            let trims := r.mode = .auto ∧ r.budget < r.readBytes
            some { r with liveBytes := 0, phase := .trimming (if trims then oldest.map Prod.fst else []) }
      | _ => none
  | .trim =>
      match r.phase, r.queue with
      | .trimming (segment :: left), [] =>
          if r.readBytes ≤ r.budget then some { r with phase := .trimming [] }
          else
            let ranges := ((r.reads.get? segment).map Read.ranges).getD []
            some
              { r with
                reads := r.reads.remove segment
                queue := if (r.held.get? segment).isSome then [] else ranges.map fun range => ⟨range.toRange, none⟩
                phase := .trimming left }
      | _, _ => none
  | .clear works =>
      match r.queue with
      | c :: rest => some { (if works then r.clear c else r) with queue := rest }
      | [] => none
  | .survey w =>
      match r.phase, r.queue with
      | .trimming [], [] =>
          let budget := if r.mode = .all then none else some (r.budget - r.readBytesOutside)
          some { r with phase := .planning budget (Replicator.cursors w) [] }
      | _, _ => none
  | .plan w =>
      match r.phase with
      | .planning budget cursors want => some (r.planNext w budget cursors want)
      | _ => none
  | .hold =>
      match r.phase with
      | .holding fits want (item :: left) false retry =>
          if r.closed then some { r with phase := .idle }
          else
            some
              { (if item.current then r.holdLive item else r) with
                phase := .holding fits want (item :: left) true retry }
      | _ => none
  | .settle =>
      match r.phase with
      | .holding fits want (item :: left) true retry => some (r.settle fits want item left retry)
      | _ => none
  | .sweep =>
      match r.phase, r.queue with
      | .sweeping fits want ((segment, item) :: left) stalled retry, [] =>
          let keep := if (r.reads.get? segment).isSome then some segment else none
          some
            { r with
              held := r.held.remove segment
              queue := item.ranges.map fun range => ⟨range, keep⟩
              phase := .sweeping fits want left stalled retry }
      | _, _ => none
  | .finish =>
      match r.phase, r.queue with
      | .sweeping fits want [] stalled retry, [] => some (r.finish fits want stalled retry)
      | _, _ => none
  | .retry => some { r with retryTimer := none }
  | .close => some { r with closed := true, retryTimer := none }

end Hypergraph.Channels
