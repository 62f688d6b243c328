import Hypergraph.Logs.Standing

/-! The log directory of a member's space (`lib/directory.js`): which logs it was told of, whose
headers it fetches, which wait, which it keeps and up to which limit, and how it looks again
when the decisions change. What runs between two waits of the code is one event here, so any
order of events is an order the code can run in.
-/

namespace Hypergraph.Logs

open Js Encodings Decisions

/-- Headers fetched at once (members' notices have as many of their own). -/
def FETCHES : Nat := 16

/-- And waiting for their turn: more are dropped. -/
def MAX_QUEUE : Nat := 1024

def MAX_PENDING : Nat := 1000

/-- A held log, as far as its limit goes. -/
structure Held where
  limit : ℕ∞
  /-- The cut it was last indexed up to, or none. -/
  cut : Option ℕ∞ := none
  /-- Cuts asked for that aren't done, the first next (`log.cutting`). -/
  asked : List ℕ∞ := []
  /-- Is the first under way? -/
  running : Bool := false

/-- Where a header's fetch stands. -/
inductive Phase
  | asking
  /-- The gate let the log through up to there, and it is about to be kept. -/
  | passed (limit : ℕ∞)
  /-- It is kept, waits or is refused, and its core is being closed. -/
  | ending
  deriving DecidableEq

structure Fetch where
  key : Key
  urgent : Bool
  phase : Phase
  deriving DecidableEq

structure Directory where
  logs : Key → Option Held
  /-- Valid logs whose author may not write yet, the oldest first. -/
  pending : List Key
  refused : List Key
  inflight : List Fetch
  queue : List Key

def Directory.empty : Directory := ⟨fun _ => none, [], [], [], []⟩

namespace Directory

variable (dir : Directory) (key : Key)

/-- `inflight.has`. -/
def fetching : Bool := (dir.inflight.map Fetch.key).contains key

/-- `urgent`. -/
def urgent : Nat := dir.inflight.countP fun fetch => fetch.urgent

/-- `inflight.size - urgent`. -/
def ordinary : Nat := dir.inflight.countP fun fetch => !fetch.urgent

/-- `#fetch`: run, or waiting for a turn, or dropped. -/
def fetch (urgent : Bool) : Directory :=
  if key ∈ dir.queue ∧ urgent = false then dir
  else if urgent = true ∧ dir.urgent < FETCHES then
    { dir with
      queue := dir.queue.erase key
      inflight := dir.inflight ++ [⟨key, true, .asking⟩] }
  else if FETCHES ≤ dir.ordinary then
    if MAX_QUEUE ≤ dir.queue.length then dir
    else { dir with queue := if key ∈ dir.queue then dir.queue else dir.queue ++ [key] }
  else { dir with inflight := dir.inflight ++ [⟨key, false, .asking⟩] }

/-- The phase of the log's fetch. -/
def setPhase (phase : Phase) : Directory :=
  { dir with
    inflight := dir.inflight.map fun fetch =>
      if fetch.key = key then { fetch with phase := phase } else fetch }

/-- A log waits: the oldest gives up its place if there are too many. -/
def wait : Directory :=
  let pending := if MAX_PENDING ≤ dir.pending.length then dir.pending.tail else dir.pending
  { dir with pending := if key ∈ pending then pending else pending ++ [key] }

def refuse : Directory := { dir with refused := key :: dir.refused }

/-- `accept`. -/
def accept (limit : ℕ∞) : Directory :=
  if (dir.logs key).isSome then dir
  else
    { dir with
      logs := fun other => if other = key then some { limit := limit } else dir.logs other
      pending := dir.pending.erase key }

def setHeld (held : Held) : Directory :=
  { dir with logs := fun other => if other = key then some held else dir.logs other }

/-- `drop`. -/
def drop : Directory :=
  { dir with
    logs := fun other => if other = key then none else dir.logs other
    refused := key :: dir.refused }

section Judged

variable (who : Key → Option Who) (standing : Standing)

/-- How much of a log counts, its header known. -/
def limitOf (key : Key) : ℕ∞ := (who key).elim 0 fun who => standing.limitOf who key

/-- Someone told of `key`: its header is fetched, unless that is known already. -/
def consider (urgent : Bool) : Directory :=
  if (dir.logs key).isSome ∨ key ∈ dir.refused then dir
  else if dir.fetching key then dir
  else if key ∈ dir.pending then
    if 1 < limitOf who standing key then dir.fetch key urgent else dir
  else dir.fetch key urgent

/-- The header came (`#fetchOnce`, `checkLog`): the log passes, waits or is refused. -/
def judge : Directory :=
  match who key with
  | none => (dir.refuse key).setPhase key .ending
  | some author =>
      let limit := standing.limitOf author key
      if 1 < limit then dir.setPhase key (.passed limit)
      else if standing.mayRetry author key then (dir.wait key).setPhase key .ending
      else (dir.refuse key).setPhase key .ending

/-- `#nextFetch`, that many fetches at most. -/
def nextFetch : Nat → Directory → Directory
  | 0, dir => dir
  | fuel + 1, dir =>
      match dir.queue with
      | [] => dir
      | key :: rest =>
          if dir.ordinary < FETCHES then
            nextFetch fuel (({ dir with queue := rest } : Directory).consider key who standing false)
          else dir

/-- The fetch of a log is over, and the next in the queue run. -/
def ended : Directory :=
  nextFetch who standing dir.queue.length
    { dir with inflight := dir.inflight.filter fun fetch => fetch.key ≠ key }

def touches (touched : Touched) (key : Key) : Bool :=
  (who key).any fun who => touched.touches who.identity

/-- What `recheck` does about a held log. -/
def recheckHeld (held : Held) (limit : ℕ∞) : Held :=
  if limit < held.limit ∨ (held.cut ≠ some limit ∧ limit ≠ ⊤) then
    { held with asked := held.asked ++ [limit] }
  else held

/-- The waiting logs among those a change touched that count now. -/
def due (touched : Touched) : List Key :=
  dir.pending.filter fun key => touches who touched key && decide (1 < limitOf who standing key)

def recheck (touched : Touched) : Directory :=
  let fetched := (dir.due who standing touched).foldl
    (fun dir key => dir.consider key who standing false) dir
  { fetched with
    logs := fun key => (fetched.logs key).map fun held =>
      if touches who touched key then recheckHeld held (limitOf who standing key) else held }

end Judged

end Directory

-- A member's runs

/-- A member: how logs are judged there now, its directory, and the rechecks still to run. -/
structure Member where
  standing : Standing
  dir : Directory
  rechecks : List Touched

inductive Event
  | consider (key : Key) (urgent : Bool)
  | judge (key : Key)
  | accept (key : Key) (limit : ℕ∞)
  | ended (key : Key)
  | decide (standing : Standing) (touched : Touched)
  | recheck (touched : Touched)
  | startCut (key : Key)
  | endCut (key : Key)

section Runs

variable (who : Key → Option Who)

/-- The steps a member can take. -/
inductive Step : Member → Event → Member → Prop
  | consider (m : Member) (key : Key) (urgent : Bool)
    : Step m (.consider key urgent)
        { m with dir := m.dir.consider key who m.standing urgent }
  | judge (m : Member) (fetch : Fetch) (listed : fetch ∈ m.dir.inflight)
      (phase : fetch.phase = .asking)
    : Step m (.judge fetch.key) { m with dir := m.dir.judge fetch.key who m.standing }
  | accept (m : Member) (fetch : Fetch) (limit : ℕ∞) (listed : fetch ∈ m.dir.inflight)
      (phase : fetch.phase = .passed limit)
    : Step m (.accept fetch.key limit)
        { m with dir := (m.dir.accept fetch.key limit).setPhase fetch.key .ending }
  | ended (m : Member) (fetch : Fetch) (listed : fetch ∈ m.dir.inflight)
      (phase : fetch.phase = .ending)
    : Step m (.ended fetch.key) { m with dir := m.dir.ended fetch.key who m.standing }
  /-- The decisions changed, or a removal was indexed. -/
  | decide (m : Member) (standing : Standing) (touched : Touched)
      (changed : Changed touched m.standing standing)
    : Step m (.decide standing touched)
        { m with standing := standing, rechecks := m.rechecks ++ [touched] }
  | recheck (m : Member) (touched : Touched) (asked : touched ∈ m.rechecks)
    : Step m (.recheck touched)
        { m with
          dir := m.dir.recheck who m.standing touched
          rechecks := m.rechecks.erase touched }
  /-- `#cut`: done already, or the limit is set and the index goes back to it. -/
  | cutDone (m : Member) (key : Key) (held : Held) (limit : ℕ∞) (rest : List ℕ∞)
      (found : m.dir.logs key = some held) (idle : held.running = false)
      (asked : held.asked = limit :: rest) (done : held.cut = some limit ∧ held.limit ≤ limit)
    : Step m (.startCut key) { m with dir := m.dir.setHeld key { held with asked := rest } }
  | startCut (m : Member) (key : Key) (held : Held) (limit : ℕ∞) (rest : List ℕ∞)
      (found : m.dir.logs key = some held) (idle : held.running = false)
      (asked : held.asked = limit :: rest) (new : ¬ (held.cut = some limit ∧ held.limit ≤ limit))
    : Step m (.startCut key)
        { m with dir := m.dir.setHeld key { held with limit := limit, running := true } }
  | endCut (m : Member) (key : Key) (held : Held) (limit : ℕ∞) (rest : List ℕ∞)
      (found : m.dir.logs key = some held) (running : held.running = true)
      (asked : held.asked = limit :: rest) (kept : 1 < limit)
    : Step m (.endCut key)
        { m with
          dir := m.dir.setHeld key
            { held with cut := some limit, asked := rest, running := false } }
  /-- Cut before anything in it counted: dropped. -/
  | drop (m : Member) (key : Key) (held : Held) (limit : ℕ∞) (rest : List ℕ∞)
      (found : m.dir.logs key = some held) (running : held.running = true)
      (asked : held.asked = limit :: rest) (nothing : limit ≤ 1)
    : Step m (.endCut key) { m with dir := m.dir.drop key }

/-- The logs an event tells of. -/
def Event.tells : Event → List Key
  | .consider key _ => [key]
  | _ => []

/-- What a member can come to, told of these logs, by steps of which each is allowed. -/
inductive Run (allowed : Member → List Key → Event → Prop) : List Key → Member → Prop
  | start (standing : Standing) : Run allowed [] ⟨standing, .empty, []⟩
  | step {told : List Key} {m m' : Member} (event : Event) (before : Run allowed told m)
      (may : allowed m told event) (steps : Step who m event m')
    : Run allowed (event.tells ++ told) m'

/-- Nothing is under way: the last recheck has run, its cuts are indexed, and every header asked
for has come.
-/
structure Member.Settled (m : Member) : Prop where
  rechecks : m.rechecks = []
  inflight : m.dir.inflight = []
  queue : m.dir.queue = []
  cuts : ∀ key held, m.dir.logs key = some held → held.asked = []

end Runs

end Hypergraph.Logs
