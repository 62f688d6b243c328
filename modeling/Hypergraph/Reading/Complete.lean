import Hypergraph.Index.Scanned
import Hypergraph.Reading.Entries

/-! Is everything from a stamp on held and indexed here (`completeFrom` in `lib/space.js`, `missing`
in `lib/replication.js`)? A member reads everything, or each log from its first entry at or after
a horizon on, which moves back; and what it knows of its logs changes meanwhile.
-/

namespace Hypergraph.Reading

open Index

/-- How long after a log was accepted some peer is to have told its length. -/
def HEARD_MS : Nat := 2000

-- A held log

/-- What a connected peer told of a log. -/
structure Peer where
  remoteSynced : Bool
  remoteFork : Nat
  remoteLength : Nat
  deriving DecidableEq

structure Core where
  fork : Nat
  length : Nat
  peers : List Peer
  deriving DecidableEq

structure Held where
  key : Key
  own : Bool
  /-- Is it read here (`from` isn't null)? -/
  read : Bool
  log : Log
  /-- Open, or none. -/
  core : Option Core := none
  /-- A longer length a peer's summary gave (0: none). -/
  claim : Nat := 0
  heard : Bool := false
  acceptedAt : Nat
  /-- `from` of the counters saved, or none saved. -/
  saved : Option (Option Nat) := none
  deriving DecidableEq

/-- `Math.min(n, limit)`. -/
def capped (limit : Option Nat) (n : Nat) : Nat :=
  match limit with
  | some limit => if limit < n then limit else n
  | none => n

namespace Held

variable (held : Held)

/-- The blocks a peer claims beyond the log's length. -/
def claimed : Nat := capped held.log.limit held.claim - held.log.length

/-- Blocks to fetch or index that this member knows of without asking peers. -/
def behind : Nat :=
  if held.read then
    held.log.holes.length + (held.log.end_ - held.log.scanned) + held.claimed
      + (if held.log.uncommitted then 1 else 0)
  else 0

/-- The blocks a peer says it has beyond the length verified here. -/
def peersAhead (core : Core) : Nat :=
  let told := core.peers.filter fun peer => peer.remoteSynced && peer.remoteFork == core.fork
  capped held.log.limit ((told.map Peer.remoteLength).max?.getD 0) - core.length

/-- May this member not know the log's length yet? -/
def unheard (settled : Bool) (now : Nat) : Nat :=
  if held.own then 0
  else match held.core with
    | none => if settled then 0 else 1
    | some core =>
        if core.peers.any fun peer => !peer.remoteSynced then 1
        else if (held.heard || !core.peers.isEmpty) = false ∧ now - held.acceptedAt < HEARD_MS then 1
        else held.peersAhead core

def missing (settled : Bool) (now : Nat) : Nat :=
  if held.read then held.behind + held.unheard settled now else 0

/-- Reads the log from block `start` on: the blocks looked at already are passed over. -/
def readFrom (start : Nat) : Held :=
  if held.own ∨ (held.read ∧ held.log.from_ ≤ start) then held
  else if held.read then
    { held with log := { held.log with
        skip := some (held.log.from_, held.log.scanned)
        rescanned := true
        scanned := start
        indexed := if start < held.log.indexed then start else held.log.indexed
        from_ := start } }
  else
    { held with
      read := true
      log := { held.log with indexed := start, scanned := start, from_ := start } }

/-- Where reading it starts when the space is opened. -/
def savedFrom : Option Nat := if held.own then some 1 else held.saved.getD (some 1)

/-- The space is opened (again): what isn't saved is gone. -/
def reopen (now length : Nat) : Held :=
  { held with
    read := held.savedFrom.isSome
    log := { held.log with from_ := held.savedFrom.getD 0, length := length }.open_
    core := none
    claim := 0
    heard := false
    acceptedAt := now }

end Held

/-- A log is accepted, to be read from a block on (none: not read). -/
def Held.accepted (key : Key) (own : Bool) (from_ limit : Option Nat) (now length : Nat) : Held :=
  { key := key, own := own, read := from_.isSome, acceptedAt := now
    log := { Log.begin (from_.getD 1) limit with persisted := 1, length := length } }

/-- The steps of a held log. `limit`: it is cut there. -/
inductive HeldStep (held : Held) : (limit : Option Nat) → Held → Prop
  | learn {log : Log} : held.read = true → Learn held.log log
      → HeldStep held none { held with log := log }
  /-- Where it isn't read, its blocks may still become known. -/
  | blocks (length : Nat) (blocks wiped : List Nat) : held.read = false
      → HeldStep held none
        { held with log := { held.log with length := length, held := blocks, wiped := wiped } }
  | turn {locked waits : Nat → Bool} {log : Log} : held.read = true
      → Turn locked waits held.log log → HeldStep held none { held with log := log }
  | commit {log : Log} : held.read = true → Commit held.log log
      → HeldStep held none { held with log := log }
  /-- The run throws: what it looked at isn't committed. -/
  | thrown :
      HeldStep held none { held with log := { held.log with
        uncommitted := false
        phase := .idle
        failed := held.log.failed || !(Log.records held.log.phase.flight).isEmpty } }
  | cut (limit : Nat) :
      HeldStep held (some limit) { held with log := { held.log with
        limit := some limit
        holes := held.log.holes.filter (· < limit)
        scanned := if limit < held.log.scanned then limit else held.log.scanned } }
  /-- The end of the cut's task. -/
  | cutSaved :
      HeldStep held none { held with log := { held.log with
        indexed := held.log.position
        persisted := held.log.position } }
  | save :
      HeldStep held none
        { held with saved := some (if held.read then some held.log.from_ else none) }
  | claim (length : Nat) : held.own = false → held.log.end_ < length → held.claim < length
      → HeldStep held none { held with claim := length }
  /-- The claim is met, or nobody served it in time (`expire`). -/
  | unclaim : HeldStep held none { held with claim := 0 }
  /-- The core is opened or closed, or its peers tell something. -/
  | core (core : Option Core) : HeldStep held none { held with core := core }
  | hear : HeldStep held none { held with heard := true }

-- The space

/-- An activity entry kept here: it passed its check, so the header isn't its start. -/
structure Row extends Entry where
  past : 0 < start

instance : DecidableEq Row := fun first second =>
  decidable_of_iff (first.toEntry = second.toEntry)
    ⟨fun same => by cases first; cases second; cases same; rfl, fun same => by rw [same]⟩

/-- The lowest start is kept, of each log and period. -/
def remember (rows : List Row) (row : Row) : List Row :=
  let same := fun other : Row => other.log == row.log && other.period == row.period
  if rows.any fun other => same other && other.start ≤ row.start then rows
  else rows.filter (fun other => !same other) ++ [row]

/-- A peer's channel: its last summary's digest, and the one an exchange about was finished. -/
structure Channel where
  theirs : Buffer
  settledOn : Buffer
  deriving DecidableEq

structure Space where
  personal : Bool := false
  me : Key
  members : List Key := []
  /-- Is this the member's only device? -/
  alone : Bool := false
  /-- The period it is read from (none: everything is read). -/
  horizon : Option Nat := none
  byActivity : Bool := false
  undecided : Bool := false
  /-- The horizon saved, if any was. -/
  stored : Option (Option Nat) := none
  /-- The entries kept, and those in memory (`_act`). -/
  kept : List Row := []
  act : List Row := []
  /-- The periods from which entries are being read into memory. -/
  loading : List Nat := []
  logs : List Held := []
  /-- `refused` and `known` of the directory. -/
  refused : List Key := []
  known : Bool := false
  channels : List Channel := []
  /-- `reachedFrom` of the activity lists, and the periods of entries waiting for their check. -/
  reachedFrom : ℕ∞ := ⊤
  waiting : List Nat := []

namespace Space

variable (s : Space)

def find (key : Key) : Option Held := s.logs.find? fun held => held.key == key

/-- Was every connected peer's last summary settled? -/
def settled : Bool :=
  s.channels.all fun channel => channel.theirs.isSome && channel.theirs == channel.settledOn

/-- The lowest start of a log's entries at or after a period. -/
def startOf (key : Key) (period : Nat) : Option Nat :=
  ((s.act.filter fun row => row.log == key && period ≤ row.period).map fun row => row.start).min?

/-- Blocks known to exist but not held and indexed yet, over all held logs. -/
def missing (now : Nat) : Nat := (s.logs.map fun held => held.missing s.settled now).sum

def completeAll (now : Nat) : Bool :=
  if 0 < s.missing now then false
  else if s.known then true
  else s.members.length == 1 && s.members.contains s.me && s.alone

/-- Is a log with entries from a period on read from them, with nothing missing? -/
def wholeFrom (now period : Nat) (key : Key) : Bool :=
  match s.startOf key period with
  | none => true
  | some start =>
      match s.find key with
      | none => s.refused.contains key
      | some held =>
          if held.own then true
          else if held.read = false ∨ start < held.log.from_ ∨ held.unheard s.settled now ≠ 0
              ∨ held.log.uncommitted then false
          else if held.log.scanned < held.log.end_ then false
          else held.log.holes.all (· < start)

/-- Is everything stamped at or after `stamp` held and indexed here? -/
def completeFrom (now stamp : Nat) : Bool :=
  if s.personal = false ∧ s.members = [] then false
  else match s.horizon with
    | none => s.completeAll now
    | some horizon =>
        let period := periodOf stamp
        if period < horizon ∨ s.undecided then false
        else if period < s.reachedFrom ∨ s.waiting.any (period ≤ ·) then false
        else s.act.all fun row => s.wholeFrom now period row.log

/-- Where reading a log just accepted starts. -/
def fromOf (key : Key) (own : Bool) : Option Nat :=
  if own then some 1
  else match s.horizon with
    | none => some 1
    | some horizon => if s.undecided then some 1 else s.startOf key horizon

/-- A held log becomes another. -/
def set (held : Held) : Space :=
  { s with logs := s.logs.map fun other => if other.key == held.key then held else other }

/-- Its log is read from a block on, if it is held. -/
def readFrom (key : Key) (start : Nat) : Space :=
  match s.find key with
  | some held => s.set (held.readFrom start)
  | none => s

/-- An entry just kept: where it reaches into the periods read, its log is read from it. -/
def entry (row : Row) : Space :=
  match s.horizon with
  | none => { s with kept := remember s.kept row }
  | some horizon =>
      if row.period < horizon then { s with kept := remember s.kept row }
      else { s with kept := remember s.kept row, act := remember s.act row }.readFrom row.log row.start

/-- The entries from a period on are in memory: the logs are read from them. -/
def loaded (period : Nat) : Space :=
  let act := (s.kept.filter fun row => period ≤ row.period).foldl remember s.act
  act.foldl (fun s row =>
      match s.startOf row.log period with
      | some start => s.readFrom row.log start
      | none => s)
    { s with act := act, loading := s.loading.erase period }

/-- The space is opened again, with the logs that have a row. -/
def reopen (rows : Key → Bool) (now : Nat) (length : Key → Nat) : Space :=
  let horizon := s.stored.getD none
  { personal := s.personal
    me := s.me
    horizon := horizon
    byActivity := s.byActivity
    stored := s.stored
    kept := s.kept
    act := match horizon with
      | some horizon => (s.kept.filter fun row => horizon ≤ row.period).foldl remember []
      | none => []
    logs := (s.logs.filter fun held => rows held.key).map fun held =>
      held.reopen now (length held.key) }

end Space

/-- The steps whose effect on the positions saved matters. -/
inductive Event
  /-- A log's limit becomes `limit`. -/
  | cut (key : Key) (limit : Nat)
  /-- The space is opened again. -/
  | reopen
  | other
  deriving DecidableEq

/-- What can happen to a space's logs, to its lists of entries, and to how it is read. -/
inductive Space.Step (s : Space) : Event → Space → Prop
  | log {held held' : Held} : held ∈ s.logs → HeldStep held none held'
      → Space.Step s .other (s.set held')
  | cut {held held' : Held} {limit : Nat} : held ∈ s.logs → HeldStep held (some limit) held'
      → Space.Step s (.cut held.key limit) (s.set held')
  | accept {key : Key} {own : Bool} {limit : Option Nat} {now length : Nat} : s.find key = none
      → Space.Step s .other
        { s with logs := s.logs ++ [.accepted key own (s.fromOf key own) limit now length] }
  | drop (key : Key) :
      Space.Step s .other { s with logs := s.logs.filter fun held => held.key != key }
  | entry (row : Row) : Space.Step s .other (s.entry row)
  /-- The first summary of a big space: it is read from now on. -/
  | summary {period : Nat} {byActivity : Bool} : s.undecided = true
      → Space.Step s .other
        { s with undecided := false, horizon := some period, byActivity := byActivity }
  | small : s.undecided = true → Space.Step s .other { s with undecided := false }
  /-- The horizon moves back; then the entries from it on are read, and the logs from them. -/
  | widen {horizon period : Nat} : s.horizon = some horizon → period < horizon
      → Space.Step s .other { s with horizon := some period, loading := s.loading ++ [period] }
  | load {period : Nat} : period ∈ s.loading → Space.Step s .other { s with act := [] }
  | loaded {period : Nat} : period ∈ s.loading → Space.Step s .other (s.loaded period)
  /-- Everything is held: it is read as by a member that always had it. -/
  | backfill {now : Nat} : s.horizon = some 0 → s.byActivity = false → s.completeFrom now 0 = true
      → Space.Step s .other { s with horizon := none, act := [] }
  | save : Space.Step s .other { s with stored := some s.horizon }
  /-- Members, peers and the activity lists. -/
  | others {members refused : List Key} {alone known : Bool} {channels : List Channel}
      {reachedFrom : ℕ∞} {waiting : List Nat} :
      Space.Step s .other { s with
        members := members
        refused := refused
        alone := alone
        known := known
        channels := channels
        reachedFrom := reachedFrom
        waiting := waiting }
  | reopen (rows : Key → Bool) (now : Nat) (length : Key → Nat) :
      Space.Step s .reopen (s.reopen rows now length)

/-- What comes of a space just joined, in steps of an allowed kind. -/
inductive Space.Run (allowed : Space → Event → Prop) (s : Space) : Space → Prop
  | refl : Space.Run allowed s s
  | step {s' s'' : Space} {event : Event} : Space.Run allowed s s' → s'.Step event s''
      → allowed s' event → Space.Run allowed s s''

end Hypergraph.Reading
