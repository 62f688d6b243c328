import Hypergraph.Lib.Dict
import Hypergraph.Reading.Entries

/-! A space's activity lists (`lib/activity.js`, Activity): entries received from peers, checked
against their log and kept, or waiting for what their check needs; and the lists asked for. What
runs between two waits of the code is one action here, so any order of actions is an order the
code can run in.
-/

namespace Hypergraph.Reading

open Js Encodings

/-- Entries waiting for their check (their log's header, a block). -/
def MAX_WAITING : Nat := 1000

/-- An entry that can't be checked within this long is dropped. -/
def WAIT_MS : Nat := 60000

/-- `${log hex}:${period}`. -/
abbrev Slot := Key × Nat

def Entry.slot (e : Entry) : Slot := (e.log, e.period)

structure Waiter where
  e : Entry
  at_ : Nat
  deriving DecidableEq

/-- What a call of `receive` waits for. -/
inductive Stage
  /-- The entry kept of its log and period. -/
  | looking
  /-- The block before its start. -/
  | before
  /-- The block at its start, the one before it known. -/
  | atStart (before : Option Block)
  /-- Its turn in the write queue. -/
  | keeping
  deriving DecidableEq

/-- A call of `receive` under way; `list`: the answer it is part of. -/
structure Call where
  e : Entry
  stage : Stage
  list : Option Nat
  deriving DecidableEq

structure Asking where
  from_ : Nat
  /-- The channels asked. -/
  asked : List Nat
  deriving DecidableEq

/-- A peer's answer whose entries are being received (`onList`). -/
structure Answer where
  id : Nat
  channel : Nat
  from_ : ℕ∞
  done : Bool

structure Activity where
  /-- The rows of `@hg/activity`: their starts. -/
  kept : Dict Slot Nat := .empty
  waiting : Dict Slot Waiter := .empty
  checking : List Entry := []
  reachedFrom : ℕ∞ := ⊤
  asking : Option Asking := none
  /-- The directory's logs, those it refused, and their limits. -/
  logs : List Key := []
  refused : List Key := []
  limits : Key → ℕ∞ := fun _ => ⊤
  calls : List Call := []
  answers : List Answer := []
  answered : Nat := 0
  now : Nat := 0

namespace Activity

variable (block : Key → Nat → Option Block) (s : Activity)

-- Receiving an entry

/-- An entry of the log and period is kept, with no later a start. -/
def Kept (e : Entry) : Prop := ∃ start ∈ s.kept.get? e.slot, start ≤ e.start

instance (e : Entry) : Decidable (s.Kept e) :=
  decidable_of_iff ((s.kept.get? e.slot).any (· ≤ e.start)) (by
    unfold Kept
    cases s.kept.get? e.slot <;> simp)

/-- A call of `receive`, as far as it runs at once. -/
def receive (e : Entry) (list : Option Nat) : Activity :=
  if e ∈ s.checking then s else { s with calls := s.calls ++ [⟨e, .looking, list⟩] }

/-- One entry waits per log and period: the lowest start. Where there is no room, the lists
aren't known whole any more.
-/
def wait (e : Entry) : Activity :=
  match s.waiting.get? e.slot with
  | some w =>
      if e.start < w.e.start then { s with waiting := s.waiting.put e.slot ⟨e, s.now⟩ } else s
  | none =>
      if s.waiting.entries.length < MAX_WAITING then
        { s with waiting := s.waiting.put e.slot ⟨e, s.now⟩ }
      else { s with reachedFrom := ⊤ }

/-- The kept entry of its log and period is known. -/
def look (e : Entry) (list : Option Nat) : Activity :=
  if s.Kept e then s
  else if e.log ∈ s.logs then
    { s with
      checking := if e ∈ s.checking then s.checking else s.checking ++ [e]
      calls := s.calls ++ [⟨e, if 1 < e.start then .before else .atStart none, list⟩] }
  else if e.log ∈ s.refused then s
  else s.wait e

/-- `checking.delete`. -/
def checked (e : Entry) : Activity := { s with checking := s.checking.filter (· ≠ e) }

/-- `waiting.delete` of the entry's slot, where the one there is `out`. -/
def unwait (e : Entry) (out : Waiter → Bool) : Activity :=
  if (s.waiting.get? e.slot).any out then { s with waiting := s.waiting.remove e.slot } else s

/-- What its check needs is known. -/
def judge (e : Entry) (list : Option Nat) (before at_ : Option Block) : Activity :=
  match checkEntry e before at_ (s.limits e.log) with
  | .wait => (s.wait e).checked e
  | .ok => { s with calls := s.calls ++ [⟨e, .keeping, list⟩] }
  | .false => (s.unwait e fun w => w.e.start = e.start).checked e

/-- A row is written, where none is kept or its start is later. -/
def keep (e : Entry) : Activity :=
  if s.Kept e then s else { s with kept := s.kept.put e.slot e.start }

/-- The entry is written; the one waiting for its log and period goes, unless it starts
earlier.
-/
def keeping (e : Entry) : Activity :=
  ((s.keep e).unwait e fun w => e.start ≤ w.e.start).checked e

-- Logs, retries and lists

def receiveAll (entries : List Entry) (list : Option Nat) : Activity :=
  entries.foldl (fun s e => s.receive e list) s

/-- The entries waiting for a log. -/
def waitingFor (log : Key) : List Entry :=
  (s.waiting.entries.map fun entry => entry.2.e).filter fun e => e.log = log

def logAccepted (log : Key) : Activity :=
  { s with logs := s.logs ++ [log] }.receiveAll (s.waitingFor log) none

def logRefused (log : Key) : Activity :=
  { s with
    refused := s.refused ++ [log]
    waiting := s.waiting.filter fun slot => slot.1 ≠ log }

/-- A log cut before anything in it counted (the directory's `drop`). -/
def logDropped (log : Key) : Activity :=
  { s with logs := s.logs.filter (· ≠ log), refused := s.refused ++ [log] }

/-- Is an entry with a period at or after `period` waiting for its check? -/
def waitingFrom (period : Nat) : Bool :=
  s.waiting.entries.any (fun entry => period ≤ entry.2.e.period)
    || s.checking.any fun e => period ≤ e.period

/-- Asks the next of `channels`, the members' there are now. -/
def askNext (channels : List Nat) : Activity :=
  match s.asking with
  | none => s
  | some a =>
      if s.reachedFrom ≤ a.from_ then { s with asking := none }
      else match channels.find? (· ∉ a.asked) with
        | some ch => { s with asking := some { a with asked := a.asked ++ [ch] } }
        | none => { s with asking := some { a with asked := [] } }

def ask (from_ : Nat) (channels : List Nat) : Activity :=
  if s.reachedFrom ≤ from_ then s
  else if s.asking.all (from_ < ·.from_) then
    { s with asking := some ⟨from_, []⟩ }.askNext channels
  else s.askNext channels

def timesOut (w : Waiter) : Bool := WAIT_MS < s.now - w.at_

def retryOne (s : Activity) (entry : Slot × Waiter) : Activity :=
  if s.timesOut entry.2 then { s with waiting := s.waiting.remove entry.1 }
  else if entry.2.e.log ∈ s.logs then s.receive entry.2.e none
  else s

/-- `horizon`: the first period read (none: everything). -/
def retry (horizon : Option Nat) (channels : List Nat) : Activity :=
  let s := s.waiting.entries.foldl retryOne s
  match horizon with
  | some h => if h < s.reachedFrom then s.ask h channels else s.askNext channels
  | none => s.askNext channels

/-- A peer's answer comes. -/
def onList (channel : Nat) (from_ : ℕ∞) (entries : List Entry) (done : Bool) : Activity :=
  let s' : Activity := { s with
    answers := s.answers ++ [⟨s.answered, channel, from_, done⟩]
    answered := s.answered + 1 }
  s'.receiveAll entries (some s.answered)

/-- The lists from a period on were received whole. -/
def reach (reached : ℕ∞) : Activity :=
  if reached < s.reachedFrom then { s with reachedFrom := reached } else s

/-- All its entries were received: once whole, the lists from the period it covers are known. -/
def onListEnd (answer : Answer) (channels : List Nat) : Activity :=
  match s.asking with
  | none => s
  | some a =>
      if answer.done ∧ answer.channel ∈ a.asked then
        let s := s.reach (if answer.from_ ≤ a.from_ then a.from_ else answer.from_)
        if a.from_ < s.reachedFrom then s.askNext channels else { s with asking := none }
      else s

-- Actions

inductive Action
  /-- A peer's entry. -/
  | receive (e : Entry)
  | list (channel : Nat) (from_ : ℕ∞) (entries : List Entry) (done : Bool)
  /-- Call `i` knows what is kept. -/
  | looked (i : Nat)
  /-- Call `i` gets the block before, or it isn't available. -/
  | before (i : Nat) (available : Bool)
  | atStart (i : Nat) (available : Bool)
  /-- Call `i` has had its turn in the write queue. -/
  | kept (i : Nat)
  | listed (id : Nat) (channels : List Nat)
  | accepted (log : Key)
  | refused (log : Key)
  | dropped (log : Key)
  /-- A log's cut is another. -/
  | limit (log : Key) (limit : ℕ∞)
  | retry (horizon : Option Nat) (channels : List Nat)
  | ask (from_ : Nat) (channels : List Nat)
  | channelOpened (channels : List Nat)
  /-- The indexer keeps one, from the blocks read here. -/
  | derived (e : Entry)
  | tick (ms : Nat)

/-- Call `i` goes on. -/
def without (i : Nat) : Activity := { s with calls := s.calls.eraseIdx i }

def step : Action → Activity
  | .receive e => s.receive e none
  | .list channel from_ entries done => s.onList channel from_ entries done
  | .looked i =>
      match s.calls[i]? with
      | some ⟨e, .looking, list⟩ => (s.without i).look e list
      | _ => s
  | .before i available =>
      match s.calls[i]? with
      | some ⟨e, .before, list⟩ =>
          let before := if available then block e.log (e.start - 1) else none
          { s.without i with calls := (s.without i).calls ++ [⟨e, .atStart before, list⟩] }
      | _ => s
  | .atStart i available =>
      match s.calls[i]? with
      | some ⟨e, .atStart before, list⟩ =>
          (s.without i).judge e list before (if available then block e.log e.start else none)
      | _ => s
  | .kept i =>
      match s.calls[i]? with
      | some ⟨e, .keeping, _⟩ => (s.without i).keeping e
      | _ => s
  | .listed id channels =>
      match s.answers.find? (·.id = id) with
      | some answer =>
          if s.calls.any (·.list = some id) then s
          else { s with answers := s.answers.filter (·.id ≠ id) }.onListEnd answer channels
      | none => s
  | .accepted log => s.logAccepted log
  | .refused log => s.logRefused log
  | .dropped log => s.logDropped log
  | .limit log limit => { s with limits := fun key => if key = log then limit else s.limits key }
  | .retry horizon channels => s.retry horizon channels
  | .ask from_ channels => s.ask from_ channels
  | .channelOpened channels => s.askNext channels
  | .derived e => s.keep e
  | .tick ms => { s with now := s.now + ms }

def run (actions : List Action) : Activity := actions.foldl (step block) s

end Activity

end Hypergraph.Reading
