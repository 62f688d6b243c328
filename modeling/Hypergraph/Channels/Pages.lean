import Hypergraph.Channels.Replication
import Hypergraph.Lib.Newest
import Mathlib.Data.List.Lex
import Mathlib.Data.Prod.Lex

/-! Pages of a channel (`src/v2/index.js`): the newest messages before a time, walked back from the
newest segment that has roster entries. Every listed author's messages of a segment are read from
their newest down, all authors at once, in batches that double, until none can still be on the page.
-/

namespace Hypergraph.Channels.Pages

open Wire Js Encodings

-- The order every peer agrees on

/-- Where a message is in the order. -/
structure Place where
  t : Nat
  author : Key
  seq : Nat
  deriving DecidableEq, Repr

/-- Keys in hex compare as their bytes do. -/
def hexOrder (key : Key) : List Nat := key.map UInt8.toNat

/-- Above zero where `a` comes after `b`: time, then author key, then seq. -/
def newer (a b : Place) : Int :=
  if (a.t : Int) - b.t ≠ 0 then a.t - b.t
  else if hexOrder b.author < hexOrder a.author then 1
  else if hexOrder a.author < hexOrder b.author then -1
  else a.seq - b.seq

-- What a member reads

inductive Content
  | text (text : String) (reply : Option RecordId)
  | sealed (epoch : Nat) (nonce : Bytes) (box : Buffer)
  deriving DecidableEq, Repr

structure Message where
  t : Nat
  content : Content
  deriving DecidableEq, Repr

/-- An author's log as far as peers say; `get`: a block, if it can be fetched. -/
structure Log where
  length : Nat
  get : Nat → Option Message

/-- An entry as a keeper's roster has it. `verified`: its signature is the author's. -/
structure Listing where
  segment : Nat
  entry : Entry
  verified : Bool
  deriving DecidableEq, Repr

/-- A keeper's roster; one that can't be read has no entries. -/
abbrev Roster := List Listing

structure Ban where
  at_ : Nat
  cut : Key → Option Nat

/-- A channel as the control log has it. -/
structure Record where
  createdAt : Nat
  segmentMs : Nat
  private_ : Bool
  positive : 0 < segmentMs

/-- A member of the community, and what it sees of a channel. `opened`: a sealed message's text and
what it replies to, with the epoch's key and an intact box.
-/
structure Reader where
  channel : Option Record
  rosters : List Roster
  logs : Key → Log
  banned : Key → Option Ban
  hidden : Key → Key → Nat → Bool
  opened : Key → Nat → Nat → Bytes → Buffer → Option (String × Option RecordId)
  now : Nat

/-- A message as it is shown; `encrypted`: not said of plain text in a public channel. -/
structure Shown where
  author : Key
  log : Key
  seq : Nat
  t : Nat
  text : Option String
  hidden : Bool
  encrypted : Option Bool
  epoch : Option Nat
  unreadable : Bool
  reply : Option RecordId
  deriving DecidableEq, Repr

def Shown.place (s : Shown) : Place := ⟨s.t, s.author, s.seq⟩

/-- Five minutes: a message claiming a later time waits until then. -/
def FUTURE_MS : Nat := 5 * 60 * 1000

def isFuture (t now : Nat) : Bool := now + FUTURE_MS < t

/-- `segmentOf` at any time. -/
def segmentAt (t : Rat) (segmentMs : Nat) : Int := ⌊t / segmentMs⌋

/-- Is a message older than `beforeT`? `none`: no such time. -/
def older (beforeT : Option Rat) (m : Message) : Bool :=
  match beforeT with
  | some t => m.t < t
  | none => true

namespace Reader

variable (r : Reader)

def visible (author log : Key) (seq : Nat) (m : Message) : Bool :=
  if isFuture m.t r.now then false
  else match r.banned author with
    | none => true
    | some ban => match ban.cut log with
        | some cut => seq < cut
        | none => m.t ≤ ban.at_

def shape (record : Record) (author log : Key) (seq : Nat) (m : Message) : Shown :=
  let hidden := r.hidden author log seq
  match m.content with
  | .text text _ =>
      -- anyone can post plain text to their own log and get listed
      if record.private_ then ⟨author, log, seq, m.t, none, hidden, some false, none, true, none⟩
      else ⟨author, log, seq, m.t, if hidden then none else some text, hidden, none, none, false, none⟩
  | .sealed epoch nonce box =>
      match r.opened log epoch m.t nonce box with
      | none => ⟨author, log, seq, m.t, none, hidden, some true, some epoch, true, none⟩
      | some (text, reply) =>
          ⟨author, log, seq, m.t, if hidden then none else some text, hidden, some true, some epoch,
            false, reply⟩

end Reader

-- Roster entries

/-- The entry with the lower start stays. -/
def lower (byAuthor : Dict Key Entry) (e : Entry) : Dict Key Entry :=
  match byAuthor.get? e.author with
  | none => byAuthor.put e.author e
  | some known => if e.start < known.start then byAuthor.put e.author e else byAuthor

/-- The union of these rosters' entries for a segment: signature checked, lowest start per author. -/
def entriesFrom (rosters : List Roster) (segment : Int) : List Entry :=
  let listed := rosters.flatMap fun roster => roster.filter fun l => l.segment = segment
  let byAuthor := (listed.filter (·.verified)).foldl (fun byAuthor l => lower byAuthor l.entry) .empty
  byAuthor.entries.map Prod.snd

/-- The highest segment up to `max` that has any entry, or -1. -/
def Roster.latestSegment (roster : Roster) (max_ : Int) : Int :=
  ((roster.map fun l => (l.segment : Int)).filter (· ≤ max_)).foldl max (-1)

def latestFrom (rosters : List Roster) (max_ : Int) : Int :=
  rosters.foldl (fun best roster => max best (roster.latestSegment max_)) (-1)

-- Where an author's reading starts

/-- The loop of `lastBefore`; the outer `none`: it still runs, the inner one: a block can't be fetched. -/
def search (log : Log) (t : Rat) : Nat → Int → Int → Int → Option (Option Int)
  | 0, _, _, _ => none
  | fuel + 1, lo, hi, found =>
      if lo ≤ hi then
        -- `>>>` takes the sum modulo 2^32
        let mid := (lo + hi) % 2 ^ 32 / 2
        match log.get mid.toNat with
        | none => some none
        | some m =>
            if m.t < t then search log t fuel (mid + 1) hi mid else search log t fuel lo (mid - 1) found
      else some (some found)

/-- The highest seq from `lo` to `hi` whose message is older than `t` (`lo - 1` if none), where times
don't go down.
-/
def lastBefore (fuel : Nat) (log : Log) (lo hi : Int) (t : Rat) : Option (Option Int) :=
  match log.get hi.toNat with
  | none => some none
  | some top => if top.t < t then some (some hi) else search log t fuel lo (hi - 1) (lo - 1)

/-- Where an author's reading is. `oldest`: the last message read; `top`: where it started. -/
structure Cursor where
  entry : Entry
  next : Int
  done : Bool
  oldest : Option Place
  shown : List Shown
  top : Int
  deriving DecidableEq, Repr

/-- An author's cursor in a segment, and how many blocks couldn't be fetched for it. -/
def cursor (r : Reader) (fuel : Nat) (beforeT : Option Rat) (later : Dict Key Nat) (e : Entry)
    : Option (Cursor × Nat) :=
  let log := r.logs e.log
  let stop : Int := (later.get? e.author).getD log.length
  let c : Cursor := ⟨e, stop - 1, stop - 1 < e.start, none, [], stop - 1⟩
  if c.done then some (c, 0)
  else match beforeT with
    | none => some (c, 0)
    | some t => match lastBefore fuel log e.start (stop - 1) t with
        | none => none
        | some none => some ({ c with done := true }, 1)
        | some (some at_) => some ({ c with next := at_, done := at_ < e.start, top := at_ }, 0)

-- A segment's rounds

/-- The newest first; of equal ones the first stays first. -/
def sort (list : List Shown) : List Shown :=
  list.insertionSort fun x y => newer y.place x.place ≤ 0

section Rounds

variable (r : Reader) (record : Record) (beforeT : Option Rat)

/-- A cursor once a message was fetched. -/
def Cursor.read (c : Cursor) (seq : Nat) (m : Message) : Cursor :=
  { c with
    oldest := some ⟨m.t, c.entry.author, seq⟩
    shown :=
      if older beforeT m && r.visible c.entry.author c.entry.log seq m
      then c.shown ++ [r.shape record c.entry.author c.entry.log seq m] else c.shown }

/-- A batch is gone through as far as its blocks were fetched. -/
def Cursor.readAll : List Nat → Cursor → Cursor × Nat
  | [], c => (c, 0)
  | seq :: seqs, c =>
      match (r.logs c.entry.log).get seq with
      | none => ({ c with done := true }, 1)
      | some m => Cursor.readAll seqs (c.read r record beforeT seq m)

/-- The next batch of an author still in the running, and how many blocks couldn't be fetched. -/
def Cursor.readBatch (batch : Nat) (c : Cursor) : Cursor × Nat :=
  let from_ := max (c.entry.start : Int) (c.next - batch + 1)
  let seqs := (List.range' from_.toNat (c.next + 1 - from_).toNat).reverse
  let (c, failed) := c.readAll r record beforeT seqs
  ({ c with next := from_ - 1, done := c.done || decide (from_ - 1 < c.entry.start) }, failed)

/-- The last message that can still be on the page: not known yet, or what `shown[need - 1]` is. -/
inductive Threshold
  | null
  | at_ (shown : Option Shown)
  deriving DecidableEq, Repr

/-- `list[index]`. -/
def item (list : List Shown) (index : Int) : Option Shown :=
  if 0 ≤ index then list[index.toNat]? else none

/-- Is an author still in the running? -/
def Cursor.running (threshold : Threshold) (c : Cursor) : Except String Bool :=
  if c.done then .ok false
  else match threshold, c.oldest with
    | .null, _ => .ok true
    | .at_ _, none => .error "Cannot read properties of null (reading 't')"
    | .at_ none, some _ => .error "Cannot read properties of undefined (reading 't')"
    | .at_ (some last), some oldest => .ok (0 < newer oldest last.place)

/-- All authors in the running give their next batch, until none is; then the cursors' messages, sorted,
and how many blocks couldn't be fetched. `none`: it still runs.
-/
def rounds (need : Int)
    : Nat → Nat → Threshold → List Shown → List Cursor → Nat → Option (Except String (List Shown × Nat))
  | 0, _, _, _, _, _ => none
  | fuel + 1, batch, threshold, shown, cursors, unreachable =>
      match cursors.mapM (Cursor.running threshold) with
      | .error text => some (.error text)
      | .ok active =>
          if active.all (· = false) then some (.ok (shown, unreachable))
          else
            let read := (cursors.zip active).map fun (c, runs) =>
              if runs then c.readBatch r record beforeT batch else (c, 0)
            let cursors := read.map Prod.fst
            let shown := sort (cursors.flatMap Cursor.shown)
            let threshold := if need ≤ shown.length then .at_ (item shown (need - 1)) else threshold
            rounds need fuel (batch * 2) threshold shown cursors
              (unreachable + (read.map Prod.snd).sum)

end Rounds

-- A page

/-- A page, and how many blocks couldn't be fetched for it. -/
abbrev Outcome := Except String (List Shown × Nat)

section Page

variable (r : Reader) (record : Record) (beforeT : Option Rat) (limit : Nat)

/-- The newest first, at most `limit`. -/
def finish (out : List Shown) (unreachable : Nat) : Outcome := .ok ((sort out).take limit, unreachable)

/-- One segment of the page's loop: what it shows, and how many blocks couldn't be fetched. -/
def segment (fuel : Nat) (seg : Int) (later : Dict Key Nat) (taken : Nat) : Option Outcome :=
  match (entriesFrom r.rosters seg).mapM (cursor r fuel beforeT later) with
  | none => none
  | some begun =>
      rounds r record beforeT (limit - taken) fuel 1 .null [] (begun.map Prod.fst)
        (begun.map Prod.snd).sum

/-- The page's loop; `fuel` is also that of each loop in it. -/
def walk (fuel : Nat) : Nat → Int → Dict Key Nat → List Shown → Nat → Option Outcome
  | 0, _, _, _, _ => none
  | steps + 1, seg, later, out, unreachable =>
      if seg < segmentOf record.createdAt record.segmentMs then some (finish limit out unreachable)
      else
        let seg := latestFrom r.rosters seg
        if seg < 0 then some (finish limit out unreachable)
        else match segment r record beforeT limit fuel seg later out.length with
          | none => none
          | some (.error text) => some (.error text)
          | some (.ok (shown, failed)) =>
              let out := out ++ shown
              let later := (entriesFrom r.rosters seg).foldl (fun later e => later.put e.author e.start) later
              if limit ≤ out.length then some (finish limit out (unreachable + failed))
              else walk fuel steps (seg - 1) later out (unreachable + failed)

/-- The newest segment a page may show messages of. -/
def newest : Int :=
  segmentAt (beforeT.getD (r.now + FUTURE_MS : Nat)) record.segmentMs

/-- The newest messages before `beforeT`, at most `limit`, newest first; `none`: it still runs. -/
def page (fuel : Nat) : Option Outcome :=
  match r.channel with
  | none => some (.error "Unknown channel")
  | some record => walk r record beforeT limit fuel fuel (newest r record beforeT) .empty [] 0

end Page

end Hypergraph.Channels.Pages
