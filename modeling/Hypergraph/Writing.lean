import Hypergraph.Index.Allowed
import Hypergraph.Lib.Runs

/-! Records on their way into a device's log (`_put`, `edit` and `del` in `lib/space.js`, `#write` and
`#withinLimit` there, `Stamper` in `lib/stamp.js`, `OwnLog.append` in `lib/log.js`): a call takes its
stamp, opens the log, is checked against the write limit, waits for the current key and appends. What
runs between two waits of the code is one event here, so calls go on in any order.
-/

namespace Hypergraph.Writing

open Encodings Index Runs

-- Calls in flight

/-- Where a call is. -/
inductive Stage
  /-- Its stamp is taken, and the log is being opened. -/
  | stamped
  /-- It is being checked by this limit, as the block that comes next in the log by then. -/
  | checking (limit : WriteLimit) (seq : Nat)
  /-- It was let through, by that limit as that block or without one, and waits for the key. -/
  | through (by_ : Option (WriteLimit × Nat))
  deriving DecidableEq

structure Call where
  stamp : Nat
  /-- A record the limit isn't asked about: a delete, one of a plain type, or in the personal space. -/
  free : Bool
  stage : Stage
  deriving DecidableEq

/-- A record in the log, and the limit that let it through. -/
structure Written where
  stamp : Nat
  limit : Option WriteLimit
  deriving DecidableEq

/-- A device and its log, whose block 0 is the header. Calls are named by their stamps. -/
structure Device where
  /-- The newest stamp its stamper has seen. -/
  newest : Nat
  calls : List Call
  /-- What was handed to `OwnLog.append` and isn't written yet, the first next. -/
  appending : List Call
  records : List Written

/-- `Stamper.next`. -/
def nextStamp (newest now replaces : Nat) : Nat := max now (max (newest + 1) (replaces + 1))

inductive Event
  /-- A call begins: it takes its stamp. -/
  | take (now replaces : Nat) (free : Bool)
  /-- A stamp is seen, or taken for another log. -/
  | raise (stamp : Nat)
  /-- The log is open, and the check begins: the limit and the log's length are read. -/
  | check (stamp : Nat) (limit : Option WriteLimit)
  /-- The check ends; it couldn't read these blocks (wiped by then, or gone). -/
  | answer (stamp : Nat) (gone : Nat → Bool)
  /-- The key is there: the record is handed over to be appended. -/
  | ask (stamp : Nat)
  /-- The first record handed over is written, or its append fails. -/
  | land (written : Bool)
  /-- The call throws. -/
  | fail (stamp : Nat)

namespace Device

variable (d : Device)

/-- How many blocks the log has. -/
def length : Nat := d.records.length + 1

/-- The stamps of its blocks (the header has none). -/
def stamps (seq : Nat) : Nat := (d.records[seq - 1]?.map Written.stamp).getD 0

/-- A call goes on, or is over. -/
def goOn (stamp : Nat) (how : Call → Option Call) : Device :=
  { d with calls := d.calls.filterMap fun call => if call.stamp = stamp then how call else some call }

/-- `#withinLimit` begins. -/
def checked (limit : Option WriteLimit) (call : Call) : Option Call :=
  match call.stage, limit with
  | .stamped, some limit =>
      some { call with stage := if call.free then .through none else .checking limit d.length }
  | .stamped, none => some { call with stage := .through none }
  | _, _ => some call

/-- `#withinLimit` ends: refused, unless the record counts now. -/
def answered (gone : Nat → Bool) (call : Call) : Option Call :=
  match call.stage with
  | .checking limit seq =>
      if nextAllowed seq call.stamp (some limit) (wiped d.stamps gone) = 0 then
        some { call with stage := .through (some (limit, seq)) }
      else none
  | _ => some call

/-- A call let through, with this stamp. -/
def waits (stamp : Nat) (call : Call) : Bool :=
  call.stamp = stamp && match call.stage with
    | .through _ => true
    | _ => false

/-- The record a call has written. -/
def written (call : Call) : Written :=
  ⟨call.stamp, match call.stage with
    | .through by_ => by_.map Prod.fst
    | _ => none⟩

def step : Event → Device
  | .take now replaces free =>
      let stamp := nextStamp d.newest now replaces
      { d with newest := stamp, calls := d.calls ++ [⟨stamp, free, .stamped⟩] }
  | .raise stamp => { d with newest := max d.newest stamp }
  | .check stamp limit => d.goOn stamp (d.checked limit)
  | .answer stamp gone => d.goOn stamp (d.answered gone)
  | .ask stamp =>
      { d with
        calls := d.calls.filter fun call => !waits stamp call
        appending := d.appending ++ d.calls.filter (waits stamp) }
  | .land kept =>
      match d.appending with
      | [] => d
      | call :: rest =>
          { d with
            appending := rest
            records := if kept then d.records ++ [written call] else d.records }
  | .fail stamp => d.goOn stamp fun _ => none

/-- A log as it is opened, with no call under way: its stamps in order, and seen (`#seenOwn`). -/
structure Opened : Prop where
  calls : d.calls = []
  appending : d.appending = []
  increasing : (d.records.map Written.stamp).Pairwise (· < ·)
  seen : ∀ record ∈ d.records, record.stamp ≤ d.newest
  before : ∀ record ∈ d.records, record.limit = none

/-- Block after block is stamped later. -/
def Increasing : Prop := (d.records.map Written.stamp).Pairwise (· < ·)

/-- Every record the limit let through counts as the block it is, for who holds the whole log. -/
def Counts : Prop :=
  ∀ seq record limit, d.records[seq]? = some record → record.limit = some limit
    → judge (seq + 1) record.stamp (some limit) (wiped d.stamps fun _ => false) = .ok

/-- A call hands its record over in its turn: the calls stamped before it have theirs handed over, or
are over; and, let through as a block, no later block is left for it (or still one of the first, that
count anyway).
-/
def InTurn : Event → Prop
  | .ask stamp =>
      ∀ call ∈ d.calls, waits stamp call = true
        → (∀ other ∈ d.calls, call.stamp ≤ other.stamp)
          ∧ ∀ limit seq, call.stage = .through (some (limit, seq))
            → d.length + d.appending.length ≤ max seq limit.records
  | _ => True

end Device

-- Writes in their turn

namespace Device

variable {d : Device} {stamp : Nat} {how : Call → Option Call} {call : Call}

/-- The stamps written, handed over and taken, in this order. -/
def line (d : Device) : List Nat :=
  d.records.map Written.stamp ++ d.appending.map Call.stamp ++ d.calls.map Call.stamp

/-- A call let through counts as the block it was checked as. -/
def Through (d : Device) (call : Call) : Prop :=
  ∀ limit seq, call.stage = .through (some (limit, seq))
    → seq ≤ d.length ∧ judge seq call.stamp (some limit) (wiped d.stamps fun _ => false) = .ok

/-- What holds of the calls in flight, in whatever order they go on. -/
structure Sound (d : Device) : Prop where
  order : d.line.Pairwise (· < ·)
  seen : ∀ stamp ∈ d.line, stamp ≤ d.newest
  checking : ∀ call ∈ d.calls, ∀ limit seq, call.stage = .checking limit seq → seq ≤ d.length
  through : ∀ call ∈ d.calls, Through d call
  queued
    : ∀ i call, d.appending[i]? = some call → Through d call
      ∧ ∀ limit seq, call.stage = .through (some (limit, seq)) → d.length + i ≤ max seq limit.records
  counts : d.Counts

theorem lt_nextStamp {newest now replaces : Nat} : newest < nextStamp newest now replaces := by
  unfold nextStamp
  omega

theorem inOrder (order : d.line.Pairwise (· < ·)) : InOrder d.stamps d.length := by
  intro a b positive upTo below
  have increasing : (d.records.map Written.stamp).Pairwise (· < ·) :=
    (List.pairwise_append.mp (List.pairwise_append.mp order).1).1
  unfold length at below
  have at_ (k : Nat) (within : k < d.records.length)
      : d.stamps (k + 1) = (d.records.map Written.stamp).get ⟨k, by rw [List.length_map]; exact within⟩ := by
    unfold stamps
    rw [Nat.add_sub_cancel, List.getElem?_eq_getElem within, List.get_eq_getElem, List.getElem_map]
    rfl
  obtain ⟨a, rfl⟩ := Nat.exists_eq_add_of_le' positive
  obtain ⟨b, rfl⟩ := Nat.exists_eq_add_of_le' (le_trans positive upTo)
  rw [at_ a (by omega), at_ b (by omega)]
  rcases Nat.eq_or_lt_of_le upTo with same | before
  · have same : a = b := by omega
    subst same
    exact le_refl _
  · exact (List.pairwise_iff_getElem.mp increasing a b _ _ (by omega)).le

theorem stamps_append {records : List Written} {k : Nat} (positive : 1 ≤ k) (below : k < d.length)
    : ({ d with records := d.records ++ records } : Device).stamps k = d.stamps k := by
  unfold length at below
  unfold stamps
  rw [List.getElem?_append_left (by omega)]

theorem line_goOn (keeps : ∀ call call', how call = some call' → call'.stamp = call.stamp)
    : (d.goOn stamp how).line.Sublist d.line := by
  have calls : ((d.goOn stamp how).calls.map Call.stamp).Sublist (d.calls.map Call.stamp) := by
    unfold goOn
    induction d.calls with
    | nil => exact .slnil
    | cons call rest ih =>
        rw [List.filterMap_cons, List.map_cons]
        split
        · exact ih.cons _
        · rename_i call' is
          have same : call'.stamp = call.stamp := by
            split at is
            · exact keeps _ _ is
            · exact (Option.some.inj is) ▸ rfl
          rw [List.map_cons, same]
          exact ih.cons_cons _
  exact calls.append_left _

/-- A call goes on: sound, if what becomes of it is. -/
theorem Sound.goOn (sound : Sound d) (keeps : ∀ call call', how call = some call' → call'.stamp = call.stamp)
    (checking
      : ∀ call ∈ d.calls, ∀ call', how call = some call' → ∀ limit seq, call'.stage = .checking limit seq
        → seq ≤ d.length)
    (through : ∀ call ∈ d.calls, ∀ call', how call = some call' → Through d call')
    : Sound (d.goOn stamp how) := by
  have from_ (call' : Call) (mem : call' ∈ (d.goOn stamp how).calls)
      : call' ∈ d.calls ∨ ∃ call ∈ d.calls, how call = some call' := by
    obtain ⟨call, there, is⟩ := List.mem_filterMap.mp mem
    split at is
    · exact .inr ⟨call, there, is⟩
    · exact .inl (Option.some.inj is ▸ there)
  refine ⟨sound.order.sublist (line_goOn keeps), fun stamp mem => sound.seen stamp ((line_goOn keeps).subset mem),
    fun call' mem => ?_, fun call' mem => ?_, sound.queued, sound.counts⟩
  · rcases from_ call' mem with same | ⟨call, there, is⟩
    · exact sound.checking call' same
    · exact checking call there call' is
  · rcases from_ call' mem with same | ⟨call, there, is⟩
    · exact sound.through call' same
    · exact through call there call' is

theorem Sound.checked (sound : Sound d) (limit : Option WriteLimit) : Sound (d.goOn stamp (d.checked limit)) := by
  refine sound.goOn (fun call call' is => ?_) (fun call mem call' is limit' seq at_ => ?_)
    fun call mem call' is limit' seq at_ => ?_
  · unfold Device.checked at is
    split at is <;> cases is <;> rfl
  · unfold Device.checked at is
    split at is
    · cases is
      by_cases free : call.free = true
      · rw [if_pos free] at at_
        cases at_
      · rw [if_neg free] at at_
        cases at_
        exact le_refl _
    · cases is
      cases at_
    · cases is
      exact sound.checking call mem limit' seq at_
  · unfold Device.checked at is
    split at is
    · cases is
      by_cases free : call.free = true
      · rw [if_pos free] at at_
        cases at_
      · rw [if_neg free] at at_
        cases at_
    · cases is
      cases at_
    · cases is
      exact sound.through call mem limit' seq at_

theorem Sound.answered (sound : Sound d) (gone : Nat → Bool) : Sound (d.goOn stamp (d.answered gone)) := by
  refine sound.goOn (fun call call' is => ?_) (fun call mem call' is limit' seq at_ => ?_)
    fun call mem call' is limit' seq at_ => ?_
  · unfold Device.answered at is
    split at is
    · split at is <;> cases is
      rfl
    · cases is
      rfl
  · unfold Device.answered at is
    split at is
    · split at is <;> cases is
      cases at_
    · cases is
      exact sound.checking call mem limit' seq at_
  · unfold Device.answered at is
    split at is
    · rename_i limit seq' was
      split at is <;> cases is
      rename_i now
      cases at_
      have short := sound.checking call mem limit' seq was
      have order : InOrder d.stamps seq := fun a b positive upTo below =>
        inOrder sound.order a b positive upTo (by omega)
      exact ⟨short, countsFor_of_nextAllowed order now _ fun _ is => nomatch is⟩
    · cases is
      exact sound.through call mem limit' seq at_

theorem Sound.take (sound : Sound d) (now replaces : Nat) (free : Bool)
    : Sound (d.step (.take now replaces free)) := by
  have line : (d.step (.take now replaces free)).line = d.line ++ [nextStamp d.newest now replaces] := by
    simp only [Device.step, Device.line, List.map_append, List.map_cons, List.map_nil, List.append_assoc]
  have new : d.newest < nextStamp d.newest now replaces := lt_nextStamp
  refine ⟨?_, fun stamp mem => ?_, fun call mem limit seq at_ => ?_, fun call mem limit seq at_ => ?_, sound.queued,
    sound.counts⟩
  · rw [line, List.pairwise_append]
    refine ⟨sound.order, List.pairwise_singleton _ _, fun stamp mem other is => ?_⟩
    rw [List.mem_singleton.mp is]
    exact lt_of_le_of_lt (sound.seen stamp mem) new
  · rw [line, List.mem_append] at mem
    rcases mem with old | is
    · exact (lt_of_le_of_lt (sound.seen stamp old) new).le
    · exact (List.mem_singleton.mp is).le
  · rcases List.mem_append.mp mem with old | is
    · exact sound.checking call old limit seq at_
    · rw [List.mem_singleton.mp is] at at_
      cases at_
  · rcases List.mem_append.mp mem with old | is
    · exact sound.through call old limit seq at_
    · rw [List.mem_singleton.mp is] at at_
      cases at_

/-- Of the calls, only the first can be handed over in its turn. -/
theorem turn_of_inTurn (order : (d.calls.map Call.stamp).Pairwise (· < ·)) (inTurn : d.InTurn (.ask stamp))
    (mem : call ∈ d.calls) (is : waits stamp call = true)
    : ∃ rest, d.calls = call :: rest ∧ d.calls.filter (waits stamp) = [call]
        ∧ d.calls.filter (fun call => !waits stamp call) = rest := by
  obtain ⟨first, _⟩ := inTurn call mem is
  cases calls : d.calls with
  | nil =>
      rw [calls] at mem
      cases mem
  | cons head rest =>
      rw [calls] at mem order first
      rw [List.map_cons, List.pairwise_cons] at order
      have later (other : Call) (there : other ∈ rest) : head.stamp < other.stamp :=
        order.1 other.stamp (List.mem_map_of_mem there)
      have here : call = head := by
        rcases List.mem_cons.mp mem with rfl | there
        · rfl
        · exact absurd (first head List.mem_cons_self) (not_le.mpr (later call there))
      subst here
      have others (other : Call) (there : other ∈ rest) : waits stamp other = false := by
        have stamp_ : call.stamp = stamp := by
          unfold waits at is
          rw [Bool.and_eq_true] at is
          exact of_decide_eq_true is.1
        unfold waits
        rw [Bool.and_eq_false_iff]
        exact .inl (decide_eq_false (stamp_ ▸ (later other there).ne'))
      refine ⟨rest, rfl, ?_, ?_⟩
      · rw [List.filter_cons_of_pos is, List.filter_eq_nil_iff.mpr fun other there => by rw [others other there]; exact
          Bool.false_ne_true]
      · rw [List.filter_cons_of_neg (by rw [is]; exact Bool.false_ne_true)]
        exact List.filter_eq_self.mpr fun other there => by rw [others other there]; rfl

theorem Sound.ask (sound : Sound d) (inTurn : d.InTurn (.ask stamp)) : Sound (d.step (.ask stamp)) := by
  have calls : (d.calls.map Call.stamp).Pairwise (· < ·) := (List.pairwise_append.mp sound.order).2.1
  by_cases some_ : ∃ call ∈ d.calls, waits stamp call = true
  · obtain ⟨call, mem, is⟩ := some_
    obtain ⟨rest, before, handed, left⟩ := turn_of_inTurn calls inTurn mem is
    have after : d.step (.ask stamp) = { d with calls := rest, appending := d.appending ++ [call] } := by
      rw [← handed, ← left]
      rfl
    have line : (d.step (.ask stamp)).line = d.line := by
      rw [after]
      unfold Device.line
      rw [before]
      simp only [List.map_append, List.map_cons, List.map_nil, List.append_assoc, List.cons_append, List.nil_append]
    have within (other : Call) (there : other ∈ rest) : other ∈ d.calls := before ▸ List.mem_cons_of_mem _ there
    refine ⟨line ▸ sound.order, line ▸ after ▸ sound.seen, ?_, ?_, ?_, ?_⟩
    · rw [after]
      exact fun other there => sound.checking other (within other there)
    · rw [after]
      exact fun other there => sound.through other (within other there)
    · rw [after]
      intro i other at_
      rw [List.getElem?_append] at at_
      split at at_
      · exact sound.queued i other at_
      · obtain ⟨short, same⟩ := List.getElem?_eq_some_iff.mp at_
        rw [List.length_singleton] at short
        have here : i = d.appending.length := by omega
        rw [List.getElem_singleton] at same
        subst here same
        exact ⟨sound.through call mem, (inTurn call mem is).2⟩
    · rw [after]
      exact sound.counts
  · have none_ : ∀ call ∈ d.calls, waits stamp call = false := fun call mem =>
      Bool.eq_false_iff.mpr fun is => some_ ⟨call, mem, is⟩
    have after : d.step (.ask stamp) = d := by
      unfold Device.step
      dsimp only
      rw [List.filter_eq_self.mpr fun call mem => by rw [none_ call mem]; rfl,
        List.filter_eq_nil_iff.mpr fun call mem => by rw [none_ call mem]; exact Bool.false_ne_true, List.append_nil]
    rw [after]
    exact sound

/-- A record handed over counts as the block that comes next, once it is the first to be written. -/
theorem Sound.counts_next (sound : Sound d) {rest : List Call} (first : d.appending = call :: rest)
    {limit : WriteLimit} (by_ : (written call).limit = some limit)
    : judge d.length call.stamp (some limit) (wiped d.stamps fun _ => false) = .ok := by
  have stage : ∃ seq, call.stage = .through (some (limit, seq)) := by
    unfold written at by_
    split at by_
    · rename_i through is
      obtain ⟨⟨limit', seq⟩, same, rfl⟩ := Option.map_eq_some_iff.mp by_
      exact ⟨seq, by rw [is, same]⟩
    · cases by_
  obtain ⟨seq, stage⟩ := stage
  obtain ⟨through, place⟩ := sound.queued 0 call (by rw [first]; rfl)
  obtain ⟨short, ok⟩ := through limit seq stage
  have within := place limit seq stage
  by_cases few : d.length ≤ limit.records
  · exact judge_unwiped.mpr (.inl few)
  · have order : InOrder d.stamps seq := fun a b positive upTo below =>
      inOrder sound.order a b positive upTo (by omega)
    exact judge_earlier order (by omega) ok

theorem Sound.land (sound : Sound d) (kept : Bool) : Sound (d.step (.land kept)) := by
  cases first : d.appending with
  | nil =>
      have after : d.step (.land kept) = d := by
        unfold Device.step
        simp only [first]
      rw [after]
      exact sound
  | cons call rest =>
      cases kept with
      | false =>
          have after : d.step (.land false) = { d with appending := rest } := by
            unfold Device.step
            simp only [first, Bool.false_eq_true, if_false]
          have fewer : ({ d with appending := rest } : Device).line.Sublist d.line := by
            unfold Device.line
            rw [first]
            exact ((List.sublist_cons_self _ _).append_left _).append_right _
          rw [after]
          refine ⟨sound.order.sublist fewer, fun stamp mem => sound.seen stamp (fewer.subset mem), sound.checking,
            sound.through, fun i other at_ => ?_, sound.counts⟩
          obtain ⟨through, place⟩ := sound.queued (i + 1) other (by rw [first]; exact at_)
          refine ⟨through, fun limit seq stage => ?_⟩
          have within := place limit seq stage
          change d.length + i ≤ _
          omega
      | true =>
          have after : d.step (.land true) = { d with appending := rest, records := d.records ++ [written call] } := by
            unfold Device.step
            simp only [first, if_true]
          have line : (d.step (.land true)).line = d.line := by
            rw [after]
            unfold Device.line
            rw [first]
            simp only [List.map_append, List.map_cons, List.map_nil, List.append_assoc, List.cons_append,
              List.nil_append]
            rfl
          have longer : (d.step (.land true)).length = d.length + 1 := by
            rw [after]
            unfold Device.length
            rw [List.length_append, List.length_singleton]
          have same (k : Nat) (positive : 1 ≤ k) (below : k < d.length) : (d.step (.land true)).stamps k = d.stamps k := by
            rw [after]
            exact stamps_append positive below
          have through (other : Call) (is : Through d other) : Through (d.step (.land true)) other := by
            intro limit seq stage
            obtain ⟨short, ok⟩ := is limit seq stage
            refine ⟨by omega, (judge_unwiped_congr fun k positive below => ?_).mpr ok⟩
            exact same k positive (by omega)
          refine ⟨line ▸ sound.order, line ▸ (by rw [after]; exact sound.seen), ?_, ?_, ?_, ?_⟩
          · intro other mem limit seq stage
            rw [after] at mem
            have short := sound.checking other mem limit seq stage
            omega
          · intro other mem
            rw [after] at mem
            exact through other (sound.through other mem)
          · intro i other at_
            rw [after] at at_
            obtain ⟨through_, place⟩ := sound.queued (i + 1) other (by rw [first]; exact at_)
            refine ⟨through other through_, fun limit seq stage => ?_⟩
            have within := place limit seq stage
            omega
          · intro seq record limit at_ by_
            rw [after] at at_
            rw [List.getElem?_append] at at_
            split at at_
            · refine (judge_unwiped_congr fun k positive below => ?_).mpr (sound.counts seq record limit at_ by_)
              exact same k positive (by unfold Device.length; omega)
            · obtain ⟨short, is⟩ := List.getElem?_eq_some_iff.mp at_
              rw [List.length_singleton] at short
              have here : seq + 1 = d.length := by
                unfold Device.length
                omega
              rw [List.getElem_singleton] at is
              subst is
              rw [here]
              refine (judge_unwiped_congr fun k positive below => ?_).mpr (sound.counts_next first by_)
              exact same k positive below

/-- Each event keeps the calls sound, those handed over in their turn. -/
theorem Sound.step (sound : Sound d) {event : Event} (inTurn : d.InTurn event) : Sound (d.step event) := by
  cases event with
  | take now replaces free => exact sound.take now replaces free
  | raise stamp =>
      exact ⟨sound.order, fun stamp' mem => le_trans (sound.seen stamp' mem) (le_max_left _ _), sound.checking,
        sound.through, sound.queued, sound.counts⟩
  | check stamp limit => exact sound.checked limit
  | answer stamp gone => exact sound.answered gone
  | ask stamp => exact sound.ask inTurn
  | land kept => exact sound.land kept
  | fail stamp =>
      exact sound.goOn (fun _ _ is => nomatch is) (fun _ _ _ is => nomatch is) fun _ _ _ is => nomatch is

theorem Opened.sound (opened : d.Opened) : Sound d := by
  have line : d.line = d.records.map Written.stamp := by
    unfold Device.line
    simp only [opened.calls, opened.appending, List.map_nil, List.append_nil]
  refine ⟨line ▸ opened.increasing, fun stamp mem => ?_, fun call mem => ?_, fun call mem => ?_, fun i call at_ => ?_,
    fun seq record limit at_ by_ => ?_⟩
  · rw [line] at mem
    obtain ⟨record, there, rfl⟩ := List.mem_map.mp mem
    exact opened.seen record there
  · rw [opened.calls] at mem
    cases mem
  · rw [opened.calls] at mem
    cases mem
  · rw [opened.appending] at at_
    cases at_
  · rw [opened.before record (List.mem_of_getElem? at_)] at by_
    cases by_

/-- Any number of calls, each handing its record over in its turn, keep the log's stamps in order, and
what the limit let through counts as the block it is.
-/
theorem writes_keep_laws (opened : d.Opened) {events : List Event} (inTurn : Each Device.step InTurn d events)
    : (events.foldl Device.step d).Increasing ∧ (events.foldl Device.step d).Counts := by
  have sound : Sound (events.foldl Device.step d) :=
    inTurn.keeps (fun _ _ sound turn => Sound.step sound turn) opened.sound
  exact ⟨(List.pairwise_append.mp (List.pairwise_append.mp sound.order).1).1, sound.counts⟩

end Device

-- Two at once

/-- A log of one record. -/
def begun : Device := ⟨5, [], [], [⟨5, none⟩]⟩

def hourly : WriteLimit := ⟨1, 1000⟩

/-- A put and a delete, the put checked first and written first. -/
def inTurn : List Event :=
  [.take 2000 0 false, .check 2000 (some hourly), .take 2000 0 true, .check 2001 (some hourly),
    .answer 2000 fun _ => false, .ask 2000, .land true, .ask 2001, .land true]

/-- The delete overtakes the put. -/
def overtaken : List Event :=
  [.take 2000 0 false, .take 2000 0 true, .check 2000 (some hourly), .check 2001 (some hourly), .ask 2001, .land true,
    .answer 2000 fun _ => false, .ask 2000, .land true]

/-- Two puts are checked as the same block. -/
def together : List Event :=
  [.take 2000 0 false, .take 2000 0 false, .check 2000 (some hourly), .check 2001 (some hourly),
    .answer 2000 fun _ => false, .answer 2001 fun _ => false, .ask 2000, .land true, .ask 2001, .land true]

theorem opened_begun : begun.Opened :=
  ⟨rfl, rfl, List.pairwise_singleton _ _, by decide, by decide⟩

/-- How the calls stand when each of the two hands its record over, one after the other. -/
theorem handed_over
    : ((inTurn.take 5).foldl Device.step begun).calls
        = [⟨2000, false, .through (some (hourly, 2))⟩, ⟨2001, true, .through none⟩]
      ∧ ((inTurn.take 5).foldl Device.step begun).length
        + ((inTurn.take 5).foldl Device.step begun).appending.length = 2
      ∧ ((inTurn.take 7).foldl Device.step begun).calls = [⟨2001, true, .through none⟩] := by
  decide +kernel

theorem each_inTurn : Each Device.step Device.InTurn begun inTurn := by
  obtain ⟨calls, place, later⟩ := handed_over
  refine ⟨trivial, trivial, trivial, trivial, trivial, ?_, trivial, ?_, trivial, trivial⟩
  · intro call mem is
    have first : call = ⟨2000, false, .through (some (hourly, 2))⟩ := by
      change call ∈ ((inTurn.take 5).foldl Device.step begun).calls at mem
      rw [calls] at mem
      rcases List.mem_cons.mp mem with first | second
      · exact first
      · rw [List.mem_singleton.mp second] at is
        exact absurd is (by decide)
    rw [first]
    refine ⟨fun other there => ?_, fun limit seq stage => ?_⟩
    · change other ∈ ((inTurn.take 5).foldl Device.step begun).calls at there
      rw [calls] at there
      rcases List.mem_cons.mp there with rfl | second
      · exact le_refl _
      · rw [List.mem_singleton.mp second]
        decide
    · cases stage
      exact place.le
  · intro call mem is
    change call ∈ ((inTurn.take 7).foldl Device.step begun).calls at mem
    rw [later] at mem
    rw [List.mem_singleton.mp mem]
    refine ⟨fun other there => ?_, fun limit seq stage => nomatch stage⟩
    change other ∈ ((inTurn.take 7).foldl Device.step begun).calls at there
    rw [later] at there
    rw [List.mem_singleton.mp there]

theorem writes_keep_laws_inTurn
    : (inTurn.foldl Device.step begun).Increasing ∧ (inTurn.foldl Device.step begun).Counts :=
  Device.writes_keep_laws opened_begun each_inTurn

theorem landed
    : (overtaken.foldl Device.step begun).records = [⟨5, none⟩, ⟨2001, none⟩, ⟨2000, some hourly⟩]
      ∧ (together.foldl Device.step begun).records = [⟨5, none⟩, ⟨2000, some hourly⟩, ⟨2001, some hourly⟩]
      ∧ judge 3 2001 (some hourly) (wiped (together.foldl Device.step begun).stamps fun _ => false) = .over_ := by
  decide +kernel

/-- A call may overtake another one, and of two checked at once the second counts for nobody. -/
theorem calls_overtake
    : begun.Opened ∧ ¬ (overtaken.foldl Device.step begun).Increasing
      ∧ ¬ (together.foldl Device.step begun).Counts := by
  obtain ⟨overtaken_, together_, late⟩ := landed
  refine ⟨opened_begun, fun increasing => ?_, fun counts => ?_⟩
  · unfold Device.Increasing at increasing
    rw [overtaken_] at increasing
    exact absurd increasing (by decide)
  · have ok := counts 2 ⟨2001, some hourly⟩ hourly (by rw [together_]; rfl) rfl
    exact nomatch late.symm.trans ok

end Hypergraph.Writing
