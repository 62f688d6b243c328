import Hypergraph.Reading.Entries
import Hypergraph.Lib.Dict
import Hypergraph.Lib.Runs

/-! Activity entries of a log read whole, while its records are deleted or taken down: blocks are
wiped, an entry starting right after one is to start earlier (`lib/space.js`, `#clear` and
`#wipedEntry`), and deriving goes on (`lib/index/indexer.js`, `#derive`). Both wait at several
places, where the other may go on. The log is one without a write limit, so no block of it is
dropped to keep within one.
-/

namespace Hypergraph.Reading

open Encodings Js

-- A log's blocks and entries

/-- What a device has of a block; a held one may be `garbled`: it doesn't decode. -/
inductive Seen
  | missing
  | stamped (stamp : Nat)
  | garbled
  | wiped
  deriving DecidableEq

namespace Seen

/-- Its stamp, as `stampOf` reads it; nothing for a block not held. -/
def block : Seen → Option Block
  | missing => none
  | stamped stamp => some (.stamped stamp)
  | garbled | wiped => some .wiped

def held : Seen → Bool
  | stamped _ | garbled => true
  | missing | wiped => false

end Seen

/-- A log read from its first block on: its blocks, where deriving stands (`log.act`), the kept
entries by their periods, the stamps the batch under way has read, and what is under way.
-/
structure Log where
  blocks : Nat → Seen
  next : Nat
  last : Nat
  period : Option Nat
  rows : Nat → Option Nat
  stamps : Nat → Option Block
  /-- `#derive`: from `log.act` as it was when it began. -/
  under : Option Derived
  /-- Its entries, when `log.act` is set, until they are in the index. -/
  found : List (Nat × Nat)
  /-- Blocks being wiped, and where an entry right after one is to start, once that is found. -/
  wiping : Dict Nat (Option Nat)

/-- A log just opened. -/
def Log.opened : Log where
  blocks _ := .missing
  next := 1
  last := 0
  period := none
  rows _ := none
  stamps _ := none
  under := none
  found := []
  wiping := .empty

namespace Log

/-- Where an entry starts that can't start after block `seq`: after the last readable block. -/
def startBefore (blocks : Nat → Seen) : Nat → Nat
  | 0 => 0
  | 1 => 1
  | start + 2 => if (blocks (start + 1)).held then start + 2 else startBefore blocks (start + 1)

/-- A new entry is kept, or a lower start of one. -/
def keep (rows : Nat → Option Nat) (entry : Nat × Nat) : Nat → Option Nat :=
  match rows entry.1 with
  | some old => if old ≤ entry.2 then rows else Function.update rows entry.1 (some entry.2)
  | none => Function.update rows entry.1 (some entry.2)

/-- A block as deriving sees it: as the batch has read it, else as it is here. -/
def shown (log : Log) (seq : Nat) : Option Block :=
  (log.stamps seq).or (log.blocks seq).block

end Log

/-- What happens to a log: a block arrives (one with no stamp doesn't decode), a batch reads blocks,
and each part of deriving entries and of wiping a record's block.
-/
inductive Step
  | arrive (seq : Nat) (stamp : Option Nat)
  | read (seqs : List Nat)
  /-- `#derive`: `log.act` is read. -/
  | derive
  /-- So many more blocks are looked at. -/
  | look (count : Nat)
  /-- `log.act` is set, if any block was; the batch's stamps are done with. -/
  | derived
  /-- The entries are put in the index. -/
  | kept
  /-- `#clear`: the block is wiped from this device. -/
  | wipe (seq : Nat)
  /-- `#wipedEntry`: it is found where an entry can start that can't after the block. -/
  | tell (seq : Nat)
  /-- Deriving goes on from there. -/
  | move (seq : Nat)
  /-- The entry right after the block, told by the next block's stamp, starts there. -/
  | row (seq : Nat)

namespace Log

/-- The end of `#wipedEntry`. -/
def moveRow (log : Log) (seq start : Nat) : Nat → Option Nat :=
  match log.blocks (seq + 1) with
  | .stamped stamp =>
      if log.rows (periodOf stamp) = some (seq + 1) then
        Function.update log.rows (periodOf stamp) (some start)
      else log.rows
  | _ => log.rows

def act (log : Log) : Step → Log
  | .arrive seq stamp =>
      if log.blocks seq = .missing then
        { log with blocks := Function.update log.blocks seq (stamp.elim .garbled .stamped) }
      else log
  | .read seqs =>
      { log with
        stamps := fun seq =>
          if seqs.contains seq && (log.blocks seq).held then (log.blocks seq).block else none }
  | .derive => { log with under := log.under.or (some ⟨[], log.next, log.last, log.period⟩) }
  | .look count => { log with under := log.under.map (derive log.shown count) }
  | .derived =>
      match log.under with
      | none => log
      | some res =>
          let log := { log with under := none, stamps := fun _ => none }
          if res.next = log.next then log
          else
            { log with
              next := res.next
              last := res.last
              period := res.period
              found := log.found ++ res.entries }
  | .kept => { log with rows := log.found.foldl keep log.rows, found := [] }
  | .wipe 0 => log
  | .wipe (seq + 1) =>
      { log with
        blocks := Function.update log.blocks (seq + 1) .wiped
        wiping := log.wiping.put (seq + 1) none }
  | .tell seq =>
      if log.wiping.get? seq = some none then
        { log with wiping := log.wiping.put seq (some (startBefore log.blocks seq)) }
      else log
  | .move seq =>
      match log.wiping.get? seq with
      | some (some start) => if log.last = seq then { log with last := start - 1 } else log
      | _ => log
  | .row seq =>
      match log.wiping.get? seq with
      | some (some start) =>
          { log with rows := log.moveRow seq start, wiping := log.wiping.remove seq }
      | _ => log

def run (steps : List Step) : Log := steps.foldl act opened

/-- An entry can be confirmed by whoever holds the same blocks: the block before its start is the
header, or a readable record of an earlier period, and its check passes.
-/
structure Provable (log : Log) (period start : Nat) : Prop where
  pos : 0 < start
  earlier : start = 1
    ∨ ∃ stamp, log.blocks (start - 1) = .stamped stamp ∧ periodOf stamp < period
  checks : ∀ key, ∀ limit : ℕ∞, start < limit
    → (⟨key, period, start⟩ : Entry).Holds (fun seq => (log.blocks seq).block) limit

/-- Where an entry is to start that can't after block `seq` is right after the last block held before,
still, and that one decodes.
-/
structure Tells (log : Log) (seq start : Nat) : Prop where
  still : start = startBefore log.blocks seq
  decodes : start = 1 ∨ ∃ stamp, log.blocks (start - 1) = .stamped stamp

/-- The last part of `#wipedEntry` gets by: a kept entry right after the block can be told and moved,
deriving doesn't stand at the block, and it has found no entry right after it.
-/
structure Movable (log : Log) (seq start : Nat) : Prop where
  after_ : ∀ period, log.rows period = some (seq + 1) →
    (∃ stamp, log.blocks (seq + 1) = .stamped stamp) ∧ log.Tells seq start
  last : log.last ≠ seq
  under : ∀ res, log.under = some res → res.last ≠ seq ∧ ∀ entry ∈ res.entries, entry.2 ≠ seq + 1
  found : ∀ entry ∈ log.found, entry.2 ≠ seq + 1

/-- When a step keeps the entries provable: no block is looked at by a stamp that was read before it
was wiped, and deriving and the entry after a wiped block can be moved.
-/
def Meets (log : Log) : Step → Prop
  | .look count => ∀ res, log.under = some res → ∀ seq, res.next ≤ seq → seq < res.next + count →
      log.blocks seq = .wiped → log.stamps seq = none ∨ log.stamps seq = some .wiped
  | .move seq => ∀ start, log.wiping.get? seq = some (some start) → log.last = seq → log.Tells seq start
  | .row seq => ∀ start, log.wiping.get? seq = some (some start) → log.Movable seq start
  | _ => True

end Log

-- What holds of a log

/-- Where deriving stands: all blocks before are here or wiped, the last readable one is (or is being
wiped), and no record before is of a later period than the one it is in.
-/
structure Stands (blocks : Nat → Seen) (gone : Nat → Prop) (next last : Nat) (period : Option Nat)
    : Prop where
  ahead : last < next
  present : ∀ seq, 0 < seq → seq < next → blocks seq ≠ .missing
  bounded : ∀ seq stamp, 0 < seq → seq < next → blocks seq = .stamped stamp
    → ∃ old, period = some old ∧ periodOf stamp ≤ old
  readable : last ≠ 0 → (∃ stamp, blocks last = .stamped stamp) ∨ gone last
  unreadable : ∀ seq, last < seq → seq < next → ∀ stamp, blocks seq ≠ .stamped stamp

/-- What is so of an entry. -/
structure RowStands (blocks : Nat → Seen) (gone : Nat → Prop) (next period start : Nat) : Prop where
  pos : 0 < start
  within : start < next
  before_ : start ≠ 1 → (∃ stamp, blocks (start - 1) = .stamped stamp) ∨ gone (start - 1)
  here : ∀ stamp, blocks start = .stamped stamp → periodOf stamp = period
  earlier : ∀ seq stamp, 0 < seq → seq < start → blocks seq = .stamped stamp
    → periodOf stamp < period

/-- A block is being wiped. -/
def Log.Gone (log : Log) (seq : Nat) : Prop := log.wiping.get? seq ≠ none

/-- What holds of a log after any steps. -/
structure Log.Sound (log : Log) : Prop where
  stands : Stands log.blocks log.Gone log.next log.last log.period
  rows : ∀ period start, log.rows period = some start →
    RowStands log.blocks log.Gone log.next period start
  stamps : ∀ seq shown, log.stamps seq = some shown
    → log.blocks seq = .wiped ∨ (log.blocks seq).block = some shown
  under : ∀ res, log.under = some res → log.next ≤ res.next
    ∧ Stands log.blocks log.Gone res.next res.last res.period
    ∧ ∀ entry ∈ res.entries, RowStands log.blocks log.Gone res.next entry.1 entry.2
  found : ∀ entry ∈ log.found, RowStands log.blocks log.Gone log.next entry.1 entry.2
  wiped : ∀ seq, log.Gone seq → 0 < seq ∧ log.blocks seq = .wiped

section Deriving

variable {blocks : Nat → Seen} {gone : Nat → Prop} {next last : Nat} {period : Option Nat}
  {get : Nat → Option Block}

theorem RowStands.later {p start next' : Nat} (row : RowStands blocks gone next p start)
    (more : next ≤ next')
    : RowStands blocks gone next' p start :=
  { row with within := Nat.lt_of_lt_of_le row.within more }

/-- A record of a later period starts its entry after the last readable block. -/
theorem Stands.row (stands : Stands blocks gone next last period) {stamp : Nat}
    (here : blocks next = .stamped stamp) (later : ∀ old, period = some old → old < periodOf stamp)
    : RowStands blocks gone (next + 1) (periodOf stamp) (last + 1) := by
  have ahead := stands.ahead
  constructor
  · exact Nat.succ_pos _
  · omega
  · intro other
    exact stands.readable fun header => other (by rw [header])
  · intro stamp' found
    rcases Nat.lt_or_ge (last + 1) next with inside | outside
    · exact absurd found (stands.unreadable (last + 1) (Nat.lt_succ_self _) inside stamp')
    · have same : last + 1 = next := by omega
      rw [same, here] at found
      cases found
      rfl
  · intro seq stamp' pos before_ found
    obtain ⟨old, is, early⟩ := stands.bounded seq stamp' pos (by omega) found
    exact Nat.lt_of_le_of_lt early (later old is)

/-- A record looked at. -/
theorem Stands.stamped (stands : Stands blocks gone next last period) {stamp now : Nat}
    (here : blocks next = .stamped stamp) (reaches : periodOf stamp ≤ now)
    (grows : ∀ old, period = some old → old ≤ now)
    : Stands blocks gone (next + 1) next (some now) := by
  constructor
  · exact Nat.lt_succ_self _
  · intro seq pos before_
    rcases Nat.lt_succ_iff_lt_or_eq.mp before_ with inside | rfl
    · exact stands.present seq pos inside
    · rw [here]
      simp
  · intro seq stamp' pos before_ found
    rcases Nat.lt_succ_iff_lt_or_eq.mp before_ with inside | rfl
    · obtain ⟨old, is, early⟩ := stands.bounded seq stamp' pos inside found
      exact ⟨now, rfl, Nat.le_trans early (grows old is)⟩
    · rw [here] at found
      cases found
      exact ⟨now, rfl, reaches⟩
  · exact fun _ => .inl ⟨stamp, here⟩
  · intro seq after_ before_
    omega

theorem Stands.wiped (stands : Stands blocks gone next last period)
    (here : (blocks next).block = some .wiped)
    : Stands blocks gone (next + 1) last period := by
  have unread (stamp : Nat) : blocks next ≠ .stamped stamp := by
    intro is
    rw [is] at here
    cases here
  constructor
  · exact Nat.lt_succ_of_lt stands.ahead
  · intro seq pos before_
    rcases Nat.lt_succ_iff_lt_or_eq.mp before_ with inside | rfl
    · exact stands.present seq pos inside
    · intro is
      rw [is] at here
      cases here
  · intro seq stamp pos before_ found
    rcases Nat.lt_succ_iff_lt_or_eq.mp before_ with inside | rfl
    · exact stands.bounded seq stamp pos inside found
    · exact absurd found (unread stamp)
  · exact stands.readable
  · intro seq after_ before_ stamp
    rcases Nat.lt_succ_iff_lt_or_eq.mp before_ with inside | rfl
    · exact stands.unreadable seq after_ inside stamp
    · exact unread stamp

/-- What is derived from blocks as they are stands, and so do its entries; induction on the
blocks looked at.
-/
theorem Stands.derive {count : Nat} {derived : Derived}
    (stands : Stands blocks gone derived.next derived.last derived.period)
    (rows : ∀ entry ∈ derived.entries, RowStands blocks gone derived.next entry.1 entry.2)
    (shows : ∀ seq, derived.next ≤ seq → seq < derived.next + count
      → get seq = (blocks seq).block)
    : let res := Reading.derive get count derived
      Stands blocks gone res.next res.last res.period ∧ derived.next ≤ res.next
        ∧ ∀ entry ∈ res.entries, RowStands blocks gone res.next entry.1 entry.2 := by
  induction count generalizing derived with
  | zero => exact ⟨stands, Nat.le_refl _, rows⟩
  | succ count ih =>
      have on {d : Derived} (next : d.next = derived.next + 1)
          (stands : Stands blocks gone d.next d.last d.period)
          (rows : ∀ entry ∈ d.entries, RowStands blocks gone d.next entry.1 entry.2)
          : let res := Reading.derive get count d
            Stands blocks gone res.next res.last res.period ∧ derived.next ≤ res.next
              ∧ ∀ entry ∈ res.entries, RowStands blocks gone res.next entry.1 entry.2 := by
        have shows' : ∀ seq, d.next ≤ seq → seq < d.next + count
            → get seq = (blocks seq).block :=
          fun seq from_ to_ => shows seq (by omega) (by omega)
        obtain ⟨first, more, second⟩ := ih stands rows shows'
        exact ⟨first, by omega, second⟩
      have here := shows derived.next (Nat.le_refl _) (by omega)
      have older : ∀ entry ∈ derived.entries,
          RowStands blocks gone (derived.next + 1) entry.1 entry.2 :=
        fun entry listed => (rows entry listed).later (Nat.le_succ _)
      unfold Reading.derive
      cases found : get derived.next with
      | none => exact ⟨stands, Nat.le_refl _, rows⟩
      | some shown =>
          rw [found] at here
          cases shown with
          | wiped => exact on rfl (stands.wiped here.symm) older
          | stamped stamp =>
              have block : blocks derived.next = .stamped stamp := by
                cases is : blocks derived.next with
                | stamped stamp' =>
                    rw [is] at here
                    cases here
                    rfl
                | missing | garbled | wiped =>
                    rw [is] at here
                    cases here
              dsimp only
              split
              · rename_i later
                refine on rfl (stands.stamped block (Nat.le_refl _)
                  fun old is => Nat.le_of_lt (later old is)) fun entry listed => ?_
                rcases List.mem_append.mp listed with before_ | last
                · exact older entry before_
                · obtain rfl := List.mem_singleton.mp last
                  exact stands.row block later
              · rename_i same
                obtain ⟨old, is, early⟩ : ∃ old, derived.period = some old
                    ∧ periodOf stamp ≤ old := by
                  simpa [Derived.later] using same
                refine on rfl ?_ older
                have stands' := stands.stamped block early fun old' is' =>
                  Nat.le_of_eq (Option.some.inj (is'.symm.trans is))
                rwa [← is] at stands'

/-- Entries kept are those before, or new ones. -/
theorem foldl_keep {entries : List (Nat × Nat)} {rows : Nat → Option Nat} {period start : Nat}
    (found : entries.foldl Log.keep rows period = some start)
    : rows period = some start ∨ (period, start) ∈ entries := by
  induction entries generalizing rows with
  | nil => exact .inl found
  | cons entry rest ih =>
      have one : Log.keep rows entry period = some start
          → rows period = some start ∨ (period, start) = entry := by
        intro kept
        have put : Function.update rows entry.1 (some entry.2) period = some start
            → rows period = some start ∨ (period, start) = entry := by
          intro is
          by_cases same : period = entry.1
          · subst same
            simp only [Function.update_self, Option.some.injEq] at is
            exact .inr (by rw [← is])
          · rw [Function.update_of_ne same] at is
            exact .inl is
        unfold Log.keep at kept
        cases old : rows entry.1 with
        | none =>
            rw [old] at kept
            exact put kept
        | some before_ =>
            rw [old] at kept
            by_cases lower : before_ ≤ entry.2
            · exact .inl (by simpa [lower] using kept)
            · exact put (by simpa [lower] using kept)
      rcases ih found with before_ | later
      · rcases one before_ with old | new
        · exact .inl old
        · exact .inr (new ▸ List.mem_cons_self)
      · exact .inr (List.mem_cons_of_mem _ later)

end Deriving

-- Each step

section Wiping

variable {blocks blocks' : Nat → Seen} {gone gone' : Nat → Prop} {log : Log}

/-- The start found is at most the one looked for; what is before it is the header or held, and
nothing from there on is.
-/
theorem startBefore_spec (blocks : Nat → Seen) {start : Nat} (pos : 0 < start)
    : 0 < Log.startBefore blocks start ∧ Log.startBefore blocks start ≤ start
      ∧ (Log.startBefore blocks start = 1
        ∨ (blocks (Log.startBefore blocks start - 1)).held = true)
      ∧ ∀ k, Log.startBefore blocks start ≤ k → k < start → (blocks k).held = false := by
  induction start using Log.startBefore.induct blocks with
  | case1 => cases pos
  | case2 =>
      refine ⟨Nat.one_pos, Nat.le_refl _, .inl rfl, fun k from_ to_ => ?_⟩
      exact absurd (Nat.lt_of_le_of_lt from_ to_) (Nat.lt_irrefl 1)
  | case3 start held =>
      simp only [Log.startBefore, held, if_true]
      exact ⟨Nat.succ_pos _, Nat.le_refl _, .inr held, fun k from_ to_ => by omega⟩
  | case4 start unheld ih =>
      obtain ⟨pos', least, before_, none_⟩ := ih (Nat.succ_pos _)
      unfold Log.startBefore
      rw [if_neg unheld]
      refine ⟨pos', by omega, before_, fun k from_ to_ => ?_⟩
      rcases Nat.lt_succ_iff_lt_or_eq.mp to_ with inside | rfl
      · exact none_ k from_ inside
      · simpa using unheld

/-- Blocks that were looked at stay, or are wiped; and what is being wiped goes on. -/
structure Later (blocks blocks' : Nat → Seen) (gone gone' : Nat → Prop) : Prop where
  blocks : ∀ seq, blocks seq ≠ .missing → blocks' seq = blocks seq ∨ blocks' seq = .wiped ∧ gone' seq
  gone : ∀ seq, gone seq → gone' seq

theorem Later.stamped (later : Later blocks blocks' gone gone') {seq stamp : Nat}
    (present : blocks seq ≠ .missing) (found : blocks' seq = .stamped stamp)
    : blocks seq = .stamped stamp := by
  rcases later.blocks seq present with same | ⟨wiped, _⟩
  · exact same.symm.trans found
  · exact nomatch wiped.symm.trans found

theorem Later.readable (later : Later blocks blocks' gone gone') {seq : Nat}
    (readable : (∃ stamp, blocks seq = .stamped stamp) ∨ gone seq)
    : (∃ stamp, blocks' seq = .stamped stamp) ∨ gone' seq := by
  rcases readable with ⟨stamp, here⟩ | going
  · rcases later.blocks seq (by rw [here]; simp) with same | ⟨_, now⟩
    · exact .inl ⟨stamp, same.trans here⟩
    · exact .inr now
  · exact .inr (later.gone seq going)

theorem Stands.change {next last : Nat} {period : Option Nat}
    (stands : Stands blocks gone next last period) (later : Later blocks blocks' gone gone')
    : Stands blocks' gone' next last period := by
  constructor
  · exact stands.ahead
  · intro seq pos before_ missing
    rcases later.blocks seq (stands.present seq pos before_) with same | ⟨wiped, _⟩
    · exact stands.present seq pos before_ (same.symm.trans missing)
    · exact nomatch wiped.symm.trans missing
  · intro seq stamp pos before_ found
    exact stands.bounded seq stamp pos before_ (later.stamped (stands.present seq pos before_) found)
  · exact fun other => later.readable (stands.readable other)
  · intro seq after_ before_ stamp found
    have pos := Nat.zero_lt_of_lt after_
    exact stands.unreadable seq after_ before_ stamp
      (later.stamped (stands.present seq pos before_) found)

theorem RowStands.change {next period start last : Nat} {at_ : Option Nat}
    (row : RowStands blocks gone next period start) (stands : Stands blocks gone next last at_)
    (later : Later blocks blocks' gone gone')
    : RowStands blocks' gone' next period start := by
  have within := row.within
  have pos := row.pos
  constructor
  · exact pos
  · exact within
  · exact fun other => later.readable (row.before_ other)
  · intro stamp found
    exact row.here stamp (later.stamped (stands.present start pos within) found)
  · intro seq stamp pos' before_ found
    exact row.earlier seq stamp pos' before_
      (later.stamped (stands.present seq pos' (by omega)) found)

/-- A block arrives, or is wiped, or it is found where an entry can start. -/
theorem Log.Sound.change (sound : log.Sound) {wiping : Dict Nat (Option Nat)}
    (later : Later log.blocks blocks' log.Gone fun seq => wiping.get? seq ≠ none)
    (wiped : ∀ seq, wiping.get? seq ≠ none → 0 < seq ∧ blocks' seq = .wiped)
    : Log.Sound { log with blocks := blocks', wiping := wiping } where
  stands := sound.stands.change later
  rows period start found := (sound.rows period start found).change sound.stands later
  stamps seq shown found := by
    have read := sound.stamps seq shown found
    have present : log.blocks seq ≠ .missing := by
      rcases read with wiped | here
      · rw [wiped]
        exact nofun
      · intro missing
        rw [missing] at here
        exact nomatch here
    rcases later.blocks seq present with same | ⟨gone, _⟩
    · dsimp only
      rwa [same]
    · exact .inl gone
  under res is := by
    obtain ⟨ahead, stands, rows⟩ := sound.under res is
    exact ⟨ahead, stands.change later, fun entry mem => (rows entry mem).change stands later⟩
  found entry mem := (sound.found entry mem).change sound.stands later
  wiped := wiped

theorem Log.Sound.opened : Log.opened.Sound where
  stands := by
    have none_ (seq : Nat) (pos : 0 < seq) (before_ : seq < 1) : False := by omega
    exact ⟨Nat.one_pos, fun seq pos before_ => (none_ seq pos before_).elim,
      fun seq _ pos before_ => (none_ seq pos before_).elim, fun other => absurd rfl other,
      fun seq pos before_ => (none_ seq pos before_).elim⟩
  rows := fun _ _ found => nomatch found
  stamps := fun _ _ found => nomatch found
  under := fun _ is => nomatch is
  found := fun _ mem => nomatch mem
  wiped := fun _ gone => absurd rfl gone

theorem Log.Sound.look (sound : log.Sound) {count : Nat} (meets : log.Meets (.look count))
    : (log.act (.look count)).Sound := by
  refine { sound with under := fun res is => ?_ }
  obtain ⟨begun, underway, rfl⟩ := Option.map_eq_some_iff.mp is
  obtain ⟨ahead, stands, rows⟩ := sound.under begun underway
  have shows : ∀ seq, begun.next ≤ seq → seq < begun.next + count
      → log.shown seq = (log.blocks seq).block := by
    intro seq from_ to_
    unfold Log.shown
    cases read : log.stamps seq with
    | none => rfl
    | some shown =>
        rcases sound.stamps seq shown read with wiped | here
        · rcases meets begun underway seq from_ to_ wiped with unread | seen
          · exact nomatch read.symm.trans unread
          · cases read.symm.trans seen
            rw [wiped]
            rfl
        · rw [here]
          rfl
  obtain ⟨stands', more, rows'⟩ := stands.derive rows shows
  exact ⟨Nat.le_trans ahead more, stands', rows'⟩

theorem Log.Sound.derived (sound : log.Sound) : (log.act .derived).Sound := by
  unfold Log.act
  cases is : log.under with
  | none => exact sound
  | some res =>
      obtain ⟨ahead, stands, rows⟩ := sound.under res is
      dsimp only
      split
      · exact { sound with under := nofun, stamps := nofun }
      · refine ⟨stands, fun period start row => (sound.rows period start row).later ahead,
          nofun, nofun, fun entry mem => ?_, sound.wiped⟩
        rcases List.mem_append.mp mem with old | new
        · exact (sound.found entry old).later ahead
        · exact rows entry new

/-- Where the last readable block is wiped, the last held before is, from then on. -/
theorem Stands.moved {next start seq : Nat} {period : Option Nat}
    (stands : Stands log.blocks gone next seq period) (pos : 0 < seq) (wiped : log.blocks seq = .wiped)
    (tells : log.Tells seq start)
    : Stands log.blocks gone next (start - 1) period := by
  obtain ⟨start_, least, _, none_⟩ := startBefore_spec log.blocks pos
  rw [← tells.still] at start_ least none_
  have ahead := stands.ahead
  refine ⟨by omega, stands.present, stands.bounded, fun other => ?_, fun k after_ before_ stamp found => ?_⟩
  · exact .inl (tells.decodes.resolve_left (by omega))
  · rcases Nat.lt_trichotomy k seq with inside | rfl | outside
    · have unheld := none_ k (by omega) inside
      rw [found] at unheld
      exact nomatch unheld
    · exact nomatch wiped.symm.trans found
    · exact stands.unreadable k outside before_ stamp found

theorem Log.Sound.move (sound : log.Sound) {seq : Nat} (meets : log.Meets (.move seq))
    : (log.act (.move seq)).Sound := by
  unfold Log.act
  dsimp only
  split
  case h_2 => exact sound
  case h_1 start wiping =>
    split
    case isFalse => exact sound
    case isTrue here =>
      obtain ⟨pos, wiped⟩ := sound.wiped seq (by rw [Log.Gone, wiping]; exact nofun)
      subst here
      exact { sound with stands := sound.stands.moved pos wiped (meets start wiping rfl) }

/-- The entry right after a wiped block, started earlier. -/
theorem RowStands.moved {next period seq start : Nat} (row : RowStands log.blocks gone next period (seq + 1))
    (pos : 0 < seq) (wiped : log.blocks seq = .wiped) (tells : log.Tells seq start)
    : RowStands log.blocks gone' next period start := by
  obtain ⟨start_, least, _, none_⟩ := startBefore_spec log.blocks pos
  rw [← tells.still] at start_ least none_
  have within := row.within
  refine ⟨start_, by omega, fun other => .inl (tells.decodes.resolve_left other), fun stamp found => ?_,
    fun k stamp pos' before_ found => row.earlier k stamp pos' (by omega) found⟩
  rcases Nat.lt_or_eq_of_le least with inside | rfl
  · have unheld := none_ start (Nat.le_refl _) inside
    rw [found] at unheld
    exact nomatch unheld
  · exact nomatch wiped.symm.trans found

/-- An entry stays, or is the one right after the block of the record there. -/
theorem of_moveRow {seq start period begin_ : Nat} (found : log.moveRow seq start period = some begin_)
    : (log.rows period = some begin_ ∧ (begin_ = seq + 1 → ∀ stamp, log.blocks (seq + 1) = .stamped stamp →
          periodOf stamp ≠ period))
      ∨ begin_ = start ∧ log.rows period = some (seq + 1) := by
  unfold Log.moveRow at found
  cases block : log.blocks (seq + 1) with
  | missing | garbled | wiped =>
      rw [block] at found
      exact .inl ⟨found, fun _ _ here => nomatch here⟩
  | stamped stamp =>
      simp only [block] at found
      split at found
      case isFalse stays =>
        refine .inl ⟨found, fun start_ stamp' here is => ?_⟩
        cases here
        rw [is, found, start_] at stays
        exact stays rfl
      case isTrue moves =>
        by_cases same : period = periodOf stamp
        · subst same
          rw [Function.update_self] at found
          exact .inr ⟨(Option.some.inj found).symm, moves⟩
        · rw [Function.update_of_ne same] at found
          refine .inl ⟨found, fun _ stamp' here is => ?_⟩
          cases here
          exact same is.symm

theorem Log.Sound.row (sound : log.Sound) {seq : Nat} (meets : log.Meets (.row seq))
    : (log.act (.row seq)).Sound := by
  unfold Log.act
  dsimp only
  split
  case h_2 => exact sound
  case h_1 start wiping =>
    have movable := meets start wiping
    obtain ⟨pos, wiped⟩ := sound.wiped seq (by rw [Log.Gone, wiping]; exact nofun)
    -- What is being wiped besides goes on.
    have still {k : Nat} (gone : log.Gone k) (other : k ≠ seq)
        : (log.wiping.remove seq).get? k ≠ none := by
      rwa [Dict.get?_remove, if_neg other]
    have entry {next period begin_ : Nat} (row : RowStands log.blocks log.Gone next period begin_)
        (other : begin_ ≠ seq + 1)
        : RowStands log.blocks (fun k => (log.wiping.remove seq).get? k ≠ none) next period begin_ :=
      have apart : begin_ - 1 ≠ seq := fun same => other (by rw [← same, Nat.sub_add_cancel row.pos])
      { row with before_ := fun more => (row.before_ more).imp_right fun gone => still gone apart }
    have stands {next last : Nat} {period : Option Nat} (at_ : Stands log.blocks log.Gone next last period)
        (other : last ≠ seq)
        : Stands log.blocks (fun k => (log.wiping.remove seq).get? k ≠ none) next last period :=
      { at_ with readable := fun more => (at_.readable more).imp_right fun gone => still gone other }
    refine ⟨stands sound.stands movable.last, fun period begin_ found => ?_, sound.stamps,
      fun res is => ?_, fun e mem => entry (sound.found e mem) (movable.found e mem), fun k gone => ?_⟩
    · rcases of_moveRow found with ⟨row, untold⟩ | ⟨rfl, row⟩
      · refine entry (sound.rows period begin_ row) fun same => ?_
        subst same
        -- The entry is one of the record there, so it is the one that is moved.
        obtain ⟨⟨stamp, here⟩, _⟩ := movable.after_ period row
        exact untold rfl stamp here ((sound.rows period _ row).here stamp here)
      · exact (sound.rows period _ row).moved pos wiped (movable.after_ _ row).2
    · obtain ⟨ahead, at_, rows⟩ := sound.under res is
      obtain ⟨last, apart⟩ := movable.under res is
      exact ⟨ahead, stands at_ last, fun e mem => entry (rows e mem) (apart e mem)⟩
    · by_cases same : k = seq
      · rw [same]
        exact ⟨pos, wiped⟩
      · exact sound.wiped k fun none_ => gone (Dict.get?_remove.trans ((if_neg same).trans none_))

/-- One step. -/
theorem Log.Sound.act (sound : log.Sound) {step : Step} (meets : log.Meets step)
    : (log.act step).Sound := by
  cases step with
  | arrive seq stamp =>
      unfold Log.act
      dsimp only
      split
      case isFalse => exact sound
      case isTrue missing =>
        have other {k : Nat} (there : log.blocks k ≠ .missing) : k ≠ seq := fun same => there (same ▸ missing)
        refine sound.change ⟨fun k there => .inl (Function.update_of_ne (other there) ..), fun _ => id⟩
          fun k gone => ?_
        obtain ⟨pos, wiped⟩ := sound.wiped k gone
        exact ⟨pos, (Function.update_of_ne (other (by rw [wiped]; exact nofun)) ..).trans wiped⟩
  | read seqs =>
      refine { sound with stamps := fun seq shown found => ?_ }
      simp only [Log.act] at found
      split at found
      · exact .inr found
      · cases found
  | derive =>
      refine { sound with under := fun res is => ?_ }
      simp only [Log.act] at is
      cases old : log.under with
      | some begun =>
          rw [old, Option.some_or] at is
          exact sound.under res (old.trans is)
      | none =>
          rw [old, Option.none_or] at is
          cases is
          exact ⟨Nat.le_refl _, sound.stands, fun _ mem => nomatch mem⟩
  | look count => exact sound.look meets
  | derived => exact sound.derived
  | kept =>
      refine { sound with rows := fun period start row => ?_, found := fun _ mem => nomatch mem }
      rcases foldl_keep row with old | new
      · exact sound.rows period start old
      · exact sound.found (period, start) new
  | wipe seq =>
      cases seq with
      | zero => exact sound
      | succ seq =>
          refine sound.change ⟨fun k _ => ?_, fun k gone => ?_⟩ fun k gone => ?_
          · by_cases same : k = seq + 1
            · rw [same, Function.update_self, Dict.get?_put, if_pos rfl]
              exact .inr ⟨rfl, nofun⟩
            · exact .inl (Function.update_of_ne same ..)
          · rw [Dict.get?_put]
            split
            · exact nofun
            · exact gone
          · by_cases same : k = seq + 1
            · rw [same, Function.update_self]
              exact ⟨Nat.succ_pos seq, rfl⟩
            · rw [Dict.get?_put, if_neg same] at gone
              rw [Function.update_of_ne same]
              exact sound.wiped k gone
  | tell seq =>
      simp only [Log.act]
      split
      case isFalse => exact sound
      case isTrue begun =>
        have same (k : Nat)
            : (log.wiping.put seq (some (Log.startBefore log.blocks seq))).get? k ≠ none ↔ log.Gone k := by
          by_cases here : k = seq
          · simp [here, Log.Gone, begun]
          · rw [Dict.get?_put, if_neg here]
            rfl
        exact sound.change ⟨fun _ _ => .inl rfl, fun k => (same k).mpr⟩
          fun k gone => sound.wiped k ((same k).mp gone)
  | move seq => exact sound.move meets
  | row seq => exact sound.row meets

/-- Every step of a run meets the condition, on the log the steps before lead to. -/
def EachMeets (steps : List Step) : Prop := Runs.Each Log.act Log.Meets .opened steps

/-- A kept entry of a sound log is provable, where no block is being wiped. -/
theorem Log.Sound.provable (sound : log.Sound) {period start : Nat} (done : log.wiping = .empty)
    (kept : log.rows period = some start)
    : log.Provable period start := by
  have row := sound.rows period start kept
  have earlier : start = 1
      ∨ ∃ stamp, log.blocks (start - 1) = .stamped stamp ∧ periodOf stamp < period := by
    by_cases first : start = 1
    · exact .inl first
    · obtain ⟨stamp, readable⟩ := (row.before_ first).resolve_right fun gone => gone (by rw [done]; rfl)
      have pos := row.pos
      exact .inr ⟨stamp, readable, row.earlier _ stamp (by omega) (by omega) readable⟩
  refine ⟨row.pos, earlier, fun key limit counts => ?_⟩
  have here : checkAt period (log.blocks start).block = .ok := by
    cases block : log.blocks start with
    | stamped stamp => exact if_pos (Nat.le_of_eq (row.here stamp block).symm)
    | missing | garbled | wiped => rfl
  have open_ : ¬ (start = 0 ∨ limit ≤ (start : ℕ∞)) := by
    intro closed
    rcases closed with none_ | past
    · exact absurd none_ (Nat.pos_iff_ne_zero.mp row.pos)
    · exact absurd counts (not_lt.mpr past)
  unfold Entry.Holds checkEntry
  rw [if_neg open_]
  rcases earlier with first | ⟨stamp, readable, before_⟩
  · rw [if_pos first]
    exact here
  · split
    · exact here
    · simp only [readable, Seen.block]
      rw [if_neg (Nat.not_le.mpr before_)]
      exact here

/-- After any steps that meet the condition, where no block is being wiped, every entry kept can be
confirmed.
-/
theorem kept_entries_provable {steps : List Step} (meets : EachMeets steps)
    (done : (Log.run steps).wiping = .empty) {period start : Nat}
    (kept : (Log.run steps).rows period = some start)
    : (Log.run steps).Provable period start :=
  Log.Sound.provable (meets.keeps (fun _ _ sound here => sound.act here) .opened) done kept

end Wiping

/-- Two records, of two periods. -/
def arrives : List Step := [.arrive 1 (some 0), .arrive 2 (some PERIOD_MS)]

/-- Entries derived at a stretch. -/
def derives : List Step := [.derive, .look 2, .derived, .kept]

/-- A block wiped at a stretch. -/
def wipes (seq : Nat) : List Step := [.wipe seq, .tell seq, .move seq, .row seq]

/-- No block is being wiped any more, and an entry is kept that can't be confirmed. -/
def Loses (steps : List Step) : Prop :=
  (Log.run steps).wiping = .empty
  ∧ ¬ ∀ period start, (Log.run steps).rows period = some start → (Log.run steps).Provable period start

theorem loses_of_wiped {steps : List Step} (done : (Log.run steps).wiping = .empty)
    (row : (Log.run steps).rows 1 = some 2) (wiped : (Log.run steps).blocks 1 = .wiped)
    : Loses steps := by
  refine ⟨done, fun always => ?_⟩
  rcases (always 1 2 row).earlier with first | ⟨stamp, readable, _⟩
  · cases first
  · exact nomatch wiped.symm.trans readable

/-- Block 2 is wiped, then block 1: nothing tells any more which entry starts at block 2, so it stays
where it is, after a wiped block. Or block 1 is wiped while entries are derived.
-/
theorem entry_after_wiped_lost
    : Loses (arrives ++ derives ++ wipes 2 ++ wipes 1)
      ∧ Loses (arrives ++ [.derive, .look 2] ++ wipes 1 ++ [.derived, .kept]) :=
  ⟨loses_of_wiped (Dict.ext_entries (by decide)) (by decide) (by decide),
    loses_of_wiped (Dict.ext_entries (by decide)) (by decide) (by decide)⟩

/-- Block 1 is wiped, and the entry after it starts with the log. -/
theorem kept_entries_provable_moved
    : (Log.run (arrives ++ derives ++ wipes 1)).rows 1 = some 1
      ∧ (Log.run (arrives ++ derives ++ wipes 1)).Provable 1 1 := by
  refine ⟨by decide, @kept_entries_provable (arrives ++ derives ++ wipes 1) ⟨trivial, trivial, trivial,
    fun _ _ _ _ _ _ => .inl rfl, trivial, trivial, trivial, trivial, fun start wiping last => ?_,
    fun start wiping => ?_, trivial⟩ (Dict.ext_entries (by decide)) 1 1 (by decide)⟩
  · exact absurd last (by decide)
  · cases wiping
    exact ⟨fun _ _ => ⟨⟨PERIOD_MS, rfl⟩, rfl, .inl rfl⟩, by decide, nofun, nofun⟩

end Hypergraph.Reading
