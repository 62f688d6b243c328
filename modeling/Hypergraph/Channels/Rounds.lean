import Hypergraph.Channels.Pages
import Hypergraph.Lib.Mapping
import Mathlib.Algebra.Order.BigOperators.Group.List

/-! One segment of a page: where the cursors start, and what their rounds have shown when they end.
What a cursor has not read yet comes after the last message that can still be on the page.
-/

namespace Hypergraph.Channels.Pages

open Wire Js Encodings

-- The order as a rank

/-- A place's rank: time, then author, then seq. -/
def Place.rank (p : Place) : ℕ ×ₗ List ℕ ×ₗ ℕ := toLex (p.t, toLex (hexOrder p.author, p.seq))

section Order

variable {a b : Place}

theorem rank_lt_iff
    : a.rank < b.rank ↔ a.t < b.t ∨ a.t = b.t ∧ (hexOrder a.author < hexOrder b.author
        ∨ hexOrder a.author = hexOrder b.author ∧ a.seq < b.seq) := by
  unfold Place.rank
  rw [Prod.Lex.toLex_lt_toLex, Prod.Lex.toLex_lt_toLex]

theorem newer_pos_iff : 0 < newer a b ↔ b.rank < a.rank := by
  rw [rank_lt_iff]
  unfold newer
  by_cases times : (a.t : Int) - b.t ≠ 0
  · rw [if_pos times]
    constructor
    · intro above
      exact .inl (by omega)
    · rintro (below | ⟨same, _⟩) <;> omega
  · rw [if_neg times]
    have same : b.t = a.t := by omega
    rcases lt_trichotomy (hexOrder b.author) (hexOrder a.author) with below | equal | above
    · rw [if_pos below]
      exact ⟨fun _ => .inr ⟨same, .inl below⟩, fun _ => by decide⟩
    · rw [if_neg (equal ▸ lt_irrefl _), if_neg (equal ▸ lt_irrefl _)]
      constructor
      · intro later
        exact .inr ⟨same, .inr ⟨equal, by omega⟩⟩
      · rintro (below | ⟨_, below | ⟨_, below⟩⟩)
        · omega
        · exact absurd below (equal ▸ lt_irrefl _)
        · omega
    · rw [if_neg (not_lt_of_gt above), if_pos above]
      constructor
      · intro wrong
        exact absurd wrong (by decide)
      · rintro (below | ⟨_, below | ⟨equal, _⟩⟩)
        · omega
        · exact absurd below (not_lt_of_gt above)
        · exact absurd above (equal ▸ lt_irrefl _)

theorem newer_nonpos_iff : newer a b ≤ 0 ↔ a.rank ≤ b.rank := by
  rw [← not_lt, ← not_lt, newer_pos_iff]

def Shown.rank (s : Shown) : ℕ ×ₗ List ℕ ×ₗ ℕ := s.place.rank

theorem sort_eq (list : List Shown) : sort list = Newest.sort Shown.rank list := by
  unfold sort Newest.sort Shown.rank
  simp only [newer_nonpos_iff]

theorem rank_lt_of_t {s t : Shown} (below : s.t < t.t) : s.rank < t.rank := rank_lt_iff.mpr (.inl below)

end Order

-- What there is to show

section Cursors

variable (r : Reader) (record : Record) (beforeT : Option Rat)

/-- What is shown of a block, where it is older than `beforeT` and visible. -/
def shownAt (author log : Key) (seq : Nat) : Option Shown :=
  match (r.logs log).get seq with
  | some m =>
      if older beforeT m && r.visible author log seq m then some (r.shape record author log seq m) else none
  | none => none

variable {r record beforeT} {author log : Key} {seq : Nat} {s : Shown} {c : Cursor} {m : Message}

theorem shape_place : (r.shape record author log seq m).place = ⟨m.t, author, seq⟩ := by
  unfold Reader.shape
  cases m.content with
  | text text reply =>
      dsimp only
      split <;> rfl
  | sealed epoch nonce box =>
      dsimp only
      split <;> rfl

theorem of_shownAt (shown : shownAt r record beforeT author log seq = some s)
    : ∃ m, (r.logs log).get seq = some m ∧ older beforeT m = true ∧ r.visible author log seq m = true
        ∧ s.place = ⟨m.t, author, seq⟩ := by
  unfold shownAt at shown
  split at shown
  case h_2 => exact nomatch shown
  case h_1 m here =>
    split at shown
    case isFalse => exact nomatch shown
    case isTrue both =>
      obtain ⟨old, seen⟩ := Bool.and_eq_true_iff.mp both
      exact ⟨m, here, old, seen, Option.some.inj shown ▸ shape_place⟩

/-- Reading a message adds what is shown of it. -/
theorem shown_read (here : (r.logs c.entry.log).get seq = some m)
    : (c.read r record beforeT seq m).shown
      = c.shown ++ (shownAt r record beforeT c.entry.author c.entry.log seq).toList := by
  unfold Cursor.read shownAt
  rw [here]
  dsimp only
  split
  · rfl
  · exact (List.append_nil _).symm

-- What a batch reads

variable (r record beforeT) in
/-- A cursor has read some blocks and nothing else about it is new. -/
structure Cursor.Through (seqs : List Nat) (c c' : Cursor) : Prop where
  entry : c'.entry = c.entry
  next : c'.next = c.next
  done : c'.done = c.done
  top : c'.top = c.top
  shown : c'.shown = c.shown ++ seqs.filterMap (shownAt r record beforeT c.entry.author c.entry.log)
  oldest : ∀ seq, seqs.getLast? = some seq →
    ∃ m, (r.logs c.entry.log).get seq = some m ∧ c'.oldest = some ⟨m.t, c.entry.author, seq⟩

/-- Blocks that can be fetched are all read; induction on the blocks. -/
theorem readAll_through (seqs : List Nat) (c : Cursor)
    (fetched : ∀ seq ∈ seqs, ((r.logs c.entry.log).get seq).isSome)
    : (c.readAll r record beforeT seqs).2 = 0
      ∧ c.Through r record beforeT seqs (c.readAll r record beforeT seqs).1 := by
  induction seqs generalizing c with
  | nil => exact ⟨rfl, rfl, rfl, rfl, rfl, (List.append_nil _).symm, fun _ last => nomatch last⟩
  | cons seq seqs ih =>
      obtain ⟨m, here⟩ := Option.isSome_iff_exists.mp (fetched seq (.head _))
      obtain ⟨none_, through⟩ := ih (c.read r record beforeT seq m) fun s mem => fetched s (.tail _ mem)
      have first : c.readAll r record beforeT (seq :: seqs)
          = (c.read r record beforeT seq m).readAll r record beforeT seqs := by
        rw [Cursor.readAll, here]
      rw [first]
      refine ⟨none_, through.entry, through.next, through.done, through.top, ?_, ?_⟩
      · rw [through.shown, shown_read here, List.append_assoc]
        cases at_ : shownAt r record beforeT c.entry.author c.entry.log seq with
        | none => rw [List.filterMap_cons_none at_]; rfl
        | some s => rw [List.filterMap_cons_some at_]; rfl
      · intro last ends
        cases seqs with
        | nil =>
            cases ends
            exact ⟨m, here, rfl⟩
        | cons next seqs => exact through.oldest last ends

-- How far a cursor is

variable (r record beforeT) in
/-- A cursor with every block read so far fetched: it has shown what there is above `next`. -/
structure Cursor.Reading (c : Cursor) : Prop where
  fetched : ∀ seq : Nat, c.entry.start ≤ seq → seq ≤ c.top → ((r.logs c.entry.log).get seq).isSome
  next : c.next ≤ c.top
  done : c.done = decide (c.next < c.entry.start)
  from_ : c.next < c.top → (c.entry.start : Int) ≤ c.next + 1
  shown : c.shown = (List.range' (c.next + 1).toNat (c.top - c.next).toNat).reverse.filterMap
    (shownAt r record beforeT c.entry.author c.entry.log)
  oldest : c.next < c.top → ∃ m, (r.logs c.entry.log).get (c.next + 1).toNat = some m
    ∧ c.oldest = some ⟨m.t, c.entry.author, (c.next + 1).toNat⟩

/-- A cursor is further down the same author's messages. -/
structure Cursor.Ahead (c c' : Cursor) : Prop where
  entry : c'.entry = c.entry
  top : c'.top = c.top
  next : c'.next < c.next
  shown : c.shown.length ≤ c'.shown.length

/-- Blocks from `low` up to `top`, the newest first, are those above `next` and those down from it. -/
theorem reverse_range_append {low next top : Int} (zero : 0 ≤ low) (below : low ≤ next + 1)
    (above : next ≤ top)
    : (List.range' low.toNat (top - (low - 1)).toNat).reverse
      = (List.range' (next + 1).toNat (top - next).toNat).reverse
        ++ (List.range' low.toNat (next + 1 - low).toNat).reverse := by
  have first : (next + 1).toNat = low.toNat + (next + 1 - low).toNat := by omega
  have size : (top - (low - 1)).toNat = (next + 1 - low).toNat + (top - next).toNat := by omega
  rw [← List.reverse_append, first, size, List.range'_append_1]

/-- A batch of an author still in the running reads on. -/
theorem Cursor.Reading.readBatch {batch : Nat} (reading : c.Reading r record beforeT)
    (runs : c.done = false) (some_ : 0 < batch)
    : (c.readBatch r record beforeT batch).2 = 0
      ∧ (c.readBatch r record beforeT batch).1.Reading r record beforeT
      ∧ c.Ahead (c.readBatch r record beforeT batch).1 := by
  have left : (c.entry.start : Int) ≤ c.next :=
    not_lt.mp (of_decide_eq_false (reading.done.symm.trans runs))
  have within := reading.next
  obtain ⟨low, is⟩ : ∃ low, low = max (c.entry.start : Int) (c.next - batch + 1) := ⟨_, rfl⟩
  have above : (c.entry.start : Int) ≤ low := is ▸ le_max_left _ _
  have below : low ≤ c.next := is ▸ max_le left (by omega)
  obtain ⟨seqs, list⟩ : ∃ seqs, seqs = (List.range' low.toNat (c.next + 1 - low).toNat).reverse :=
    ⟨_, rfl⟩
  have bounds : ∀ seq ∈ seqs, c.entry.start ≤ seq ∧ (seq : Int) ≤ c.next := by
    intro seq mem
    rw [list, List.mem_reverse, List.mem_range'_1] at mem
    omega
  have fetched : ∀ seq ∈ seqs, ((r.logs c.entry.log).get seq).isSome :=
    fun seq mem => reading.fetched seq (bounds seq mem).1 ((bounds seq mem).2.trans within)
  obtain ⟨none_, through⟩ := @readAll_through r record beforeT seqs c fetched
  have result : c.readBatch r record beforeT batch
      = ({ (c.readAll r record beforeT seqs).1 with
            next := low - 1
            done := (c.readAll r record beforeT seqs).1.done
              || decide (low - 1 < (c.readAll r record beforeT seqs).1.entry.start) },
          (c.readAll r record beforeT seqs).2) := by
    rw [list, is]
    rfl
  generalize c.readAll r record beforeT seqs = read at none_ through result
  rw [result]
  have last : seqs.getLast? = some low.toNat := by
    have size : (c.next + 1 - low).toNat = (c.next - low).toNat + 1 := by omega
    rw [list, List.getLast?_reverse, size, List.range'_succ, List.head?_cons]
  obtain ⟨m, here, oldest⟩ := through.oldest _ last
  have more : read.1.shown = (List.range' low.toNat (c.top - (low - 1)).toNat).reverse.filterMap
      (shownAt r record beforeT c.entry.author c.entry.log) := by
    rw [through.shown, reading.shown, list, reverse_range_append (by omega) (by omega) within,
      List.filterMap_append]
  refine ⟨none_, ⟨?_, ?_, ?_, ?_, ?_, ?_⟩, ⟨through.entry, through.top, ?_, ?_⟩⟩
  · rw [through.entry, through.top]
    exact reading.fetched
  · dsimp only
    rw [through.top]
    omega
  · rw [through.done, runs, Bool.false_or]
  · dsimp only
    rw [through.entry]
    omega
  · rw [through.entry, through.top, more, Int.sub_add_cancel]
  · rw [through.entry, Int.sub_add_cancel]
    exact fun _ => ⟨m, here, oldest⟩
  · dsimp only
    omega
  · rw [through.shown, List.length_append]
    exact Nat.le_add_right _ _

end Cursors

-- Rounds

section Rounds

variable (r : Reader) (record : Record) (beforeT : Option Rat)

/-- Is an author in the running? As `running`, where nothing is thrown. -/
def Cursor.runs (threshold : Threshold) (c : Cursor) : Bool :=
  !c.done && match threshold, c.oldest with
    | .null, _ => true
    | .at_ (some last), some oldest => 0 < newer oldest last.place
    | .at_ _, _ => false

/-- A cursor after a round. -/
def Cursor.advance (threshold : Threshold) (batch : Nat) (c : Cursor) : Cursor :=
  if c.runs threshold then (c.readBatch r record beforeT batch).1 else c

/-- How many blocks a cursor may still read. -/
def Cursor.left (c : Cursor) : Nat := (c.next + 1 - c.entry.start).toNat

/-- Between two rounds: `shown` is what the cursors have shown, `threshold` its `need`-th if there are as
many, and then each author still in the running has been read.
-/
structure Stage (need : Nat) (threshold : Threshold) (shown : List Shown) (cursors : List Cursor) : Prop where
  reading : ∀ c ∈ cursors, c.Reading r record beforeT
  sorted : shown = sort (cursors.flatMap Cursor.shown)
  last : threshold = .null ∧ shown.length < need
    ∨ ∃ last, shown[need - 1]? = some last ∧ threshold = .at_ (some last)
  read : threshold = .null ∨ ∀ c ∈ cursors, c.done = false → c.next < c.top

variable {r record beforeT} {need batch : Nat} {threshold : Threshold} {shown : List Shown}
  {cursors : List Cursor} {c : Cursor}

theorem running_eq (reading : c.Reading r record beforeT)
    (plain : threshold = .null ∨ ∃ last, threshold = .at_ (some last))
    (read : threshold = .null ∨ (c.done = false → c.next < c.top))
    : c.running threshold = .ok (c.runs threshold) := by
  unfold Cursor.running Cursor.runs
  cases done : c.done with
  | true => rfl
  | false =>
      rcases plain with rfl | ⟨last, rfl⟩
      · rfl
      · have began := read.resolve_left (fun null => nomatch null) done
        obtain ⟨m, _, oldest⟩ := reading.oldest began
        rw [oldest]
        rfl

theorem Stage.plain (stage : Stage r record beforeT need threshold shown cursors)
    : threshold = .null ∨ ∃ last, threshold = .at_ (some last) := by
  rcases stage.last with ⟨null, _⟩ | ⟨last, _, is⟩
  · exact .inl null
  · exact .inr ⟨last, is⟩

theorem Stage.mapM_running (stage : Stage r record beforeT need threshold shown cursors)
    : cursors.mapM (Cursor.running threshold) = .ok (cursors.map (Cursor.runs threshold)) :=
  Mapping.mapM_of_pure fun c mem =>
    running_eq (stage.reading c mem) stage.plain (stage.read.imp id fun all => all c mem)

/-- Who isn't done runs unless what was last read of it comes after the threshold. -/
theorem done_of_runs (runs : c.runs threshold = true) : c.done = false := by
  exact (Bool.not_eq_true' _).mp (Bool.and_eq_true_iff.mp runs).1

theorem sort_length (list : List Shown) : (sort list).length = list.length := by
  rw [sort_eq, Newest.length_sort]

section Advance

variable (some_ : 0 < batch) (reading : c.Reading r record beforeT)

include some_ reading

theorem reading_advance : (c.advance r record beforeT threshold batch).Reading r record beforeT := by
  unfold Cursor.advance
  split
  case isTrue runs => exact (reading.readBatch (done_of_runs runs) some_).2.1
  case isFalse => exact reading

theorem advance_entry
    : ((c.advance r record beforeT threshold batch).entry, (c.advance r record beforeT threshold batch).top)
      = (c.entry, c.top) := by
  unfold Cursor.advance
  split
  case isTrue runs =>
    have ahead := (reading.readBatch (done_of_runs runs) some_).2.2
    rw [ahead.entry, ahead.top]
  case isFalse => rfl

theorem length_advance
    : c.shown.length ≤ (c.advance r record beforeT threshold batch).shown.length := by
  unfold Cursor.advance
  split
  case isTrue runs => exact (reading.readBatch (done_of_runs runs) some_).2.2.shown
  case isFalse => exact le_refl _

theorem next_advance
    : (c.advance r record beforeT threshold batch).next ≤ c.next
      ∧ (c.runs threshold = true → (c.advance r record beforeT threshold batch).next < c.next) := by
  unfold Cursor.advance
  split
  case isTrue runs =>
    have ahead := (reading.readBatch (done_of_runs runs) some_).2.2
    exact ⟨le_of_lt ahead.next, fun _ => ahead.next⟩
  case isFalse still => exact ⟨le_refl _, fun runs => absurd runs still⟩

theorem left_advance : (c.advance r record beforeT threshold batch).left ≤ c.left := by
  have entry := congrArg Prod.fst (@advance_entry r record beforeT batch threshold c some_ reading)
  have down := (@next_advance r record beforeT batch threshold c some_ reading).1
  dsimp only at entry
  unfold Cursor.left
  rw [entry]
  omega

theorem left_advance_lt (runs : c.runs threshold = true)
    : (c.advance r record beforeT threshold batch).left < c.left := by
  have entry := congrArg Prod.fst (@advance_entry r record beforeT batch threshold c some_ reading)
  have down := (next_advance some_ reading).2 runs
  have left : (c.entry.start : Int) ≤ c.next :=
    not_lt.mp (of_decide_eq_false (reading.done.symm.trans (done_of_runs runs)))
  dsimp only at entry
  unfold Cursor.left
  rw [entry]
  omega

/-- Who isn't done after a round has been read. -/
theorem read_advance (read : threshold = .null ∨ (c.done = false → c.next < c.top))
    (left : (c.advance r record beforeT threshold batch).done = false)
    : (c.advance r record beforeT threshold batch).next < (c.advance r record beforeT threshold batch).top := by
  by_cases runs : c.runs threshold = true
  · have top := congrArg Prod.snd (@advance_entry r record beforeT batch threshold c some_ reading)
    have further := (@next_advance r record beforeT batch threshold c some_ reading).2 runs
    dsimp only at top
    rw [top]
    exact further.trans_le reading.next
  · have same : c.advance r record beforeT threshold batch = c := if_neg runs
    rw [same] at left ⊢
    refine (read.resolve_left fun null => runs ?_) left
    rw [null, Cursor.runs, left]
    rfl

end Advance

theorem zip_map_self {α β γ : Type} (list : List α) (f : α → β) (g : α × β → γ)
    : (list.zip (list.map f)).map g = list.map fun a => g (a, f a) := by
  rw [List.map_zip_eq_zipWith, List.zipWith_map_right, List.zipWith_self]
  rfl

/-- What a round leaves. -/
theorem round_eq (reading : ∀ c ∈ cursors, c.Reading r record beforeT) (some_ : 0 < batch)
    : ((cursors.zip (cursors.map (Cursor.runs threshold))).map fun (c, runs) =>
          if runs then c.readBatch r record beforeT batch else (c, 0))
        = (cursors.map (Cursor.advance r record beforeT threshold batch)).map fun c => (c, 0) := by
  rw [zip_map_self, List.map_map]
  refine List.map_congr_left fun c mem => ?_
  rw [Function.comp_apply]
  unfold Cursor.advance
  dsimp only
  by_cases runs : c.runs threshold = true
  · have none_ := ((reading c mem).readBatch (done_of_runs runs) some_).1
    rw [if_pos runs, if_pos runs]
    exact Prod.ext rfl none_
  · rw [if_neg runs, if_neg runs]

/-- A round ends as it began. -/
theorem Stage.next (stage : Stage r record beforeT need threshold shown cursors) (some_ : 0 < batch)
    (needed : 0 < need) {threshold' : Threshold} {shown' : List Shown}
    (is : shown' = sort ((cursors.map (Cursor.advance r record beforeT threshold batch)).flatMap Cursor.shown))
    (is' : threshold' = if (need : Int) ≤ shown'.length then .at_ (item shown' (need - 1)) else threshold)
    : Stage r record beforeT need threshold' shown'
        (cursors.map (Cursor.advance r record beforeT threshold batch)) := by
  have grown : shown.length ≤ shown'.length := by
    rw [is, stage.sorted, sort_length, sort_length, List.length_flatMap, List.length_flatMap, List.map_map]
    exact List.sum_le_sum fun c mem => length_advance some_ (stage.reading c mem)
  refine ⟨?_, is, ?_, ?_⟩
  · intro c mem
    obtain ⟨before, listed, rfl⟩ := List.mem_map.mp mem
    exact reading_advance some_ (stage.reading before listed)
  · by_cases enough : (need : Int) ≤ shown'.length
    · rw [if_pos enough] at is'
      have bound : need - 1 < shown'.length := by omega
      refine .inr ⟨shown'[need - 1], List.getElem?_eq_getElem bound, ?_⟩
      have index : ((need : Int) - 1).toNat = need - 1 := by omega
      rw [is', item, if_pos (by omega), index, List.getElem?_eq_getElem bound]
    · rw [if_neg enough] at is'
      rcases stage.last with ⟨null, _⟩ | ⟨last, at_, _⟩
      · exact .inl ⟨is'.trans null, by omega⟩
      · have bound := (List.getElem?_eq_some_iff.mp at_).1
        exact absurd enough (by omega)
  · refine .inr fun c mem left => ?_
    obtain ⟨before, listed, rfl⟩ := List.mem_map.mp mem
    exact read_advance some_ (stage.reading before listed) (stage.read.imp_right fun all => all before listed)
      left

/-- The rounds go on with the cursors as a round leaves them, unless no author is in the running. -/
theorem rounds_succ {need : Int} (reading : ∀ c ∈ cursors, c.Reading r record beforeT)
    (running : cursors.mapM (Cursor.running threshold) = .ok (cursors.map (Cursor.runs threshold)))
    (some_ : 0 < batch) (fuel unreachable : Nat) {threshold' : Threshold} {shown' : List Shown}
    (is : shown' = sort ((cursors.map (Cursor.advance r record beforeT threshold batch)).flatMap Cursor.shown))
    (is' : threshold' = if need ≤ shown'.length then .at_ (item shown' (need - 1)) else threshold)
    : rounds r record beforeT need (fuel + 1) batch threshold shown cursors unreachable
      = if ∀ c ∈ cursors, c.runs threshold = false then some (.ok (shown, unreachable))
        else rounds r record beforeT need fuel (batch * 2) threshold' shown'
          (cursors.map (Cursor.advance r record beforeT threshold batch)) unreachable := by
  have still : ((cursors.map (Cursor.runs threshold)).all (· = false)) = true
      ↔ ∀ c ∈ cursors, c.runs threshold = false := by
    simp only [List.all_map, List.all_eq_true, Function.comp_apply, decide_eq_true_eq]
  have cursors' : ((cursors.map (Cursor.advance r record beforeT threshold batch)).map
        fun c => (c, (0 : Nat))).map Prod.fst
      = cursors.map (Cursor.advance r record beforeT threshold batch) := by
    rw [List.map_map]
    exact List.map_id _
  have none_ : (((cursors.map (Cursor.advance r record beforeT threshold batch)).map
      fun c => (c, (0 : Nat))).map Prod.snd).sum = 0 := by
    rw [List.map_map]
    exact List.sum_eq_zero fun n mem => by
      obtain ⟨_, _, rfl⟩ := List.mem_map.mp mem
      rfl
  rw [rounds, running]
  dsimp only
  rw [round_eq reading some_, cursors', none_, ← is, ← is', Nat.add_zero]
  by_cases ends : ∀ c ∈ cursors, c.runs threshold = false
  · rw [if_pos ends, if_pos (still.mpr ends)]
  · rw [if_neg ends, if_neg fun all => ends (still.mp all)]

/-- The rounds end with no author in the running; induction on how many blocks are left to read. -/
theorem rounds_end (stage : Stage r record beforeT need threshold shown cursors) (some_ : 0 < batch)
    (needed : 0 < need)
    : ∃ threshold' shown' cursors',
      Stage r record beforeT need threshold' shown' cursors'
      ∧ (∀ c ∈ cursors', c.runs threshold' = false)
      ∧ cursors'.map (fun c => (c.entry, c.top)) = cursors.map (fun c => (c.entry, c.top))
      ∧ ∃ enough, ∀ fuel ≥ enough, ∀ unreachable,
          rounds r record beforeT need fuel batch threshold shown cursors unreachable
            = some (.ok (shown', unreachable)) := by
  induction total : (cursors.map Cursor.left).sum using Nat.strong_induction_on
    generalizing batch threshold shown cursors with
  | _ size ih =>
      obtain ⟨shown', is⟩ : ∃ shown', shown'
          = sort ((cursors.map (Cursor.advance r record beforeT threshold batch)).flatMap Cursor.shown) :=
        ⟨_, rfl⟩
      obtain ⟨threshold', is'⟩ : ∃ threshold' : Threshold, threshold'
          = if (need : Int) ≤ shown'.length then .at_ (item shown' (need - 1)) else threshold := ⟨_, rfl⟩
      by_cases ends : ∀ c ∈ cursors, c.runs threshold = false
      · refine ⟨threshold, shown, cursors, stage, ends, rfl, 1, fun fuel enough unreachable => ?_⟩
        obtain ⟨fuel, rfl⟩ : ∃ less, fuel = less + 1 := ⟨fuel - 1, by omega⟩
        rw [rounds_succ stage.reading stage.mapM_running some_ fuel unreachable is is', if_pos ends]
      · have fewer : ((cursors.map (Cursor.advance r record beforeT threshold batch)).map Cursor.left).sum
            < size := by
          rw [← total, List.map_map]
          refine List.sum_lt_sum _ _ (fun c mem => ?_) ?_
          · exact left_advance some_ (stage.reading c mem)
          · obtain ⟨c, mem, runs⟩ : ∃ c ∈ cursors, c.runs threshold = true := by
              by_contra none_
              exact ends fun c mem => Bool.eq_false_iff.mpr fun runs => none_ ⟨c, mem, runs⟩
            exact ⟨c, mem, left_advance_lt some_ (stage.reading c mem) runs⟩
        have stage' := stage.next some_ needed is is'
        obtain ⟨last, page, after, stage'', still, same, enough, gives⟩ :=
          ih _ fewer stage' (Nat.mul_pos some_ Nat.two_pos) rfl
        refine ⟨last, page, after, stage'', still, ?_, enough + 1, fun fuel more unreachable => ?_⟩
        · rw [same, List.map_map]
          exact List.map_congr_left fun c mem => advance_entry some_ (stage.reading c mem)
        · obtain ⟨fuel, rfl⟩ : ∃ less, fuel = less + 1 := ⟨fuel - 1, by omega⟩
          rw [rounds_succ stage.reading stage.mapM_running some_ fuel unreachable is is', if_neg ends]
          exact gives fuel (by omega) unreachable

-- Rounds for no messages

/-- What is thrown once `shown[-1]` is compared with. -/
def missing : String := "Cannot read properties of undefined (reading 't')"

/-- With nothing to compare with, all must be done; induction on the cursors. -/
theorem mapM_missing (read : ∀ c ∈ cursors, c.done = false → ∃ place, c.oldest = some place)
    : cursors.mapM (Cursor.running (.at_ none))
      = if ∀ c ∈ cursors, c.done = true then .ok (cursors.map (Cursor.runs (.at_ none)))
        else .error missing := by
  induction cursors with
  | nil => rfl
  | cons c rest ih =>
      have tail := ih fun c mem => read c (.tail _ mem)
      rw [List.mapM_cons]
      cases done : c.done with
      | false =>
          obtain ⟨place, oldest⟩ := read c (.head _) done
          have throws : c.running (.at_ none) = .error missing := by
            unfold Cursor.running
            rw [done, oldest]
            rfl
          rw [throws, if_neg fun all => absurd (all c (.head _)) (by rw [done]; exact Bool.false_ne_true)]
          rfl
      | true =>
          have still : c.running (.at_ none) = .ok false ∧ c.runs (.at_ none) = false := by
            unfold Cursor.running Cursor.runs
            rw [done]
            exact ⟨rfl, rfl⟩
          rw [still.1, tail, List.map_cons, still.2]
          simp only [List.forall_mem_cons, done, true_and]
          split <;> rfl

theorem done_advance (reading : c.Reading r record beforeT) (fresh : c.next = c.top)
    : (c.advance r record beforeT .null 1).done = false ↔ (c.entry.start : Int) < c.top := by
  have is := reading.done
  unfold Cursor.advance
  split
  case isTrue runs =>
    have after := (reading.readBatch (done_of_runs runs) Nat.one_pos).2.1.done
    have entry := (reading.readBatch (done_of_runs runs) Nat.one_pos).2.2.entry
    have next : (c.readBatch r record beforeT 1).1.next
        = max (c.entry.start : Int) (c.next - (1 : Nat) + 1) - 1 := rfl
    have left : (c.entry.start : Int) ≤ c.next :=
      not_lt.mp (of_decide_eq_false (is.symm.trans (done_of_runs runs)))
    rw [after, entry, next, decide_eq_false_iff_not]
    omega
  case isFalse still =>
    have done : c.done = true := by
      cases left : c.done with
      | true => rfl
      | false =>
          refine absurd ?_ still
          unfold Cursor.runs
          rw [left]
          rfl
    have under := of_decide_eq_true (is.symm.trans done)
    rw [done]
    constructor
    · intro wrong
      exact nomatch wrong
    · omega

/-- For no messages, the rounds end once no author has two to read; else they fail. -/
theorem rounds_none (reading : ∀ c ∈ cursors, c.Reading r record beforeT)
    (fresh : ∀ c ∈ cursors, c.next = c.top) (unreachable : Nat)
    : ∃ shown, ∀ fuel ≥ 2, rounds r record beforeT 0 fuel 1 .null [] cursors unreachable
        = some (if ∀ c ∈ cursors, c.top ≤ c.entry.start then .ok (shown, unreachable)
            else .error missing) := by
  have first : cursors.mapM (Cursor.running .null) = .ok (cursors.map (Cursor.runs .null)) :=
    Mapping.mapM_of_pure fun c mem => running_eq (reading c mem) (.inl rfl) (.inl rfl)
  have step := fun fuel => @rounds_succ r record beforeT 1 .null [] cursors 0 reading first Nat.one_pos fuel
    unreachable _ _ rfl rfl
  obtain ⟨after, is⟩ : ∃ after, after = cursors.map (Cursor.advance r record beforeT .null 1) := ⟨_, rfl⟩
  rw [← is] at step
  by_cases ends : ∀ c ∈ cursors, c.runs .null = false
  · have all : ∀ c ∈ cursors, c.top ≤ c.entry.start := by
      intro c mem
      have same : c.advance r record beforeT .null 1 = c :=
        if_neg (Bool.eq_false_iff.mp (ends c mem))
      by_contra above
      have left := (done_advance (reading c mem) (fresh c mem)).mpr (not_le.mp above)
      have runs := ends c mem
      unfold Cursor.runs at runs
      rw [same] at left
      rw [left] at runs
      exact nomatch runs
    refine ⟨[], fun fuel more => ?_⟩
    obtain ⟨fuel, rfl⟩ : ∃ less, fuel = less + 1 := ⟨fuel - 1, by omega⟩
    rw [step, if_pos ends, if_pos all]
  · refine ⟨sort (after.flatMap Cursor.shown), fun fuel more => ?_⟩
    obtain ⟨fuel, rfl⟩ : ∃ less, fuel = less + 1 + 1 := ⟨fuel - 2, by omega⟩
    have reading' : ∀ c ∈ after, c.Reading r record beforeT := by
      intro c mem
      obtain ⟨before, listed, rfl⟩ := List.mem_map.mp (is ▸ mem)
      exact reading_advance Nat.one_pos (reading before listed)
    have read : ∀ c ∈ after, c.done = false → ∃ place, c.oldest = some place := by
      intro c mem left
      obtain ⟨before, listed, rfl⟩ := List.mem_map.mp (is ▸ mem)
      have began := read_advance Nat.one_pos (reading before listed) (.inl rfl) left
      obtain ⟨m, _, oldest⟩ := (reading' _ mem).oldest began
      exact ⟨_, oldest⟩
    have all : (∀ c ∈ after, c.done = true) ↔ ∀ c ∈ cursors, c.top ≤ c.entry.start := by
      rw [is, List.forall_mem_map]
      refine forall₂_congr fun c mem => ?_
      rw [← not_lt, ← done_advance (reading c mem) (fresh c mem), Bool.not_eq_false]
    have second := mapM_missing read
    have threshold : (if (0 : Int) ≤ (sort (after.flatMap Cursor.shown)).length
        then Threshold.at_ (item (sort (after.flatMap Cursor.shown)) (0 - 1)) else .null) = .at_ none :=
      if_pos (Int.natCast_nonneg _)
    rw [step, if_neg ends, threshold]
    by_cases done : ∀ c ∈ after, c.done = true
    · rw [if_pos done] at second
      have still : ∀ c ∈ after, c.runs (.at_ none) = false := by
        intro c mem
        unfold Cursor.runs
        rw [done c mem]
        rfl
      rw [if_pos (all.mp done), rounds_succ reading' second (by decide) fuel unreachable rfl rfl,
        if_pos still]
    · rw [if_neg done] at second
      rw [if_neg fun none_ => done (all.mpr none_), rounds, second]

end Rounds

-- Where a cursor starts

/-- Every block of a log can be fetched. -/
def Log.Fetched (log : Log) : Prop := ∀ seq < log.length, (log.get seq).isSome

/-- A log's times don't go down. -/
def Log.Rising (log : Log) : Prop :=
  ∀ first second m m', first ≤ second → second < log.length → log.get first = some m →
    log.get second = some m' → m.t ≤ m'.t

/-- Where a log's messages from `lo` to `hi` stop being older than `t`. -/
structure Log.Splits (log : Log) (lo hi : Int) (t : Rat) (at_ : Int) : Prop where
  low : lo - 1 ≤ at_
  high : at_ ≤ hi
  splits : ∀ seq : Nat, lo ≤ seq → seq ≤ hi → ∀ m, log.get seq = some m → ((m.t : Rat) < t ↔ seq ≤ at_)

section Starts

variable {log : Log} {t : Rat} {lo hi : Int}

/-- Halving finds where the messages stop being older; induction on how many are between. -/
theorem search_splits (fetched : log.Fetched) (rising : log.Rising) {bottom top : Int} (zero : 0 ≤ bottom)
    (within : top < log.length) (short : log.length ≤ 2 ^ 31) (above : bottom ≤ lo) (below : hi ≤ top)
    (meets : lo ≤ hi + 1)
    (under : ∀ seq : Nat, bottom ≤ seq → seq < lo → ∀ m, log.get seq = some m → (m.t : Rat) < t)
    (beyond : ∀ seq : Nat, hi < seq → seq ≤ top → ∀ m, log.get seq = some m → t ≤ m.t)
    : ∃ at_, log.Splits bottom top t at_
      ∧ ∀ fuel > (hi + 1 - lo).toNat, search log t fuel lo hi (lo - 1) = some (some at_) := by
  induction size : (hi + 1 - lo).toNat using Nat.strong_induction_on generalizing lo hi with
  | _ size ih =>
      by_cases between : lo ≤ hi
      · obtain ⟨mid, is⟩ : ∃ mid, mid = (lo + hi) % 2 ^ 32 / 2 := ⟨_, rfl⟩
        have low : lo ≤ mid := by omega
        have high : mid ≤ hi := by omega
        obtain ⟨m, here⟩ := Option.isSome_iff_exists.mp (fetched mid.toNat (by omega))
        have step : ∀ fuel, search log t (fuel + 1) lo hi (lo - 1)
            = if m.t < t then search log t fuel (mid + 1) hi mid
              else search log t fuel lo (mid - 1) (lo - 1) := by
          intro fuel
          rw [search, if_pos between]
          dsimp only
          rw [← is, here]
        by_cases older : (m.t : Rat) < t
        · obtain ⟨at_, splits, gives⟩ := @ih (hi + 1 - (mid + 1)).toNat (by omega)
            (mid + 1) hi (by omega) below (by omega) (fun seq from_ to_ m' there => by
              have earlier := rising seq mid.toNat m' m (by omega) (by omega) there here
              exact lt_of_le_of_lt (by exact_mod_cast earlier) older) beyond rfl
          refine ⟨at_, splits, fun fuel more => ?_⟩
          obtain ⟨fuel, rfl⟩ : ∃ less, fuel = less + 1 := ⟨fuel - 1, by omega⟩
          have last := gives fuel (by omega)
          rw [Int.add_sub_cancel] at last
          rw [step, if_pos older, last]
        · obtain ⟨at_, splits, gives⟩ := @ih (mid - 1 + 1 - lo).toNat (by omega)
            lo (mid - 1) above (by omega) (by omega) under (fun seq from_ to_ m' there => by
              have later := rising mid.toNat seq m m' (by omega) (by omega) here there
              exact (not_lt.mp older).trans (by exact_mod_cast later)) rfl
          refine ⟨at_, splits, fun fuel more => ?_⟩
          obtain ⟨fuel, rfl⟩ : ∃ less, fuel = less + 1 := ⟨fuel - 1, by omega⟩
          rw [step, if_neg older, gives fuel (by omega)]
      · refine ⟨lo - 1, ⟨by omega, by omega, fun seq from_ to_ m here => ?_⟩, fun fuel more => ?_⟩
        · constructor
          · intro older
            by_contra later
            exact absurd older (not_lt.mpr (beyond seq (by omega) to_ m here))
          · intro early
            exact under seq from_ (by omega) m here
        · obtain ⟨fuel, rfl⟩ : ∃ less, fuel = less + 1 := ⟨fuel - 1, by omega⟩
          rw [search, if_neg between]

/-- `lastBefore` finds the last message older than a time. -/
theorem lastBefore_splits (fetched : log.Fetched) (rising : log.Rising) (zero : 0 ≤ lo) (some_ : lo ≤ hi)
    (within : hi < log.length) (short : log.length ≤ 2 ^ 31)
    : ∃ at_, log.Splits lo hi t at_
      ∧ ∃ enough, ∀ fuel ≥ enough, lastBefore fuel log lo hi t = some (some at_) := by
  obtain ⟨top, here⟩ := Option.isSome_iff_exists.mp (fetched hi.toNat (by omega))
  by_cases older : (top.t : Rat) < t
  · refine ⟨hi, ⟨by omega, le_refl _, fun seq from_ to_ m there => ?_⟩, 0, fun fuel _ => ?_⟩
    · have earlier := rising seq hi.toNat m top (by omega) (by omega) there here
      exact iff_of_true (lt_of_le_of_lt (by exact_mod_cast earlier) older) to_
    · rw [lastBefore, here]
      exact if_pos older
  · obtain ⟨at_, splits, gives⟩ := search_splits fetched rising zero within short (le_refl lo)
      (Int.sub_le_self hi Int.one_nonneg) (by omega)
      (fun seq from_ to_ => absurd from_ (by omega))
      (fun seq from_ to_ m there => by
        have same : seq = hi.toNat := by omega
        rw [same, here] at there
        exact Option.some.inj there ▸ not_lt.mp older)
    refine ⟨at_, splits, (hi - 1 + 1 - lo).toNat + 1, fun fuel more => ?_⟩
    rw [lastBefore, here]
    exact (if_neg older).trans (gives fuel more)

variable {r : Reader} {record : Record} {beforeT : Option Rat} {later : Dict Key Nat} {e : Entry}

/-- A cursor that has read nothing yet, of an author's messages up to `stop`. -/
structure Cursor.Fresh (r : Reader) (beforeT : Option Rat) (stop : Nat) (e : Entry) (c : Cursor) : Prop where
  entry : c.entry = e
  next : c.next = c.top
  done : c.done = decide (c.next < e.start)
  shown : c.shown = []
  top : c.top < stop
  splits : ∀ seq : Nat, e.start ≤ seq → seq < stop → ∀ m, (r.logs e.log).get seq = some m →
    (older beforeT m = true ↔ seq ≤ c.top)

theorem Cursor.Fresh.reading {stop : Nat} {c : Cursor} (fresh : c.Fresh r beforeT stop e)
    (fetched : (r.logs e.log).Fetched) (within : stop ≤ (r.logs e.log).length)
    : c.Reading r record beforeT := by
  have top := fresh.top
  have still : ¬ c.next < c.top := fresh.next ▸ lt_irrefl _
  refine ⟨?_, le_of_eq fresh.next, ?_, fun less => absurd less still, ?_, fun less => absurd less still⟩
  · rw [fresh.entry]
    exact fun seq _ below => fetched seq (by omega)
  · rw [fresh.entry]
    exact fresh.done
  · rw [fresh.shown, fresh.next, Int.sub_self]
    rfl

/-- An author's cursor starts at their last message older than `beforeT`. -/
theorem cursor_fresh (fetched : (r.logs e.log).Fetched) (rising : (r.logs e.log).Rising)
    (within : (later.get? e.author).getD (r.logs e.log).length ≤ (r.logs e.log).length)
    (short : beforeT = none ∨ (r.logs e.log).length ≤ 2 ^ 31)
    : ∃ c : Cursor, c.Fresh r beforeT ((later.get? e.author).getD (r.logs e.log).length) e
      ∧ ∃ enough, ∀ fuel ≥ enough, cursor r fuel beforeT later e = some (c, 0) := by
  obtain ⟨stop, is⟩ : ∃ stop, stop = (later.get? e.author).getD (r.logs e.log).length := ⟨_, rfl⟩
  rw [← is] at within ⊢
  by_cases none_ : (stop : Int) - 1 < e.start
  · refine ⟨⟨e, stop - 1, true, none, [], stop - 1⟩, ⟨rfl, rfl, ?_, rfl, ?_, ?_⟩, 0, fun fuel _ => ?_⟩
    · exact (decide_eq_true none_).symm
    · exact Int.sub_one_lt_of_le (le_refl _)
    · exact fun seq from_ to_ => absurd none_ (by omega)
    · unfold cursor
      dsimp only
      rw [← is, decide_eq_true none_]
      exact if_pos rfl
  · cases beforeT with
    | none =>
        refine ⟨⟨e, stop - 1, false, none, [], stop - 1⟩, ⟨rfl, rfl, ?_, rfl, ?_, ?_⟩, 0,
          fun fuel _ => ?_⟩
        · exact (decide_eq_false none_).symm
        · exact Int.sub_one_lt_of_le (le_refl _)
        · exact fun seq from_ to_ m _ => iff_of_true rfl (by dsimp only; omega)
        · unfold cursor
          dsimp only
          rw [← is, decide_eq_false none_]
          exact if_neg Bool.false_ne_true
    | some t =>
        obtain ⟨at_, splits, enough, gives⟩ := @lastBefore_splits (r.logs e.log) t e.start (stop - 1) fetched
          rising (by omega) (not_lt.mp none_) (by omega) (short.resolve_left fun null => by cases null)
        refine ⟨⟨e, at_, at_ < e.start, none, [], at_⟩, ⟨rfl, rfl, rfl, rfl, ?_, ?_⟩, enough,
          fun fuel more => ?_⟩
        · have high := splits.high
          dsimp only
          omega
        · intro seq from_ to_ m here
          rw [older, decide_eq_true_eq]
          exact splits.splits seq (by omega) (by omega) m here
        · unfold cursor
          dsimp only
          rw [← is, decide_eq_false none_, if_neg Bool.false_ne_true, gives fuel more]

end Starts

end Hypergraph.Channels.Pages
