import Hypergraph.Channels.Listings
import Mathlib.Data.Nat.Cast.Order.Field

/-! A page is the exact newest slice: the first `limit` of all visible messages older than a time, none
missing or repeated. Only a page of no messages may fail instead, once an author has two to read.
-/

namespace Hypergraph.Channels.Pages

open Wire Js Encodings

-- All there is to show

section Wanted

variable (r : Reader) (record : Record) (beforeT : Option Rat)

/-- What is shown of an author's messages. -/
def shownBy (author : Key × Key) : List Shown :=
  (List.range (r.logs author.2).length).filterMap (shownAt r record beforeT author.1 author.2)

/-- All visible messages older than `beforeT`. -/
def wanted (authors : List (Key × Key)) : List Shown := authors.flatMap (shownBy r record beforeT)

variable {r record beforeT} {authors : List (Key × Key)} {author : Key × Key} {s t : Shown} {seq : Nat}

theorem mem_shownBy
    : s ∈ shownBy r record beforeT author
      ↔ ∃ seq < (r.logs author.2).length, shownAt r record beforeT author.1 author.2 seq = some s := by
  simp only [shownBy, List.mem_filterMap, List.mem_range]

theorem mem_wanted
    : s ∈ wanted r record beforeT authors
      ↔ ∃ author ∈ authors, ∃ seq < (r.logs author.2).length,
          shownAt r record beforeT author.1 author.2 seq = some s := by
  simp only [wanted, List.mem_flatMap, mem_shownBy]

theorem shownAt_inj {log : Key} {other : Nat} (here : shownAt r record beforeT author.1 log seq = some s)
    (there : shownAt r record beforeT author.1 log other = some s)
    : seq = other := by
  obtain ⟨m, _, _, _, place⟩ := of_shownAt here
  obtain ⟨m', _, _, _, place'⟩ := of_shownAt there
  exact congrArg Place.seq (place.symm.trans place')

theorem author_of_shownAt {a log : Key} (here : shownAt r record beforeT a log seq = some s)
    : s.author = a := by
  obtain ⟨m, _, _, _, place⟩ := of_shownAt here
  exact congrArg Place.author place

theorem nodup_filterMap {a log : Key} {seqs : List Nat} (unique : seqs.Nodup)
    : (seqs.filterMap (shownAt r record beforeT a log)).Nodup :=
  unique.filterMap fun _ _ _ here there => @shownAt_inj r record beforeT (a, log) _ _ log _ here there

/-- What different authors show is different. -/
theorem nodup_flatMap {α : Type} {list : List α} {key : α → Key} {shows : α → List Shown}
    (once : (list.map key).Nodup) (each : ∀ a ∈ list, (shows a).Nodup)
    (own : ∀ a ∈ list, ∀ s ∈ shows a, s.author = key a)
    : (list.flatMap shows).Nodup := by
  rw [List.nodup_flatMap]
  refine ⟨each, ?_⟩
  have apart := List.pairwise_map.mp once
  refine apart.imp_of_mem fun {a b} memA memB differ s here there => ?_
  exact differ ((own a memA s here).symm.trans (own b memB s there))

theorem nodup_wanted (once : (authors.map Prod.fst).Nodup) : (wanted r record beforeT authors).Nodup := by
  refine nodup_flatMap once (fun author _ => nodup_filterMap List.nodup_range) fun author _ s mem => ?_
  obtain ⟨seq, _, here⟩ := mem_shownBy.mp mem
  exact author_of_shownAt here

theorem hexOrder_inj {key other : Key} (same : hexOrder key = hexOrder other) : key = other :=
  List.map_injective_iff.mpr (fun _ _ => UInt8.toNat.inj) same

theorem apart_wanted (once : (authors.map Prod.fst).Nodup)
    : Newest.Apart Shown.rank (wanted r record beforeT authors) := by
  intro s t memS memT same
  obtain ⟨author, mem, seq, _, here⟩ := mem_wanted.mp memS
  obtain ⟨other, mem', seq', _, there⟩ := mem_wanted.mp memT
  obtain ⟨m, _, _, _, place⟩ := of_shownAt here
  obtain ⟨m', _, _, _, place'⟩ := of_shownAt there
  have fields := toLex_inj.mp same
  have rest := toLex_inj.mp (congrArg Prod.snd fields)
  have own : author.1 = other.1 := by
    have := hexOrder_inj (congrArg Prod.fst rest)
    rw [place, place'] at this
    exact this
  have equal : author = other := List.inj_on_of_nodup_map once mem mem' own
  have seqs : seq = seq' := by
    have := congrArg Prod.snd rest
    rw [place, place'] at this
    exact this
  rw [equal, seqs, there] at here
  exact (Option.some.inj here).symm

/-- What is older than `beforeT` and not future is in no later segment than a page begins with. -/
theorem segment_le_newest {a log : Key} (here : shownAt r record beforeT a log seq = some s)
    : record.segment s.t ≤ newest r record beforeT := by
  obtain ⟨m, _, old, seen, place⟩ := of_shownAt here
  have t : s.t = m.t := congrArg Place.t place
  have below : (m.t : Rat) ≤ beforeT.getD ((r.now + FUTURE_MS : Nat) : Rat) := by
    cases beforeT with
    | some t => exact le_of_lt (of_decide_eq_true old)
    | none =>
        have present : isFuture m.t r.now = false := by
          unfold Reader.visible at seen
          cases future : isFuture m.t r.now with
          | false => rfl
          | true =>
              rw [future] at seen
              exact nomatch seen
        rw [Option.getD_none]
        exact_mod_cast not_lt.mp (of_decide_eq_false present)
  rw [t]
  unfold newest segmentAt Record.segment segmentOf
  rw [Int.le_floor, Int.cast_natCast]
  exact le_trans Nat.cast_div_le (div_le_div_of_nonneg_right below (Nat.cast_nonneg _))

end Wanted

-- One segment

section Segment

variable (r : Reader) (record : Record) (beforeT : Option Rat) (authors : List (Key × Key))

/-- All segments after `seg` have been walked: `out` is what there is to show of them, and `later` where
each author's messages of them begin.
-/
structure Walked (seg : Int) (later : Dict Key Nat) (out : List Shown) : Prop where
  unique : out.Nodup
  mem_out : ∀ s, s ∈ out ↔ s ∈ wanted r record beforeT authors ∧ seg < record.segment s.t
  known : ∀ author ∈ authors, ∀ start, later.get? author.1 = some start →
    start ≤ (r.logs author.2).length
    ∧ ∀ seq m, (r.logs author.2).Has seq m → (seq < start ↔ record.segment m.t ≤ seg)
  unknown : ∀ author ∈ authors, later.get? author.1 = none →
    ∀ seq m, (r.logs author.2).Has seq m →
      record.segment m.t ≤ seg ∨ newest r record beforeT < record.segment m.t

/-- A cursor's messages of a segment are those from its entry's start up to its top. -/
structure Cursor.Covers (g : Int) (c : Cursor) : Prop where
  top : c.top < (r.logs c.entry.log).length
  segment_iff : ∀ seq < (r.logs c.entry.log).length, ∀ s,
    shownAt r record beforeT c.entry.author c.entry.log seq = some s →
    (record.segment s.t = g ↔ c.entry.start ≤ seq ∧ (seq : Int) ≤ c.top)

/-- What a segment's rounds leave: all there is to show of it, or at least `need` messages of which the
`need`-th comes before all that were not read.
-/
structure Sliced (g : Int) (need : Nat) (shown : List Shown) : Prop where
  sorted : ∃ list, shown = sort list
  unique : shown.Nodup
  sound : ∀ s ∈ shown, s ∈ wanted r record beforeT authors ∧ record.segment s.t = g
  full : shown.length < need
      ∧ (∀ s ∈ wanted r record beforeT authors, record.segment s.t = g → s ∈ shown)
    ∨ ∃ last, shown[need - 1]? = some last
      ∧ ∀ s ∈ wanted r record beforeT authors, record.segment s.t = g → s ∉ shown → s.rank < last.rank

variable {r record beforeT authors} {seg g : Int} {later : Dict Key Nat} {out : List Shown} {e : Entry}
  {c : Cursor} {s : Shown}

theorem t_of_shownAt {a log : Key} {seq : Nat} {m : Message} (here : (r.logs log).get seq = some m)
    (shown : shownAt r record beforeT a log seq = some s)
    : s.t = m.t := by
  obtain ⟨m', there, _, _, place⟩ := of_shownAt shown
  rw [here] at there
  exact (congrArg Place.t place).trans (congrArg Message.t (Option.some.inj there).symm)

theorem stop_le (listed : Listed r record authors) (walked : Walked r record beforeT authors seg later out)
    (at_ : e ∈ entriesFrom r.rosters g)
    : (later.get? e.author).getD (r.logs e.log).length ≤ (r.logs e.log).length := by
  have mem := (listed.honest g e (listed_of_mem at_)).1
  cases found : later.get? e.author with
  | none => exact le_refl _
  | some start => exact (walked.known _ mem start found).1

theorem Cursor.Fresh.covers (listed : Listed r record authors)
    (walked : Walked r record beforeT authors seg later out) (latest : g = latestFrom r.rosters seg)
    (within_ : g ≤ seg) (at_ : e ∈ entriesFrom r.rosters g)
    (fresh : c.Fresh r beforeT ((later.get? e.author).getD (r.logs e.log).length) e)
    : c.Covers r record beforeT g := by
  have mem := (listed.honest g e (listed_of_mem at_)).1
  have within := stop_le listed walked at_
  have top := fresh.top
  refine ⟨?_, ?_⟩
  · rw [fresh.entry]
    omega
  · rw [fresh.entry]
    intro seq bound s shown
    obtain ⟨m, here, old, _, place⟩ := of_shownAt shown
    have t := t_of_shownAt here shown
    have has : (r.logs e.log).Has seq m := ⟨bound, here⟩
    have start := listed.start_iff at_ has
    have limit := segment_le_newest shown
    -- where the author's walked segments begin
    have stop : seq < (later.get? e.author).getD (r.logs e.log).length ↔ record.segment m.t ≤ seg := by
      cases found : later.get? e.author with
      | none =>
          have below := walked.unknown _ mem found seq m has
          rw [t] at limit
          exact iff_of_true bound (below.resolve_right (not_lt.mpr limit))
      | some start => exact (walked.known _ mem start found).2 seq m has
    have latest_ := fun le => @Listed.le_latest r record authors _ seq m seg listed mem has le
    rw [← latest] at latest_
    rw [t]
    constructor
    · intro same
      have from_ : e.start ≤ seq := by
        by_contra before
        exact absurd (start.mp (not_le.mp before)) (by omega)
      exact ⟨from_, (fresh.splits seq from_ (stop.mpr (same.trans_le within_)) m here).mp old⟩
    · rintro ⟨from_, to_⟩
      have le := stop.mp (by omega)
      have ge : ¬ record.segment m.t < g := fun less => absurd (start.mpr less) (not_lt.mpr from_)
      exact le_antisymm (latest_ le) (not_lt.mp ge)

variable (r record beforeT) in
/-- A cursor of a segment that has read nothing yet. -/
structure Cursor.Begun (later : Dict Key Nat) (g : Int) (c : Cursor) : Prop where
  fresh : c.Fresh r beforeT ((later.get? c.entry.author).getD (r.logs c.entry.log).length) c.entry
  reading : c.Reading r record beforeT
  covers : c.Covers r record beforeT g
  rising : (r.logs c.entry.log).Rising

/-- A segment's cursors begin, one for each entry. -/
theorem exists_begun (listed : Listed r record authors)
    (walked : Walked r record beforeT authors seg later out) (latest : g = latestFrom r.rosters seg)
    (within : g ≤ seg)
    (short : beforeT = none ∨ ∀ author ∈ authors, (r.logs author.2).length ≤ 2 ^ 31)
    : ∃ cursors : List Cursor, cursors.map Cursor.entry = entriesFrom r.rosters g
      ∧ (∀ c ∈ cursors, c.Begun r record beforeT later g)
      ∧ ∃ enough, ∀ fuel ≥ enough,
          (entriesFrom r.rosters g).mapM (cursor r fuel beforeT later) = some (cursors.map (·, 0)) := by
  refine Mapping.exists_mapM fun e at_ => ?_
  have mem := (listed.honest g e (listed_of_mem at_)).1
  have fetched := listed.fetched _ mem
  have rising := listed.rising _ mem
  have bound := stop_le listed walked at_
  obtain ⟨c, fresh, enough, gives⟩ := cursor_fresh fetched rising bound (short.imp id fun all => all _ mem)
  have entry := fresh.entry
  exact ⟨c, entry, ⟨entry.symm ▸ fresh, fresh.reading fetched bound,
    fresh.covers listed walked latest within at_, entry.symm ▸ rising⟩, enough, gives⟩

/-- What a cursor has shown. -/
theorem Cursor.Reading.mem_shown (reading : c.Reading r record beforeT)
    : s ∈ c.shown ↔ ∃ seq : Nat, c.next < seq ∧ (seq : Int) ≤ c.top
        ∧ shownAt r record beforeT c.entry.author c.entry.log seq = some s := by
  rw [reading.shown, List.mem_filterMap]
  have from_ := reading.from_
  constructor
  · rintro ⟨seq, mem, here⟩
    rw [List.mem_reverse, List.mem_range'_1] at mem
    exact ⟨seq, by omega, by omega, here⟩
  · rintro ⟨seq, above, below, here⟩
    refine ⟨seq, ?_, here⟩
    rw [List.mem_reverse, List.mem_range'_1]
    omega

/-- What an author out of the running has not shown yet comes after the threshold. -/
theorem rank_lt_of_unread {last : Shown} {seq : Nat} (reading : c.Reading r record beforeT)
    (covers : c.Covers r record beforeT g) (rising : (r.logs c.entry.log).Rising)
    (still : c.runs (.at_ (some last)) = false) (read : c.done = false → c.next < c.top)
    (from_ : c.entry.start ≤ seq) (unread : (seq : Int) ≤ c.next)
    (here : shownAt r record beforeT c.entry.author c.entry.log seq = some s)
    : s.rank < last.rank := by
  have left : c.done = false := reading.done.trans (decide_eq_false (by omega))
  have began := read left
  have top := covers.top
  obtain ⟨m, there, oldest⟩ := reading.oldest began
  have below : ¬ 0 < newer ⟨m.t, c.entry.author, (c.next + 1).toNat⟩ last.place := by
    intro above
    unfold Cursor.runs at still
    rw [left, oldest] at still
    exact absurd above (of_decide_eq_false still)
  rw [newer_pos_iff, not_lt] at below
  obtain ⟨m', own, _, _, place⟩ := of_shownAt here
  have earlier : m'.t ≤ m.t := rising seq (c.next + 1).toNat m' m (by omega) (by omega) own there
  refine lt_of_lt_of_le ?_ below
  unfold Shown.rank
  rw [place, rank_lt_iff]
  rcases lt_or_eq_of_le earlier with less | same
  · exact .inl less
  · exact .inr ⟨same, .inr ⟨rfl, by dsimp only; omega⟩⟩

/-- The rounds of a segment leave a slice of it. -/
theorem exists_sliced (listed : Listed r record authors) {cursors : List Cursor} {need : Nat}
    (entries : cursors.map Cursor.entry = entriesFrom r.rosters g)
    (begun : ∀ c ∈ cursors, c.Begun r record beforeT later g) (needed : 0 < need)
    : ∃ shown, Sliced r record beforeT authors g need shown
      ∧ ∃ enough, ∀ fuel ≥ enough, ∀ unreachable,
          rounds r record beforeT need fuel 1 .null [] cursors unreachable
            = some (.ok (shown, unreachable)) := by
  have nothing : cursors.flatMap Cursor.shown = [] := by
    rw [List.flatMap_eq_nil_iff]
    exact fun c mem => (begun c mem).fresh.shown
  have stage : Stage r record beforeT need .null [] cursors :=
    ⟨fun c mem => (begun c mem).reading, by rw [nothing]; rfl, .inl ⟨rfl, needed⟩, .inl rfl⟩
  obtain ⟨threshold, shown, after, stage', still, same, enough, gives⟩ :=
    rounds_end stage Nat.one_pos needed
  refine ⟨shown, ?_, enough, gives⟩
  -- the cursors are still those of the entries
  have entries' : after.map Cursor.entry = entriesFrom r.rosters g := by
    have firsts := congrArg (List.map Prod.fst) same
    rw [List.map_map, List.map_map] at firsts
    exact firsts.trans entries
  have kept : ∀ c ∈ after, c.Covers r record beforeT g ∧ (r.logs c.entry.log).Rising := by
    intro c mem
    have there : (c.entry, c.top) ∈ cursors.map fun c => (c.entry, c.top) :=
      same ▸ List.mem_map.mpr ⟨c, mem, rfl⟩
    obtain ⟨before, was, is⟩ := List.mem_map.mp there
    obtain ⟨entry, top⟩ := Prod.mk.inj is
    have covers := (begun before was).covers
    have rising := (begun before was).rising
    rw [entry] at rising
    exact ⟨⟨entry ▸ top ▸ covers.top, entry ▸ top ▸ covers.segment_iff⟩, rising⟩
  have mem_page : ∀ s, s ∈ shown ↔ ∃ c ∈ after, s ∈ c.shown := by
    intro s
    rw [stage'.sorted, sort_eq, Newest.mem_sort, List.mem_flatMap]
  have own : ∀ c ∈ after, ∀ s ∈ c.shown, s.author = c.entry.author := by
    intro c mem s here
    obtain ⟨seq, _, _, is⟩ := (stage'.reading c mem).mem_shown.mp here
    exact author_of_shownAt is
  have reads : ∀ s ∈ wanted r record beforeT authors, record.segment s.t = g →
      ∃ c ∈ after, ∃ seq : Nat, c.entry.start ≤ seq ∧ (seq : Int) ≤ c.top
        ∧ shownAt r record beforeT c.entry.author c.entry.log seq = some s := by
    intro s mem here
    obtain ⟨author, known, seq, bound, is⟩ := mem_wanted.mp mem
    obtain ⟨m, block, _, _, _⟩ := of_shownAt is
    have t := t_of_shownAt block is
    obtain ⟨e, at_, name, log, _⟩ := listed.exists_entry known ⟨bound, block⟩
    rw [← t, here, ← entries'] at at_
    obtain ⟨c, cursor, rfl⟩ := List.mem_map.mp at_
    rw [← name, ← log] at is
    have within := ((kept c cursor).1.segment_iff seq (log ▸ bound) s is).mp here
    exact ⟨c, cursor, seq, within.1, within.2, is⟩
  refine ⟨⟨_, stage'.sorted⟩, ?_, ?_, ?_⟩
  · rw [stage'.sorted, sort_eq, (Newest.perm_sort _).nodup_iff]
    refine @nodup_flatMap Cursor after (fun c => c.entry.author) Cursor.shown ?_ (fun c mem => ?_) own
    · have names := @nodup_entriesFrom r.rosters g
      rw [← entries', List.map_map] at names
      exact names
    · rw [(stage'.reading c mem).shown]
      exact nodup_filterMap (List.nodup_reverse.mpr List.nodup_range')
  · intro s mem
    obtain ⟨c, at_, here⟩ := (mem_page s).mp mem
    obtain ⟨seq, above, below, is⟩ := (stage'.reading c at_).mem_shown.mp here
    have covers := (kept c at_).1
    have bound : seq < (r.logs c.entry.log).length := by
      have top := covers.top
      omega
    have from_ := (stage'.reading c at_).from_ (by omega)
    have listed_ : c.entry ∈ entriesFrom r.rosters g := entries' ▸ List.mem_map.mpr ⟨c, at_, rfl⟩
    refine ⟨mem_wanted.mpr ⟨_, (listed.honest g _ (listed_of_mem listed_)).1, seq, bound, is⟩, ?_⟩
    exact (covers.segment_iff seq bound s is).mpr ⟨by omega, below⟩
  · rcases stage'.last with ⟨null, few⟩ | ⟨last, at_, is⟩
    · refine .inl ⟨few, fun s mem here => ?_⟩
      obtain ⟨c, cursor, seq, from_, below, shows⟩ := reads s mem here
      refine (mem_page s).mpr ⟨c, cursor, (stage'.reading c cursor).mem_shown.mpr ⟨seq, ?_, below, shows⟩⟩
      have done : c.done = true := by
        have stopped := still c cursor
        rw [null] at stopped
        cases left : c.done with
        | true => rfl
        | false =>
            rw [Cursor.runs, left] at stopped
            cases stopped
      have under := of_decide_eq_true ((stage'.reading c cursor).done.symm.trans done)
      omega
    · refine .inr ⟨last, at_, fun s mem here outside => ?_⟩
      obtain ⟨c, cursor, seq, from_, below, shows⟩ := reads s mem here
      have unread : (seq : Int) ≤ c.next := by
        by_contra above
        exact outside ((mem_page s).mpr ⟨c, cursor,
          (stage'.reading c cursor).mem_shown.mpr ⟨seq, not_le.mp above, below, shows⟩⟩)
      have stopped := still c cursor
      rw [is] at stopped
      have read := stage'.read.resolve_left (fun null => by cases is.symm.trans null) c cursor
      exact rank_lt_of_unread (stage'.reading c cursor) (kept c cursor).1 (kept c cursor).2 stopped read
        from_ unread shows

theorem map_fst_zero (cursors : List Cursor)
    : (cursors.map fun c => (c, 0)).map Prod.fst = cursors
      ∧ ((cursors.map fun c => (c, 0)).map Prod.snd).sum = 0 := by
  rw [List.map_map, List.map_map]
  refine ⟨List.map_id _, List.sum_eq_zero fun n mem => ?_⟩
  obtain ⟨_, _, rfl⟩ := List.mem_map.mp mem
  rfl

/-- A segment of the page's loop shows a slice of it. -/
theorem segment_sliced (listed : Listed r record authors)
    (walked : Walked r record beforeT authors seg later out) (latest : g = latestFrom r.rosters seg)
    (within : g ≤ seg)
    (short : beforeT = none ∨ ∀ author ∈ authors, (r.logs author.2).length ≤ 2 ^ 31) {limit : Nat}
    (few : out.length < limit)
    : ∃ shown, Sliced r record beforeT authors g (limit - out.length) shown
      ∧ ∃ enough, ∀ fuel ≥ enough,
          segment r record beforeT limit fuel g later out.length = some (.ok (shown, 0)) := by
  obtain ⟨cursors, entries, begun, enough, gives⟩ := exists_begun listed walked latest within short
  have needed : 0 < limit - out.length := Nat.sub_pos_of_lt few
  obtain ⟨shown, sliced, enough', gives'⟩ := exists_sliced listed entries begun needed
  refine ⟨shown, sliced, max enough enough', fun fuel more => ?_⟩
  have need : (limit : Int) - out.length = (limit - out.length : Nat) := by omega
  unfold segment
  rw [gives fuel ((le_max_left _ _).trans more)]
  dsimp only
  rw [(map_fst_zero cursors).1, (map_fst_zero cursors).2, need]
  exact gives' fuel ((le_max_right _ _).trans more) 0

-- From one segment to those before it

/-- Where an author's walked messages begin once a segment's entries are noted. -/
theorem get?_later {entries : List Entry} {a : Key}
    : (∃ e ∈ entries, e.author = a
        ∧ (entries.foldl (fun later e => later.put e.author e.start) later).get? a = some e.start)
      ∨ (∀ e ∈ entries, e.author ≠ a)
        ∧ (entries.foldl (fun later e => later.put e.author e.start) later).get? a = later.get? a := by
  induction entries generalizing later with
  | nil => exact .inr ⟨(fun _ mem => nomatch mem), rfl⟩
  | cons first rest ih =>
      rcases @ih (later.put first.author first.start) with ⟨e, mem, own, is⟩ | ⟨none_, is⟩
      · exact .inl ⟨e, .tail _ mem, own, is⟩
      · rw [Dict.get?_put] at is
        by_cases own : a = first.author
        · rw [if_pos own] at is
          exact .inl ⟨first, .head _, own.symm, is⟩
        · rw [if_neg own] at is
          exact .inr ⟨List.forall_mem_cons.mpr ⟨fun same => own same.symm, none_⟩, is⟩

/-- A segment shown in full is walked. -/
theorem Walked.next (listed : Listed r record authors)
    (walked : Walked r record beforeT authors seg later out) (latest : g = latestFrom r.rosters seg)
    (within : g ≤ seg) {shown : List Shown} (unique : shown.Nodup)
    (mem_page : ∀ s, s ∈ shown ↔ s ∈ wanted r record beforeT authors ∧ record.segment s.t = g)
    : Walked r record beforeT authors (g - 1)
        ((entriesFrom r.rosters g).foldl (fun later e => later.put e.author e.start) later)
        (out ++ shown) := by
  -- no message lies between the two segments
  have between : ∀ author ∈ authors, ∀ seq m, (r.logs author.2).Has seq m →
      record.segment m.t ≤ seg → record.segment m.t ≤ g :=
    fun author mem seq m has le => latest ▸ listed.le_latest mem has le
  -- an author with no entry has no message in it
  have absent : ∀ author ∈ authors, (∀ e ∈ entriesFrom r.rosters g, e.author ≠ author.1) →
      ∀ seq m, (r.logs author.2).Has seq m → (record.segment m.t ≤ g - 1 ↔ record.segment m.t ≤ seg) := by
    intro author mem none_ seq m has
    constructor
    · omega
    · intro le
      have below := between author mem seq m has le
      refine Int.le_sub_one_of_lt (lt_of_le_of_ne below fun same => ?_)
      obtain ⟨e, at_, own, _⟩ := listed.exists_entry mem has
      exact none_ e (same ▸ at_) own
  refine ⟨?_, ?_, ?_, ?_⟩
  · refine List.nodup_append.mpr ⟨walked.unique, unique, fun s was t here same => ?_⟩
    subst same
    have after := ((walked.mem_out s).mp was).2
    have at_ := ((mem_page s).mp here).2
    omega
  · intro s
    rw [List.mem_append, walked.mem_out, mem_page]
    constructor
    · rintro (⟨mem, after⟩ | ⟨mem, at_⟩)
      · exact ⟨mem, by omega⟩
      · exact ⟨mem, by omega⟩
    · rintro ⟨mem, after⟩
      by_cases later_ : seg < record.segment s.t
      · exact .inl ⟨mem, later_⟩
      · obtain ⟨author, known, seq, bound, is⟩ := mem_wanted.mp mem
        obtain ⟨m, block, _⟩ := of_shownAt is
        have below := between author known seq m ⟨bound, block⟩
        rw [← t_of_shownAt block is] at below
        have le := below (not_lt.mp later_)
        exact .inr ⟨mem, by omega⟩
  · intro author mem start found
    rcases @get?_later later (entriesFrom r.rosters g) author.1 with
      ⟨e, at_, own, is⟩ | ⟨none_, is⟩
    · rw [found] at is
      obtain ⟨known, bound, _⟩ := listed.honest g e (listed_of_mem at_)
      have log : e.log = author.2 := listed.log_eq mem (own ▸ known)
      rw [Option.some.inj is]
      refine ⟨log ▸ bound, fun seq m has => ?_⟩
      rw [listed.start_iff at_ (log ▸ has)]
      exact Int.le_sub_one_iff.symm
    · rw [is] at found
      obtain ⟨bound, iff_⟩ := walked.known author mem start found
      exact ⟨bound, fun seq m has => (iff_ seq m has).trans (absent author mem none_ seq m has).symm⟩
  · intro author mem found seq m has
    rcases @get?_later later (entriesFrom r.rosters g) author.1 with
      ⟨e, _, _, is⟩ | ⟨none_, is⟩
    · rw [found] at is
      exact nomatch is
    · rw [is] at found
      exact (walked.unknown author mem found seq m has).imp_left
        (absent author mem none_ seq m has).mpr

-- A page

/-- A message not read is beaten by as many as fill the page. -/
theorem beaten (walked : Walked r record beforeT authors seg later out)
    (listed : Listed r record authors) (latest : g = latestFrom r.rosters seg) {limit : Nat}
    (few : out.length < limit) {shown : List Shown} {last : Shown}
    (sliced : Sliced r record beforeT authors g (limit - out.length) shown)
    (at_ : shown[limit - out.length - 1]? = some last)
    (after : ∀ s ∈ wanted r record beforeT authors, record.segment s.t = g → s ∉ shown → s.rank < last.rank)
    (mem : s ∈ wanted r record beforeT authors) (outside : s ∉ out ++ shown)
    : limit ≤ (out ++ shown).countP fun t => s.rank < t.rank := by
  rw [List.mem_append, not_or] at outside
  have before : ∀ t : Shown, record.segment s.t < record.segment t.t → s.rank < t.rank := by
    intro t less
    refine rank_lt_of_t ?_
    by_contra later_
    exact absurd less (not_lt.mpr (Record.segment_mono (not_lt.mp later_)))
  have under : record.segment s.t ≤ seg := by
    by_contra above
    exact outside.1 ((walked.mem_out s).mpr ⟨mem, not_le.mp above⟩)
  have below : record.segment s.t ≤ g := by
    obtain ⟨author, known, seq, bound, is⟩ := mem_wanted.mp mem
    obtain ⟨m, block, _⟩ := of_shownAt is
    rw [t_of_shownAt block is] at under ⊢
    exact latest ▸ listed.le_latest known ⟨bound, block⟩ under
  have lower_ : s.rank < last.rank := by
    rcases lt_or_eq_of_le below with less | same
    · have here := (sliced.sound last (List.mem_of_getElem? at_)).2
      exact before last (here ▸ less)
    · exact after s mem same outside.2
  have first : out.countP (fun t => decide (s.rank < t.rank)) = out.length := by
    rw [List.countP_eq_length]
    intro t was
    have above := ((walked.mem_out t).mp was).2
    exact decide_eq_true (before t (by omega))
  have second : limit - out.length ≤ shown.countP fun t => decide (s.rank < t.rank) := by
    obtain ⟨list, sorted⟩ := sliced.sorted
    rw [sorted, sort_eq] at at_
    have enough := Newest.le_countP_of_below at_ lower_
    rw [sorted, sort_eq, (Newest.perm_sort list).countP_eq]
    omega
  rw [List.countP_append, first]
  omega

/-- Where no message is left in the segments before, all there is to show has been. -/
theorem sort_out (listed : Listed r record authors) (walked : Walked r record beforeT authors seg later out)
    (none_ : ∀ author ∈ authors, ∀ seq m, (r.logs author.2).Has seq m → seg < record.segment m.t)
    : sort out = sort (wanted r record beforeT authors) := by
  have once := @nodup_wanted r record beforeT authors listed.once
  have apart := @apart_wanted r record beforeT authors listed.once
  have same : (wanted r record beforeT authors).Perm out := by
    rw [List.perm_ext_iff_of_nodup once walked.unique]
    intro s
    rw [walked.mem_out]
    refine ⟨fun mem => ⟨mem, ?_⟩, fun both => both.1⟩
    obtain ⟨author, known, seq, bound, is⟩ := mem_wanted.mp mem
    obtain ⟨m, block, _⟩ := of_shownAt is
    rw [t_of_shownAt block is]
    exact none_ author known seq m ⟨bound, block⟩
  rw [sort_eq, sort_eq, Newest.sort_congr apart same]

/-- Where a page is full, it is the first of all there is to show. -/
theorem take_sort_full (listed : Listed r record authors)
    (walked : Walked r record beforeT authors seg later out) (latest : g = latestFrom r.rosters seg)
    (within : g ≤ seg) {limit : Nat} (few : out.length < limit) {shown : List Shown} {last : Shown}
    (sliced : Sliced r record beforeT authors g (limit - out.length) shown)
    (at_ : shown[limit - out.length - 1]? = some last)
    (after : ∀ s ∈ wanted r record beforeT authors, record.segment s.t = g → s ∉ shown → s.rank < last.rank)
    : (sort (out ++ shown)).take limit = (sort (wanted r record beforeT authors)).take limit := by
  rw [sort_eq, sort_eq]
  refine Newest.take_sort_of_part (apart_wanted listed.once) (nodup_wanted listed.once) ?_ ?_ ?_
  · refine List.nodup_append.mpr ⟨walked.unique, sliced.unique, fun s was t here same => ?_⟩
    subst same
    have above := ((walked.mem_out s).mp was).2
    have there := (sliced.sound s here).2
    omega
  · intro s mem
    rcases List.mem_append.mp mem with was | here
    · exact ((walked.mem_out s).mp was).1
    · exact (sliced.sound s here).1
  · exact fun s mem outside => beaten walked listed latest few sliced at_ after mem outside

/-- The walk ends with the slice; induction on how many segments are left. -/
theorem walk_slices (listed : Listed r record authors)
    (short : beforeT = none ∨ ∀ author ∈ authors, (r.logs author.2).length ≤ 2 ^ 31) {limit : Nat}
    (walked : Walked r record beforeT authors seg later out) (few : out.length < limit)
    : ∃ enough, ∀ steps ≥ enough, ∀ fuel ≥ enough, ∀ unreachable,
        walk r record beforeT limit fuel steps seg later out unreachable
          = some (.ok ((sort (wanted r record beforeT authors)).take limit, unreachable)) := by
  have first : segmentOf record.createdAt record.segmentMs = record.segment record.createdAt := rfl
  induction size : (seg + 1 - record.segment record.createdAt).toNat using Nat.strong_induction_on
    generalizing seg later out with
  | _ size ih =>
      by_cases beyond : seg < record.segment record.createdAt
      · have all := sort_out listed walked fun author mem seq m has =>
          lt_of_lt_of_le beyond (listed.first author mem seq m has)
        refine ⟨1, fun steps more fuel _ unreachable => ?_⟩
        obtain ⟨steps, rfl⟩ : ∃ less, steps = less + 1 := ⟨steps - 1, by omega⟩
        rw [walk, first, if_pos beyond, finish, all]
      · have zero := record.segment_nonneg record.createdAt
        obtain ⟨g, latest⟩ : ∃ g, g = latestFrom r.rosters seg := ⟨_, rfl⟩
        have within : g ≤ seg := latest ▸ latestFrom_le (by omega)
        by_cases negative : g < 0
        · have all := sort_out listed walked fun author mem seq m has => by
            by_contra below
            have le := listed.le_latest mem has (not_lt.mp below)
            have positive := record.segment_nonneg m.t
            omega
          refine ⟨1, fun steps more fuel _ unreachable => ?_⟩
          obtain ⟨steps, rfl⟩ : ∃ less, steps = less + 1 := ⟨steps - 1, by omega⟩
          rw [walk, first, if_neg beyond]
          rw [← latest, if_pos negative, finish, all]
        · obtain ⟨shown, sliced, enough, gives⟩ := segment_sliced listed walked latest within short few
          have step : ∀ steps fuel, fuel ≥ enough → ∀ unreachable,
              walk r record beforeT limit fuel (steps + 1) seg later out unreachable
                = if limit ≤ (out ++ shown).length then some (finish limit (out ++ shown) unreachable)
                  else walk r record beforeT limit fuel steps (g - 1)
                    ((entriesFrom r.rosters g).foldl (fun later e => later.put e.author e.start) later)
                    (out ++ shown) unreachable := by
            intro steps fuel more unreachable
            rw [walk, first, if_neg beyond]
            rw [← latest, if_neg negative, gives fuel more]
            rfl
          rcases sliced.full with ⟨fewer, all⟩ | ⟨last, at_, after⟩
          · have walked' := walked.next listed latest within sliced.unique
              fun s => ⟨sliced.sound s, fun both => all s both.1 both.2⟩
            have few' : (out ++ shown).length < limit := by
              rw [List.length_append]
              omega
            obtain ⟨enough', gives'⟩ := ih _ (by omega) walked' few' rfl
            refine ⟨max enough enough' + 1, fun steps more fuel more' unreachable => ?_⟩
            obtain ⟨steps, rfl⟩ : ∃ less, steps = less + 1 := ⟨steps - 1, by omega⟩
            rw [step steps fuel (by omega), if_neg (not_le.mpr few')]
            exact gives' steps (by omega) fuel (by omega) unreachable
          · have full : limit ≤ (out ++ shown).length := by
              have bound := (List.getElem?_eq_some_iff.mp at_).1
              rw [List.length_append]
              omega
            refine ⟨enough + 1, fun steps more fuel more' unreachable => ?_⟩
            obtain ⟨steps, rfl⟩ : ∃ less, steps = less + 1 := ⟨steps - 1, by omega⟩
            rw [step steps fuel (by omega), if_pos full, finish,
              take_sort_full listed walked latest within few sliced at_ after]

theorem Walked.start : Walked r record beforeT authors (newest r record beforeT) .empty [] := by
  refine ⟨.nil, fun s => ⟨(fun mem => nomatch mem), ?_⟩, (fun _ _ _ found => nomatch found), ?_⟩
  · rintro ⟨mem, after⟩
    obtain ⟨author, _, seq, _, is⟩ := mem_wanted.mp mem
    exact absurd after (not_lt.mpr (segment_le_newest is))
  · exact fun _ _ _ seq m _ => le_or_gt _ _

end Segment

section Page

variable (r : Reader) (record : Record) (beforeT : Option Rat) (authors : List (Key × Key))

/-- An author of the newest segment listed has a second message there, or later, older than `beforeT`. -/
def Crowded : Prop :=
  record.segment record.createdAt ≤ newest r record beforeT
  ∧ 0 ≤ latestFrom r.rosters (newest r record beforeT)
  ∧ ∃ e ∈ entriesFrom r.rosters (latestFrom r.rosters (newest r record beforeT)),
      ∃ m, (r.logs e.log).Has (e.start + 1) m ∧ older beforeT m = true

/-- A page is the exact newest slice, once it has run long enough, and every block was fetched. -/
def Exact (limit : Nat) : Prop :=
  ∃ enough, ∀ fuel ≥ enough, page r beforeT limit fuel
    = some (.ok ((sort (wanted r record beforeT authors)).take limit, 0))

variable {r record beforeT authors}

theorem exact_of_pos (listed : Listed r record authors) (known : r.channel = some record)
    (short : beforeT = none ∨ ∀ author ∈ authors, (r.logs author.2).length ≤ 2 ^ 31) {limit : Nat}
    (positive : 0 < limit)
    : Exact r record beforeT authors limit := by
  obtain ⟨enough, gives⟩ := walk_slices listed short Walked.start positive
  refine ⟨enough, fun fuel more => ?_⟩
  unfold page
  rw [known]
  exact gives fuel more fuel more 0

/-- Whether an author has two messages to read. -/
theorem top_iff {c : Cursor} {g : Int} (listed : Listed r record authors)
    (begun : c.Begun r record beforeT .empty g) (at_ : c.entry ∈ entriesFrom r.rosters g)
    : (c.entry.start : Int) < c.top
      ↔ ∃ m, (r.logs c.entry.log).Has (c.entry.start + 1) m ∧ older beforeT m = true := by
  have top : c.top < (r.logs c.entry.log).length := begun.fresh.top
  have fetched := listed.fetched _ (listed.honest g _ (listed_of_mem at_)).1
  constructor
  · intro less
    have bound : c.entry.start + 1 < (r.logs c.entry.log).length := by omega
    obtain ⟨m, here⟩ := Option.isSome_iff_exists.mp (fetched _ bound)
    exact ⟨m, ⟨bound, here⟩, (begun.fresh.splits _ (Nat.le_succ _) bound m here).mpr (by omega)⟩
  · rintro ⟨m, ⟨bound, here⟩, old⟩
    have within := (begun.fresh.splits _ (Nat.le_succ _) bound m here).mp old
    omega

/-- A page of no messages is empty, or fails. -/
theorem page_zero (listed : Listed r record authors) (known : r.channel = some record)
    (short : beforeT = none ∨ ∀ author ∈ authors, (r.logs author.2).length ≤ 2 ^ 31)
    : ∃ enough, ∀ fuel ≥ enough,
        (¬ Crowded r record beforeT → page r beforeT 0 fuel = some (.ok ([], 0)))
        ∧ (Crowded r record beforeT → page r beforeT 0 fuel = some (.error missing)) := by
  have first : segmentOf record.createdAt record.segmentMs = record.segment record.createdAt := rfl
  have none_ : ∀ out unreachable, finish 0 out unreachable = .ok ([], unreachable) := by
    intro out unreachable
    rw [finish, List.take_zero]
  by_cases beyond : newest r record beforeT < record.segment record.createdAt
  · refine ⟨1, fun fuel more => ⟨fun _ => ?_, fun crowded => absurd beyond (not_lt.mpr crowded.1)⟩⟩
    obtain ⟨fuel, rfl⟩ : ∃ less, fuel = less + 1 := ⟨fuel - 1, by omega⟩
    unfold page
    rw [known]
    dsimp only
    rw [walk, first, if_pos beyond, none_]
  · obtain ⟨g, latest⟩ : ∃ g, g = latestFrom r.rosters (newest r record beforeT) := ⟨_, rfl⟩
    have zero := record.segment_nonneg record.createdAt
    have within : g ≤ newest r record beforeT := latest ▸ latestFrom_le (by omega)
    by_cases negative : g < 0
    · refine ⟨1, fun fuel more => ⟨fun _ => ?_, fun crowded => ?_⟩⟩
      · obtain ⟨fuel, rfl⟩ : ∃ less, fuel = less + 1 := ⟨fuel - 1, by omega⟩
        unfold page
        rw [known]
        dsimp only
        rw [walk, first, if_neg beyond]
        rw [← latest, if_pos negative, none_]
      · exact absurd negative (not_lt.mpr (latest ▸ crowded.2.1))
    · obtain ⟨cursors, entries, begun, enough, gives⟩ :=
        exists_begun listed (@Walked.start r record beforeT authors) latest within short
      obtain ⟨shown, ends⟩ := rounds_none (fun c mem => (begun c mem).reading)
        (fun c mem => (begun c mem).fresh.next) 0
      have crowded : Crowded r record beforeT ↔ ¬ ∀ c ∈ cursors, c.top ≤ c.entry.start := by
        have at_ : ∀ c ∈ cursors, c.entry ∈ entriesFrom r.rosters g :=
          fun c mem => entries ▸ List.mem_map.mpr ⟨c, mem, rfl⟩
        constructor
        · rintro ⟨_, _, e, there, two⟩ all
          rw [← latest, ← entries] at there
          obtain ⟨c, mem, rfl⟩ := List.mem_map.mp there
          exact absurd ((top_iff listed (begun c mem) (at_ c mem)).mpr two) (not_lt.mpr (all c mem))
        · intro some_
          obtain ⟨c, mem, less⟩ : ∃ c ∈ cursors, (c.entry.start : Int) < c.top := by
            by_contra none_
            exact some_ fun c mem => not_lt.mp fun less => none_ ⟨c, mem, less⟩
          exact ⟨not_lt.mp beyond, latest ▸ not_lt.mp negative, c.entry, latest ▸ at_ c mem,
            (top_iff listed (begun c mem) (at_ c mem)).mp less⟩
      refine ⟨enough + 2, fun fuel more => ?_⟩
      obtain ⟨less, rfl⟩ : ∃ less, fuel = less + 1 := ⟨fuel - 1, by omega⟩
      have need : ((0 : Nat) : Int) - (([] : List Shown).length : Int) = 0 := rfl
      have shows : segment r record beforeT 0 (less + 1) g .empty ([] : List Shown).length
          = some (if ∀ c ∈ cursors, c.top ≤ c.entry.start then .ok (shown, 0) else .error missing) := by
        unfold segment
        rw [gives (less + 1) (by omega)]
        dsimp only
        rw [(map_fst_zero cursors).1, (map_fst_zero cursors).2, need]
        exact ends (less + 1) (by omega)
      unfold page
      rw [known]
      dsimp only
      rw [walk, first, if_neg beyond]
      rw [← latest, if_neg negative, shows, crowded]
      by_cases alone : ∀ c ∈ cursors, c.top ≤ c.entry.start
      · refine ⟨fun _ => ?_, fun some_ => absurd alone some_⟩
        rw [if_pos alone]
        exact (if_pos (Nat.zero_le _)).trans (congrArg some (none_ _ _))
      · refine ⟨fun wrong => absurd alone wrong, fun _ => ?_⟩
        rw [if_neg alone]

/-- A page is the exact newest slice of a channel, but for a page of no messages where an author has two
to read. A log of more than 2^31 messages is searched only for a time, by an index that wraps.
-/
theorem page_exact_iff (listed : Listed r record authors) (known : r.channel = some record)
    (short : beforeT = none ∨ ∀ author ∈ authors, (r.logs author.2).length ≤ 2 ^ 31) (limit : Nat)
    : Exact r record beforeT authors limit ↔ 0 < limit ∨ ¬ Crowded r record beforeT := by
  constructor
  · rintro ⟨enough, gives⟩
    rcases Nat.eq_zero_or_pos limit with rfl | positive
    · refine .inr fun crowded => ?_
      obtain ⟨enough', fails⟩ := page_zero listed known short
      have result := (fails _ (le_max_right enough enough')).2 crowded
      rw [gives _ (le_max_left enough enough')] at result
      exact nomatch result
    · exact .inl positive
  · intro fine
    rcases Nat.eq_zero_or_pos limit with rfl | positive
    · obtain ⟨enough, passes⟩ := page_zero listed known short
      refine ⟨enough, fun fuel more => ?_⟩
      rw [List.take_zero]
      exact (passes fuel more).1 (fine.resolve_left (lt_irrefl 0))
    · exact exact_of_pos listed known short positive

end Page

-- A channel with one author

/-- A channel with segments of a second. -/
def quick : Record := ⟨0, 1000, false, by decide⟩

/-- Three messages, the last two in one segment. -/
def talk : Log where
  length := 3
  get seq := [⟨100, .text "one" none⟩, ⟨1100, .text "two" none⟩, ⟨1500, .text "three" none⟩][seq]?

def listener : Reader where
  channel := some quick
  rosters := [[⟨0, ⟨[1], [2], 0⟩, true⟩, ⟨1, ⟨[1], [2], 1⟩, true⟩]]
  logs _ := talk
  banned _ := none
  hidden _ _ _ := false
  opened _ _ _ _ _ := none
  now := 2000

theorem of_talk {seq : Nat} {m : Message} (has : talk.Has seq m)
    : (seq = 0 ∧ m.t = 100) ∨ (seq = 1 ∧ m.t = 1100) ∨ (seq = 2 ∧ m.t = 1500) := by
  obtain ⟨bound, here⟩ := has
  have cases_ : seq = 0 ∨ seq = 1 ∨ seq = 2 := by
    have : seq < 3 := bound
    omega
  rcases cases_ with rfl | rfl | rfl <;> cases here
  · exact .inl ⟨rfl, rfl⟩
  · exact .inr (.inl ⟨rfl, rfl⟩)
  · exact .inr (.inr ⟨rfl, rfl⟩)

theorem talk_fetched : talk.Fetched := by
  intro seq bound
  have cases_ : seq = 0 ∨ seq = 1 ∨ seq = 2 := by
    have : seq < 3 := bound
    omega
  rcases cases_ with rfl | rfl | rfl <;> rfl

theorem listener_listed : Listed listener quick [([1], [2])] := by
  have own : ∀ g e, ListedIn listener.rosters g e →
      (g = 0 ∧ e = ⟨[1], [2], 0⟩) ∨ (g = 1 ∧ e = ⟨[1], [2], 1⟩) := by
    rintro g e ⟨roster, mem, l, here, _, rfl, rfl⟩
    cases List.mem_singleton.mp mem
    rcases List.mem_cons.mp here with rfl | here
    · exact .inl ⟨rfl, rfl⟩
    · cases List.mem_singleton.mp here
      exact .inr ⟨rfl, rfl⟩
  have segments : quick.segment 100 = 0 ∧ quick.segment 1100 = 1 ∧ quick.segment 1500 = 1 := by decide
  obtain ⟨zeroth, first, second⟩ := segments
  refine ⟨by decide, fun _ _ => talk_fetched, ?_, ?_, ?_, ?_⟩
  · intro _ _ one two m m' le bound here there
    rcases of_talk ⟨lt_of_le_of_lt le bound, here⟩ with ⟨rfl, t⟩ | ⟨rfl, t⟩ | ⟨rfl, t⟩ <;>
      rcases of_talk ⟨bound, there⟩ with ⟨rfl, t'⟩ | ⟨rfl, t'⟩ | ⟨rfl, t'⟩ <;> omega
  · intro _ _ seq m _
    exact Int.natCast_nonneg _
  · intro author mem seq m has all
    cases List.mem_singleton.mp mem
    rcases of_talk has with ⟨rfl, t⟩ | ⟨rfl, t⟩ | ⟨rfl, t⟩
    · rw [t, zeroth]
      exact ⟨_, .head _, _, .head _, rfl, rfl, rfl⟩
    · rw [t, first]
      exact ⟨_, .head _, _, .tail _ (.head _), rfl, rfl, rfl⟩
    · have before := all 1 ⟨1100, .text "two" none⟩ (by decide) ⟨by decide, rfl⟩
      rw [t, second] at before
      exact absurd before (by decide)
  · intro g e listed
    rcases own g e listed with ⟨rfl, rfl⟩ | ⟨rfl, rfl⟩ <;>
      refine ⟨.head _, by decide, fun seq m has => ?_⟩ <;>
      rcases of_talk has with ⟨rfl, t⟩ | ⟨rfl, t⟩ | ⟨rfl, t⟩ <;>
      simp only [t, zeroth, first, second] <;> omega

/-- The three messages' channel read: its last segment, and a page of one message. -/
theorem listener_read
    : newest listener quick none = 302 ∧ latestFrom listener.rosters 302 = 1
      ∧ entriesFrom listener.rosters 1 = [⟨[1], [2], 1⟩]
      ∧ page listener none 0 9 = some (.error missing) := by
  decide +kernel

/-- The messages before the third one, across two segments. -/
theorem talk_page : Exact listener quick (some 1500) [([1], [2])] 2 :=
  (page_exact_iff listener_listed rfl (.inr (by decide)) 2).mpr (.inl (by decide))

/-- A page of no messages of the channel fails. -/
theorem empty_page_fails
    : Listed listener quick [([1], [2])] ∧ listener.channel = some quick
      ∧ (∀ author ∈ [(([1], [2]) : Key × Key)], (listener.logs author.2).length ≤ 2 ^ 31)
      ∧ page listener none 0 9 = some (.error missing)
      ∧ ¬ Exact listener quick none [([1], [2])] 0 := by
  obtain ⟨begins, latest, entries, fails⟩ := listener_read
  refine ⟨listener_listed, rfl, by decide, fails, ?_⟩
  rintro ⟨enough, gives⟩
  have crowded : Crowded listener quick none := by
    unfold Crowded
    rw [begins, latest, entries]
    exact ⟨by decide, by decide, _, .head _, _, ⟨by decide, rfl⟩, rfl⟩
  obtain ⟨enough', result⟩ := page_zero listener_listed rfl (.inl rfl)
  have both := (result _ (le_max_right enough enough')).2 crowded
  rw [gives _ (le_max_left enough enough')] at both
  exact nomatch both

end Hypergraph.Channels.Pages
