import Hypergraph.Channels.Rounds
import Hypergraph.Lib.Least

/-! What keepers' rosters say of a channel's authors, and what of it a page relies on: each author is
listed in each segment it posted in, where its messages there begin.
-/

namespace Hypergraph.Channels.Pages

open Wire Js Encodings

-- The entries of a segment

section Entries

variable {byAuthor : Dict Key Entry} {e known : Entry} {author : Key}

theorem lower_eq : lower = Least.lower Entry.author Entry.start := by
  funext byAuthor e
  unfold lower Least.lower
  cases byAuthor.get? e.author with
  | none => rfl
  | some known => exact if_congr Iff.rfl rfl rfl

variable {listed : List Listing}

/-- The entries of these listings, over those there are. -/
abbrev gather (byAuthor : Dict Key Entry) (listed : List Listing) : Dict Key Entry :=
  listed.foldl (fun byAuthor l => lower byAuthor l.entry) byAuthor

theorem gather_eq
    : gather byAuthor listed
      = Least.gather Entry.author Entry.start byAuthor (listed.map Listing.entry) := by
  rw [gather, Least.gather, List.foldl_map, lower_eq]

theorem gather_listed {l : Listing} (mem : l ∈ listed)
    : ∃ kept, (gather byAuthor listed).get? l.entry.author = some kept
        ∧ kept.start ≤ l.entry.start := by
  rw [gather_eq]
  exact Least.gather_mem _ _ _ (List.mem_map_of_mem mem)

theorem of_gather (found : (gather byAuthor listed).get? author = some known)
    : byAuthor.get? author = some known ∨ ∃ l ∈ listed, author = l.entry.author ∧ known = l.entry := by
  rw [gather_eq] at found
  refine (Least.of_gather found).imp id ?_
  rintro ⟨mem, own⟩
  obtain ⟨l, there, rfl⟩ := List.mem_map.mp mem
  exact ⟨l, there, own, rfl⟩

variable {rosters : List Roster} {g : Int}

/-- What keepers' rosters list of a segment, by its author's own signature. -/
def ListedIn (rosters : List Roster) (g : Int) (e : Entry) : Prop :=
  ∃ roster ∈ rosters, ∃ l ∈ roster, l.verified = true ∧ (l.segment : Int) = g ∧ l.entry = e

theorem mem_listed {l : Listing}
    : l ∈ (rosters.flatMap fun roster => roster.filter fun l => l.segment = g).filter (·.verified)
      ↔ ∃ roster ∈ rosters, l ∈ roster ∧ l.verified = true ∧ (l.segment : Int) = g := by
  simp only [List.mem_filter, List.mem_flatMap, decide_eq_true_eq]
  constructor
  · rintro ⟨⟨roster, mem, here, same⟩, verified⟩
    exact ⟨roster, mem, here, verified, same⟩
  · rintro ⟨roster, mem, here, verified, same⟩
    exact ⟨⟨roster, mem, here, same⟩, verified⟩

/-- The segment's entries by their author. -/
theorem mem_entriesFrom
    : e ∈ entriesFrom rosters g ↔ (gather .empty ((rosters.flatMap fun roster =>
        roster.filter fun l => l.segment = g).filter (·.verified))).get? e.author = some e := by
  unfold entriesFrom
  rw [List.mem_map]
  constructor
  · rintro ⟨⟨author, entry⟩, mem, rfl⟩
    have found := Dict.mem_entries_iff.mp mem
    rcases of_gather found with none_ | ⟨l, _, own, is⟩
    · exact nomatch none_
    · have same : author = entry.author := own.trans (congrArg Entry.author is.symm)
      exact same ▸ found
  · exact fun found => ⟨(e.author, e), Dict.mem_entries_iff.mpr found, rfl⟩

theorem listed_of_mem (mem : e ∈ entriesFrom rosters g) : ListedIn rosters g e := by
  rcases of_gather (mem_entriesFrom.mp mem) with none_ | ⟨l, here, _, is⟩
  · exact nomatch none_
  · obtain ⟨roster, within, here, verified, same⟩ := mem_listed.mp here
    exact ⟨roster, within, l, here, verified, same, is.symm⟩

theorem mem_of_listed (listed : ListedIn rosters g e)
    : ∃ kept ∈ entriesFrom rosters g, kept.author = e.author ∧ kept.start ≤ e.start := by
  obtain ⟨roster, within, l, here, verified, same, rfl⟩ := listed
  obtain ⟨kept, found, below⟩ := @gather_listed .empty _ _
    (mem_listed.mpr ⟨roster, within, here, verified, same⟩)
  have own : kept.author = l.entry.author := by
    rcases of_gather found with none_ | ⟨l', _, own, is⟩
    · exact nomatch none_
    · exact (congrArg Entry.author is).trans own.symm
  exact ⟨kept, mem_entriesFrom.mpr (own ▸ found), own, below⟩

theorem entry_unique {other : Entry} (mem : e ∈ entriesFrom rosters g) (there : other ∈ entriesFrom rosters g)
    (same : e.author = other.author)
    : e = other := by
  have found := mem_entriesFrom.mp mem
  rw [same, mem_entriesFrom.mp there] at found
  exact (Option.some.inj found).symm

theorem nodup_entriesFrom : ((entriesFrom rosters g).map Entry.author).Nodup := by
  have same : (entriesFrom rosters g).map Entry.author = (gather .empty ((rosters.flatMap fun roster =>
      roster.filter fun l => l.segment = g).filter (·.verified))).keys := by
    unfold entriesFrom Dict.keys
    rw [List.map_map]
    refine List.map_congr_left fun entry mem => ?_
    rcases of_gather (Dict.mem_entries_iff.mp mem) with none_ | ⟨l, _, own, is⟩
    · exact nomatch none_
    · exact (congrArg Entry.author is).trans own.symm
  rw [same]
  exact Dict.unique _

end Entries

-- The latest segment

section Latest

variable {α : Type} {list : List α} {value : α → Int} {start bound : Int}

theorem le_foldl_max
    : start ≤ list.foldl (fun best a => max best (value a)) start
      ∧ ∀ a ∈ list, value a ≤ list.foldl (fun best a => max best (value a)) start := by
  induction list generalizing start with
  | nil => exact ⟨le_refl _, fun _ mem => nomatch mem⟩
  | cons a rest ih =>
      obtain ⟨from_, all⟩ := @ih (max start (value a))
      refine ⟨(le_max_left _ _).trans from_, fun b mem => ?_⟩
      rcases List.mem_cons.mp mem with rfl | mem
      · exact (le_max_right _ _).trans from_
      · exact all b mem

theorem foldl_max_le (first : start ≤ bound) (all : ∀ a ∈ list, value a ≤ bound)
    : list.foldl (fun best a => max best (value a)) start ≤ bound := by
  induction list generalizing start with
  | nil => exact first
  | cons a rest ih => exact ih (max_le first (all a (.head _))) fun b mem => all b (.tail _ mem)

variable {rosters : List Roster} {g : Int} {e : Entry}

theorem latestFrom_le (zero : -1 ≤ bound) : latestFrom rosters bound ≤ bound := by
  refine foldl_max_le zero fun roster _ => @foldl_max_le Int _ id _ _ zero fun g mem => ?_
  exact of_decide_eq_true (List.mem_filter.mp mem).2

theorem le_latestFrom (listed : ListedIn rosters g e) (within : g ≤ bound)
    : g ≤ latestFrom rosters bound := by
  obtain ⟨roster, mem, l, here, _, rfl, _⟩ := listed
  have there : (l.segment : Int) ∈ (roster.map fun l => (l.segment : Int)).filter (· ≤ bound) :=
    List.mem_filter.mpr ⟨List.mem_map.mpr ⟨l, here, rfl⟩, decide_eq_true within⟩
  have first : (l.segment : Int) ≤ roster.latestSegment bound := (@le_foldl_max Int _ id _).2 _ there
  exact first.trans (le_foldl_max.2 roster mem)

end Latest

-- A channel's authors

/-- A log has a message at a seq. -/
def Log.Has (log : Log) (seq : Nat) (m : Message) : Prop := seq < log.length ∧ log.get seq = some m

/-- The segment a time is in. -/
def Record.segment (record : Record) (t : Nat) : Int := segmentOf t record.segmentMs

/-- A channel's authors and their logs, as a page relies on them: each block can be fetched, times don't
go down, none is in a segment before the channel's first, and each author is listed in each segment it
posted in at its first message there. What an author signed is of its own log, and starts neither before
its messages of that segment nor past them.
-/
structure Listed (r : Reader) (record : Record) (authors : List (Key × Key)) : Prop where
  once : (authors.map Prod.fst).Nodup
  fetched : ∀ author ∈ authors, (r.logs author.2).Fetched
  rising : ∀ author ∈ authors, (r.logs author.2).Rising
  first : ∀ author ∈ authors, ∀ seq m, (r.logs author.2).Has seq m →
    record.segment record.createdAt ≤ record.segment m.t
  listed : ∀ author ∈ authors, ∀ seq m, (r.logs author.2).Has seq m →
    (∀ earlier m', earlier < seq → (r.logs author.2).Has earlier m' →
      record.segment m'.t < record.segment m.t) →
    ListedIn r.rosters (record.segment m.t) ⟨author.1, author.2, seq⟩
  honest : ∀ g e, ListedIn r.rosters g e → (e.author, e.log) ∈ authors
    ∧ e.start ≤ (r.logs e.log).length
    ∧ ∀ seq m, (r.logs e.log).Has seq m →
      (seq < e.start → record.segment m.t ≤ g) ∧ (e.start ≤ seq → g ≤ record.segment m.t)

section Authors

variable {r : Reader} {record : Record} {authors : List (Key × Key)} {author : Key × Key} {seq : Nat}
  {m : Message} {e : Entry} {g bound : Int}

theorem Record.segment_mono {t t' : Nat} (le : t ≤ t') : record.segment t ≤ record.segment t' := by
  unfold Record.segment segmentOf
  exact_mod_cast Nat.div_le_div_right le

theorem Record.segment_nonneg (t : Nat) : 0 ≤ record.segment t := Int.natCast_nonneg _

/-- The first message an author posted in a segment. -/
theorem exists_first (rising : (r.logs author.2).Rising) (has : (r.logs author.2).Has seq m)
    : ∃ first m', first ≤ seq ∧ (r.logs author.2).Has first m'
        ∧ record.segment m'.t = record.segment m.t
        ∧ ∀ earlier m'', earlier < first → (r.logs author.2).Has earlier m'' →
            record.segment m''.t < record.segment m'.t := by
  classical
  have some_ : ∃ first m', (r.logs author.2).Has first m' ∧ record.segment m'.t = record.segment m.t :=
    ⟨seq, m, has, rfl⟩
  obtain ⟨m', there, same⟩ := Nat.find_spec some_
  refine ⟨Nat.find some_, m', Nat.find_le ⟨m, has, rfl⟩, there, same, fun earlier m'' less here => ?_⟩
  have below : record.segment m''.t ≤ record.segment m'.t :=
    Record.segment_mono (rising _ _ _ _ (le_of_lt less) there.1 here.2 there.2)
  refine lt_of_le_of_ne below fun equal => ?_
  exact Nat.find_min some_ less ⟨m'', here, equal.trans same⟩

namespace Listed

variable (listed : Listed r record authors)

include listed

theorem log_eq {log : Key} (mem : author ∈ authors) (there : (author.1, log) ∈ authors) : log = author.2 := by
  have same := List.inj_on_of_nodup_map listed.once there mem rfl
  exact congrArg Prod.snd same

/-- An author with a message in a segment is listed there no later than that. -/
theorem exists_entry (mem : author ∈ authors) (has : (r.logs author.2).Has seq m)
    : ∃ e ∈ entriesFrom r.rosters (record.segment m.t),
        e.author = author.1 ∧ e.log = author.2 ∧ e.start ≤ seq := by
  obtain ⟨first, m', before, there, same, all⟩ := exists_first (listed.rising author mem) has
  have here := listed.listed author mem first m' there all
  rw [same] at here
  obtain ⟨e, at_, own, below⟩ := mem_of_listed here
  refine ⟨e, at_, own, ?_, below.trans before⟩
  have known := (listed.honest _ e (listed_of_mem at_)).1
  rw [own] at known
  exact listed.log_eq mem known

/-- An entry starts where its author's messages of the segment, or of a later one, begin. -/
theorem start_iff (at_ : e ∈ entriesFrom r.rosters g) (has : (r.logs e.log).Has seq m)
    : seq < e.start ↔ record.segment m.t < g := by
  obtain ⟨mem, _, honest⟩ := listed.honest g e (listed_of_mem at_)
  constructor
  · intro before
    refine lt_of_le_of_ne ((honest seq m has).1 before) fun same => ?_
    obtain ⟨other, there, own, _, below⟩ := listed.exists_entry mem has
    rw [same] at there
    have equal : other = e := entry_unique there at_ own
    exact absurd before (not_lt.mpr (equal ▸ below))
  · intro before
    by_contra from_
    exact absurd before (not_lt.mpr ((honest seq m has).2 (not_lt.mp from_)))

/-- No message lies between the latest segment listed up to a bound and that bound. -/
theorem le_latest (mem : author ∈ authors) (has : (r.logs author.2).Has seq m)
    (within : record.segment m.t ≤ bound)
    : record.segment m.t ≤ latestFrom r.rosters bound := by
  obtain ⟨e, at_, _⟩ := listed.exists_entry mem has
  exact le_latestFrom (listed_of_mem at_) within

end Listed

end Authors

end Hypergraph.Channels.Pages
