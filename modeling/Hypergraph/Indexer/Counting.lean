import Hypergraph.Indexer.Latest

/-! Of a member's records of a one-per-member type for one target, one counts: whatever came in, was
undone as a log was cut or the limits on its writing changed (`rejudge` in `lib/index/indexer.js`), was
taken down, or judged again in between.
-/

namespace Hypergraph.Indexer

open Wire Encodings Fields Js Table

/-- Of each group, at most one row isn't marked. -/
def Index.Single (index : Index) : Prop := Table.Single Row.group Row.hidden index.records

/-- If any record of the group is held, just one of them isn't marked, and none is later. -/
def Index.CountsOne (index : Index) (g : Group) : Prop :=
  (∃ id row, Among Row.group index.records g id row)
  → ∃ id latest, Among Row.group index.records g id latest ∧ latest.flags.superseded = false
      ∧ (∀ at_ other, Among Row.group index.records g at_ other → other.rank ≤ latest.rank)
      ∧ ∀ at_ other, Among Row.group index.records g at_ other → other.flags.superseded = false
          → at_ = id

section Single

variable {space : Space} {index other : Index} {id : RecordId} {row : Row} {g : Group}

/-- Where whatever isn't marked wasn't before. -/
theorem Index.Single.of_held (single : index.Single)
    (held
      : ∀ (id : RecordId) found, other.records[id]? = some found → found.flags.superseded = false
          → ∃ row, index.records[id]? = some row ∧ found.group = row.group
            ∧ row.flags.superseded = false)
    : other.Single := by
  intro g
  refine (single g).of_rows fun place found among counts => ?_
  obtain ⟨before, was, groups, counted⟩ := held place found among.1 counts
  exact ⟨before, ⟨was, groups.symm.trans among.2⟩, counted⟩

-- A group looked at again

/-- Only the latest isn't marked of the group a row went from. -/
theorem single_regroup (sound : index.Sound space) (single : index.Single) {gone : Row}
    (mine : gone.group = some g)
    (absent : ∀ (id : RecordId) row, index.records[id]? = some row → row.id ≠ gone.id)
    : (index.regroup gone).Single := by
  intro g'
  by_cases here : g' = g
  · subst here
    have only {place : RecordId} {found : Row}
        (among : Among Row.group (index.regroup gone).records g' place found)
        (counts : found.hidden = false)
        : ((index.records.find gone.rival).argmax Row.rank).map Row.id = some place := by
      obtain ⟨at_, theirs⟩ := among
      obtain ⟨_, was, _, is⟩ := at_regroup at_
      rw [is, group_superseded] at theirs
      have rival := (rival_iff mine _).mpr ⟨theirs, absent place _ was⟩
      rw [getElem?_regroup, was, Option.map_some, if_pos rival] at at_
      cases at_
      rw [← (sound.ofBlock place _ was).id_eq]
      exact not_not.mp (of_decide_eq_false counts)
    intro place found place' found' among counts among' counts'
    exact Option.some.inj ((only among counts).symm.trans (only among' counts'))
  · refine (single g').of_rows fun place found among counts => ?_
    obtain ⟨at_, theirs⟩ := among
    obtain ⟨before, was, _, is⟩ := at_regroup at_
    rw [is, group_superseded] at theirs
    have apart : ¬ gone.rival before = true := fun rival =>
      here (Option.some.inj (theirs.symm.trans ((rival_iff mine before).mp rival).1))
    rw [getElem?_regroup, was, Option.map_some, if_neg apart] at at_
    cases at_
    exact ⟨found, ⟨was, theirs⟩, counts⟩

theorem single_erased (single : index.Single)
    : ({ index with records := index.records.erase id } : Index).Single :=
  single.of_held fun _ found there counts => ⟨found, (Table.at_erase there).2, rfl, counts⟩

theorem single_taken (sound : index.Sound space) (single : index.Single)
    (at_ : index.records[id]? = some row)
    : (if row.opm then ({ index with records := index.records.erase id } : Index).regroup row
      else { index with records := index.records.erase id }).Single := by
  have left_ : Index.Sound space { index with records := index.records.erase id } :=
    sound.of_kin rfl rfl rfl fun place found there => ⟨found, (Table.at_erase there).2, .refl found⟩
  cases opm : row.opm with
  | false =>
      rw [if_neg (by decide)]
      exact single_erased single
  | true =>
      rw [if_pos rfl]
      refine single_regroup left_ (single_erased single) (group_eq_some.mpr ⟨opm, rfl⟩)
        fun place found there => ?_
      obtain ⟨apart, held⟩ := Table.at_erase there
      rw [(sound.ofBlock place found held).id_eq, (sound.ofBlock id row at_).id_eq]
      exact apart

-- A row comes in

theorem single_alone (single : index.Single) (alone : row.opm = false)
    : ({ index with records := index.records.insert id row } : Index).Single := by
  intro g
  refine (single g).of_rows fun place found among counts => ?_
  rcases Table.at_insert among.1 with ⟨rfl, rfl⟩ | ⟨_, held⟩
  · have mine := (group_eq_some.mp among.2).1
    rw [alone] at mine
    cases mine
  · exact ⟨found, ⟨held, among.2⟩, counts⟩

/-- A row comes into a group, and those that counted there are marked, or it is. -/
theorem single_onePerMember (sound : index.Sound space) (single : index.Single)
    (of : OfBlock space id row) (fresh : row.flags.superseded = false) (opm : row.opm = true)
    : ({ (index.onePerMember row).1 with
        records := (index.onePerMember row).1.records.insert id (index.onePerMember row).2 }
      : Index).Single := by
  have mine : row.group = some (row.type, row.target, row.author) := group_eq_some.mpr ⟨opm, rfl⟩
  rw [onePerMember_snd fresh]
  -- what isn't marked is the row that came in, or was there and isn't beaten
  have held {place : RecordId} {found : Row}
      (at_ : ((index.onePerMember row).1.records.insert id (row.superseded (index.outdone row)))[place]?
        = some found)
      (counts : found.flags.superseded = false)
      : place = id ∧ index.outdone row = false
        ∨ place ≠ id ∧ index.records[place]? = some found
          ∧ (row.rival found = true → row.rank ≤ found.rank) := by
    rcases Table.at_insert at_ with ⟨same, rfl⟩ | ⟨apart, held⟩
    · exact .inl ⟨same, counts⟩
    · rw [getElem?_onePerMember] at held
      obtain ⟨before, was, rfl⟩ := Option.map_eq_some_iff.mp held
      split at counts
      · cases counts
      · rename_i unbeaten
        rw [if_neg unbeaten]
        refine .inr ⟨apart, was, fun rival => ?_⟩
        simpa [rival, counts] using unbeaten
  intro g
  by_cases here : index.outdone row = false ∧ g = (row.type, row.target, row.author)
  · obtain ⟨unbeaten, rfl⟩ := here
    refine .of_place id fun place found among counts => ?_
    rcases held among.1 counts with ⟨same, _⟩ | ⟨apart, was, above⟩
    · exact same
    · have rival : row.rival found = true := by
        refine (rival_iff mine found).mpr ⟨among.2, ?_⟩
        rw [(sound.ofBlock place found was).id_eq, of.id_eq]
        exact apart
      have outdone := outdone_iff.mpr ⟨place, found, was, rival, counts, above rival⟩
      rw [unbeaten] at outdone
      cases outdone
  · refine (single g).of_rows fun place found among counts => ?_
    rcases held among.1 counts with ⟨rfl, unbeaten⟩ | ⟨_, was, _⟩
    · refine absurd ⟨unbeaten, ?_⟩ here
      rcases Table.at_insert among.1 with ⟨_, rfl⟩ | ⟨apart, _⟩
      · exact Option.some.inj (among.2.symm.trans mine)
      · exact absurd rfl apart
    · exact ⟨found, ⟨was, among.2⟩, counts⟩

/-- Every write leaves at most one to count. -/
theorem Index.Single.move {spare : Table RecordId Row → Row → Prop} (sound : index.Sound space)
    (single : index.Single) (move : Move space spare index other)
    : other.Single := by
  cases move with
  | noted had changeTargets tagged limits scanned recalls => exact single
  | @rewritten id row row' at_ kin superseded content =>
      refine single.of_held fun place found there counts => ?_
      rcases Table.at_insert there with ⟨rfl, rfl⟩ | ⟨_, there⟩
      · exact ⟨row, at_, kin.group, superseded ▸ counts⟩
      · exact ⟨found, there, rfl, counts⟩
  | kept change spares => exact single
  | @deleted change row at_ deletes may => exact single_erased single
  | forgot id => exact single
  | @taken id row at_ => exact single_taken sound single at_
  | cleared gone alone =>
      refine single.of_held fun place found there counts => ?_
      rw [Std.ExtTreeMap.getElem?_filter', Option.filter_eq_some_iff] at there
      exact ⟨found, there.1, rfl, counts⟩
  | @put id row of fresh content undeleted =>
      cases opm : row.opm with
      | false =>
          rw [if_neg (by decide)]
          exact single_alone single opm
      | true =>
          rw [if_pos rfl]
          exact single_onePerMember sound single of fresh opm

end Single

-- Runs with limits on writing

/-- `rejudge`: of a log, the blocks beyond its new limits are undone; and if ones beyond the old may be
within them, it is looked at again from where it is read from.
-/
def Index.rejudge (space : Space) (state : Deciding) (index : Index) (here : RecordId → Bool)
    (log : Key) (beyond : List Nat) (again : Bool) : Index :=
  let index :=
    (beyond.map (⟨log, ·⟩)).foldl (fun index id => index.uncount space state here id) index
  if again then
    { index with scanned := Function.update index.scanned log (space.log log).from_ }
  else index

/-- What the index can come to where limits change too. -/
inductive Course (space : Space) (allowed : Index → Event → Prop) : Index → Prop
  | start (limits : Key → ℕ∞) : Course space allowed (.new limits)
  | step {index : Index} (event : Event) (before : Course space allowed index)
      (may : allowed index event)
    : Course space allowed (index.step space event)
  | rejudge {index : Index} (state : Deciding) (here : RecordId → Bool) (log : Key)
      (beyond : List Nat) (again : Bool) (before : Course space allowed index)
    : Course space allowed (index.rejudge space state here log beyond again)

section Course

variable {space : Space} {index : Index}

theorem Run.course {allowed : Index → Event → Prop} (run : Run space allowed index)
    : Course space allowed index := by
  induction run with
  | start limits => exact .start limits
  | step event _ may before => exact .step event before may

theorem moves_rejudge {spare : Table RecordId Row → Row → Prop} (sound : index.Sound space)
    (state : Deciding) (here : RecordId → Bool) (log : Key) (beyond : List Nat) (again : Bool)
    : Moves space spare index (index.rejudge space state here log beyond again) := by
  have undone := @moves_uncounts space spare index state sound here (beyond.map (⟨log, ·⟩))
  cases again with
  | false => exact undone
  | true => exact .tail undone (.noted _ _ _ _ _ _ (sound.moves undone).recalls)

/-- In every course whose deletes spare what counts; induction on it. -/
theorem course_counts (course : Course space (Spares space spare) index)
    : index.Sound space ∧ index.Latest ∧ index.Single := by
  have none_ {limits : Key → ℕ∞} {g : Group} {id : RecordId} {row : Row}
      (held : Among Row.group (Index.new limits).records g id row) : False := by
    have at_ : (Index.new limits).records[id]? = some row := held.1
    rw [show (Index.new limits).records = ∅ from rfl, Std.ExtTreeMap.getElem?_empty] at at_
    cases at_
  have keeps {index other : Index}
      (both : index.Sound space ∧ index.Latest ∧ index.Single) (moves : Moves space spare index other)
      : other.Sound space ∧ other.Latest ∧ other.Single := by
    refine @moves_keep space spare index other (fun index => index.Latest ∧ index.Single) ?_
      both.1 both.2 moves
    exact fun _ _ sound both move => ⟨both.1.move sound move, both.2.move sound move⟩
  induction course with
  | start limits =>
      exact ⟨sound_new limits, fun _ _ _ held => (none_ held).elim,
        fun _ _ _ _ _ held => (none_ held).elim⟩
  | step event _ may before => exact keeps before (moves_step before.1 event may)
  | rejudge state here log beyond again _ before =>
      exact keeps before (moves_rejudge before.1 state here log beyond again)

/-- Whatever came in, was undone, taken down or judged again, where each delete takes a record to
spare.
-/
theorem one_counts (course : Course space (Spares space spare) index) (g : Group)
    : index.CountsOne g := by
  rintro ⟨id, row, held⟩
  obtain ⟨_, latest, single⟩ := course_counts course
  obtain ⟨at_, top, among, counts, highest⟩ := latest g id row held
  refine ⟨at_, top, among, counts, highest, fun place other held' counts' => ?_⟩
  exact single g place other at_ top held' counts' among counts

end Course

-- A vote withdrawn

/-- A member votes twice, and then the limits let in the first vote only. -/
def rejudged : Index :=
  votedTwice.rejudge voteSpace (.of (votersAt 5)) (fun _ => true) (Decisions.keyOf 3) [2] false

theorem one_counts_rejudged
    : rejudged.records[voteRow.id]? = some voteRow ∧ rejudged.CountsOne voteGroup :=
  ⟨by decide +kernel, one_counts (.rejudge _ _ _ _ _ votedTwice_run.course) voteGroup⟩

/-- The member deletes the second vote. -/
def withdrawSpace : Space where
  __ := voteSpace
  block id :=
    if id = ⟨Decisions.keyOf 3, 3⟩ then
      some ⟨.delete, "vote", 7, some ⟨Decisions.keyOf 3, 2⟩, false, [], []⟩
    else voteSpace.block id

def lookVote (index : Index) (seq : Nat) : Index :=
  index.step withdrawSpace (.look (.of (votersAt 4)) ⟨Decisions.keyOf 3, seq⟩ false)

def withdrawn : Index := lookVote (lookVote (lookVote (.new fun _ => ⊤) 1) 2) 3

theorem withdrawn_held
    : withdrawn.records[voteRow.id]? = some (voteRow.superseded true)
      ∧ withdrawn.records.toList.all (fun held => held.2.flags.superseded) = true := by
  decide +kernel

/-- With the vote that counts deleted, the one before it stays marked. -/
theorem withdrawn_none
    : ¬ ∀ (space : Space) (index : Index) (g : Group), Course space (fun _ _ => True) index
        → index.CountsOne g := by
  intro all
  have looked {index : Index} (seq : Nat) (before : Course withdrawSpace (fun _ _ => True) index)
      : Course withdrawSpace (fun _ _ => True) (lookVote index seq) :=
    .step _ before trivial
  have course : Course withdrawSpace (fun _ _ => True) withdrawn :=
    looked 3 (looked 2 (looked 1 (.start _)))
  obtain ⟨id, latest, among, counts, _⟩ :=
    all withdrawSpace withdrawn voteGroup course ⟨voteRow.id, _, withdrawn_held.1, rfl⟩
  have marked := List.all_eq_true.mp withdrawn_held.2 (id, latest)
    (Std.ExtTreeMap.mem_toList_iff_getElem?_eq_some.mpr among.1)
  rw [counts] at marked
  cases marked

end Hypergraph.Indexer
