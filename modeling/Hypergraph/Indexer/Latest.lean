import Hypergraph.Decisions.Ideal
import Hypergraph.Fields.Packages
import Hypergraph.Indexer.Runs
import Hypergraph.Lib.Latest

/-! Types of which only one record counts per member: of a member's records for one target the index
marks all but the latest (`#onePerMember`, `#regroup`), and a read leaves out those its decisions
don't let through (`mayPut`).
-/

namespace Hypergraph.Indexer

open Wire Encodings Fields Js Table

/-- `mayPut`: a put of a type restricted to a permission counts as far as its author's rights go. -/
def mayPut (space : Space) (state : Deciding) (row : Row) : Bool :=
  match (space.typeOf row.type).map TypeDecl.put with
  | some (.permission name) => decide ((row.id.seq : ℕ∞) < state.editLimit row.author name row.id.log)
  | _ => true

/-- A member's records of a type for one target. -/
abbrev Group := String × Option RecordId × Key

def Row.group (row : Row) : Option Group :=
  if row.opm then some (row.type, row.target, row.author) else none

def Row.hidden (row : Row) : Bool := row.flags.superseded

/-- Of each group, the latest isn't marked. -/
def Index.Latest (index : Index) : Prop := Table.Latest Row.group Row.rank Row.hidden index.records

/-- A row may go without its group being looked at again: it is in none, or marked, or alone there. -/
def spare (records : Table RecordId Row) (row : Row) : Prop :=
  row.opm = false ∨ row.flags.superseded = true
    ∨ ∀ (id : RecordId) other, records[id]? = some other → row.rival other = false

section Latest

variable {space : Space} {index other : Index} {id : RecordId} {row row' : Row} {g : Group}

theorem Row.Kin.group (kin : row.Kin row') : row'.group = row.group := by
  unfold Row.group
  rw [kin.opm, kin.type, kin.target, kin.author]

theorem group_eq_some : row.group = some g ↔ row.opm = true ∧ (row.type, row.target, row.author) = g := by
  unfold Row.group
  split
  · rename_i opm
    simp [opm]
  · rename_i alone
    simp [alone]

/-- Rivals are the others of a group. -/
theorem rival_iff (mine : row.group = some g) (other : Row)
    : row.rival other = true ↔ other.group = some g ∧ other.id ≠ row.id := by
  obtain ⟨_, rfl⟩ := group_eq_some.mp mine
  rw [group_eq_some]
  simp [Row.rival, Row.fellow, Prod.ext_iff, and_assoc]

theorem group_superseded (row : Row) (is : Bool) : (row.superseded is).group = row.group := rfl

/-- A row written again counts as it did. -/
theorem latest_rewritten (latest : index.Latest) (at_ : index.records[id]? = some row)
    (kin : row.Kin row') (superseded : row'.flags.superseded = row.flags.superseded)
    : ({ index with records := index.records.insert id row' } : Index).Latest := by
  intro g
  refine (latest g).congr fun place => ?_
  rw [Std.ExtTreeMap.getElem?_insert]
  split
  · rename_i same
    obtain rfl := Std.LawfulEqOrd.eq_of_compare same
    rw [at_, Option.map_some, Option.map_some, kin.group, kin.rank, Row.hidden, superseded]
    rfl
  · rfl

theorem latest_erased (sound : index.Sound space) (latest : index.Latest)
    (at_ : index.records[id]? = some row) (may : spare index.records row)
    : ({ index with records := index.records.erase id } : Index).Latest := by
  intro g
  refine (latest g).erase at_ ?_
  by_cases mine : row.group = some g
  · rcases may with alone | hidden | first
    · rw [group_eq_some, alone] at mine
      cases mine.1
    · exact .inr (.inl hidden)
    · right
      right
      intro place found among
      by_contra apart
      have rival : row.rival found = true := by
        refine (rival_iff mine found).mpr ⟨among.2, ?_⟩
        rw [(sound.ofBlock place found among.1).id_eq, (sound.ofBlock id row at_).id_eq]
        exact apart
      rw [first place found among.1] at rival
      cases rival
  · exact .inl mine

-- A group looked at again

/-- The row of a group's latest is the one left unmarked. -/
theorem latest_regroup (sound : index.Sound space) {gone : Row} (mine : gone.group = some g)
    (absent : ∀ (id : RecordId) row, index.records[id]? = some row → row.id ≠ gone.id)
    (latest : ∀ g', g' ≠ g → LatestIn Row.group Row.rank Row.hidden index.records g')
    : (index.regroup gone).Latest := by
  intro g'
  by_cases here : g' = g
  · subst here
    intro place found among
    obtain ⟨row, held, is, rfl⟩ := at_regroup among.1
    have rival : gone.rival row = true :=
      (rival_iff mine row).mpr ⟨among.2, absent place row held⟩
    have found := Table.mem_find.mpr ⟨rival, place, held⟩
    cases best : (index.records.find gone.rival).argmax Row.rank with
    | none =>
        rw [List.argmax_eq_none.mp best] at found
        cases found
    | some top =>
        obtain ⟨rivals, at_, topAt⟩ := Table.mem_find.mp (List.argmax_mem best)
        obtain rfl : top.id = at_ := (sound.ofBlock at_ top topAt).id_eq
        have counted : (index.regroup gone).records[top.id]? = some (top.superseded false) := by
          rw [getElem?_regroup, topAt, Option.map_some, if_pos rivals, best]
          simp
        refine ⟨top.id, top.superseded false, ⟨counted, ((rival_iff mine top).mp rivals).1⟩, rfl, ?_⟩
        intro place other among
        obtain ⟨row, held, is, rfl⟩ := at_regroup among.1
        have rival : gone.rival row = true :=
          (rival_iff mine row).mpr ⟨among.2, absent place row held⟩
        have within : row.rank ≤ top.rank :=
          List.le_of_mem_argmax (Table.mem_find.mpr ⟨rival, place, held⟩) best
        exact within
  · refine (latest g' here).of_rows fun place found => ?_
    have apart {row : Row} (theirs : row.group = some g') : gone.rival row = false := by
      rw [Bool.eq_false_iff]
      intro rival
      exact here (Option.some.inj (theirs.symm.trans ((rival_iff mine row).mp rival).1))
    constructor
    · rintro ⟨at_, theirs⟩
      rw [getElem?_regroup] at at_
      obtain ⟨row, held, rfl⟩ := Option.map_eq_some_iff.mp at_
      by_cases rival : gone.rival row = true
      · rw [if_pos rival, group_superseded] at theirs
        rw [apart theirs] at rival
        cases rival
      · rw [if_neg rival] at theirs ⊢
        exact ⟨held, theirs⟩
    · rintro ⟨held, theirs⟩
      refine ⟨?_, theirs⟩
      rw [getElem?_regroup, held, Option.map_some, apart theirs, if_neg (by decide)]

theorem latest_taken (sound : index.Sound space) (latest : index.Latest)
    (at_ : index.records[id]? = some row)
    : (if row.opm then ({ index with records := index.records.erase id } : Index).regroup row
      else { index with records := index.records.erase id }).Latest := by
  have id_eq := (sound.ofBlock id row at_).id_eq
  have left_ : Index.Sound space { index with records := index.records.erase id } :=
    sound.of_kin rfl rfl rfl fun place found there => ⟨found, (Table.at_erase there).2, .refl found⟩
  cases opm : row.opm with
  | false =>
      rw [if_neg (by decide)]
      exact latest_erased sound latest at_ (.inl opm)
  | true =>
      rw [if_pos rfl]
      have mine : row.group = some (row.type, row.target, row.author) :=
        group_eq_some.mpr ⟨opm, rfl⟩
      refine latest_regroup left_ mine (fun place found there => ?_) fun g' elsewhere => ?_
      · obtain ⟨apart, held⟩ := Table.at_erase there
        rw [(sound.ofBlock place found held).id_eq, id_eq]
        exact apart
      · refine (latest g').erase at_ (.inl fun theirs => ?_)
        exact elsewhere (Option.some.inj (theirs.symm.trans mine))

-- A row comes in

theorem latest_alone (sound : index.Sound space) (latest : index.Latest) (of : OfBlock space id row)
    (alone : row.opm = false)
    : ({ index with records := index.records.insert id row } : Index).Latest := by
  intro g
  refine (latest g).of_rows fun place found => ?_
  have none_ (theirs : row.group = some g) : False := by
    rw [group_eq_some, alone] at theirs
    cases theirs.1
  constructor
  · rintro ⟨at_, theirs⟩
    rcases Table.at_insert at_ with ⟨rfl, rfl⟩ | ⟨_, held⟩
    · exact (none_ theirs).elim
    · exact ⟨held, theirs⟩
  · rintro ⟨held, theirs⟩
    refine ⟨?_, theirs⟩
    have apart : place ≠ id := by
      rintro rfl
      have kin := (sound.ofBlock place found held).kin of
      exact none_ (kin.group.trans theirs)
    rw [Std.ExtTreeMap.getElem?_insert, if_neg, held]
    intro same
    exact apart (Std.LawfulEqOrd.eq_of_compare same).symm

/-- Is a row of the group there that counts, and isn't below the one that comes in? -/
def Index.outdone (index : Index) (row : Row) : Bool :=
  (index.records.find fun other => row.rival other && !other.flags.superseded).any
    fun other => !decide (other.rank < row.rank)

theorem outdone_iff
    : index.outdone row = true
      ↔ ∃ (id : RecordId) (other : Row), index.records[id]? = some other ∧ row.rival other = true
          ∧ other.flags.superseded = false ∧ row.rank ≤ other.rank := by
  unfold Index.outdone
  rw [List.any_eq_true]
  constructor
  · rintro ⟨other, found, above⟩
    obtain ⟨both, id, held⟩ := Table.mem_find.mp found
    obtain ⟨rival, counts⟩ := Bool.and_eq_true_iff.mp both
    exact ⟨id, other, held, rival, by simpa using counts, by simpa using above⟩
  · rintro ⟨id, other, held, rival, counts, above⟩
    exact ⟨other, Table.mem_find.mpr ⟨by simp [rival, counts], id, held⟩, by simpa using above⟩

theorem onePerMember_snd (fresh : row.flags.superseded = false)
    : (index.onePerMember row).2 = row.superseded (index.outdone row) := by
  simp only [Index.onePerMember, fresh, Bool.false_or]
  rfl

/-- A row held that isn't beaten by the one that comes in stays as it is. -/
theorem onePerMember_fst {place : RecordId} {found : Row} (held : index.records[place]? = some found)
    (unbeaten : row.rival found = false ∨ found.flags.superseded = true ∨ row.rank ≤ found.rank)
    : (index.onePerMember row).1.records[place]? = some found := by
  rw [getElem?_onePerMember, held, Option.map_some, if_neg]
  rcases unbeaten with apart | marked | above
  · simp [apart]
  · simp [marked]
  · simp [above]

/-- A row comes into a group, and is marked unless it is above those that count there. -/
theorem latest_onePerMember (sound : index.Sound space) (latest : index.Latest)
    (of : OfBlock space id row) (fresh : row.flags.superseded = false) (opm : row.opm = true)
    : ({ (index.onePerMember row).1 with
        records := (index.onePerMember row).1.records.insert id (index.onePerMember row).2 }
      : Index).Latest := by
  have id_eq := of.id_eq
  have mine : row.group = some (row.type, row.target, row.author) := group_eq_some.mpr ⟨opm, rfl⟩
  rw [onePerMember_snd fresh]
  intro g
  -- each row is the new one, or one held of another record
  have cases_ {place : RecordId} {found : Row}
      (among : Among Row.group
        ((index.onePerMember row).1.records.insert id (row.superseded (index.outdone row))) g place
        found)
      : place = id ∧ found = row.superseded (index.outdone row)
        ∨ ∃ before is, Among Row.group index.records g place before ∧ place ≠ id
          ∧ found = before.superseded is := by
    obtain ⟨at_, theirs⟩ := among
    rcases Table.at_insert at_ with here | ⟨apart, held⟩
    · exact .inl here
    · obtain ⟨before, was, is, rfl⟩ := at_onePerMember held
      exact .inr ⟨before, is, ⟨was, theirs⟩, apart, rfl⟩
  have keeps {place : RecordId} {found : Row} (held : Among Row.group index.records g place found)
      (apart : place ≠ id)
      (unbeaten : row.rival found = false ∨ found.flags.superseded = true ∨ row.rank ≤ found.rank)
      : Among Row.group
        ((index.onePerMember row).1.records.insert id (row.superseded (index.outdone row))) g place
        found := by
    refine ⟨?_, held.2⟩
    rw [Std.ExtTreeMap.getElem?_insert, if_neg, onePerMember_fst held.1 unbeaten]
    intro same
    exact apart (Std.LawfulEqOrd.eq_of_compare same).symm
  by_cases here : g = (row.type, row.target, row.author)
  · subst here
    have rival {place : RecordId} {found : Row}
        (held : Among Row.group index.records (row.type, row.target, row.author) place found)
        (apart : place ≠ id) : row.rival found = true := by
      refine (rival_iff mine found).mpr ⟨held.2, ?_⟩
      rw [(sound.ofBlock place found held.1).id_eq, id_eq]
      exact apart
    -- the version of the row that was there ranks as it does
    have own {top : Row} (held : Among Row.group index.records (row.type, row.target, row.author) id top)
        : top.rank = row.rank := (of.kin (sound.ofBlock id top held.1)).rank
    intro _ _ _
    cases outdone : index.outdone row with
    | true =>
        obtain ⟨place, other, held, rivals, counts, above⟩ := outdone_iff.mp outdone
        have theirs := ((rival_iff mine other).mp rivals).1
        have apart : place ≠ id := by
          rintro rfl
          exact ((rival_iff mine other).mp rivals).2
            ((sound.ofBlock place other held).id_eq.trans id_eq.symm)
        obtain ⟨there, top, latestIs, unmarked, highest⟩ := latest _ place other ⟨held, theirs⟩
        have above' : other.rank ≤ top.rank := highest place other ⟨held, theirs⟩
        rw [outdone] at cases_ keeps
        by_cases again : there = id
        · subst again
          refine ⟨place, other, keeps ⟨held, theirs⟩ apart (.inr (.inr above)), counts, ?_⟩
          intro at_ found among
          rcases cases_ among with ⟨rfl, rfl⟩ | ⟨before, is, was, _, rfl⟩
          · exact above
          · have below : before.rank ≤ top.rank := highest at_ before was
            rw [own latestIs] at below
            exact below.trans above
        · refine ⟨there, top, keeps latestIs again (.inr (.inr (above.trans above'))), unmarked, ?_⟩
          intro at_ found among
          rcases cases_ among with ⟨rfl, rfl⟩ | ⟨before, is, was, _, rfl⟩
          · exact above.trans above'
          · exact highest at_ before was
    | false =>
        rw [outdone] at cases_
        refine ⟨id, row.superseded false, ⟨Std.ExtTreeMap.getElem?_insert_self, mine⟩, rfl, ?_⟩
        intro at_ found among
        rcases cases_ among with ⟨rfl, rfl⟩ | ⟨before, is, was, _, rfl⟩
        · exact le_refl row.rank
        · obtain ⟨there, top, latestIs, unmarked, highest⟩ := latest _ at_ before was
          have below : before.rank ≤ top.rank := highest at_ before was
          by_cases again : there = id
          · subst again
            rw [own latestIs] at below
            exact below
          · have beaten : ¬ row.rank ≤ top.rank := by
              intro above
              have is := outdone_iff.mpr
                ⟨there, top, latestIs.1, rival latestIs again, unmarked, above⟩
              rw [outdone] at is
              cases is
            exact below.trans (not_le.mp beaten).le
  · refine (latest g).of_rows fun place found => ?_
    have apart {found : Row} (theirs : found.group = some g) : row.rival found = false := by
      rw [Bool.eq_false_iff]
      intro rival
      exact here (Option.some.inj (theirs.symm.trans ((rival_iff mine found).mp rival).1))
    constructor
    · intro among
      rcases cases_ among with ⟨rfl, rfl⟩ | ⟨before, is, was, other, rfl⟩
      · exact absurd (Option.some.inj (among.2.symm.trans mine)) here
      · have still := keeps was other (.inl (apart was.2))
        rw [Option.some.inj (among.1.symm.trans still.1)]
        exact was
    · intro was
      refine keeps was ?_ (.inl (apart was.2))
      rintro rfl
      have kin := of.kin (sound.ofBlock place found was.1)
      exact here (Option.some.inj (was.2.symm.trans (kin.group.trans mine)))

/-- Every write but a delete of what isn't to spare leaves the latest to count. -/
theorem Index.Latest.move (sound : index.Sound space) (latest : index.Latest)
    (move : Move space spare index other)
    : other.Latest := by
  cases move with
  | noted had changeTargets tagged limits scanned recalls => exact latest
  | @rewritten id row row' at_ kin superseded content =>
      exact latest_rewritten latest at_ kin superseded
  | kept change spares => exact latest
  | @deleted change row at_ deletes may => exact latest_erased sound latest at_ may
  | forgot id => exact latest
  | @taken id row at_ => exact latest_taken sound latest at_
  | cleared gone alone =>
      intro g
      refine (latest g).of_rows fun place found => ?_
      unfold Among
      rw [Std.ExtTreeMap.getElem?_filter', Option.filter_eq_some_iff]
      constructor
      · exact fun both => ⟨both.1.1, both.2⟩
      · rintro ⟨held, theirs⟩
        refine ⟨⟨held, ?_⟩, theirs⟩
        cases goes : gone found with
        | false => rfl
        | true =>
            rw [group_eq_some, alone place found held goes] at theirs
            cases theirs.1
  | @put id row of fresh content undeleted =>
      cases opm : row.opm with
      | false =>
          rw [if_neg (by decide)]
          exact latest_alone sound latest of opm
      | true =>
          rw [if_pos rfl]
          exact latest_onePerMember sound latest of fresh opm

end Latest

-- Runs, and what reads leave out

section Counting

variable {space : Space} {index : Index} {g : Group} {state : Deciding}

/-- In a run whose deletes spare what counts, each group's latest is unmarked. -/
theorem latest_run (run : Run space (Spares space spare) index)
    : index.Sound space ∧ index.Latest := by
  refine @run_keeps space spare index (Spares space spare) Index.Latest ?_ ?_ ?_ run
  · exact fun _ _ may => may
  · intro limits g id row held
    have at_ : (Index.new limits).records[id]? = some row := held.1
    rw [show (Index.new limits).records = ∅ from rfl, Std.ExtTreeMap.getElem?_empty] at at_
    cases at_
  · exact fun index other sound latest move => latest.move sound move

/-- A record of the group that is held and let through. -/
def Index.Counts (index : Index) (space : Space) (state : Deciding) (g : Group) (id : RecordId)
    (row : Row) : Prop :=
  Table.Among Row.group index.records g id row ∧ mayPut space state row = true

/-- Of a group some record of which is let through, the latest of those isn't marked, where each
delete takes a record to spare and each record not let through is below one that is.
-/
theorem latest_counts (run : Run space (Spares space spare) index)
    (some_ : ∃ id row, index.Counts space state g id row)
    (older
      : ∀ id row, Table.Among Row.group index.records g id row → mayPut space state row = false
          → ∃ at_ above, index.Counts space state g at_ above ∧ row.rank < above.rank)
    : ∃ id latest, index.Counts space state g id latest ∧ latest.flags.superseded = false
        ∧ ∀ at_ other, index.Counts space state g at_ other → other.rank ≤ latest.rank := by
  obtain ⟨_, latest⟩ := latest_run run
  obtain ⟨id, row, counts⟩ := some_
  obtain ⟨at_, top, among, unmarked, highest⟩ := latest g id row counts.1
  refine ⟨at_, top, ⟨among, ?_⟩, unmarked, fun place other held => highest place other held.1⟩
  cases may : mayPut space state top with
  | true => rfl
  | false =>
      -- what isn't let through is below another, so it isn't the latest
      obtain ⟨place, above, held, below⟩ := older at_ top among may
      have within : above.rank ≤ top.rank := highest place above held.1
      exact absurd within (not_le.mpr below)

end Counting

-- A vote past the cut

def voteTypes : Dict String Declaration :=
  .ofList [("vote",
      { fields := .ofList [("choice", "bytes")], onePerMember := true, put := .permission "vote" }),
    ("note", { fields := .ofList [("text", "bytes")] })]

theorem voteTypes_accepted : (Types.new voteTypes).isOk = true := by decide +kernel

/-- The bytes of a vote's choice. -/
def voteFields (choice : UInt8) : Bytes := compactUint.encode 1 ++ compactUint.encode 1 ++ [choice]

/-- A log of votes, notes and tags. -/
def voteBlocks : List Content :=
  let put (type : String) (stamp : Nat) (links : List RecordId) (fields : Bytes) : Content :=
    ⟨.put, type, stamp, none, false, links, fields⟩
  let tag (on stamp : Nat) : Content :=
    put "hg/tag" stamp [⟨Decisions.keyOf 3, on⟩] ([1, 1, 0, 2, 2] ++ compactPackages.string.encode "a")
  [put "vote" 5 [] (voteFields 7), put "vote" 6 [] (voteFields 8), put "vote" 4 [] (voteFields 9),
    put "note" 4 [] (voteFields 1), put "note" 8 [] (voteFields 2), tag 1 9, tag 4 9, tag 5 9]

/-- A member votes three times from one log, and tags what they wrote. -/
def voteSpace : Space where
  packages := compactPackages
  string _ := []
  types := (Types.new voteTypes).toOption.getD ⟨.empty⟩
  declared := by
    have accepted := voteTypes_accepted
    cases made : Types.new voteTypes with
    | error err =>
        rw [made] at accepted
        cases accepted
    | ok types => exact ⟨voteTypes, made⟩
  personal := false
  priv := false
  openBox _ _ := none
  validRemoval _ _ := false
  rules := []
  log _ := ⟨Decisions.keyOf 12, Decisions.keyOf 13, false, 1⟩
  block id :=
    if id.log = Decisions.keyOf 3 ∧ 0 < id.seq then voteBlocks[id.seq - 1]? else none

/-- What the decisions of the space itself say of its records. -/
def Deciding.of (v : Decisions.View) : Deciding where
  moderation id :=
    match v.mod none ((recordId compact).encode id) with
    | none => ⟨false, false, false⟩
    | some is => ⟨is.flagged, is.hidden, is.removed⟩
  editLimit := Decisions.State.editLimit v []

open Decisions in
/-- A member gets the role `voter`, and loses it once they voted. -/
def voterLog : List Node :=
  [sent (keyOf 1) 1 (initial (keyOf 1) (keyOf 11) (keyOf 1)),
    sent (keyOf 1) 2 (.roleDefine ⟨"voter", ["post", "vote"]⟩),
    sent (keyOf 1) 3 (.memberAdd (keyOf 12)),
    sent (keyOf 1) 4 (.roleSet ⟨keyOf 12, "voter", []⟩),
    sent (keyOf 1) 5 (.roleSet ⟨keyOf 12, "member", [⟨keyOf 3, 2⟩]⟩)]

/-- What some first decisions of it come to. -/
def votersAt (decisions : Nat) : Decisions.View :=
  (Decisions.applyNodes (Decisions.idealEnv (Decisions.keyOf 1)) (voterLog.take decisions)
    Decisions.View.empty).toOption.getD Decisions.View.empty

/-- The votes indexed, each with the decisions there were by then. -/
def voted : Index :=
  (Index.new fun _ => ⊤).step voteSpace (.look (.of (votersAt 4)) ⟨Decisions.keyOf 3, 1⟩ false)

def votedTwice : Index :=
  voted.step voteSpace (.look (.of (votersAt 5)) ⟨Decisions.keyOf 3, 2⟩ false)

def voteRow : Row where
  id := ⟨Decisions.keyOf 3, 1⟩
  type := "vote"
  author := Decisions.keyOf 12
  device := Decisions.keyOf 13
  stamp := 5
  vstamp := 5
  vdevice := Decisions.keyOf 13
  fields := voteFields 7
  links := []
  ix := []
  flags := {}
  opm := true
  target := none

def voteGroup : Group := ("vote", none, Decisions.keyOf 12)

/-- What the index holds of the votes, and what the decisions let through of it. -/
theorem votes_held
    : voted.records[voteRow.id]? = some voteRow
      ∧ votedTwice.records[voteRow.id]? = some (voteRow.superseded true)
      ∧ mayPut voteSpace (.of (votersAt 5)) voteRow = true
      ∧ votedTwice.records.toList.all
        (fun held => !mayPut voteSpace (.of (votersAt 5)) held.2 || held.2.flags.superseded)
          = true := by
  decide +kernel

/-- Neither block is a change. -/
theorem votes_put
    : (changeIn voteSpace (.of (votersAt 4)) (Index.new fun _ => ⊤).limits
          ⟨Decisions.keyOf 3, 1⟩).isNone = true
      ∧ (changeIn voteSpace (.of (votersAt 5)) voted.limits ⟨Decisions.keyOf 3, 2⟩).isNone = true := by
  decide +kernel

theorem vote_spares {state : Deciding} {index : Index} {id : RecordId}
    (puts : (changeIn voteSpace state index.limits id).isNone = true)
    : Spares voteSpace spare index (.look state id false) := by
  intro change made
  rw [made] at puts
  cases puts

theorem voted_run : Run voteSpace (Spares voteSpace spare) voted :=
  @Run.step voteSpace (Spares voteSpace spare) (.new fun _ => ⊤) _ (.start _) (vote_spares votes_put.1)

theorem votedTwice_run : Run voteSpace (Spares voteSpace spare) votedTwice :=
  @Run.step voteSpace (Spares voteSpace spare) voted _ voted_run (vote_spares votes_put.2)

/-- A vote from before the first comes in after it. -/
def votedBack : Index :=
  voted.step voteSpace (.look (.of (votersAt 4)) ⟨Decisions.keyOf 3, 3⟩ false)

/-- The vote that came last is held, and no longer let through. -/
theorem voteBack_refused
    : votedBack.records.toList.any (fun held => !mayPut voteSpace (.of (votersAt 5)) held.2) = true
      ∧ votedBack.records[voteRow.id]? = some voteRow
      ∧ votedBack.records.toList.all (fun held => mayPut voteSpace (.of (votersAt 5)) held.2
        || decide (held.2.rank < voteRow.rank)) = true
      ∧ (changeIn voteSpace (.of (votersAt 4)) voted.limits ⟨Decisions.keyOf 3, 3⟩).isNone = true := by
  decide +kernel

/-- Witness: the vote within the cut counts, above one past it that was let through once. -/
theorem voted_counts
    : votedBack.records.toList.any (fun held => !mayPut voteSpace (.of (votersAt 5)) held.2) = true
      ∧ ∃ id latest, votedBack.Counts voteSpace (.of (votersAt 5)) voteGroup id latest
        ∧ latest.flags.superseded = false
        ∧ ∀ at_ other, votedBack.Counts voteSpace (.of (votersAt 5)) voteGroup at_ other
            → other.rank ≤ latest.rank := by
  obtain ⟨refused, held, older, puts⟩ := voteBack_refused
  have counts : votedBack.Counts voteSpace (.of (votersAt 5)) voteGroup voteRow.id voteRow :=
    ⟨⟨held, rfl⟩, votes_held.2.2.1⟩
  refine ⟨refused, latest_counts (.step _ voted_run (vote_spares puts)) ⟨_, _, counts⟩ fun id row among refused => ?_⟩
  have below := List.all_eq_true.mp older (id, row)
    (Std.ExtTreeMap.mem_toList_iff_getElem?_eq_some.mpr among.1)
  rw [refused, Bool.false_or, decide_eq_true_eq] at below
  exact ⟨_, _, counts, below⟩

/-- A vote past the cut hides the one within it: it is let through, and no vote let through is
unmarked.
-/
theorem lost_vote_hides
    : Decisions.applyNodes (Decisions.idealEnv (Decisions.keyOf 1)) voterLog Decisions.View.empty
        = .ok (votersAt 5)
      ∧ Run voteSpace (Spares voteSpace spare) votedTwice
      ∧ (∃ id row, votedTwice.Counts voteSpace (.of (votersAt 5)) voteGroup id row)
      ∧ ¬ ∃ id latest, votedTwice.Counts voteSpace (.of (votersAt 5)) voteGroup id latest
          ∧ latest.flags.superseded = false
          ∧ ∀ at_ other, votedTwice.Counts voteSpace (.of (votersAt 5)) voteGroup at_ other
              → other.rank ≤ latest.rank := by
  obtain ⟨_, held, may, marked⟩ := votes_held
  refine ⟨?_, votedTwice_run, ⟨voteRow.id, _, ⟨held, rfl⟩, may⟩, ?_⟩
  · have ends : (Decisions.applyNodes (Decisions.idealEnv (Decisions.keyOf 1)) voterLog
        Decisions.View.empty).isOk = true := by
      decide +kernel
    unfold votersAt
    rw [show voterLog.take 5 = voterLog from rfl]
    cases ran : Decisions.applyNodes (Decisions.idealEnv (Decisions.keyOf 1)) voterLog
        Decisions.View.empty with
    | ok v => rfl
    | error thrown =>
        rw [ran] at ends
        cases ends
  · rintro ⟨id, latest, ⟨among, may⟩, unmarked, _⟩
    have marked := List.all_eq_true.mp marked (id, latest)
      (Std.ExtTreeMap.mem_toList_iff_getElem?_eq_some.mpr among.1)
    rw [may, unmarked] at marked
    cases marked

end Hypergraph.Indexer
