import Hypergraph.Indexer.Puts

/-! Runs of the index: blocks looked at in any order, logs cut, decisions judged again, content
dropped and fetched back. Each step is a sequence of a few kinds of writes, and what all of them
keep is shown of each kind once.
-/

namespace Hypergraph.Indexer

open Wire Encodings Fields Js

-- Steps

section Steps

variable (space : Space)

/-- The fields a record's block gives, once it is here and opened (`_unsealed`). -/
def Space.putFields (id : RecordId) : Option Bytes :=
  ((space.block id).bind (space.unseal_ id)).map fun put => put.fields

/-- `#content` in `lib/space.js`, the block fetched from whoever holds it. -/
def Index.content (index : Index) (id : RecordId) (read : Bool) : Index :=
  match space.putFields id with
  | none => index
  | some fields => index.restore id fields read

/-- What can happen to an index, with what the decisions say and the blocks that are here then. -/
inductive Event
  | look (state : Deciding) (id : RecordId) (rescanned : Bool)
  | cut (state : Deciding) (here : RecordId → Bool) (log : Key) (limit : Nat)
  | moderate (state : Deciding) (id : RecordId)
  | reauthorize (state : Deciding) (here : RecordId → Bool) (id : RecordId)
  | drop (id : RecordId)
  | content (id : RecordId) (read : Bool)
  | accept (log : Key) (limit : ℕ∞)
  | reopen

def Index.step (index : Index) : Event → Index
  | .look state id rescanned => index.look space state id rescanned
  | .cut state here log limit => index.cut space state here log limit
  | .moderate state id => index.moderateOne space state id
  | .reauthorize state here id => index.reauthorizeOne space state here id
  | .drop id => index.dropOne id
  | .content id read => index.content space id read
  | .accept log limit => { index with limits := Function.update index.limits log limit }
  | .reopen => index.reopen

/-- What the index can come to by steps each of which is allowed. -/
inductive Run (allowed : Index → Event → Prop) : Index → Prop
  | start (limits : Key → ℕ∞) : Run allowed (.new limits)
  | step {index : Index} (event : Event) (before : Run allowed index) (may : allowed index event)
    : Run allowed (index.step space event)

end Steps

-- Rows of one block

/-- Two rows of one record, whatever version of it. -/
structure Row.Kin (row other : Row) : Prop where
  id_eq : other.id = row.id
  type : other.type = row.type
  author : other.author = row.author
  device : other.device = row.device
  stamp : other.stamp = row.stamp
  opm : other.opm = row.opm
  target : other.target = row.target

section Kin

variable {space : Space} {state : Deciding} {index : Index} {id : RecordId} {row other third : Row}
  {change : Change}

theorem Row.Kin.refl (row : Row) : row.Kin row := ⟨rfl, rfl, rfl, rfl, rfl, rfl, rfl⟩

theorem Row.Kin.symm (kin : row.Kin other) : other.Kin row :=
  ⟨kin.id_eq.symm, kin.type.symm, kin.author.symm, kin.device.symm, kin.stamp.symm, kin.opm.symm,
    kin.target.symm⟩

theorem Row.Kin.trans (first : row.Kin other) (second : other.Kin third) : row.Kin third :=
  ⟨second.id_eq.trans first.id_eq, second.type.trans first.type, second.author.trans first.author,
    second.device.trans first.device, second.stamp.trans first.stamp, second.opm.trans first.opm,
    second.target.trans first.target⟩

theorem Row.Kin.rank (kin : row.Kin other) : other.rank = row.rank := by
  unfold Row.rank
  rw [kin.stamp, kin.device]

/-- The row is of the put its block holds. -/
def OfBlock (space : Space) (id : RecordId) (row : Row) : Prop :=
  ∃ record values state put, space.gate id = some (record, values) ∧ record.kind = .put
    ∧ rowOf space state id record values = some put ∧ put.Kin row

theorem OfBlock.kin (first : OfBlock space id row) (second : OfBlock space id other)
    : row.Kin other := by
  obtain ⟨record, values, state, put, passed, _, made, kin⟩ := first
  obtain ⟨record', values', state', put', passed', _, made', kin'⟩ := second
  cases passed.symm.trans passed'
  refine kin.symm.trans (Row.Kin.trans ?_ kin')
  simp only [rowOf, Option.ite_none_left_eq_some] at made made'
  obtain ⟨_, _, same⟩ := made
  obtain ⟨_, _, same'⟩ := made'
  cases same
  cases same'
  exact ⟨rfl, rfl, rfl, rfl, rfl, rfl, rfl⟩

theorem OfBlock.of_kin (from_ : OfBlock space id row) (kin : row.Kin other)
    : OfBlock space id other := by
  obtain ⟨record, values, state, put, passed, kind, made, same⟩ := from_
  exact ⟨record, values, state, put, passed, kind, made, same.trans kin⟩

theorem OfBlock.isPut (from_ : OfBlock space id row) : ∃ put, IsPut space id put ∧ put.Kin row := by
  obtain ⟨record, values, state, put, passed, kind, made, same⟩ := from_
  obtain ⟨content, held, passes, _⟩ := gate_passes passed
  exact ⟨put, (rowOf_isPut held passes kind made).1, same⟩

theorem OfBlock.id_eq (from_ : OfBlock space id row) : row.id = id := by
  obtain ⟨put, is, kin⟩ := from_.isPut
  exact kin.id_eq.trans is.id_eq

theorem OfBlock.alone (from_ : OfBlock space id row) (own : row.type ∈ builtin.entries.map Prod.fst)
    : row.opm = false := by
  obtain ⟨put, is, kin⟩ := from_.isPut
  cases opm : row.opm with
  | false => rfl
  | true => exact absurd (kin.type ▸ own) (is.alone (kin.opm.symm.trans opm))

theorem OfBlock.putFields (from_ : OfBlock space id row) : ∃ fields, space.putFields id = some fields := by
  obtain ⟨put, is, _⟩ := from_.isPut
  obtain ⟨content, record, held, opened, _, fields, _⟩ := is.held
  refine ⟨record.fields, ?_⟩
  unfold Space.putFields
  rw [held, Option.bind_some, opened]
  rfl

/-- A change that is its target's author's delete. -/
def Deletes (change : Change) (row : Row) : Prop :=
  change.kind = .delete ∧ change.type = row.type ∧ change.author = row.author

theorem deletes_iff : Deletes change row ↔ mayChange space state change row = true ∧ change.kind = .delete := by
  unfold Deletes mayChange
  constructor
  · rintro ⟨kind, type, author⟩
    simp [kind, type, author]
  · rintro ⟨may, kind⟩
    simpa [kind] using may

theorem Row.Kin.deletes (kin : row.Kin other) : Deletes change other ↔ Deletes change row := by
  unfold Deletes
  rw [kin.type, kin.author]

end Kin

-- What stands at all times

/-- What every index a run comes to has: rows of the blocks of their ids, none of which a change kept
deletes, and no change that is overlooked.
-/
structure Index.Sound (space : Space) (index : Index) : Prop where
  ofBlock : ∀ (id : RecordId) row, index.records[id]? = some row → OfBlock space id row
  recalls
    : ∀ had, index.had = some had → ∀ (id : RecordId) change, index.changes[id]? = some change
        → had.changes = true ∨ change.target ∈ index.changeTargets
  undeleted
    : ∀ (id : RecordId) row, index.records[id]? = some row
        → ∀ (by_ : RecordId) change, index.changes[by_]? = some change → change.target = id
          → ¬ Deletes change row

/-- A row's content is its block's, unless it was edited, or its content is gone. -/
def FirstOf (space : Space) (id : RecordId) (row : Row) : Prop :=
  row.flags.edited = false → row.flags.dropped = false → space.putFields id = some row.fields

section Moves

variable (space : Space) (spare : Table RecordId Row → Row → Prop)

/-- The kinds of writes steps are made of; `spare` says which rows their authors may delete. -/
inductive Move : Index → Index → Prop
  /-- A run starts, or the program does, or what was looked at is noted. -/
  | noted (index : Index) (had : Option Had) (changeTargets tagged : List RecordId)
      (limits : Key → ℕ∞) (scanned : Key → Nat)
      (recalls
        : ∀ some_, had = some some_ → ∀ (id : RecordId) change, index.changes[id]? = some change
            → some_.changes = true ∨ change.target ∈ changeTargets)
    : Move index
        { index with
          had := had
          changeTargets := changeTargets
          tagged := tagged
          limits := limits
          scanned := scanned }
  /-- A row is written again. -/
  | rewritten {index : Index} {id : RecordId} {row row' : Row} (at_ : index.records[id]? = some row)
      (kin : row.Kin row') (superseded : row'.flags.superseded = row.flags.superseded)
      (content : FirstOf space id row → FirstOf space id row')
    : Move index { index with records := index.records.insert id row' }
  /-- A change is kept that deletes no row held. -/
  | kept (index : Index) (change : Change)
      (spares : ∀ row, index.records[change.target]? = some row → ¬ Deletes change row)
    : Move index
        { index with
          changes := index.changes.insert change.id change
          changeTargets := change.target :: index.changeTargets }
  /-- A change is kept, and the row it deletes goes, if that one is to spare. -/
  | deleted {index : Index} {change : Change} {row : Row}
      (at_ : index.records[change.target]? = some row) (deletes : Deletes change row)
      (may : spare index.records row)
    : Move index
        { index with
          changes := index.changes.insert change.id change
          changeTargets := change.target :: index.changeTargets
          records := index.records.erase change.target }
  | forgot (index : Index) (id : RecordId)
    : Move index { index with changes := index.changes.erase id }
  /-- A row goes, and its group is looked at again. -/
  | taken {index : Index} {id : RecordId} {row : Row} (at_ : index.records[id]? = some row)
    : Move index
        (if row.opm then ({ index with records := index.records.erase id } : Index).regroup row
        else { index with records := index.records.erase id })
  /-- Rows of no group go. -/
  | cleared (index : Index) (gone : Row → Bool)
      (alone : ∀ (id : RecordId) row, index.records[id]? = some row → gone row = true → row.opm = false)
    : Move index { index with records := index.records.filter fun _ row => !gone row }
  /-- A put's row comes in, and its group is looked at. -/
  | put {index : Index} {id : RecordId} {row : Row} (of : OfBlock space id row)
      (fresh : row.flags.superseded = false) (content : FirstOf space id row)
      (undeleted
        : ∀ (by_ : RecordId) change, index.changes[by_]? = some change → change.target = id
            → ¬ Deletes change row)
    : Move index
        (if row.opm then
          { (index.onePerMember row).1 with
            records := (index.onePerMember row).1.records.insert id (index.onePerMember row).2 }
        else { index with records := index.records.insert id row })

/-- Any number of writes. -/
def Moves : Index → Index → Prop := Relation.ReflTransGen (Move space spare)

end Moves

-- What writes keep

section Kept

variable {space : Space} {spare : Table RecordId Row → Row → Prop} {index other : Index}
  {id : RecordId} {row row' : Row}

theorem kin_superseded (row : Row) (is : Bool) : row.Kin (row.superseded is) :=
  ⟨rfl, rfl, rfl, rfl, rfl, rfl, rfl⟩

theorem kin_rekeyed (row : Row) (ix : List Units) : row.Kin { row with ix := ix } :=
  ⟨rfl, rfl, rfl, rfl, rfl, rfl, rfl⟩

theorem superseded_self (row : Row) : row = row.superseded row.flags.superseded := rfl

theorem getElem?_regroup {gone : Row}
    : (index.regroup gone).records[id]?
      = index.records[id]?.map fun row =>
          if gone.rival row then
            row.superseded (((index.records.find gone.rival).argmax Row.rank).map Row.id
              ≠ some row.id)
          else row :=
  Table.getElem?_rewrite

theorem getElem?_onePerMember {new : Row}
    : (index.onePerMember new).1.records[id]?
      = index.records[id]?.map fun other =>
          if new.rival other && !other.flags.superseded && decide (other.rank < new.rank) then
            other.superseded true
          else other :=
  Table.getElem?_rewrite

/-- Of a group looked at again, each row is one that was held, but for whether it counts. -/
theorem at_regroup {gone : Row} (at_ : (index.regroup gone).records[id]? = some row')
    : ∃ row, index.records[id]? = some row ∧ ∃ is, row' = row.superseded is := by
  rw [getElem?_regroup] at at_
  obtain ⟨row, held, rfl⟩ := Option.map_eq_some_iff.mp at_
  refine ⟨row, held, ?_⟩
  split
  · exact ⟨_, rfl⟩
  · exact ⟨_, superseded_self row⟩

theorem at_onePerMember {new : Row} (at_ : (index.onePerMember new).1.records[id]? = some row')
    : ∃ row, index.records[id]? = some row ∧ ∃ is, row' = row.superseded is := by
  rw [getElem?_onePerMember] at at_
  obtain ⟨row, held, rfl⟩ := Option.map_eq_some_iff.mp at_
  refine ⟨row, held, ?_⟩
  split
  · exact ⟨_, rfl⟩
  · exact ⟨_, superseded_self row⟩

/-- Where every row is of one that was held, and no change came. -/
theorem Index.Sound.of_kin (sound : index.Sound space) (changes : other.changes = index.changes)
    (had : other.had = index.had) (targets : other.changeTargets = index.changeTargets)
    (rows
      : ∀ (id : RecordId) row', other.records[id]? = some row'
          → ∃ row, index.records[id]? = some row ∧ row.Kin row')
    : other.Sound space where
  ofBlock id row' at_ := by
    obtain ⟨row, held, kin⟩ := rows id row' at_
    exact (sound.ofBlock id row held).of_kin kin
  recalls := by
    rw [changes, had, targets]
    exact sound.recalls
  undeleted id row' at_ by_ change kept here deletes := by
    obtain ⟨row, held, kin⟩ := rows id row' at_
    rw [changes] at kept
    exact sound.undeleted id row held by_ change kept here (kin.deletes.mp deletes)

/-- A change kept is not overlooked. -/
theorem recalls_insert {change : Change} (sound : index.Sound space) {some_ : Had}
    (is : index.had = some some_) {by_ : RecordId} {kept : Change}
    (at_ : (index.changes.insert change.id change)[by_]? = some kept)
    : some_.changes = true ∨ kept.target ∈ change.target :: index.changeTargets := by
  rcases Table.at_insert at_ with ⟨rfl, rfl⟩ | ⟨_, before⟩
  · exact .inr List.mem_cons_self
  · exact (sound.recalls some_ is by_ kept before).imp_right (List.mem_cons_of_mem _)

/-- Every write keeps what stands at all times. -/
theorem Index.Sound.move (sound : index.Sound space) (move : Move space spare index other)
    : other.Sound space := by
  cases move with
  | noted had changeTargets tagged limits scanned recalls =>
      exact ⟨sound.ofBlock, recalls, sound.undeleted⟩
  | @rewritten id row row' at_ kin superseded content =>
      refine sound.of_kin rfl rfl rfl fun place found there => ?_
      rcases Table.at_insert there with ⟨rfl, rfl⟩ | ⟨_, there⟩
      · exact ⟨row, at_, kin⟩
      · exact ⟨found, there, .refl found⟩
  | kept change spares =>
      refine ⟨sound.ofBlock, fun some_ is by_ kept at_ => recalls_insert sound is at_, ?_⟩
      intro id row held by_ kept at_ here
      rcases Table.at_insert at_ with ⟨rfl, rfl⟩ | ⟨_, before⟩
      · exact spares row (here ▸ held)
      · exact sound.undeleted id row held by_ kept before here
  | @deleted change row at_ deletes may =>
      refine ⟨fun id row held => sound.ofBlock id row (Table.at_erase held).2,
        fun some_ is by_ kept at_ => recalls_insert sound is at_, ?_⟩
      intro id row held by_ kept at_ here
      obtain ⟨apart, held⟩ := Table.at_erase held
      rcases Table.at_insert at_ with ⟨rfl, rfl⟩ | ⟨_, before⟩
      · exact absurd here.symm apart
      · exact sound.undeleted id row held by_ kept before here
  | forgot id =>
      refine ⟨sound.ofBlock, fun some_ is by_ kept at_ => ?_, ?_⟩
      · exact sound.recalls some_ is by_ kept (Table.at_erase at_).2
      · intro id row held by_ kept at_
        exact sound.undeleted id row held by_ kept (Table.at_erase at_).2
  | @taken id row at_ =>
      have left_ : Index.Sound space { index with records := index.records.erase id } :=
        sound.of_kin rfl rfl rfl fun place found there => ⟨found, (Table.at_erase there).2, .refl found⟩
      split
      · refine left_.of_kin rfl rfl rfl fun place found there => ?_
        obtain ⟨row, held, is, rfl⟩ := at_regroup there
        exact ⟨row, held, kin_superseded row is⟩
      · exact left_
  | cleared gone alone =>
      refine sound.of_kin rfl rfl rfl fun place found there => ?_
      rw [Std.ExtTreeMap.getElem?_filter', Option.filter_eq_some_iff] at there
      exact ⟨found, there.1, .refl found⟩
  | @put id row of fresh content undeleted =>
      -- the others are as they were, but for which of them counts
      have added {index' : Index} {row' : Row} (sound' : index'.Sound space) (kin : row.Kin row')
          (changes : index'.changes = index.changes)
          : Index.Sound space { index' with records := index'.records.insert id row' } := by
        refine ⟨fun place found there => ?_, sound'.recalls, ?_⟩
        · rcases Table.at_insert there with ⟨rfl, rfl⟩ | ⟨_, there⟩
          · exact of.of_kin kin
          · exact sound'.ofBlock place found there
        · intro place found there by_ change kept here deletes
          rcases Table.at_insert there with ⟨rfl, rfl⟩ | ⟨_, there⟩
          · exact undeleted by_ change (changes ▸ kept) here (kin.deletes.mp deletes)
          · exact sound'.undeleted place found there by_ change kept here deletes
      split
      · refine added ?_ (kin_superseded row _) rfl
        refine sound.of_kin rfl rfl rfl fun place found there => ?_
        obtain ⟨row, held, is, rfl⟩ := at_onePerMember there
        exact ⟨row, held, kin_superseded row is⟩
      · exact added sound (.refl row) rfl

/-- Induction on the writes. -/
theorem Index.Sound.moves (sound : index.Sound space) (moves : Moves space spare index other)
    : other.Sound space := by
  induction moves with
  | refl => exact sound
  | tail _ move ih => exact ih.move move

theorem sound_new (limits : Key → ℕ∞) : (Index.new limits).Sound space where
  ofBlock id row held := by
    rw [show (Index.new limits).records = ∅ from rfl, Std.ExtTreeMap.getElem?_empty] at held
    cases held
  recalls := nofun
  undeleted id row held := by
    rw [show (Index.new limits).records = ∅ from rfl, Std.ExtTreeMap.getElem?_empty] at held
    cases held

-- What operations write

variable {state : Deciding}

/-- The same record, which still counts or doesn't, with the content of its block or an edit's. -/
structure Row.Again (space : Space) (id : RecordId) (row row' : Row) : Prop where
  kin : row.Kin row'
  superseded : row'.flags.superseded = row.flags.superseded
  content : FirstOf space id row → FirstOf space id row'

theorem moves_again (at_ : index.records[id]? = some row) (again : row.Again space id row')
    : Moves space spare index { index with records := index.records.insert id row' } :=
  .single (.rewritten at_ again.kin again.superseded again.content)

/-- Of changes one of which deletes a row, none is left of it; else its version may be an edit's. -/
theorem settle_spec (index : Index) (row : Row) (changes : List Change)
    : match index.settle space state row changes with
      | none => ∃ change ∈ changes, Deletes change row
      | some row' =>
          (∀ change ∈ changes, ¬ Deletes change row) ∧ row.Kin row'
            ∧ row'.flags.superseded = row.flags.superseded
            ∧ (row' = row ∨ row'.flags.edited = true) := by
  unfold Index.settle
  by_cases deleted : (changes.filter fun change => mayChange space state change row).any
      fun change => change.kind = .delete
  · rw [if_pos deleted]
    obtain ⟨change, allowed, kind⟩ := List.any_eq_true.mp deleted
    obtain ⟨listed, may⟩ := List.mem_filter.mp allowed
    exact ⟨change, listed, deletes_iff.mpr ⟨may, of_decide_eq_true kind⟩⟩
  · rw [if_neg deleted]
    have spared : ∀ change ∈ changes, ¬ Deletes change row := by
      intro change listed deletes
      obtain ⟨may, kind⟩ := (@deletes_iff space state row change).mp deletes
      exact deleted (List.any_eq_true.mpr
        ⟨change, List.mem_filter.mpr ⟨listed, may⟩, decide_eq_true kind⟩)
    split
    · rename_i found
      split at found
      · cases found
      · split at found
        · cases found
        · cases found
    · rename_i row' found
      split at found
      · cases found
        exact ⟨spared, .refl row, rfl, .inl rfl⟩
      · split at found
        · cases found
          exact ⟨spared, ⟨rfl, rfl, rfl, rfl, rfl, rfl, rfl⟩, rfl, .inr rfl⟩
        · cases found
          exact ⟨spared, .refl row, rfl, .inl rfl⟩

theorem settle_eq_none {changes : List Change} (gone : index.settle space state row changes = none)
    : ∃ change ∈ changes, Deletes change row := by
  have spec := @settle_spec space state index row changes
  rwa [gone] at spec

theorem settle_eq_some {changes : List Change}
    (settled : index.settle space state row changes = some row')
    : (∀ change ∈ changes, ¬ Deletes change row) ∧ row.Kin row'
      ∧ row'.flags.superseded = row.flags.superseded
      ∧ (row' = row ∨ row'.flags.edited = true) := by
  have spec := @settle_spec space state index row changes
  rwa [settled] at spec

/-- What an edit gives, or nothing does, is as `Again` says. -/
theorem again_of_settled (kin : row.Kin row')
    (superseded : row'.flags.superseded = row.flags.superseded)
    (version : row' = row ∨ row'.flags.edited = true)
    : row.Again space id row' := by
  refine ⟨kin, superseded, fun first => ?_⟩
  rcases version with rfl | edited
  · exact first
  · intro unedited
    rw [edited] at unedited
    cases unedited

theorem moves_retag (index : Index) (id : RecordId)
    : Moves space spare index (index.retag space state id) := by
  unfold Index.retag
  split
  · exact .refl
  · rename_i row at_
    dsimp only
    split
    · exact .refl
    · exact moves_again at_ ⟨⟨rfl, rfl, rfl, rfl, rfl, rfl, rfl⟩, rfl, fun first => first⟩

theorem moves_retagged (index : Index) (row : Row)
    : Moves space spare index (index.retagged space state row) := by
  unfold Index.retagged
  split
  · exact .refl
  · exact moves_retag index _

theorem moves_takeDown (at_ : index.records[row.id]? = some row)
    : Moves space spare index (index.takeDown space state row) := by
  have taken : Move space spare index _ := .taken at_
  unfold Index.takeDown
  dsimp only
  generalize (if row.opm then ({ index with records := index.records.erase row.id } : Index).regroup row
    else { index with records := index.records.erase row.id }) = after at taken ⊢
  split
  · exact .trans (.single taken) (moves_retagged after row)
  · exact .single taken

theorem again_firstVersion (of : OfBlock space id row) (here : RecordId → Bool)
    : row.Again space id (index.firstVersion space state here row) := by
  obtain ⟨fields, gives⟩ := of.putFields
  have id_eq := of.id_eq
  unfold Index.firstVersion
  split
  · rename_i record found
    have block : space.block id = some record := by
      split at found
      · rwa [id_eq] at found
      · cases found
    have opened : ∃ put, space.unseal_ row.id record = some put ∧ put.fields = fields := by
      unfold Space.putFields at gives
      rw [block, Option.bind_some] at gives
      rw [id_eq]
      exact Option.map_eq_some_iff.mp gives
    obtain ⟨put, opened, same⟩ := opened
    refine ⟨⟨rfl, rfl, rfl, rfl, rfl, rfl, rfl⟩, rfl, fun _ _ _ => ?_⟩
    rw [gives]
    dsimp only
    rw [opened, Option.elim_some, same]
  · exact ⟨⟨rfl, rfl, rfl, rfl, rfl, rfl, rfl⟩, rfl, fun _ _ gone => nomatch gone⟩

theorem Row.Again.trans {third : Row} (first : row.Again space id row')
    (second : row'.Again space id third)
    : row.Again space id third :=
  ⟨first.kin.trans second.kin, second.superseded.trans first.superseded,
    second.content ∘ first.content⟩

theorem mem_changesOf {change : Change}
    : change ∈ index.changesOf id
      ↔ change.target = id ∧ ∃ by_ : RecordId, index.changes[by_]? = some change := by
  rw [Index.changesOf, Table.mem_find]
  simp

theorem moves_resettle (sound : index.Sound space) (at_ : index.records[id]? = some row)
    (here : RecordId → Bool)
    : Moves space spare index (index.resettle space state here row) := by
  have of := sound.ofBlock id row at_
  have id_eq := of.id_eq
  have first := @again_firstVersion space index id row state of here
  unfold Index.resettle
  split
  · rename_i gone
    obtain ⟨change, listed, deletes⟩ := settle_eq_none gone
    obtain ⟨target, by_, kept⟩ := mem_changesOf.mp listed
    exact absurd (first.kin.deletes.mp deletes)
      (sound.undeleted id row at_ by_ change kept (target.trans id_eq))
  · rename_i row' settled
    obtain ⟨_, kin, superseded, version⟩ := settle_eq_some settled
    have again := first.trans (again_of_settled kin superseded version)
    rw [again.kin.id_eq, id_eq]
    exact moves_again at_ again

theorem moves_uncount (sound : index.Sound space) (here : RecordId → Bool) (id : RecordId)
    : Moves space spare index (index.uncount space state here id) := by
  unfold Index.uncount
  split
  · rename_i row at_
    have id_eq := (sound.ofBlock id row at_).id_eq
    exact moves_takeDown (id_eq ▸ at_)
  · split
    · exact .refl
    · dsimp only
      have forgot : Move space spare index { index with changes := index.changes.erase id } :=
        .forgot index id
      split
      · exact .single forgot
      · rename_i row at_
        exact .trans (.single forgot) (moves_resettle (sound.move forgot) at_ here)

/-- Induction on the blocks. -/
theorem moves_uncounts (sound : index.Sound space) (here : RecordId → Bool) (ids : List RecordId)
    : Moves space spare index
        (ids.foldl (fun index id => index.uncount space state here id) index) := by
  induction ids generalizing index with
  | nil => exact .refl
  | cons id rest ih =>
      have first := @moves_uncount space spare index state sound here id
      exact .trans first (ih (sound.moves first))

theorem moves_cut (sound : index.Sound space) (here : RecordId → Bool) (log : Key) (limit : Nat)
    : Moves space spare index (index.cut space state here log limit) := by
  have noted : Move space spare index _ := .noted index index.had index.changeTargets index.tagged
    (Function.update index.limits log limit)
    (Function.update index.scanned log (min (index.scanned log) limit)) sound.recalls
  exact .trans (.single noted) (moves_uncounts (sound.move noted) here _)

theorem moves_moderateOne (sound : index.Sound space) (id : RecordId)
    : Moves space spare index (index.moderateOne space state id) := by
  unfold Index.moderateOne
  dsimp only
  split
  · exact .refl
  · rename_i row at_
    have id_eq := (sound.ofBlock id row at_).id_eq
    split
    · exact moves_takeDown (id_eq ▸ at_)
    split
    · exact .refl
    · have again : Moves space spare index _ := @moves_again space spare index id row
        { row with flags := modFlags row.flags (state.moderation id) } at_
        ⟨⟨rfl, rfl, rfl, rfl, rfl, rfl, rfl⟩, rfl, fun first => first⟩
      split
      · exact .trans again (moves_retagged _ _)
      · exact again

/-- A change comes in: what it deletes is to spare. -/
theorem moves_addChange (sound : index.Sound space) (change : Change)
    (may : ∀ row, index.records[change.target]? = some row → Deletes change row
      → spare index.records row)
    : Moves space spare index (index.addChange space state change) := by
  unfold Index.addChange
  dsimp only
  split
  · rename_i none_
    exact .single (.kept index change fun row held => by rw [none_] at held; cases held)
  · rename_i row at_
    have id_eq := (sound.ofBlock _ row at_).id_eq
    split
    · rename_i gone
      obtain ⟨by_, listed, deletes⟩ := settle_eq_none gone
      obtain rfl := List.mem_singleton.mp listed
      rw [id_eq]
      exact .single (.deleted at_ deletes (may row at_ deletes))
    · rename_i row' settled
      obtain ⟨spared, kin, superseded, version⟩ := settle_eq_some settled
      have kept : Move space spare index _ := .kept index change fun row' held deletes => by
        cases held.symm.trans at_
        exact spared change (List.mem_singleton_self change) deletes
      rw [kin.id_eq, id_eq]
      exact .trans (.single kept) (moves_again at_ (again_of_settled kin superseded version))

theorem alone_of_superseded (of : OfBlock space id row) (own : Index.SUPERSEDED.contains row.type = true)
    : row.opm = false := by
  apply of.alone
  have among : row.type ∈ Index.SUPERSEDED := by simpa using own
  have known : ∀ type ∈ Index.SUPERSEDED, type ∈ builtin.entries.map Prod.fst := by decide +kernel
  exact known row.type among

theorem moves_insertRow {before : Index} (values : Option Values)
    (put : Move space spare before { index with records := index.records.insert row.id row })
    (sound : before.Sound space)
    : Moves space spare before (index.insertRow space state row values) := by
  unfold Index.insertRow
  split
  · exact .single put
  · rename_i on _
    have after := sound.move put
    have noted : Move space spare { index with records := index.records.insert row.id row } _ :=
      .noted _ index.had index.changeTargets (on :: index.tagged) index.limits index.scanned
        after.recalls
    exact .trans (.tail (.single put) noted) (moves_retag _ on)

section Added

variable (sound : index.Sound space) (of : OfBlock space id row)
  (fresh : row.flags.superseded = false) (content : FirstOf space id row)
  (undeleted : ∀ (by_ : RecordId) change, index.changes[by_]? = some change → change.target = id
    → ¬ Deletes change row)

include sound of fresh content undeleted

theorem moves_supersede (own : Index.SUPERSEDED.contains row.type = true)
    : Moves space spare index (index.supersede row) := by
  have alone := alone_of_superseded of own
  have id_eq := of.id_eq
  unfold Index.supersede
  dsimp only
  generalize (row :: index.records.find (Index.sharesName row)).argmax Row.rank = newest
  have cleared : Move space spare index _ := .cleared index
    (fun other => Index.sharesName row other && newest ≠ some other && other.id ≠ row.id)
    (fun place other held shares => by
      simp only [Bool.and_eq_true] at shares
      have shared := shares.1.1
      have type : other.type = row.type := of_decide_eq_true (Bool.and_eq_true_iff.mp shared).1
      exact alone_of_superseded (sound.ofBlock place other held) (type ▸ own))
  split
  · have put : Move space spare _ _ :=
      @Move.put space spare { index with records := index.records.filter fun _ other =>
        !(Index.sharesName row other && newest ≠ some other && other.id ≠ row.id) } id row
        of fresh content undeleted
    rw [alone, if_neg (by decide), ← id_eq] at put
    exact .tail (.single cleared) put
  · exact .single cleared

theorem moves_added (values : Option Values)
    : Moves space spare index
        (let (index, row) := if row.opm then index.onePerMember row else (index, row)
        if space.personal && Index.SUPERSEDED.contains row.type then index.supersede row
        else index.insertRow space state row values) := by
  have id_eq := of.id_eq
  have put : Move space spare index _ := .put of fresh content undeleted
  cases opm : row.opm with
  | true =>
      rw [if_pos opm] at put
      have other : Index.SUPERSEDED.contains (index.onePerMember row).2.type = false := by
        cases own : Index.SUPERSEDED.contains row.type with
        | false => exact own
        | true =>
            rw [alone_of_superseded of own] at opm
            cases opm
      simp only [if_true, other, Bool.and_false, Bool.false_eq_true, if_false]
      refine moves_insertRow values ?_ sound
      have same : (index.onePerMember row).2.id = id := id_eq
      rw [same]
      exact put
  | false =>
      rw [if_neg (by rw [opm]; decide)] at put
      simp only [Bool.false_eq_true, if_false]
      split
      · rename_i personal
        exact moves_supersede sound of fresh content undeleted (Bool.and_eq_true_iff.mp personal).2
      · refine moves_insertRow values ?_ sound
        rw [id_eq]
        exact put

end Added

theorem moves_addRow (sound : index.Sound space) (had : index.had.isSome) (values : Option Values)
    (of : OfBlock space id row) (fresh : row.flags.superseded = false)
    (content : space.putFields id = some row.fields)
    : Moves space spare index (index.addRow space state row values) := by
  obtain ⟨some_, is⟩ := Option.isSome_iff_exists.mp had
  have id_eq := of.id_eq
  unfold Index.addRow
  dsimp only
  split
  · exact .refl
  · rename_i row' settled
    obtain ⟨spared, kin, superseded, version⟩ := settle_eq_some settled
    have again := @again_of_settled space id _ _ kin superseded version
    have kin := (kin_rekeyed row (row.ix ++ index.tagKeys space state row)).trans kin
    refine moves_added sound (of.of_kin kin) (superseded.trans fresh)
      (again.content fun _ _ => content) (fun by_ change kept here deletes => ?_) values
    refine spared change ?_ (kin.deletes.mp deletes)
    rw [if_pos]
    · rw [id_eq]
      exact mem_changesOf.mpr ⟨here, by_, kept⟩
    · rw [is, Option.map_some, Option.getD_some, id_eq, ← here]
      rcases sound.recalls some_ is by_ change kept with was | noted
      · rw [was, Bool.true_or]
      · simp [noted]

-- What steps write

/-- What an event's delete takes away is to spare. -/
def Spares (space : Space) (spare : Table RecordId Row → Row → Prop) (index : Index) : Event → Prop
  | .look state id _ =>
      ∀ change, changeIn space state index.limits id = some change
        → ∀ row, index.records[change.target]? = some row → Deletes change row
          → spare index.records row
  | _ => True

theorem moves_one (sound : index.Sound space) (had : index.had.isSome) (rescanned : Bool)
    (late : ¬ id.seq < max 1 (space.log id.log).from_)
    (may : Spares space spare index (.look state id rescanned))
    : Moves space spare index (index.one space state id rescanned) := by
  unfold Index.one
  split
  · exact .refl
  · rename_i within
    split
    · exact .refl
    · rename_i record values passed
      have taken : accepted space index.limits id = some (record, values) := by
        unfold accepted
        rw [if_neg (not_or.mpr ⟨late, within⟩), passed]
      split
      · rename_i changes
        split
        · exact .refl
        · rename_i change made
          exact moves_addChange sound change
            (may change (changeIn_eq_some.mpr ⟨record, values, taken, changes, made⟩))
      · rename_i puts
        have puts : record.kind = .put := not_not.mp puts
        split
        · exact .refl
        split
        · exact .refl
        · rename_i row made
          obtain ⟨content, held, passes, _⟩ := gate_passes passed
          obtain ⟨put, _⟩ := rowOf_isPut held passes puts made
          obtain ⟨content, opened, block, opens, _, fields, _⟩ := put.held
          refine moves_addRow sound had values
            ⟨record, values, state, row, passed, puts, made, .refl row⟩ put.superseded ?_
          unfold Space.putFields
          rw [block, Option.bind_some, opens, Option.map_some, fields]

theorem moves_begin (sound : index.Sound space) : Move space spare index index.begin_ := by
  refine .noted index _ index.changeTargets index.tagged index.limits index.scanned ?_
  intro some_ is id change kept
  cases had : index.had with
  | some before =>
      rw [had, Option.getD_some] at is
      cases is
      exact sound.recalls _ had id change kept
  | none =>
      rw [had, Option.getD_none] at is
      cases is
      left
      have there : id ∈ index.changes := Std.ExtTreeMap.mem_iff_isSome_getElem?.mpr (by rw [kept]; rfl)
      have filled : index.changes.isEmpty = false := by
        rw [Bool.eq_false_iff]
        intro empty
        rw [Std.ExtTreeMap.isEmpty_iff] at empty
        rw [empty] at there
        exact Std.ExtTreeMap.not_mem_empty there
      unfold Index.before
      rw [filled]
      rfl

theorem moves_look (sound : index.Sound space) (rescanned : Bool)
    (may : Spares space spare index (.look state id rescanned))
    : Moves space spare index (index.look space state id rescanned) := by
  unfold Index.look
  split
  · exact .refl
  · rename_i late
    have begun := @moves_begin space spare index sound
    have one := @moves_one space spare index.begin_ id state (sound.move begun) rfl rescanned late may
    have after := (sound.move begun).moves one
    refine .tail (.trans (.single begun) one) ?_
    exact .noted _ _ _ _ _ _ after.recalls

theorem again_dropped (row : Row)
    : row.Again space id
      { row with
        fields := []
        flags := { row.flags with dropped := true, read := false } } :=
  ⟨⟨rfl, rfl, rfl, rfl, rfl, rfl, rfl⟩, rfl, fun _ _ gone => nomatch gone⟩

/-- Every step is made of writes that keep what stands at all times. -/
theorem moves_step (sound : index.Sound space) (event : Event) (may : Spares space spare index event)
    : Moves space spare index (index.step space event) := by
  cases event with
  | look state id rescanned => exact moves_look sound rescanned may
  | cut state here log limit => exact moves_cut sound here log limit
  | moderate state id => exact moves_moderateOne sound id
  | reauthorize state here id =>
      change Moves space spare index (index.reauthorizeOne space state here id)
      unfold Index.reauthorizeOne
      split
      · exact .refl
      · rename_i row at_
        exact moves_resettle sound at_ here
  | drop id =>
      change Moves space spare index (index.dropOne id)
      unfold Index.dropOne
      split
      · exact .refl
      · rename_i row at_
        split
        · exact .refl
        · exact moves_again at_ (again_dropped row)
  | content id read =>
      change Moves space spare index (index.content space id read)
      unfold Index.content
      split
      · exact .refl
      · rename_i fields gives
        unfold Index.restore
        split
        · exact .refl
        · rename_i row at_
          split
          · exact moves_again at_ ⟨⟨rfl, rfl, rfl, rfl, rfl, rfl, rfl⟩, rfl, fun _ _ _ => gives⟩
          · exact .refl
  | accept log limit => exact .single (.noted index _ _ _ _ _ sound.recalls)
  | reopen => exact .single (.noted index none [] [] _ _ nofun)

/-- What each write keeps, any number of them does. -/
theorem moves_keep {keeps : Index → Prop}
    (move : ∀ index other, index.Sound space → keeps index → Move space spare index other → keeps other)
    (sound : index.Sound space) (kept : keeps index) (moves : Moves space spare index other)
    : other.Sound space ∧ keeps other := by
  induction moves with
  | refl => exact ⟨sound, kept⟩
  | tail _ next ih => exact ⟨ih.1.move next, move _ _ ih.1 ih.2 next⟩

/-- In every run whose deletes take only what is to spare, what the writes keep is kept; induction
on the run.
-/
theorem run_keeps {allowed : Index → Event → Prop} {keeps : Index → Prop}
    (may : ∀ index event, allowed index event → Spares space spare index event)
    (start : ∀ limits, keeps (.new limits))
    (move : ∀ index other, index.Sound space → keeps index → Move space spare index other → keeps other)
    (run : Run space allowed index)
    : index.Sound space ∧ keeps index := by
  induction run with
  | start limits => exact ⟨sound_new limits, start limits⟩
  | step event _ allowed ih =>
      obtain ⟨sound, kept⟩ := ih
      exact moves_keep move sound kept (moves_step sound event (may _ event allowed))

end Kept

end Hypergraph.Indexer
