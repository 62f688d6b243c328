import Hypergraph.Fields.Packages
import Hypergraph.Indexer.Runs

/-! A record's content dropped, and fetched back (`drop`, `restore` and `#content`): what comes back
is the content of the record's own block, its first version's.
-/

namespace Hypergraph.Indexer

open Wire Encodings Fields Js

section Contents

variable {space : Space} {spare : Table RecordId Row → Row → Prop} {index other : Index}
  {id : RecordId} {row : Row}

/-- Each row's content is its block's, unless it was edited or its content is gone. -/
def Index.Contents (space : Space) (index : Index) : Prop :=
  ∀ (id : RecordId) row, index.records[id]? = some row → FirstOf space id row

/-- Where every row is one that was held, but for which of them counts. -/
theorem Index.Contents.of_rows (contents : index.Contents space)
    (rows
      : ∀ (id : RecordId) row', other.records[id]? = some row'
          → ∃ row, index.records[id]? = some row ∧ ∃ is, row' = row.superseded is)
    : other.Contents space := by
  intro id row' at_
  obtain ⟨row, held, is, rfl⟩ := rows id row' at_
  exact contents id row held

theorem contents_insert {records : Table RecordId Row}
    (rows : ∀ (id : RecordId) row, records[id]? = some row → FirstOf space id row)
    (first : FirstOf space id row)
    : ({ index with records := records.insert id row } : Index).Contents space := by
  intro place found at_
  rcases Table.at_insert at_ with ⟨rfl, rfl⟩ | ⟨_, before⟩
  · exact first
  · exact rows place found before

/-- Every write keeps the contents. -/
theorem Index.Contents.move (contents : index.Contents space) (move : Move space spare index other)
    : other.Contents space := by
  cases move with
  | noted had changeTargets tagged limits scanned recalls => exact contents
  | @rewritten id row row' at_ kin superseded content =>
      exact contents_insert contents (content (contents id row at_))
  | kept change spares => exact contents
  | @deleted change row at_ deletes may =>
      intro place found held
      exact contents place found (Table.at_erase held).2
  | forgot id => exact contents
  | @taken id row at_ =>
      have left_ : Index.Contents space { index with records := index.records.erase id } :=
        fun place found held => contents place found (Table.at_erase held).2
      split
      · exact left_.of_rows fun place found held => at_regroup held
      · exact left_
  | cleared gone alone =>
      intro place found held
      rw [Std.ExtTreeMap.getElem?_filter', Option.filter_eq_some_iff] at held
      exact contents place found held.1
  | @put id row of fresh content undeleted =>
      split
      · have others : (index.onePerMember row).1.Contents space :=
          contents.of_rows fun place found held => at_onePerMember held
        exact contents_insert others content
      · exact contents_insert contents content

theorem contents_run {allowed : Index → Event → Prop} (run : Run space allowed index)
    : index.Sound space ∧ index.Contents space := by
  refine @run_keeps space (fun _ _ => True) index allowed (Index.Contents space) ?_ ?_ ?_ run
  · intro index event _
    cases event with
    | look state id rescanned => exact fun _ _ _ _ _ => trivial
    | _ => trivial
  · intro limits id row held
    rw [show (Index.new limits).records = ∅ from rfl, Std.ExtTreeMap.getElem?_empty] at held
    cases held
  · exact fun index other _ contents move => contents.move move

-- Dropped and fetched back

/-- A row has the content, the version and the index keys another had. -/
structure Row.Restores (row back : Row) : Prop where
  fields : back.fields = row.fields
  links : back.links = row.links
  vstamp : back.vstamp = row.vstamp
  vdevice : back.vdevice = row.vdevice
  edited : back.flags.edited = row.flags.edited
  ix : back.ix = row.ix

/-- A row dropped and fetched back is as it was, with the fields its block gives. -/
theorem content_dropOne (at_ : index.records[id]? = some row) (here : row.flags.dropped = false)
    {fields : Bytes} (gives : space.putFields id = some fields) (read : Bool)
    : ((index.dropOne id).content space id read).records[id]?
      = some { row with
          fields := fields
          flags := { row.flags with read := read } } := by
  have dropped : index.dropOne id = { index with records := index.records.insert id { row with
      fields := []
      flags := { row.flags with dropped := true, read := false } } } := by
    simp only [Index.dropOne, at_, here, Bool.false_eq_true, if_false]
  simp only [Index.content, gives, dropped, Index.restore, Std.ExtTreeMap.getElem?_insert_self,
    if_true, here, Bool.false_or]

/-- Content dropped and fetched back comes back as it was just where the record is not edited, or
the edit left the fields its first version has.
-/
theorem content_restored_iff {allowed : Index → Event → Prop} (run : Run space allowed index)
    (at_ : index.records[id]? = some row) (here : row.flags.dropped = false) (read : Bool)
    : (∃ back, ((index.dropOne id).content space id read).records[id]? = some back
        ∧ row.Restores back)
      ↔ row.flags.edited = false ∨ space.putFields id = some row.fields := by
  obtain ⟨sound, contents⟩ := contents_run run
  obtain ⟨fields, gives⟩ := (sound.ofBlock id row at_).putFields
  have comes := @content_dropOne space index id row at_ here fields gives read
  have same : (∃ back, ((index.dropOne id).content space id read).records[id]? = some back
      ∧ row.Restores back) ↔ fields = row.fields := by
    constructor
    · rintro ⟨back, found, restores⟩
      cases comes.symm.trans found
      exact restores.fields
    · rintro rfl
      exact ⟨_, comes, ⟨rfl, rfl, rfl, rfl, rfl, rfl⟩⟩
  rw [same, gives, Option.some.injEq]
  constructor
  · exact .inr
  · rintro (unedited | is)
    · exact Option.some.inj (gives.symm.trans (contents id row at_ unedited here))
    · exact is

end Contents

-- An edited note

/-- Fewer bytes are never dropped. -/
def DROP_MIN : Nat := 256

/-- May the content of a row be dropped (`#droppable`)? Only an app's records, of others, of some
size, below where their log is indexed.
-/
def Index.droppable (index : Index) (space : Space) (me : Key) (row : Row) : Bool :=
  (space.typeOf row.type).isSome && !ownPrefix row.type && !row.flags.dropped && row.author ≠ me
    && DROP_MIN ≤ row.fields.length && !(space.log row.id.log).own
    && row.id.seq < index.scanned row.id.log

def noteTypes : Dict String Declaration :=
  .ofList [("note", { fields := .ofList [("text", "bytes")] })]

theorem noteTypes_accepted : (Types.new noteTypes).isOk = true := by decide +kernel

/-- The bytes of a note's text, one byte over and over. -/
def noteFields (byte : UInt8) : Bytes :=
  compactUint.encode 1 ++ compactUint.encode DROP_MIN ++ List.replicate DROP_MIN byte

/-- One member writes a note, and another version of it. -/
def noteSpace : Space where
  packages := compactPackages
  string _ := []
  types := (Types.new noteTypes).toOption.getD ⟨.empty⟩
  declared := by
    have accepted := noteTypes_accepted
    cases made : Types.new noteTypes with
    | error err =>
        rw [made] at accepted
        cases accepted
    | ok types => exact ⟨noteTypes, made⟩
  personal := false
  priv := false
  openBox _ _ := none
  validRemoval _ _ := false
  rules := []
  log _ := ⟨[1], [2], false, 1⟩
  block id :=
    if id = ⟨[3], 1⟩ then some ⟨.put, "note", 5, none, false, [], noteFields 7⟩
    else if id = ⟨[3], 2⟩ then some ⟨.edit, "note", 6, some ⟨[3], 1⟩, false, [], noteFields 8⟩
    else none

/-- Nothing is decided of a record, and everyone may edit. -/
def nothingDecided : Deciding where
  moderation _ := ⟨false, false, false⟩
  editLimit _ _ _ := ⊤

/-- The note indexed. -/
def noteFirst : Index := (Index.new fun _ => ⊤).step noteSpace (.look nothingDecided ⟨[3], 1⟩ false)

/-- And its edit. -/
def noteEdited : Index := noteFirst.step noteSpace (.look nothingDecided ⟨[3], 2⟩ false)

theorem noteFirst_run : Run noteSpace (fun _ _ => True) noteFirst :=
  @Run.step noteSpace (fun _ _ => True) (.new fun _ => ⊤) _ (.start _) trivial

theorem noteEdited_run : Run noteSpace (fun _ _ => True) noteEdited :=
  @Run.step noteSpace (fun _ _ => True) noteFirst _ noteFirst_run trivial

/-- The note as it is held. -/
def noteRow : Row where
  id := ⟨[3], 1⟩
  type := "note"
  author := [1]
  device := [2]
  stamp := 5
  vstamp := 5
  vdevice := [2]
  fields := noteFields 7
  links := []
  ix := []
  flags := {}
  opm := false
  target := none

def editedRow : Row :=
  { noteRow with vstamp := 6, fields := noteFields 8, flags := { edited := true } }

/-- What the index holds of the note, first and once it is edited. -/
theorem note_held
    : noteFirst.records[noteRow.id]? = some noteRow
      ∧ noteEdited.records[noteRow.id]? = some editedRow
      ∧ noteEdited.droppable noteSpace [9] editedRow = true
      ∧ noteSpace.putFields noteRow.id = some (noteFields 7)
      ∧ noteFields 7 ≠ noteFields 8 := by
  decide +kernel

/-- Witness: the note not edited comes back as it was. -/
theorem content_restored_note
    : ∃ back, ((noteFirst.dropOne noteRow.id).content noteSpace noteRow.id true).records[noteRow.id]?
        = some back ∧ noteRow.Restores back :=
  (content_restored_iff noteFirst_run note_held.1 rfl true).mpr (.inl rfl)

/-- The edited note, whose content may be dropped, comes back with its first version's text. -/
theorem edited_note_lost
    : Run noteSpace (fun _ _ => True) noteEdited
      ∧ noteEdited.records[noteRow.id]? = some editedRow
      ∧ noteEdited.droppable noteSpace [9] editedRow = true
      ∧ (∃ back, ((noteEdited.dropOne noteRow.id).content noteSpace noteRow.id true).records[noteRow.id]?
          = some back ∧ back.flags.edited = true ∧ back.fields = noteRow.fields)
      ∧ ¬ ∃ back, ((noteEdited.dropOne noteRow.id).content noteSpace noteRow.id true).records[noteRow.id]?
          = some back ∧ editedRow.Restores back := by
  obtain ⟨_, held, droppable, gives, apart⟩ := note_held
  have comes := content_dropOne held rfl gives true
  refine ⟨noteEdited_run, held, droppable, ⟨_, comes, rfl, rfl⟩, ?_⟩
  rintro ⟨back, found, restores⟩
  cases comes.symm.trans found
  exact apart restores.fields

end Hypergraph.Indexer
