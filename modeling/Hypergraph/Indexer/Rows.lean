import Hypergraph.Indexer.Gate

/-! The index's rows, and the operations that write them (`Indexer` in `lib/index/indexer.js`). What
an operation reports, what it clears and what it counts is left out. A loop that writes each row it
found is one rewriting of them all.
-/

namespace Hypergraph.Indexer

open Wire Encodings Fields Js

-- What is kept

/-- `FLAGS`, but `REMOVED`, which no row has. -/
structure Flags where
  hidden : Bool := false
  superseded : Bool := false
  edited : Bool := false
  flagged : Bool := false
  dropped : Bool := false
  read : Bool := false
  unreadable : Bool := false
  deriving DecidableEq

/-- A record as indexed: its current version and flags. -/
structure Row where
  id : RecordId
  type : String
  author : Key
  device : Key
  stamp : Nat
  vstamp : Nat
  vdevice : Key
  fields : Bytes
  links : List RecordId
  ix : List Units
  flags : Flags
  /-- Of a one-per-member type, with the record it is for (none: the space). -/
  opm : Bool
  target : Option RecordId
  deriving DecidableEq

/-- An edit or a delete, kept by its target. -/
structure Change where
  target : RecordId
  id : RecordId
  kind : RecordKind
  type : String
  author : Key
  device : Key
  stamp : Nat
  fields : Bytes
  links : List RecordId
  deriving DecidableEq

def Row.rank (row : Row) : Rank := Indexer.rank row.stamp row.device

/-- Of its current version. -/
def Row.vrank (row : Row) : Rank := Indexer.rank row.vstamp row.vdevice

def Change.rank (change : Change) : Rank := Indexer.rank change.stamp change.device

/-- A row with a change as its version: its content is here. -/
def Row.changed (row : Row) (change : Change) : Row :=
  { row with
    vstamp := change.stamp
    vdevice := change.device
    fields := change.fields
    links := change.links
    flags := { row.flags with edited := true, dropped := false } }

/-- What the index held of the space when it opened (`#before`). -/
structure Had where
  changes : Bool
  tags : Bool
  records : Bool

structure Index where
  records : Table RecordId Row
  changes : Table RecordId Change
  had : Option Had
  /-- Targets of changes, and records tagged, since it opened. -/
  changeTargets : List RecordId
  tagged : List RecordId
  /-- Of each log, what counts is below its limit, and what was looked at below `scanned`. -/
  limits : Key → ℕ∞
  scanned : Key → Nat

namespace Index

/-- A new space's. -/
def new (limits : Key → ℕ∞) : Index := ⟨∅, ∅, none, [], [], limits, fun _ => 0⟩

variable (index : Index)

def before : Had where
  changes := !index.changes.isEmpty
  tags := !(index.records.find fun row => row.type = "hg/tag").isEmpty
  records := !index.records.isEmpty

/-- A run starts: what was held is looked up once. -/
def begin_ : Index := { index with had := some (index.had.getD index.before) }

/-- The program starts again. -/
def reopen : Index := { index with had := none, changeTargets := [], tagged := [] }

end Index

-- Who may change what

section Deciding

variable (space : Space) (state : Deciding)

/-- `mayEdit`, for a record that is written. -/
def mayEdit (author : Key) (id : RecordId) (target : Row) : Bool :=
  author = target.author
    || match ((space.typeOf target.type).map TypeDecl.editable).getD .author with
      | .author => false
      | .members => true
      | .permission name => decide ((id.seq : ℕ∞) < state.editLimit author name id.log)

/-- `mayChange`: a delete only by the target's author. -/
def mayChange (change : Change) (target : Row) : Bool :=
  change.type = target.type
    && if change.kind = .delete then change.author = target.author
      else mayEdit space state change.author change.id target

-- Index keys

/-- A record's keys in the indexes its type declares. -/
def ixKeys (type : String) (values : Option Values) : List Units :=
  match values, space.typeOf type with
  | some values, some decl =>
      (decl.index.filter fun fields => fields.any fun field => (values field).isSome).map fun fields =>
        Units.ofText (",".intercalate fields) ++ [0]
          ++ [0].intercalate (fields.map fun field => (values field).elim [] space.string)
  | _, _ => []

/-- The key of a tag: `'\0#' + tag`. -/
def tagKey (tag : Units) : Units := [0, 35] ++ tag

/-- A tag or untag, by its row. -/
structure Tagging where
  row : Row
  tag : Units
  off : Bool

/-- What a row of `hg/tag` says of a record, if it says anything that counts. -/
def tagging (record row : Row) : Option Tagging :=
  if row.flags.hidden then none
  else do
    let values ← space.decode "hg/tag" row.fields row.links
    let on ← space.linkOf (values "on")
    if on = record.id ∧ mayEdit space state row.author row.id record then
      some ⟨row, unitsOf (values "tag"), truthy (values "off")⟩
    else none

/-- Is a tag's latest tagging one that is not off? -/
def shown (taggings : List Tagging) (tag : Units) : Bool :=
  match (taggings.filter (·.tag = tag)).argmax (·.row.rank) with
  | some best => !best.off
  | none => false

/-- The keys of the tags shown, sorted. -/
def keysOf (taggings : List Tagging) : List Units :=
  (((taggings.map (·.tag)).dedup.filter (shown taggings)).map tagKey).mergeSort
    fun a b => decide (a ≤ b)

/-- `#tagged`: the record a row of `hg/tag` tags. -/
def taggedBy (row : Row) : Option RecordId :=
  (space.decode "hg/tag" row.fields row.links).bind fun values => space.linkOf (values "on")

namespace Index

variable (index : Index)

def taggings (record : Row) : List Tagging :=
  (index.records.find fun row => row.type = "hg/tag" && row.links.contains record.id).filterMap
    (tagging space state record)

/-- Nothing held when the index opened tags it, and nothing since. -/
def untagged (id : RecordId) : Bool :=
  match index.had with
  | some had => !had.tags && !index.tagged.contains id
  | none => false

def tagKeys (record : Row) : List Units :=
  if ownPrefix record.type || index.untagged record.id then []
  else keysOf (index.taggings space state record)

def ix (record : Row) (values : Option Values) : List Units :=
  ixKeys space record.type values ++ index.tagKeys space state record

/-- `#retag`: a record's keys again, if it is held. They are compared joined by line feeds. -/
def retag (id : RecordId) : Index :=
  match index.records[id]? with
  | none => index
  | some row =>
      let ix := index.ix space state row (space.decode row.type row.fields row.links)
      if [10].intercalate ix = [10].intercalate row.ix then index
      else { index with records := index.records.insert id { row with ix := ix } }

/-- A row of `hg/tag` went, or was hidden. -/
def retagged (row : Row) : Index :=
  match taggedBy space row with
  | none => index
  | some on => index.retag space state on

-- Versions

/-- A row with the latest of some changes applied to it; none if one of them deletes it. (Where
nothing changes, the row is left as it is.)
-/
def settle (row : Row) (changes : List Change) : Option Row :=
  let allowed := changes.filter fun change => mayChange space state change row
  if allowed.any fun change => change.kind = .delete then none
  else
    match allowed.argmax Change.rank with
    | none => some row
    | some best =>
        if row.vrank < best.rank then
          let row := row.changed best
          some { row with ix := index.ix space state row (space.decode row.type row.fields row.links) }
        else some row

/-- The changes kept of a record. -/
def changesOf (id : RecordId) : List Change := index.changes.find fun change => change.target = id

/-- A record's first version, from its block if that is here. -/
def firstVersion (here : RecordId → Bool) (row : Row) : Row :=
  match if here row.id then space.block row.id else none with
  | some record =>
      let put := space.unseal_ row.id record
      let back := { row with
        vstamp := put.elim row.stamp (·.stamp)
        vdevice := row.device
        fields := put.elim [] (·.fields)
        links := put.elim [] (·.links)
        flags := { row.flags with edited := false } }
      { back with ix := index.ix space state back (space.decode row.type back.fields back.links) }
  | none =>
      { row with
        vstamp := row.stamp
        vdevice := row.device
        fields := []
        flags := { row.flags with dropped := true, edited := false } }

/-- `#resettle`: a held row's current version again, from its put and the changes left. -/
def resettle (here : RecordId → Bool) (row : Row) : Index :=
  match index.settle space state (index.firstVersion space state here row) (index.changesOf row.id) with
  | none => { index with records := index.records.erase row.id }
  | some row => { index with records := index.records.insert row.id row }

end Index

end Deciding

-- One per member

/-- Of the same one-per-member type, target and author. -/
def Row.fellow (row other : Row) : Bool :=
  other.opm && other.type = row.type && other.target = row.target && other.author = row.author

/-- Another record of the same member for the same target. -/
def Row.rival (row other : Row) : Bool := row.fellow other && other.id ≠ row.id

def Row.superseded (row : Row) (is : Bool) : Row :=
  { row with flags := { row.flags with superseded := is } }

namespace Index

variable (index : Index)

/-- `#regroup`: the latest of the others counts again. -/
def regroup (gone : Row) : Index :=
  let best := (index.records.find gone.rival).argmax Row.rank
  { index with records :=
      index.records.rewrite gone.rival fun row => row.superseded (best.map Row.id ≠ some row.id) }

/-- `#onePerMember`: a row comes in, and only the latest counts. -/
def onePerMember (row : Row) : Index × Row :=
  let others := index.records.find fun other => row.rival other && !other.flags.superseded
  let beaten := fun other =>
    row.rival other && !other.flags.superseded && decide (other.rank < row.rank)
  ({ index with records := index.records.rewrite beaten (·.superseded true) },
    row.superseded (row.flags.superseded || others.any fun other => !decide (other.rank < row.rank)))

/-- The personal types only the latest of counts. -/
def SUPERSEDED : List String := ["hg/setting", "hg/heads"]

/-- Of the same setting's name, or the same device's heads. -/
def sharesName (row other : Row) : Bool :=
  other.type = row.type
    && if row.type = "hg/setting" then
        match row.ix.head? with
        | some key => other.ix.contains key
        | none => other.ix ≠ []
      else other.device = row.device

/-- `#supersede`: a personal record comes in, and only the latest is kept. -/
def supersede (row : Row) : Index :=
  let newest := (row :: index.records.find (sharesName row)).argmax Row.rank
  let records := index.records.filter fun _ other =>
    !(sharesName row other && newest ≠ some other && other.id ≠ row.id)
  { index with records := if newest = some row then records.insert row.id row else records }

end Index

-- A block indexed

section One

variable (space : Space) (state : Deciding)

/-- What the gate lets in of a block. -/
def Space.gate (id : RecordId) : Option (Opened × Option Values) := do
  let record ← space.block id
  let (record, values) ← space.checkRecord id record
  if space.allowed (space.log id.log) record values && builtinValid record values then
    return (record, values)
  else none

/-- A change as it is kept: not one of a record taken down, nor an edit that breaks a rule. -/
def changeOf (id : RecordId) (record : Opened) (values : Option Values) : Option Change := do
  let target ← record.target
  let log := space.log id.log
  if state.isRemoved target then none
  else if record.kind = .edit && space.brokenRule record.type values target log record.stamp then none
  else return {
    target := target
    id := id
    kind := record.kind
    type := record.type
    author := log.identity
    device := log.device
    stamp := record.stamp
    fields := record.fields
    links := record.links }

/-- A row's flags with a record's moderation. -/
def modFlags (flags : Flags) (m : Moderation) : Flags :=
  { flags with hidden := m.hidden, flagged := m.flagged }

/-- A put's row, its tags and changes apart: none if it is taken down, or breaks a rule. -/
def rowOf (id : RecordId) (record : Opened) (values : Option Values) : Option Row :=
  let log := space.log id.log
  let decl := if record.unreadable then none else space.typeOf record.type
  let opm := (decl.map TypeDecl.onePerMember).getD false
  if state.isRemoved id then none
  else if space.brokenRule record.type values id log record.stamp then none
  else some {
    id := id
    type := record.type
    author := log.identity
    device := log.device
    stamp := record.stamp
    vstamp := record.stamp
    vdevice := log.device
    fields := record.fields
    links := record.links
    ix := ixKeys space record.type values
    flags := { modFlags {} (state.moderation id) with unreadable := record.unreadable }
    opm := opm
    target := if opm then do
        let field ← (← decl).target
        let values ← values
        space.linkOf (values field)
      else none }

namespace Index

variable (index : Index)

/-- A change comes in. -/
def addChange (change : Change) : Index :=
  let index := { index with
    changes := index.changes.insert change.id change
    changeTargets := change.target :: index.changeTargets }
  match index.records[change.target]? with
  | none => index
  | some row =>
      match index.settle space state row [change] with
      | none => { index with records := index.records.erase row.id }
      | some row => { index with records := index.records.insert row.id row }

/-- A row is written; a tag's record has its keys again. -/
def insertRow (row : Row) (values : Option Values) : Index :=
  let index := { index with records := index.records.insert row.id row }
  match if row.type = "hg/tag" then values.bind fun values => space.linkOf (values "on") else none with
  | none => index
  | some on => { index with tagged := on :: index.tagged }.retag space state on

/-- A put comes in. -/
def addRow (row : Row) (values : Option Values) : Index :=
  let row := { row with ix := row.ix ++ index.tagKeys space state row }
  let mayHave := (index.had.map Had.changes).getD false || index.changeTargets.contains row.id
  let pending := if mayHave then index.changesOf row.id else []
  match index.settle space state row pending with
  | none => index
  | some row =>
      let (index, row) := if row.opm then index.onePerMember row else (index, row)
      if space.personal && SUPERSEDED.contains row.type then index.supersede row
      else index.insertRow space state row values

/-- `#one`. -/
def one (id : RecordId) (rescanned : Bool) : Index :=
  if index.limits id.log ≤ id.seq then index
  else
    match space.gate id with
    | none => index
    | some (record, values) =>
        if record.kind ≠ .put then
          match changeOf space state id record values with
          | none => index
          | some change => index.addChange space state change
        else if ((index.had.map Had.records).getD false || rescanned) && index.records.contains id then
          index
        else
          match rowOf space state id record values with
          | none => index
          | some row => index.addRow space state row values

/-- A block looked at by a run (`#run`): block 0 is the log's header, and what is before the block
the log is read from isn't looked at.
-/
def look (id : RecordId) (rescanned : Bool) : Index :=
  if id.seq < max 1 (space.log id.log).from_ then index
  else
    let after := index.begin_.one space state id rescanned
    { after with
      scanned := Function.update after.scanned id.log (max (after.scanned id.log) (id.seq + 1)) }

-- Undoing, and moderation

/-- A row goes: taken down, or its block no longer counts. -/
def takeDown (row : Row) : Index :=
  let index := { index with records := index.records.erase row.id }
  let index := if row.opm then index.regroup row else index
  if row.type = "hg/tag" then index.retagged space state row else index

/-- `#uncount`: undoes whatever a block did. -/
def uncount (here : RecordId → Bool) (id : RecordId) : Index :=
  match index.records[id]? with
  | some row => index.takeDown space state row
  | none =>
      match index.changes[id]? with
      | none => index
      | some change =>
          let index := { index with changes := index.changes.erase id }
          match index.records[change.target]? with
          | none => index
          | some row => index.resettle space state here row

/-- The blocks of a log from a number on, below another. -/
def blocksFrom (log : Key) (start end_ : Nat) : List RecordId :=
  (List.range' start (end_ - start)).map (⟨log, ·⟩)

/-- `cut`: what is past a log's limit no longer counts. -/
def cut (here : RecordId → Bool) (log : Key) (limit : Nat) : Index :=
  let upto := index.scanned log
  let index := { index with
    limits := Function.update index.limits log limit
    scanned := Function.update index.scanned log (min upto limit) }
  (blocksFrom log (max limit (max 1 (space.log log).from_)) upto).foldl
    (fun index id => index.uncount space state here id) index

/-- What the decisions say of a record reaches its row. -/
def moderateOne (id : RecordId) : Index :=
  let m := state.moderation id
  match index.records[id]? with
  | none => index
  | some row =>
      if m.removed then index.takeDown space state row
      else if modFlags row.flags m = row.flags then index
      else
        let row := { row with flags := modFlags row.flags m }
        let index := { index with records := index.records.insert id row }
        if row.type = "hg/tag" then index.retagged space state row else index

/-- `reauthorize` of one of the records it chooses. -/
def reauthorizeOne (here : RecordId → Bool) (id : RecordId) : Index :=
  match index.records[id]? with
  | none => index
  | some row => index.resettle space state here row

-- Holding part of a space

/-- `drop` of one of the rows chosen. -/
def dropOne (id : RecordId) : Index :=
  match index.records[id]? with
  | none => index
  | some row =>
      if row.flags.dropped then index
      else
        let row := { row with
          fields := []
          flags := { row.flags with dropped := true, read := false } }
        { index with records := index.records.insert id row }

/-- `restore`: a dropped record's content is back. -/
def restore (id : RecordId) (fields : Bytes) (read : Bool) : Index :=
  match index.records[id]? with
  | none => index
  | some row =>
      if row.flags.dropped then
        let row := { row with
          fields := fields
          flags := { row.flags with dropped := false, read := row.flags.read || read } }
        { index with records := index.records.insert id row }
      else index

end Index

end One

end Hypergraph.Indexer
