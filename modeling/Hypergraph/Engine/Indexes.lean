import Hypergraph.Lib.Keyed
import Hypergraph.Engine.Layouts

/-! The index both layouts keep: which entries there are and what stands under each, whatever their
keys. A layout represents an index when each of its entries stands under its own key.
-/

namespace Hypergraph.Engine

open Wire

namespace Layouts

-- The index

/-- What an entry is of. -/
inductive Entry
  | edge (source type : String) (time : Nat) (target : String)
  | incoming (target type : String) (time : Nat) (source : String)
  | active (source type target : String)
  | count (direction : Direction) (entityId type : String)
  | tag (tag : String) (time : Nat) (entityId author : String)
  | tagRef (tag entityId author : String)
  deriving DecidableEq

/-- What stands under an entry: of an edge what its key doesn't say; of an active edge and of a
tag's ref the time of what it refers to.
-/
abbrev Stored (Number : Type) : Entry → Type
  | .edge .. => EdgeValue Number
  | .incoming .. => Unit
  | .active .. => Nat
  | .count .. => Nat
  | .tag .. => Unit
  | .tagRef .. => Nat

/-- The index: what there is of each entry. -/
def Index (Number : Type) := (entry : Entry) → Option (Stored Number entry)

variable {Number : Type}

namespace Index

variable (ix : Index Number)

def empty : Index Number := fun _ => none

/-- The index with something else of one entry. -/
def set (entry : Entry) (stored : Option (Stored Number entry)) : Index Number :=
  Function.update ix entry stored

def put (entry : Entry) (value : Stored Number entry) : Index Number := ix.set entry (some value)

def del (entry : Entry) : Index Number := ix.set entry none

variable {ix} {entry other : Entry}

@[simp]
theorem set_self (stored : Option (Stored Number entry)) : ix.set entry stored entry = stored :=
  Function.update_self _ _ _

theorem set_of_ne (stored : Option (Stored Number entry)) (apart : other ≠ entry)
    : ix.set entry stored other = ix other :=
  Function.update_of_ne apart _ _

variable (ix)

def addEdge (e : Edge Number) : Index Number :=
  let time := keyTime e.createdAt
  ((ix.put (.edge e.source e.type time e.target) ⟨false, e.value, e.data⟩).put
    (.active e.source e.type e.target) time).put (.incoming e.target e.type time e.source) ()

def removeEdge (source type : String) (createdAt : Nat) (target : String) : Index Number :=
  let time := keyTime createdAt
  let marked := match ix (.edge source type time target) with
    | some v => ix.put (.edge source type time target) { v with deleted := true }
    | none => ix
  (marked.del (.incoming target type time source)).del (.active source type target)

def putCount (direction : Direction) (entityId type : String) (count : Nat) : Index Number :=
  ix.put (.count direction entityId type) count

def addTag (t : TagRecord) : Index Number :=
  let time := keyTime t.createdAt
  (ix.put (.tag t.tag time t.entityId t.author) ()).put (.tagRef t.tag t.entityId t.author) time

def removeTag (tag entityId author : String) : Index Number :=
  match ix (.tagRef tag entityId author) with
  | some time => (ix.del (.tag tag time entityId author)).del (.tagRef tag entityId author)
  | none => ix.del (.tagRef tag entityId author)

/-- An edge's record. -/
def edgeAt (source type : String) (time : Nat) (target : String) : Option (EdgeRecord Number) :=
  (ix (.edge source type time target)).map fun v =>
    ⟨source, target, type, authorFromEntityId source, time, v.deleted, v.value.map some, v.data⟩

def activeEdge (source type target : String) : Option (EdgeRecord Number) :=
  (ix (.active source type target)).bind fun time => ix.edgeAt source type time target

/-- The edges of an entity in a direction, of a type if one is asked for. -/
structure IsEdge (entityId : String) (direction : Direction) (type : Option String)
    (record : EdgeRecord Number) : Prop where
  type : ∀ asked, required type = some asked → record.type = asked
  here : match direction with
    | .outgoing => record.source = entityId
    | .incoming => record.target = entityId
      ∧ (ix (.incoming record.target record.type record.createdAt record.source)).isSome
  there : ix.edgeAt record.source record.type record.createdAt record.target = some record

def getCount (direction : Direction) (entityId type : String) : Nat :=
  (ix (.count direction entityId type)).getD 0

/-- The tags there are, or the one that is asked for. -/
structure IsTagged (tag : Option String) (record : TagRecord) : Prop where
  tag : ∀ asked, tag = some asked → record.tag = asked
  there : (ix (.tag record.tag record.createdAt record.entityId record.author)).isSome

def HasTag (entityId tag : String) : Prop := ∃ author, (ix (.tagRef tag entityId author)).isSome

end Index

-- Writes

/-- A write to an index. -/
inductive Write (Number : Type)
  | addEdge (e : Edge Number)
  | removeEdge (source type : String) (createdAt : Nat) (target : String)
  | putCount (direction : Direction) (entityId type : String) (count : Nat)
  | addTag (t : TagRecord)
  | removeTag (tag entityId author : String)

def Index.write (ix : Index Number) : Write Number → Index Number
  | .addEdge e => ix.addEdge e
  | .removeEdge source type createdAt target => ix.removeEdge source type createdAt target
  | .putCount direction entityId type count => ix.putCount direction entityId type count
  | .addTag t => ix.addTag t
  | .removeTag tag entityId author => ix.removeTag tag entityId author

def Layout1.write (json : Number → Option Number) (db : Layout1.Db Number)
    : Write Number → Layout1.Db Number
  | .addEdge e => Layout1.addEdge json db e
  | .removeEdge source type createdAt target => Layout1.removeEdge db source type createdAt target
  | .putCount direction entityId type count => Layout1.putCount db direction entityId type count
  | .addTag t => Layout1.addTag db t
  | .removeTag tag entityId author => Layout1.removeTag db tag entityId author

def Layout2.write {Key : Type} [Ord Key] [Std.TransOrd Key] (enc : IndexEncoder Key) (p : Primitives)
    (float64 : Codec Number) (db : Layout2.Db Key)
    : Write Number → Layout2.Db Key
  | .addEdge e => Layout2.addEdge enc p float64 db e
  | .removeEdge source type createdAt target =>
      Layout2.removeEdge enc p float64 db source type createdAt target
  | .putCount direction entityId type count => Layout2.putCount enc p db direction entityId type count
  | .addTag t => Layout2.addTag enc p db t
  | .removeTag tag entityId author => Layout2.removeTag enc p db tag entityId author

-- Tables that represent an index

/-- A table has an index's entries under their keys, and nothing else. -/
structure Represents {Key Value : Type} [Ord Key] [Std.TransOrd Key] (named : Entry → Prop)
    (fits : (entry : Entry) → Stored Number entry → Prop) (key : Entry → Key)
    (value : (entry : Entry) → Stored Number entry → Value) (db : Table Key Value)
    (ix : Index Number) : Prop where
  holds : Keyed.Holds (fun place : Key => db[place]?) (fun entry : Subtype named => key entry.1)
    fun entry => (ix entry.1).map (value entry.1)
  fits : ∀ entry stored, ix entry = some stored → named entry ∧ fits entry stored

namespace Represents

open Layouts.Index

variable {Key Value : Type} [Ord Key] [Std.TransOrd Key] {named : Entry → Prop}
  {fits : (entry : Entry) → Stored Number entry → Prop} {key : Entry → Key}
  {value : (entry : Entry) → Stored Number entry → Value} {db : Table Key Value} {ix : Index Number}

theorem empty : Represents named fits key value (∅ : Table Key Value) (Index.empty : Index Number) where
  holds := ⟨fun _ => by simp [Index.empty], fun _ _ => by simp⟩
  fits _ _ there := by cases there

theorem get (rep : Represents named fits key value db ix) (entry : Entry) (is : named entry)
    : db[key entry]? = (ix entry).map (value entry) :=
  rep.holds.under ⟨entry, is⟩

/-- What stands in the table is of an entry. -/
theorem of_get (rep : Represents named fits key value db ix) {place : Key} {found : Value}
    (there : db[place]? = some found)
    : ∃ entry stored, ix entry = some stored ∧ key entry = place ∧ value entry stored = found := by
  by_contra none_
  have absent : db[place]? = none := by
    by_cases named_ : ∃ entry : Subtype named, key entry.1 = place
    · obtain ⟨entry, rfl⟩ := named_
      rw [rep.get entry.1 entry.2] at there ⊢
      cases stored : ix entry.1 with
      | none => rfl
      | some stored_ =>
          rw [stored, Option.map_some] at there
          exact absurd ⟨entry.1, stored_, stored, rfl, Option.some.inj there⟩ none_
    · exact rep.holds.only place fun entry is => named_ ⟨entry, is⟩
  cases there.symm.trans absent

variable [Std.LawfulEqOrd Key]

omit [Std.LawfulEqOrd Key] in
/-- Something else under an entry's key is something else of the entry. -/
theorem update [DecidableEq Key] (rep : Represents named fits key value db ix)
    (apart : ∀ entry entry', named entry → named entry' → key entry = key entry' → entry = entry')
    {entry : Entry} {stored : Option (Stored Number entry)} (is : named entry)
    (fit : ∀ v, stored = some v → fits entry v) {db' : Table Key Value}
    (made : ∀ place : Key, db'[place]?
      = if place = key entry then stored.map (value entry) else db[place]?)
    : Represents named fits key value db' (ix.set entry stored) where
  holds := by
    have kept := rep.holds.update (fun one other same => Subtype.ext (apart _ _ one.2 other.2 same))
      ⟨entry, is⟩ (stored.map (value entry))
    have map : (fun place : Key => db'[place]?)
        = Function.update (fun place : Key => db[place]?) (key entry) (stored.map (value entry)) := by
      funext place
      rw [made, Function.update_apply]
    rw [map]
    refine kept.congr fun other => ?_
    by_cases same : other = ⟨entry, is⟩
    · subst same
      rw [Function.update_self, set_self]
    · rw [Function.update_of_ne same, set_of_ne _ fun is => same (Subtype.ext is)]
  fits other stored' there := by
    by_cases same : other = entry
    · subst same
      rw [set_self] at there
      exact ⟨is, fit stored' there⟩
    · rw [set_of_ne _ same] at there
      exact rep.fits other stored' there

theorem put (rep : Represents named fits key value db ix)
    (apart : ∀ entry entry', named entry → named entry' → key entry = key entry' → entry = entry')
    (entry : Entry) (stored : Stored Number entry) (is : named entry) (fit : fits entry stored)
    : Represents named fits key value (db.insert (key entry) (value entry stored))
        (ix.put entry stored) := by
  classical
  refine rep.update apart is (fun v same => Option.some.inj same ▸ fit) fun place => ?_
  rw [Std.ExtTreeMap.getElem?_insert, Option.map_some]
  by_cases same : place = key entry
  · simp [same]
  · simp [same, Ne.symm same]

theorem del (rep : Represents named fits key value db ix)
    (apart : ∀ entry entry', named entry → named entry' → key entry = key entry' → entry = entry')
    (entry : Entry) (is : named entry)
    : Represents named fits key value (db.erase (key entry)) (ix.del entry) := by
  classical
  refine rep.update apart is (fun _ same => by cases same) fun place => ?_
  rw [Std.ExtTreeMap.getElem?_erase, Option.map_none]
  by_cases same : place = key entry
  · simp [same]
  · simp [same, Ne.symm same]

end Represents

end Layouts

end Hypergraph.Engine
