import Mathlib.Data.Set.Card
import Hypergraph.Engine.Indexes

/-! The relations that stand in an index: edges and their refs agree as edges are added where none
stands, and removed where the one that stands is named by its time.
-/

namespace Hypergraph.Engine

open Wire

namespace Layouts

variable {Number : Type}

-- What agrees in an index

/-- From where to where a relation is, and its type. -/
structure Link where
  source : String
  type : String
  target : String
  deriving DecidableEq

/-- Where a relation is, seen in a direction. -/
def Link.ends (link : Link) : Direction → String
  | .incoming => link.target
  | .outgoing => link.source

namespace Index

variable (ix : Index Number)

/-- The relations that stand. -/
def live : Set Link := {link | (ix (.active link.source link.type link.target)).isSome}

/-- Those of a type in a direction of an entity. -/
def linked (direction : Direction) (entityId type : String) : Set Link :=
  {link ∈ ix.live | link.type = type ∧ link.ends direction = entityId}

/-- Edges and their refs agree. -/
structure Agrees : Prop where
  active : ∀ source type target time, ix (.active source type target) = some time
    ↔ ∃ v, ix (.edge source type time target) = some v ∧ v.deleted = false
  incoming : ∀ target type time source, (ix (.incoming target type time source)).isSome
    ↔ ix (.active source type target) = some time
  finite : ix.live.Finite

variable {ix}

-- An edge added

section AddEdge

variable {e : Edge Number} {source type target : String} {time : Nat}

theorem addEdge_active
    : ix.addEdge e (.active source type target)
      = if source = e.source ∧ type = e.type ∧ target = e.target then some (keyTime e.createdAt)
        else ix (.active source type target) := by
  rw [Index.addEdge, put, set_of_ne _ (by simp)]
  split
  · rename_i same
    obtain ⟨rfl, rfl, rfl⟩ := same
    exact set_self _
  · rename_i apart
    rw [put, put, set_of_ne _ (by simpa using apart), set_of_ne _ (by simp)]

theorem addEdge_edge
    : ix.addEdge e (.edge source type time target)
      = if source = e.source ∧ type = e.type ∧ time = keyTime e.createdAt ∧ target = e.target
          then some ⟨false, e.value, e.data⟩
        else ix (.edge source type time target) := by
  rw [Index.addEdge, put, set_of_ne _ (by simp), put, set_of_ne _ (by simp)]
  split
  · rename_i same
    obtain ⟨rfl, rfl, rfl, rfl⟩ := same
    exact set_self _
  · rename_i apart
    rw [put, set_of_ne _ (by simpa using apart)]

theorem addEdge_incoming
    : ix.addEdge e (.incoming target type time source)
      = if source = e.source ∧ type = e.type ∧ time = keyTime e.createdAt ∧ target = e.target
          then some ()
        else ix (.incoming target type time source) := by
  rw [Index.addEdge, put]
  split
  · rename_i same
    obtain ⟨rfl, rfl, rfl, rfl⟩ := same
    exact set_self _
  · rename_i apart
    rw [set_of_ne, put, put, set_of_ne _ (by simp), set_of_ne _ (by simp)]
    rintro ⟨⟩
    exact apart ⟨rfl, rfl, rfl, rfl⟩

theorem addEdge_count {direction : Direction} {entityId : String}
    : ix.addEdge e (.count direction entityId type) = ix (.count direction entityId type) := by
  rw [Index.addEdge, put, put, put, set_of_ne _ (by simp), set_of_ne _ (by simp),
    set_of_ne _ (by simp)]

theorem live_addEdge : (ix.addEdge e).live = insert ⟨e.source, e.type, e.target⟩ ix.live := by
  ext link
  obtain ⟨source, type, target⟩ := link
  simp only [live, Set.mem_ofPred_eq, addEdge_active, Set.mem_insert_iff, Link.mk.injEq]
  split <;> simp_all

theorem Agrees.addEdge (agrees : ix.Agrees) (none_ : ix (.active e.source e.type e.target) = none)
    : (ix.addEdge e).Agrees where
  active source type target time := by
    rw [addEdge_active, addEdge_edge]
    by_cases here : source = e.source ∧ type = e.type ∧ target = e.target
    · obtain ⟨rfl, rfl, rfl⟩ := here
      have other := agrees.active e.source e.type e.target time
      rw [none_] at other
      by_cases same : time = keyTime e.createdAt
      · simp [same]
      · simpa [same, Ne.symm same] using other
    · rw [if_neg here, if_neg fun is => here ⟨is.1, is.2.1, is.2.2.2⟩]
      exact agrees.active source type target time
  incoming target type time source := by
    rw [addEdge_active, addEdge_incoming]
    by_cases here : source = e.source ∧ type = e.type ∧ target = e.target
    · obtain ⟨rfl, rfl, rfl⟩ := here
      have other := agrees.incoming e.target e.type time e.source
      rw [none_] at other
      by_cases same : time = keyTime e.createdAt
      · simp [same]
      · simpa [same, Ne.symm same] using other
    · rw [if_neg here, if_neg fun is => here ⟨is.1, is.2.1, is.2.2.2⟩]
      exact agrees.incoming target type time source
  finite := live_addEdge ▸ agrees.finite.insert _

end AddEdge

-- An edge removed

section RemoveEdge

variable {source type target : String} {createdAt : Nat} {source' type' target' : String} {time : Nat}

/-- Removing an edge changes nothing else. -/
theorem removeEdge_of_ne {other : Entry}
    (edge : other ≠ .edge source type (keyTime createdAt) target)
    (incoming : other ≠ .incoming target type (keyTime createdAt) source)
    (active : other ≠ .active source type target)
    : ix.removeEdge source type createdAt target other = ix other := by
  rw [Index.removeEdge, del, del, set_of_ne _ active, set_of_ne _ incoming]
  cases ix (.edge source type (keyTime createdAt) target) with
  | none => rfl
  | some v => exact set_of_ne _ edge

theorem removeEdge_active
    : ix.removeEdge source type createdAt target (.active source' type' target')
      = if source' = source ∧ type' = type ∧ target' = target then none
        else ix (.active source' type' target') := by
  by_cases same : source' = source ∧ type' = type ∧ target' = target
  · rw [if_pos same]
    obtain ⟨rfl, rfl, rfl⟩ := same
    exact set_self _
  · rw [if_neg same, removeEdge_of_ne (by simp) (by simp) (by simpa using same)]

theorem removeEdge_edge
    : ix.removeEdge source type createdAt target (.edge source' type' time target')
      = if source' = source ∧ type' = type ∧ time = keyTime createdAt ∧ target' = target
          then (ix (.edge source' type' time target')).map ({ · with deleted := true })
        else ix (.edge source' type' time target') := by
  by_cases same : source' = source ∧ type' = type ∧ time = keyTime createdAt ∧ target' = target
  · rw [if_pos same]
    obtain ⟨rfl, rfl, rfl, rfl⟩ := same
    rw [Index.removeEdge, del, del, set_of_ne _ (by simp), set_of_ne _ (by simp)]
    cases is : ix (.edge source' type' (keyTime createdAt) target') with
    | none => exact is
    | some v => exact set_self _
  · rw [if_neg same, removeEdge_of_ne (by simpa using same) (by simp) (by simp)]

theorem removeEdge_incoming
    : ix.removeEdge source type createdAt target (.incoming target' type' time source')
      = if source' = source ∧ type' = type ∧ time = keyTime createdAt ∧ target' = target then none
        else ix (.incoming target' type' time source') := by
  by_cases same : source' = source ∧ type' = type ∧ time = keyTime createdAt ∧ target' = target
  · rw [if_pos same]
    obtain ⟨rfl, rfl, rfl, rfl⟩ := same
    rw [Index.removeEdge, del, del, set_of_ne _ (by simp)]
    exact set_self _
  · rw [if_neg same, removeEdge_of_ne (by simp) _ (by simp)]
    rintro ⟨⟩
    exact same ⟨rfl, rfl, rfl, rfl⟩

theorem removeEdge_count {direction : Direction} {entityId : String}
    : ix.removeEdge source type createdAt target (.count direction entityId type')
      = ix (.count direction entityId type') :=
  removeEdge_of_ne (by simp) (by simp) (by simp)

theorem live_removeEdge
    : (ix.removeEdge source type createdAt target).live = ix.live \ {⟨source, type, target⟩} := by
  ext link
  obtain ⟨source', type', target'⟩ := link
  simp only [live, Set.mem_ofPred_eq, removeEdge_active, Set.mem_sdiff, Set.mem_singleton_iff,
    Link.mk.injEq]
  split <;> simp_all

/-- Where the edge that stands, if one does, is of the time a deletion names. -/
theorem Agrees.removeEdge (agrees : ix.Agrees)
    (told : ∀ time, ix (.active source type target) = some time → time = keyTime createdAt)
    : (ix.removeEdge source type createdAt target).Agrees where
  active source' type' target' time := by
    rw [removeEdge_active, removeEdge_edge]
    by_cases here : source' = source ∧ type' = type ∧ target' = target
    · obtain ⟨rfl, rfl, rfl⟩ := here
      by_cases same : time = keyTime createdAt
      · simp [same]
      · have other : ix (.active source' type' target') ≠ some time := fun is => same (told time is)
        rw [Ne, agrees.active] at other
        simpa [same] using other
    · rw [if_neg here, if_neg fun is => here ⟨is.1, is.2.1, is.2.2.2⟩]
      exact agrees.active source' type' target' time
  incoming target' type' time source' := by
    rw [removeEdge_active, removeEdge_incoming]
    by_cases here : source' = source ∧ type' = type ∧ target' = target
    · obtain ⟨rfl, rfl, rfl⟩ := here
      by_cases same : time = keyTime createdAt
      · simp [same]
      · have other : ix (.active source' type' target') ≠ some time := fun is => same (told time is)
        rw [Ne, ← agrees.incoming] at other
        simpa [same] using other
    · rw [if_neg here, if_neg fun is => here ⟨is.1, is.2.1, is.2.2.2⟩]
      exact agrees.incoming target' type' time source'
  finite := live_removeEdge ▸ agrees.finite.sdiff

end RemoveEdge

-- A count written

theorem Agrees.putCount (agrees : ix.Agrees) (direction : Direction) (entityId type : String)
    (count : Nat)
    : (ix.putCount direction entityId type count).Agrees where
  active source type target time := by
    rw [Index.putCount, put, set_of_ne _ (by simp), set_of_ne _ (by simp)]
    exact agrees.active source type target time
  incoming target type time source := by
    rw [Index.putCount, put, set_of_ne _ (by simp), set_of_ne _ (by simp)]
    exact agrees.incoming target type time source
  finite := agrees.finite

theorem putCount_count {direction direction' : Direction} {entityId type entityId' type' : String}
    {count : Nat}
    : ix.putCount direction entityId type count (.count direction' entityId' type')
      = if direction' = direction ∧ entityId' = entityId ∧ type' = type then some count
        else ix (.count direction' entityId' type') := by
  rw [Index.putCount, put]
  split
  · rename_i same
    obtain ⟨rfl, rfl, rfl⟩ := same
    exact set_self _
  · rename_i apart
    rw [set_of_ne _ (by simpa using apart)]

theorem live_putCount {direction : Direction} {entityId type : String} {count : Nat}
    : (ix.putCount direction entityId type count).live = ix.live := by
  ext link
  rw [live, Set.mem_ofPred_eq, Index.putCount, put, set_of_ne _ (by simp)]
  rfl

-- How many stand

section Counts

variable {direction : Direction} {entityId type : String} {link : Link} {ix' : Index Number}

/-- One more stands. -/
theorem ncard_linked_insert (finite : ix.live.Finite) (fresh : link ∉ ix.live)
    (live_ : ix'.live = insert link ix.live)
    : (ix'.linked direction entityId type).ncard = (ix.linked direction entityId type).ncard
      + if link.type = type ∧ link.ends direction = entityId then 1 else 0 := by
  have finite' : (ix.linked direction entityId type).Finite := finite.sep _
  by_cases here : link.type = type ∧ link.ends direction = entityId
  · have same : ix'.linked direction entityId type
        = insert link (ix.linked direction entityId type) := by
      rw [linked, live_]
      ext other
      constructor
      · rintro ⟨rfl | mem, is⟩
        · exact .inl rfl
        · exact .inr ⟨mem, is⟩
      · rintro (rfl | mem)
        · exact ⟨.inl rfl, here⟩
        · exact ⟨.inr mem.1, mem.2⟩
    rw [same, if_pos here, Set.ncard_insert_of_notMem (fun mem => fresh mem.1) finite']
  · have same : ix'.linked direction entityId type = ix.linked direction entityId type := by
      rw [linked, live_]
      ext other
      constructor
      · rintro ⟨rfl | mem, is⟩
        · exact absurd is here
        · exact ⟨mem, is⟩
      · exact fun mem => ⟨.inr mem.1, mem.2⟩
    rw [same, if_neg here, Nat.add_zero]

/-- One that stood is gone. -/
theorem ncard_linked_sdiff (stood : link ∈ ix.live)
    (live_ : ix'.live = ix.live \ {link})
    : (ix'.linked direction entityId type).ncard = (ix.linked direction entityId type).ncard
      - if link.type = type ∧ link.ends direction = entityId then 1 else 0 := by
  by_cases here : link.type = type ∧ link.ends direction = entityId
  · have same : ix'.linked direction entityId type = ix.linked direction entityId type \ {link} := by
      rw [linked, live_]
      ext other
      simp only [Set.mem_ofPred_eq, Set.mem_sdiff, Set.mem_singleton_iff, linked]
      tauto
    have mem : link ∈ ix.linked direction entityId type := ⟨stood, here⟩
    rw [same, if_pos here, Set.ncard_sdiff_singleton_of_mem mem]
  · have same : ix'.linked direction entityId type = ix.linked direction entityId type := by
      rw [linked, live_]
      ext other
      constructor
      · exact fun mem => ⟨mem.1.1, mem.2⟩
      · exact fun mem => ⟨⟨mem.1, fun is => here (is ▸ mem.2)⟩, mem.2⟩
    rw [same, if_neg here, Nat.sub_zero]

theorem ncard_linked_le (finite : ix.live.Finite)
    : (ix.linked direction entityId type).ncard ≤ ix.live.ncard :=
  Set.ncard_le_ncard (Set.sep_subset _ _) finite

end Counts

theorem createdAt_of_edgeAt {source type target : String} {time : Nat} {edge : EdgeRecord Number}
    (there : ix.edgeAt source type time target = some edge)
    : edge.createdAt = time := by
  obtain ⟨v, _, rfl⟩ := Option.map_eq_some_iff.mp there
  rfl

/-- The active edge of an index that agrees is the one that stands. -/
theorem Agrees.activeEdge_eq_some (agrees : ix.Agrees) {source type target : String}
    {edge : EdgeRecord Number}
    : ix.activeEdge source type target = some edge
      ↔ ∃ time, ix (.active source type target) = some time
        ∧ ix.edgeAt source type time target = some edge ∧ edge.deleted = false := by
  rw [activeEdge, Option.bind_eq_some_iff]
  refine exists_congr fun time => and_congr_right fun is => ⟨fun there => ⟨there, ?_⟩, And.left⟩
  obtain ⟨v, stands, not⟩ := (agrees.active source type target time).mp is
  rw [edgeAt, stands, Option.map_some, Option.some.injEq] at there
  rw [← there]
  exact not

theorem Agrees.activeEdge_eq_none (agrees : ix.Agrees) {source type target : String}
    : ix.activeEdge source type target = none ↔ ix (.active source type target) = none := by
  constructor
  · intro none_
    cases is : ix (.active source type target) with
    | none => rfl
    | some time =>
        obtain ⟨v, stands, _⟩ := (agrees.active source type target time).mp is
        rw [activeEdge, is, Option.bind_some, edgeAt, stands] at none_
        cases none_
  · intro none_
    rw [activeEdge, none_, Option.bind_none]

end Index

end Layouts

end Hypergraph.Engine
