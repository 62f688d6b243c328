import Hypergraph.Lib.Chunks
import Hypergraph.Lib.Dict
import Hypergraph.Engine.Alike

/-! What relation and tag events make of a context's view, with the edge counters kept aside until a
chunk of events ends (`src/context-base.js`).
-/

namespace Hypergraph.Engine

open Wire Js

namespace Layouts

variable {Db Number : Type}

/-- A layout, as apply uses it. -/
structure IndexLayout (Db Number : Type) where
  answers : Db → Answers Number
  write : Db → Write Number → Db

def layout1 (json : Number → Option Number) : IndexLayout (Layout1.Db Number) Number where
  answers := Layout1.answers
  write := Layout1.write json

def layout2 {Key : Type} [Ord Key] [Std.TransOrd Key] (enc : IndexEncoder Key) (p : Primitives)
    (float64 : Codec Number) : IndexLayout (Layout2.Db Key) Number where
  answers := Layout2.answers enc p float64
  write := Layout2.write enc p float64

/-- What a counter counts. -/
structure Counter where
  direction : Direction
  entityId : String
  type : String
  deriving DecidableEq

/-- A view within a chunk, and the counts kept aside (`#counts`). -/
structure Applying (Db : Type) where
  view : Db
  counts : Dict Counter Nat := .empty

namespace Applying

variable (layout : IndexLayout Db Number) (s : Applying Db)

/-- A count as apply and its rules read it: the one kept aside, else the one in the view. -/
def count (direction : Direction) (entityId type : String) : Nat :=
  (s.counts.get? ⟨direction, entityId, type⟩).getD
    ((layout.answers s.view).getCount direction entityId type)

def bumpCount (direction : Direction) (entityId type : String) (delta : Int) : Applying Db :=
  { s with counts :=
      s.counts.put ⟨direction, entityId, type⟩ (s.count layout direction entityId type + delta).toNat }

def write (write : Write Number) : Applying Db := { s with view := layout.write s.view write }

/-- What a relation makes of the view, once it passed the checks. -/
def applyRelation (e : Edge Number) : Applying Db :=
  let existing := (layout.answers s.view).activeEdge e.source e.type e.target
  if existing.any (!·.deleted) then s
  else
    ((s.write layout (.addEdge e)).bumpCount layout .incoming e.target e.type 1).bumpCount layout
      .outgoing e.source e.type 1

def applyRelationDelete (source type : String) (createdAt : Nat) (target : String) : Applying Db :=
  ((s.write layout (.removeEdge source type createdAt target)).bumpCount layout .incoming target type
    (-1)).bumpCount layout .outgoing source type (-1)

/-- A chunk's end: its counts are written. -/
def flush : Applying Db where
  view := s.counts.entries.foldl
    (fun view (counter, count) =>
      layout.write view (.putCount counter.direction counter.entityId counter.type count)) s.view

variable {layout s}

theorem count_bumpCount {direction direction' : Direction} {entityId type entityId' type' : String}
    {delta : Int}
    : (s.bumpCount layout direction entityId type delta).count layout direction' entityId' type'
      = if direction' = direction ∧ entityId' = entityId ∧ type' = type then
          (s.count layout direction entityId type + delta).toNat
        else s.count layout direction' entityId' type' := by
  rw [bumpCount, count, Js.Dict.get?_put]
  simp only [Counter.mk.injEq]
  split
  · rename_i same
    obtain ⟨rfl, rfl, rfl⟩ := same
    rfl
  · rfl

end Applying

end Layouts

end Hypergraph.Engine
