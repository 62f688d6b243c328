import Hypergraph.Engine.Alike
import Hypergraph.Lib.Dict

/-! Edges read of the open contexts (`getEdges` in `src/view.js`): what is deleted or not its source's
author's is left out of what a context's index gives, which is cut at the limit before.
-/

namespace Hypergraph.Engine

open Wire Js

namespace Layouts

variable {Number : Type}

-- Limited reads of a layout

/-- At most so many entries; a limit of 0 is none. -/
def limited {α : Type} (limit : Option Nat) (entries : List α) : List α :=
  match limit with
  | none | some 0 => entries
  | some n => entries.take n

namespace Layout1

variable (db : Db Number) (entityId : String) (direction : Direction) (type : Option String) (reverse : Bool)

/-- The index entries that are read, in order. -/
def entries : List (Json Number) :=
  let base := if direction = .incoming then [['i'], "in".toList, entityId.toList]
    else [['e'], entityId.toList]
  let start := match required type with
    | some type => base ++ [type.toList]
    | none => base
  if reverse then (stream db start).reverse else stream db start

/-- The edge an entry is of. -/
def entryEdge : Json Number → Option (EdgeRecord Number)
  | .edge record => if direction = .outgoing then some record else none
  | .ref key => if direction = .incoming then edgeAt db key else none
  | _ => none

theorem entries_edges
    : (entries db entityId direction type reverse).filterMap (entryEdge db direction)
      = edges db entityId direction type reverse := by
  unfold entries edges
  cases reverse with
  | true => exact List.filterMap_reverse
  | false => rfl

end Layout1

namespace Layout2

variable {Key : Type} [Ord Key] [Std.TransOrd Key] (enc : IndexEncoder Key) (p : Primitives)
  (float64 : Codec Number) (db : Db Key) (entityId : String) (direction : Direction) (type : Option String)
  (reverse : Bool)

def entries : List (Key × Bytes) :=
  let parts := match required type with
    | some type => idMembers entityId ++ [.string type]
    | none => idMembers entityId
  let found := stream enc db (if direction = .incoming then 0x11 else 0x10) parts
  if reverse then found.reverse else found

def entryEdge : Key × Bytes → Option (EdgeRecord Number)
  | (key, bytes) =>
      match direction with
      | .incoming =>
          match enc.decode key with
          | [target, target', target'', .string type, .uint createdAt, source, source', source''] =>
              edgeAt enc p float64 db (idOf [source, source', source'']) type createdAt
                (idOf [target, target', target''])
          | _ => none
      | .outgoing =>
          match enc.decode key with
          | [source, source', source'', .string type, .uint createdAt, target, target', target''] =>
              edgeRecord p float64 (idOf [source, source', source'']) type createdAt
                (idOf [target, target', target'']) bytes
          | _ => none

theorem entries_edges
    : (entries enc db entityId direction type reverse).filterMap (entryEdge enc p float64 db direction)
      = edges enc p float64 db entityId direction type reverse := by
  unfold entries edges
  cases direction with
  | incoming =>
      cases reverse with
      | true => exact List.filterMap_reverse
      | false => rfl
  | outgoing =>
      cases reverse with
      | true => exact List.filterMap_reverse
      | false => rfl

end Layout2

end Layouts

-- The open contexts

namespace EdgeReads

open Layouts

variable {Number Key : Type} [Ord Key] [Std.TransOrd Key]

/-- A context's index, in the layout it was made with. -/
inductive Indexed (Number Key : Type) [Ord Key] [Std.TransOrd Key]
  | first (db : Layout1.Db Number)
  | second (db : Layout2.Db Key)

structure Context (Number Key : Type) [Ord Key] [Std.TransOrd Key] where
  opened : Bool := true
  index : Indexed Number Key

abbrev Contexts (Number Key : Type) [Ord Key] [Std.TransOrd Key] := Dict String (Context Number Key)

structure Opts where
  direction : Direction := .outgoing
  type : Option String := none
  /-- A context's key, or several. -/
  context : Option (List String) := none
  allContexts : Bool := false
  limit : Option Nat := none
  order : Option String := none
  reverse : Option Bool := none

def Opts.reversed (opts : Opts) : Bool := opts.reverse.getD (opts.order = some "desc")

section Source

variable (enc : IndexEncoder Key) (p : Primitives) (float64 : Codec Number)

/-- The contexts a read is about; an error where that isn't said. -/
def resolveOpenContexts (contexts : Contexts Number Key) (opts : Opts) : Except String (List (Context Number Key)) :=
  match opts.context with
  | some keys => keys.mapM fun key =>
      match contexts.get? key with
      | some context => .ok context
      | none => .error ("Context not opened on this graph instance: " ++ key)
  | none =>
      if opts.allContexts ∨ contexts.entries.length ≤ 1 then .ok (contexts.entries.map Prod.snd)
      else
        .error ("Multiple contexts are open on this graph instance - pass \x7b context \x7d " ++
          "(a context key, or an array of them) to say which one(s) to query, " ++
          "or \x7b allContexts: true \x7d to explicitly query across all of them.")

/-- The stored edges of an entity, deleted ones included, of at most so many index entries. -/
def indexedEdges (index : Indexed Number Key) (entityId : String) (opts : Opts) : List (EdgeRecord Number) :=
  match index with
  | .first db =>
      (limited opts.limit (Layout1.entries db entityId opts.direction opts.type opts.reversed)).filterMap
        (Layout1.entryEdge db opts.direction)
  | .second db =>
      (limited opts.limit (Layout2.entries enc db entityId opts.direction opts.type opts.reversed)).filterMap
        (Layout2.entryEdge enc p float64 db opts.direction)

/-- Is an edge its source's author's? -/
def fromIsGenuine (edge : EdgeRecord Number) : Bool := authorFromEntityId edge.source = edge.author

def getEdges (contexts : Contexts Number Key) (entityId : String) (opts : Opts)
    : Except String (List (EdgeRecord Number)) := do
  let found ← resolveOpenContexts contexts opts
  return (found.filter Context.opened).flatMap fun context =>
    (indexedEdges enc p float64 context.index entityId opts).filter fun edge => !edge.deleted && fromIsGenuine edge

end Source

-- What a limit gives

section Limits

/-- The first of what is picked are picked from the first, where each of these is, or none after them. -/
theorem filterMap_take_iff {α β : Type} {pick : α → Option β} {list : List α} {n : Nat}
    : (list.take n).filterMap pick = (list.filterMap pick).take n
      ↔ (∀ a ∈ list.take n, (pick a).isSome = true) ∨ ∀ a ∈ list.drop n, pick a = none := by
  have few : ((list.take n).filterMap pick).length ≤ (list.take n).length := List.length_filterMap_le _ _
  have short : (list.take n).length ≤ n := List.length_take_le _ _
  have split : list.filterMap pick = (list.take n).filterMap pick ++ (list.drop n).filterMap pick := by
    rw [← List.filterMap_append, List.take_append_drop]
  have rest : (list.filterMap pick).take n
      = (list.take n).filterMap pick
        ++ ((list.drop n).filterMap pick).take (n - ((list.take n).filterMap pick).length) := by
    rw [split, List.take_append, List.take_of_length_le (few.trans short)]
  rw [rest, List.self_eq_append_right, List.take_eq_nil_iff, ← List.filterMap_length_eq_length, List.filterMap_eq_nil_iff]
  constructor
  · rintro (all | none_)
    · exact .inl (by omega)
    · exact .inr none_
  · rintro (all | none_)
    · rcases Nat.lt_or_ge (list.take n).length n with less | full
      · right
        intro a mem
        rw [List.drop_eq_nil_of_le (by rw [List.length_take] at less; omega)] at mem
        cases mem
      · exact .inl (by omega)
    · exact .inr none_

theorem map_limited {α β : Type} {limit : Option Nat} {entries : List α} {of : α → β}
    : (limited limit entries).map of = limited limit (entries.map of) := by
  unfold limited
  split
  · rfl
  · rfl
  · exact List.map_take

end Limits

-- Limited reads

section Reads

variable (enc : IndexEncoder Key) (p : Primitives) (float64 : Codec Number)

/-- An edge, unless it is deleted or not genuine. -/
def genuine (edge : Option (EdgeRecord Number)) : Option (EdgeRecord Number) :=
  edge.filter fun edge => !edge.deleted && fromIsGenuine edge

/-- What the index entries of an entity, all of them, stand for. -/
def standing (index : Indexed Number Key) (entityId : String) (opts : Opts) : List (Option (EdgeRecord Number)) :=
  match index with
  | .first db =>
      (Layout1.entries db entityId opts.direction opts.type opts.reversed).map fun entry =>
        genuine (Layout1.entryEdge db opts.direction entry)
  | .second db =>
      (Layout2.entries enc db entityId opts.direction opts.type opts.reversed).map fun entry =>
        genuine (Layout2.entryEdge enc p float64 db opts.direction entry)

/-- A limited read of one context gives the first edges of a read without limit, and one of several
gives no more edges than the limit.
-/
structure StartOf (contexts : Contexts Number Key) (entityId : String) (opts : Opts)
    (found : List (Context Number Key)) (n : Nat) : Prop where
  one
    : found.length = 1 → ∃ edges, getEdges enc p float64 contexts entityId { opts with limit := none } = .ok edges
      ∧ getEdges enc p float64 contexts entityId { opts with limit := some n } = .ok (edges.take n)
  all
    : ∃ edges, getEdges enc p float64 contexts entityId { opts with limit := some n } = .ok edges
      ∧ edges.length ≤ n

/-- Over one context, the first entries stored all stand for edges, or none after them does; over several,
the first of each stand for no more edges in all.
-/
structure Clear (entityId : String) (opts : Opts) (found : List (Context Number Key)) (n : Nat) : Prop where
  one
    : ∀ context, found = [context] → context.opened = true
      → (∀ entry ∈ (standing enc p float64 context.index entityId opts).take n, entry.isSome = true)
        ∨ ∀ entry ∈ (standing enc p float64 context.index entityId opts).drop n, entry = none
  all
    : ((found.filter Context.opened).map fun context =>
        ((standing enc p float64 context.index entityId opts).take n).countP Option.isSome).sum ≤ n

variable {enc p float64} {contexts : Contexts Number Key} {entityId : String} {opts : Opts}
  {found : List (Context Number Key)} {n : Nat}

theorem indexedEdges_eq (index : Indexed Number Key) (limit : Option Nat)
    : (indexedEdges enc p float64 index entityId { opts with limit := limit }).filter
        (fun edge => !edge.deleted && fromIsGenuine edge)
      = (limited limit (standing enc p float64 index entityId opts)).filterMap id := by
  unfold indexedEdges standing
  cases index with
  | first db =>
      rw [List.filter_filterMap, ← map_limited, List.filterMap_map]
      rfl
  | second db =>
      rw [List.filter_filterMap, ← map_limited, List.filterMap_map]
      rfl

theorem getEdges_eq (resolved : resolveOpenContexts contexts opts = .ok found) (limit : Option Nat)
    : getEdges enc p float64 contexts entityId { opts with limit := limit }
      = .ok ((found.filter Context.opened).flatMap fun context =>
          (limited limit (standing enc p float64 context.index entityId opts)).filterMap id) := by
  have same : resolveOpenContexts contexts { opts with limit := limit } = .ok found := resolved
  unfold getEdges
  rw [same]
  simp only [indexedEdges_eq]
  rfl

theorem limited_of_pos {α : Type} {entries : List α} (some_ : 0 < n) : limited (some n) entries = entries.take n := by
  cases n with
  | zero => cases some_
  | succ n => rfl

/-- A limited read is the start of one without limit just where nothing that is left out stands before
the limit with an edge after it.
-/
theorem startOf_iff (resolved : resolveOpenContexts contexts opts = .ok found) (some_ : 0 < n)
    : StartOf enc p float64 contexts entityId opts found n ↔ Clear enc p float64 entityId opts found n := by
  have whole : getEdges enc p float64 contexts entityId { opts with limit := none }
      = .ok ((found.filter Context.opened).flatMap fun context =>
          (standing enc p float64 context.index entityId opts).filterMap id) := getEdges_eq resolved none
  have start : getEdges enc p float64 contexts entityId { opts with limit := some n }
      = .ok ((found.filter Context.opened).flatMap fun context =>
          ((standing enc p float64 context.index entityId opts).take n).filterMap id) := by
    have start := @getEdges_eq _ _ _ _ enc p float64 contexts entityId opts found resolved (some n)
    simp only [limited_of_pos some_] at start
    exact start
  have counted : ((found.filter Context.opened).flatMap fun context =>
        ((standing enc p float64 context.index entityId opts).take n).filterMap id).length
      = ((found.filter Context.opened).map fun context =>
          ((standing enc p float64 context.index entityId opts).take n).countP Option.isSome).sum := by
    rw [List.length_flatMap]
    simp only [List.length_filterMap_eq_countP]
    rfl
  have alone (context : Context Number Key) (only : found = [context]) (opened : context.opened = true)
      : found.filter Context.opened = [context] := by
    rw [only, List.filter_cons, if_pos opened, List.filter_nil]
  constructor
  · rintro ⟨one, edges, read, few⟩
    refine ⟨fun context only opened => ?_, ?_⟩
    · obtain ⟨edges, all, first⟩ := one (by rw [only]; rfl)
      rw [whole, alone context only opened, List.flatMap_singleton] at all
      rw [start, alone context only opened, List.flatMap_singleton] at first
      cases all
      exact filterMap_take_iff.mp (Except.ok.inj first)
    · rw [start] at read
      cases read
      rwa [counted] at few
  · rintro ⟨one, all⟩
    refine ⟨fun single => ⟨_, whole, ?_⟩, _, start, counted ▸ all⟩
    obtain ⟨context, only⟩ := List.length_eq_one_iff.mp single
    rw [start]
    cases opened : context.opened with
    | true =>
        rw [alone context only opened, List.flatMap_singleton, List.flatMap_singleton]
        exact congrArg Except.ok (filterMap_take_iff.mpr (one context only opened))
    | false =>
        have none_ : found.filter Context.opened = [] := by
          rw [only, List.filter_cons, opened]
          rfl
        rw [none_, List.flatMap_nil, List.flatMap_nil, List.take_nil]

end Reads

-- A context

/-- A context whose index some writes come to. -/
def after (writes : List (Write UInt64)) : Context UInt64 (List (List Nat)) where
  index := .first (writes.foldl (Layout1.write some) ∅)

/-- An author's relation of their post. -/
def relation (type target : String) (createdAt : Nat) : Write UInt64 :=
  .addEdge ⟨post, type, createdAt, target, "0101010101010101010101010101010101010101010101010101010101010101",
    none, none⟩

/-- Two relations of a post: the first read is the earlier one. -/
theorem startOf_iff_two
    : StartOf inOrder compact compactFloat64
        (Dict.ofList [("k", after [relation "b" "x" 5, relation "b" "y" 6])]) post {}
        [after [relation "b" "x" 5, relation "b" "y" 6]] 1 := by
  refine (startOf_iff rfl (by decide)).mpr ⟨fun context only _ => .inl ?_, by decide +kernel⟩
  cases only
  decide +kernel

def partlyDeleted : Context UInt64 (List (List Nat)) :=
  after [relation "b" "x" 5, relation "b" "y" 6, .removeEdge post "b" 5 "x"]

/-- The later one isn't read, for the one deleted stands before it. -/
theorem deleted_hides
    : ¬ StartOf inOrder compact compactFloat64 (Dict.ofList [("k", partlyDeleted)]) post {} [partlyDeleted] 1 := by
  intro start
  obtain ⟨edges, all, first⟩ := start.one rfl
  have read : (getEdges inOrder compact compactFloat64 (Dict.ofList [("k", partlyDeleted)]) post {}).map List.length
        = .ok 1
      ∧ (getEdges inOrder compact compactFloat64 (Dict.ofList [("k", partlyDeleted)]) post
          { limit := some 1 }).map List.length = .ok 0 := by
    decide +kernel
  have one : edges.length = 1 := by
    rw [all] at read
    exact Except.ok.inj read.1
  have none_ : (edges.take 1).length = 0 := by
    rw [first] at read
    exact Except.ok.inj read.2
  rw [List.length_take, one] at none_
  cases none_

end EdgeReads

end Hypergraph.Engine
