import Hypergraph.Engine.TextLayout
import Hypergraph.Engine.TupleLayout

/-! What the two layouts answer after the same writes: the second what the index does, the first as
well where nothing written or asked has a colon.
-/

namespace Hypergraph.Engine

open Wire

namespace Layouts

variable {Number : Type}

-- Answers

/-- What is asked of a layout. -/
@[ext]
structure Answers (Number : Type) where
  activeEdge : (source type target : String) → Option (EdgeRecord Number)
  edges : (entityId : String) → Direction → (type : Option String) → (reverse : Bool)
    → List (EdgeRecord Number)
  getCount : Direction → (entityId type : String) → Nat
  tagged : (tag : Option String) → List TagRecord
  hasTag : (entityId tag : String) → Bool

def Layout1.answers (db : Layout1.Db Number) : Answers Number where
  activeEdge := Layout1.activeEdge db
  edges := Layout1.edges db
  getCount := Layout1.getCount db
  tagged := Layout1.tagged db
  hasTag := Layout1.hasTag db

def Layout2.answers {Key : Type} [Ord Key] [Std.TransOrd Key] (enc : IndexEncoder Key)
    (p : Primitives) (float64 : Codec Number) (db : Layout2.Db Key) : Answers Number where
  activeEdge := Layout2.activeEdge enc p float64 db
  edges := Layout2.edges enc p float64 db
  getCount := Layout2.getCount enc p db
  tagged := Layout2.tagged enc db
  hasTag := Layout2.hasTag enc db

namespace Answers

variable (asked : String → Prop) (ix : Index Number) (answers other : Answers Number)

/-- What is asked is answered by exactly the entries of the index that are asked for. -/
structure Of : Prop where
  activeEdge : ∀ source type target, asked source → asked type → asked target →
    answers.activeEdge source type target = ix.activeEdge source type target
  edges : ∀ entityId direction type reverse record, asked entityId →
    (∀ wanted, required type = some wanted → asked wanted) →
    (record ∈ answers.edges entityId direction type reverse
      ↔ ix.IsEdge entityId direction type record)
  getCount : ∀ direction entityId type, asked entityId → asked type →
    answers.getCount direction entityId type = ix.getCount direction entityId type
  tagged : ∀ tag record, (∀ wanted, tag = some wanted → asked wanted) →
    (record ∈ answers.tagged tag ↔ ix.IsTagged tag record)
  hasTag : ∀ entityId tag, asked entityId → asked tag →
    (answers.hasTag entityId tag ↔ ix.HasTag entityId tag)

/-- What is asked is answered alike: by the same records. -/
structure Alike : Prop where
  activeEdge : ∀ source type target, asked source → asked type → asked target →
    answers.activeEdge source type target = other.activeEdge source type target
  edges : ∀ entityId direction type reverse record, asked entityId →
    (∀ wanted, required type = some wanted → asked wanted) →
    (record ∈ answers.edges entityId direction type reverse
      ↔ record ∈ other.edges entityId direction type reverse)
  getCount : ∀ direction entityId type, asked entityId → asked type →
    answers.getCount direction entityId type = other.getCount direction entityId type
  tagged : ∀ tag record, (∀ wanted, tag = some wanted → asked wanted) →
    (record ∈ answers.tagged tag ↔ record ∈ other.tagged tag)
  hasTag : ∀ entityId tag, asked entityId → asked tag →
    answers.hasTag entityId tag = other.hasTag entityId tag

variable {asked ix answers other}

theorem Of.alike (one : Of asked ix answers) (two : Of asked ix other)
    : Alike asked answers other where
  activeEdge source type target asks asks' asks'' :=
    (one.activeEdge source type target asks asks' asks'').trans
      (two.activeEdge source type target asks asks' asks'').symm
  edges entityId direction type reverse record asks asks' :=
    (one.edges entityId direction type reverse record asks asks').trans
      (two.edges entityId direction type reverse record asks asks').symm
  getCount direction entityId type asks asks' :=
    (one.getCount direction entityId type asks asks').trans
      (two.getCount direction entityId type asks asks').symm
  tagged tag record asks := (one.tagged tag record asks).trans (two.tagged tag record asks).symm
  hasTag entityId tag asks asks' := Bool.eq_iff_iff.mpr
    ((one.hasTag entityId tag asks asks').trans (two.hasTag entityId tag asks asks').symm)

theorem Of.mono {may : String → Prop} (of : Of may ix answers) (fewer : ∀ text, asked text → may text)
    : Of asked ix answers where
  activeEdge source type target asks asks' asks'' :=
    of.activeEdge source type target (fewer _ asks) (fewer _ asks') (fewer _ asks'')
  edges entityId direction type reverse record asks asks' :=
    of.edges entityId direction type reverse record (fewer _ asks) fun wanted is =>
      fewer _ (asks' wanted is)
  getCount direction entityId type asks asks' :=
    of.getCount direction entityId type (fewer _ asks) (fewer _ asks')
  tagged tag record asks := of.tagged tag record fun wanted is => fewer _ (asks wanted is)
  hasTag entityId tag asks asks' := of.hasTag entityId tag (fewer _ asks) (fewer _ asks')

end Answers

theorem Layout1.Has.answers {db : Layout1.Db Number} {ix : Index Number} (has : Layout1.Has db ix)
    : (Layout1.answers db).Of Plain ix where
  activeEdge _ _ _ source type target := has.activeEdge source type target
  edges _ _ _ _ _ entityId type := has.edges entityId type
  getCount _ _ _ entityId type := has.getCount entityId type
  tagged _ _ tag := has.tagged tag
  hasTag _ _ entityId tag := has.hasTag entityId tag

section Runs

variable {Key : Type} [Ord Key] [Std.TransOrd Key] [Std.LawfulEqOrd Key] {enc : IndexEncoder Key}
  {p : Primitives} {float64 : Codec Number} {json : Number → Option Number}

/-- The second layout answers any question as the index it has. -/
theorem Layout2.Has.answers {db : Layout2.Db Key} {ix : Index Number}
    (has : Layout2.Has enc p float64 db ix) (safe : ∀ n ≤ maxSafeInteger, p.uint.Fits n)
    : (Layout2.answers enc p float64 db).Of (fun _ => True) ix where
  activeEdge _ _ _ _ _ _ := has.activeEdge safe
  edges _ _ _ _ _ _ _ := has.edges
  getCount _ _ _ _ _ := has.getCount
  tagged _ _ _ := has.tagged
  hasTag _ _ _ _ := has.hasTag

-- Runs

/-- A write that applying an event can make: an edge is its source's author's. -/
def Write.Passes : Write Number → Prop
  | .addEdge e => authorFromEntityId e.source = some e.author
  | _ => True

variable {writes : List (Write Number)}

/-- Every run of writes that are carried leaves the second layout with the index. -/
theorem Layout2.has_run (safe : ∀ n ≤ maxSafeInteger, p.uint.Fits n)
    (carried : ∀ write ∈ writes, Layout2.Carried p float64 write)
    {db : Layout2.Db Key} {ix : Index Number} (has : Layout2.Has enc p float64 db ix)
    : Layout2.Has enc p float64 (writes.foldl (Layout2.write enc p float64) db)
        (writes.foldl Index.write ix) := by
  induction writes generalizing db ix with
  | nil => exact has
  | cons write rest ih =>
      exact ih (fun write mem => carried write (.tail _ mem))
        (has.write safe (carried write (.head _)))

/-- Every run of writes that keep entries apart leaves the first layout with the index. -/
theorem Layout1.has_run (passes : ∀ write ∈ writes, write.Passes)
    (keeps : ∀ write ∈ writes, Layout1.Keeps json write)
    {db : Layout1.Db Number} {ix : Index Number} (has : Layout1.Has db ix)
    : Layout1.Has (writes.foldl (Layout1.write json) db) (writes.foldl Index.write ix) := by
  induction writes generalizing db ix with
  | nil => exact has
  | cons write rest ih =>
      refine ih (fun write mem => passes write (.tail _ mem))
        (fun write mem => keeps write (.tail _ mem)) (has.write (keeps write (.head _)) ?_)
      rintro e rfl
      exact passes _ (.head _)

/-- After any writes, the second layout answers any question as the index does, and where the
writes keep entries apart both layouts answer plain questions alike.
-/
theorem layouts_alike (safe : ∀ n ≤ maxSafeInteger, p.uint.Fits n)
    (passes : ∀ write ∈ writes, write.Passes)
    (carried : ∀ write ∈ writes, Layout2.Carried p float64 write)
    : let ix := writes.foldl Index.write Index.empty
      let one := Layout1.answers (writes.foldl (Layout1.write json) ∅)
      let two := Layout2.answers enc p float64 (writes.foldl (Layout2.write enc p float64) ∅)
      two.Of (fun _ => True) ix
      ∧ ((∀ write ∈ writes, Layout1.Keeps json write) → one.Of Plain ix ∧ one.Alike Plain two) := by
  intro ix one two
  have has : Layout2.Has enc p float64 (writes.foldl (Layout2.write enc p float64) ∅) ix :=
    Layout2.has_run safe carried .empty
  have second := has.answers safe
  refine ⟨second, fun keeps => ?_⟩
  have first := (Layout1.has_run passes keeps .empty).answers
  exact ⟨first, first.alike (second.mono fun _ _ => trivial)⟩

end Runs

-- An encoder

def Member.code : Member → List Nat
  | .string text => 0 :: text.toList.map Char.toNat
  | .buffer bytes => 1 :: bytes.map UInt8.toNat
  | .uint number => [2, number]

def Member.ofCode : List Nat → Member
  | 0 :: text => .string (String.ofList (text.map Char.ofNat))
  | 1 :: bytes => .buffer (bytes.map UInt8.ofNat)
  | _ :: number :: _ => .uint number
  | _ => .uint 0

theorem Member.ofCode_code (member : Member) : ofCode member.code = member := by
  cases member with
  | string text =>
      have same : (text.toList.map Char.toNat).map Char.ofNat = text.toList := by
        rw [List.map_map]
        exact (List.map_congr_left fun c _ => Char.ofNat_toNat c).trans (List.map_id _)
      rw [code, ofCode, same, String.ofList_toList]
  | buffer bytes =>
      have same : (bytes.map UInt8.toNat).map UInt8.ofNat = bytes := by
        rw [List.map_map]
        exact (List.map_congr_left fun b _ => UInt8.ofNat_toNat).trans (List.map_id _)
      rw [code, ofCode, same]
  | uint number => rfl

theorem Member.code_injective : Function.Injective Member.code :=
  Function.LeftInverse.injective ofCode_code

/-- Tuples as lists, in the order of their members. -/
def inOrder : IndexEncoder (List (List Nat)) where
  encode tag members := [tag] :: members.map Member.code
  decode key := key.tail.map Member.ofCode
  inRange tag parts key := decide ([tag] :: parts.map Member.code <+: key)
  decode_encode tag members := by
    rw [List.tail_cons, List.map_map]
    exact (List.map_congr_left fun member _ => member.ofCode_code).trans (List.map_id _)
  tag_inj same := (List.cons.inj (List.cons.inj same).1).1
  inRange_encode tag parts tag' members := by
    rw [decide_eq_true_iff, List.cons_prefix_cons,
      List.prefix_map_iff_of_injective Member.code_injective, List.cons.injEq, and_iff_left rfl,
      eq_comm]

-- Runs of some writes

/-- An author's post, and a relation of it to something. -/
def post : String := "post/0101010101010101010101010101010101010101010101010101010101010101/3"

def relating (type : String) : Write UInt64 :=
  .addEdge ⟨post, type, 5, "x", "0101010101010101010101010101010101010101010101010101010101010101",
    some 7, none⟩

theorem relating_passes (type : String) : (relating type).Passes := by
  have author : authorFromEntityId post
      = some "0101010101010101010101010101010101010101010101010101010101010101" := by decide
  exact author

theorem relating_carried (type : String)
    : Layout2.Carried compact compactFloat64 (relating type) := ⟨fun _ _ => trivial, by simp⟩

/-- Two relations, one of them counted and the other deleted, and a tag. -/
def someWrites : List (Write UInt64) :=
  [relating "b", relating "c", .putCount .outgoing post "b" 1, .removeEdge post "c" 5 "x",
    .addTag ⟨post, "fun", "x", 6⟩]

theorem relating_keeps (type : String) (named : Plain type ∧ Low type)
    : Layout1.Keeps some (relating type) := by
  have source : Plain post := by decide
  have target : Plain "x" := by decide
  have time : 5 ≤ maxSafeInteger := by decide
  exact ⟨source, named.1, named.2, target, time, fun _ _ => rfl⟩

/-- With no colons in what is written, it is answered alike. -/
theorem layouts_alike_relating
    : let one := Layout1.answers (someWrites.foldl (Layout1.write some) ∅)
      let two := Layout2.answers inOrder compact compactFloat64
        (someWrites.foldl (Layout2.write inOrder compact compactFloat64) ∅)
      one.Alike Plain two := by
  refine ((@layouts_alike _ _ _ _ _ inOrder compact compactFloat64 some someWrites (fun n safe => ?_) ?_ ?_).2 ?_).2
  · show n < 2 ^ 53
    exact Nat.lt_of_le_of_lt safe (by decide)
  · simp only [someWrites, List.forall_mem_cons]
    exact ⟨relating_passes _, relating_passes _, trivial, trivial, trivial, nofun⟩
  · simp only [someWrites, List.forall_mem_cons]
    exact ⟨relating_carried _, relating_carried _, (by decide : 1 < 2 ^ 53), trivial, trivial, nofun⟩
  · simp only [someWrites, List.forall_mem_cons]
    refine ⟨relating_keeps _ (by decide), relating_keeps _ (by decide), ?_, ?_, ?_, nofun⟩
    all_goals unfold Layout1.Keeps; decide

/-- A type with a colon is taken for one that is its start, and an id. -/
theorem colon_is_cut
    : (relating "b:c").Passes ∧ Layout2.Carried compact compactFloat64 (relating "b:c")
      ∧ ¬ (Layout1.answers ([relating "b:c"].foldl (Layout1.write some) ∅)).Alike Plain
          (Layout2.answers inOrder compact compactFloat64
            ([relating "b:c"].foldl (Layout2.write inOrder compact compactFloat64) ∅)) := by
  refine ⟨relating_passes _, relating_carried _, fun alike => ?_⟩
  have first : ⟨post, "x", "b:c",
      some "0101010101010101010101010101010101010101010101010101010101010101", 5, false,
      some (some 7), none⟩ ∈ (Layout1.answers ([relating "b:c"].foldl (Layout1.write some) ∅)).edges
        post .outgoing (some "b") false := by
    decide +kernel
  have plain : ∀ wanted, required (some "b") = some wanted → Plain wanted := by
    intro wanted is
    cases is
    decide
  have second := (alike.edges _ _ _ _ _ (by decide) plain).mp first
  revert second
  decide +kernel

end Layouts

end Hypergraph.Engine
