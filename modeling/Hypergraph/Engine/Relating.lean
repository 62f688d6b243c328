import Hypergraph.Lib.Runs
import Hypergraph.Engine.Applying
import Hypergraph.Engine.Standing

/-! Relations created and deleted: edges, their refs and their counters agree, where each deletion
names the edge that stands, or nothing is counted that it could take away.
-/

namespace Hypergraph.Engine

open Wire

namespace Layouts

variable {Db Number : Type}

-- Events

/-- A relation event that passed its checks. -/
inductive Relating (Number : Type)
  | create (e : Edge Number)
  | delete (source type : String) (createdAt : Nat) (target : String)

/-- The texts of an event. -/
def Relating.texts : Relating Number → List String
  | .create e => [e.source, e.type, e.target]
  | .delete source type _ target => [source, type, target]

/-- What an event writes to the index, where it does. -/
def Relating.write : Relating Number → Write Number
  | .create e => .addEdge e
  | .delete source type createdAt target => .removeEdge source type createdAt target

namespace Applying

variable (layout : IndexLayout Db Number) (s : Applying Db)

def relate : Relating Number → Applying Db
  | .create e => s.applyRelation layout e
  | .delete source type createdAt target => s.applyRelationDelete layout source type createdAt target

/-- A step of a run: an event, or the end of a chunk. -/
def step : Applying Db → Option (Relating Number) → Applying Db :=
  Chunks.taken (relate layout) (flush layout)

/-- A deletion names the edge that stands by its time, or none stands and nothing is counted at its
ends.
-/
def matched : Relating Number → Bool
  | .create _ => true
  | .delete source type createdAt target =>
      match (layout.answers s.view).activeEdge source type target with
      | some edge => edge.createdAt = keyTime createdAt
      | none => s.count layout .incoming target type = 0 ∧ s.count layout .outgoing source type = 0

end Applying

-- A layout that has an index

/-- A layout has an index: it answers what may be asked as the index does, and what may be written
is written to both.
-/
structure IndexLayout.Keeps (layout : IndexLayout Db Number) (asked : String → Prop)
    (has : Db → Index Number → Prop) (may : Write Number → Prop) : Prop where
  answers : ∀ {db ix}, has db ix → (layout.answers db).Of asked ix
  write : ∀ {db ix write}, has db ix → may write → has (layout.write db write) (ix.write write)
  named : ∀ {db ix source type time target v}, has db ix →
    ix (.edge source type time target) = some v → asked source ∧ asked type ∧ asked target
  texts : ∀ {event : Relating Number}, may event.write → ∀ text ∈ event.texts, asked text
  putCount : ∀ {direction entityId type count}, asked entityId → asked type →
    count ≤ maxSafeInteger → may (.putCount direction entityId type count)

namespace Applying

variable {layout : IndexLayout Db Number} {asked : String → Prop} {has : Db → Index Number → Prop}
  {may : Write Number → Prop} {s : Applying Db} {ix : Index Number}

/-- The view has an index whose edges and refs agree, and what is counted is what stands. -/
structure Agrees (layout : IndexLayout Db Number) (asked : String → Prop)
    (has : Db → Index Number → Prop) (s : Applying Db) (ix : Index Number) : Prop where
  has : has s.view ix
  agrees : ix.Agrees
  counts : ∀ direction entityId type, asked entityId → asked type →
    s.count layout direction entityId type = (ix.linked direction entityId type).ncard
  named : ∀ direction entityId type count, s.counts.get? ⟨direction, entityId, type⟩ = some count →
    asked entityId ∧ asked type

/-- What two counters say once each is moved by what a relation is at its ends. -/
theorem count_bumpCount_both (link : Link) {delta : Int} {direction : Direction}
    {entityId type : String}
    : ((s.bumpCount layout .incoming link.target link.type delta).bumpCount layout .outgoing
        link.source link.type delta).count layout direction entityId type
      = if link.type = type ∧ link.ends direction = entityId then
          (s.count layout direction entityId type + delta).toNat
        else s.count layout direction entityId type := by
  rw [count_bumpCount, count_bumpCount, count_bumpCount]
  cases direction with
  | incoming =>
      by_cases here : link.type = type ∧ link.target = entityId
      · obtain ⟨rfl, rfl⟩ := here
        simp [Link.ends]
      · have apart : ¬ (entityId = link.target ∧ type = link.type) := fun is =>
          here ⟨is.2.symm, is.1.symm⟩
        simp [Link.ends, here, apart]
  | outgoing =>
      by_cases here : link.type = type ∧ link.source = entityId
      · obtain ⟨rfl, rfl⟩ := here
        simp [Link.ends]
      · have apart : ¬ (entityId = link.source ∧ type = link.type) := fun is =>
          here ⟨is.2.symm, is.1.symm⟩
        simp [Link.ends, here, apart]

/-- A write to edges leaves the counts. -/
theorem Agrees.count_write (agree : Agrees layout asked has s ix)
    (keeps : layout.Keeps asked has may) {write : Write Number} (may_ : may write)
    (edges : ∀ direction entityId type,
      ix.write write (.count direction entityId type) = ix (.count direction entityId type))
    {direction : Direction} {entityId type : String} (entityId_ : asked entityId)
    (type_ : asked type)
    : (s.write layout write).count layout direction entityId type
      = s.count layout direction entityId type := by
  have after := (keeps.answers (keeps.write agree.has may_)).getCount direction entityId type
    entityId_ type_
  have before := (keeps.answers agree.has).getCount direction entityId type entityId_ type_
  rw [Index.getCount] at after before
  rw [count, count, Applying.write, after, before, edges]

theorem get?_bumpCount_both (link : Link) {delta : Int} {direction : Direction}
    {entityId type : String} {count : Nat}
    (found : ((s.bumpCount layout .incoming link.target link.type delta).bumpCount layout .outgoing
      link.source link.type delta).counts.get? ⟨direction, entityId, type⟩ = some count)
    : (entityId = link.target ∨ entityId = link.source) ∧ type = link.type
      ∨ s.counts.get? ⟨direction, entityId, type⟩ = some count := by
  simp only [bumpCount, Js.Dict.get?_put] at found
  split at found
  · rename_i same
    cases same
    exact .inl ⟨.inr rfl, rfl⟩
  · split at found
    · rename_i same
      cases same
      exact .inl ⟨.inl rfl, rfl⟩
    · exact .inr found

/-- A relation created where none stands is one more, else nothing changes. -/
theorem Agrees.create (agree : Agrees layout asked has s ix) (keeps : layout.Keeps asked has may)
    {e : Edge Number} (may_ : may (.addEdge e))
    : ∃ ix', Agrees layout asked has (s.applyRelation layout e) ix'
      ∧ ix'.live.ncard ≤ ix.live.ncard + 1 := by
  have texts := keeps.texts (show may (Relating.create e).write from may_)
  simp only [Relating.texts, List.forall_mem_cons] at texts
  obtain ⟨source, type, target, _⟩ := texts
  have active := (keeps.answers agree.has).activeEdge e.source e.type e.target source type target
  rw [applyRelation]
  simp only [active]
  cases is : ix.activeEdge e.source e.type e.target with
  | some edge =>
      obtain ⟨_, _, _, not⟩ := agree.agrees.activeEdge_eq_some.mp is
      simp only [Option.any_some, not, Bool.not_false, if_true]
      exact ⟨ix, agree, Nat.le_succ _⟩
  | none =>
      have none_ := agree.agrees.activeEdge_eq_none.mp is
      have fresh : (⟨e.source, e.type, e.target⟩ : Link) ∉ ix.live := by simp [Index.live, none_]
      refine ⟨ix.addEdge e, ⟨keeps.write agree.has may_, agree.agrees.addEdge none_, ?_, ?_⟩, ?_⟩
      · intro direction entityId type' entityId_ type_
        refine (count_bumpCount_both ⟨e.source, e.type, e.target⟩).trans ?_
        rw [agree.count_write keeps may_ (fun _ _ _ => Index.addEdge_count) entityId_ type_,
          agree.counts direction entityId type' entityId_ type_,
          Index.ncard_linked_insert agree.agrees.finite fresh Index.live_addEdge]
        split <;> rfl
      · intro direction entityId type' count found
        rcases get?_bumpCount_both ⟨e.source, e.type, e.target⟩ found with ⟨rfl | rfl, rfl⟩ | found
        · exact ⟨target, type⟩
        · exact ⟨source, type⟩
        · exact agree.named direction entityId type' count found
      · rw [Index.live_addEdge]
        exact Set.ncard_insert_le _ _

/-- A deletion of the edge that stands takes one away, and one that finds nothing counted nothing. -/
theorem Agrees.delete (agree : Agrees layout asked has s ix) (keeps : layout.Keeps asked has may)
    {source type : String} {createdAt : Nat} {target : String}
    (may_ : may (.removeEdge source type createdAt target))
    (matched : s.matched layout (.delete source type createdAt target))
    : ∃ ix', Agrees layout asked has (s.applyRelationDelete layout source type createdAt target) ix'
      ∧ ix'.live.ncard ≤ ix.live.ncard := by
  have texts := keeps.texts (show may (Relating.delete source type createdAt target).write from may_)
  simp only [Relating.texts, List.forall_mem_cons] at texts
  obtain ⟨source_, type_, target_, _⟩ := texts
  have active := (keeps.answers agree.has).activeEdge source type target source_ type_ target_
  rw [Applying.matched, active] at matched
  have told : ∀ time, ix (.active source type target) = some time → time = keyTime createdAt := by
    intro time there
    cases is : ix.activeEdge source type target with
    | none => cases (agree.agrees.activeEdge_eq_none.mp is).symm.trans there
    | some edge =>
        obtain ⟨time', there', edgeAt, _⟩ := agree.agrees.activeEdge_eq_some.mp is
        simp only [is, Index.createdAt_of_edgeAt edgeAt, decide_eq_true_eq] at matched
        exact (Option.some.inj (there.symm.trans there')).trans matched
  have live : (ix.removeEdge source type createdAt target).live.ncard ≤ ix.live.ncard := by
    rw [Index.live_removeEdge]
    exact Set.ncard_le_ncard Set.sdiff_subset agree.agrees.finite
  refine ⟨ix.removeEdge source type createdAt target,
    ⟨keeps.write agree.has may_, agree.agrees.removeEdge told, ?_, ?_⟩, live⟩
  · intro direction entityId type' entityId_ type'_
    refine (count_bumpCount_both ⟨source, type, target⟩).trans ?_
    rw [agree.count_write keeps may_ (fun _ _ _ => Index.removeEdge_count) entityId_ type'_,
      agree.counts direction entityId type' entityId_ type'_]
    by_cases stood : (⟨source, type, target⟩ : Link) ∈ ix.live
    · rw [Index.ncard_linked_sdiff stood Index.live_removeEdge]
      split <;> omega
    · have same : (ix.removeEdge source type createdAt target).linked direction entityId type'
          = ix.linked direction entityId type' := by
        rw [Index.linked, Index.linked, Index.live_removeEdge, Set.sdiff_singleton_eq_self stood]
      have none_ : ix (.active source type target) = none := by simpa [Index.live] using stood
      simp only [agree.agrees.activeEdge_eq_none.mpr none_, decide_eq_true_eq] at matched
      rw [same]
      split
      · rename_i here
        obtain ⟨rfl, rfl⟩ := here
        have counted := agree.counts direction _ type entityId_ type'_
        cases direction with
        | incoming => rw [← counted, Link.ends, matched.1]; rfl
        | outgoing => rw [← counted, Link.ends, matched.2]; rfl
      · rfl
  · intro direction entityId type' count found
    rcases get?_bumpCount_both ⟨source, type, target⟩ found with ⟨rfl | rfl, rfl⟩ | found
    · exact ⟨target_, type_⟩
    · exact ⟨source_, type_⟩
    · exact agree.named direction entityId type' count found

/-- Counts written one after the other. -/
theorem exists_putCounts (keeps : layout.Keeps asked has may)
    {entries : List (Counter × Nat)} (unique : (entries.map Prod.fst).Nodup)
    (fine : ∀ entry ∈ entries, asked entry.1.entityId ∧ asked entry.1.type ∧ entry.2 ≤ maxSafeInteger)
    {view : Db} {ix : Index Number} (start : has view ix) (agrees : ix.Agrees)
    : ∃ ix', has (entries.foldl (fun view (counter, count) =>
          layout.write view (.putCount counter.direction counter.entityId counter.type count)) view) ix'
      ∧ ix'.Agrees ∧ ix'.live = ix.live
      ∧ ∀ direction entityId type, ix' (.count direction entityId type)
        = (entries.lookup ⟨direction, entityId, type⟩).or (ix (.count direction entityId type)) := by
  induction entries generalizing view ix with
  | nil => exact ⟨ix, start, agrees, rfl, fun _ _ _ => rfl⟩
  | cons entry rest ih =>
      obtain ⟨⟨direction, entityId, type⟩, count⟩ := entry
      rw [List.map_cons, List.nodup_cons] at unique
      obtain ⟨entityId_, type_, safe⟩ := fine _ (.head _)
      have put : has (layout.write view (.putCount direction entityId type count))
          (ix.putCount direction entityId type count) :=
        keeps.write start (keeps.putCount entityId_ type_ safe)
      obtain ⟨ix', has', agrees', live, counts⟩ := ih unique.2
        (fun entry mem => fine entry (.tail _ mem)) put (agrees.putCount direction entityId type count)
      refine ⟨ix', has', agrees', live.trans Index.live_putCount, fun direction' entityId' type' => ?_⟩
      rw [counts, List.lookup_cons, Index.putCount_count]
      by_cases same : direction' = direction ∧ entityId' = entityId ∧ type' = type
      · obtain ⟨rfl, rfl, rfl⟩ := same
        have absent : rest.lookup ⟨direction', entityId', type'⟩ = none := by
          rw [← Option.not_isSome_iff_eq_none, ← Js.Dict.mem_keys_lookup]
          exact unique.1
        rw [absent, if_pos ⟨rfl, rfl, rfl⟩, beq_self_eq_true]
        rfl
      · have apart : ((⟨direction', entityId', type'⟩ : Counter) == ⟨direction, entityId, type⟩)
            = false := by
          simpa using same
        rw [if_neg same, apart]

/-- Where a chunk ends, what was counted aside is counted in the view. -/
theorem Agrees.flush (agree : Agrees layout asked has s ix) (keeps : layout.Keeps asked has may)
    (safe : ix.live.ncard ≤ maxSafeInteger)
    : ∃ ix', Agrees layout asked has (s.flush layout) ix' ∧ ix'.live = ix.live := by
  obtain ⟨ix', has', agrees', live, counts⟩ := exists_putCounts keeps s.counts.unique
    (fun entry mem => by
      obtain ⟨⟨direction, entityId, type⟩, count⟩ := entry
      have found := Js.Dict.mem_entries_iff.mp mem
      obtain ⟨entityId_, type_⟩ := agree.named direction entityId type count found
      have counted := agree.counts direction entityId type entityId_ type_
      rw [Applying.count, found, Option.getD_some] at counted
      exact ⟨entityId_, type_, counted ▸ (Index.ncard_linked_le agree.agrees.finite).trans safe⟩)
    agree.has agree.agrees
  refine ⟨ix', ⟨has', agrees', ?_, fun _ _ _ _ found => by cases found⟩, live⟩
  intro direction entityId type entityId_ type_
  have counted := agree.counts direction entityId type entityId_ type_
  have before := (keeps.answers agree.has).getCount direction entityId type entityId_ type_
  have after := (keeps.answers has').getCount direction entityId type entityId_ type_
  rw [Index.getCount, counts] at after
  rw [Index.getCount] at before
  have linked : ix'.linked direction entityId type = ix.linked direction entityId type := by
    rw [Index.linked, Index.linked, live]
  rw [linked, ← counted, Applying.count, Applying.count, before]
  have none_ : (s.flush layout).counts.get? ⟨direction, entityId, type⟩ = none := rfl
  rw [none_, Option.getD_none]
  refine after.trans ?_
  show ((s.counts.get? ⟨direction, entityId, type⟩).or _).getD 0 = _
  cases s.counts.get? ⟨direction, entityId, type⟩ <;> rfl

/-- Each step of a run keeps the agreement, where its deletions are matched. -/
theorem Agrees.run (keeps : layout.Keeps asked has may) {steps : List (Option (Relating Number))}
    {s : Applying Db} {ix : Index Number} {n : Nat} (agree : Agrees layout asked has s ix)
    (live : ix.live.ncard ≤ n) (few : n + steps.reduceOption.length ≤ maxSafeInteger)
    (each : Runs.Each (Applying.step layout)
      (fun s step => ∀ event, step = some event → s.matched layout event ∧ may event.write) s steps)
    : ∃ ix', Agrees layout asked has (steps.foldl (Applying.step layout) s) ix'
      ∧ ix'.live.ncard ≤ n + steps.reduceOption.length := by
  induction steps generalizing s ix n with
  | nil => exact ⟨ix, agree, live⟩
  | cons step rest ih =>
      cases step with
      | none =>
          rw [List.reduceOption_cons_of_none] at few ⊢
          obtain ⟨ix', agree', live'⟩ := agree.flush keeps (by omega)
          exact ih agree' (live' ▸ live) few each.2
      | some event =>
          rw [List.reduceOption_cons_of_some, List.length_cons] at few ⊢
          obtain ⟨matched, may_⟩ := each.1 event rfl
          obtain ⟨ix', agree', live'⟩ : ∃ ix', Agrees layout asked has (s.relate layout event) ix'
              ∧ ix'.live.ncard ≤ n + 1 := by
            cases event with
            | create e =>
                obtain ⟨ix', agree', live'⟩ := agree.create keeps may_
                exact ⟨ix', agree', live'.trans (Nat.succ_le_succ live)⟩
            | delete source type createdAt target =>
                obtain ⟨ix', agree', live'⟩ := agree.delete keeps may_ matched
                exact ⟨ix', agree', (live'.trans live).trans (Nat.le_succ _)⟩
          obtain ⟨ix'', agree'', live''⟩ := ih agree' live' (by omega) each.2
          exact ⟨ix'', agree'', by omega⟩

end Applying

-- What a layout answers

namespace Answers

variable (asked : String → Prop) (answers : Answers Number)

/-- An edge of those of its source that isn't deleted. -/
structure Stands (edge : EdgeRecord Number) : Prop where
  asked : asked edge.source
  stored : edge ∈ answers.edges edge.source .outgoing none false
  not : edge.deleted = false

/-- Edges, their refs and their counters agree. -/
structure Agree : Prop where
  one : ∀ edge edge', Stands asked answers edge → Stands asked answers edge' →
    edge.source = edge'.source → edge.type = edge'.type → edge.target = edge'.target → edge = edge'
  active : ∀ source type target edge, asked source → asked type → asked target →
    (answers.activeEdge source type target = some edge
      ↔ Stands asked answers edge ∧ edge.source = source ∧ edge.type = type ∧ edge.target = target)
  incoming : ∀ target edge, asked target →
    (edge ∈ answers.edges target .incoming none false
      ↔ Stands asked answers edge ∧ edge.target = target)
  counts : ∀ direction entityId type, asked entityId → asked type →
    answers.getCount direction entityId type
      = {edge ∈ {edge | edge ∈ answers.edges entityId direction none false} |
          edge.deleted = false ∧ edge.type = type}.ncard

variable {asked answers} {ix : Index Number}

/-- An edge stands where the index's active ref is of its time. -/
theorem stands_iff (of : answers.Of asked ix) (agrees : ix.Agrees) {edge : EdgeRecord Number}
    : Stands asked answers edge
      ↔ asked edge.source
        ∧ ix (.active edge.source edge.type edge.target) = some edge.createdAt
        ∧ ix.edgeAt edge.source edge.type edge.createdAt edge.target = some edge := by
  have wanted : ∀ wanted, required none = some wanted → asked wanted := fun _ is => by cases is
  constructor
  · rintro ⟨asks, stored, not⟩
    have is := (of.edges edge.source .outgoing none false edge asks wanted).mp stored
    obtain ⟨v, there, same⟩ := Option.map_eq_some_iff.mp is.there
    have not' : v.deleted = false := by
      rw [← same] at not
      exact not
    exact ⟨asks, (agrees.active ..).mpr ⟨v, there, not'⟩, is.there⟩
  · rintro ⟨asks, active, there⟩
    refine ⟨asks, (of.edges edge.source .outgoing none false edge asks wanted).mpr
      ⟨(fun _ is => by cases is), rfl, there⟩, ?_⟩
    obtain ⟨v, is, not⟩ := (agrees.active ..).mp active
    rw [Index.edgeAt, is, Option.map_some, Option.some.injEq] at there
    rw [← there]
    exact not

/-- Where an index agrees and counts what stands, so do the answers. -/
theorem Of.agree (of : answers.Of asked ix) (agrees : ix.Agrees)
    (named : ∀ {source type target time v}, ix (.edge source type time target) = some v →
      asked source ∧ asked type ∧ asked target)
    (counts : ∀ direction entityId type, asked entityId → asked type →
      ix.getCount direction entityId type = (ix.linked direction entityId type).ncard)
    : answers.Agree asked := by
  have wanted : ∀ wanted, required none = some wanted → asked wanted := fun _ is => by cases is
  have incoming : ∀ target edge, asked target →
      (edge ∈ answers.edges target .incoming none false
        ↔ Stands asked answers edge ∧ edge.target = target) := by
    intro target edge asks
    rw [of.edges target .incoming none false edge asks wanted, stands_iff of agrees]
    constructor
    · rintro ⟨_, ⟨rfl, incoming⟩, there⟩
      obtain ⟨v, is, _⟩ := Option.map_eq_some_iff.mp there
      exact ⟨⟨(named is).1, (agrees.incoming ..).mp incoming, there⟩, rfl⟩
    · rintro ⟨⟨_, active, there⟩, rfl⟩
      exact ⟨(fun _ is => by cases is), ⟨rfl, (agrees.incoming ..).mpr active⟩, there⟩
  have one : ∀ edge edge', Stands asked answers edge → Stands asked answers edge' →
      edge.source = edge'.source → edge.type = edge'.type → edge.target = edge'.target →
      edge = edge' := by
    intro edge edge' stands stands' source type target
    obtain ⟨_, active, there⟩ := (stands_iff of agrees).mp stands
    obtain ⟨_, active', there'⟩ := (stands_iff of agrees).mp stands'
    rw [source, type, target, active', Option.some.injEq] at active
    rw [source, type, target, ← active, there', Option.some.injEq] at there
    exact there.symm
  refine ⟨one, ?_, incoming, ?_⟩
  · intro source type target edge source_ type_ target_
    rw [of.activeEdge source type target source_ type_ target_, agrees.activeEdge_eq_some,
      stands_iff of agrees]
    constructor
    · rintro ⟨time, active, there, _⟩
      obtain ⟨v, _, rfl⟩ := Option.map_eq_some_iff.mp there
      exact ⟨⟨source_, active, there⟩, rfl, rfl, rfl⟩
    · rintro ⟨⟨_, active, there⟩, rfl, rfl, rfl⟩
      obtain ⟨v, is, not⟩ := (agrees.active ..).mp active
      refine ⟨edge.createdAt, active, there, ?_⟩
      rw [Index.edgeAt, is, Option.map_some, Option.some.injEq] at there
      rw [← there]
      exact not
  · intro direction entityId type entityId_ type_
    rw [of.getCount direction entityId type entityId_ type_,
      counts direction entityId type entityId_ type_]
    have ends : ∀ edge : EdgeRecord Number,
        edge ∈ answers.edges entityId direction none false ∧ edge.deleted = false ∧ edge.type = type
        ↔ Stands asked answers edge ∧ edge.type = type
          ∧ (Link.mk edge.source edge.type edge.target).ends direction = entityId := by
      intro edge
      cases direction with
      | incoming =>
          rw [incoming entityId edge entityId_]
          exact ⟨fun is => ⟨is.1.1, is.2.2, is.1.2⟩, fun is => ⟨⟨is.1, is.2.2⟩, is.1.not, is.2.1⟩⟩
      | outgoing =>
          constructor
          · rintro ⟨stored, not, type'⟩
            obtain rfl : edge.source = entityId :=
              ((of.edges entityId .outgoing none false edge entityId_ wanted).mp stored).here
            exact ⟨⟨entityId_, stored, not⟩, type', rfl⟩
          · rintro ⟨stands, type', rfl⟩
            exact ⟨stands.stored, stands.not, type'⟩
    symm
    refine Set.ncard_congr (fun edge _ => ⟨edge.source, edge.type, edge.target⟩) ?_ ?_ ?_
    · intro edge mem
      obtain ⟨stands, type', end_⟩ := (ends edge).mp mem
      exact ⟨Option.isSome_of_eq_some ((stands_iff of agrees).mp stands).2.1, type', end_⟩
    · intro edge edge' mem mem' same
      obtain ⟨source, type', target⟩ := Link.mk.inj same
      exact one edge edge' ((ends edge).mp mem).1 ((ends edge').mp mem').1 source type' target
    · rintro ⟨source, type', target⟩ ⟨live, rfl, end_⟩
      obtain ⟨time, active⟩ := Option.isSome_iff_exists.mp live
      obtain ⟨v, is, not⟩ := (agrees.active source type' target time).mp active
      let edge : EdgeRecord Number := ⟨source, target, type', authorFromEntityId source, time,
        v.deleted, v.value.map some, v.data⟩
      have there : ix.edgeAt source type' time target = some edge := by
        rw [Index.edgeAt, is, Option.map_some]
      exact ⟨edge, (ends edge).mpr ⟨(stands_iff of agrees).mpr ⟨(named is).1, active, there⟩, rfl,
        end_⟩, rfl⟩

end Answers

-- The layouts

theorem Index.live_empty : (Index.empty : Index Number).live = ∅ := by simp [live, empty]

theorem Index.agrees_empty : (Index.empty : Index Number).Agrees where
  active _ _ _ _ := by simp [Index.empty]
  incoming _ _ _ _ := by simp [Index.empty]
  finite := live_empty ▸ Set.finite_empty

theorem layout1_keeps (json : Number → Option Number)
    : (layout1 json).Keeps Plain Layout1.Has fun write => write.Passes ∧ Layout1.Keeps json write where
  answers has := has.answers
  write has may := has.write may.2 fun e is => by
    subst is
    exact may.1
  named has there := by
    obtain ⟨source, type, _, target⟩ := (has.fits _ _ there).1
    exact ⟨source, type, target⟩
  texts {event} may := by
    cases event with
    | create e =>
        obtain ⟨source, type, _, target, _⟩ := may.2
        simpa [Relating.texts] using ⟨source, type, target⟩
    | delete source type createdAt target =>
        have texts : Plain source ∧ Plain type ∧ Plain target := may.2
        simpa [Relating.texts] using texts
  putCount entityId type _ := ⟨trivial, entityId, type⟩

section Second

variable {Key : Type} [Ord Key] [Std.TransOrd Key] [Std.LawfulEqOrd Key]

/-- The second layout has an index where what is written is carried. -/
theorem layout2_keeps (enc : IndexEncoder Key) (p : Primitives) (float64 : Codec Number)
    (safe : ∀ n ≤ maxSafeInteger, p.uint.Fits n)
    : (layout2 enc p float64).Keeps (fun _ => True) (Layout2.Has enc p float64)
        (Layout2.Carried p float64) where
  answers has := has.answers safe
  write has may := has.write safe may
  named _ _ := ⟨trivial, trivial, trivial⟩
  texts _ _ _ := trivial
  putCount _ _ few := safe _ few

end Second

/-- A run from an empty view: what a layout answers at the end of a chunk agrees. -/
theorem agree_of_run {layout : IndexLayout Db Number} {asked : String → Prop}
    {has : Db → Index Number → Prop} {may : Write Number → Prop}
    (keeps : layout.Keeps asked has may) {view : Db} (empty : has view Index.empty)
    {steps : List (Option (Relating Number))} (few : steps.reduceOption.length ≤ maxSafeInteger)
    (each : Runs.Each (Applying.step layout)
      (fun s step => ∀ event, step = some event → s.matched layout event ∧ may event.write)
      { view } steps)
    : (layout.answers ((steps.foldl (Applying.step layout) { view }).flush layout).view).Agree asked := by
  have none_ : ∀ direction entityId type,
      ((Index.empty : Index Number).linked direction entityId type).ncard = 0 := by
    intro direction entityId type
    rw [Index.linked, Index.live_empty, Set.sep_empty, Set.ncard_empty]
  have start : Applying.Agrees layout asked has { view } Index.empty := by
    refine ⟨empty, Index.agrees_empty, fun direction entityId type entityId_ type_ => ?_,
      fun _ _ _ _ found => by cases found⟩
    rw [none_]
    exact (keeps.answers empty).getCount direction entityId type entityId_ type_
  obtain ⟨ix, agree, live⟩ := start.run keeps (n := 0)
    (by rw [Index.live_empty, Set.ncard_empty]) (by omega) each
  obtain ⟨ix', agree', _⟩ := agree.flush keeps (by omega)
  have of := keeps.answers agree'.has
  refine of.agree agree'.agrees (keeps.named agree'.has) fun direction entityId type entityId_ type_ =>
    ?_
  rw [← of.getCount direction entityId type entityId_ type_]
  exact agree'.counts direction entityId type entityId_ type_

section Runs

variable {Key : Type} [Ord Key] [Std.TransOrd Key] [Std.LawfulEqOrd Key] {enc : IndexEncoder Key}
  {p : Primitives} {float64 : Codec Number} {json : Number → Option Number}

/-- After every run of relation events, in chunks of any sizes, edges, refs and counters agree in
either layout, where each deletion is matched; in the first, where what is written keeps entries
apart as well.
-/
theorem relations_agree (safe : ∀ n ≤ maxSafeInteger, p.uint.Fits n)
    {steps : List (Option (Relating Number))} (few : steps.reduceOption.length ≤ maxSafeInteger)
    : (Runs.Each (Applying.step (layout2 enc p float64))
          (fun s step => ∀ event, step = some event → s.matched (layout2 enc p float64) event
            ∧ Layout2.Carried p float64 event.write) { view := ∅ } steps
        → ((layout2 enc p float64).answers ((steps.foldl (Applying.step (layout2 enc p float64))
            { view := ∅ }).flush (layout2 enc p float64)).view).Agree fun _ => True)
      ∧ (Runs.Each (Applying.step (layout1 json))
          (fun s step => ∀ event, step = some event → s.matched (layout1 json) event
            ∧ event.write.Passes ∧ Layout1.Keeps json event.write) { view := ∅ } steps
        → ((layout1 json).answers ((steps.foldl (Applying.step (layout1 json))
            { view := ∅ }).flush (layout1 json)).view).Agree Plain) :=
  ⟨agree_of_run (layout2_keeps enc p float64 safe) .empty few,
    agree_of_run (layout1_keeps json) .empty few⟩

end Runs

/-- Another post of the author. -/
def laterPost : String := "post/0101010101010101010101010101010101010101010101010101010101010101/4"

/-- A relation of a post to something. -/
def relation (source : String) (time : Nat) : Edge UInt64 :=
  ⟨source, "b", time, "x", "0101010101010101010101010101010101010101010101010101010101010101", none,
    none⟩

/-- A post's relation is created and deleted, across chunks, while another's stands. -/
theorem relations_agree_deleted
    : ((layout1 some).answers
        (([some (.create (relation post 5)), some (.create (relation laterPost 6)), none,
          some (.delete post "b" 5 "x")].foldl (Applying.step (layout1 some))
          { view := ∅ }).flush (layout1 some)).view).Agree Plain := by
  have passes : ∀ source time, source ∈ [post, laterPost] →
      (Relating.create (relation source time)).write.Passes := by
    have author : ∀ source ∈ [post, laterPost], authorFromEntityId source
        = some "0101010101010101010101010101010101010101010101010101010101010101" := by decide
    exact fun source _ mem => author source mem
  refine (@relations_agree _ _ _ _ _ inOrder compact compactFloat64 some (fun n safe => ?_) _ ?_).2 ?_
  · show n < 2 ^ 53
    exact Nat.lt_of_le_of_lt safe (by decide)
  · decide
  · refine ⟨?_, ?_, ?_, ?_, trivial⟩
    · rintro _ ⟨⟩
      exact ⟨rfl, passes post 5 (.head _), by decide, by decide, by decide, by decide, by decide,
        fun _ _ => rfl⟩
    · rintro _ ⟨⟩
      exact ⟨rfl, passes laterPost 6 (.tail _ (.head _)), by decide, by decide, by decide, by decide,
        by decide, fun _ _ => rfl⟩
    · rintro _ ⟨⟩
    · rintro _ ⟨⟩
      exact ⟨by decide +kernel, trivial, by decide, by decide, by decide⟩

/-- A relation deleted twice takes away from the counts of another that stands. -/
theorem deleted_twice_miscounts
    : ¬ ((layout1 some).answers
        (([some (.create (relation post 5)), some (.create (relation laterPost 6)),
          some (.delete post "b" 5 "x"), some (.delete post "b" 5 "x")].foldl
          (Applying.step (layout1 some)) { view := ∅ }).flush (layout1 some)).view).Agree Plain := by
  intro agree
  have counted := agree.counts .incoming "x" "b" (by decide) (by decide)
  have none_ : ((layout1 some).answers
      (([some (.create (relation post 5)), some (.create (relation laterPost 6)),
        some (.delete post "b" 5 "x"), some (.delete post "b" 5 "x")].foldl
        (Applying.step (layout1 some)) { view := ∅ }).flush (layout1 some)).view).getCount .incoming
        "x" "b" = 0 := by
    decide +kernel
  rw [none_, eq_comm, Set.ncard_eq_zero ((List.finite_toSet _).sep _)] at counted
  have stands : (⟨laterPost, "x", "b", some (relation laterPost 6).author, 6, false, none, none⟩
      : EdgeRecord UInt64) ∈ ((layout1 some).answers
        (([some (.create (relation post 5)), some (.create (relation laterPost 6)),
          some (.delete post "b" 5 "x"), some (.delete post "b" 5 "x")].foldl
          (Applying.step (layout1 some)) { view := ∅ }).flush (layout1 some)).view).edges "x" .incoming
        none false := by
    decide +kernel
  exact (Set.eq_empty_iff_forall_notMem.mp counted) _ ⟨stands, rfl, rfl⟩

end Layouts

end Hypergraph.Engine
