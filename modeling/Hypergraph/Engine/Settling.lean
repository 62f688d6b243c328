import Hypergraph.Engine.Applying

/-! Counts kept aside and written at the end of a chunk: when they are written makes no difference, as
nothing but a counter's own reads tells its entry.
-/

namespace Hypergraph.Engine

open Wire Js

namespace Layouts

variable {Db Number : Type}

-- A layout whose counts are apart

/-- A write to something else than a counter. -/
def Write.Other : Write Number → Prop
  | .putCount _ _ _ _ => False
  | _ => True

/-- Answers with another count. -/
def Answers.counting (answers : Answers Number) (counter : Counter) (count : Nat) : Answers Number :=
  { answers with getCount := fun direction entityId type =>
      if ⟨direction, entityId, type⟩ = counter then count
      else answers.getCount direction entityId type }

namespace IndexLayout

variable (layout : IndexLayout Db Number)

def putCount (db : Db) (counter : Counter) (count : Nat) : Db :=
  layout.write db (.putCount counter.direction counter.entityId counter.type count)

/-- Counters that may be counted have entries of their own, which only they read, in views that are
sound.
-/
structure Apart (sound : Db → Prop) (may : Counter → Prop) : Prop where
  keeps : ∀ {db} write, sound db → sound (layout.write db write)
  answers : ∀ {db counter count}, sound db → may counter → count ≤ maxSafeInteger →
    layout.answers (layout.putCount db counter count) = (layout.answers db).counting counter count
  getCount : ∀ {db write}, sound db → write.Other →
    (layout.answers (layout.write db write)).getCount = (layout.answers db).getCount
  write : ∀ {db counter count write}, sound db → write.Other →
    layout.write (layout.putCount db counter count) write
      = layout.putCount (layout.write db write) counter count
  again : ∀ {db counter count count'}, layout.putCount (layout.putCount db counter count) counter count'
    = layout.putCount db counter count'
  comm : ∀ {db counter counter' count count'}, may counter → may counter' → counter ≠ counter' →
    layout.putCount (layout.putCount db counter count) counter' count'
      = layout.putCount (layout.putCount db counter' count') counter count

theorem Apart.putCount {layout : IndexLayout Db Number} {sound : Db → Prop} {may : Counter → Prop}
    (apart : layout.Apart sound may) {db : Db} (fine : sound db) (counter : Counter) (count : Nat)
    : sound (layout.putCount db counter count) :=
  apart.keeps _ fine

end IndexLayout

-- Flushing

namespace Applying

variable {layout : IndexLayout Db Number} {sound : Db → Prop} {may : Counter → Prop}

/-- The view with counts written one after the other. -/
def putCounts (layout : IndexLayout Db Number) (view : Db) (counts : List (Counter × Nat)) : Db :=
  counts.foldl (fun view (counter, count) => layout.putCount view counter count) view

theorem putCounts_cons {view : Db} {counter : Counter} {count : Nat} {rest : List (Counter × Nat)}
    : putCounts layout view ((counter, count) :: rest)
      = putCounts layout (layout.putCount view counter count) rest := rfl

section Writes

variable (apart : layout.Apart sound may) {view : Db} {counts : List (Counter × Nat)}

include apart

theorem sound_putCounts (fine : sound view) : sound (putCounts layout view counts) := by
  induction counts generalizing view with
  | nil => exact fine
  | cons entry rest ih => exact ih (apart.putCount fine entry.1 entry.2)

/-- Another write may come before the counts. -/
theorem write_putCounts (fine : sound view) {write : Write Number} (other : write.Other)
    : layout.write (putCounts layout view counts) write
      = putCounts layout (layout.write view write) counts := by
  induction counts generalizing view with
  | nil => rfl
  | cons entry rest ih =>
      rw [putCounts_cons, putCounts_cons, ih (apart.putCount fine _ _), apart.write fine other]

/-- A count of another counter may come last. -/
theorem putCounts_putCount {counter : Counter} {count : Nat} (may_ : may counter)
    (listed : ∀ entry ∈ counts, may entry.1) (fresh : counter ∉ counts.map Prod.fst)
    : putCounts layout (layout.putCount view counter count) counts
      = layout.putCount (putCounts layout view counts) counter count := by
  induction counts generalizing view with
  | nil => rfl
  | cons entry rest ih =>
      obtain ⟨other, count'⟩ := entry
      simp only [List.map_cons, List.mem_cons, not_or] at fresh
      rw [putCounts_cons, putCounts_cons, apart.comm may_ (listed _ (.head _)) fresh.1,
        ih (fun entry mem => listed entry (.tail _ mem)) fresh.2]

/-- The counts with one more set, or set again, are the counts and that one. -/
theorem putCounts_putEntries {counter : Counter} {count : Nat} (may_ : may counter)
    (listed : ∀ entry ∈ counts, may entry.1) (unique : (counts.map Prod.fst).Nodup)
    : putCounts layout view (Dict.putEntries counter count counts)
      = layout.putCount (putCounts layout view counts) counter count := by
  induction counts generalizing view with
  | nil => rfl
  | cons entry rest ih =>
      obtain ⟨other, count'⟩ := entry
      rw [List.map_cons, List.nodup_cons] at unique
      have rest_ : ∀ entry ∈ rest, may entry.1 := fun entry mem => listed entry (.tail _ mem)
      rw [Dict.putEntries, putCounts_cons]
      split
      · rename_i same
        subst same
        rw [putCounts_cons, putCounts_putCount apart may_ rest_ unique.1,
          putCounts_putCount apart may_ rest_ unique.1, apart.again]
      · rw [putCounts_cons, ih rest_ unique.2]

/-- What is answered once the counts are written. -/
theorem answers_putCounts (fine : sound view)
    (listed : ∀ entry ∈ counts, may entry.1 ∧ entry.2 ≤ maxSafeInteger)
    (unique : (counts.map Prod.fst).Nodup)
    : layout.answers (putCounts layout view counts)
      = { layout.answers view with
          getCount := fun direction entityId type =>
            (counts.lookup ⟨direction, entityId, type⟩).getD
              ((layout.answers view).getCount direction entityId type) } := by
  induction counts generalizing view with
  | nil => rfl
  | cons entry rest ih =>
      obtain ⟨counter, count⟩ := entry
      rw [List.map_cons, List.nodup_cons] at unique
      obtain ⟨may_, few⟩ := listed _ (.head _)
      rw [putCounts_cons, ih (apart.putCount fine _ _)
        (fun entry mem => listed entry (.tail _ mem)) unique.2, apart.answers fine may_ few]
      have counted : ∀ direction entityId type,
          (rest.lookup ⟨direction, entityId, type⟩).getD
            (((layout.answers view).counting counter count).getCount direction entityId type)
          = (((counter, count) :: rest).lookup ⟨direction, entityId, type⟩).getD
            ((layout.answers view).getCount direction entityId type) := by
        intro direction entityId type
        rw [Answers.counting, List.lookup_cons]
        by_cases same : (⟨direction, entityId, type⟩ : Counter) = counter
        · have absent : rest.lookup counter = none := by
            rw [← Option.not_isSome_iff_eq_none, ← Dict.mem_keys_lookup]
            exact unique.1
          simp [same, absent]
        · have apart' : ((⟨direction, entityId, type⟩ : Counter) == counter) = false := by
            simpa using same
          simp only [same, apart', if_false]
      simp only [counted]
      rfl

end Writes

/-- There is room for some more counted events. -/
structure Room (layout : IndexLayout Db Number) (sound : Db → Prop) (may : Counter → Prop)
    (s : Applying Db) (more : Nat) : Prop where
  sound : sound s.view
  may : ∀ entry ∈ s.counts.entries, may entry.1
  counts : ∀ direction entityId type, s.count layout direction entityId type + more ≤ maxSafeInteger

variable {s : Applying Db} {more : Nat}

theorem flush_flush : (s.flush layout).flush layout = s.flush layout := rfl

theorem Room.listed (room : Room layout sound may s more)
    : ∀ entry ∈ s.counts.entries, may entry.1 ∧ entry.2 ≤ maxSafeInteger := by
  rintro ⟨counter, count⟩ mem
  have found := Dict.mem_entries_iff.mp mem
  have few := room.counts counter.direction counter.entityId counter.type
  rw [Applying.count, found, Option.getD_some] at few
  exact ⟨room.may _ mem, by omega⟩

section Flushed

variable (apart : layout.Apart sound may)

include apart

/-- What is answered at a chunk's end: the counts are those that were kept aside. -/
theorem answers_flush (room : Room layout sound may s more)
    : layout.answers (s.flush layout).view
      = { layout.answers s.view with getCount := s.count layout } :=
  answers_putCounts apart room.sound room.listed s.counts.unique

theorem count_flush (room : Room layout sound may s more)
    : (s.flush layout).count layout = s.count layout := by
  funext direction entityId type
  show (layout.answers (s.flush layout).view).getCount direction entityId type = _
  rw [answers_flush apart room]

theorem Room.flush (room : Room layout sound may s more)
    : Room layout sound may (s.flush layout) more where
  sound := sound_putCounts apart room.sound
  may _ mem := by cases mem
  counts direction entityId type := by
    rw [count_flush apart room]
    exact room.counts direction entityId type

theorem Room.write (room : Room layout sound may s more) {write : Write Number} (other : write.Other)
    : Room layout sound may (s.write layout write) more where
  sound := apart.keeps _ room.sound
  may := room.may
  counts direction entityId type := by
    have counted := room.counts direction entityId type
    rw [Applying.count] at counted ⊢
    rw [Applying.write, apart.getCount room.sound other]
    exact counted

theorem count_write (room : Room layout sound may s more) {write : Write Number}
    (other : write.Other)
    : (s.write layout write).count layout = s.count layout := by
  funext direction entityId type
  rw [count, count, Applying.write, apart.getCount room.sound other]

theorem flush_write (room : Room layout sound may s more) {write : Write Number}
    (other : write.Other)
    : (s.write layout write).flush layout = (s.flush layout).write layout write := by
  have view : layout.write (putCounts layout s.view s.counts.entries) write
      = putCounts layout (layout.write s.view write) s.counts.entries :=
    write_putCounts apart room.sound other
  rw [Applying.write, Applying.flush, Applying.flush]
  exact congrArg (Applying.mk · .empty) view.symm

/-- A count moved is one written after the chunk's end. -/
theorem flush_bumpCount (listed : ∀ entry ∈ s.counts.entries, may entry.1) {direction : Direction}
    {entityId type : String} {delta : Int} (may_ : may ⟨direction, entityId, type⟩)
    : (s.bumpCount layout direction entityId type delta).flush layout
      = { view := layout.putCount (s.flush layout).view ⟨direction, entityId, type⟩
            (s.count layout direction entityId type + delta).toNat } :=
  congrArg (Applying.mk · .empty)
    (putCounts_putEntries apart may_ listed s.counts.unique)

omit apart in
theorem may_bumpCount (listed : ∀ entry ∈ s.counts.entries, may entry.1) {direction : Direction}
    {entityId type : String} {delta : Int} (may_ : may ⟨direction, entityId, type⟩)
    : ∀ entry ∈ (s.bumpCount layout direction entityId type delta).counts.entries, may entry.1 := by
  rintro ⟨counter, count⟩ mem
  have found := Dict.mem_entries_iff.mp mem
  rw [bumpCount, Dict.get?_put] at found
  split at found
  · rename_i same
    exact same ▸ may_
  · exact listed _ (Dict.mem_entries_iff.mpr found)

/-- A write with a counter moved at each end. -/
def moved (layout : IndexLayout Db Number) (s : Applying Db) (write : Write Number)
    (source type target : String) (delta : Int) : Applying Db :=
  ((s.write layout write).bumpCount layout .incoming target type delta).bumpCount layout .outgoing
    source type delta

section Moved

variable {write : Write Number} {source type target : String} {delta : Int}
  (incoming : may ⟨.incoming, target, type⟩) (outgoing : may ⟨.outgoing, source, type⟩)

include incoming outgoing

theorem flush_moved (room : Room layout sound may s more) (other : write.Other)
    : (moved layout s write source type target delta).flush layout
      = { view := layout.putCount
            (layout.putCount (layout.write (s.flush layout).view write) ⟨.incoming, target, type⟩
              (s.count layout .incoming target type + delta).toNat) ⟨.outgoing, source, type⟩
            (s.count layout .outgoing source type + delta).toNat } := by
  have written := (room.write apart other).may
  rw [moved, flush_bumpCount apart (may_bumpCount written incoming) outgoing,
    flush_bumpCount apart written incoming, flush_write apart room other, count_bumpCount,
    if_neg (by simp), count_write apart room other]
  rfl

/-- A chunk's end before makes no difference. -/
theorem late_moved (room : Room layout sound may s more) (other : write.Other)
    : (moved layout (s.flush layout) write source type target delta).flush layout
      = (moved layout s write source type target delta).flush layout := by
  rw [flush_moved apart incoming outgoing (room.flush apart) other,
    flush_moved apart incoming outgoing room other, flush_flush, count_flush apart room]

theorem Room.moved (room : Room layout sound may s (more + 1)) (other : write.Other)
    (one : delta ≤ 1)
    : Room layout sound may (moved layout s write source type target delta) more where
  sound := apart.keeps _ room.sound
  may := may_bumpCount (may_bumpCount (room.write apart other).may incoming) outgoing
  counts direction entityId type' := by
    rw [Applying.moved, count_bumpCount, count_bumpCount, count_bumpCount,
      count_write apart room other]
    have here := room.counts direction entityId type'
    have first := room.counts .incoming target type
    have second := room.counts .outgoing source type
    split
    · rw [if_neg (by simp)]
      omega
    · split <;> omega

end Moved

/-- A relation created after a chunk's end is as if the chunk went on. -/
theorem late_applyRelation (room : Room layout sound may s more) {e : Edge Number}
    (incoming : may ⟨.incoming, e.target, e.type⟩) (outgoing : may ⟨.outgoing, e.source, e.type⟩)
    : ((s.flush layout).applyRelation layout e).flush layout
      = (s.applyRelation layout e).flush layout := by
  have same : (layout.answers (s.flush layout).view).activeEdge
      = (layout.answers s.view).activeEdge := by
    rw [answers_flush apart room]
  rw [applyRelation, applyRelation, same]
  split
  · exact flush_flush
  · exact late_moved apart incoming outgoing room trivial

theorem Room.applyRelation (room : Room layout sound may s (more + 1)) {e : Edge Number}
    (incoming : may ⟨.incoming, e.target, e.type⟩) (outgoing : may ⟨.outgoing, e.source, e.type⟩)
    : Room layout sound may (s.applyRelation layout e) more := by
  rw [Applying.applyRelation]
  split
  · exact ⟨room.sound, room.may, fun direction entityId type => by
      have := room.counts direction entityId type
      omega⟩
  · exact room.moved apart incoming outgoing trivial (by decide)

end Flushed

end Applying

end Layouts

end Hypergraph.Engine
