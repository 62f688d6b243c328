import Hypergraph.Engine.Settling

/-! Both layouts keep counts apart from everything else: the second by its keys' prefix byte, the
first by how its keys start, and one counter from another where neither's id or type has a colon.
-/

namespace Hypergraph.Engine

open Wire

namespace Layouts

variable {Number : Type}

-- The second layout

namespace Layout2

variable {Key : Type} [Ord Key] [Std.TransOrd Key] [Std.LawfulEqOrd Key] {enc : IndexEncoder Key}
  {p : Primitives} {float64 : Codec Number} {db : Db Key} {direction : Direction}
  {entityId type : String} {count tag : Nat} {members : List Member}

omit [Ord Key] [Std.TransOrd Key] [Std.LawfulEqOrd Key] in
theorem encode_ne_countKey (other : tag ≠ 0x13 ∧ tag ≠ 0x14)
    : countKey enc direction entityId type ≠ enc.encode tag members := fun same => by
  have tags := enc.tag_inj same
  cases direction with
  | incoming => exact other.1 tags.symm
  | outgoing => exact other.2 tags.symm

theorem getElem?_putCount (other : tag ≠ 0x13 ∧ tag ≠ 0x14)
    : (putCount enc p db direction entityId type count)[enc.encode tag members]?
      = db[enc.encode tag members]? := by
  rw [putCount, Std.ExtTreeMap.getElem?_insert, if_neg]
  exact fun same => encode_ne_countKey other (Std.LawfulEqCmp.eq_of_compare same)

theorem stream_putCount (other : tag ≠ 0x13 ∧ tag ≠ 0x14)
    : stream enc (putCount enc p db direction entityId type count) tag members
      = stream enc db tag members := by
  have out : enc.inRange tag members (countKey enc direction entityId type) = false := by
    rw [← Bool.not_eq_true, countKey, enc.inRange_encode]
    rintro ⟨same, _⟩
    cases direction with
    | incoming => exact other.1 same.symm
    | outgoing => exact other.2 same.symm
  rw [stream, stream, putCount, Table.filter_insert out]

theorem edgeAt_putCount {source type' target : String} {createdAt : Nat}
    : edgeAt enc p float64 (putCount enc p db direction entityId type count) source type' createdAt
        target
      = edgeAt enc p float64 db source type' createdAt target := by
  rw [edgeAt, edgeAt, edgeKey, getElem?_putCount (by decide)]

omit [Ord Key] [Std.TransOrd Key] [Std.LawfulEqOrd Key] in
theorem countKey_inj {direction' : Direction} {entityId' type' : String}
    (same : countKey enc direction entityId type = countKey enc direction' entityId' type')
    : direction = direction' ∧ entityId = entityId' ∧ type = type' := by
  have entries := key_inj (.count direction entityId type) (.count direction' entityId' type') trivial
    trivial same
  simpa using entries

theorem getCount_putCount {direction' : Direction} {entityId' type' : String}
    (fits : p.uint.Fits count)
    : getCount enc p (putCount enc p db direction entityId type count) direction' entityId' type'
      = if (⟨direction', entityId', type'⟩ : Counter) = ⟨direction, entityId, type⟩ then count
        else getCount enc p db direction' entityId' type' := by
  rw [getCount, putCount, Std.ExtTreeMap.getElem?_insert]
  by_cases same : (⟨direction', entityId', type'⟩ : Counter) = ⟨direction, entityId, type⟩
  · cases same
    rw [if_pos Std.compare_self, if_pos rfl, Option.bind_some, p.uint.read_encode fits,
      Option.getD_some]
  · have apart : compare (countKey enc direction entityId type)
        (countKey enc direction' entityId' type') ≠ .eq := fun is => by
      obtain ⟨rfl, rfl, rfl⟩ := countKey_inj (Std.LawfulEqCmp.eq_of_compare is)
      exact same rfl
    rw [if_neg apart, if_neg same, getCount]

/-- What is answered of other things than a counter is the same. -/
theorem answers_putCount (fits : p.uint.Fits count)
    : answers enc p float64 (putCount enc p db direction entityId type count)
      = (answers enc p float64 db).counting ⟨direction, entityId, type⟩ count := by
  ext1
  · funext source type' target
    simp only [answers, Answers.counting, activeEdge, activeKey,
      getElem?_putCount (show 0x12 ≠ 0x13 ∧ 0x12 ≠ 0x14 by decide), edgeAt_putCount]
  · funext id direction' type' reverse
    simp only [answers, Answers.counting, edges,
      stream_putCount (show 0x11 ≠ 0x13 ∧ 0x11 ≠ 0x14 by decide),
      stream_putCount (show 0x10 ≠ 0x13 ∧ 0x10 ≠ 0x14 by decide), edgeAt_putCount]
  · funext direction' entityId' type'
    exact getCount_putCount fits
  · funext tag
    cases tag <;>
    simp only [answers, Answers.counting, tagged,
      stream_putCount (show 0x15 ≠ 0x13 ∧ 0x15 ≠ 0x14 by decide)]
  · funext id tag
    simp only [answers, Answers.counting, hasTag,
      stream_putCount (show 0x16 ≠ 0x13 ∧ 0x16 ≠ 0x14 by decide)]

theorem insert_putCount {bytes : Bytes} (other : tag ≠ 0x13 ∧ tag ≠ 0x14)
    : (putCount enc p db direction entityId type count).insert (enc.encode tag members) bytes
      = putCount enc p (db.insert (enc.encode tag members) bytes) direction entityId type count :=
  Table.insert_comm (encode_ne_countKey other)

theorem erase_putCount (other : tag ≠ 0x13 ∧ tag ≠ 0x14)
    : (putCount enc p db direction entityId type count).erase (enc.encode tag members)
      = putCount enc p (db.erase (enc.encode tag members)) direction entityId type count :=
  Table.erase_insert (encode_ne_countKey other)

/-- Another write may come before a count. -/
theorem write_putCount {write : Write Number} (other : write.Other)
    : Layout2.write enc p float64 (putCount enc p db direction entityId type count) write
      = putCount enc p (Layout2.write enc p float64 db write) direction entityId type count := by
  cases write with
  | putCount => cases other
  | addEdge e =>
      simp only [Layout2.write, addEdge, edgeKey, activeKey, inKey,
        insert_putCount (show 0x10 ≠ 0x13 ∧ 0x10 ≠ 0x14 by decide),
        insert_putCount (show 0x11 ≠ 0x13 ∧ 0x11 ≠ 0x14 by decide),
        insert_putCount (show 0x12 ≠ 0x13 ∧ 0x12 ≠ 0x14 by decide)]
  | removeEdge source type' createdAt target =>
      simp only [Layout2.write, removeEdge, edgeKey, activeKey, inKey,
        getElem?_putCount (show 0x10 ≠ 0x13 ∧ 0x10 ≠ 0x14 by decide),
        insert_putCount (show 0x10 ≠ 0x13 ∧ 0x10 ≠ 0x14 by decide)]
      split <;>
      simp only [erase_putCount (show 0x11 ≠ 0x13 ∧ 0x11 ≠ 0x14 by decide),
        erase_putCount (show 0x12 ≠ 0x13 ∧ 0x12 ≠ 0x14 by decide)]
  | addTag t =>
      simp only [Layout2.write, addTag, tagKey, tagRefKey,
        insert_putCount (show 0x15 ≠ 0x13 ∧ 0x15 ≠ 0x14 by decide),
        insert_putCount (show 0x16 ≠ 0x13 ∧ 0x16 ≠ 0x14 by decide)]
  | removeTag tag id author =>
      simp only [Layout2.write, removeTag, tagKey, tagRefKey,
        getElem?_putCount (show 0x16 ≠ 0x13 ∧ 0x16 ≠ 0x14 by decide)]
      split <;>
      simp only [erase_putCount (show 0x15 ≠ 0x13 ∧ 0x15 ≠ 0x14 by decide),
        erase_putCount (show 0x16 ≠ 0x13 ∧ 0x16 ≠ 0x14 by decide)]

theorem countAt_insert {bytes : Bytes} (other : tag ≠ 0x13 ∧ tag ≠ 0x14)
    : (db.insert (enc.encode tag members) bytes)[countKey enc direction entityId type]?
      = db[countKey enc direction entityId type]? := by
  rw [Std.ExtTreeMap.getElem?_insert, if_neg]
  exact fun is => encode_ne_countKey other (Std.LawfulEqCmp.eq_of_compare is).symm

theorem countAt_erase (other : tag ≠ 0x13 ∧ tag ≠ 0x14)
    : (db.erase (enc.encode tag members))[countKey enc direction entityId type]?
      = db[countKey enc direction entityId type]? := by
  rw [Std.ExtTreeMap.getElem?_erase, if_neg]
  exact fun is => encode_ne_countKey other (Std.LawfulEqCmp.eq_of_compare is).symm

/-- Other writes leave the counters. -/
theorem getCount_write {write : Write Number} (other : write.Other)
    : getCount enc p (Layout2.write enc p float64 db write) = getCount enc p db := by
  funext direction entityId type
  rw [getCount, getCount]
  cases write with
  | putCount => cases other
  | addEdge e =>
      rw [Layout2.write, addEdge, edgeKey, activeKey, inKey, countAt_insert (by decide),
        countAt_insert (by decide), countAt_insert (by decide)]
  | removeEdge source type' createdAt target =>
      rw [Layout2.write, removeEdge, edgeKey, activeKey, inKey, countAt_erase (by decide),
        countAt_erase (by decide)]
      split
      · rw [countAt_insert (by decide)]
      · rfl
  | addTag t =>
      rw [Layout2.write, addTag, tagKey, tagRefKey, countAt_insert (by decide),
        countAt_insert (by decide)]
  | removeTag tag id author =>
      simp only [Layout2.write, removeTag, tagKey, tagRefKey]
      split
      · rw [countAt_erase (by decide), countAt_erase (by decide)]
      · rw [countAt_erase (by decide)]

end Layout2

/-- The second layout keeps each counter apart. -/
theorem layout2_apart {Key : Type} [Ord Key] [Std.TransOrd Key] [Std.LawfulEqOrd Key]
    {enc : IndexEncoder Key} {p : Primitives} {float64 : Codec Number}
    (safe : ∀ n ≤ maxSafeInteger, p.uint.Fits n)
    : (layout2 enc p float64).Apart (fun _ => True) (fun _ => True) where
  keeps _ _ := trivial
  answers _ _ few := Layout2.answers_putCount (safe _ few)
  getCount _ other := Layout2.getCount_write other
  write _ other := Layout2.write_putCount other
  again := Table.insert_insert
  comm := by
    rintro db ⟨direction, entityId, type⟩ ⟨direction', entityId', type'⟩ _ _ _ _ apart
    refine Table.insert_comm fun same => apart ?_
    obtain ⟨rfl, rfl, rfl⟩ := Layout2.countKey_inj same
    rfl

-- The first layout

namespace Layout1

variable {json : Number → Option Number} {db : Db Number} {direction : Direction}
  {entityId type : String} {count : Nat} {place : List Char}

/-- A key of something else than a counter, as it starts. -/
def Elsewhere (key : List Char) : Prop := key.head? ≠ some 'c'

instance : DecidablePred Elsewhere := fun key => inferInstanceAs (Decidable (key.head? ≠ some 'c'))

/-- No reference is to a counter. -/
def Referring (db : Db Number) : Prop :=
  ∀ place key : List Char, db[place]? = some (.ref key) → Elsewhere key

theorem head_countKey : (countKey direction entityId type).head? = some 'c' := rfl

theorem elsewhere_edgeKey (source type : String) (createdAt : Nat) (target : String)
    : Elsewhere (edgeKey source type createdAt target) := by
  show some 'e' ≠ some 'c'
  decide

theorem elsewhere_inKey (target type : String) (createdAt : Nat) (source : String)
    : Elsewhere (inKey target type createdAt source) := by
  show some 'i' ≠ some 'c'
  decide

theorem elsewhere_activeKey (source type target : String)
    : Elsewhere (activeKey source type target) := by
  show some 'e' ≠ some 'c'
  decide

theorem elsewhere_tagKey (tag : String) (createdAt : Nat) (entityId author : String)
    : Elsewhere (tagKey tag createdAt entityId author) := by
  show some 't' ≠ some 'c'
  decide

theorem elsewhere_tagRefKey (tag entityId author : String)
    : Elsewhere (tagRefKey tag entityId author) := by
  show some 't' ≠ some 'c'
  decide

theorem countKey_ne (elsewhere : Elsewhere place) : countKey direction entityId type ≠ place := by
  rintro rfl
  exact elsewhere head_countKey

theorem getElem?_putCount (elsewhere : Elsewhere place)
    : (putCount db direction entityId type count)[place]? = db[place]? := by
  rw [putCount, Std.ExtTreeMap.getElem?_insert, if_neg]
  exact fun same => countKey_ne elsewhere (Std.LawfulEqCmp.eq_of_compare same)

theorem edgeAt_putCount (elsewhere : Elsewhere place)
    : edgeAt (putCount db direction entityId type count) place = edgeAt db place := by
  rw [edgeAt, edgeAt, getElem?_putCount elsewhere]

/-- A scan that starts elsewhere finds no counter. -/
theorem stream_putCount {start : List (List Char)}
    (elsewhere : Elsewhere (joined ':' (start ++ [[]]))) (some_ : joined ':' (start ++ [[]]) ≠ [])
    : stream (putCount db direction entityId type count) start = stream db start := by
  have out : Joined.inRange (joined ':' (start ++ [[]]))
      (countKey direction entityId type) = false := by
    rw [← Bool.not_eq_true, Joined.inRange_iff]
    rintro ⟨rest, same, _⟩
    obtain ⟨c, text, is⟩ := List.exists_cons_of_ne_nil some_
    have head : (countKey direction entityId type).head? = some c := by rw [same, is]; rfl
    rw [head_countKey] at head
    exact elsewhere (by rw [is, head]; rfl)
  rw [stream, stream, putCount, Table.filter_insert out]

/-- The key of a plain counter is no other's: another would have more colons in it. -/
theorem countKey_inj {direction' : Direction} {entityId' type' : String}
    (plain : Plain entityId ∧ Plain type)
    (same : countKey direction entityId type = countKey direction' entityId' type')
    : direction = direction' ∧ entityId = entityId' ∧ type = type' := by
  have colons := congrArg (List.count ':') same
  have here : List.count ':' entityId.toList = 0 ∧ List.count ':' type.toList = 0 :=
    ⟨List.count_eq_zero.mpr plain.1, List.count_eq_zero.mpr plain.2⟩
  have plain' : Plain entityId' ∧ Plain type' := by
    rw [Plain, Plain, ← List.count_eq_zero, ← List.count_eq_zero]
    have fixed : List.count ':' "cnt".toList = 0 ∧ List.count ':' "in".toList = 0
        ∧ List.count ':' "out".toList = 0 := by decide
    simp only [countKey, joined, List.count_append, List.count_cons, beq_self_eq_true, if_true,
      apply_ite String.toList, apply_ite (List.count ':'), fixed, here, ite_self] at colons
    omega
  have entries := key_inj (.count direction entityId type) (.count direction' entityId' type') plain
    plain' same
  simpa using entries

theorem getCount_putCount {direction' : Direction} {entityId' type' : String}
    (plain : Plain entityId ∧ Plain type)
    : getCount (putCount db direction entityId type count) direction' entityId' type'
      = if (⟨direction', entityId', type'⟩ : Counter) = ⟨direction, entityId, type⟩ then count
        else getCount db direction' entityId' type' := by
  rw [getCount, putCount, Std.ExtTreeMap.getElem?_insert]
  by_cases same : (⟨direction', entityId', type'⟩ : Counter) = ⟨direction, entityId, type⟩
  · cases same
    rw [if_pos Std.compare_self, if_pos rfl]
  · have apart : compare (countKey direction entityId type) (countKey direction' entityId' type')
        ≠ .eq := fun is => by
      obtain ⟨rfl, rfl, rfl⟩ := countKey_inj plain (Std.LawfulEqCmp.eq_of_compare is)
      exact same rfl
    rw [if_neg apart, if_neg same, getCount]

/-- What is answered of other things than a counter is the same. -/
theorem answers_putCount (referring : Referring db) (plain : Plain entityId ∧ Plain type)
    : answers (putCount db direction entityId type count)
      = (answers db).counting ⟨direction, entityId, type⟩ count := by
  have stream_ : ∀ first more, first ≠ [] → Elsewhere first →
      stream (putCount db direction entityId type count) (first :: more)
        = stream db (first :: more) := by
    intro first more filled elsewhere
    obtain ⟨c, rest, rfl⟩ := List.exists_cons_of_ne_nil filled
    have starts : joined ':' ((c :: rest) :: more ++ [[]])
        = c :: (rest ++ ':' :: joined ':' (more ++ [[]])) := by
      rw [List.cons_append, Joined.joined_cons (by simp)]
      rfl
    refine stream_putCount ?_ ?_ <;> rw [starts]
    · exact elsewhere
    · exact List.cons_ne_nil _ _
  ext1
  · funext source type' target
    simp only [answers, Answers.counting, activeEdge, getElem?_putCount (elsewhere_activeKey _ _ _)]
    cases is : db[activeKey source type' target]? with
    | none => rfl
    | some there =>
        cases there with
        | ref key => exact edgeAt_putCount (referring _ key is)
        | _ => rfl
  · funext id direction' type' reverse
    have refs : ∀ found ∈ stream db ([['i'], "in".toList, id.toList] ++ wanted type'), ∀ key,
        found = .ref key → edgeAt (putCount db direction entityId type count) key = edgeAt db key := by
      rintro _ mem key rfl
      simp only [stream, List.mem_map, Prod.exists, exists_eq_right,
        Std.ExtTreeMap.mem_toList_iff_getElem?_eq_some, Std.ExtTreeMap.getElem?_filter',
        Option.filter_eq_some_iff] at mem
      obtain ⟨place, there, _⟩ := mem
      exact edgeAt_putCount (referring place key there)
    cases direction' with
    | outgoing =>
        simp only [answers, Answers.counting, edges, base_wanted, reduceCtorEq, if_false]
        rw [List.cons_append, stream_ _ _ (by decide) (by decide)]
    | incoming =>
        simp only [answers, Answers.counting, edges, base_wanted, if_true]
        rw [List.cons_append, stream_ _ _ (by decide) (by decide), ← List.cons_append]
        refine congrArg (fun found : List (EdgeRecord Number) =>
          if reverse = true then found.reverse else found) (List.filterMap_congr fun found mem => ?_)
        cases found with
        | ref key => exact refs _ mem key rfl
        | _ => rfl
  · funext direction' entityId' type'
    exact getCount_putCount plain
  · funext tag
    cases tag <;> exact congrArg (List.filterMap _) (stream_ _ _ (List.cons_ne_nil _ _) (by decide))
  · funext id tag
    simp only [answers, Answers.counting, hasTag]
    rw [stream_ _ _ (by decide) (by decide)]

theorem insert_putCount {json : Json Number} (elsewhere : Elsewhere place)
    : (putCount db direction entityId type count).insert place json
      = putCount (db.insert place json) direction entityId type count :=
  Table.insert_comm (countKey_ne elsewhere)

theorem erase_putCount (elsewhere : Elsewhere place)
    : (putCount db direction entityId type count).erase place
      = putCount (db.erase place) direction entityId type count :=
  Table.erase_insert (countKey_ne elsewhere)

/-- Another write may come before a count. -/
theorem write_putCount (referring : Referring db) {write : Write Number} (other : write.Other)
    : Layout1.write json (putCount db direction entityId type count) write
      = putCount (Layout1.write json db write) direction entityId type count := by
  cases write with
  | putCount => cases other
  | addEdge e =>
      simp only [Layout1.write, addEdge, insert_putCount (elsewhere_edgeKey _ _ _ _),
        insert_putCount (elsewhere_activeKey _ _ _), insert_putCount (elsewhere_inKey _ _ _ _)]
  | removeEdge source type' createdAt target =>
      simp only [Layout1.write, removeEdge, edgeAt_putCount (elsewhere_edgeKey _ _ _ _)]
      split <;>
      simp only [insert_putCount (elsewhere_edgeKey _ _ _ _), erase_putCount (elsewhere_inKey _ _ _ _),
        erase_putCount (elsewhere_activeKey _ _ _)]
  | addTag t =>
      simp only [Layout1.write, addTag, insert_putCount (elsewhere_tagKey _ _ _ _),
        insert_putCount (elsewhere_tagRefKey _ _ _)]
  | removeTag tag id author =>
      simp only [Layout1.write, removeTag, getElem?_putCount (elsewhere_tagRefKey _ _ _)]
      split
      · rename_i key is
        simp only [erase_putCount (referring _ key is), erase_putCount (elsewhere_tagRefKey _ _ _)]
      · simp only [erase_putCount (elsewhere_tagRefKey _ _ _)]

theorem countAt_insert {json : Json Number} (elsewhere : Elsewhere place)
    : (db.insert place json)[countKey direction entityId type]?
      = db[countKey direction entityId type]? := by
  rw [Std.ExtTreeMap.getElem?_insert, if_neg]
  exact fun is => countKey_ne elsewhere (Std.LawfulEqCmp.eq_of_compare is).symm

theorem countAt_erase (elsewhere : Elsewhere place)
    : (db.erase place)[countKey direction entityId type]?
      = db[countKey direction entityId type]? := by
  rw [Std.ExtTreeMap.getElem?_erase, if_neg]
  exact fun is => countKey_ne elsewhere (Std.LawfulEqCmp.eq_of_compare is).symm

/-- Other writes leave the counters. -/
theorem getCount_write (referring : Referring db) {write : Write Number} (other : write.Other)
    : getCount (Layout1.write json db write) = getCount db := by
  funext direction entityId type
  have same : (Layout1.write json db write)[countKey direction entityId type]?
      = db[countKey direction entityId type]? := by
    cases write with
    | putCount => cases other
    | addEdge e =>
        simp only [Layout1.write, addEdge]
        rw [countAt_insert (elsewhere_inKey _ _ _ _), countAt_insert (elsewhere_activeKey _ _ _),
          countAt_insert (elsewhere_edgeKey _ _ _ _)]
    | removeEdge source type' createdAt target =>
        simp only [Layout1.write, removeEdge]
        rw [countAt_erase (elsewhere_activeKey _ _ _), countAt_erase (elsewhere_inKey _ _ _ _)]
        split
        · rw [countAt_insert (elsewhere_edgeKey _ _ _ _)]
        · rfl
    | addTag t =>
        simp only [Layout1.write, addTag]
        rw [countAt_insert (elsewhere_tagRefKey _ _ _), countAt_insert (elsewhere_tagKey _ _ _ _)]
    | removeTag tag id author =>
        simp only [Layout1.write, removeTag]
        split
        · rename_i key is
          rw [countAt_erase (elsewhere_tagRefKey _ _ _), countAt_erase (referring _ key is)]
        · rw [countAt_erase (elsewhere_tagRefKey _ _ _)]
  rw [getCount, getCount, same]

theorem referring_insert (referring : Referring db) {found : Json Number}
    (fine : ∀ key, found = .ref key → Elsewhere key)
    : Referring (db.insert place found) := by
  intro other key is
  rw [Std.ExtTreeMap.getElem?_insert] at is
  split at is
  · exact fine key (Option.some.inj is)
  · exact referring other key is

theorem referring_erase (referring : Referring db) : Referring (db.erase place) := by
  intro other key is
  rw [Std.ExtTreeMap.getElem?_erase] at is
  split at is
  · cases is
  · exact referring other key is

/-- Every write refers to what isn't a counter. -/
theorem referring_write (referring : Referring db) (write : Write Number)
    : Referring (Layout1.write json db write) := by
  cases write with
  | putCount direction entityId type count => exact referring_insert referring (fun _ same => by cases same)
  | addEdge e =>
      refine referring_insert (referring_insert
        (referring_insert referring (fun _ same => by cases same)) ?_) ?_ <;>
      · rintro _ ⟨⟩
        exact elsewhere_edgeKey _ _ _ _
  | removeEdge source type' createdAt target =>
      refine referring_erase (referring_erase ?_)
      split
      · exact referring_insert referring (fun _ same => by cases same)
      · exact referring
  | addTag t =>
      refine referring_insert
        (referring_insert referring (fun _ same => by cases same)) ?_
      rintro _ ⟨⟩
      exact elsewhere_tagKey _ _ _ _
  | removeTag tag id author =>
      simp only [Layout1.write, removeTag]
      split
      · exact referring_erase (referring_erase referring)
      · exact referring_erase referring

end Layout1

/-- The first layout keeps each counter of an id and a type without colons apart. -/
theorem layout1_apart (json : Number → Option Number)
    : (layout1 json).Apart Layout1.Referring
        fun counter => Plain counter.entityId ∧ Plain counter.type where
  keeps write referring := Layout1.referring_write referring write
  answers referring plain _ := Layout1.answers_putCount referring plain
  getCount referring other := Layout1.getCount_write referring other
  write referring other := Layout1.write_putCount referring other
  again := Table.insert_insert
  comm := by
    rintro db ⟨direction, entityId, type⟩ ⟨direction', entityId', type'⟩ _ _ plain _ apart
    refine Table.insert_comm fun same => apart ?_
    obtain ⟨rfl, rfl, rfl⟩ := Layout1.countKey_inj plain same
    rfl

end Layouts

end Hypergraph.Engine
