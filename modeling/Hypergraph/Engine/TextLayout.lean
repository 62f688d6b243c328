import Hypergraph.Engine.Indexes

/-! The first layout has an index's entries where no id, type, tag or author has a colon in it: its
keys are these joined by colons, and are scanned by how they start.
-/

namespace Hypergraph.Engine

open Wire

namespace Layouts

variable {Number : Type}

/-- A text without a colon. -/
def Plain (text : String) : Prop := ':' ∉ text.toList

/-- A text that doesn't start past the last two-byte character: scans end there. -/
def Low (text : String) : Prop := text.toList.head?.all (· < '\uffff') = true

instance : DecidablePred Plain := fun text => inferInstanceAs (Decidable (':' ∉ text.toList))

instance : DecidablePred Low := fun text =>
  inferInstanceAs (Decidable (text.toList.head?.all (· < '\uffff') = true))

namespace Layout1

-- Keys

/-- What an entry's key is joined of. -/
def parts : Entry → List (List Char)
  | .edge source type time target =>
      [['e'], source.toList, type.toList, toSortableTs time, target.toList]
  | .incoming target type time source =>
      [['i'], "in".toList, target.toList, type.toList, toSortableTs time, source.toList]
  | .active source type target => ["er".toList, source.toList, type.toList, target.toList]
  | .count direction entityId type =>
      ["cnt".toList, (if direction = .incoming then "in" else "out").toList, entityId.toList,
        type.toList]
  | .tag tag time entityId author =>
      [['t'], tag.toList, toSortableTs time, entityId.toList, author.toList]
  | .tagRef tag entityId author => ["tref".toList, tag.toList, entityId.toList, author.toList]

def key (entry : Entry) : List Char := joined ':' (parts entry)

def value : (entry : Entry) → Stored Number entry → Json Number
  | .edge source type time target, v => .edge ⟨source, target, type, authorFromEntityId source, time,
      v.deleted, v.value.map some, v.data⟩
  | .incoming target type time source, _ => .ref (edgeKey source type time target)
  | .active source type target, time => .ref (edgeKey source type time target)
  | .count _ _ _, count => .count count
  | .tag tag time entityId author, _ => .tag ⟨entityId, tag, author, time⟩
  | .tagRef tag entityId author, time => .ref (tagKey tag time entityId author)

/-- An entry that its key tells. -/
def Named : Entry → Prop
  | .edge source type time target => Plain source ∧ Plain type ∧ time ≤ maxSafeInteger ∧ Plain target
  | .incoming target type time source =>
      Plain target ∧ Plain type ∧ time ≤ maxSafeInteger ∧ Plain source
  | .active source type target => Plain source ∧ Plain type ∧ Plain target
  | .count _ entityId type => Plain entityId ∧ Plain type
  | .tag tag time entityId author =>
      Plain tag ∧ time ≤ maxSafeInteger ∧ Plain entityId ∧ Plain author
  | .tagRef tag entityId author => Plain tag ∧ Plain entityId ∧ Plain author

/-- An entry that scans find, and what is found by it. -/
def Found : (entry : Entry) → Stored Number entry → Prop
  | .edge _ type _ _, _ => Low type
  | .incoming _ type _ _, _ => Low type
  | .active _ _ _, time => time ≤ maxSafeInteger
  | .count _ _ _, _ => True
  | .tag tag _ _ _, _ => Low tag
  | .tagRef _ _ author, time => Low author ∧ time ≤ maxSafeInteger

theorem toSortableTs_plain (ts : Nat) : ':' ∉ toSortableTs ts := fun mem =>
  absurd (Digits.isDigit_of_mem_padded mem) (by decide)

theorem toSortableTs_inj {ts ts' : Nat} (safe : ts ≤ maxSafeInteger) (safe' : ts' ≤ maxSafeInteger)
    (same : toSortableTs ts = toSortableTs ts')
    : ts = ts' := by
  have is := Digits.padded_injective 16 same
  rwa [Nat.min_eq_left safe, Nat.min_eq_left safe'] at is

theorem parts_plain {entry : Entry} (named : Named entry) : ∀ part ∈ parts entry, ':' ∉ part := by
  have ts := toSortableTs_plain
  have none_ : ∀ part ∈ ([] : List (List Char)), ':' ∉ part := by simp
  cases entry with
  | edge source type time target =>
      obtain ⟨source_, type_, _, target_⟩ := named
      simp only [parts, List.forall_mem_cons]
      exact ⟨by decide, source_, type_, ts time, target_, none_⟩
  | incoming target type time source =>
      obtain ⟨target_, type_, _, source_⟩ := named
      simp only [parts, List.forall_mem_cons]
      exact ⟨by decide, by decide, target_, type_, ts time, source_, none_⟩
  | active source type target =>
      obtain ⟨source_, type_, target_⟩ := named
      simp only [parts, List.forall_mem_cons]
      exact ⟨by decide, source_, type_, target_, none_⟩
  | count direction entityId type =>
      obtain ⟨entityId_, type_⟩ := named
      simp only [parts, List.forall_mem_cons]
      exact ⟨by decide, by cases direction <;> decide, entityId_, type_, none_⟩
  | tag tag time entityId author =>
      obtain ⟨tag_, _, entityId_, author_⟩ := named
      simp only [parts, List.forall_mem_cons]
      exact ⟨by decide, tag_, ts time, entityId_, author_, none_⟩
  | tagRef tag entityId author =>
      obtain ⟨tag_, entityId_, author_⟩ := named
      simp only [parts, List.forall_mem_cons]
      exact ⟨by decide, tag_, entityId_, author_, none_⟩

theorem key_inj (entry entry' : Entry) (named : Named entry) (named' : Named entry')
    (same : key entry = key entry')
    : entry = entry' := by
  have is : parts entry = parts entry' :=
    Joined.joined_inj (by cases entry <;> simp [parts]) (by cases entry' <;> simp [parts])
      (parts_plain named) (parts_plain named') same
  cases entry with
  | edge source type time target =>
      cases entry' <;> simp [parts, String.toList_inj] at is
      obtain ⟨rfl, rfl, time_, rfl⟩ := is
      rw [toSortableTs_inj named.2.2.1 named'.2.2.1 time_]
  | incoming target type time source =>
      cases entry' <;> simp [parts, String.toList_inj] at is
      obtain ⟨rfl, rfl, time_, rfl⟩ := is
      rw [toSortableTs_inj named.2.2.1 named'.2.2.1 time_]
  | active source type target =>
      cases entry' <;> simp [parts, String.toList_inj] at is
      obtain ⟨rfl, rfl, rfl⟩ := is
      rfl
  | count direction entityId type =>
      cases entry' <;> simp [parts, String.toList_inj] at is
      rename_i direction' _ _
      obtain ⟨direction_, rfl, rfl⟩ := is
      cases direction <;> cases direction' <;> simp at direction_ <;> rfl
  | tag tag time entityId author =>
      cases entry' <;> simp [parts, String.toList_inj] at is
      obtain ⟨rfl, time_, rfl, rfl⟩ := is
      rw [toSortableTs_inj named.2.1 named'.2.1 time_]
  | tagRef tag entityId author =>
      cases entry' <;> simp [parts, String.toList_inj] at is
      obtain ⟨rfl, rfl, rfl⟩ := is
      rfl

-- Writes

/-- The table has the index's entries. -/
abbrev Has (db : Db Number) (ix : Index Number) : Prop :=
  Represents Named Found key value db ix

/-- A write that keeps entries apart: no text in it has a colon, what scans look for doesn't start
too high, its time is a safe integer and its value is a number in JSON.
-/
def Keeps (json : Number → Option Number) : Write Number → Prop
  | .addEdge e =>
      Plain e.source ∧ Plain e.type ∧ Low e.type ∧ Plain e.target ∧ e.createdAt ≤ maxSafeInteger
        ∧ ∀ value, e.value = some value → json value = some value
  | .removeEdge source type _ target => Plain source ∧ Plain type ∧ Plain target
  | .putCount _ entityId type _ => Plain entityId ∧ Plain type
  | .addTag t => Plain t.tag ∧ Low t.tag ∧ Plain t.entityId ∧ Plain t.author ∧ Low t.author
      ∧ t.createdAt ≤ maxSafeInteger
  | .removeTag tag entityId author => Plain tag ∧ Plain entityId ∧ Plain author

variable {json : Number → Option Number} {db : Db Number} {ix : Index Number}

theorem Has.edgeAt (has : Has db ix) {source type : String} {time : Nat} {target : String}
    (named : Named (.edge source type time target))
    : Layout1.edgeAt db (edgeKey source type time target) = ix.edgeAt source type time target := by
  have there := has.get _ named
  rw [Layout1.edgeAt, Index.edgeAt]
  rw [key, parts, ← edgeKey] at there
  rw [there]
  cases ix (.edge source type time target) <;> rfl

theorem Has.addEdge (has : Has db ix) {e : Edge Number} (keeps : Keeps json (.addEdge e))
    (author : authorFromEntityId e.source = some e.author)
    : Has (addEdge json db e) (ix.addEdge e) := by
  obtain ⟨source, type, low, target, safe, value_⟩ := keeps
  have time := keyTime_eq safe
  have put := ((has.put key_inj (.edge e.source e.type e.createdAt e.target)
      ⟨false, e.value, e.data⟩ ⟨source, type, safe, target⟩ low).put key_inj
    (.active e.source e.type e.target) e.createdAt ⟨source, type, target⟩ safe).put key_inj
    (.incoming e.target e.type e.createdAt e.source) () ⟨target, type, safe, source⟩ low
  have same : e.value.map json = e.value.map some := by
    cases is : e.value with
    | none => rfl
    | some number => simp [value_ number is]
  rw [Layout1.addEdge, Index.addEdge, time, same, ← author]
  exact put

theorem Has.removeEdge (has : Has db ix) {source type target : String} {createdAt : Nat}
    (keeps : Keeps json (.removeEdge source type createdAt target))
    : Has (removeEdge db source type createdAt target)
        (ix.removeEdge source type createdAt target) := by
  obtain ⟨source_, type_, target_⟩ := keeps
  have safe := keyTime_le createdAt
  have named : Named (.edge source type (keyTime createdAt) target) :=
    ⟨source_, type_, safe, target_⟩
  have key_ : edgeKey source type createdAt target = edgeKey source type (keyTime createdAt) target := by
    rw [edgeKey, edgeKey, toSortableTs_keyTime]
  have inKey_ : inKey target type createdAt source = inKey target type (keyTime createdAt) source := by
    rw [inKey, inKey, toSortableTs_keyTime]
  have at_ := has.edgeAt named
  rw [Index.edgeAt] at at_
  rw [Layout1.removeEdge, Index.removeEdge]
  simp only [key_, inKey_, at_]
  cases is : ix (.edge source type (keyTime createdAt) target) with
  | none =>
      exact (has.del key_inj (.incoming target type (keyTime createdAt) source)
        ⟨target_, type_, safe, source_⟩).del key_inj (.active source type target)
        ⟨source_, type_, target_⟩
  | some v =>
      have put := has.put key_inj (.edge source type (keyTime createdAt) target)
        { v with deleted := true } named (has.fits _ v is).2
      exact (put.del key_inj (.incoming target type (keyTime createdAt) source)
        ⟨target_, type_, safe, source_⟩).del key_inj (.active source type target)
        ⟨source_, type_, target_⟩

theorem Has.addTag (has : Has db ix) {t : TagRecord}
    (keeps : Keeps json (.addTag t))
    : Has (addTag db t) (ix.addTag t) := by
  obtain ⟨tag, low, entityId, author, low', safe⟩ := keeps
  have put := (has.put key_inj (.tag t.tag t.createdAt t.entityId t.author) ()
    ⟨tag, safe, entityId, author⟩ low).put key_inj (.tagRef t.tag t.entityId t.author)
    t.createdAt ⟨tag, entityId, author⟩ ⟨low', safe⟩
  rw [Layout1.addTag, Index.addTag, keyTime_eq safe]
  exact put

theorem Has.removeTag (has : Has db ix) {tag entityId author : String}
    (keeps : Keeps json (.removeTag tag entityId author))
    : Has (removeTag db tag entityId author) (ix.removeTag tag entityId author) := by
  obtain ⟨tag_, entityId_, author_⟩ := keeps
  have there : db[tagRefKey tag entityId author]?
      = (ix (.tagRef tag entityId author)).map fun time => .ref (tagKey tag time entityId author) :=
    has.get (.tagRef tag entityId author) ⟨tag_, entityId_, author_⟩
  rw [Layout1.removeTag, Index.removeTag]
  simp only [there]
  cases is : ix (.tagRef tag entityId author) with
  | none => exact has.del key_inj (.tagRef tag entityId author) ⟨tag_, entityId_, author_⟩
  | some time =>
      have safe := (has.fits _ time is).2.2
      exact (has.del key_inj (.tag tag time entityId author) ⟨tag_, safe, entityId_, author_⟩).del
        key_inj (.tagRef tag entityId author) ⟨tag_, entityId_, author_⟩

/-- A write that keeps entries apart is one to the index. -/
theorem Has.write (has : Has db ix) {write : Write Number} (keeps : Keeps json write)
    (author : ∀ e, write = .addEdge e → authorFromEntityId e.source = some e.author)
    : Has (Layout1.write json db write) (ix.write write) := by
  cases write with
  | addEdge e => exact has.addEdge keeps (author e rfl)
  | removeEdge source type createdAt target => exact has.removeEdge keeps
  | putCount direction entityId type count =>
      exact has.put key_inj (.count direction entityId type) count keeps trivial
  | addTag t => exact has.addTag keeps
  | removeTag tag entityId author => exact has.removeTag keeps

-- Reads

theorem Has.activeEdge (has : Has db ix) {source type target : String}
    (source_ : Plain source) (type_ : Plain type) (target_ : Plain target)
    : activeEdge db source type target = ix.activeEdge source type target := by
  have there : db[activeKey source type target]?
      = (ix (.active source type target)).map fun time =>
          .ref (edgeKey source type time target) :=
    has.get (.active source type target) ⟨source_, type_, target_⟩
  rw [Layout1.activeEdge, Index.activeEdge, there]
  cases is : ix (.active source type target) with
  | none => rfl
  | some time => exact has.edgeAt ⟨source_, type_, (has.fits _ time is).2, target_⟩

theorem Has.getCount (has : Has db ix) {direction : Direction} {entityId type : String}
    (entityId_ : Plain entityId) (type_ : Plain type)
    : getCount db direction entityId type = ix.getCount direction entityId type := by
  have there : db[countKey direction entityId type]?
      = (ix (.count direction entityId type)).map .count :=
    has.get (.count direction entityId type) ⟨entityId_, type_⟩
  rw [Layout1.getCount, Index.getCount, there]
  cases ix (.count direction entityId type) <;> rfl

theorem low_joined {first : List Char} {more : List (List Char)}
    (low : first.head?.all (· < '\uffff') = true)
    : (joined ':' (first :: more)).head?.all (· < '\uffff') = true := by
  cases more with
  | nil => exact low
  | cons next more =>
      cases first with
      | nil => rfl
      | cons c first => exact low

/-- A scan finds the entries whose keys start with the parts, where what goes on with them is low. -/
theorem Has.mem_stream (has : Has db ix) {start : List (List Char)} (some_ : start ≠ [])
    (free : ∀ part ∈ start, ':' ∉ part) {found : Json Number}
    (low : ∀ entry stored first more, ix entry = some stored → parts entry = start ++ first :: more →
      first.head?.all (· < '\uffff') = true)
    : found ∈ stream db start
      ↔ ∃ entry stored, ix entry = some stored ∧ (∃ first more, parts entry = start ++ first :: more)
        ∧ found = value entry stored := by
  have start_ : joined ':' (start ++ [[]]) = joined ':' start ++ [':'] :=
    Joined.joined_append some_ (List.cons_ne_nil _ _)
  simp only [stream, List.mem_map, Prod.exists, exists_eq_right,
    Std.ExtTreeMap.mem_toList_iff_getElem?_eq_some, Std.ExtTreeMap.getElem?_filter', start_]
  constructor
  · rintro ⟨place, there⟩
    obtain ⟨there, range⟩ := Option.filter_eq_some_iff.mp there
    obtain ⟨entry, stored, is, rfl, same⟩ := has.of_get there
    obtain ⟨rest, split, _⟩ := Joined.inRange_iff.mp range
    rw [List.append_assoc, List.singleton_append] at split
    obtain ⟨more, filled, told, _⟩ := Joined.append_of_joined some_ free
      (parts_plain (has.fits _ _ is).1) split.symm
    obtain ⟨first, more, rfl⟩ := List.exists_cons_of_ne_nil filled
    exact ⟨entry, stored, is, ⟨first, more, told⟩, same.symm⟩
  · rintro ⟨entry, stored, is, ⟨first, more, told⟩, rfl⟩
    have there := has.get entry (has.fits _ _ is).1
    rw [is, Option.map_some] at there
    refine ⟨key entry, Option.filter_eq_some_iff.mpr ⟨there, Joined.inRange_iff.mpr ?_⟩⟩
    refine ⟨joined ':' (first :: more), ?_, low_joined (low entry stored first more is told)⟩
    rw [key, told, Joined.joined_append some_ (List.cons_ne_nil _ _), List.append_assoc,
      List.singleton_append]

/-- An entry is of an edge as its key starts. -/
theorem edge_of_parts {entry : Entry} {rest : List (List Char)} (told : parts entry = ['e'] :: rest)
    : ∃ source type time target, entry = .edge source type time target
      ∧ rest = [source.toList, type.toList, toSortableTs time, target.toList] := by
  cases entry <;> simp [parts] at told
  exact ⟨_, _, _, _, rfl, told.symm⟩

theorem incoming_of_parts {entry : Entry} {rest : List (List Char)}
    (told : parts entry = ['i'] :: rest)
    : ∃ target type time source, entry = .incoming target type time source
      ∧ rest = ["in".toList, target.toList, type.toList, toSortableTs time, source.toList] := by
  cases entry <;> simp [parts] at told
  exact ⟨_, _, _, _, rfl, told.symm⟩

theorem tag_of_parts {entry : Entry} {rest : List (List Char)} (told : parts entry = ['t'] :: rest)
    : ∃ tag time entityId author, entry = .tag tag time entityId author
      ∧ rest = [tag.toList, toSortableTs time, entityId.toList, author.toList] := by
  cases entry <;> simp [parts] at told
  exact ⟨_, _, _, _, rfl, told.symm⟩

theorem tagRef_of_parts {entry : Entry} {rest : List (List Char)}
    (told : parts entry = "tref".toList :: rest)
    : ∃ tag entityId author, entry = .tagRef tag entityId author
      ∧ rest = [tag.toList, entityId.toList, author.toList] := by
  cases entry <;> simp [parts] at told
  exact ⟨_, _, _, rfl, told.symm⟩

theorem low_toSortableTs (ts : Nat) : (toSortableTs ts).head?.all (· < '\uffff') = true := by
  cases is : toSortableTs ts with
  | nil => rfl
  | cons c rest =>
      have mem : c ∈ toSortableTs ts := by simp [is]
      have digit := Digits.isDigit_of_mem_padded mem
      simp only [Char.isDigit, Bool.and_eq_true, decide_eq_true_eq] at digit
      simp only [List.head?_cons, Option.all_some, decide_eq_true_eq]
      exact Nat.lt_of_le_of_lt (show c.toNat ≤ 57 from digit.2) (by decide)

theorem wanted_iff {type : Option String} {type' : String} {ts last : List Char}
    : (∃ first more, [type'.toList, ts, last] = wanted type ++ first :: more)
      ↔ ∀ asked, required type = some asked → type' = asked := by
  cases is : required type with
  | none => simp [wanted, is]
  | some asked => simp [wanted, is, String.toList_inj]

theorem wanted_low {type : Option String} {type' : String} {time : Nat} {last first : List Char}
    {more : List (List Char)} (low : Low type')
    (told : [type'.toList, toSortableTs time, last] = wanted type ++ first :: more)
    : first.head?.all (· < '\uffff') = true := by
  cases is : required type with
  | none =>
      obtain ⟨rfl, _⟩ : type'.toList = first ∧ _ := by simpa [wanted, is] using told
      exact low
  | some asked =>
      obtain ⟨_, rfl, _⟩ : type'.toList = asked.toList ∧ toSortableTs time = first ∧ _ := by
        simpa [wanted, is] using told
      exact low_toSortableTs time

/-- The edges an entity's keys are scanned for. -/
theorem Has.outgoing (has : Has db ix) {entityId : String} {type : Option String}
    (entityId_ : Plain entityId) (type_ : ∀ asked, required type = some asked → Plain asked)
    {found : Json Number}
    : found ∈ stream db ([['e'], entityId.toList] ++ wanted type)
      ↔ ∃ type' time target v, ix (.edge entityId type' time target) = some v
        ∧ (∀ asked, required type = some asked → type' = asked)
        ∧ found = value (.edge entityId type' time target) v := by
  have free : ∀ part ∈ [['e'], entityId.toList] ++ wanted type, ':' ∉ part := by
    simp only [List.cons_append, List.nil_append, List.forall_mem_cons, wanted, List.mem_map,
      Option.mem_toList]
    refine ⟨by decide, entityId_, ?_⟩
    rintro _ ⟨asked, is, rfl⟩
    exact type_ asked is
  rw [has.mem_stream (by simp) free]
  · constructor
    · rintro ⟨entry, v, is, ⟨first, more, told⟩, rfl⟩
      obtain ⟨source, type', time, target, rfl, rest⟩ := edge_of_parts told
      obtain ⟨same, tail⟩ := List.cons.inj rest
      obtain rfl := String.toList_inj.mp same
      exact ⟨type', time, target, v, is, wanted_iff.mp ⟨first, more, tail.symm⟩, rfl⟩
    · rintro ⟨type', time, target, v, is, asked, rfl⟩
      obtain ⟨first, more, told⟩ := wanted_iff.mpr asked
      exact ⟨_, v, is, ⟨first, more, congrArg (['e'] :: entityId.toList :: ·) told⟩, rfl⟩
  · rintro entry v first more is told
    obtain ⟨source, type', time, target, rfl, rest⟩ := edge_of_parts told
    obtain ⟨_, tail⟩ := List.cons.inj rest
    exact wanted_low (has.fits _ v is).2 tail.symm

theorem Has.comingIn (has : Has db ix) {entityId : String} {type : Option String}
    (entityId_ : Plain entityId) (type_ : ∀ asked, required type = some asked → Plain asked)
    {found : Json Number}
    : found ∈ stream db ([['i'], "in".toList, entityId.toList] ++ wanted type)
      ↔ ∃ type' time source, (ix (.incoming entityId type' time source)).isSome
        ∧ (∀ asked, required type = some asked → type' = asked)
        ∧ found = .ref (edgeKey source type' time entityId) := by
  have free : ∀ part ∈ [['i'], "in".toList, entityId.toList] ++ wanted type, ':' ∉ part := by
    simp only [List.cons_append, List.nil_append, List.forall_mem_cons, wanted, List.mem_map,
      Option.mem_toList]
    refine ⟨by decide, by decide, entityId_, ?_⟩
    rintro _ ⟨asked, is, rfl⟩
    exact type_ asked is
  rw [has.mem_stream (by simp) free]
  · constructor
    · rintro ⟨entry, v, is, ⟨first, more, told⟩, rfl⟩
      obtain ⟨target, type', time, source, rfl, rest⟩ := incoming_of_parts told
      obtain ⟨_, inner⟩ := List.cons.inj rest
      obtain ⟨same, tail⟩ := List.cons.inj inner
      obtain rfl := String.toList_inj.mp same
      exact ⟨type', time, source, Option.isSome_of_eq_some is,
        wanted_iff.mp ⟨first, more, tail.symm⟩, rfl⟩
    · rintro ⟨type', time, source, there, asked, rfl⟩
      obtain ⟨v, is⟩ := Option.isSome_iff_exists.mp there
      obtain ⟨first, more, told⟩ := wanted_iff.mpr asked
      exact ⟨_, v, is, ⟨first, more,
        congrArg (['i'] :: "in".toList :: entityId.toList :: ·) told⟩, rfl⟩
  · rintro entry v first more is told
    obtain ⟨target, type', time, source, rfl, rest⟩ := incoming_of_parts told
    obtain ⟨_, tail⟩ := List.cons.inj rest
    obtain ⟨_, tail⟩ := List.cons.inj tail
    exact wanted_low (has.fits _ v is).2 tail.symm

/-- The edge that an incoming entry is of has a key that tells it. -/
theorem Has.edge_of_incoming (has : Has db ix) {target type : String} {time : Nat} {source : String}
    (there : (ix (.incoming target type time source)).isSome)
    : Named (.edge source type time target) := by
  obtain ⟨v, is⟩ := Option.isSome_iff_exists.mp there
  obtain ⟨target_, type_, safe, source_⟩ := (has.fits _ v is).1
  exact ⟨source_, type_, safe, target_⟩

/-- What a scan gives of an entry for an entity's edges. -/
theorem mem_edges {entityId : String} {direction : Direction} {type : Option String} {reverse : Bool}
    {record : EdgeRecord Number}
    : record ∈ edges db entityId direction type reverse
      ↔ match direction with
        | .outgoing => .edge record ∈ stream db ([['e'], entityId.toList] ++ wanted type)
        | .incoming => ∃ key, .ref key ∈ stream db ([['i'], "in".toList, entityId.toList] ++ wanted type)
            ∧ edgeAt db key = some record := by
  have either : ∀ found : List (EdgeRecord Number),
      record ∈ (if reverse = true then found.reverse else found) ↔ record ∈ found := fun found => by
    split
    · exact List.mem_reverse
    · exact Iff.rfl
  cases direction with
  | outgoing =>
      simp only [← base_wanted, edges, either, List.mem_filterMap]
      constructor
      · rintro ⟨found, mem, is⟩
        cases found <;> cases is
        exact mem
      · exact fun mem => ⟨_, mem, rfl⟩
  | incoming =>
      simp only [← base_wanted, edges, either, List.mem_filterMap]
      constructor
      · rintro ⟨found, mem, is⟩
        cases found with
        | ref key => exact ⟨key, mem, is⟩
        | _ => cases is
      · rintro ⟨key, mem, is⟩
        exact ⟨_, mem, is⟩

/-- The edges of an entity are those scanned for. -/
theorem Has.edges (has : Has db ix) {entityId : String} {direction : Direction}
    {type : Option String} {reverse : Bool} {record : EdgeRecord Number} (entityId_ : Plain entityId)
    (type_ : ∀ asked, required type = some asked → Plain asked)
    : record ∈ edges db entityId direction type reverse
      ↔ ix.IsEdge entityId direction type record := by
  rw [mem_edges]
  cases direction with
  | outgoing =>
      simp only [has.outgoing entityId_ type_]
      constructor
      · rintro ⟨type', time, target, v, is, asked, same⟩
        cases same
        exact ⟨asked, rfl, by simp [Index.edgeAt, is]⟩
      · rintro ⟨asked, rfl, there⟩
        obtain ⟨v, is, same⟩ := Option.map_eq_some_iff.mp there
        exact ⟨record.type, record.createdAt, record.target, v, is, asked, congrArg Json.edge same.symm⟩
  | incoming =>
      simp only [has.comingIn entityId_ type_]
      constructor
      · rintro ⟨_, ⟨type', time, source, is, asked, same⟩, there⟩
        cases same
        rw [has.edgeAt (has.edge_of_incoming is)] at there
        obtain ⟨v, is', rfl⟩ := Option.map_eq_some_iff.mp there
        exact ⟨asked, ⟨rfl, is⟩, there⟩
      · rintro ⟨asked, ⟨rfl, is⟩, there⟩
        refine ⟨_, ⟨record.type, record.createdAt, record.source, is, asked, rfl⟩, ?_⟩
        exact (has.edgeAt (has.edge_of_incoming is)).trans there

/-- The tag an entry is of, as the tags are read. -/
def tagOf : Json Number → Option TagRecord
  | .tag record => some record
  | _ => none

theorem Has.tagged (has : Has db ix) {tag : Option String} {record : TagRecord}
    (tag_ : ∀ asked, tag = some asked → Plain asked)
    : record ∈ tagged db tag ↔ ix.IsTagged tag record := by
  have free : ∀ part ∈ [['t']] ++ tag.toList.map String.toList, ':' ∉ part := by
    simp only [List.cons_append, List.nil_append, List.forall_mem_cons, List.mem_map,
      Option.mem_toList]
    refine ⟨by decide, ?_⟩
    rintro _ ⟨asked, is, rfl⟩
    exact tag_ asked is
  have scanned : record ∈ Layout1.tagged db tag
      ↔ .tag record ∈ stream db ([['t']] ++ tag.toList.map String.toList) := by
    have same : Layout1.tagged db tag
        = (stream db ([['t']] ++ tag.toList.map String.toList)).filterMap tagOf := by
      cases tag <;> rfl
    rw [same, List.mem_filterMap]
    constructor
    · rintro ⟨found, mem, is⟩
      cases found <;> cases is
      exact mem
    · exact fun mem => ⟨_, mem, rfl⟩
  rw [scanned, has.mem_stream (by simp) free]
  · constructor
    · rintro ⟨entry, v, is, ⟨first, more, told⟩, same⟩
      obtain ⟨tag', time, entityId, author, rfl, rest⟩ := tag_of_parts told
      cases same
      refine ⟨fun asked is => ?_, Option.isSome_of_eq_some is⟩
      subst is
      exact String.toList_inj.mp (List.cons.inj rest).1.symm
    · rintro ⟨asked, there⟩
      obtain ⟨v, is⟩ := Option.isSome_iff_exists.mp there
      refine ⟨_, v, is, ?_, rfl⟩
      cases tag with
      | none => exact ⟨_, _, rfl⟩
      | some tag =>
          obtain rfl := asked tag rfl
          exact ⟨_, _, rfl⟩
  · rintro entry v first more is told
    obtain ⟨tag', time, entityId, author, rfl, rest⟩ := tag_of_parts told
    cases tag with
    | none =>
        rw [(List.cons.inj rest).1]
        exact (has.fits _ v is).2
    | some tag =>
        rw [(List.cons.inj (List.cons.inj rest).2).1]
        exact low_toSortableTs time

theorem Has.hasTag (has : Has db ix) {entityId tag : String} (entityId_ : Plain entityId)
    (tag_ : Plain tag)
    : hasTag db entityId tag ↔ ix.HasTag entityId tag := by
  have free : ∀ part ∈ ["tref".toList, tag.toList, entityId.toList], ':' ∉ part := by
    simp only [List.forall_mem_cons]
    exact ⟨by decide, tag_, entityId_, by simp⟩
  have low : ∀ entry stored first more, ix entry = some stored
      → parts entry = ["tref".toList, tag.toList, entityId.toList] ++ first :: more
      → first.head?.all (· < '\uffff') = true := by
    rintro entry v first more is told
    obtain ⟨tag', entityId', author, rfl, rest⟩ := tagRef_of_parts told
    rw [(List.cons.inj (List.cons.inj (List.cons.inj rest).2).2).1]
    exact (has.fits _ v is).2.1
  simp only [Layout1.hasTag, decide_eq_true_eq, ne_eq, List.eq_nil_iff_forall_not_mem, not_forall,
    not_not, has.mem_stream (List.cons_ne_nil _ _) free low]
  constructor
  · rintro ⟨_, entry, v, is, ⟨first, more, told⟩, _⟩
    obtain ⟨tag', entityId', author, rfl, rest⟩ := tagRef_of_parts told
    obtain ⟨same, tail⟩ := List.cons.inj rest
    obtain rfl := String.toList_inj.mp same
    obtain rfl := String.toList_inj.mp (List.cons.inj tail).1
    exact ⟨author, Option.isSome_of_eq_some is⟩
  · rintro ⟨author, there⟩
    obtain ⟨v, is⟩ := Option.isSome_iff_exists.mp there
    exact ⟨_, _, v, is, ⟨_, _, rfl⟩, rfl⟩

end Layout1

end Layouts

end Hypergraph.Engine
