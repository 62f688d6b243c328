import Mathlib.Data.List.TakeWhile
import Hypergraph.Engine.Indexes

/-! The second layout has an index's entries whatever their ids, types, tags and authors: its keys
are tuples, and an id's members give the id again.
-/

namespace Hypergraph.Engine

open Wire

namespace Layouts

variable {Number : Type}

-- Ids and authors as members

theorem splitLast_eq {text first last : List Char} (split : splitLast text = some (first, last))
    : text = first ++ '/' :: last := by
  unfold splitLast at split
  split at split
  · rename_i mem
    obtain ⟨rfl, rfl⟩ := split
    have whole := List.takeWhile_append_dropWhile (p := fun c : Char => decide (c ≠ '/'))
      (l := text.reverse)
    cases is : text.reverse.dropWhile (fun c => decide (c ≠ '/')) with
    | nil =>
        have none_ := List.dropWhile_eq_nil_iff.mp is '/' (List.mem_reverse.mpr mem)
        simp at none_
    | cons c tail =>
        have slash : c = '/' := by
          have head := List.head?_dropWhile_not (fun c : Char => decide (c ≠ '/')) text.reverse
          rw [is] at head
          simpa using head
        rw [is, slash] at whole
        have turned := congrArg List.reverse whole
        rw [List.reverse_reverse, List.reverse_append, List.reverse_cons, List.append_assoc,
          List.singleton_append] at turned
        exact turned.symm
  · cases split

theorem isHex64_iff {text : String}
    : isHex64 text ↔ text.toList.length = 64
      ∧ ∀ c ∈ text.toList, ('0' ≤ c ∧ c ≤ '9') ∨ ('a' ≤ c ∧ c ≤ 'f') := by
  simp [isHex64]

theorem hexChars_of_isHex64 {text : List Char} (is : isHex64 (String.ofList text))
    : hexChars (hexBytes text) = text := by
  obtain ⟨length, lower⟩ := isHex64_iff.mp is
  rw [String.toList_ofList] at length lower
  exact hexChars_hexBytes lower (by rw [length])

theorem hexBytes_ne_nil {text : List Char} (is : isHex64 (String.ofList text))
    : hexBytes text ≠ [] := by
  intro none_
  have same := hexChars_of_isHex64 is
  rw [none_] at same
  have length := (isHex64_iff.mp is).1
  rw [String.toList_ofList, ← same] at length
  cases length

theorem fromKeyParts_toKeyParts (id : String) : fromKeyParts (toKeyParts id) = id := by
  unfold toKeyParts
  cases is : parseEntityId id with
  | none => rfl
  | some parsed =>
      obtain ⟨type, author, seq⟩ := parsed
      simp only [parseEntityId, Option.bind_eq_bind, Option.bind_eq_some_iff, Prod.exists] at is
      obtain ⟨rest, seqText, outer, type', hex, inner, is⟩ := is
      split at is
      · cases is
      · rename_i formed
        rw [not_or, not_not, not_not] at formed
        split at is
        · obtain ⟨rfl, rfl, rfl⟩ := is
          rw [Option.getD_some, fromKeyParts, if_pos (hexBytes_ne_nil formed.1), formatEntityId,
            String.toList_ofList, hexChars_of_isHex64 formed.1,
            Digits.toDigits_ofDigitChars formed.2, ← splitLast_eq inner, ← splitLast_eq outer,
            String.ofList_toList]
        · cases is

theorem authorFromParts_authorParts (author : String)
    : authorFromParts (authorParts author) = author := by
  unfold authorParts
  split
  · rename_i is
    rw [← String.ofList_toList (s := author)] at is
    have same := hexChars_of_isHex64 is
    rw [authorFromParts, fromHex, if_pos (hexBytes_ne_nil is), toHex, same, String.ofList_toList]
  · rfl


namespace Layout2

theorem idMembers_eq (id : String)
    : ∃ typeOrRaw author seq, idMembers id = [.string typeOrRaw, .buffer author, .uint seq]
      ∧ fromKeyParts (typeOrRaw, author, seq) = id := by
  refine ⟨(toKeyParts id).1, (toKeyParts id).2.1, (toKeyParts id).2.2, rfl, ?_⟩
  exact fromKeyParts_toKeyParts id

theorem authorMembers_eq (author : String)
    : ∃ key raw, authorMembers author = [.buffer key, .string raw]
      ∧ authorFromParts (key, raw) = author :=
  ⟨(authorParts author).1, (authorParts author).2, rfl, authorFromParts_authorParts author⟩

/-- The members of an id tell it from those of another, whatever comes after. -/
theorem idMembers_inj {id id' : String} {rest rest' : List Member}
    : idMembers id ++ rest = idMembers id' ++ rest' ↔ id = id' ∧ rest = rest' := by
  constructor
  · intro same
    obtain ⟨typeOrRaw, author, seq, is, told⟩ := idMembers_eq id
    obtain ⟨typeOrRaw', author', seq', is', told'⟩ := idMembers_eq id'
    simp only [is, is', List.cons_append, List.nil_append, List.cons.injEq, Member.string.injEq,
      Member.buffer.injEq, Member.uint.injEq] at same
    obtain ⟨rfl, rfl, rfl, rest_⟩ := same
    exact ⟨told.symm.trans told', rest_⟩
  · rintro ⟨rfl, rfl⟩
    rfl

theorem idMembers_injective : Function.Injective idMembers := fun _ _ same =>
  (idMembers_inj.mp (congrArg (· ++ ([] : List Member)) same)).1

theorem idMembers_prefix {id id' : String} {start rest : List Member}
    : idMembers id ++ start <+: idMembers id' ++ rest ↔ id = id' ∧ start <+: rest := by
  simp only [List.IsPrefix, List.append_assoc, idMembers_inj, exists_and_left]

theorem authorMembers_inj {author author' : String}
    (same : authorMembers author = authorMembers author')
    : author = author' := by
  obtain ⟨key, raw, is, told⟩ := authorMembers_eq author
  obtain ⟨key', raw', is', told'⟩ := authorMembers_eq author'
  simp only [is, is', List.cons.injEq, Member.buffer.injEq, Member.string.injEq, and_true] at same
  obtain ⟨rfl, rfl⟩ := same
  exact told.symm.trans told'

-- Keys

/-- The prefix byte of an entry's key. -/
def tag : Entry → Nat
  | .edge .. => 0x10
  | .incoming .. => 0x11
  | .active .. => 0x12
  | .count direction _ _ => if direction = .incoming then 0x13 else 0x14
  | .tag .. => 0x15
  | .tagRef .. => 0x16

def members : Entry → List Member
  | .edge source type time target =>
      idMembers source ++ [.string type, .uint (keyTime time)] ++ idMembers target
  | .incoming target type time source =>
      idMembers target ++ [.string type, .uint (keyTime time)] ++ idMembers source
  | .active source type target => idMembers source ++ [.string type] ++ idMembers target
  | .count _ entityId type => idMembers entityId ++ [.string type]
  | .tag tag time entityId author =>
      [.string tag, .uint time] ++ idMembers entityId ++ authorMembers author
  | .tagRef tag entityId author => [.string tag] ++ idMembers entityId ++ authorMembers author

variable {Key : Type} (enc : IndexEncoder Key) (p : Primitives)
  (float64 : Codec Number)

def key (entry : Entry) : Key := enc.encode (tag entry) (members entry)

def value : (entry : Entry) → Stored Number entry → Bytes
  | .edge .., v => (edgeValue p float64).encode v
  | .incoming .., _ => []
  | .active .., time => p.uint.encode time
  | .count .., count => p.uint.encode count
  | .tag .., _ => []
  | .tagRef .., time => p.uint.encode time

/-- An entry that its key tells. -/
def Named : Entry → Prop
  | .edge _ _ time _ => time ≤ maxSafeInteger
  | .incoming _ _ time _ => time ≤ maxSafeInteger
  | .tag _ time _ _ => time ≤ maxSafeInteger
  | _ => True

/-- What is read again of what stands under an entry. -/
def Fits : (entry : Entry) → Stored Number entry → Prop
  | .edge .., v => (edgeValue p float64).Fits v
  | .incoming .., _ => True
  | .active .., time => time ≤ maxSafeInteger
  | .count .., count => p.uint.Fits count
  | .tag .., _ => True
  | .tagRef .., time => time ≤ maxSafeInteger

theorem edge_of_tag {entry : Entry} (is : tag entry = 0x10)
    : ∃ source type time target, entry = .edge source type time target := by
  cases entry with
  | edge source type time target => exact ⟨_, _, _, _, rfl⟩
  | count direction _ _ => cases direction <;> cases is
  | _ => cases is

theorem incoming_of_tag {entry : Entry} (is : tag entry = 0x11)
    : ∃ target type time source, entry = .incoming target type time source := by
  cases entry with
  | incoming target type time source => exact ⟨_, _, _, _, rfl⟩
  | count direction _ _ => cases direction <;> cases is
  | _ => cases is

theorem active_of_tag {entry : Entry} (is : tag entry = 0x12)
    : ∃ source type target, entry = .active source type target := by
  cases entry with
  | active source type target => exact ⟨_, _, _, rfl⟩
  | count direction _ _ => cases direction <;> cases is
  | _ => cases is

theorem tag_of_tag {entry : Entry} (is : tag entry = 0x15)
    : ∃ tag time entityId author, entry = .tag tag time entityId author := by
  cases entry with
  | tag tag time entityId author => exact ⟨_, _, _, _, rfl⟩
  | count direction _ _ => cases direction <;> cases is
  | _ => cases is

theorem tagRef_of_tag {entry : Entry} (is : tag entry = 0x16)
    : ∃ tag entityId author, entry = .tagRef tag entityId author := by
  cases entry with
  | tagRef tag entityId author => exact ⟨_, _, _, rfl⟩
  | count direction _ _ => cases direction <;> cases is
  | _ => cases is

theorem count_of_tag {direction : Direction} {entityId type : String} {other : Entry}
    (is : tag (.count direction entityId type) = tag other)
    : ∃ entityId' type', other = .count direction entityId' type' := by
  cases other with
  | count direction' entityId' type' =>
      cases direction <;> cases direction' <;> first | exact ⟨_, _, rfl⟩ | cases is
  | _ => cases direction <;> cases is

variable {enc} in
theorem key_inj (entry entry' : Entry) (named : Named entry) (named' : Named entry')
    (same : key enc entry = key enc entry')
    : entry = entry' := by
  have tags := enc.tag_inj same
  have members_ : members entry = members entry' := by
    rw [← enc.decode_encode (tag entry) (members entry),
      ← enc.decode_encode (tag entry') (members entry')]
    exact congrArg enc.decode same
  cases entry with
  | edge source type time target =>
      obtain ⟨source', type', time', target', rfl⟩ := edge_of_tag tags.symm
      simp only [members, List.append_assoc, idMembers_inj, List.cons_append, List.nil_append,
        List.cons.injEq, Member.string.injEq, Member.uint.injEq, keyTime_eq named,
        keyTime_eq named'] at members_
      obtain ⟨rfl, rfl, rfl, target_⟩ := members_
      rw [idMembers_injective target_]
  | incoming target type time source =>
      obtain ⟨target', type', time', source', rfl⟩ := incoming_of_tag tags.symm
      simp only [members, List.append_assoc, idMembers_inj, List.cons_append, List.nil_append,
        List.cons.injEq, Member.string.injEq, Member.uint.injEq, keyTime_eq named,
        keyTime_eq named'] at members_
      obtain ⟨rfl, rfl, rfl, source_⟩ := members_
      rw [idMembers_injective source_]
  | active source type target =>
      obtain ⟨source', type', target', rfl⟩ := active_of_tag tags.symm
      simp only [members, List.append_assoc, idMembers_inj, List.cons_append, List.nil_append,
        List.cons.injEq, Member.string.injEq] at members_
      obtain ⟨rfl, rfl, target_⟩ := members_
      rw [idMembers_injective target_]
  | count direction entityId type =>
      obtain ⟨entityId', type', rfl⟩ := count_of_tag tags
      simp only [members, idMembers_inj, List.cons.injEq, Member.string.injEq] at members_
      obtain ⟨rfl, rfl, _⟩ := members_
      rfl
  | tag tag_ time entityId author =>
      obtain ⟨tag', time', entityId', author', rfl⟩ := tag_of_tag tags.symm
      simp only [members, idMembers_inj, List.cons_append, List.nil_append,
        List.cons.injEq, Member.string.injEq, Member.uint.injEq] at members_
      obtain ⟨rfl, rfl, rfl, author_⟩ := members_
      rw [authorMembers_inj author_]
  | tagRef tag_ entityId author =>
      obtain ⟨tag', entityId', author', rfl⟩ := tagRef_of_tag tags.symm
      simp only [members, idMembers_inj, List.cons_append, List.nil_append,
        List.cons.injEq, Member.string.injEq] at members_
      obtain ⟨rfl, rfl, author_⟩ := members_
      rw [authorMembers_inj author_]

-- Writes

variable [Ord Key] [Std.TransOrd Key]

/-- The table has the index's entries. -/
abbrev Has (db : Db Key) (ix : Index Number) : Prop :=
  Represents Named (Fits p float64) (key enc) (value p float64) db ix

/-- A write of what the formats carry. -/
def Carried : Write Number → Prop
  | .addEdge e => (∀ value, e.value = some value → float64.Fits value)
      ∧ ∀ data, e.data = some data → p.string.Fits data
  | .putCount _ _ _ count => p.uint.Fits count
  | _ => True

variable {enc p float64} {db : Db Key} {ix : Index Number}

section Written

variable [Std.LawfulEqOrd Key] (safe : ∀ n ≤ maxSafeInteger, p.uint.Fits n)

include safe

theorem Has.addEdge (has : Has enc p float64 db ix) {e : Edge Number}
    (carried : Carried p float64 (.addEdge e))
    : Has enc p float64 (addEdge enc p float64 db e) (ix.addEdge e) := by
  have flags := safe _ (Nat.le_trans (edgeFlags_le ⟨false, e.value, e.data⟩) (by decide))
  exact ((has.put key_inj (.edge e.source e.type (keyTime e.createdAt) e.target)
      ⟨false, e.value, e.data⟩ (keyTime_le _) ⟨flags, carried⟩).put key_inj
    (.active e.source e.type e.target) (keyTime e.createdAt) trivial (keyTime_le _)).put key_inj
    (.incoming e.target e.type (keyTime e.createdAt) e.source) () (keyTime_le _) trivial

theorem Has.removeEdge (has : Has enc p float64 db ix) {source type target : String}
    {createdAt : Nat}
    : Has enc p float64 (removeEdge enc p float64 db source type createdAt target)
        (ix.removeEdge source type createdAt target) := by
  have key_ : edgeKey enc source type createdAt target
      = key enc (.edge source type (keyTime createdAt) target) := by
    simp [edgeKey, key, tag, members]
  have inKey_ : inKey enc target type createdAt source
      = key enc (.incoming target type (keyTime createdAt) source) := by
    simp [inKey, key, tag, members]
  have bytes : ∀ v, ix (.edge source type (keyTime createdAt) target) = some v
      → (edgeValue p float64).read ((edgeValue p float64).encode v) = some v := fun v is =>
    (edgeValue p float64).read_encode (has.fits _ v is).2
  have there := has.get (.edge source type (keyTime createdAt) target) (keyTime_le _)
  rw [Layout2.removeEdge, Index.removeEdge]
  simp only [key_, inKey_, there]
  cases is : ix (.edge source type (keyTime createdAt) target) with
  | none =>
      exact (has.del key_inj (.incoming target type (keyTime createdAt) source) (keyTime_le _)).del
        key_inj (.active source type target) trivial
  | some v =>
      have fits := (has.fits _ v is).2
      have flags := safe _ (Nat.le_trans (edgeFlags_le { v with deleted := true }) (by decide))
      simp only [Option.map_some, Option.bind_some, value, bytes v is]
      exact ((has.put key_inj (.edge source type (keyTime createdAt) target)
          { v with deleted := true } (keyTime_le _) ⟨flags, fits.2⟩).del key_inj
        (.incoming target type (keyTime createdAt) source) (keyTime_le _)).del
        key_inj (.active source type target) trivial

omit safe in
theorem Has.addTag (has : Has enc p float64 db ix) {t : TagRecord}
    : Has enc p float64 (addTag enc p db t) (ix.addTag t) :=
  (has.put key_inj (.tag t.tag (keyTime t.createdAt) t.entityId t.author) () (keyTime_le _)
    trivial).put key_inj (.tagRef t.tag t.entityId t.author) (keyTime t.createdAt) trivial
    (keyTime_le _)

theorem Has.removeTag (has : Has enc p float64 db ix) {tag entityId author : String}
    : Has enc p float64 (removeTag enc p db tag entityId author)
        (ix.removeTag tag entityId author) := by
  have there : db[tagRefKey enc tag entityId author]?
      = (ix (.tagRef tag entityId author)).map p.uint.encode :=
    has.get (.tagRef tag entityId author) trivial
  rw [Layout2.removeTag, Index.removeTag]
  simp only [there]
  cases is : ix (.tagRef tag entityId author) with
  | none => exact has.del key_inj (.tagRef tag entityId author) trivial
  | some time =>
      have fits : time ≤ maxSafeInteger := (has.fits _ time is).2
      simp only [Option.map_some, Option.bind_some, p.uint.read_encode (safe time fits)]
      exact (has.del key_inj (.tag tag time entityId author) fits).del key_inj
        (.tagRef tag entityId author) trivial

/-- A write that is carried is one to the index. -/
theorem Has.write (has : Has enc p float64 db ix) {write : Write Number}
    (carried : Carried p float64 write)
    : Has enc p float64 (Layout2.write enc p float64 db write) (ix.write write) := by
  cases write with
  | addEdge e => exact has.addEdge safe carried
  | removeEdge source type createdAt target => exact has.removeEdge safe
  | putCount direction entityId type count =>
      exact has.put key_inj (.count direction entityId type) count trivial carried
  | addTag t => exact has.addTag
  | removeTag tag entityId author => exact has.removeTag safe

end Written

-- Reads

/-- An edge's bytes are read as the index has it. -/
theorem Has.edgeRecord (has : Has enc p float64 db ix) {source type : String} {time : Nat}
    {target : String} {v : EdgeValue Number} (is : ix (.edge source type time target) = some v)
    : edgeRecord p float64 source type time target ((edgeValue p float64).encode v)
      = some ⟨source, target, type, authorFromEntityId source, time, v.deleted, v.value.map some,
          v.data⟩ := by
  have fits : (edgeValue p float64).Fits v := (has.fits (.edge source type time target) v is).2
  rw [Layout2.edgeRecord, (edgeValue p float64).read_encode fits, Option.map_some]

theorem Has.edgeAt (has : Has enc p float64 db ix) {source type : String} {time : Nat}
    {target : String} (safe : time ≤ maxSafeInteger)
    : edgeAt enc p float64 db source type time target = ix.edgeAt source type time target := by
  have there : db[edgeKey enc source type time target]?
      = (ix (.edge source type time target)).map (edgeValue p float64).encode :=
    has.get (.edge source type time target) safe
  rw [Layout2.edgeAt, Index.edgeAt, there]
  cases is : ix (.edge source type time target) with
  | none => rfl
  | some v => exact has.edgeRecord is

theorem Has.activeEdge (has : Has enc p float64 db ix) (safe : ∀ n ≤ maxSafeInteger, p.uint.Fits n)
    {source type target : String}
    : activeEdge enc p float64 db source type target = ix.activeEdge source type target := by
  have there : db[activeKey enc source type target]?
      = (ix (.active source type target)).map p.uint.encode :=
    has.get (.active source type target) trivial
  rw [Layout2.activeEdge, Index.activeEdge, there]
  cases is : ix (.active source type target) with
  | none => rfl
  | some time =>
      have fits : time ≤ maxSafeInteger := (has.fits _ time is).2
      simp only [Option.map_some, Option.bind_eq_bind, Option.bind_some,
        p.uint.read_encode (safe time fits)]
      exact has.edgeAt fits

theorem Has.getCount (has : Has enc p float64 db ix) {direction : Direction} {entityId type : String}
    : getCount enc p db direction entityId type = ix.getCount direction entityId type := by
  have there : db[countKey enc direction entityId type]?
      = (ix (.count direction entityId type)).map p.uint.encode :=
    has.get (.count direction entityId type) trivial
  rw [Layout2.getCount, Index.getCount, there]
  cases is : ix (.count direction entityId type) with
  | none => rfl
  | some count =>
      have fits : p.uint.Fits count := (has.fits _ count is).2
      simp only [Option.map_some, Option.bind_some, p.uint.read_encode fits, Option.getD_some]

variable [Std.LawfulEqOrd Key]

/-- A scan finds the entries whose tuples start with the members. -/
theorem Has.mem_stream (has : Has enc p float64 db ix) {tag_ : Nat} {start : List Member}
    {place : Key} {bytes : Bytes}
    : (place, bytes) ∈ stream enc db tag_ start
      ↔ ∃ entry stored, ix entry = some stored ∧ tag entry = tag_ ∧ start <+: members entry
        ∧ place = key enc entry ∧ bytes = value p float64 entry stored := by
  simp only [stream, Std.ExtTreeMap.mem_toList_iff_getElem?_eq_some,
    Std.ExtTreeMap.getElem?_filter', Option.filter_eq_some_iff]
  constructor
  · rintro ⟨there, range⟩
    obtain ⟨entry, stored, is, rfl, same⟩ := has.of_get there
    obtain ⟨tag_, start_⟩ := (enc.inRange_encode _ _ _ _).mp range
    exact ⟨entry, stored, is, tag_, start_, rfl, same.symm⟩
  · rintro ⟨entry, stored, is, rfl, start_, rfl, rfl⟩
    have there := has.get entry (has.fits _ _ is).1
    rw [is, Option.map_some] at there
    exact ⟨there, (enc.inRange_encode _ _ _ _).mpr ⟨rfl, start_⟩⟩

theorem wanted_prefix {type : Option String} {type' : String} {rest : List Member}
    : wanted type <+: .string type' :: rest
      ↔ ∀ asked, required type = some asked → type' = asked := by
  cases is : required type with
  | none => simp [wanted, is]
  | some asked => simp [wanted, is, eq_comm]

/-- A tuple starts with the members asked for where its first id and its type are. -/
theorem start_iff {entityId other : String} {type : Option String} {type' : String}
    {ts : Member} {rest : List Member}
    : idMembers entityId ++ wanted type <+: idMembers other ++ [.string type', ts] ++ rest
      ↔ entityId = other ∧ ∀ asked, required type = some asked → type' = asked := by
  rw [List.append_assoc, idMembers_prefix, List.cons_append, wanted_prefix]

/-- The edges of an entity are those scanned for. -/
theorem Has.edges (has : Has enc p float64 db ix) {entityId : String} {direction : Direction}
    {type : Option String} {reverse : Bool} {record : EdgeRecord Number}
    : record ∈ edges enc p float64 db entityId direction type reverse
      ↔ ix.IsEdge entityId direction type record := by
  have either : ∀ found : List (EdgeRecord Number),
      record ∈ (if reverse = true then found.reverse else found) ↔ record ∈ found := fun found => by
    split
    · exact List.mem_reverse
    · exact Iff.rfl
  cases direction with
  | outgoing =>
      simp only [Layout2.edges, parts_wanted, either, reduceCtorEq, if_false, List.mem_filterMap,
        Prod.exists, has.mem_stream]
      constructor
      · rintro ⟨_, _, ⟨entry, v, is, tag_, start, rfl, rfl⟩, read⟩
        obtain ⟨source, type', time, target, rfl⟩ := edge_of_tag tag_
        obtain ⟨rfl, asked⟩ := start_iff.mp start
        have safe : time ≤ maxSafeInteger := (has.fits (.edge _ type' time target) v is).1
        obtain ⟨_, _, _, source_, told⟩ := idMembers_eq entityId
        obtain ⟨_, _, _, target_, told'⟩ := idMembers_eq target
        simp only [key, enc.decode_encode, members, source_, target_, List.cons_append,
          List.nil_append, idOf, told, told', keyTime_eq safe, value, has.edgeRecord is,
          Option.some.injEq] at read
        subst read
        exact ⟨asked, rfl, by rw [Index.edgeAt, is, Option.map_some]⟩
      · rintro ⟨asked, rfl, there⟩
        obtain ⟨v, is, same⟩ := Option.map_eq_some_iff.mp there
        refine ⟨_, _, ⟨.edge record.source record.type record.createdAt record.target, v, is, rfl,
          start_iff.mpr ⟨rfl, asked⟩, rfl, rfl⟩, ?_⟩
        have safe : record.createdAt ≤ maxSafeInteger := (has.fits (.edge ..) v is).1
        obtain ⟨_, _, _, source_, told⟩ := idMembers_eq record.source
        obtain ⟨_, _, _, target_, told'⟩ := idMembers_eq record.target
        simp only [key, enc.decode_encode, members, source_, target_, List.cons_append,
          List.nil_append, idOf, told, told', keyTime_eq safe, value, has.edgeRecord is, same]
  | incoming =>
      simp only [Layout2.edges, parts_wanted, either, if_true, List.mem_filterMap, Prod.exists,
        has.mem_stream]
      constructor
      · rintro ⟨_, _, ⟨entry, v, is, tag_, start, rfl, rfl⟩, read⟩
        obtain ⟨target, type', time, source, rfl⟩ := incoming_of_tag tag_
        obtain ⟨rfl, asked⟩ := start_iff.mp start
        have safe : time ≤ maxSafeInteger := (has.fits (.incoming _ type' time source) v is).1
        obtain ⟨_, _, _, target_, told⟩ := idMembers_eq entityId
        obtain ⟨_, _, _, source_, told'⟩ := idMembers_eq source
        simp only [key, enc.decode_encode, members, source_, target_, List.cons_append,
          List.nil_append, idOf, told, told', keyTime_eq safe, has.edgeAt safe] at read
        obtain ⟨_, _, rfl⟩ := Option.map_eq_some_iff.mp read
        exact ⟨asked, ⟨rfl, Option.isSome_of_eq_some is⟩, read⟩
      · rintro ⟨asked, ⟨rfl, incoming⟩, there⟩
        obtain ⟨v, is⟩ := Option.isSome_iff_exists.mp incoming
        refine ⟨_, _, ⟨.incoming record.target record.type record.createdAt record.source, v, is,
          rfl, start_iff.mpr ⟨rfl, asked⟩, rfl, rfl⟩, ?_⟩
        have safe : record.createdAt ≤ maxSafeInteger := (has.fits (.incoming ..) v is).1
        obtain ⟨_, _, _, target_, told⟩ := idMembers_eq record.target
        obtain ⟨_, _, _, source_, told'⟩ := idMembers_eq record.source
        simp only [key, enc.decode_encode, members, source_, target_, List.cons_append,
          List.nil_append, idOf, told, told', keyTime_eq safe, has.edgeAt safe, there]

variable (enc) in
/-- The tag a key is of, as the tags are read. -/
def tagOf (key : Key) : Option TagRecord :=
  match enc.decode key with
  | [.string tag, .uint createdAt, id, id', id'', .buffer key, .string raw] =>
      some ⟨idOf [id, id', id''], tag, authorFromParts (key, raw), createdAt⟩
  | _ => none

theorem Has.tagged (has : Has enc p float64 db ix) {tag_ : Option String} {record : TagRecord}
    : record ∈ tagged enc db tag_ ↔ ix.IsTagged tag_ record := by
  have same : Layout2.tagged enc db tag_
      = (stream enc db 0x15 (tag_.toList.map .string)).filterMap fun entry => tagOf enc entry.1 := by
    cases tag_ <;> rfl
  simp only [same, tagOf, List.mem_filterMap, Prod.exists, has.mem_stream]
  constructor
  · rintro ⟨_, _, ⟨entry, v, is, kind, start, rfl, rfl⟩, read⟩
    obtain ⟨tag', time, entityId, author, rfl⟩ := tag_of_tag kind
    obtain ⟨_, _, _, id_, told⟩ := idMembers_eq entityId
    obtain ⟨_, _, author_, told'⟩ := authorMembers_eq author
    simp only [key, enc.decode_encode, members, id_, author_, List.cons_append, List.nil_append,
      idOf, told, told', Option.some.injEq] at read
    subst read
    refine ⟨fun asked is => ?_, Option.isSome_of_eq_some is⟩
    subst is
    obtain ⟨rest, same⟩ := start
    exact (Member.string.inj (List.cons.inj same).1).symm
  · rintro ⟨asked, there⟩
    obtain ⟨v, is⟩ := Option.isSome_iff_exists.mp there
    refine ⟨_, _, ⟨.tag record.tag record.createdAt record.entityId record.author, v, is, rfl, ?_,
      rfl, rfl⟩, ?_⟩
    · cases tag_ with
      | none => exact List.nil_prefix
      | some tag =>
          obtain rfl := asked tag rfl
          exact ⟨_, rfl⟩
    · obtain ⟨_, _, _, id_, told⟩ := idMembers_eq record.entityId
      obtain ⟨_, _, author_, told'⟩ := authorMembers_eq record.author
      simp only [key, enc.decode_encode, members, id_, author_, List.cons_append, List.nil_append,
        idOf, told, told']

theorem Has.hasTag (has : Has enc p float64 db ix) {entityId tag_ : String}
    : hasTag enc db entityId tag_ ↔ ix.HasTag entityId tag_ := by
  simp only [Layout2.hasTag, decide_eq_true_eq, ne_eq, List.eq_nil_iff_forall_not_mem, not_forall,
    not_not, Prod.exists, has.mem_stream]
  constructor
  · rintro ⟨_, _, entry, v, is, kind, start, _⟩
    obtain ⟨tag', entityId', author, rfl⟩ := tagRef_of_tag kind
    obtain ⟨rest, same⟩ := start
    simp only [members, List.cons_append, List.nil_append, List.cons.injEq,
      Member.string.injEq, idMembers_inj] at same
    obtain ⟨rfl, rfl, _⟩ := same
    exact ⟨author, Option.isSome_of_eq_some is⟩
  · rintro ⟨author, there⟩
    obtain ⟨v, is⟩ := Option.isSome_iff_exists.mp there
    exact ⟨_, _, .tagRef tag_ entityId author, v, is, rfl, ⟨_, rfl⟩, rfl, rfl⟩

end Layout2

end Layouts

end Hypergraph.Engine
