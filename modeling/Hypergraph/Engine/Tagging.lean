import Hypergraph.Lib.Dated
import Hypergraph.Engine.Replaying

/-! Tags of a context's index: a list keyed with the time of each tag, and refs without it that tell what
is in the list (`#applyTag`, `#applyTagDelete` in `src/context-base.js`). Tags added are not looked for
among those there, as relations are, so that list and refs agree while a tag that stands is added at no
other time.
-/

namespace Hypergraph.Engine

open Wire Js Layouts Events

namespace Tagging

variable {W Db Number : Type}

/-- A tag that an author gives an entity. -/
structure Tag where
  tag : String
  entityId : String
  author : String
  deriving DecidableEq

-- Runs

section Runs

variable (peer : ContextPeer W Number) (layout : IndexLayout Db Number)

/-- Is a tag event applied? -/
def takes (s : Applying Db) (event : Event Number) : Bool :=
  match event.body with
  | .tag op entityId tag author signature =>
      entityId ≠ "" && tag ≠ ""
        && peer.signs (.tag op entityId tag peer.contextKey author (event.timestamp.getD 0)) author signature
        && s.passesRules peer layout event
  | _ => false

/-- An event that adds or removes a tag. -/
def IsTag (event : Event Number) : Prop :=
  ∃ op entityId tag author signature, event.body = .tag op entityId tag author signature

/-- What the events of a log make of an index. -/
def run (log : List (Event Number)) (s : Applying Db) : Applying Db :=
  log.foldl (fun s event => s.applyData peer layout event) s

/-- Of a tag, the list and the refs agree. -/
structure Agree (answers : Answers Number) (hasRef : Tag → Bool) (tag : String) : Prop where
  once : ((answers.tagged (some tag)).map fun record => (record.entityId, record.author)).Nodup
  refs
    : ∀ entityId author,
      (∃ record ∈ answers.tagged (some tag), record.entityId = entityId ∧ record.author = author)
        ↔ hasRef ⟨tag, entityId, author⟩ = true
  hasTag
    : ∀ entityId, answers.hasTag entityId tag = true
      ↔ ∃ record ∈ answers.tagged (some tag), record.entityId = entityId

/-- After a log, list and refs agree of the tags that are asked for, and a tag that its last event
removed isn't listed.
-/
structure AgreeAfter (hasRef : Db → Tag → Bool) (asked : String → Prop) (start : Applying Db)
    (log : List (Event Number)) : Prop where
  agree : ∀ tag, asked tag →
    Agree (layout.answers (run peer layout log start).view) (hasRef (run peer layout log start).view) tag
  removed : ∀ before event entityId tag author signature, log = before ++ [event] →
    event.body = .tag .remove entityId tag author signature → asked tag →
    takes peer layout (run peer layout before start) event = true →
    ∀ record ∈ (layout.answers (run peer layout log start).view).tagged (some tag),
      ¬ (record.entityId = entityId ∧ record.author = author)

/-- A tag that is added in its place: the keys tell it, and where it is listed, it is so at this time. -/
def InPlace (tells : Tag → Prop) (s : Applying Db) (event : Event Number) : Prop :=
  match event.body with
  | .tag .add entityId tag author _ =>
      takes peer layout s event = true →
        tells ⟨tag, entityId, author⟩
        ∧ ∀ record ∈ (layout.answers s.view).tagged (some tag),
          record.entityId = entityId → record.author = author →
            keyTime record.createdAt = keyTime (event.timestamp.getD 0)
  | _ => True

variable {peer layout} {s : Applying Db} {event : Event Number} {op : TagOp} {entityId tag author : String}
  {signature : Option String}

/-- A tag event does what it says, where it is taken. -/
theorem applyData_tag (is : event.body = .tag op entityId tag author signature)
    : s.applyData peer layout event
      = if takes peer layout s event = true then
          match op with
          | .add => s.write layout (.addTag ⟨entityId, tag, author, event.timestamp.getD 0⟩)
          | .remove => s.write layout (.removeTag tag entityId author)
        else s := by
  unfold Applying.applyData takes
  simp only [is]
  by_cases given : entityId = "" ∨ tag = ""
  · rw [if_pos given, if_neg]
    rcases given with rfl | rfl <;> simp
  rw [if_neg given]
  rw [not_or] at given
  cases peer.signs (.tag op entityId tag peer.contextKey author (event.timestamp.getD 0)) author signature with
  | false => simp
  | true => cases s.passesRules peer layout event <;> cases op <;> simp [given.1, given.2]

/-- A layout keeps the tags that stand, each with its time: it lists them with the time shown. -/
structure Keeps (layout : IndexLayout Db Number) (hasRef : Db → Tag → Bool) (tells : Tag → Prop)
    (asked : String → Prop) (shown : Nat → Nat) (has : Db → (Tag → Option Nat) → Prop) : Prop where
  add : ∀ {db standing k t}, has db standing → tells k →
    (∀ t', standing k = some t' → keyTime t' = keyTime t) →
    has (layout.write db (.addTag ⟨k.entityId, k.tag, k.author, t⟩)) (Function.update standing k (some t))
  remove : ∀ {db standing} (k : Tag), has db standing →
    has (layout.write db (.removeTag k.tag k.entityId k.author)) (Function.update standing k none)
  tagged : ∀ {db standing tag record}, has db standing → asked tag →
    (record ∈ (layout.answers db).tagged (some tag)
      ↔ record.tag = tag
        ∧ ∃ t, standing ⟨tag, record.entityId, record.author⟩ = some t ∧ record.createdAt = shown t)
  once : ∀ {db standing tag}, has db standing → asked tag →
    (((layout.answers db).tagged (some tag)).map fun record => (record.entityId, record.author)).Nodup
  refs : ∀ {db standing} (k : Tag), has db standing → (hasRef db k = true ↔ (standing k).isSome = true)
  hasTag : ∀ {db standing entityId tag}, has db standing →
    ((layout.answers db).hasTag entityId tag = true
      ↔ ∃ author, (standing ⟨tag, entityId, author⟩).isSome = true)
  asks : ∀ {k}, tells k → asked k.tag
  time : ∀ t, keyTime (shown t) = keyTime t

variable {hasRef : Db → Tag → Bool} {tells : Tag → Prop} {asked : String → Prop} {shown : Nat → Nat}
  {has : Db → (Tag → Option Nat) → Prop} {db : Db} {standing : Tag → Option Nat}

theorem Keeps.listed (keeps : Keeps layout hasRef tells asked shown has) (here : has db standing) (asks : asked tag)
    : (∃ record ∈ (layout.answers db).tagged (some tag), record.entityId = entityId ∧ record.author = author)
      ↔ (standing ⟨tag, entityId, author⟩).isSome = true := by
  constructor
  · rintro ⟨record, mem, rfl, rfl⟩
    obtain ⟨_, t, stands, _⟩ := (keeps.tagged here asks).mp mem
    rw [stands]
    rfl
  · intro stands
    obtain ⟨t, stands⟩ := Option.isSome_iff_exists.mp stands
    exact ⟨⟨entityId, tag, author, shown t⟩, (keeps.tagged here asks).mpr ⟨rfl, t, stands, rfl⟩, rfl, rfl⟩

theorem Keeps.agree (keeps : Keeps layout hasRef tells asked shown has) (here : has db standing) (asks : asked tag)
    : Agree (layout.answers db) (hasRef db) tag := by
  refine ⟨keeps.once here asks, fun entityId author => ?_, fun entityId => ?_⟩
  · rw [keeps.listed here asks, keeps.refs _ here]
  · rw [keeps.hasTag here]
    constructor
    · rintro ⟨author, stands⟩
      obtain ⟨record, mem, is, _⟩ := (keeps.listed here asks).mpr stands
      exact ⟨record, mem, is⟩
    · rintro ⟨record, mem, rfl⟩
      exact ⟨record.author, (keeps.listed here asks).mp ⟨record, mem, rfl, rfl⟩⟩

/-- A tag event in its place leaves some tags standing. -/
theorem Keeps.step (keeps : Keeps layout hasRef tells asked shown has) (here : ∃ standing, has s.view standing)
    (is : IsTag event) (place : InPlace peer layout tells s event)
    : ∃ standing, has (s.applyData peer layout event).view standing := by
  obtain ⟨op, entityId, tag, author, signature, is⟩ := is
  obtain ⟨standing, here⟩ := here
  rw [applyData_tag is]
  split
  · rename_i taken
    cases op with
    | add =>
        unfold InPlace at place
        simp only [is] at place
        obtain ⟨told, same⟩ := place taken
        refine ⟨_, @Keeps.add _ _ _ _ _ _ _ _ keeps s.view standing ⟨tag, entityId, author⟩ _ here told
          fun t stands => ?_⟩
        have listed : (⟨entityId, tag, author, shown t⟩ : TagRecord)
            ∈ (layout.answers s.view).tagged (some tag) :=
          (keeps.tagged here (keeps.asks told)).mpr ⟨rfl, t, stands, rfl⟩
        rw [← keeps.time t]
        exact same _ listed rfl rfl
    | remove => exact ⟨_, keeps.remove ⟨tag, entityId, author⟩ here⟩
  · exact ⟨standing, here⟩

/-- A run of tag events in their places leaves some tags standing. -/
theorem Keeps.run {log : List (Event Number)} (keeps : Keeps layout hasRef tells asked shown has)
    (start : ∃ standing, has s.view standing) (tags : ∀ event ∈ log, IsTag event)
    (each : Runs.Each (fun s event => s.applyData peer layout event) (InPlace peer layout tells) s log)
    : ∃ standing, has (run peer layout log s).view standing :=
  @Runs.Each.keeps _ _ _ _ (fun s => ∃ standing, has s.view standing) _ _
    (fun _ _ here holds => keeps.step here holds.2 holds.1) start (each.and tags)

theorem Keeps.agreeAfter {log : List (Event Number)} (keeps : Keeps layout hasRef tells asked shown has)
    (start : ∃ standing, has s.view standing) (tags : ∀ event ∈ log, IsTag event)
    (each : Runs.Each (fun s event => s.applyData peer layout event) (InPlace peer layout tells) s log)
    : AgreeAfter peer layout hasRef asked s log := by
  refine ⟨fun tag asks => ?_, ?_⟩
  · obtain ⟨standing, here⟩ := keeps.run start tags each
    exact keeps.agree here asks
  · rintro before event entityId tag author signature rfl is asks taken record mem named
    obtain ⟨standing, here⟩ := keeps.run start (fun event mem => tags event (List.mem_append_left _ mem))
      (Runs.each_append.mp each).1
    have gone := keeps.remove ⟨tag, entityId, author⟩ here
    rw [Tagging.run, List.foldl_append, List.foldl_cons, List.foldl_nil, applyData_tag is] at mem
    rw [Tagging.run] at taken
    rw [if_pos taken] at mem
    have stands := (keeps.listed gone asks).mp ⟨record, mem, named⟩
    rw [Function.update_self] at stands
    cases stands

end Runs

-- Layouts

section Tables

variable {Key Value : Type} [Ord Key] [Std.TransOrd Key] [Std.LawfulEqOrd Key] {d : Dated Tag Nat Key Value}
  {named : Tag → Prop} {db : Table Key Value} {standing : Tag → Option Nat} {range : Key → Bool}
  {tag entityId : String} {shown : Nat → Nat} {pick : Key × Value → Option TagRecord}

/-- Records read of a range of the list are those of the tags that stand. -/
theorem mem_picked (has : d.Has named db standing) (refs : ∀ k t, pick (d.ref k, d.refers k t) = none)
    (entry : ∀ k t, named k → pick (d.list k t, d.listed k t) = some ⟨k.entityId, k.tag, k.author, shown t⟩)
    (inside : ∀ k t, named k → (range (d.list k t) = true ↔ k.tag = tag)) {record : TagRecord}
    : record ∈ (db.filter fun key _ => range key).toList.filterMap pick
      ↔ record.tag = tag
        ∧ ∃ t, standing ⟨tag, record.entityId, record.author⟩ = some t ∧ record.createdAt = shown t := by
  rw [has.mem_picked fun k t _ => refs k t]
  constructor
  · rintro ⟨k, t, stands, range_, picked⟩
    have is := has.named k t stands
    rw [entry k t is] at picked
    obtain rfl := (inside k t is).mp range_
    cases picked
    exact ⟨rfl, t, stands, rfl⟩
  · rintro ⟨rfl, t, stands, time⟩
    have is := has.named _ t stands
    refine ⟨_, t, stands, (inside _ t is).mpr rfl, ?_⟩
    rw [entry _ t is, ← time]

theorem nodup_picked (has : d.Has named db standing) (refs : ∀ k t, pick (d.ref k, d.refers k t) = none)
    (entry : ∀ k t, named k → pick (d.list k t, d.listed k t) = some ⟨k.entityId, k.tag, k.author, shown t⟩)
    (inside : ∀ k t, named k → (range (d.list k t) = true ↔ k.tag = tag))
    : (((db.filter fun key _ => range key).toList.filterMap pick).map
        fun record => (record.entityId, record.author)).Nodup := by
  rw [List.map_filterMap]
  refine has.nodup_picked (fun k t _ => by rw [refs]; rfl) ?_
  intro k t k' t' b stands stands' range_ range_' picked picked'
  have is := has.named k t stands
  have is' := has.named k' t' stands'
  rw [entry k t is] at picked
  rw [entry k' t' is'] at picked'
  have same := (inside k t is).mp range_
  have same' := (inside k' t' is').mp range_'
  cases picked
  cases k
  cases k'
  simp at same same' picked'
  obtain ⟨rfl, rfl⟩ := picked'
  rw [same, same']

/-- A range of the refs has something in it where a tag of it stands. -/
theorem range_ne_nil (has : d.Has named db standing) (lists : ∀ k t, range (d.list k t) = false)
    (refs : ∀ k, named k → (range (d.ref k) = true ↔ k.tag = tag ∧ k.entityId = entityId))
    : (db.filter fun key _ => range key).toList ≠ []
      ↔ ∃ author, (standing ⟨tag, entityId, author⟩).isSome = true := by
  simp only [ne_eq, List.eq_nil_iff_forall_not_mem, not_forall, not_not, Prod.exists, has.mem_range]
  constructor
  · rintro ⟨_, _, ⟨k, t, stands, ⟨rfl, rfl⟩ | ⟨rfl, rfl⟩⟩, inside⟩
    · rw [lists] at inside
      cases inside
    · obtain ⟨rfl, rfl⟩ := (refs k (has.named k t stands)).mp inside
      exact ⟨k.author, by rw [stands]; rfl⟩
  · rintro ⟨author, stands⟩
    obtain ⟨t, stands⟩ := Option.isSome_iff_exists.mp stands
    exact ⟨_, _, ⟨_, t, stands, .inr ⟨rfl, rfl⟩⟩, (refs _ (has.named _ t stands)).mpr ⟨rfl, rfl⟩⟩

end Tables

namespace First

/-- Tags by date, as the first layout has them. -/
def tags : Dated Tag Nat (List Char) (Layouts.Json Number) where
  list k t := Layout1.tagKey k.tag t k.entityId k.author
  ref k := Layout1.tagRefKey k.tag k.entityId k.author
  listed k t := .tag ⟨k.entityId, k.tag, k.author, t⟩
  refers k t := .ref (Layout1.tagKey k.tag t k.entityId k.author)

/-- A tag whose texts have no colon, by an author that scans don't end before. -/
structure Told (k : Tag) : Prop where
  tag : Plain k.tag
  entityId : Plain k.entityId
  author : Plain k.author
  low : Low k.author

def hasRef (db : Layout1.Db Number) (k : Tag) : Bool := (db[Layout1.tagRefKey k.tag k.entityId k.author]?).isSome

variable {k : Tag} {t : Nat}

def listParts (k : Tag) (t : Nat) : List (List Char) :=
  [['t'], k.tag.toList, toSortableTs t, k.entityId.toList, k.author.toList]

def refParts (k : Tag) : List (List Char) := ["tref".toList, k.tag.toList, k.entityId.toList, k.author.toList]

theorem Told.list_plain (told : Told k) : ∀ part ∈ listParts k t, ':' ∉ part := by
  simp only [listParts, List.forall_mem_cons]
  exact ⟨by decide, told.tag, Layout1.toSortableTs_plain t, told.entityId, told.author, by simp⟩

theorem Told.ref_plain (told : Told k) : ∀ part ∈ refParts k, ':' ∉ part := by
  simp only [refParts, List.forall_mem_cons]
  exact ⟨by decide, told.tag, told.entityId, told.author, by simp⟩

theorem kinds {parts rest : List (List Char)} (more : parts ≠ []) (more' : rest ≠ [])
    : joined ':' (['t'] :: parts) ≠ joined ':' ("tref".toList :: rest) := by
  rw [Joined.joined_cons more, Joined.joined_cons more']
  intro same
  cases same

theorem apart : (tags : Dated Tag Nat (List Char) (Layouts.Json Number)).Apart Told where
  list {k k' t t'} _ told' same := by
    have is : listParts k t = listParts k' t' := Joined.joined_inj_of_length rfl told'.list_plain same
    simp only [listParts, List.cons.injEq, String.toList_inj, and_true, true_and] at is
    cases k
    cases k'
    obtain ⟨rfl, _, rfl, rfl⟩ := is
    rfl
  ref {k k'} told' same := by
    have is : refParts k = refParts k' := Joined.joined_inj_of_length rfl told'.ref_plain same
    simp only [refParts, List.cons.injEq, String.toList_inj, and_true, true_and] at is
    cases k
    cases k'
    obtain ⟨rfl, rfl, rfl⟩ := is
    rfl
  kinds same := kinds (List.cons_ne_nil _ _) (List.cons_ne_nil _ _) same

/-- The list of a tag is read by how its keys start. -/
theorem inRange_list {tag : String} (asks : Plain tag) (told : Told k)
    : Joined.inRange (joined ':' ([['t'], tag.toList] ++ [[]])) (joined ':' (listParts k t)) = true
      ↔ k.tag = tag := by
  rw [Joined.inRange_iff]
  constructor
  · rintro ⟨rest, same, _⟩
    rw [Joined.joined_append_nil (List.cons_ne_nil _ _)] at same
    have cut : ['t'] ++ ':' :: (k.tag.toList ++ ':' :: joined ':' [toSortableTs t, k.entityId.toList, k.author.toList])
        = ['t'] ++ ':' :: (tag.toList ++ ':' :: rest) := same
    have same_ := (Joined.cut_inj cut (by decide) (by decide)).2
    exact String.toList_inj.mp (Joined.cut_inj same_ told.tag asks).1
  · rintro rfl
    refine ⟨joined ':' [toSortableTs t, k.entityId.toList, k.author.toList], ?_,
      Layout1.low_joined (Layout1.low_toSortableTs t)⟩
    rw [Joined.joined_append_nil (List.cons_ne_nil _ _)]
    rfl

/-- The refs of an entity's tag are those whose keys start with both. -/
theorem inRange_ref {tag entityId : String} (told : Told k)
    : Joined.inRange (joined ':' (["tref".toList, tag.toList, entityId.toList] ++ [[]]))
        (joined ':' (refParts k)) = true
      ↔ k.tag = tag ∧ k.entityId = entityId := by
  rw [Joined.inRange_iff]
  constructor
  · rintro ⟨rest, same, _⟩
    rw [Joined.joined_append_nil (List.cons_ne_nil _ _)] at same
    have is : ["tref".toList, tag.toList, entityId.toList] ++ [rest] = refParts k :=
      Joined.joined_inj_of_length rfl told.ref_plain same.symm
    simp only [refParts, List.cons_append, List.nil_append, List.cons.injEq, String.toList_inj, true_and] at is
    exact ⟨is.1.symm, is.2.1.symm⟩
  · rintro ⟨rfl, rfl⟩
    refine ⟨k.author.toList, ?_, told.low⟩
    rw [Joined.joined_append_nil (List.cons_ne_nil _ _)]
    rfl

theorem inRange_kinds {tag entityId : String}
    : Joined.inRange (joined ':' (["tref".toList, tag.toList, entityId.toList] ++ [[]]))
        (joined ':' (listParts k t)) = false := by
  rw [← Bool.not_eq_true, Joined.inRange_iff]
  rintro ⟨rest, same, _⟩
  rw [Joined.joined_append_nil (List.cons_ne_nil _ _)] at same
  exact kinds (List.cons_ne_nil _ _) (List.cons_ne_nil _ _) same

/-- The record of a value, where it is one of the list. -/
def record : Layouts.Json Number → Option TagRecord
  | .tag record => some record
  | _ => none

theorem tagged_eq (db : Layout1.Db Number) (tag : String)
    : Layout1.tagged db (some tag)
      = (db.filter fun key _ => Joined.inRange (joined ':' ([['t'], tag.toList] ++ [[]])) key).toList.filterMap
        fun entry => record entry.2 := by
  unfold Layout1.tagged Layout1.stream
  rw [List.filterMap_map]
  rfl

theorem hasTag_iff (db : Layout1.Db Number) (entityId tag : String)
    : Layout1.hasTag db entityId tag = true
      ↔ (db.filter fun key _ => Joined.inRange
          (joined ':' (["tref".toList, tag.toList, entityId.toList] ++ [[]])) key).toList ≠ [] := by
  unfold Layout1.hasTag Layout1.stream
  simp

abbrev Has : Layout1.Db Number → (Tag → Option Nat) → Prop := Dated.Has tags Told

theorem keeps (json : Number → Option Number) : Keeps (layout1 json) hasRef Told Plain id Has where
  add has told same := has.put apart told fun t' stands => by
    have same_ := same t' stands
    show joined ':' (listParts _ _) = joined ':' (listParts _ _)
    rw [listParts, listParts, ← toSortableTs_keyTime t', same_, toSortableTs_keyTime]
  remove {db standing} k has := by
    have there : db[Layout1.tagRefKey k.tag k.entityId k.author]? = (standing k).map (tags.refers k) := has.ref apart k
    show Has (Layout1.removeTag db k.tag k.entityId k.author) _
    unfold Layout1.removeTag
    simp only [there]
    cases stands : standing k with
    | none => exact has.remove_none apart stands
    | some t => exact has.remove apart stands
  tagged {db standing tag record_} has asks := by
    show record_ ∈ Layout1.tagged db (some tag) ↔ _
    rw [tagged_eq]
    exact mem_picked has (fun _ _ => rfl) (fun _ _ _ => rfl) fun k t told => inRange_list asks told
  once {db standing tag} has asks := by
    show ((Layout1.tagged db (some tag)).map _).Nodup
    rw [tagged_eq]
    exact nodup_picked has (fun _ _ => rfl) (fun _ _ _ => rfl) fun k t told => inRange_list asks told
  refs {db standing} k has := by
    have there : db[Layout1.tagRefKey k.tag k.entityId k.author]? = (standing k).map (tags.refers k) := has.ref apart k
    rw [hasRef, there, Option.isSome_map]
  hasTag {db standing entityId tag} has := by
    show Layout1.hasTag db entityId tag = true ↔ _
    rw [hasTag_iff]
    exact range_ne_nil has (fun _ _ => inRange_kinds) fun k told => inRange_ref told
  asks told := told.tag
  time _ := rfl

end First

namespace Second

variable {Key : Type} (enc : IndexEncoder Key) (p : Primitives) (float64 : Codec Number)

/-- Tags by date, as the second layout has them. -/
def tags : Dated Tag Nat Key Bytes where
  list k t := Layout2.tagKey enc k.tag (keyTime t) k.entityId k.author
  ref k := Layout2.tagRefKey enc k.tag k.entityId k.author
  listed _ _ := []
  refers _ t := p.uint.encode (keyTime t)

theorem encode_inj {tag : Nat} {members members' : List Layouts.Member} (same : enc.encode tag members = enc.encode tag members')
    : members = members' := by
  rw [← enc.decode_encode tag members, same, enc.decode_encode]

theorem apart : (tags enc p).Apart fun _ => True where
  list {k k' t t'} _ _ same := by
    have is := encode_inj enc same
    simp only [List.cons_append, List.nil_append, List.cons.injEq, Member.string.injEq, Member.uint.injEq,
      Layout2.idMembers_inj] at is
    cases k
    cases k'
    obtain ⟨rfl, _, rfl, author⟩ := is
    cases Layout2.authorMembers_inj author
    rfl
  ref {k k'} _ same := by
    have is := encode_inj enc same
    simp only [List.cons_append, List.nil_append, List.cons.injEq, Member.string.injEq, Layout2.idMembers_inj] at is
    cases k
    cases k'
    obtain ⟨rfl, rfl, author⟩ := is
    cases Layout2.authorMembers_inj author
    rfl
  kinds same := absurd (enc.tag_inj same) (by decide)

/-- The record of a key of the list. -/
def record (entry : Key × Bytes) : Option TagRecord :=
  match enc.decode entry.1 with
  | [.string tag, .uint createdAt, id, id', id'', .buffer key, .string raw] =>
      some ⟨Layout2.idOf [id, id', id''], tag, authorFromParts (key, raw), createdAt⟩
  | _ => none

theorem record_list (k : Tag) (t : Nat) (bytes : Bytes)
    : record enc ((tags enc p).list k t, bytes) = some ⟨k.entityId, k.tag, k.author, keyTime t⟩ := by
  obtain ⟨_, _, _, id_, told⟩ := Layout2.idMembers_eq k.entityId
  obtain ⟨_, _, author_, told'⟩ := Layout2.authorMembers_eq k.author
  simp only [record, tags, Layout2.tagKey, enc.decode_encode, id_, author_, List.cons_append, List.nil_append,
    Layout2.idOf, told, told']

theorem record_ref (k : Tag) (bytes : Bytes) : record enc ((tags enc p).ref k, bytes) = none := by
  obtain ⟨_, _, _, id_, _⟩ := Layout2.idMembers_eq k.entityId
  obtain ⟨_, _, author_, _⟩ := Layout2.authorMembers_eq k.author
  simp only [record, tags, Layout2.tagRefKey, enc.decode_encode, id_, author_, List.cons_append, List.nil_append]

theorem inRange_list {tag : String} {k : Tag} {t : Nat}
    : enc.inRange 0x15 [.string tag] ((tags enc p).list k t) = true ↔ k.tag = tag := by
  simp only [tags, Layout2.tagKey, enc.inRange_encode, true_and, List.cons_append, List.nil_append, List.cons_prefix_cons,
    Member.string.injEq, List.nil_prefix, and_true, eq_comm]

theorem inRange_ref {tag entityId : String} {k : Tag}
    : enc.inRange 0x16 ([.string tag] ++ Layout2.idMembers entityId) ((tags enc p).ref k) = true
      ↔ k.tag = tag ∧ k.entityId = entityId := by
  have start : Layout2.idMembers entityId <+: Layout2.idMembers k.entityId ++ Layout2.authorMembers k.author
      ↔ entityId = k.entityId := by
    have is := @Layout2.idMembers_prefix entityId k.entityId [] (Layout2.authorMembers k.author)
    rw [List.append_nil] at is
    rw [is, and_iff_left List.nil_prefix]
  simp only [tags, Layout2.tagRefKey, enc.inRange_encode, true_and, List.cons_append, List.nil_append,
    List.cons_prefix_cons, Member.string.injEq, start, eq_comm]

theorem inRange_kinds {tag entityId : String} {k : Tag} {t : Nat}
    : enc.inRange 0x16 ([.string tag] ++ Layout2.idMembers entityId) ((tags enc p).list k t) = false := by
  simp only [tags, Layout2.tagKey, ← Bool.not_eq_true, enc.inRange_encode]
  simp

variable [Ord Key] [Std.TransOrd Key]

def hasRef (db : Layout2.Db Key) (k : Tag) : Bool := (db[Layout2.tagRefKey enc k.tag k.entityId k.author]?).isSome

abbrev Has : Layout2.Db Key → (Tag → Option Nat) → Prop := Dated.Has (tags enc p) fun _ => True

theorem tagged_eq (db : Layout2.Db Key) (tag : String)
    : Layout2.tagged enc db (some tag)
      = (db.filter fun key _ => enc.inRange 0x15 [.string tag] key).toList.filterMap (record enc) := by
  rfl

variable [Std.LawfulEqOrd Key]

/-- Any tags are kept by the second layout. -/
theorem keeps (safe : ∀ n ≤ maxSafeInteger, p.uint.Fits n)
    : Keeps (layout2 enc p float64) (hasRef enc) (fun _ => True) (fun _ => True) keyTime (Has enc p) where
  add {db standing k t} has _ same := has.put (apart enc p) trivial fun t' stands => by
    have same_ := same t' stands
    show Layout2.tagKey enc _ (keyTime t') _ _ = Layout2.tagKey enc _ (keyTime t) _ _
    rw [same_]
  remove {db standing} k has := by
    have there : db[Layout2.tagRefKey enc k.tag k.entityId k.author]? = (standing k).map ((tags enc p).refers k) :=
      has.ref (apart enc p) k
    have read (t : Nat) : p.uint.read ((tags enc p).refers k t) = some (keyTime t) :=
      p.uint.read_encode (safe _ (keyTime_le t))
    show Has enc p (Layout2.removeTag enc p db k.tag k.entityId k.author) _
    unfold Layout2.removeTag
    simp only [there]
    cases stands : standing k with
    | none => exact has.remove_none (apart enc p) stands
    | some t =>
        simp only [Option.map_some, Option.bind_some, read]
        exact has.remove (apart enc p) stands
  tagged {db standing tag record_} has _ := by
    show record_ ∈ Layout2.tagged enc db (some tag) ↔ _
    rw [tagged_eq]
    exact mem_picked has (fun k t => record_ref enc p k _) (fun k t _ => record_list enc p k t _) fun k t _ =>
      inRange_list enc p
  once {db standing tag} has _ := by
    show ((Layout2.tagged enc db (some tag)).map _).Nodup
    rw [tagged_eq]
    exact nodup_picked has (fun k t => record_ref enc p k _) (fun k t _ => record_list enc p k t _) fun k t _ =>
      inRange_list enc p
  refs {db standing} k has := by
    have there : db[Layout2.tagRefKey enc k.tag k.entityId k.author]? = (standing k).map ((tags enc p).refers k) :=
      has.ref (apart enc p) k
    rw [hasRef, there, Option.isSome_map]
  hasTag {db standing entityId tag} has := by
    show Layout2.hasTag enc db entityId tag = true ↔ _
    rw [Layout2.hasTag, decide_eq_true_iff]
    exact range_ne_nil has (fun _ _ => inRange_kinds enc p) fun _ _ => inRange_ref enc p
  asks _ := trivial
  time t := keyTime_keyTime t

end Second

-- Contexts

section Contexts

variable {Key : Type} [Ord Key] [Std.TransOrd Key] [Std.LawfulEqOrd Key] {enc : IndexEncoder Key} {p : Primitives}
  {float64 : Codec Number} {json : Number → Option Number} {peer : ContextPeer W Number}

/-- Over a run of tag events, lists and refs agree in either layout where each tag that is added stands at
no other time, and in the first no tag added has a colon in it.
-/
theorem tags_agree (safe : ∀ n ≤ maxSafeInteger, p.uint.Fits n) {log : List (Event Number)}
    (tags : ∀ event ∈ log, IsTag event)
    : (Runs.Each (fun s event => s.applyData peer (layout1 json) event) (InPlace peer (layout1 json) First.Told)
          { view := ∅ } log
        → AgreeAfter peer (layout1 json) First.hasRef Plain { view := ∅ } log)
      ∧ (Runs.Each (fun s event => s.applyData peer (layout2 enc p float64) event)
            (InPlace peer (layout2 enc p float64) fun _ => True) { view := ∅ } log
          → AgreeAfter peer (layout2 enc p float64) (Second.hasRef enc) (fun _ => True) { view := ∅ } log) :=
  ⟨(First.keeps json).agreeAfter ⟨_, .empty⟩ tags, (Second.keeps enc p float64 safe).agreeAfter ⟨_, .empty⟩ tags⟩

end Contexts

/-- An author's tag event of something. -/
def tagging (op : TagOp) (tag : String) (timestamp : Nat) : Event UInt64 :=
  ⟨some timestamp, .tag op "x" tag "01" (some "01")⟩

/-- A tag added, added again, removed and added later. -/
def readded : List (Event UInt64) := [tagging .add "b" 1, tagging .add "b" 1, tagging .remove "b" 2, tagging .add "b" 3]

theorem tags_agree_readded
    : AgreeAfter Context.trusting (layout1 some) First.hasRef Plain { view := ∅ } readded
      ∧ AgreeAfter Context.trusting (layout2 inOrder compact compactFloat64) (Second.hasRef inOrder) (fun _ => True)
          { view := ∅ } readded := by
  have tags : ∀ event ∈ readded, IsTag event := by
    simp only [readded, List.forall_mem_cons]
    exact ⟨⟨_, _, _, _, _, rfl⟩, ⟨_, _, _, _, _, rfl⟩, ⟨_, _, _, _, _, rfl⟩, ⟨_, _, _, _, _, rfl⟩, by simp⟩
  have safe : ∀ n ≤ maxSafeInteger, compact.uint.Fits n := fun n small => by
    show n < 2 ^ 53
    exact Nat.lt_of_le_of_lt small (by decide)
  have told : First.Told ⟨"b", "x", "01"⟩ := ⟨by decide, by decide, by decide, by decide⟩
  refine ⟨(@tags_agree _ _ (List (List Nat)) _ _ _ inOrder _ compactFloat64 some Context.trusting safe _ tags).1
      ⟨fun _ => ⟨told, ?_⟩, fun _ => ⟨told, ?_⟩, trivial, fun _ => ⟨told, ?_⟩, trivial⟩,
    (@tags_agree _ _ (List (List Nat)) _ _ _ inOrder _ compactFloat64 some Context.trusting safe _ tags).2
      ⟨fun _ => ⟨trivial, ?_⟩, fun _ => ⟨trivial, ?_⟩, trivial, fun _ => ⟨trivial, ?_⟩, trivial⟩⟩ <;> decide +kernel

/-- A tag added again at another time is listed twice, and once more after it is removed. -/
theorem listed_twice
    : ¬ AgreeAfter Context.trusting (layout1 some) First.hasRef Plain { view := ∅ }
          [tagging .add "b" 1, tagging .add "b" 2]
      ∧ ¬ AgreeAfter Context.trusting (layout2 inOrder compact compactFloat64) (Second.hasRef inOrder) (fun _ => True)
          { view := ∅ } [tagging .add "b" 1, tagging .add "b" 2]
      ∧ ¬ AgreeAfter Context.trusting (layout1 some) First.hasRef Plain { view := ∅ }
          [tagging .add "b" 1, tagging .add "b" 2, tagging .remove "b" 3] := by
  refine ⟨fun after => ?_, fun after => ?_, fun after => ?_⟩
  · have once := (after.agree "b" (by decide)).once
    revert once
    decide +kernel
  · have once := (after.agree "b" trivial).once
    revert once
    decide +kernel
  · have gone := after.removed [tagging .add "b" 1, tagging .add "b" 2] _ _ _ _ _ rfl rfl (by decide) (by decide +kernel)
    revert gone
    decide +kernel

/-- With a colon in it, a tag is listed under its start. -/
example
    : ((layout1 some).answers (run Context.trusting (layout1 some) [tagging .add "b:c" 1] { view := ∅ }).view).tagged (some "b")
      ≠ [] := by
  decide +kernel

end Tagging

end Hypergraph.Engine
