import Hypergraph.Lib.Runs
import Hypergraph.Engine.Throwing

/-! Where applying a context's nodes throws (`#applyNodes` of `src/context-base.js`, and the drains after
it): where the host is given a writer that is no key, or the app's rules throw. What writes left in the
index is read again, in either layout.
-/

namespace Hypergraph.Engine

open Wire Js Layouts Events
open Runs (Ends)

variable {W Db Number : Type}

-- Reads of an index

namespace Layouts

/-- A write of data that apply lets through, or of a count that is a safe integer. -/
def Write.Small : Write Number → Prop
  | .addEdge e => ∀ data, e.data = some data → data.utf8ByteSize ≤ maxRelationDataBytes
  | .putCount _ _ _ count => count ≤ maxSafeInteger
  | _ => True

/-- What writes keep, and where no read throws. -/
structure ThrowingLayout.Reads (layout : ThrowingLayout Db Number) (sound : Db → Prop) : Prop where
  active
    : ∀ db, sound db → ∀ source type target, layout.activeThrows db source type target = false
  count
    : ∀ db, sound db → ∀ direction entityId type,
        layout.countThrows db direction entityId type = false
  write_ : ∀ db, sound db → ∀ write, layout.writeThrows db write = false
  keeps : ∀ db, sound db → ∀ write : Write Number, write.Small → sound (layout.write db write)

theorem any_eq_false {α : Type} {there : Option α} {p : α → Bool}
    (none_ : ∀ a, there = some a → p a = false)
    : there.any p = false := by
  cases there with
  | none => rfl
  | some a => exact none_ a rfl

namespace Layout1

/-- Under a key that starts as those of tags' references, there is a reference. -/
def Refs (db : Layout1.Db Number) : Prop :=
  ∀ (rest : List Char) found, db['t' :: 'r' :: rest]? = some found → ∃ key, found = .ref key

variable {db : Layout1.Db Number} {key : List Char} {found : Json Number}

theorem Refs.insert (refs : Refs db)
    (fine : (∃ ref, found = .ref ref) ∨ key[0]? ≠ some 't' ∨ key[1]? ≠ some 'r')
    : Refs (db.insert key found) := by
  intro rest found' at_
  rcases Table.at_insert at_ with ⟨rfl, rfl⟩ | ⟨_, at_⟩
  · rcases fine with ref | apart | apart
    · exact ref
    · exact absurd rfl apart
    · exact absurd rfl apart
  · exact refs rest found' at_

theorem Refs.erase (refs : Refs db) : Refs (db.erase key) :=
  fun rest found at_ => refs rest found (Table.at_erase at_).2

theorem reads (json : Number → Option Number) : (throwing1 json).Reads Refs where
  active _ _ _ _ _ := rfl
  count _ _ _ _ _ := rfl
  write_ db refs write := by
    cases write with
    | removeTag tag entityId author =>
        refine any_eq_false fun found at_ => ?_
        obtain ⟨key, rfl⟩ := refs _ found at_
        rfl
    | _ => rfl
  keeps db refs write _ := by
    have edge (source type : String) (createdAt : Nat) (target : String)
        : (edgeKey source type createdAt target)[0]? ≠ some 't' := by
      show some 'e' ≠ some 't'
      decide
    cases write with
    | addEdge e =>
        exact ((refs.insert (.inr (.inl (edge _ _ _ _)))).insert (.inl ⟨_, rfl⟩)).insert (.inl ⟨_, rfl⟩)
    | removeEdge source type createdAt target =>
        refine Refs.erase (Refs.erase ?_)
        split
        · exact refs.insert (.inr (.inl (edge _ _ _ _)))
        · exact refs
    | putCount direction entityId type count =>
        refine refs.insert (.inr (.inl ?_))
        show some 'c' ≠ some 't'
        decide
    | addTag t =>
        refine Refs.insert (refs.insert (.inr (.inr ?_))) (.inl ⟨_, rfl⟩)
        show some ':' ≠ some 'r'
        decide
    | removeTag tag entityId author =>
        change Refs (removeTag db tag entityId author)
        unfold removeTag
        dsimp only
        split
        · exact refs.erase.erase
        · exact refs.erase

end Layout1

namespace Layout2

variable {Key : Type} [Ord Key] [Std.TransOrd Key] (enc : IndexEncoder Key) (p : Primitives)
  (float64 : Codec Number)

/-- What is documented of the formats of numbers, and of texts of a relation's data. -/
structure Codes : Prop where
  float : ∀ n, float64.Fits n
  safe : ∀ n ≤ maxSafeInteger, p.uint.Fits n
  text : ∀ text, text.utf8ByteSize ≤ maxRelationDataBytes → p.string.Fits text

/-- What is under a key, by its prefix byte: an edge's value, a number, or what isn't read. -/
def Readable (tag : Nat) (bytes : Bytes) : Prop :=
  (tag = 0x10 → ∃ v, (edgeValue p float64).Fits v ∧ bytes = (edgeValue p float64).encode v)
  ∧ (tag ∈ [0x12, 0x13, 0x14, 0x16] → (p.uint.read bytes).isSome)

def Legible (db : Layout2.Db Key) : Prop :=
  ∀ tag members bytes, db[enc.encode tag members]? = some bytes → Readable p float64 tag bytes

variable {enc p float64} {db : Layout2.Db Key} {tag : Nat} {members : List Member} {bytes : Bytes} {key : Key}

theorem Readable.edge {v : EdgeValue Number} (fits : (edgeValue p float64).Fits v)
    : Readable p float64 0x10 ((edgeValue p float64).encode v) :=
  ⟨fun _ => ⟨v, fits, rfl⟩, fun mem => absurd mem (by decide)⟩

theorem Codes.readable (codes : Codes p float64) (apart : tag ≠ 0x10) {n : Nat} (small : n ≤ maxSafeInteger)
    : Readable p float64 tag (p.uint.encode n) :=
  ⟨fun is => absurd is apart, fun _ => by rw [p.uint.read_encode (codes.safe n small)]; rfl⟩

theorem Legible.edge (legible : Legible enc p float64 db)
    (at_ : db[enc.encode 0x10 members]? = some bytes)
    : ∃ v, (edgeValue p float64).read bytes = some v ∧ (edgeValue p float64).Fits v := by
  obtain ⟨v, fits, rfl⟩ := (legible _ _ _ at_).1 rfl
  exact ⟨v, (edgeValue p float64).read_encode fits, fits⟩

theorem Legible.uint (legible : Legible enc p float64 db) (mem : tag ∈ [0x12, 0x13, 0x14, 0x16])
    (at_ : db[enc.encode tag members]? = some bytes)
    : ∃ n, p.uint.read bytes = some n :=
  Option.isSome_iff_exists.mp ((legible _ _ _ at_).2 mem)

variable [Std.LawfulEqOrd Key]

theorem Legible.insert (legible : Legible enc p float64 db) (readable : Readable p float64 tag bytes)
    : Legible enc p float64 (db.insert (enc.encode tag members) bytes) := by
  intro tag' members' bytes' at_
  rcases Table.at_insert at_ with ⟨same, rfl⟩ | ⟨_, at_⟩
  · rw [enc.tag_inj same]
    exact readable
  · exact legible tag' members' bytes' at_

omit [Std.LawfulEqOrd Key] in
theorem Legible.erase (legible : Legible enc p float64 db) : Legible enc p float64 (db.erase key) :=
  fun _ _ _ at_ => legible _ _ _ (Table.at_erase at_).2

theorem reads (codes : Codes p float64)
    : (throwing2 enc p float64).Reads (Legible enc p float64) where
  active db legible source type target := by
    refine any_eq_false fun ref at_ => ?_
    obtain ⟨createdAt, is⟩ := legible.uint (by decide) at_
    rw [is]
    refine any_eq_false fun bytes at_ => ?_
    obtain ⟨v, is, _⟩ := legible.edge at_
    rw [is]
    rfl
  count db legible direction entityId type := by
    refine any_eq_false fun bytes at_ => ?_
    obtain ⟨n, is⟩ := legible.uint (by cases direction <;> decide) at_
    rw [is]
    rfl
  write_ db legible write := by
    cases write with
    | removeEdge source type createdAt target =>
        refine any_eq_false fun bytes at_ => ?_
        obtain ⟨v, is, _⟩ := legible.edge at_
        rw [is]
        rfl
    | removeTag tag entityId author =>
        refine any_eq_false fun bytes at_ => ?_
        obtain ⟨n, is⟩ := legible.uint (by decide) at_
        rw [is]
        rfl
    | _ => rfl
  keeps db legible write small := by
    have flags (v : EdgeValue Number) : p.uint.Fits (edgeFlags v) :=
      codes.safe _ (Nat.le_trans (edgeFlags_le v) (by decide))
    cases write with
    | addEdge e =>
        have fits : (edgeValue p float64).Fits ⟨false, e.value, e.data⟩ :=
          ⟨flags _, fun n _ => codes.float n, fun data is => codes.text data (small data is)⟩
        exact ((legible.insert (.edge fits)).insert (codes.readable (by decide) (keyTime_le _))).insert
          ⟨fun is => absurd is (by decide), fun mem => absurd mem (by decide)⟩
    | removeEdge source type createdAt target =>
        refine Legible.erase (Legible.erase ?_)
        split
        · rename_i v is
          obtain ⟨bytes, at_, is⟩ := Option.bind_eq_some_iff.mp is
          obtain ⟨v', is', fits⟩ := legible.edge at_
          rw [is] at is'
          cases is'
          exact legible.insert (.edge ⟨flags _, fits.2⟩)
        · exact legible
    | putCount direction entityId type count =>
        exact legible.insert (codes.readable (by cases direction <;> decide) small)
    | addTag t =>
        exact (legible.insert ⟨fun is => absurd is (by decide), fun mem => absurd mem (by decide)⟩).insert
          (codes.readable (by decide) (keyTime_le _))
    | removeTag tag entityId author =>
        change Legible enc p float64 (removeTag enc p db tag entityId author)
        unfold removeTag
        dsimp only
        split
        · exact legible.erase.erase
        · exact legible.erase

end Layout2

-- Relations and tags

namespace Applying

/-- An event is judged by the app's rules: it is formed and signed. -/
def Asks (peer : ContextPeer W Number) (event : Event Number) : Prop :=
  let timestamp := event.timestamp.getD 0
  match event.body with
  | .relationCreate source target relationType author signature value data =>
      ¬ (source = "" ∨ target = "" ∨ relationType = "")
      ∧ peer.signs (.relation true source target relationType value data peer.contextKey author timestamp
          none) author signature = true
      ∧ authorFromEntityId source = some author
      ∧ ¬ data.any fun data => maxRelationDataBytes < data.utf8ByteSize
  | .relationDelete source target relationType author createdAt signature =>
      ¬ (source = "" ∨ target = "" ∨ relationType = "")
      ∧ peer.signs (.relation false source target relationType none none peer.contextKey author timestamp
          (given (some createdAt))) author signature = true
  | .tag op entityId tag author signature =>
      ¬ (entityId = "" ∨ tag = "")
      ∧ peer.signs (.tag op entityId tag peer.contextKey author timestamp) author signature = true
  | .message .. => True
  | _ => False

/-- The counts kept aside are safe integers. -/
def Counted (s : Applying Db) : Prop := ∀ entry ∈ s.counts.entries, entry.2 ≤ maxSafeInteger

/-- Something holds of the index. -/
def Holds (sound : Db → Prop) (s : Applying Db) : Prop := sound s.view

variable {layout : ThrowingLayout Db Number} {sound : Db → Prop} {s : Applying Db}
  {peer : ThrowingPeer W Number} {event : Event Number}

theorem passes_of_fine
    (fine : peer.rules.isSome → peer.mistaken event (s.reader layout.toIndexLayout) = false)
    : ∃ passes, s.passesRules? peer layout event = some passes := by
  refine ⟨_, if_neg ?_⟩
  rintro ⟨some_, mistaken⟩
  rw [fine some_] at mistaken
  cases mistaken

section Legible

variable (reads : layout.Reads sound) (legible : s.Holds sound)

include reads legible

theorem ends_write {write : Write Number} (small : write.Small)
    : Ends (Holds sound) (s.write? layout write) := by
  refine ⟨_, if_neg ?_, reads.keeps _ legible write small⟩
  rw [reads.write_ _ legible]
  decide

theorem ends_bumpCount {direction : Direction} {entityId type : String} {delta : Int}
    : Ends (Holds sound) (s.bumpCount? layout direction entityId type delta) := by
  refine ⟨_, if_neg ?_, legible⟩
  rintro ⟨_, throws⟩
  rw [reads.count _ legible] at throws
  cases throws

theorem ends_applyRelation {e : Edge Number} (small : (Write.addEdge e).Small)
    : Ends (Holds sound) (s.applyRelation? layout e) := by
  rw [applyRelation?, if_neg (by rw [reads.active _ legible]; decide)]
  refine .ite legible fun _ => ?_
  exact (ends_write reads legible small).bind fun _ legible =>
    (ends_bumpCount reads legible).bind fun _ legible => ends_bumpCount reads legible

theorem ends_applyRelationDelete {source type target : String} {createdAt : Nat}
    : Ends (Holds sound) (s.applyRelationDelete? layout source type createdAt target) := by
  have small : (Write.removeEdge source type createdAt target : Write Number).Small := trivial
  exact (ends_write reads legible small).bind fun _ legible =>
    (ends_bumpCount reads legible).bind fun _ legible => ends_bumpCount reads legible

/-- An event is applied, unless the rules throw. -/
theorem ends_applyData
    (fine : Asks peer.toContextPeer event → peer.rules.isSome
      → peer.mistaken event (s.reader layout.toIndexLayout) = false)
    : Ends (Holds sound) (s.applyData? peer layout event) := by
  have asked {next : Bool → Option (Applying Db)} (asks : Asks peer.toContextPeer event)
      (then_ : Ends (Holds sound) (next true)) (else_ : Ends (Holds sound) (next false))
      : Ends (Holds sound) ((s.passesRules? peer layout event).bind next) := by
    obtain ⟨passes, is⟩ := passes_of_fine (fine asks)
    rw [is, Option.bind_some]
    cases passes with
    | true => exact then_
    | false => exact else_
  have stays : Ends (Holds sound) (some s) := ⟨s, rfl, legible⟩
  unfold applyData?
  unfold Asks at asked
  split
  · rename_i _ _ _ _ _ _ data is
    simp only [is] at asked
    refine .ite legible fun named => .ite legible fun signed => .ite legible fun own =>
      .ite legible fun small => ?_
    refine asked ⟨named, not_not.mp signed, not_not.mp own, small⟩ ?_ stays
    refine ends_applyRelation reads legible fun text there => ?_
    rw [show data = some text from there] at small
    simpa using small
  · rename_i is
    simp only [is] at asked
    refine .ite legible fun named => .ite legible fun signed => ?_
    exact asked ⟨named, not_not.mp signed⟩ (ends_applyRelationDelete reads legible) stays
  · rename_i op _ _ _ _ is
    simp only [is] at asked
    refine .ite legible fun named => .ite legible fun signed => ?_
    refine asked ⟨named, not_not.mp signed⟩ ?_ stays
    cases op with
    | add => exact ends_write reads legible trivial
    | remove => exact ends_write reads legible trivial
  · exact stays

theorem Holds.flush (small : s.Counted) : (s.flush layout.toIndexLayout).Holds sound := by
  unfold Counted at small
  unfold Applying.flush Holds
  generalize s.counts.entries = entries at small ⊢
  have start : sound s.view := legible
  revert start
  generalize s.view = view
  intro start
  induction entries generalizing view with
  | nil => exact start
  | cons entry rest ih =>
      exact ih (fun other mem => small other (.tail _ mem)) _
        (reads.keeps view start (.putCount _ _ _ _) (small entry (.head _)))

end Legible

end Applying

end Layouts

end Hypergraph.Engine
