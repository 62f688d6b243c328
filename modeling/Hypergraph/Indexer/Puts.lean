import Hypergraph.Declaring
import Hypergraph.Indexer.Rows

/-! What a block gives the index, whatever the index holds: the row of a put, the change an edit or
delete is kept as. -/

namespace Hypergraph.Indexer

open Wire Encodings Fields Js

-- Hypergraph's own types

theorem typeOf_alone {space : Space} {name : String} {type : TypeDecl}
    (own : name ∈ builtin.entries.map Prod.fst) (is : space.typeOf name = some type)
    : type.onePerMember = false := by
  obtain ⟨declarations, made⟩ := space.declared
  obtain ⟨app, builtins, apps, are, entries⟩ := Types.new_eq_ok.mp made
  have listed : (name, type) ∈ app ++ builtins := entries ▸ Dict.mem_of_lookup is
  rcases List.mem_append.mp listed with theirs | ours
  · obtain ⟨entry, known, same⟩ := List.mem_map.mp own
    have apart := apps.apart (name, type) theirs
    rw [← same, builtin_own entry known] at apart
    cases apart
  · obtain ⟨entry, known, _, declared⟩ := are.of_mem ours
    have alone : ∀ entry ∈ builtin.entries, entry.2.onePerMember = false := by decide +kernel
    exact (congrArg TypeDecl.onePerMember (declare_eq_ok.mp declared).1).trans (alone entry known)

-- The gate

variable {space : Space} {state : Deciding} {id : RecordId} {content : Content} {record : Opened}
  {values : Option Values}

theorem ixKeys_blank (type : String) (links : List RecordId)
    : ixKeys space type (space.decode type [] links) = [] := by
  cases known : space.typeOf type with
  | none => simp [ixKeys, known]
  | some decl =>
      cases listed : Space.fieldList decl with
      | none => simp [ixKeys, Space.decode, known, listed]
      | some list => simp [ixKeys, Space.decode, known, listed, Fields.decode, decodeIn]

theorem decode_unknown {type : String} (unknown : space.typeOf type = none) (fields : Bytes)
    (links : List RecordId)
    : space.decode type fields links = none := by
  simp [Space.decode, unknown]

/-- What opening leaves as it is, and what it leaves of a record that can't be read. -/
structure Opens (content : Content) (record : Opened) : Prop where
  kind : record.kind = content.kind
  type : record.type = content.type
  stamp : record.stamp = content.stamp
  target : record.target = content.target
  unreadable : record.unreadable = true → record.kind = .put ∧ record.fields = [] ∧ record.links = []

theorem unseal_opens (opened : space.unseal_ id content = some record) : Opens content record := by
  unfold Space.unseal_ at opened
  split at opened
  · split at opened
    · cases opened
    · cases opened
      exact ⟨rfl, rfl, rfl, rfl, fun is => nomatch is⟩
  · split at opened
    · split at opened
      · rename_i put
        cases opened
        exact ⟨rfl, rfl, rfl, rfl, fun _ => ⟨put, rfl, rfl⟩⟩
      · cases opened
    · obtain ⟨box, _, rfl⟩ := Option.map_eq_some_iff.mp opened
      exact ⟨rfl, rfl, rfl, rfl, fun is => nomatch is⟩

/-- What the gate says of a record it lets in. -/
structure Passes (space : Space) (id : RecordId) (content : Content) (record : Opened)
    (values : Option Values) : Prop where
  opened : space.unseal_ id content = some record
  /-- A put has no target, a change has one. -/
  target : record.target.isSome = decide (record.kind ≠ .put)
  /-- The values are those of the fields, but for a put that can't be read. -/
  read : record.kind ≠ .delete
    → values = space.decode record.type record.fields record.links
      ∨ record.unreadable = true ∧ values = none

theorem checkRecord_passes (checked : space.checkRecord id content = some (record, values))
    : Passes space id content record values := by
  unfold Space.checkRecord at checked
  split at checked
  · cases checked
  cases opened : space.unseal_ id content with
  | none => simp [opened] at checked
  | some record' =>
      have opens := unseal_opens opened
      have target : record'.target.isSome = decide (record'.kind ≠ .put) := by
        rw [opens.target, opens.kind, decide_not]
        cases some_ : content.target.isSome <;> simp_all
      rw [opened, Option.bind_eq_bind, Option.bind_some] at checked
      split at checked
      · rename_i unreadable
        cases checked
        exact ⟨opened, target, fun _ => .inr ⟨unreadable, rfl⟩⟩
      split at checked
      · rename_i unknown
        cases checked
        exact ⟨opened, target, fun _ => .inl (decode_unknown unknown _ _).symm⟩
      split at checked
      · rename_i deletes
        cases checked
        exact ⟨opened, target, fun other => absurd deletes other⟩
      · cases decoded : space.decode record'.type record'.fields record'.links with
        | none => simp [decoded] at checked
        | some values' =>
            simp only [decoded, Option.bind_eq_bind, Option.bind_some] at checked
            cases checked
            exact ⟨opened, target, fun _ => .inl decoded.symm⟩

theorem gate_passes (passed : space.gate id = some (record, values))
    : ∃ content, space.block id = some content ∧ Passes space id content record values
        ∧ builtinValid record values = true := by
  unfold Space.gate at passed
  cases held : space.block id with
  | none => simp [held] at passed
  | some content =>
      cases checked : space.checkRecord id content with
      | none => simp [held, checked] at passed
      | some answer =>
          obtain ⟨opened, read⟩ := answer
          simp only [held, checked, Option.bind_eq_bind, Option.bind_some,
            Option.ite_none_right_eq_some, Bool.and_eq_true] at passed
          obtain ⟨⟨_, valid⟩, same⟩ := passed
          cases same
          exact ⟨content, rfl, checkRecord_passes checked, valid⟩

/-- The keys of a put are those of its fields: an unreadable one has neither. -/
theorem Passes.ixKeys_eq (passes : Passes space id content record values) (put : record.kind = .put)
    : ixKeys space record.type values
      = ixKeys space record.type (space.decode record.type record.fields record.links) := by
  have kept : record.kind ≠ .delete := by rw [put]; decide
  rcases passes.read kept with same | ⟨unreadable, none_⟩
  · rw [same]
  · rw [none_, ((unseal_opens passes.opened).unreadable unreadable).2.1, ixKeys_blank]
    rfl

-- Puts and changes

section Blocks

variable (space) (state) (limits : Key → ℕ∞)

/-- What a log's block gives the index: it is looked at, below the log's limit, and passes the gate. -/
def accepted (id : RecordId) : Option (Opened × Option Values) :=
  if id.seq < max 1 (space.log id.log).from_ ∨ limits id.log ≤ id.seq then none else space.gate id

/-- The change a block's edit or delete is kept as. -/
def changeIn (id : RecordId) : Option Change := do
  let (record, values) ← accepted space limits id
  if record.kind = .put then none else changeOf space state id record values

end Blocks

/-- A row as a put makes it, before tags, changes and the member's other records. -/
structure IsPut (space : Space) (id : RecordId) (put : Row) : Prop where
  id_eq : put.id = id
  vstamp : put.vstamp = put.stamp
  vdevice : put.vdevice = put.device
  ix : put.ix = ixKeys space put.type (space.decode put.type put.fields put.links)
  superseded : put.flags.superseded = false
  edited : put.flags.edited = false
  dropped : put.flags.dropped = false
  read : put.flags.read = false
  alone : put.opm = true → put.type ∉ builtin.entries.map Prod.fst
  held
    : ∃ content record, space.block id = some content ∧ space.unseal_ id content = some record
        ∧ record.stamp = put.stamp ∧ record.fields = put.fields ∧ record.links = put.links

theorem rowOf_isPut {put : Row} (held : space.block id = some content)
    (passes : Passes space id content record values) (kind : record.kind = .put)
    (made : rowOf space state id record values = some put)
    : IsPut space id put ∧ put.type = record.type := by
  have keys := passes.ixKeys_eq kind
  simp only [rowOf, Option.ite_none_left_eq_some] at made
  obtain ⟨_, _, same⟩ := made
  cases same
  refine ⟨⟨rfl, rfl, rfl, keys, rfl, rfl, rfl, rfl, ?_,
    content, record, held, passes.opened, rfl, rfl, rfl⟩, rfl⟩
  intro opm own
  cases unreadable : record.unreadable with
  | true => simp [unreadable] at opm
  | false =>
      cases known : space.typeOf record.type with
      | none => simp [unreadable, known] at opm
      | some decl =>
          simp only [unreadable, known, Bool.false_eq_true, if_false, Option.map_some,
            Option.getD_some] at opm
          rw [typeOf_alone own known] at opm
          cases opm

variable {limits : Key → ℕ∞}

theorem changeIn_eq_some {change : Change}
    : changeIn space state limits id = some change
      ↔ ∃ record values, accepted space limits id = some (record, values) ∧ record.kind ≠ .put
          ∧ changeOf space state id record values = some change := by
  unfold changeIn
  cases accepted space limits id with
  | none => simp
  | some answer =>
      obtain ⟨record, values⟩ := answer
      simp

end Hypergraph.Indexer
