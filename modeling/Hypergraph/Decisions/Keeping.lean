import Hypergraph.Lib.Keyed
import Hypergraph.Decisions.Readers

/-! What a state keeps of the entries it was given, whatever their order: a scope's maps answer
with the latest value of each entry, told apart by their keys.
-/

namespace Hypergraph.Decisions.Readers

open Wire Js Encodings

-- One entry, by its name

/-- The same as `apply`, with the key told by what it is about. -/
def Maps.put (m : Maps) (name : Name) (value : Option Value) : Maps :=
  match name with
  | .settings => { m with metaOf := value.bind asMeta }
  | .member id => { m with members := Function.update m.members (hex id) (value.bind asMember) }
  | .banned id => { m with banned := Function.update m.banned (hex id) (value.bind asBan) }
  | .cut id => { m with cuts := Function.update m.cuts (hex id) (value.bind asLogs) }
  | .admitted id => { m with admits := Function.update m.admits (hex id) (value.bind asCode) }
  | .editcut id => { m with editcuts := Function.update m.editcuts (hex id) (value.bind asPerms) }
  | .mod target =>
      { m with moderated := Function.update m.moderated (hex target) (value.bind asModeration) }
  | .revoked invite =>
      { m with revoked := Function.update m.revoked (hex invite) (value.bind asRevoked) }
  | .epochs => { m with epochs := value.bind asEpochs }
  | .writer key =>
      { m with
        writers := Function.update m.writers (hex key) ((value.bind asWriter).map Writer.identity)
        writerInfo := Function.update m.writerInfo (hex key) (value.bind asWriter) }
  | .gone id device =>
      { m with gone := Function.update m.gone (hex id ++ ':' :: hex device) (value.bind asGone) }
  | .role name =>
      { m with roles := Function.update m.roles name.toList (value.bind asPermissions) }
  | .subspace key =>
      { m with subspaces := Function.update m.subspaces (hex key) (value.bind asSubspace) }
  | .types => { m with typesVersion := (value.bind asVersion).getD 0 }
  | .typesAt version =>
      { m with typeVersions := Function.update m.typeVersions version (value.bind asDeclaration) }
  | .listed log => { m with listed := Function.update m.listed (hex log) (value.bind asListed) }
  | .redeemed _ _ | .uses _ | .writers _ | .subspaces => m

/-- A key of `FIELDS` is taken apart after its first colon. -/
theorem apply_field {m : Maps} {start rest : Text} {value : Option Value}
    (fields : m.apply (start ++ rest) value = m.field ((start ++ rest).take (colonAt (start ++ rest)))
      ((start ++ rest).drop (colonAt (start ++ rest))) value)
    (colon : colonAt (start ++ rest) = start.length)
    : m.apply (start ++ rest) value = m.field start rest value := by
  rw [fields, colon, List.take_left, List.drop_left]

theorem apply_text (m : Maps) (name : Name) (value : Option Value)
    : m.apply name.text value = m.put name value := by
  cases name with
  | settings =>
      change m.apply "meta".toList value = _
      unfold Maps.apply
      rw [if_pos rfl]
      rfl
  | epochs =>
      have other : "epochs".toList ≠ "meta".toList := by decide
      change m.apply "epochs".toList value = _
      unfold Maps.apply
      rw [if_neg other, if_pos rfl]
      rfl
  | types =>
      have first : "types".toList ≠ "meta".toList := by decide
      have second : "types".toList ≠ "epochs".toList := by decide
      change m.apply "types".toList value = _
      unfold Maps.apply
      rw [if_neg first, if_neg second, if_pos rfl]
      rfl
  | member _ | writer _ | listed _ | gone _ _ | typesAt _ =>
      unfold Name.text
      simp [Maps.apply, Maps.put, startsWith, List.isPrefixOf]
  | subspaces =>
      change m.apply "subspaces".toList value = _
      simp [Maps.apply, Maps.put, Maps.field, startsWith, List.isPrefixOf, colonAt,
        List.findIdx?_cons]
  | redeemed invite id =>
      change m.apply ("redeemed:".toList ++ (hex invite ++ ':' :: hex id)) value = _
      rw [apply_field (by simp [Maps.apply, startsWith, List.isPrefixOf])
        (by simp [colonAt, List.findIdx?_cons])]
      simp [Maps.field, Maps.put]
  | banned _ | cut _ | admitted _ | editcut _ | mod _ | uses _ | revoked _ | writers _ | role _ | subspace _ =>
      unfold Name.text
      rw [apply_field (by simp [Maps.apply, startsWith, List.isPrefixOf])
        (by simp [colonAt, List.findIdx?_cons])]
      simp [Maps.field, Maps.put]

-- What maps keep

/-- A device's key, as it is kept with its identity's (`gone`). -/
def pairText (pair : Key × Key) : Text := hex pair.1 ++ ':' :: hex pair.2

/-- Maps keep just what is given for each name. -/
structure Keeps (m : Maps) (given : Name → Option Value) : Prop where
  metaOf : m.metaOf = (given .settings).bind asMeta
  members : Keyed.Holds m.members hex fun id => (given (.member id)).bind asMember
  writers : Keyed.Holds m.writers hex fun key =>
    ((given (.writer key)).bind asWriter).map Writer.identity
  writerInfo : Keyed.Holds m.writerInfo hex fun key => (given (.writer key)).bind asWriter
  gone : Keyed.Holds m.gone pairText fun pair => (given (.gone pair.1 pair.2)).bind asGone
  revoked : Keyed.Holds m.revoked hex fun invite => (given (.revoked invite)).bind asRevoked
  cuts : Keyed.Holds m.cuts hex fun id => (given (.cut id)).bind asLogs
  admits : Keyed.Holds m.admits hex fun id => (given (.admitted id)).bind asCode
  editcuts : Keyed.Holds m.editcuts hex fun id => (given (.editcut id)).bind asPerms
  roles : Keyed.Holds m.roles String.toList fun name => (given (.role name)).bind asPermissions
  banned : Keyed.Holds m.banned hex fun id => (given (.banned id)).bind asBan
  moderated : Keyed.Holds m.moderated hex fun target => (given (.mod target)).bind asModeration
  epochs : m.epochs = (given .epochs).bind asEpochs
  subspaces : Keyed.Holds m.subspaces hex fun key => (given (.subspace key)).bind asSubspace
  listed : Keyed.Holds m.listed hex fun log => (given (.listed log)).bind asListed
  typesVersion : m.typesVersion = ((given .types).bind asVersion).getD 0
  typeVersions : m.typeVersions = fun version => (given (.typesAt version)).bind asDeclaration

namespace Keeps

variable {m other : Maps} {given : Name → Option Value}

theorem unique (first : Keeps m given) (second : Keeps other given) : m = other := by
  cases m
  cases other
  simp only [Maps.mk.injEq]
  exact ⟨first.metaOf.trans second.metaOf.symm, first.members.unique second.members,
    first.writers.unique second.writers, first.writerInfo.unique second.writerInfo,
    first.gone.unique second.gone, first.revoked.unique second.revoked,
    first.cuts.unique second.cuts, first.admits.unique second.admits,
    first.editcuts.unique second.editcuts, first.roles.unique second.roles,
    first.banned.unique second.banned, first.moderated.unique second.moderated,
    first.epochs.trans second.epochs.symm, first.subspaces.unique second.subspaces,
    first.listed.unique second.listed, first.typesVersion.trans second.typesVersion.symm,
    first.typeVersions.trans second.typeVersions.symm⟩

theorem empty : Keeps {} fun _ => none := by
  constructor <;> first | rfl | exact .empty

theorem put (keeps : Keeps m given) (name : Name) (value : Option Value)
    : Keeps (m.put name value) (Function.update given name value) where
  metaOf := by
    cases name with
    | settings => simp [Maps.put]
    | _ => simpa [Maps.put] using keeps.metaOf
  members := by
    cases name with
    | member id =>
        exact Keyed.Holds.write Name.member (·.bind asMember) keeps.members
          hex_injective (by simp [Function.Injective]) id value
    | _ => simpa [Maps.put] using keeps.members
  writers := by
    cases name with
    | writer key =>
        exact Keyed.Holds.write Name.writer
          (fun value => (value.bind asWriter).map Writer.identity) keeps.writers hex_injective
          (by simp [Function.Injective]) key value
    | _ => simpa [Maps.put] using keeps.writers
  writerInfo := by
    cases name with
    | writer key =>
        exact Keyed.Holds.write Name.writer (·.bind asWriter) keeps.writerInfo
          hex_injective (by simp [Function.Injective]) key value
    | _ => simpa [Maps.put] using keeps.writerInfo
  gone := by
    cases name with
    | gone id device =>
        exact Keyed.Holds.write (fun pair : Key × Key => Name.gone pair.1 pair.2)
          (·.bind asGone) keeps.gone hexPair_injective
          (by intro _ _ same; simpa [Prod.ext_iff] using same) (id, device) value
    | _ => simpa [Maps.put] using keeps.gone
  revoked := by
    cases name with
    | revoked invite =>
        exact Keyed.Holds.write Name.revoked (·.bind asRevoked) keeps.revoked
          hex_injective (by simp [Function.Injective]) invite value
    | _ => simpa [Maps.put] using keeps.revoked
  cuts := by
    cases name with
    | cut id =>
        exact Keyed.Holds.write Name.cut (·.bind asLogs) keeps.cuts
          hex_injective (by simp [Function.Injective]) id value
    | _ => simpa [Maps.put] using keeps.cuts
  admits := by
    cases name with
    | admitted id =>
        exact Keyed.Holds.write Name.admitted (·.bind asCode) keeps.admits
          hex_injective (by simp [Function.Injective]) id value
    | _ => simpa [Maps.put] using keeps.admits
  editcuts := by
    cases name with
    | editcut id =>
        exact Keyed.Holds.write Name.editcut (·.bind asPerms) keeps.editcuts
          hex_injective (by simp [Function.Injective]) id value
    | _ => simpa [Maps.put] using keeps.editcuts
  roles := by
    cases name with
    | role name =>
        exact Keyed.Holds.write Name.role (·.bind asPermissions) keeps.roles
          toList_injective (by simp [Function.Injective]) name value
    | _ => simpa [Maps.put] using keeps.roles
  banned := by
    cases name with
    | banned id =>
        exact Keyed.Holds.write Name.banned (·.bind asBan) keeps.banned
          hex_injective (by simp [Function.Injective]) id value
    | _ => simpa [Maps.put] using keeps.banned
  moderated := by
    cases name with
    | mod target =>
        exact Keyed.Holds.write Name.mod (·.bind asModeration) keeps.moderated
          hex_injective (by simp [Function.Injective]) target value
    | _ => simpa [Maps.put] using keeps.moderated
  epochs := by
    cases name with
    | epochs => simp [Maps.put]
    | _ => simpa [Maps.put] using keeps.epochs
  subspaces := by
    cases name with
    | subspace key =>
        exact Keyed.Holds.write Name.subspace (·.bind asSubspace) keeps.subspaces
          hex_injective (by simp [Function.Injective]) key value
    | _ => simpa [Maps.put] using keeps.subspaces
  listed := by
    cases name with
    | listed log =>
        exact Keyed.Holds.write Name.listed (·.bind asListed) keeps.listed
          hex_injective (by simp [Function.Injective]) log value
    | _ => simpa [Maps.put] using keeps.listed
  typesVersion := by
    cases name with
    | types => simp [Maps.put]
    | _ => simpa [Maps.put] using keeps.typesVersion
  typeVersions := by
    cases name with
    | typesAt version =>
        funext other
        by_cases same : other = version
        · simp [Maps.put, same]
        · simp [Maps.put, same, keeps.typeVersions]
    | _ => simpa [Maps.put] using keeps.typeVersions

end Keeps

-- Every scope

theorem not_scoped (name : Name) : startsWith name.text "sub:" = false := by
  cases name <;> rfl

/-- A scope's key has 32 bytes. -/
def Wide (scope : Scope) : Prop := ∀ k, scope = some k → k.length = 32

theorem keyText_parts {k : Key} (wide : Wide (some k)) (name : Name)
    : ((keyText (some k) name).drop 4).take 64 = hex k
      ∧ (keyText (some k) name).drop 69 = name.text := by
  have length : (hex k).length = 64 := by
    rw [length_hex, wide k rfl]
  constructor
  · change (hex k ++ ':' :: name.text).take 64 = hex k
    rw [← length, List.take_left]
  · change (hex k ++ ':' :: name.text).drop 65 = name.text
    rw [show 65 = (hex k).length + 1 by rw [length], List.drop_length_add_append]
    rfl

/-- Each entry has a key of its own. -/
theorem keyText_injective {scope other : Scope} {name name' : Name} (wide : Wide scope)
    (wide' : Wide other) (same : keyText scope name = keyText other name')
    : scope = other ∧ name = name' := by
  have apart {k : Key} {name name' : Name} : keyText none name ≠ keyText (some k) name' := by
    intro is
    have own : startsWith (keyText none name) "sub:" = false := not_scoped name
    rw [is] at own
    cases own
  cases scope with
  | none =>
      cases other with
      | none => exact ⟨rfl, Name.text_injective same⟩
      | some k => exact absurd same apart
  | some k =>
      cases other with
      | none => exact absurd same.symm apart
      | some k' =>
          obtain ⟨place, rest⟩ := keyText_parts wide name
          rw [same, (keyText_parts wide' name').1] at place
          rw [same, (keyText_parts wide' name').2] at rest
          exact ⟨congrArg some (hex_injective place.symm), Name.text_injective rest.symm⟩

/-- What is given for one name of one scope, written. -/
def withEntry (given : Scope → Name → Option Value) (scope : Scope) (name : Name)
    (value : Option Value)
    : Scope → Name → Option Value :=
  Function.update given scope (Function.update (given scope) name value)

/-- A state keeps just what is given for each name of each scope. -/
structure State.Keeps (s : State) (given : Scope → Name → Option Value) : Prop where
  top : Readers.Keeps s.maps (given none)
  under : ∀ k, k.length = 32 → Readers.Keeps ((s.scoped_ (hex k)).getD {}) (given (some k))
  only : ∀ place, (∀ k, k.length = 32 → hex k ≠ place) → (s.scoped_ place).getD {} = {}

namespace State.Keeps

variable {s t : State} {given : Scope → Name → Option Value}

theorem empty : State.Keeps {} fun _ _ => none where
  top := .empty
  under _ _ := .empty
  only _ _ := rfl

theorem maps_eq (first : State.Keeps s given) (second : State.Keeps t given) : s.maps = t.maps :=
  first.top.unique second.top

theorem scoped_eq (first : State.Keeps s given) (second : State.Keeps t given) (place : Text)
    : (s.scoped_ place).getD {} = (t.scoped_ place).getD {} := by
  by_cases wide : ∃ k, k.length = 32 ∧ hex k = place
  · obtain ⟨k, long, rfl⟩ := wide
    exact (first.under k long).unique (second.under k long)
  · have none_ : ∀ k, k.length = 32 → hex k ≠ place := fun k long same => wide ⟨k, long, same⟩
    rw [first.only place none_, second.only place none_]

/-- A scoped entry changes its scope's maps, another the top ones. -/
theorem apply_keyText (s : State) {scope : Scope} (wide : Wide scope) (name : Name)
    (value : Option Value)
    : s.apply (keyText scope name) value
      = match scope with
        | none => { s with maps := s.maps.put name value, subs := fun _ => none }
        | some k =>
            { s with
              scoped_ := Function.update s.scoped_ (hex k)
                (some (((s.scoped_ (hex k)).getD {}).put name value))
              subs := fun _ => none } := by
  cases scope with
  | none =>
      have own : startsWith (keyText none name) "sub:" = false := not_scoped name
      have named : s.maps.apply (keyText none name) value = s.maps.put name value :=
        apply_text s.maps name value
      simp [State.apply, own, named]
  | some k =>
      have below : startsWith (keyText (some k) name) "sub:" = true := rfl
      obtain ⟨place, rest⟩ := keyText_parts wide name
      simp [State.apply, below, place, rest, apply_text]

theorem apply (keeps : State.Keeps s given) {scope : Scope} (wide : Wide scope) (name : Name)
    (value : Option Value)
    : State.Keeps (s.apply (keyText scope name) value) (withEntry given scope name value) := by
  rw [apply_keyText s wide]
  cases scope with
  | none =>
      constructor
      · simpa [withEntry] using keeps.top.put name value
      · intro k long
        simpa [withEntry] using keeps.under k long
      · exact keeps.only
  | some k =>
      constructor
      · simpa [withEntry] using keeps.top
      · intro k' long
        by_cases same : k' = k
        · subst same
          simpa [withEntry] using (keeps.under k' long).put name value
        · have different : hex k' ≠ hex k := fun is => same (hex_injective is)
          simpa [withEntry, same, different] using keeps.under k' long
      · intro place none_
        have different : place ≠ hex k := fun is => none_ k (wide k rfl) is.symm
        simpa [different] using keeps.only place none_

end State.Keeps

end Hypergraph.Decisions.Readers
