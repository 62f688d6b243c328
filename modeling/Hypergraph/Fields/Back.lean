import Hypergraph.Fields.Codec
import Hypergraph.Lib.Mapping

/-! What comes back of a value that was written: the value itself where it is `Carried`. Strings lose
their lone surrogates, and integers out of `c.int`'s range and references whose type or digest is no
string are not written at all.
-/

namespace Hypergraph.Fields

open Wire Wire.Codec Js Encodings

-- What the packages promise

/-- Beside what `Regular` says: an integer in range and a double are read back; longer arrays than
`MAX_ITEMS` are refused; the bytes of an id come back from its text.
-/
structure Promised (p : Packages) : Prop extends Regular p.toPrimitives where
  int : p.int.Restores IntRange id
  float64 : p.float64.Restores (fun _ => True) id
  tooMany : ∀ {α : Type} (item : Codec α) (values : List α) (rest : Bytes),
    MAX_ITEMS < values.length → values.length < 2 ^ 32
    → (p.array item).decode ((p.array item).encode values ++ rest) = none
  unz32_empty : p.unz32 ⟨[], by decide⟩ = some []
  unz32_z32 : ∀ bytes, (bytes.length = 32 ∨ ∃ id, p.unz32 id = some bytes)
    → p.unz32 (p.z32 bytes) = some bytes

-- Values

/-- What comes back of a reference, if it can be written and read. -/
def Ref.settled (r : Ref) : Option Ref := do
  let type ← stringOf r.type
  let digest ← stringOf r.digest
  if r.src.length ≤ MAX_ITEMS then
    return {
      src := r.src.map Str.toWellFormed
      few := by rw [List.length_map]; exact r.few
      size := r.size
      type := .string type.toWellFormed
      digest := .string digest.toWellFormed
      mutable_ := r.mutable_ }
  else none

/-- What comes back of a value that was written. -/
def FieldValue.settled : FieldValue → Option FieldValue
  | .text s => some (.text s.toWellFormed)
  | .int v => if IntRange v then some (.int v) else none
  | .ref r => r.settled.map .ref
  | value => some value

/-- A reference that comes back: its strings are well formed, its type and digest strings. -/
structure Ref.Carried (r : Ref) : Prop where
  src : r.src.length ≤ MAX_ITEMS ∧ ∀ address ∈ r.src, address.isWellFormed
  type : ∃ s : Str, r.type = .string s ∧ s.isWellFormed
  digest : ∃ s : Str, r.digest = .string s ∧ s.isWellFormed

/-- A value that comes back as it is. -/
def FieldValue.Carried : FieldValue → Prop
  | .text s => s.isWellFormed
  | .int v => IntRange v
  | .ref r => r.Carried
  | _ => True

/-- A string, if it is not one `||` passes over. -/
def Chosen (value : JsValue) : Prop := value.truthy ∨ value = emptyString

/-- A value as `checkValue` returns it for a kind. -/
def FieldValue.Checked (p : Packages) : Kind → FieldValue → Prop
  | .string, .text _ => True
  | .text, .text _ => True
  | .int, .int v => v.natAbs < 2 ^ 53
  | .uint, .uint n => n < 2 ^ 53
  | .float, .float _ => True
  | .bool, .bool _ => True
  | .bytes, .bytes _ => True
  | .ref, .ref r => r.size < 2 ^ 53 ∧ Chosen r.type ∧ Chosen r.digest
  | .space, .space key => ∃ bytes : Bytes, bytes.length = 32 ∧ key = p.z32 bytes
  | .link, .link id => ∃ bytes, id = p.z32 bytes ∧ ∃ given, idFromString p given = some bytes
  | _, _ => False

theorem orElse_chosen (value : JsValue) : Chosen (orElse value emptyString) := by
  unfold orElse
  split_ifs with truthy
  · exact .inl truthy
  · exact .inr rfl

theorem orElse_of_chosen {value : JsValue} (chosen : Chosen value)
    : orElse value emptyString = value := by
  rcases chosen with truthy | rfl
  · exact if_pos truthy
  · rfl

/-- A string is never passed over for another than the empty one, which is that one. -/
theorem chosen_string (s : Str) : Chosen (.string s) := by
  by_cases empty : s.units = []
  · exact .inr (congrArg JsValue.string (Str.mk.injEq _ _ _ _ ▸ empty))
  · exact .inl (by simpa [JsValue.truthy] using empty)

@[simp]
theorem stringOf_string (s : Str) : stringOf (.string s) = some s := by
  rw [stringOf, orElse_of_chosen (chosen_string s)]
  rfl

theorem integer?_bound {value : JsValue} {v : Int} (found : value.integer? = some v)
    : v.natAbs < 2 ^ 53 := by
  cases value with
  | number n =>
      cases n with
      | whole value safe =>
          cases found
          exact safe
      | other bits apart =>
          simp only [JsValue.integer?, Number.integer?] at found
          split_ifs at found
          cases found
          decide
  | _ => cases found

theorem idFromString_z32 {p : Packages} (promised : Promised p) {given : Str} {bytes : Bytes}
    (found : idFromString p given = some bytes)
    : idFromString p (p.z32 bytes) = some bytes := by
  simp only [idFromString, Option.bind_eq_bind, Option.bind_eq_some_iff] at found
  obtain ⟨read, isRead, found⟩ := found
  split_ifs at found with few
  obtain ⟨id, isId, same⟩ := Option.bind_eq_some_iff.mp found
  cases same
  have back := promised.unz32_z32 bytes (.inr ⟨given, isRead⟩)
  simp [idFromString, back, few, isId]

theorem filled_of_id {p : Packages} (promised : Promised p) {id : Str} {bytes : Bytes}
    (found : idFromString p id = some bytes)
    : id.units ≠ [] := by
  intro empty
  have same : id = ⟨[], by decide⟩ := Str.mk.injEq _ _ _ _ ▸ empty
  simp [idFromString, same, promised.unz32_empty] at found

section Checked

variable {p : Packages} {type field : String} {kind : Kind} {given : JsValue} {v : FieldValue}

theorem bad_ne {α : Type} {what : String} {value : α} : ¬bad type field what = .ok value := nofun

/-- What `checkValue` returns is of the kind it was asked for. -/
theorem checkValue_checked (ok : checkValue p type field kind given = .ok v) : v.Checked p kind := by
  cases kind with
  | string | text =>
      simp only [checkValue] at ok
      split at ok
      · cases ok
        trivial
      · exact (bad_ne ok).elim
  | int =>
      simp only [checkValue] at ok
      split at ok
      · rename_i value found
        cases ok
        exact integer?_bound found
      · exact (bad_ne ok).elim
  | uint =>
      simp only [checkValue] at ok
      split at ok
      · rename_i value found
        have bound := integer?_bound found
        split_ifs at ok with positive
        · cases ok
          simp only [FieldValue.Checked]
          omega
        · exact (bad_ne ok).elim
      · exact (bad_ne ok).elim
  | float | bool | bytes =>
      simp only [checkValue] at ok
      split at ok
      · cases ok
        trivial
      · exact (bad_ne ok).elim
  | ref =>
      simp only [checkValue] at ok
      split at ok
      · split at ok
        · exact (bad_ne ok).elim
        · split_ifs at ok with size few
          · exact (bad_ne ok).elim
          · cases ok
            refine ⟨?_, orElse_chosen _, orElse_chosen _⟩
            cases found : (given.get "size").integer? with
            | none => exact Nat.two_pow_pos 53
            | some value =>
                have bound := integer?_bound found
                simp only [Option.getD_some]
                omega
          · exact (bad_ne ok).elim
      · exact (bad_ne ok).elim
  | link =>
      simp only [checkValue] at ok
      split at ok
      · exact (bad_ne ok).elim
      · split at ok
        · exact (bad_ne ok).elim
        · rename_i id _ _ bytes found
          cases ok
          exact ⟨bytes, rfl, id, found⟩
  | space =>
      simp only [checkValue] at ok
      split at ok
      · exact (bad_ne ok).elim
      · rename_i bytes _
        split_ifs at ok with long
        · cases ok
          exact ⟨bytes, long, rfl⟩
        · exact (bad_ne ok).elim

theorem Ref.settled_carried {r back : Ref} (found : r.settled = some back)
    : back.Carried ∧ back.size = r.size := by
  simp only [Ref.settled, Option.bind_eq_bind, Option.bind_eq_some_iff] at found
  obtain ⟨type, -, digest, -, found⟩ := found
  split_ifs at found with few
  cases found
  refine ⟨⟨⟨?_, ?_⟩, ⟨_, rfl, type.isWellFormed_toWellFormed⟩,
    ⟨_, rfl, digest.isWellFormed_toWellFormed⟩⟩, rfl⟩
  · rw [List.length_map]
    exact few
  · intro address member
    obtain ⟨before_, -, rfl⟩ := List.mem_map.mp member
    exact before_.isWellFormed_toWellFormed

theorem Ref.settled_iff {r : Ref} : r.settled = some r ↔ r.Carried := by
  refine ⟨fun same => (Ref.settled_carried same).1, ?_⟩
  rintro ⟨⟨few, formed⟩, ⟨type, isType, typeFormed⟩, ⟨digest, isDigest, digestFormed⟩⟩
  have src : r.src.map Str.toWellFormed = r.src :=
    (List.map_congr_left fun address member =>
      address.toWellFormed_eq.mpr (formed address member)).trans (List.map_id _)
  obtain ⟨src_, few_, size, type_, digest_, mutable_⟩ := r
  subst isType isDigest
  have type_ := type.toWellFormed_eq.mpr typeFormed
  have digest_ := digest.toWellFormed_eq.mpr digestFormed
  simp only [Ref.settled, stringOf_string, Option.bind_eq_bind, Option.bind_some, if_pos few, src,
    type_, digest_]
  rfl

/-- A value comes back as it is exactly where it is carried. -/
theorem settled_iff : v.settled = some v ↔ v.Carried := by
  cases v with
  | text s =>
      simp only [FieldValue.settled, FieldValue.Carried, Option.some.injEq, FieldValue.text.injEq]
      exact s.toWellFormed_eq
  | int n =>
      simp [FieldValue.settled, FieldValue.Carried]
  | ref r =>
      rw [FieldValue.Carried, ← Ref.settled_iff]
      simp [FieldValue.settled]
  | _ => exact ⟨fun _ => trivial, fun _ => rfl⟩

/-- What comes back of a checked value is of its kind, and comes back from then on. -/
theorem settled_checked {back : FieldValue} (checked : v.Checked p kind)
    (found : v.settled = some back)
    : back.Checked p kind ∧ back.Carried := by
  cases v with
  | text s =>
      cases found
      refine ⟨?_, s.isWellFormed_toWellFormed⟩
      cases kind with
      | string | text => trivial
      | _ => exact checked.elim
  | int n =>
      simp only [FieldValue.settled] at found
      split_ifs at found with range
      cases found
      exact ⟨checked, range⟩
  | ref r =>
      obtain ⟨made, isMade, rfl⟩ := Option.map_eq_some_iff.mp found
      have carried := Ref.settled_carried isMade
      cases kind with
      | ref =>
          obtain ⟨type, isType, -⟩ := carried.1.type
          obtain ⟨digest, isDigest, -⟩ := carried.1.digest
          refine ⟨⟨carried.2 ▸ checked.1, ?_, ?_⟩, carried.1⟩
          · rw [isType]
            exact chosen_string type
          · rw [isDigest]
            exact chosen_string digest
      | _ => exact checked.elim
  | _ =>
      cases found
      exact ⟨checked, trivial⟩

-- Given back to an edit

theorem mapM_string (src : List Str) : (src.map JsValue.string).mapM JsValue.string? = some src := by
  have each : src.mapM (JsValue.string? ∘ JsValue.string) = some (src.map id) :=
    Mapping.mapM_of_pure fun _ _ => rfl
  rw [List.mapM_map, each, List.map_id]

/-- A reference read is taken as it is when it is given back. -/
theorem checkValue_ref {r : Ref} (checked : (FieldValue.ref r).Checked p .ref)
    : ∃ given, (FieldValue.ref r).toJs = some given ∧
        checkValue p type field .ref given = .ok (.ref r) ∧
        given.isUndefined = false ∧ given.isNull = false := by
  obtain ⟨size, chosenType, chosenDigest⟩ := checked
  refine ⟨.object [("src", .array (r.src.map .string)), ("size", .number (.whole r.size size)),
    ("type", r.type), ("digest", r.digest), ("mutable", .bool r.mutable_)], ?_, ?_, rfl, rfl⟩
  · simp only [FieldValue.toJs, size, dif_pos]
    rfl
  · have few : (r.src.map JsValue.string).mapM JsValue.string? = some r.src := mapM_string r.src
    simp [checkValue, JsValue.get, List.lookup_cons, few, JsValue.integer?,
      Number.integer?, JsValue.isUndefined, orElse_of_chosen chosenType,
      orElse_of_chosen chosenDigest, JsValue.truthy]
    exact (dif_pos (by simpa using r.few)).trans rfl

/-- A value read is taken as it is when it is given back, and is neither `null` nor `undefined`. -/
theorem checkValue_toJs (promised : Promised p) (checked : v.Checked p kind) (carried : v.Carried)
    : ∃ given, v.toJs = some given ∧ checkValue p type field kind given = .ok v ∧
        given.isUndefined = false ∧ given.isNull = false := by
  cases v with
  | text s =>
      cases kind with
      | string | text => exact ⟨.string s, rfl, rfl, rfl, rfl⟩
      | _ => exact checked.elim
  | int n =>
      cases kind with
      | int => exact ⟨.number (.whole n checked), dif_pos checked, rfl, rfl, rfl⟩
      | _ => exact checked.elim
  | uint n =>
      cases kind with
      | uint =>
          refine ⟨.number (.whole n checked), dif_pos checked, ?_, rfl, rfl⟩
          rfl
      | _ => exact checked.elim
  | float n =>
      cases kind with
      | float => exact ⟨.number n, rfl, rfl, rfl, rfl⟩
      | _ => exact checked.elim
  | bool b =>
      cases kind with
      | bool => exact ⟨.bool b, rfl, rfl, rfl, rfl⟩
      | _ => exact checked.elim
  | bytes b =>
      cases kind with
      | bytes => exact ⟨.buffer b, rfl, rfl, rfl, rfl⟩
      | _ => exact checked.elim
  | ref r =>
      cases kind with
      | ref => exact checkValue_ref checked
      | _ => exact checked.elim
  | space key =>
      cases kind with
      | space =>
          obtain ⟨bytes, long, rfl⟩ := checked
          refine ⟨.string (p.z32 bytes), rfl, ?_, rfl, rfl⟩
          have back := promised.unz32_z32 bytes (.inl long)
          simp only [checkValue, JsValue.string?, back, long, if_true]
          rfl
      | _ => exact checked.elim
  | link id =>
      cases kind with
      | link =>
          obtain ⟨bytes, rfl, given, found⟩ := checked
          refine ⟨.string (p.z32 bytes), rfl, ?_, rfl, rfl⟩
          have back := idFromString_z32 promised found
          have filled := filled_of_id promised back
          simp only [checkValue, JsValue.string?, Option.some_or, Option.filter_some, filled,
            ne_eq, not_false_eq_true, decide_true, if_true, back]
          rfl
      | _ => exact checked.elim

-- Written and read

theorem mapM_ofText (src : List Str)
    : (src.map Str.text).mapM Str.ofText? = some (src.map Str.toWellFormed) := by
  rw [List.mapM_map]
  exact Mapping.mapM_of_pure fun address _ => address.ofText?_text

/-- The strings and the number of a reference come back, but not too many addresses. -/
theorem refFormat_read (promised : Promised p) (src : List Str) (few : src.length < 2 ^ 32)
    (size : Nat) (safe : size < 2 ^ 53) (type digest : Str) (mutable_ : Bool)
    : (refFormat p).read
          ((refFormat p).encode (src.map Str.text, size, type.text, digest.text, mutable_))
      = if src.length ≤ MAX_ITEMS then
          some (src.map Str.text, size, type.text, digest.text, mutable_)
        else none := by
  split_ifs with short
  · have texts : p.string.Restores Text id := promised.string
    have each : Each Text (src.map Str.text) := by
      refine ⟨by rwa [List.length_map], fun text member => ?_⟩
      obtain ⟨address, -, rfl⟩ := List.mem_map.mp member
      exact address.utf8ByteSize_text
    have restores := (promised.array texts).pair (promised.uint.pair (texts.pair
      (texts.pair promised.bool)))
    have back := @Restores.read_encode _ _ _ _ restores
      (src.map Str.text, size, type.text, digest.text, mutable_)
      ⟨each, safe, type.utf8ByteSize_text, digest.utf8ByteSize_text, trivial⟩
    simpa [refFormat, List.map_id_fun] using back
  · have many := promised.tooMany p.string (src.map Str.text)
    simp only [List.length_map] at many
    simp [refFormat, Codec.read, Codec.pair, many _ (by omega) few]

theorem decodeRef_encodeRef (promised : Promised p) {r : Ref} {bytes : Bytes}
    (size : r.size < 2 ^ 53) (written : encodeRef p r = some bytes)
    : decodeRef p bytes = r.settled := by
  simp only [encodeRef, Option.bind_eq_bind, Option.bind_eq_some_iff] at written
  obtain ⟨type, isType, digest, isDigest, written⟩ := written
  cases written
  rw [decodeRef, refFormat_read promised r.src r.few r.size size type digest r.mutable_, Ref.settled,
    isType, isDigest]
  split_ifs with short
  · have few : (r.src.map Str.toWellFormed).length < 2 ^ 32 := by
      rw [List.length_map]
      exact r.few
    simp only [Option.bind_eq_bind, Option.bind_some, mapM_ofText, Str.ofText?_text, dif_pos few]
  · rfl

/-- The bytes of a checked value are read as what comes back of it. -/
theorem decodeValue_encodeValue (promised : Promised p) {bytes : Bytes}
    (checked : v.Checked p kind) (written : encodeValue p kind v = some bytes)
    : decodeValue p kind bytes = v.settled := by
  cases v with
  | text s =>
      have back := promised.string.read_encode s.utf8ByteSize_text
      cases kind with
      | string | text =>
          cases written
          simp [decodeValue, back, s.ofText?_text, FieldValue.settled]
      | _ => exact checked.elim
  | int n =>
      cases kind with
      | int =>
          simp only [encodeValue] at written
          split_ifs at written with range
          cases written
          simp [decodeValue, promised.int.read_encode range, FieldValue.settled, range]
      | _ => exact checked.elim
  | uint n =>
      cases kind with
      | uint =>
          cases written
          exact congrArg (Option.map FieldValue.uint) (promised.uint.read_encode checked)
      | _ => exact checked.elim
  | float n =>
      cases kind with
      | float =>
          cases written
          exact congrArg (Option.map FieldValue.float) (promised.float64.read_encode checked)
      | _ => exact checked.elim
  | bool b =>
      cases kind with
      | bool =>
          cases written
          exact congrArg (Option.map FieldValue.bool) (promised.bool.read_encode checked)
      | _ => exact checked.elim
  | bytes b =>
      cases kind with
      | bytes =>
          cases written
          rfl
      | _ => exact checked.elim
  | ref r =>
      cases kind with
      | ref =>
          exact congrArg (Option.map FieldValue.ref)
            (decodeRef_encodeRef promised checked.1 written)
      | _ => exact checked.elim
  | space key =>
      cases kind with
      | space =>
          obtain ⟨bytes, long, rfl⟩ := checked
          have back := promised.unz32_z32 bytes (.inl long)
          have read := promised.fixed32.read_encode long
          simp only [encodeValue, toKey, back, Option.filter_some, long, decide_true, if_true,
            Option.map_some, Option.some.injEq] at written
          subst written
          simp [decodeValue, read, FieldValue.settled]
      | _ => exact checked.elim
  | link id =>
      cases kind with
      | link => cases written
      | _ => exact checked.elim

theorem encodeValue_carried (promised : Promised p) (checked : v.Checked p kind)
    (carried : v.Carried) (plain : kind ≠ .link)
    : (encodeValue p kind v).isSome := by
  cases v with
  | text s =>
      cases kind with
      | string | text => rfl
      | _ => exact checked.elim
  | ref r =>
      cases kind with
      | ref =>
          obtain ⟨type, isType, -⟩ := carried.type
          obtain ⟨digest, isDigest, -⟩ := carried.digest
          simp [encodeValue, encodeRef, isType, isDigest]
      | _ => exact checked.elim
  | space key =>
      cases kind with
      | space =>
          obtain ⟨bytes, long, rfl⟩ := checked
          simp [encodeValue, toKey, promised.unz32_z32 bytes (.inl long), long]
      | _ => exact checked.elim
  | link id =>
      cases kind with
      | link => exact (plain rfl).elim
      | _ => exact checked.elim
  | int n =>
      cases kind with
      | int => simp [encodeValue, show IntRange n from carried]
      | _ => exact checked.elim
  | uint n | float n | bool b | bytes b =>
      cases kind with
      | uint | float | bool | bytes => first | rfl | exact checked.elim
      | _ => exact checked.elim

end Checked

end Hypergraph.Fields
