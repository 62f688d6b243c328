import Hypergraph.Fields.Entries

/-! Values that are validated are of their fields' kinds, and are read back under the declaration they
were written with exactly where all are carried.
-/

namespace Hypergraph.Fields

open Wire Js Encodings

-- What is validated

/-- A field's value once an object is validated, from what the object has for it. -/
def TakenAs (p : Packages) (type : String) (fields : FieldList) (name : String) (out : Option FieldValue)
    (given : JsValue) (value : Option FieldValue) : Prop :=
  if given.isUndefined || given.isNull then value = out
  else ∃ kind v, fields.list.lookup name = some kind ∧
    checkValue p type name kind given = .ok v ∧ value = some v

section Validated

variable {p : Packages} {type : String} {fields : FieldList}

theorem takenAs_left {name : String} {out : Option FieldValue} {given : JsValue}
    (absent : (given.isUndefined || given.isNull) = true)
    : TakenAs p type fields name out given out := by
  rw [TakenAs, if_pos absent]

theorem validateEntries_spec {entries : List (String × JsValue)} {out values : Values}
    (unique : (entries.map Prod.fst).Nodup)
    (ok : validateEntries p type fields entries out = .ok values)
    : (∀ name ∉ entries.map Prod.fst, values name = out name) ∧
      ∀ name given, (name, given) ∈ entries
        → TakenAs p type fields name (out name) given (values name) := by
  induction entries generalizing out with
  | nil =>
      cases ok
      exact ⟨fun _ _ => rfl, nofun⟩
  | cons entry rest ih =>
      obtain ⟨name, given⟩ := entry
      obtain ⟨fresh, unique_⟩ := List.nodup_cons.mp unique
      -- Each way an entry is taken leaves the other names to the rest.
      have rest_ : ∀ next : Values, (∀ other, other ≠ name → next other = out other)
          → TakenAs p type fields name (out name) given (next name)
          → validateEntries p type fields rest next = .ok values
          → (∀ other ∉ name :: rest.map Prod.fst, values other = out other) ∧
            ∀ other given_, (other, given_) ∈ (name, given) :: rest
              → TakenAs p type fields other (out other) given_ (values other) := by
        intro next apart taken later
        obtain ⟨others, listed⟩ := ih unique_ later
        refine ⟨fun other absent => ?_, fun other given_ member => ?_⟩
        · rw [others other fun here => absent (List.mem_cons_of_mem _ here),
            apart other fun here => absent (here ▸ List.mem_cons_self)]
        · rcases List.mem_cons.mp member with same | member
          · cases same
            rw [others name fresh]
            exact taken
          · have other_ : other ≠ name := fun same =>
              fresh (List.mem_map.mpr ⟨_, member, same⟩)
            rw [← apart other other_]
            exact listed other given_ member
      simp only [validateEntries] at ok
      by_cases undefined : given.isUndefined
      · rw [if_pos undefined] at ok
        exact rest_ out (fun _ _ => rfl) (takenAs_left (by simp [undefined])) ok
      · rw [if_neg undefined] at ok
        cases declared : fields.list.lookup name with
        | none => simp [declared, throw, throwThe, MonadExceptOf.throw] at ok
        | some kind =>
            simp only [declared] at ok
            by_cases null : given.isNull
            · rw [if_pos null] at ok
              exact rest_ out (fun _ _ => rfl) (takenAs_left (by simp [null])) ok
            · rw [if_neg null] at ok
              cases checks : checkValue p type name kind given with
              | error err => simp [checks, Bind.bind, Except.bind] at ok
              | ok v =>
                  simp only [checks] at ok
                  refine rest_ _ (fun other apart => Function.update_of_ne apart _ _) ?_ ok
                  rw [TakenAs, if_neg (by simp [undefined, null])]
                  exact ⟨kind, v, declared, checks, by simp⟩

/-- Each field's value is the one the object has for it, checked. -/
theorem validate_spec {object : Dict String JsValue} {values : Values}
    (ok : validate p type fields object = .ok values) (name : String)
    : (object.get? name = none → values name = none) ∧
      ∀ given, object.get? name = some given
        → TakenAs p type fields name none given (values name) := by
  obtain ⟨others, listed⟩ := validateEntries_spec object.unique ok
  refine ⟨fun absent => others name fun member => ?_, fun given found => ?_⟩
  · have there := Dict.mem_keys_iff.mp member
    simp [absent] at there
  · exact listed name given (Dict.mem_entries_iff.mpr found)

/-- The values of an object that was validated are of their fields' kinds, and of no other field. -/
theorem validate_checked {object : Dict String JsValue} {values : Values}
    (ok : validate p type fields object = .ok values)
    : AllChecked p values fields.list ∧ ∀ name ∉ fields.names, values name = none := by
  have taken : ∀ name v, values name = some v → ∃ kind, fields.list.lookup name = some kind ∧
      v.Checked p kind := by
    intro name v given
    obtain ⟨absent, present⟩ := validate_spec ok name
    cases found : object.get? name with
    | none => simp [absent found] at given
    | some value =>
        have as_ := present value found
        unfold TakenAs at as_
        split_ifs at as_ with left
        · simp [as_] at given
        · obtain ⟨kind, checked, declared, ok_, same⟩ := as_
          cases same.symm.trans given
          exact ⟨kind, declared, checkValue_checked ok_⟩
  refine ⟨fun field member v given => ?_, fun name absent => ?_⟩
  · obtain ⟨kind, declared, checked⟩ := taken field.1 v given
    have same := Dict.lookup_of_mem fields.unique member
    cases same.symm.trans declared
    exact checked
  · cases given : values name with
    | none => rfl
    | some v =>
        obtain ⟨kind, declared, -⟩ := taken name v given
        exact absurd (List.mem_map.mpr ⟨_, Dict.mem_of_lookup declared, rfl⟩) absent

end Validated

-- Under the same declaration

/-- A version JavaScript can hold: its lengths are safe integers. -/
def Version.Held (version : Version) : Prop :=
  version.fields.length < 2 ^ 53 ∧ version.links.length < 2 ^ 53

theorem numbered_one (fields : FieldList) (place : Nat)
    : fields.numbered (1 + place) = fields.list[place]? := by
  rw [Nat.add_comm]
  rfl

section Same

variable {p : Packages} (promised : Promised p) {fields : FieldList} {values : Values}

theorem entry_length_le {entries : List FieldEntry} {entry : FieldEntry} (member : entry ∈ entries)
    : entry.2.length ≤ (entries.flatMap (FieldEntry.write p)).length := by
  have own : (entry.write p).length ≤ (entries.flatMap (FieldEntry.write p)).length :=
    (List.sublist_flatten_of_mem (List.mem_map_of_mem member)).length_le
  have inside : entry.2.length ≤ (entry.write p).length := by
    simp only [FieldEntry.write, List.length_append]
    omega
  omega

include promised

/-- The entries of a declaration's fields fit, in a version that can be held. -/
theorem entries_fit {links links' : List Bytes} {entries : List FieldEntry}
    (checked : AllChecked p values fields.list)
    (written : encodeFields p values fields.list 1 links = some (entries, links'))
    (held : (Version.mk (entries.flatMap (FieldEntry.write p)) links').Held)
    : ∀ entry ∈ entries, entry.Fits := by
  intro entry member
  obtain ⟨placed, -⟩ := encodeFields_spec promised checked written held.2
  obtain ⟨place, name, kind, number, declared, -⟩ := placed entry member
  refine ⟨?_, lt_of_le_of_lt (entry_length_le member) held.1⟩
  obtain ⟨bound, -⟩ := List.getElem?_eq_some_iff.mp declared
  have few := fields.few
  unfold Safe
  omega

/-- What is written under a declaration is read as what comes back of the values. -/
theorem decode_encode {version : Version} (checked : AllChecked p values fields.list)
    (written : encode p fields values none = some version) (held : version.Held)
    : decode p fields version = settleAll values fields.list fun _ => none := by
  simp only [encode, Option.bind_eq_bind, Option.bind_some, List.isEmpty_nil, if_true,
    Option.bind_eq_some_iff] at written
  obtain ⟨⟨entries, links⟩, written, same⟩ := written
  simp only [List.flatten_nil, List.append_nil] at same
  cases same
  obtain ⟨-, read⟩ := encodeFields_spec promised checked written held.2
  rw [decode_write promised fields links entries
    (entries_fit promised checked written held)]
  exact read fields links (fun place _ => numbered_one fields place) (List.prefix_refl _) _

/-- Values are read back exactly where all are carried. -/
theorem reads_back_iff (checked : AllChecked p values fields.list)
    (declared : ∀ name ∉ fields.names, values name = none)
    (held : ∀ version, encode p fields values none = some version → version.Held)
    : (∃ version, encode p fields values none = some version ∧
        decode p fields version = some values) ↔
      ∀ name v, values name = some v → v.Carried := by
  have onlyListed : ∀ name v, values name = some v → name ∈ fields.names := by
    intro name v given
    by_contra absent
    simp [declared name absent] at given
  constructor
  · rintro ⟨version, written, back⟩ name v given
    rw [decode_encode promised checked written (held version written)] at back
    obtain ⟨-, listed⟩ := settleAll_spec fields.unique back
    have same := ((listed name (onlyListed name v given)).2 v given).1
    exact settled_iff.mp (same.trans given)
  · intro carried
    have carried_ : ∀ field ∈ fields.list, ∀ v, values field.1 = some v → v.Carried :=
      fun field _ => carried field.1
    obtain ⟨⟨entries, links⟩, written⟩ := Option.isSome_iff_exists.mp
      (encodeFields_carried promised checked carried_ 1 [])
    have encoded : encode p fields values none
        = some ⟨entries.flatMap (FieldEntry.write p), links⟩ := by
      simp [encode, written]
    refine ⟨_, encoded, ?_⟩
    rw [decode_encode promised checked encoded (held _ encoded)]
    obtain ⟨result, read⟩ := Option.isSome_iff_exists.mp
      (settleAll_carried carried_ fun _ => none)
    obtain ⟨others, listed⟩ := settleAll_spec fields.unique read
    rw [read]
    congr 1
    funext name
    by_cases member : name ∈ fields.names
    · cases given : values name with
      | none => exact (listed name member).1 given
      | some v =>
          rw [← ((listed name member).2 v given).1]
          exact settled_iff.mpr (carried name v given)
    · rw [others name member, declared name member]

end Same

end Hypergraph.Fields
