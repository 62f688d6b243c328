import Hypergraph.Fields.Back

/-! A version's entries: read one by one as they were written, a field's value by what comes back of
it. The entries a field list does not declare are found byte for byte.
-/

namespace Hypergraph.Fields

open Wire Js Encodings

/-- An entry whose number and length can be written. -/
def FieldEntry.Fits (entry : FieldEntry) : Prop := Safe entry.1 ∧ Safe entry.2.length

section Loops

variable {p : Packages} (promised : Promised p)

include promised

theorem nextEntry_write {entry : FieldEntry} (fits : entry.Fits) (rest : Bytes)
    : nextEntry p (entry.write p ++ rest) = some (entry, entry.write p, rest) := by
  have number := promised.uint.decode_encode fits.1
  have length := promised.uint.decode_encode fits.2
  have bytes : p.uint.decode (entry.write p ++ rest)
      = some (entry.1, p.uint.encode entry.2.length ++ (entry.2 ++ rest)) := by
    simp only [FieldEntry.write, List.append_assoc, number, id_eq]
  have enough : ¬(entry.2 ++ rest).length < entry.2.length := by simp
  have own : (entry.write p ++ rest).length - rest.length = (entry.write p).length := by simp
  simp only [nextEntry, bytes, length, Option.bind_eq_bind, Option.bind_some, id_eq, enough,
    if_false, List.take_left, List.drop_left, own]
  rfl

theorem write_filled (entry : FieldEntry) : 0 < (entry.write p).length := by
  have wide := promised.wide entry.1
  have long := List.length_pos_iff.mpr wide
  simp only [FieldEntry.write, List.length_append]
  omega

theorem flatMap_write_ne (entry : FieldEntry) (rest : List FieldEntry)
    : (entry :: rest).flatMap (FieldEntry.write p) ≠ [] := by
  have filled := write_filled promised entry
  intro empty
  simp only [List.flatMap_cons, List.append_eq_nil_iff] at empty
  simp [empty.1] at filled

theorem length_le_write (entries : List FieldEntry)
    : entries.length ≤ (entries.flatMap (FieldEntry.write p)).length := by
  induction entries with
  | nil => exact Nat.le_refl 0
  | cons entry rest ih =>
      have filled := write_filled promised entry
      simp only [List.flatMap_cons, List.length_append, List.length_cons]
      omega

/-- The entries of the fields not declared are found as they were written, by the entries. -/
theorem unknownIn_write (fields : FieldList) (entries : List FieldEntry)
    (fits : ∀ entry ∈ entries, entry.Fits) (rounds : Nat) (enough : entries.length ≤ rounds)
    : unknownIn p fields rounds (entries.flatMap (FieldEntry.write p))
      = some ((entries.filter fun entry => (fields.numbered entry.1).isNone).map
          (FieldEntry.write p)) := by
  induction entries generalizing rounds with
  | nil => cases rounds <;> rfl
  | cons entry rest ih =>
      obtain ⟨rounds, rfl⟩ : ∃ left, rounds = left + 1 :=
        ⟨rounds - 1, by simp only [List.length_cons] at enough; omega⟩
      have later := ih (fun entry member => fits entry (List.mem_cons_of_mem _ member)) rounds
        (by simpa using enough)
      have next := nextEntry_write promised (fits entry (by simp))
        (rest.flatMap (FieldEntry.write p))
      rw [unknownIn, List.flatMap_cons, next]
      · simp only [Option.bind_eq_bind, Option.bind_some, later, List.filter_cons]
        cases fields.numbered entry.1 <;> rfl
      · exact flatMap_write_ne promised entry rest

/-- The entries are read one by one, by the entries. -/
theorem decodeIn_write (fields : FieldList) (links : List Bytes) (entries : List FieldEntry)
    (fits : ∀ entry ∈ entries, entry.Fits) (rounds : Nat) (enough : entries.length ≤ rounds)
    (out : Values)
    : decodeIn p fields links rounds (entries.flatMap (FieldEntry.write p)) out
      = entries.foldlM (readEntry p fields links) out := by
  induction entries generalizing rounds out with
  | nil => cases rounds <;> rfl
  | cons entry rest ih =>
      obtain ⟨rounds, rfl⟩ : ∃ left, rounds = left + 1 :=
        ⟨rounds - 1, by simp only [List.length_cons] at enough; omega⟩
      have later := ih (fun entry member => fits entry (List.mem_cons_of_mem _ member)) rounds
        (by simpa using enough)
      have next := nextEntry_write promised (fits entry (by simp))
        (rest.flatMap (FieldEntry.write p))
      rw [decodeIn, List.flatMap_cons, next]
      · simp only [Option.bind_eq_bind, Option.bind_some, later, List.foldlM_cons]
      · exact flatMap_write_ne promised entry rest

/-- A version of written entries is read entry by entry. -/
theorem decode_write (fields : FieldList) (links : List Bytes) (entries : List FieldEntry)
    (fits : ∀ entry ∈ entries, entry.Fits)
    : decode p fields ⟨entries.flatMap (FieldEntry.write p), links⟩
      = entries.foldlM (readEntry p fields links) fun _ => none :=
  decodeIn_write promised fields links entries fits _ (length_le_write promised entries) _

theorem unknownOf_write (fields : FieldList) (entries : List FieldEntry)
    (fits : ∀ entry ∈ entries, entry.Fits)
    : unknownOf p fields (entries.flatMap (FieldEntry.write p))
      = some ((entries.filter fun entry => (fields.numbered entry.1).isNone).map
          (FieldEntry.write p)) :=
  unknownIn_write promised fields entries fits _ (length_le_write promised entries)

end Loops

-- A field's bytes

theorem placeLink_spec (links : List Bytes) (id : Bytes)
    : links <+: (placeLink links id).2 ∧ (placeLink links id).2[(placeLink links id).1]? = some id := by
  unfold placeLink
  cases found : links.findIdx? (· = id) with
  | none => exact ⟨List.prefix_append links [id], by simp⟩
  | some place =>
      refine ⟨List.prefix_refl links, ?_⟩
      obtain ⟨within_, same, -⟩ := List.findIdx?_eq_some_iff_getElem.mp found
      rw [List.getElem?_eq_getElem within_]
      exact congrArg some (by simpa using same)

theorem getElem?_of_start {links final : List Bytes} {place : Nat} {id : Bytes}
    (start : links <+: final) (found : links[place]? = some id)
    : final[place]? = some id := by
  obtain ⟨more, rfl⟩ := start
  obtain ⟨within_, -⟩ := List.getElem?_eq_some_iff.mp found
  rw [List.getElem?_append_left within_, found]

section Fields

variable {p : Packages} {kind : Kind} {v : FieldValue} {bytes : Bytes} {links links' : List Bytes}

theorem encodeField_plain (plain : kind ≠ .link)
    : encodeField p kind v links = (encodeValue p kind v).map (·, links) := by
  cases kind <;> first | rfl | exact (plain rfl).elim

theorem encodeField_links (written : encodeField p kind v links = some (bytes, links'))
    : links <+: links' := by
  by_cases link : kind = .link
  · subst link
    cases v with
    | link id =>
        simp only [encodeField, Option.bind_eq_bind, Option.bind_eq_some_iff] at written
        obtain ⟨target, -, same⟩ := written
        cases same
        exact (placeLink_spec links target).1
    | _ => cases written
  · rw [encodeField_plain link] at written
    obtain ⟨value, -, same⟩ := Option.map_eq_some_iff.mp written
    cases same
    exact List.prefix_refl links

/-- A field's bytes are read as what comes back of its value, also once there are more links. -/
theorem decodeField_encodeField (promised : Promised p) (checked : v.Checked p kind)
    (written : encodeField p kind v links = some (bytes, links')) (held : links'.length < 2 ^ 53)
    {final : List Bytes} (start : links' <+: final)
    : decodeField p kind bytes final = v.settled := by
  by_cases link : kind = .link
  · subst link
    cases v with
    | link id =>
        obtain ⟨target, rfl, given, found⟩ := checked
        have target_ := idFromString_z32 promised found
        simp only [encodeField, target_, Option.bind_eq_bind, Option.bind_some] at written
        cases written
        obtain ⟨-, there⟩ := placeLink_spec links target
        have safe : Safe (placeLink links target).1 := by
          obtain ⟨within_, -⟩ := List.getElem?_eq_some_iff.mp there
          exact lt_trans within_ held
        have place := promised.uint.read_encode safe
        have last := getElem?_of_start start there
        simp [decodeField, place, last, FieldValue.settled]
    | _ => exact checked.elim
  · rw [encodeField_plain link] at written
    obtain ⟨value, isValue, same⟩ := Option.map_eq_some_iff.mp written
    cases same
    rw [decodeField, if_neg link]
    exact decodeValue_encodeValue promised checked isValue

theorem encodeField_carried (promised : Promised p) (checked : v.Checked p kind)
    (carried : v.Carried) (links : List Bytes)
    : (encodeField p kind v links).isSome := by
  by_cases link : kind = .link
  · subst link
    cases v with
    | link id =>
        obtain ⟨target, rfl, given, found⟩ := checked
        simp [encodeField, idFromString_z32 promised found]
    | _ => exact checked.elim
  · rw [encodeField_plain link, Option.isSome_map]
    exact encodeValue_carried promised checked carried link

end Fields

-- All fields

/-- An entry's bytes are those of a checked value, also once there are more links. -/
def Written (p : Packages) (links : List Bytes) (kind : Kind) (bytes : Bytes) : Prop :=
  ∃ v : FieldValue, v.Checked p kind ∧
    ∀ final, links <+: final → decodeField p kind bytes final = v.settled

/-- What a field that was written adds to the values read. -/
def settleField (values : Values) (out : Values) (field : String × Kind) : Option Values :=
  match values field.1 with
  | none => some out
  | some v => v.settled.map fun back => Function.update out field.1 (some back)

/-- What is read of a list of fields that were written. -/
def settleAll (values : Values) (list : List (String × Kind)) (out : Values) : Option Values :=
  list.foldlM (settleField values) out

/-- The values of the fields listed are of their kinds. -/
def AllChecked (p : Packages) (values : Values) (list : List (String × Kind)) : Prop :=
  ∀ field ∈ list, ∀ v, values field.1 = some v → v.Checked p field.2

section All

variable {p : Packages} (promised : Promised p) {values : Values}

/-- Writing the fields only adds to the links. -/
theorem encodeFields_links {list : List (String × Kind)} {number : Nat} {links links' : List Bytes}
    {entries : List FieldEntry}
    (written : encodeFields p values list number links = some (entries, links'))
    : links <+: links' := by
  induction list generalizing number links entries with
  | nil =>
      cases written
      exact List.prefix_refl _
  | cons field rest ih =>
      simp only [encodeFields] at written
      cases given : values field.1 with
      | none => exact ih (by simpa only [given] using written)
      | some v =>
          simp only [given, Option.bind_eq_bind, Option.bind_eq_some_iff] at written
          obtain ⟨⟨bytes, next⟩, first, ⟨others, last⟩, later, same⟩ := written
          cases same
          exact (encodeField_links first).trans (ih later)

include promised

/-- The entries of the fields are read as what comes back of their values; each has the number of
its field.
-/
theorem encodeFields_spec {list : List (String × Kind)} {number : Nat} {links links' : List Bytes}
    {entries : List FieldEntry} (checked : AllChecked p values list)
    (written : encodeFields p values list number links = some (entries, links'))
    (held : links'.length < 2 ^ 53)
    : (∀ entry ∈ entries, ∃ place name kind, entry.1 = number + place ∧
        list[place]? = some (name, kind) ∧ Written p links' kind entry.2) ∧
      ∀ (fields : FieldList) (final : List Bytes),
        (∀ place, place < list.length → fields.numbered (number + place) = list[place]?)
        → links' <+: final
        → ∀ out, entries.foldlM (readEntry p fields final) out = settleAll values list out := by
  induction list generalizing number links entries with
  | nil =>
      cases written
      exact ⟨by simp, fun _ _ _ _ _ => rfl⟩
  | cons field rest ih =>
      have rest_ : AllChecked p values rest :=
        fun other member => checked other (List.mem_cons_of_mem _ member)
      -- A field's place among the others is one less than its place in the list.
      have next_ : ∀ fields : FieldList,
          (∀ place, place < (field :: rest).length
            → fields.numbered (number + place) = (field :: rest)[place]?)
          → ∀ place, place < rest.length → fields.numbered (number + 1 + place) = rest[place]? := by
        intro fields numbered place bound
        have shifted := numbered (place + 1) (by simpa using bound)
        rwa [← Nat.add_assoc, Nat.add_right_comm] at shifted
      have after : ∀ {entry : FieldEntry},
          (∃ place name kind, entry.1 = number + 1 + place ∧ rest[place]? = some (name, kind) ∧
            Written p links' kind entry.2)
          → ∃ place name kind, entry.1 = number + place ∧
            (field :: rest)[place]? = some (name, kind) ∧ Written p links' kind entry.2 := by
        rintro entry ⟨place, name, kind, at_, is, written_⟩
        exact ⟨place + 1, name, kind, by omega, by simpa using is, written_⟩
      simp only [encodeFields] at written
      cases given : values field.1 with
      | none =>
          obtain ⟨placed, read⟩ := ih rest_ (by simpa only [given] using written)
          refine ⟨fun entry member => after (placed entry member), ?_⟩
          intro fields final numbered start out
          have skipped : settleField values out field = some out := by rw [settleField, given]
          rw [read fields final (next_ fields numbered) start out, settleAll, settleAll,
            List.foldlM_cons, skipped]
          rfl
      | some v =>
          simp only [given, Option.bind_eq_bind, Option.bind_eq_some_iff] at written
          obtain ⟨⟨bytes, next⟩, first, ⟨others, last⟩, later, same⟩ := written
          cases same
          obtain ⟨placed, read⟩ := ih rest_ later
          have adds := encodeFields_links later
          have back : ∀ final, last <+: final → decodeField p field.2 bytes final = v.settled :=
            fun final start => decodeField_encodeField promised (checked field (by simp) v given)
              first (lt_of_le_of_lt adds.length_le held) (adds.trans start)
          refine ⟨?_, ?_⟩
          · intro entry member
            rcases List.mem_cons.mp member with rfl | member
            · exact ⟨0, field.1, field.2, rfl, rfl, v, checked field (by simp) v given, back⟩
            · exact after (placed entry member)
          · intro fields final numbered start out
            have own : fields.numbered number = some field :=
              numbered 0 (by simp)
            have first_ : readEntry p fields final out (number, bytes)
                = settleField values out field := by
              simp only [readEntry, settleField, own, given, back final start]
            rw [List.foldlM_cons, first_, settleAll, List.foldlM_cons]
            cases settleField values out field with
            | none => rfl
            | some read_ => exact read fields final (next_ fields numbered) start read_

omit promised in
/-- What was read of the fields listed, by the fields. -/
theorem settleAll_spec {list : List (String × Kind)} (unique : (list.map Prod.fst).Nodup)
    {out result : Values} (read : settleAll values list out = some result)
    : (∀ name ∉ list.map Prod.fst, result name = out name) ∧
      ∀ name ∈ list.map Prod.fst, (values name = none → result name = out name) ∧
        ∀ v, values name = some v → v.settled = result name ∧ (result name).isSome := by
  induction list generalizing out with
  | nil =>
      cases read
      exact ⟨fun _ _ => rfl, by simp⟩
  | cons field rest ih =>
      obtain ⟨fresh, unique_⟩ := List.nodup_cons.mp unique
      simp only [settleAll, List.foldlM_cons, Option.bind_eq_bind, Option.bind_eq_some_iff] at read
      obtain ⟨next, first, later⟩ := read
      obtain ⟨others, listed⟩ := ih unique_ later
      have apart : ∀ name, name ≠ field.1 → next name = out name := by
        intro name apart
        simp only [settleField] at first
        split at first
        · cases first
          rfl
        · obtain ⟨back, -, rfl⟩ := Option.map_eq_some_iff.mp first
          exact Function.update_of_ne apart _ _
      refine ⟨?_, ?_⟩
      · intro name absent
        simp only [List.map_cons, List.mem_cons, not_or] at absent
        rw [others name absent.2, apart name absent.1]
      · intro name member
        rcases List.mem_cons.mp member with rfl | member
        · rw [others field.1 fresh]
          refine ⟨fun none_ => ?_, fun v given => ?_⟩
          · rw [settleField, none_] at first
            cases first
            rfl
          · rw [settleField, given] at first
            obtain ⟨back, isBack, rfl⟩ := Option.map_eq_some_iff.mp first
            simp [isBack]
        · have other : name ≠ field.1 := fun same => fresh (same ▸ member)
          rw [← apart name other]
          exact listed name member

omit promised in
theorem settleAll_carried {list : List (String × Kind)}
    (carried : ∀ field ∈ list, ∀ v, values field.1 = some v → v.Carried) (out : Values)
    : (settleAll values list out).isSome := by
  induction list generalizing out with
  | nil => rfl
  | cons field rest ih =>
      have rest_ := ih fun other member => carried other (List.mem_cons_of_mem _ member)
      have first : ∃ next, settleField values out field = some next := by
        rw [settleField]
        cases given : values field.1 with
        | none => exact ⟨out, rfl⟩
        | some v =>
            have back := settled_iff.mpr (carried field (by simp) v given)
            exact ⟨Function.update out field.1 (some v), by simp only [back, Option.map_some]⟩
      obtain ⟨next, first⟩ := first
      rw [settleAll, List.foldlM_cons, first]
      exact rest_ next

/-- Values that are carried are all written. -/
theorem encodeFields_carried {list : List (String × Kind)} (checked : AllChecked p values list)
    (carried : ∀ field ∈ list, ∀ v, values field.1 = some v → v.Carried) (number : Nat)
    (links : List Bytes)
    : (encodeFields p values list number links).isSome := by
  induction list generalizing number links with
  | nil => rfl
  | cons field rest ih =>
      have rest_ := ih (fun other member => checked other (List.mem_cons_of_mem _ member))
        fun other member => carried other (List.mem_cons_of_mem _ member)
      simp only [encodeFields]
      cases given : values field.1 with
      | none => exact rest_ (number + 1) links
      | some v =>
          have written := encodeField_carried promised (checked field (by simp) v given)
            (carried field (by simp) v given) links
          obtain ⟨⟨bytes, next⟩, first⟩ := Option.isSome_iff_exists.mp written
          obtain ⟨⟨others, last⟩, later⟩ :=
            Option.isSome_iff_exists.mp (rest_ (number + 1) next)
          simp [first, later]

end All

end Hypergraph.Fields
