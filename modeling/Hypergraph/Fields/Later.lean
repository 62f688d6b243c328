import Hypergraph.Fields.Kept

/-! A record read under a later declaration of its type (`lib/fields.js`): what it says of the fields
an older one has is read alike, whoever wrote it.
-/

namespace Hypergraph.Fields

open Wire Js Encodings

-- Any bytes, under two declarations

section Known

variable {p : Packages} {old new : FieldList} {more : List (String × Kind)}
  (grown : new.list = old.list ++ more)

include grown

/-- An entry a newer app reads, an older one reads or skips. -/
theorem readEntry_known {links : List Bytes} {entry : FieldEntry} {out out' next : Values}
    (read : readEntry p new links out entry = some next)
    (same : ∀ name ∈ old.names, out' name = out name)
    : ∃ next', readEntry p old links out' entry = some next'
      ∧ ∀ name ∈ old.names, next' name = next name := by
  cases known : old.numbered entry.1 with
  | none =>
      refine ⟨out', by rw [readEntry, known], fun name member => ?_⟩
      simp only [readEntry] at read
      split at read
      · cases read
        exact same name member
      · rename_i other kind numbered
        obtain ⟨value, -, rfl⟩ := Option.map_eq_some_iff.mp read
        have apart : name ≠ other := fun here => numbered_more grown known numbered (here ▸ member)
        rw [Function.update_of_ne apart]
        exact same name member
  | some field =>
      simp only [readEntry, numbered_old grown known] at read
      obtain ⟨value, isValue, rfl⟩ := Option.map_eq_some_iff.mp read
      refine ⟨Function.update out' field.1 (some value), ?_, fun name member => ?_⟩
      · simp only [readEntry, known, isValue, Option.map_some]
      · by_cases here : name = field.1
        · subst here
          rw [Function.update_self, Function.update_self]
        · rw [Function.update_of_ne here, Function.update_of_ne here]
          exact same name member

/-- Bytes a newer app reads, an older one reads alike; induction on the entries left. -/
theorem decodeIn_known {links : List Bytes} {rounds : Nat} {bytes : Bytes} {out out' result : Values}
    (read : decodeIn p new links rounds bytes out = some result)
    (same : ∀ name ∈ old.names, out' name = out name)
    : ∃ result', decodeIn p old links rounds bytes out' = some result'
      ∧ ∀ name ∈ old.names, result' name = result name := by
  induction rounds generalizing bytes out out' with
  | zero =>
      cases bytes with
      | nil => cases read; exact ⟨out', rfl, same⟩
      | cons => cases read
  | succ rounds ih =>
      cases bytes with
      | nil => cases read; exact ⟨out', rfl, same⟩
      | cons =>
          simp only [decodeIn, Option.bind_eq_bind, Option.bind_eq_some_iff] at read ⊢
          obtain ⟨⟨entry, raw, rest⟩, next, out, first, later⟩ := read
          obtain ⟨next', first', same'⟩ := readEntry_known grown first same
          obtain ⟨result', later', known⟩ := ih later same'
          exact ⟨result', ⟨_, next, _, first', later'⟩, known⟩

/-- Any bytes that a newer app reads, whoever wrote them, an older one reads, and its fields alike. -/
theorem decode_known {version : Version} {result : Values}
    (read : decode p new version = some result)
    : ∃ result', decode p old version = some result'
      ∧ ∀ name ∈ old.names, result' name = result name :=
  decodeIn_known grown read fun _ _ => rfl

/-- Fields an older app knows are read by a newer one as it reads them. -/
theorem foldlM_grown {links : List Bytes} {entries : List FieldEntry}
    (known : ∀ entry ∈ entries, ∃ field, old.numbered entry.1 = some field) (out : Values)
    : entries.foldlM (readEntry p new links) out = entries.foldlM (readEntry p old links) out := by
  induction entries generalizing out with
  | nil => rfl
  | cons entry rest ih =>
      obtain ⟨⟨field, here⟩, others⟩ := List.forall_mem_cons.mp known
      have first : readEntry p new links out entry = readEntry p old links out entry := by
        rw [readEntry, readEntry, here, numbered_old grown here]
      rw [List.foldlM_cons, List.foldlM_cons, first]
      cases readEntry p old links out entry with
      | none => rfl
      | some next => exact ih others next

end Known

/-- The older app reads a newer bed. -/
theorem decode_known_bed
    : ∃ result, decode compactPackages olderBed bed = some result
      ∧ ∀ name ∈ olderBed.names, result name = bedValues name :=
  decode_known (rfl : newerBed.list = olderBed.list ++ [("map", .bytes)])
    (rfl : decode compactPackages newerBed bed = some bedValues)

-- Entries in any bytes

/-- A value is read from the bytes it takes, some at least, whatever follows them. -/
def ReadsOwn {α : Type} (codec : Codec α) : Prop :=
  ∀ bytes value rest, codec.decode bytes = some (value, rest)
    → ∃ own, bytes = own ++ rest ∧ own ≠ [] ∧ ∀ more, codec.decode (own ++ more) = some (value, more)

theorem readLittleEndian_own {width : Nat} {bytes rest : Bytes} {value : Nat}
    (read : readLittleEndian width bytes = some (value, rest))
    : ∃ own, bytes = own ++ rest ∧ ∀ more, readLittleEndian width (own ++ more) = some (value, more) := by
  induction width generalizing bytes value with
  | zero => cases read; exact ⟨[], rfl, fun _ => rfl⟩
  | succ width ih =>
      cases bytes with
      | nil => cases read
      | cons byte bytes =>
          simp only [readLittleEndian, Option.bind_eq_bind, Option.bind_eq_some_iff] at read
          obtain ⟨⟨high, rest'⟩, later, same⟩ := read
          cases same
          obtain ⟨own, rfl, again⟩ := ih later
          refine ⟨byte :: own, rfl, fun more => ?_⟩
          simp only [readLittleEndian, List.cons_append, again, Option.bind_eq_bind, Option.bind_some]
          rfl

theorem compactUint_readsOwn : ReadsOwn compactUint := by
  intro bytes value rest read
  cases bytes with
  | nil => cases read
  | cons marker bytes =>
      -- A marker and the bytes it announces.
      have wide {width : Nat} (read : readLittleEndian width bytes = some (value, rest))
          (same : ∀ bytes, compactUint.decode (marker :: bytes) = readLittleEndian width bytes)
          : ∃ own, marker :: bytes = own ++ rest ∧ own ≠ []
            ∧ ∀ more, compactUint.decode (own ++ more) = some (value, more) := by
        obtain ⟨own, rfl, again⟩ := readLittleEndian_own read
        exact ⟨marker :: own, rfl, List.cons_ne_nil _ _, fun more => (same _).trans (again more)⟩
      by_cases small : marker.toNat ≤ 0xfc
      · have alone (bytes : Bytes) : compactUint.decode (marker :: bytes) = some (marker.toNat, bytes) :=
          if_pos small
        cases (alone bytes).symm.trans read
        exact ⟨[marker], rfl, List.cons_ne_nil _ _, alone⟩
      · by_cases two : marker = 0xfd
        · have same (bytes : Bytes) : compactUint.decode (marker :: bytes) = readLittleEndian 2 bytes :=
            (if_neg small).trans (if_pos two)
          exact wide ((same bytes).symm.trans read) same
        · by_cases four : marker = 0xfe
          · have same (bytes : Bytes) : compactUint.decode (marker :: bytes) = readLittleEndian 4 bytes :=
              (if_neg small).trans ((if_neg two).trans (if_pos four))
            exact wide ((same bytes).symm.trans read) same
          · have same (bytes : Bytes) : compactUint.decode (marker :: bytes) = readLittleEndian 8 bytes :=
              (if_neg small).trans ((if_neg two).trans (if_neg four))
            exact wide ((same bytes).symm.trans read) same

section Raw

variable {p : Packages} (own : ReadsOwn p.uint)

include own

/-- An entry's own bytes are read as it again, whatever follows them. -/
theorem nextEntry_own {bytes raw rest : Bytes} {entry : FieldEntry}
    (next : nextEntry p bytes = some (entry, raw, rest))
    : bytes = raw ++ rest ∧ raw ≠ []
      ∧ ∀ more, nextEntry p (raw ++ more) = some (entry, raw, more) := by
  simp only [nextEntry, Option.bind_eq_bind, Option.bind_eq_some_iff] at next
  obtain ⟨⟨number, after⟩, isNumber, ⟨length, left⟩, isLength, is⟩ := next
  obtain ⟨head, rfl, filled, number_⟩ := own _ _ _ isNumber
  obtain ⟨size, rfl, -, length_⟩ := own _ _ _ isLength
  split_ifs at is with enough
  obtain ⟨value, tail, rfl, rfl⟩ : ∃ value tail, left = value ++ tail ∧ length = value.length :=
    ⟨left.take length, left.drop length, (List.take_append_drop _ _).symm,
      (List.length_take_of_le (Nat.not_lt.mp enough)).symm⟩
  rw [List.take_left, List.drop_left] at is
  have bytes (tail : Bytes)
      : (head ++ (size ++ (value ++ tail))).take
          ((head ++ (size ++ (value ++ tail))).length - tail.length)
        = head ++ (size ++ value) := by
    have whole : head ++ (size ++ (value ++ tail)) = head ++ (size ++ value) ++ tail := by
      simp only [List.append_assoc]
    rw [whole, List.length_append, Nat.add_sub_cancel, List.take_left]
  rw [bytes] at is
  cases is
  refine ⟨by simp only [List.append_assoc], fun empty => ?_, fun more => ?_⟩
  · exact filled (List.append_eq_nil_iff.mp empty).1
  have enough' : ¬(value ++ more).length < value.length := by simp
  simp only [nextEntry, List.append_assoc, number_, length_, Option.bind_eq_bind, Option.bind_some,
    enough', if_false, List.take_left, List.drop_left, bytes]
  rfl

end Raw

/-- Reading needs no more rounds than it took. -/
theorem decodeIn_rounds {p : Packages} {fields : FieldList} {links : List Bytes} {rounds : Nat}
    {bytes : Bytes} {out result : Values} (read : decodeIn p fields links rounds bytes out = some result)
    {rounds' : Nat} (enough : rounds ≤ rounds')
    : decodeIn p fields links rounds' bytes out = some result := by
  induction rounds generalizing rounds' bytes out with
  | zero =>
      cases bytes with
      | nil => cases rounds' <;> exact read
      | cons => cases read
  | succ rounds ih =>
      obtain ⟨rounds', rfl⟩ : ∃ left, rounds' = left + 1 := ⟨rounds' - 1, by omega⟩
      cases bytes with
      | nil => exact read
      | cons =>
          simp only [decodeIn, Option.bind_eq_bind, Option.bind_eq_some_iff] at read ⊢
          obtain ⟨entry, next, out, first, later⟩ := read
          exact ⟨entry, next, out, first, ih later (Nat.le_of_succ_le_succ enough)⟩

-- What is written under one declaration

section Written

variable {p : Packages} {old new : FieldList} {more : List (String × Kind)}

/-- The entries written are those of fields declared. -/
theorem encodeFields_numbered {values : Values} {list : List (String × Kind)} {number : Nat}
    {links links' : List Bytes} {entries : List FieldEntry}
    (written : encodeFields p values list number links = some (entries, links'))
    : ∀ entry ∈ entries, ∃ place < list.length, entry.1 = number + place := by
  induction list generalizing number links entries with
  | nil => cases written; exact fun _ met => (nomatch met)
  | cons field rest ih =>
      have later {entry : FieldEntry} (is : ∃ place < rest.length, entry.1 = number + 1 + place)
          : ∃ place < (field :: rest).length, entry.1 = number + place := by
        obtain ⟨place, within_, same⟩ := is
        exact ⟨place + 1, Nat.succ_lt_succ within_, by omega⟩
      simp only [encodeFields] at written
      cases given : values field.1 with
      | none =>
          rw [given] at written
          exact fun entry met => later (ih written entry met)
      | some value =>
          simp only [given, Option.bind_eq_bind, Option.bind_eq_some_iff] at written
          obtain ⟨⟨bytes, next⟩, -, ⟨others, last⟩, others_, same⟩ := written
          cases same
          refine List.forall_mem_cons.mpr ⟨⟨0, Nat.succ_pos _, rfl⟩, fun entry met => ?_⟩
          exact later (ih others_ entry met)

/-- A declaration's own entries are of fields it has. -/
theorem numbered_own {values : Values} {links links' : List Bytes} {entries : List FieldEntry}
    (written : encodeFields p values old.list 1 links = some (entries, links'))
    : ∀ entry ∈ entries, ∃ field, old.numbered entry.1 = some field := by
  intro entry met
  obtain ⟨place, within_, same⟩ := encodeFields_numbered written entry met
  exact ⟨_, by rw [same, numbered_one, List.getElem?_eq_getElem within_]⟩

/-- Entries that were written are read one by one, then what follows them. -/
theorem decodeIn_append (promised : Promised p) (fields : FieldList) (links : List Bytes)
    (entries : List FieldEntry) (fits : ∀ entry ∈ entries, entry.Fits) (rounds : Nat) (tail : Bytes)
    (out : Values)
    : decodeIn p fields links (entries.length + rounds)
        (entries.flatMap (FieldEntry.write p) ++ tail) out
      = (entries.foldlM (readEntry p fields links) out).bind
          (decodeIn p fields links rounds tail) := by
  induction entries generalizing out with
  | nil => rw [List.length_nil, Nat.zero_add]; rfl
  | cons entry rest ih =>
      obtain ⟨first, others⟩ := List.forall_mem_cons.mp fits
      have next := nextEntry_write promised first (rest.flatMap (FieldEntry.write p) ++ tail)
      have filled : entry.write p ++ (rest.flatMap (FieldEntry.write p) ++ tail) ≠ [] := by
        have wide := write_filled promised entry
        intro empty
        rw [(List.append_eq_nil_iff.mp empty).1] at wide
        cases wide
      rw [List.length_cons, Nat.add_right_comm, List.flatMap_cons, List.append_assoc, decodeIn, next]
      · simp only [Option.bind_eq_bind, Option.bind_some, List.foldlM_cons, ih others]
        cases readEntry p fields links out entry <;> rfl
      · exact filled

/-- What an older app kept of any bytes is skipped by it, and read by a newer one that read them,
each entry as it was; induction on the entries.
-/
theorem unknown_read (own : ReadsOwn p.uint) (grown : new.list = old.list ++ more)
    {links final : List Bytes} {rounds : Nat} {bytes : Bytes} {raws : List Bytes}
    {out out' result : Values} (unknown : unknownIn p old rounds bytes = some raws)
    (read : decodeIn p new links rounds bytes out = some result)
    (start : raws ≠ [] → links <+: final)
    : raws.length ≤ raws.flatten.length
      ∧ decodeIn p old final raws.length raws.flatten out' = some out'
      ∧ ∃ result', decodeIn p new final raws.length raws.flatten out' = some result'
        ∧ ∀ name ∈ old.names, result' name = out' name := by
  induction rounds generalizing bytes out out' raws with
  | zero =>
      cases bytes with
      | nil => cases unknown; exact ⟨Nat.le_refl 0, rfl, out', rfl, fun _ _ => rfl⟩
      | cons => cases read
  | succ rounds ih =>
      cases bytes with
      | nil => cases unknown; exact ⟨Nat.le_refl 0, rfl, out', rfl, fun _ _ => rfl⟩
      | cons =>
          simp only [decodeIn, unknownIn, Option.bind_eq_bind, Option.bind_eq_some_iff] at read unknown
          obtain ⟨⟨entry, raw, rest⟩, next, out, first, later⟩ := read
          obtain ⟨_, next', others, unknown, is⟩ := unknown
          cases next.symm.trans next'
          obtain ⟨-, filled, again⟩ := nextEntry_own own next
          cases known : old.numbered entry.1 with
          | some field =>
              rw [known] at is
              obtain rfl : others = raws := Option.some.inj is
              exact ih unknown later start
          | none =>
              rw [known] at is
              obtain rfl : raw :: others = raws := Option.some.inj is
              have start := start (List.cons_ne_nil _ _)
              have step (fields : FieldList) (out : Values)
                  : decodeIn p fields final (raw :: others).length (raw :: others).flatten out
                    = (readEntry p fields final out entry).bind
                        (decodeIn p fields final others.length others.flatten) := by
                rw [List.length_cons, List.flatten_cons, decodeIn, again]
                · rfl
                · exact fun empty => filled (List.append_eq_nil_iff.mp empty).1
              have skipped : readEntry p old final out' entry = some out' := by
                rw [readEntry, known]
              have taken : ∃ next', readEntry p new final out' entry = some next'
                  ∧ ∀ name ∈ old.names, next' name = out' name := by
                cases numbered : new.numbered entry.1 with
                | none => exact ⟨out', by rw [readEntry, numbered], fun _ _ => rfl⟩
                | some field =>
                    simp only [readEntry, numbered] at first ⊢
                    obtain ⟨value, isValue, -⟩ := Option.map_eq_some_iff.mp first
                    refine ⟨_, by rw [decodeField_more start isValue]; rfl, fun name member => ?_⟩
                    have apart : name ≠ field.1 := fun here =>
                      numbered_more grown known numbered (here ▸ member)
                    exact Function.update_of_ne apart _ _
              obtain ⟨next', first', same⟩ := taken
              obtain ⟨long, skip, -⟩ := @ih _ _ _ out' unknown later fun _ => start
              obtain ⟨-, -, result', later', same'⟩ := @ih _ _ _ next' unknown later fun _ => start
              have one := List.length_pos_iff.mpr filled
              refine ⟨?_, ?_, result', ?_, fun name member =>
                (same' name member).trans (same name member)⟩
              · rw [List.length_cons, List.flatten_cons, List.length_append]
                omega
              · rw [step, skipped]
                exact skip
              · rw [step, first']
                exact later'

/-- What a version is made of: the fields' entries, and what is kept of the one it replaces. -/
theorem encode_parts {values : Values} {keep : Option Version} {version : Version}
    (written : encode p old values keep = some version)
    : ∃ raws entries,
        (keep.elim (some []) fun before_ => unknownOf p old before_.fields) = some raws
        ∧ encodeFields p values old.list 1
            (if raws.isEmpty then [] else (keep.map Version.links).getD [])
          = some (entries, version.links)
        ∧ version.fields = entries.flatMap (FieldEntry.write p) ++ raws.flatten := by
  cases keep with
  | none =>
      obtain ⟨⟨entries, links⟩, encoded, same⟩ := Option.bind_eq_some_iff.mp written
      cases same
      exact ⟨[], entries, rfl, encoded, rfl⟩
  | some before_ =>
      obtain ⟨raws, unknown, made⟩ := Option.bind_eq_some_iff.mp written
      obtain ⟨⟨entries, links⟩, encoded, same⟩ := Option.bind_eq_some_iff.mp made
      cases same
      exact ⟨raws, entries, unknown, encoded, rfl⟩

/-- A record written under a declaration is read under a later one as it is under its own; what an
edit keeps of the version it replaces, where that one can be read there.
-/
theorem decodes_later (promised : Promised p) (own : ReadsOwn p.uint)
    (grown : new.list = old.list ++ more) {values was : Values} {keep : Option Version}
    {version : Version} (checked : AllChecked p values old.list)
    (kept : ∀ before_ ∈ keep, (decode p new before_).isSome)
    (written : encode p old values keep = some version) (held : version.Held)
    (read : decode p old version = some was)
    : ∃ is, decode p new version = some is ∧ ∀ name ∈ old.names, is name = was name := by
  obtain ⟨raws, entries, unknown, encoded, bytes⟩ := encode_parts written
  obtain ⟨fields, links⟩ := version
  obtain rfl : fields = _ := bytes
  have fits : ∀ entry ∈ entries, entry.Fits := by
    refine entries_fit promised checked encoded ⟨lt_of_le_of_lt ?_ held.1, held.2⟩
    rw [List.length_append]
    exact Nat.le_add_right _ _
  -- What was kept is skipped under its own declaration and read under the later one.
  have tail (mid : Values) : raws.length ≤ raws.flatten.length
      ∧ decodeIn p old links raws.length raws.flatten mid = some mid
      ∧ ∃ result, decodeIn p new links raws.length raws.flatten mid = some result
        ∧ ∀ name ∈ old.names, result name = mid name := by
    cases keep with
    | none => cases unknown; exact ⟨Nat.le_refl 0, rfl, mid, rfl, fun _ _ => rfl⟩
    | some before_ =>
        obtain ⟨result, read⟩ := Option.isSome_iff_exists.mp (kept before_ rfl)
        refine unknown_read own grown unknown read fun filled => ?_
        have adds := encodeFields_links encoded
        rwa [List.isEmpty_eq_false_iff.mpr filled] at adds
  have reads (fields : FieldList) {mid result : Values}
      (first : entries.foldlM (readEntry p fields links) (fun _ => none) = some mid)
      (later : decodeIn p fields links raws.length raws.flatten mid = some result)
      : decode p fields ⟨entries.flatMap (FieldEntry.write p) ++ raws.flatten, links⟩ = some result := by
    have both := decodeIn_append promised fields links entries fits raws.length raws.flatten
      fun _ => none
    rw [first, Option.bind_some, later] at both
    refine decodeIn_rounds both ?_
    rw [List.length_append]
    exact Nat.add_le_add (length_le_write promised entries) (tail mid).1
  have alike := @foldlM_grown p _ _ _ grown links _ (numbered_own encoded) fun _ => none
  cases first : entries.foldlM (readEntry p old links) (fun _ => none) with
  | none =>
      have both := decodeIn_append promised old links entries fits
        (entries.flatMap (FieldEntry.write p) ++ raws.flatten).length raws.flatten fun _ => none
      rw [first, decodeIn_rounds read (Nat.le_add_left _ _)] at both
      cases both
  | some mid =>
      obtain ⟨-, skip, result, later, same⟩ := tail mid
      cases read.symm.trans (reads old first skip)
      exact ⟨result, reads new (alike.trans first) later, same⟩

end Written

end Hypergraph.Fields
