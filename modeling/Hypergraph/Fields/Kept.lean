import Hypergraph.Fields.Validated
import Hypergraph.Fields.Packages

/-! Fields over app versions: an edit by an app that knows only the first fields of a declaration
leaves the others as they were, entries and links, exactly where the values given are carried.
-/

namespace Hypergraph.Fields

open Wire Js Encodings

-- Edits by an older app

/-- An app's changes give a field a value, or `null`. -/
def Given (changes : Dict String JsValue) (name : String) : Prop :=
  ∃ given, changes.get? name = some given ∧ given.isUndefined = false

section Objects

variable {p : Packages}

theorem lookup_fresh {name : String} {entries : List (String × JsValue)}
    (fresh : name ∉ entries.map Prod.fst)
    : entries.lookup name = none :=
  Option.not_isSome_iff_eq_none.mp fun there => fresh (Dict.mem_keys_lookup.mpr there)

theorem foldlM_jsOf {values : Values} {list : List (String × Kind)}
    (unique : (list.map Prod.fst).Nodup) {start object : Dict String JsValue}
    (made : list.foldlM (fun object field => (jsOf values field.1).map (object.put field.1)) start
      = some object)
    (name : String)
    : object.get? name = if name ∈ list.map Prod.fst then jsOf values name else start.get? name := by
  induction list generalizing start with
  | nil =>
      cases made
      rfl
  | cons field rest ih =>
      obtain ⟨fresh, unique_⟩ := List.nodup_cons.mp unique
      simp only [List.foldlM_cons, Option.bind_eq_bind, Option.bind_eq_some_iff] at made
      obtain ⟨next, first, later⟩ := made
      obtain ⟨value, isValue, rfl⟩ := Option.map_eq_some_iff.mp first
      rw [ih unique_ later, Dict.get?_put]
      by_cases here : name = field.1
      · subst here
        simp [isValue, fresh]
      · simp only [List.map_cons, List.mem_cons, here, if_false, false_or]

/-- The object of values read has each declared field. -/
theorem objectOf_spec {fields : FieldList} {values : Values} {object : Dict String JsValue}
    (made : objectOf fields values = some object) (name : String)
    : object.get? name = if name ∈ fields.names then jsOf values name else none :=
  foldlM_jsOf fields.unique made name

/-- The changes go before the values read. -/
theorem spread_spec (object : Dict String JsValue) (changes : List (String × JsValue))
    (unique : (changes.map Prod.fst).Nodup) (name : String)
    : (spread object changes).get? name = (changes.lookup name).or (object.get? name) := by
  induction changes generalizing object with
  | nil => rfl
  | cons change rest ih =>
      obtain ⟨fresh, unique_⟩ := List.nodup_cons.mp unique
      have step : spread object (change :: rest) = spread (object.put change.1 change.2) rest := rfl
      rw [step, ih _ unique_, Dict.get?_put]
      by_cases here : name = change.1
      · subst here
        have first : (change :: rest).lookup change.1 = some change.2 := by
          rw [List.lookup_cons, beq_self_eq_true]
        simp [lookup_fresh fresh, first]
      · have apart : (name == change.1) = false := by simpa using here
        rw [if_neg here, List.lookup_cons, apart]

end Objects

theorem listed_of_numbered {fields : FieldList} {number : Nat} {field : String × Kind}
    (known : fields.numbered number = some field)
    : field ∈ fields.list := by
  cases number with
  | zero => cases known
  | succ place => exact List.mem_of_getElem? known

theorem kind_unique {fields : FieldList} {name : String} {kind kind' : Kind}
    (listed : (name, kind) ∈ fields.list) (found : fields.list.lookup name = some kind')
    : kind = kind' :=
  Option.some.inj ((Dict.lookup_of_mem fields.unique listed).symm.trans found)

theorem named_of_numbered {fields : FieldList} {number : Nat} {field : String × Kind}
    (known : fields.numbered number = some field)
    : field.1 ∈ fields.names :=
  List.mem_map.mpr ⟨field, listed_of_numbered known, rfl⟩

/-- A field is read the same once there are more links. -/
theorem decodeField_more {p : Packages} {kind : Kind} {bytes : Bytes} {links final : List Bytes}
    {value : FieldValue} (start : links <+: final)
    (read : decodeField p kind bytes links = some value)
    : decodeField p kind bytes final = some value := by
  unfold decodeField at read ⊢
  split_ifs at read ⊢ with link
  · simp only [Option.bind_eq_bind, Option.bind_eq_some_iff] at read ⊢
    obtain ⟨place, isPlace, id, found, same⟩ := read
    exact ⟨place, isPlace, id, getElem?_of_start start found, same⟩
  · exact read

/-- The entries of fields an older declaration does not have. -/
def unknownTo (old : FieldList) (entries : List FieldEntry) : List FieldEntry :=
  entries.filter fun entry => (old.numbered entry.1).isNone

section Older

variable {p : Packages} (promised : Promised p) {old new : FieldList} {more : List (String × Kind)}
  (grown : new.list = old.list ++ more)

include grown

theorem numbered_old {number : Nat} {field : String × Kind}
    (known : old.numbered number = some field)
    : new.numbered number = some field := by
  cases number with
  | zero => cases known
  | succ place =>
      obtain ⟨bound, -⟩ := List.getElem?_eq_some_iff.mp known
      simp only [FieldList.numbered, grown, List.getElem?_append_left bound]
      exact known

/-- The fields an older declaration does not number have other names than its own. -/
theorem numbered_more {number : Nat} {name : String} {kind : Kind}
    (unknown : old.numbered number = none) (known : new.numbered number = some (name, kind))
    : name ∉ old.names := by
  cases number with
  | zero => cases known
  | succ place =>
      have past := List.getElem?_eq_none_iff.mp unknown
      simp only [FieldList.numbered, grown, List.getElem?_append_right past] at known
      have unique := new.unique
      rw [grown, List.map_append] at unique
      intro member
      exact (List.nodup_append.mp unique).2.2 name member name
        (List.mem_map.mpr ⟨_, List.mem_of_getElem? known, rfl⟩) rfl

/-- An older app reads of a version what a newer one reads, of the fields it knows. -/
theorem foldlM_known {links : List Bytes} {entries : List FieldEntry} {out out' result : Values}
    (read : entries.foldlM (readEntry p new links) out = some result)
    (same : ∀ name ∈ old.names, out' name = out name)
    : ∃ result', entries.foldlM (readEntry p old links) out' = some result' ∧
        (∀ name ∈ old.names, result' name = result name) ∧
        ∀ name ∉ old.names, result' name = out' name := by
  induction entries generalizing out out' with
  | nil =>
      cases read
      exact ⟨out', rfl, same, fun _ _ => rfl⟩
  | cons entry rest ih =>
      simp only [List.foldlM_cons, Option.bind_eq_bind, Option.bind_eq_some_iff] at read
      obtain ⟨next, first, later⟩ := read
      cases known : old.numbered entry.1 with
      | none =>
          have skipped : readEntry p old links out' entry = some out' := by
            rw [readEntry, known]
          have same_ : ∀ name ∈ old.names, out' name = next name := by
            intro name member
            simp only [readEntry] at first
            split at first
            · cases first
              exact same name member
            · rename_i other kind numbered
              obtain ⟨value, -, rfl⟩ := Option.map_eq_some_iff.mp first
              have apart : name ≠ other := fun here =>
                numbered_more grown known numbered (here ▸ member)
              rw [Function.update_of_ne apart]
              exact same name member
          rw [List.foldlM_cons, skipped]
          exact ih later same_
      | some field =>
          have numbered := numbered_old grown known
          simp only [readEntry, numbered] at first
          obtain ⟨value, isValue, rfl⟩ := Option.map_eq_some_iff.mp first
          have taken : readEntry p old links out' entry
              = some (Function.update out' field.1 (some value)) := by
            simp only [readEntry, known, isValue, Option.map_some]
          have same_ : ∀ name ∈ old.names,
              Function.update out' field.1 (some value) name
                = Function.update out field.1 (some value) name := by
            intro name member
            by_cases here : name = field.1
            · subst here
              simp
            · rw [Function.update_of_ne here, Function.update_of_ne here]
              exact same name member
          obtain ⟨result', later', known_, others⟩ := ih later same_
          rw [List.foldlM_cons, taken]
          refine ⟨result', later', known_, fun name absent => ?_⟩
          have apart : name ≠ field.1 := fun here => absent (here ▸ named_of_numbered known)
          rw [others name absent, Function.update_of_ne apart]

/-- The entries an older app kept are read after its own as they were. -/
theorem foldlM_unknown {links final : List Bytes} {entries : List FieldEntry}
    {out out' result : Values}
    (start : unknownTo old entries ≠ [] → links <+: final)
    (read : entries.foldlM (readEntry p new links) out = some result)
    (same : ∀ name ∉ old.names, out' name = out name)
    : ∃ result',
        (unknownTo old entries).foldlM (readEntry p new final) out' = some result' ∧
        (∀ name ∈ old.names, result' name = out' name) ∧
        ∀ name ∉ old.names, result' name = result name := by
  induction entries generalizing out out' with
  | nil =>
      cases read
      exact ⟨out', rfl, fun _ _ => rfl, same⟩
  | cons entry rest ih =>
      simp only [List.foldlM_cons, Option.bind_eq_bind, Option.bind_eq_some_iff] at read
      obtain ⟨next, first, later⟩ := read
      cases known : old.numbered entry.1 with
      | some field =>
          -- The older app wrote this field itself.
          have same_ : ∀ name ∉ old.names, out' name = next name := by
            intro name absent
            simp only [readEntry, numbered_old grown known] at first
            obtain ⟨value, -, rfl⟩ := Option.map_eq_some_iff.mp first
            have apart : name ≠ field.1 := fun here => absent (here ▸ named_of_numbered known)
            rw [Function.update_of_ne apart]
            exact same name absent
          have left : unknownTo old (entry :: rest) = unknownTo old rest := by
            simp [unknownTo, known]
          rw [left]
          exact ih (left ▸ start) later same_
      | none =>
          have kept : unknownTo old (entry :: rest) = entry :: unknownTo old rest := by
            simp [unknownTo, known]
          have start := start (kept ▸ List.cons_ne_nil entry _)
          rw [kept, List.foldlM_cons]
          cases numbered : new.numbered entry.1 with
          | none =>
              have skipped : readEntry p new final out' entry = some out' := by
                rw [readEntry, numbered]
              rw [readEntry, numbered] at first
              cases first
              rw [skipped]
              exact ih (fun _ => start) later same
          | some field =>
              simp only [readEntry, numbered] at first
              obtain ⟨value, isValue, rfl⟩ := Option.map_eq_some_iff.mp first
              have taken : readEntry p new final out' entry
                  = some (Function.update out' field.1 (some value)) := by
                simp only [readEntry, numbered, decodeField_more start isValue, Option.map_some]
              have absent := numbered_more grown known numbered
              have same_ : ∀ name ∉ old.names,
                  Function.update out' field.1 (some value) name
                    = Function.update out field.1 (some value) name := by
                intro name other
                by_cases here : name = field.1
                · subst here
                  simp
                · rw [Function.update_of_ne here, Function.update_of_ne here]
                  exact same name other
              obtain ⟨result', later', known_, others⟩ := ih (fun _ => start) later same_
              rw [taken]
              refine ⟨result', later', fun name member => ?_, others⟩
              have apart : name ≠ field.1 := fun here => absent (here ▸ member)
              rw [known_ name member, Function.update_of_ne apart]

end Older

-- Rows

/-- A version's entries, of which the declared ones are those of checked values. -/
structure Sound (p : Packages) (new : FieldList) (version : Version) (entries : List FieldEntry)
    : Prop where
  fields : version.fields = entries.flatMap (FieldEntry.write p)
  fits : ∀ entry ∈ entries, entry.Fits
  written : ∀ entry ∈ entries, ∀ name kind, new.numbered entry.1 = some (name, kind)
    → Written p version.links kind entry.2

theorem Written.more {p : Packages} {links final : List Bytes} {kind : Kind} {bytes : Bytes}
    (written : Written p links kind bytes) (start : links <+: final)
    : Written p final kind bytes := by
  obtain ⟨v, checked, read⟩ := written
  exact ⟨v, checked, fun last start_ => read last (start.trans start_)⟩

section Keeping

variable {p : Packages} (promised : Promised p) {old : FieldList} {values : Values}
  {version edited : Version} {entries : List FieldEntry}

include promised

/-- An edit's version: the entries of the fields known, written anew, then those kept. -/
theorem encode_keep (fields : version.fields = entries.flatMap (FieldEntry.write p))
    (fits : ∀ entry ∈ entries, entry.Fits)
    (encoded : encode p old values (some version) = some edited)
    : ∃ own links,
        encodeFields p values old.list 1 links = some (own, edited.links) ∧
        edited.fields = (own ++ unknownTo old entries).flatMap (FieldEntry.write p) ∧
        (unknownTo old entries ≠ [] → version.links <+: edited.links) := by
  have unknown := unknownOf_write promised old entries fits
  simp only [encode, fields, unknown, Option.bind_eq_bind, Option.bind_some,
    Option.bind_eq_some_iff] at encoded
  obtain ⟨⟨own, links⟩, written, same⟩ := encoded
  cases same
  refine ⟨own, _, written, ?_, fun kept => ?_⟩
  · rw [List.flatMap_append]
    rfl
  · have filled : ((unknownTo old entries).map (FieldEntry.write p)).isEmpty = false := by
      rw [List.isEmpty_map]
      exact List.isEmpty_eq_false_iff.mpr kept
    have adds := encodeFields_links written
    unfold unknownTo at filled
    rw [filled] at adds
    exact adds

/-- The version of an edit is sound where the one it replaces is, under a newer declaration. -/
theorem Sound.edit {new : FieldList} {more : List (String × Kind)} (grown : new.list = old.list ++ more)
    (sound : Sound p new version entries) (checked : AllChecked p values old.list)
    (encoded : encode p old values (some version) = some edited) (held : edited.Held)
    : ∃ own links, encodeFields p values old.list 1 links = some (own, edited.links) ∧
        Sound p new edited (own ++ unknownTo old entries) ∧
        (unknownTo old entries ≠ [] → version.links <+: edited.links) := by
  obtain ⟨own, links, written, fields, start⟩ :=
    encode_keep promised sound.fields sound.fits encoded
  have own_ : (Version.mk (own.flatMap (FieldEntry.write p)) edited.links).Held := by
    refine ⟨?_, held.2⟩
    have long := held.1
    rw [fields, List.flatMap_append, List.length_append] at long
    exact lt_of_le_of_lt (Nat.le_add_right _ _) long
  obtain ⟨placed, -⟩ := encodeFields_spec promised checked written held.2
  refine ⟨own, links, written, ⟨fields, ?_, ?_⟩, start⟩
  · intro entry member
    rcases List.mem_append.mp member with mine | kept
    · exact entries_fit promised checked written own_ entry mine
    · exact sound.fits entry (List.mem_filter.mp kept).1
  · intro entry member name kind numbered
    rcases List.mem_append.mp member with mine | kept
    · obtain ⟨place, name_, kind_, number, declared, written_⟩ := placed entry mine
      have known : old.numbered entry.1 = some (name_, kind_) := by
        rw [number, numbered_one, declared]
      cases (numbered_old grown known).symm.trans numbered
      exact written_
    · have from_ := sound.written entry (List.mem_filter.mp kept).1 name kind numbered
      exact from_.more (start (List.ne_nil_of_mem kept))

end Keeping

/-- A row of a type declared as `new`: put by an app that declares it so, and edited since by apps
that declare as much of it or less.
-/
inductive Row (p : Packages) (new : FieldList) : Version → Prop
  | put {type : String} {object : Dict String JsValue} {values : Values} {version : Version}
      (ok : validate p type new object = .ok values)
      (encoded : encode p new values none = some version) (held : version.Held)
      : Row p new version
  | edit {type : String} {old : FieldList} {more : List (String × Kind)} {version edited : Version}
      {changes : Dict String JsValue}
      (grown : new.list = old.list ++ more) (row : Row p new version)
      (edits : edit p type old version changes = some edited) (held : edited.Held)
      : Row p new edited

section Rows

variable {p : Packages} (promised : Promised p) {old new : FieldList} {type : String}
  {version edited : Version} {changes : Dict String JsValue} {values before_ : Values}

theorem changed_parts (edits : changed p type old version changes = some values)
    : ∃ current object, decode p old version = some current ∧ objectOf old current = some object ∧
        validate p type old (spread object
          (changes.entries.filter fun change => !change.2.isUndefined)) = .ok values := by
  simp only [changed, Option.bind_eq_bind, Option.bind_eq_some_iff] at edits
  obtain ⟨current, read, object, made, ok⟩ := edits
  refine ⟨current, object, read, made, ?_⟩
  cases checks : validate p type old (spread object
      (changes.entries.filter fun change => !change.2.isUndefined)) with
  | error err => simp [checks, Except.toOption] at ok
  | ok taken =>
      rw [checks] at ok
      cases ok
      rfl

include promised

theorem Row.sound (row : Row p new version) : ∃ entries, Sound p new version entries := by
  induction row with
  | put ok encoded held =>
      obtain ⟨checked, -⟩ := validate_checked ok
      simp only [encode, Option.bind_eq_bind, Option.bind_some, List.isEmpty_nil, if_true,
        Option.bind_eq_some_iff, List.flatten_nil, List.append_nil] at encoded
      obtain ⟨⟨entries, links⟩, written, same⟩ := encoded
      cases same
      obtain ⟨placed, -⟩ := encodeFields_spec promised checked written held.2
      refine ⟨entries, rfl, entries_fit promised checked written held, ?_⟩
      intro entry member name kind numbered
      obtain ⟨place, name_, kind_, number, declared, written_⟩ := placed entry member
      rw [number, numbered_one] at numbered
      cases declared.symm.trans numbered
      exact written_
  | edit grown row edits held ih =>
      obtain ⟨entries, sound⟩ := ih
      obtain ⟨values, edits, encoded⟩ := Option.bind_eq_some_iff.mp edits
      obtain ⟨_, _, -, -, ok⟩ := changed_parts edits
      obtain ⟨own, _, -, sound_, -⟩ :=
        sound.edit promised grown (validate_checked ok).1 encoded held
      exact ⟨_, sound_⟩

omit promised in
/-- A value read of entries that were written is of its field's kind, and carried. -/
theorem foldlM_carried {entries : List FieldEntry} {links : List Bytes} {out result : Values}
    (written : ∀ entry ∈ entries, ∀ name kind, new.numbered entry.1 = some (name, kind)
      → Written p links kind entry.2)
    (carried : ∀ field ∈ new.list, ∀ v, out field.1 = some v → v.Checked p field.2 ∧ v.Carried)
    (read : entries.foldlM (readEntry p new links) out = some result)
    : ∀ field ∈ new.list, ∀ v, result field.1 = some v → v.Checked p field.2 ∧ v.Carried := by
  induction entries generalizing out with
  | nil =>
      cases read
      exact carried
  | cons entry rest ih =>
      simp only [List.foldlM_cons, Option.bind_eq_bind, Option.bind_eq_some_iff] at read
      obtain ⟨next, first, later⟩ := read
      refine ih (fun other member => written other (List.mem_cons_of_mem _ member)) ?_ later
      intro field listed v is
      simp only [readEntry] at first
      split at first
      · cases first
        exact carried field listed v is
      · rename_i name kind numbered
        obtain ⟨value, isValue, rfl⟩ := Option.map_eq_some_iff.mp first
        by_cases here : field.1 = name
        · subst here
          simp only [Function.update_self, Option.some.injEq] at is
          subst is
          have same : kind = field.2 :=
            kind_unique (listed_of_numbered numbered) (Dict.lookup_of_mem new.unique listed)
          subst same
          obtain ⟨given, checked, read_⟩ := written entry (by simp) _ _ numbered
          rw [read_ links (List.prefix_refl _)] at isValue
          exact settled_checked checked isValue
        · rw [Function.update_of_ne here] at is
          exact carried field listed v is

/-- Every value read of a row is of its field's kind, and carried. -/
theorem read_carried {entries : List FieldEntry} (sound : Sound p new version entries)
    (read : decode p new version = some before_)
    : ∀ field ∈ new.list, ∀ v, before_ field.1 = some v → v.Checked p field.2 ∧ v.Carried := by
  obtain ⟨bytes, links⟩ := version
  obtain ⟨rfl, fits, written⟩ := sound
  rw [decode_write promised new links entries fits] at read
  exact foldlM_carried written (fun _ _ _ none_ => (by cases none_)) read

/-- An older app reads of a row's known fields what a newer one does. -/
theorem current_eq {entries : List FieldEntry} {more : List (String × Kind)} {current : Values}
    (sound : Sound p new version entries) (grown : new.list = old.list ++ more)
    (read : decode p new version = some before_) (known : decode p old version = some current)
    : ∀ name ∈ old.names, current name = before_ name := by
  obtain ⟨bytes, links⟩ := version
  obtain ⟨rfl, fits, -⟩ := sound
  rw [decode_write promised new links entries fits] at read
  rw [decode_write promised old links entries fits] at known
  obtain ⟨result, known', same, -⟩ := foldlM_known grown read fun _ _ => rfl
  cases known.symm.trans known'
  exact same

omit promised in
/-- What the spread object has for a field no change was given for. -/
theorem spread_left {object : Dict String JsValue} {name : String} (left : ¬Given changes name)
    : (spread object (changes.entries.filter fun change => !change.2.isUndefined)).get? name
      = object.get? name := by
  have unique : ((changes.entries.filter fun change => !change.2.isUndefined).map Prod.fst).Nodup :=
    changes.unique.sublist (List.filter_sublist.map Prod.fst)
  rw [spread_spec object _ unique name]
  cases found : (changes.entries.filter fun change => !change.2.isUndefined).lookup name with
  | none => rfl
  | some given =>
      obtain ⟨member, defined⟩ := List.mem_filter.mp (Dict.mem_of_lookup found)
      exact absurd ⟨given, Dict.mem_entries_iff.mp member, by simpa using defined⟩ left

/-- A field no change was given for has the value it had. -/
theorem values_left {entries : List FieldEntry} {more : List (String × Kind)}
    (sound : Sound p new version entries) (grown : new.list = old.list ++ more)
    (read : decode p new version = some before_)
    (edits : changed p type old version changes = some values)
    {name : String} (member : name ∈ old.names) (left : ¬Given changes name)
    : values name = before_ name := by
  obtain ⟨current, object, known, made, ok⟩ := changed_parts edits
  have same := current_eq promised sound grown read known name member
  have has : (spread object (changes.entries.filter fun change => !change.2.isUndefined)).get? name
      = object.get? name := spread_left left
  rw [objectOf_spec made name, if_pos member] at has
  obtain ⟨field, listed, rfl⟩ := List.mem_map.mp member
  cases value : before_ field.1 with
  | none =>
      have js : jsOf current field.1 = some .null := by rw [jsOf, same, value]
      exact (validate_spec ok field.1).2 _ (has.trans js)
  | some v =>
      have there : field ∈ new.list := grown ▸ List.mem_append_left more listed
      obtain ⟨checked, carried⟩ := read_carried promised sound read field there v value
      obtain ⟨given, toJs, checks, undefined, null⟩ :=
        @checkValue_toJs p type field.1 field.2 v promised checked carried
      have js : jsOf current field.1 = some given := by
        rw [jsOf, same, value]
        exact toJs
      have taken := (validate_spec ok field.1).2 _ (has.trans js)
      rw [TakenAs, if_neg (by simp [undefined, null])] at taken
      obtain ⟨kind, v', declared, checks', is⟩ := taken
      cases kind_unique listed declared
      cases checks.symm.trans checks'
      exact is

/-- Where all that is given is carried, so are the values of the edit. -/
theorem values_carried {entries : List FieldEntry} {more : List (String × Kind)}
    (sound : Sound p new version entries) (grown : new.list = old.list ++ more)
    (read : decode p new version = some before_)
    (edits : changed p type old version changes = some values)
    (given : ∀ name v, Given changes name → values name = some v → v.Carried)
    : ∀ field ∈ old.list, ∀ v, values field.1 = some v → v.Carried := by
  intro field member v is
  by_cases change : Given changes field.1
  · exact given field.1 v change is
  · have named : field.1 ∈ old.names := List.mem_map_of_mem member
    have left := values_left promised sound grown read edits named change
    have there : field ∈ new.list := grown ▸ List.mem_append_left more member
    exact (read_carried promised sound read field there v (left.symm.trans is)).2

/-- And they are written. -/
theorem encode_carried {entries : List FieldEntry} {more : List (String × Kind)}
    (sound : Sound p new version entries) (grown : new.list = old.list ++ more)
    (read : decode p new version = some before_)
    (edits : changed p type old version changes = some values)
    (given : ∀ name v, Given changes name → values name = some v → v.Carried)
    : ∃ edited, encode p old values (some version) = some edited := by
  obtain ⟨_, _, -, -, ok⟩ := changed_parts edits
  have carried := values_carried promised sound grown read edits given
  have unknown := unknownOf_write promised old entries sound.fits
  have written := encodeFields_carried promised (validate_checked ok).1 carried 1
  simp only [encode, sound.fields, unknown, Option.bind_eq_bind, Option.bind_some]
  obtain ⟨made, isMade⟩ := Option.isSome_iff_exists.mp (written (if
    ((entries.filter fun entry => (old.numbered entry.1).isNone).map
      (FieldEntry.write p)).isEmpty then [] else version.links))
  simp only [Option.map_some, Option.getD_some, isMade, Option.bind_some]
  exact ⟨_, rfl⟩

/-- An edit by an older app gives the row with exactly the fields it edits replaced, where all it
gives is carried.
-/
theorem edit_keeps_iff {entries : List FieldEntry} {more : List (String × Kind)}
    (sound : Sound p new version entries) (grown : new.list = old.list ++ more)
    (read : decode p new version = some before_)
    (edits : changed p type old version changes = some values)
    (encoded : encode p old values (some version) = some edited) (held : edited.Held)
    : decode p new edited
        = some (fun name => if name ∈ old.names then values name else before_ name) ↔
      ∀ name v, Given changes name → values name = some v → v.Carried := by
  obtain ⟨_, _, -, -, ok⟩ := changed_parts edits
  obtain ⟨checked, declared⟩ := validate_checked ok
  obtain ⟨own, _, written, sound', start⟩ := sound.edit promised grown checked encoded held
  obtain ⟨-, reads⟩ := encodeFields_spec promised checked written held.2
  -- The newer app reads the edit's own entries, then those kept.
  have parts : decode p new edited
      = (settleAll values old.list fun _ => none) >>= fun out =>
          (unknownTo old entries).foldlM (readEntry p new edited.links) out := by
    obtain ⟨bytes, links⟩ := edited
    obtain ⟨rfl, fits, -⟩ := sound'
    rw [decode_write promised new links _ fits, List.foldlM_append]
    rw [reads new links ?_ (List.prefix_refl _)]
    intro place bound
    rw [numbered_one, grown, List.getElem?_append_left bound]
  have kept : entries.foldlM (readEntry p new version.links) (fun _ => none) = some before_ := by
    obtain ⟨bytes, links⟩ := version
    obtain ⟨rfl, fits, -⟩ := sound
    exact (decode_write promised new links entries fits).symm.trans read
  have then_ : ∀ out : Values, (∀ name ∉ old.names, out name = none)
      → ∃ result, (unknownTo old entries).foldlM (readEntry p new edited.links) out = some result ∧
        (∀ name ∈ old.names, result name = out name) ∧
        ∀ name ∉ old.names, result name = before_ name :=
    fun out none_ => foldlM_unknown grown start kept none_
  have listed_ : ∀ name v, values name = some v → name ∈ old.names := by
    intro name v is
    by_contra absent
    simp [declared name absent] at is
  rw [parts]
  constructor
  · intro same name v given is
    obtain ⟨out, settled, later⟩ := Option.bind_eq_some_iff.mp same
    obtain ⟨others, listed⟩ := settleAll_spec old.unique settled
    obtain ⟨result, later', own_, -⟩ := then_ out others
    cases later.symm.trans later'
    have member := listed_ name v is
    have back := own_ name member
    simp only [member, if_true, is] at back
    exact settled_iff.mp (((listed name member).2 v is).1.trans back.symm)
  · intro given
    have carried := values_carried promised sound grown read edits given
    obtain ⟨out, settled⟩ := Option.isSome_iff_exists.mp
      (settleAll_carried carried fun _ => none)
    obtain ⟨others, listed⟩ := settleAll_spec old.unique settled
    obtain ⟨result, later, own_, rest⟩ := then_ out others
    rw [settled]
    refine later.trans (congrArg some (funext fun name => ?_))
    by_cases member : name ∈ old.names
    · rw [if_pos member, own_ name member]
      cases is : values name with
      | none => exact (listed name member).1 is
      | some v =>
          obtain ⟨field, there, rfl⟩ := List.mem_map.mp member
          rw [← ((listed field.1 member).2 v is).1]
          exact settled_iff.mpr (carried field there v is)
    · rw [if_neg member, rest name member]

omit promised in
/-- A field a change was given for has the value given, checked, or none if that is `null`. -/
theorem values_given (edits : changed p type old version changes = some values) {name : String}
    {given : JsValue} (change : changes.get? name = some given)
    (defined : given.isUndefined = false)
    : TakenAs p type old name none given (values name) := by
  obtain ⟨_, object, -, -, ok⟩ := changed_parts edits
  have unique : ((changes.entries.filter fun change => !change.2.isUndefined).map Prod.fst).Nodup :=
    changes.unique.sublist (List.filter_sublist.map Prod.fst)
  have member : (name, given) ∈ changes.entries.filter fun change => !change.2.isUndefined :=
    List.mem_filter.mpr ⟨Dict.mem_entries_iff.mpr change, by simp [defined]⟩
  refine (validate_spec ok name).2 given ?_
  rw [spread_spec object _ unique name, Dict.lookup_of_mem unique member]
  rfl

end Rows

/-- A garden bed as an app declares it, and a newer one. -/
def olderBed : FieldList := ⟨[("depth", .int), ("rows", .uint)], by decide, by decide⟩

def newerBed : FieldList :=
  ⟨[("depth", .int), ("rows", .uint), ("map", .bytes)], by decide, by decide⟩

def bedObject : Dict String JsValue :=
  ⟨[("depth", .number (.whole (-3) (by decide))), ("map", .buffer [1, 2])], by decide⟩

def bedValues : Values :=
  Function.update (Function.update (fun _ => none) "depth" (some (.int (-3)))) "map"
    (some (.bytes [1, 2]))

def bed : Version := ⟨[1, 1, 5, 3, 2, 1, 2], []⟩

def deepened : Dict String JsValue := ⟨[("depth", .number (.whole (-5) (by decide)))], by decide⟩

def deepenedValues : Values := Function.update (fun _ => none) "depth" (some (.int (-5)))

/-- A bed deeper than `c.int` counts. -/
def deepObject : Dict String JsValue :=
  ⟨[("depth", .number (.whole 4503599627370496 (by decide)))], by decide⟩

def deepValues : Values := Function.update (fun _ => none) "depth" (some (.int 4503599627370496))

end Hypergraph.Fields
