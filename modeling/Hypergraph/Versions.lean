import Hypergraph.Decisions.Rebuilt
import Hypergraph.Describing
import Hypergraph.Recording
import Hypergraph.Fields.Later

/-! The versions of a space's types (`checkCompatible` in `lib/types.js`, `types/set` in
`lib/decisions/apply.js`): what a version that is accepted keeps of the ones before it.
-/

namespace Hypergraph

open Js

-- One type

/-- The field records are grouped by where one counts per member; a nameless one groups by none. -/
def StoredType.grouping (t : StoredType) : Option String :=
  if t.onePerMember then ((t.fields.find? (·.2 = "link")).map Prod.fst).filter (· ≠ "") else none

def TypeDecl.grouping (t : TypeDecl) : Option String := t.target.filter (· ≠ "")

/-- The field records are grouped by is the first link. -/
def TypeDecl.Targeted (t : TypeDecl) : Prop :=
  t.target = if t.onePerMember then (t.fields.find? (·.2 = .link)).map Prod.fst else none

/-- A type goes on from a stored one, whatever is indexed. -/
structure Continues (old : StoredType) (now : TypeDecl) : Prop where
  fields : old.fields <+: now.fields.map fun field => (field.1, field.2.name)
  links : ∀ field, (field, "link") ∈ old.fields
    → lookup old.links.entries field = lookup now.links.entries field
  onePerMember : old.onePerMember = now.onePerMember
  grouping : old.grouping = now.grouping
  editable : old.editable = now.editable
  put : old.put.getD .members = now.put

theorem Kind.name_eq_link {kind : Kind} : kind.name = "link" ↔ kind = .link := by
  cases kind <;> decide

theorem Kind.name_injective {kind kind' : Kind} (same : kind.name = kind'.name) : kind = kind' := by
  revert same
  cases kind <;> cases kind' <;> decide

theorem truthy_iff {name : Option String} : truthy name = true ↔ name.filter (· ≠ "") ≠ none := by
  cases name with
  | none => decide
  | some name => by_cases empty : name = "" <;> simp [truthy, empty]

/-- The first link of fields that others go on from, if there is one. -/
theorem find?_link {old : List (String × String)} {now : List (String × Kind)}
    (fields : old <+: now.map fun field => (field.1, field.2.name))
    (linked : old.any (·.2 = "link") = true)
    : (old.find? (·.2 = "link")).map Prod.fst = (now.find? (·.2 = .link)).map Prod.fst := by
  have whole : (now.map fun field => (field.1, field.2.name)).find? (·.2 = "link")
      = (now.find? (·.2 = .link)).map fun field => (field.1, field.2.name) := by
    rw [List.find?_map]
    congr 2
    funext field
    exact decide_eq_decide.mpr Kind.name_eq_link
  obtain ⟨more, same⟩ := fields
  obtain ⟨first, found⟩ := Option.isSome_iff_exists.mp (List.find?_isSome.mpr (List.any_eq_true.mp linked))
  rw [← same, List.find?_append, found, Option.some_or] at whole
  rw [found]
  cases now_ : now.find? (·.2 = .link) with
  | none => rw [now_] at whole; cases whole
  | some field => rw [now_] at whole; cases whole; rfl

namespace Types

theorem checkField_eq_ok {name field kind : String} {old : StoredType} {now : TypeDecl} {i : Nat}
    : checkField name old now ((field, kind), i) = .ok ()
      ↔ (now.fields[i]?).map (fun f => (f.1, f.2.name)) = some (field, kind)
        ∧ (kind = "link" → lookup old.links.entries field = lookup now.links.entries field) := by
  constructor
  · intro accepted
    refine ⟨field_of_accepted accepted, fun link => ?_⟩
    simp only [checkField, throwIf_bind, throwIf_eq_ok, Bool.and_eq_false_iff] at accepted
    rcases accepted.2.2 with other | same
    · exact absurd link (of_decide_eq_false other)
    · exact not_not.mp (of_decide_eq_false same)
  · rintro ⟨there, links⟩
    obtain ⟨f, is, same⟩ := Option.map_eq_some_iff.mp there
    cases same
    simp only [checkField, is, throwIf_bind, throwIf_eq_ok, Option.map_some, Option.getD_some,
      ne_eq, not_true, decide_false, Bool.and_eq_false_iff, decide_eq_false_iff_not, not_not,
      true_and]
    exact Decidable.not_or_of_imp links

theorem checkType_eq_ok {name : String} {old : StoredType} {now : TypeDecl} (targeted : now.Targeted)
    : checkType name old now = .ok () ↔ Continues old now := by
  have fields : (∀ item ∈ old.fields.zipIdx, checkField name old now item = .ok ())
      ↔ old.fields <+: now.fields.map (fun field => (field.1, field.2.name))
        ∧ ∀ field, (field, "link") ∈ old.fields
          → lookup old.links.entries field = lookup now.links.entries field := by
    have each : (∀ item ∈ old.fields.zipIdx, checkField name old now item = .ok ())
        ↔ ∀ (i : Nat) field kind, old.fields[i]? = some (field, kind)
          → (now.fields[i]?).map (fun f : String × Kind => (f.1, f.2.name)) = some (field, kind)
            ∧ (kind = "link"
              → lookup old.links.entries field = lookup now.links.entries field) := by
      constructor
      · intro all i field kind at_
        exact checkField_eq_ok.mp (all ((field, kind), i) (List.mem_zipIdx_iff_getElem?.mpr at_))
      · rintro all ⟨⟨field, kind⟩, i⟩ listed
        exact checkField_eq_ok.mpr (all i field kind (List.mem_zipIdx_iff_getElem?.mp listed))
    rw [each, List.prefix_iff_getElem?]
    constructor
    · intro all
      refine ⟨fun i within_ => ?_, fun field listed => ?_⟩
      · rw [List.getElem?_map]
        exact (all i _ _ (List.getElem?_eq_getElem within_)).1
      · obtain ⟨i, at_⟩ := List.mem_iff_getElem?.mp listed
        exact (all i field "link" at_).2 rfl
    · rintro ⟨start, links⟩ i field kind at_
      obtain ⟨within_, is⟩ := List.getElem?_eq_some_iff.mp at_
      have there := start i within_
      rw [List.getElem?_map, is] at there
      refine ⟨there, ?_⟩
      rintro rfl
      exact links field (List.mem_of_getElem? at_)
  have groups (start : old.fields <+: now.fields.map fun field => (field.1, field.2.name))
      (once : old.onePerMember = now.onePerMember)
      : (now.onePerMember && truthy now.target && !old.fields.any (·.2 = "link")) = false
        ↔ old.grouping = now.grouping := by
    unfold StoredType.grouping TypeDecl.grouping
    rw [once, targeted]
    cases now.onePerMember with
    | false => exact ⟨fun _ => rfl, fun _ => rfl⟩
    | true =>
        rw [if_pos rfl, if_pos rfl, Bool.true_and]
        cases linked : old.fields.any (·.2 = "link") with
        | true =>
            rw [find?_link start linked]
            exact ⟨fun _ => rfl, fun _ => Bool.and_false _⟩
        | false =>
            have none_ : old.fields.find? (·.2 = "link") = none := by
              refine List.find?_eq_none.mpr fun field listed link => ?_
              rw [List.any_eq_true.mpr ⟨field, listed, link⟩] at linked
              cases linked
            rw [none_, Bool.not_false, Bool.and_true, ← Bool.not_eq_true, truthy_iff, not_not]
            exact ⟨Eq.symm, Eq.symm⟩
  unfold checkType
  rw [bind_eq_ok]
  constructor
  · rintro ⟨_, checked, accepted⟩
    simp only [throwIf_bind, throwIf_eq_ok, decide_eq_false_iff_not, ne_eq, not_not] at accepted
    obtain ⟨once, grouped, editable, put⟩ := accepted
    obtain ⟨start, links⟩ := fields.mp (forM_eq_ok.mp checked)
    exact ⟨start, links, once, (groups start once).mp grouped, editable, put⟩
  · intro goes
    refine ⟨(), forM_eq_ok.mpr (fields.mpr ⟨goes.fields, goes.links⟩), ?_⟩
    simp only [throwIf_bind, throwIf_eq_ok, decide_eq_false_iff_not, ne_eq, not_not]
    exact ⟨goes.onePerMember, (groups goes.fields goes.onePerMember).mpr goes.grouping,
      goes.editable, goes.put⟩

-- All types

/-- What `new Types` makes. -/
def Constructed (types : Types) : Prop := ∃ declarations, new declarations = .ok types

theorem Constructed.targeted {types : Types} (made : types.Constructed) {name : String}
    {t : TypeDecl} (is : types.types.get? name = some t)
    : t.Targeted := by
  obtain ⟨declarations, made⟩ := made
  obtain ⟨own, builtins, apps, are, entries⟩ := new_eq_ok.mp made
  have listed : (name, t) ∈ own ++ builtins := entries ▸ Dict.mem_entries_iff.mpr is
  have declared {α : Type} {all : Dict String α} {builtin : Bool} {name : String}
      {decl : Declaration} (declares : declare name decl all builtin = .ok t)
      : t.Targeted := by
    have made := (declare_eq_ok.mp declares).1
    rw [TypeDecl.Targeted, made]
    rfl
  rcases List.mem_append.mp listed with mine | built
  · obtain ⟨_, _, _, declares⟩ := apps.of_mem mine
    exact declared declares
  · obtain ⟨_, _, _, declares⟩ := are.of_mem built
    exact declared declares

/-- Every stored type is there, gone on from. -/
def ContinuesAll (stored : Stored) (types : Types) : Prop :=
  ∀ name old, stored.get? name = some old
    → ∃ now, types.types.get? name = some now ∧ Continues old now

theorem checkCompatible_eq_ok {types : Types} (made : types.Constructed) {stored : Stored}
    : types.checkCompatible (some stored) = .ok () ↔ ContinuesAll stored types := by
  unfold checkCompatible ContinuesAll
  rw [forM_eq_ok]
  constructor
  · intro all name old is
    have here := all (name, old) (Dict.mem_entries_iff.mpr is)
    dsimp only at here
    cases there : types.types.get? name with
    | none => rw [there] at here; cases here
    | some now =>
        rw [there] at here
        exact ⟨now, rfl, (checkType_eq_ok (made.targeted there)).mp here⟩
  · rintro all ⟨name, old⟩ listed
    obtain ⟨now, there, goes⟩ := all name old (Dict.mem_entries_iff.mp listed)
    dsimp only
    rw [there]
    exact (checkType_eq_ok (made.targeted there)).mpr goes

/-- The stored types' indexes are kept. -/
def KeepsIndexes (stored : Stored) (types : Types) : Prop :=
  ∀ name old now, stored.get? name = some old → types.types.get? name = some now
    → ∀ keys ∈ old.index.getD [], keys ∈ now.index

instance (stored : Stored) (types : Types) : Decidable (KeepsIndexes stored types) :=
  decidable_of_iff
    (∀ entry ∈ stored.entries, ∀ type ∈ types.types.entries, type.1 = entry.1
      → ∀ keys ∈ entry.2.index.getD [], keys ∈ type.2.index)
    ⟨fun all name old now is there => all (name, old) (Dict.mem_entries_iff.mpr is) (name, now)
        (Dict.mem_entries_iff.mpr there) rfl,
      fun keeps entry listed type there same => keeps entry.1 entry.2 type.2
        (Dict.mem_entries_iff.mp listed) (Dict.mem_entries_iff.mp (same ▸ there))⟩

/-- Types and fields are added, and indexes: all there was is there as it was. -/
def OnlyAdds (stored : Stored) (types : Types) : Prop :=
  ∀ name old, stored.get? name = some old
    → ∃ now, types.types.get? name = some now ∧ Continues old now
      ∧ ∀ keys ∈ old.index.getD [], keys ∈ now.index

theorem OnlyAdds.keepsIndexes {stored : Stored} {types : Types} (adds : OnlyAdds stored types)
    : KeepsIndexes stored types := by
  intro name old now is there
  obtain ⟨now', there', _, kept⟩ := adds name old is
  cases there.symm.trans there'
  exact kept

theorem onlyAdds_iff {stored : Stored} {types : Types} (goes : ContinuesAll stored types)
    : OnlyAdds stored types ↔ KeepsIndexes stored types := by
  refine ⟨OnlyAdds.keepsIndexes, fun keeps name old is => ?_⟩
  obtain ⟨now, there, same⟩ := goes name old is
  exact ⟨now, there, same, keeps name old now is there⟩

theorem describeType_grouping {t : TypeDecl} (targeted : t.Targeted)
    : (describeType t).grouping = t.grouping := by
  unfold StoredType.grouping TypeDecl.grouping
  rw [targeted]
  cases once : t.onePerMember with
  | false => simp [describeType, once]
  | true =>
      have first : (describeType t).fields.find? (·.2 = "link")
          = (t.fields.find? (·.2 = .link)).map fun field => (field.1, field.2.name) := by
        unfold describeType
        rw [List.find?_map]
        congr 2
        funext field
        exact decide_eq_decide.mpr Kind.name_eq_link
      rw [first]
      simp [describeType, once, Function.comp_def]

theorem continues_refl {t : TypeDecl} (targeted : t.Targeted) : Continues (describeType t) t where
  fields := List.prefix_refl _
  links _ _ := rfl
  onePerMember := rfl
  grouping := describeType_grouping targeted
  editable := rfl
  put := rfl

/-- What goes on from a type that goes on from a stored one, goes on from that one. -/
theorem continues_trans {old : StoredType} {t now : TypeDecl} {links : Dict String (List String)}
    (first : Continues old t) (targeted : t.Targeted)
    (second : Continues { describeType t with links := links } now)
    (same : ∀ field, (field, "link") ∈ old.fields
      → lookup t.links.entries field = lookup links.entries field)
    : Continues old now where
  fields := first.fields.trans second.fields
  links field listed := (first.links field listed).trans
    ((same field listed).trans (second.links field (first.fields.subset listed)))
  onePerMember := first.onePerMember.trans second.onePerMember
  grouping := first.grouping.trans ((describeType_grouping targeted).symm.trans second.grouping)
  editable := first.editable.trans second.editable
  put := first.put.trans second.put

theorem compatible_refl {types : Types} (made : types.Constructed)
    : types.checkCompatible (some types.describe) = .ok () := by
  refine (checkCompatible_eq_ok made).mpr fun name old is => ?_
  obtain ⟨_, t, there, rfl⟩ := describe_get?.mp is
  exact ⟨t, there, continues_refl (made.targeted there)⟩

/-- A declaration is compatible with what one it is compatible with is compatible with. -/
theorem compatible_trans {first second third : Types} (made : second.Constructed)
    (made' : third.Constructed)
    (here : second.checkCompatible (some first.describe) = .ok ())
    (there : third.checkCompatible (some second.describe) = .ok ())
    : third.checkCompatible (some first.describe) = .ok () := by
  rw [checkCompatible_eq_ok made] at here
  rw [checkCompatible_eq_ok made'] at there ⊢
  intro name old is
  obtain ⟨t, known, goes⟩ := here name old is
  have free := (describe_get?.mp is).1
  obtain ⟨now, found, goes'⟩ := there name _ (describe_get?.mpr ⟨free, t, known, rfl⟩)
  exact ⟨now, found, continues_trans goes (made.targeted known) goes' fun _ _ => rfl⟩

-- Read back

theorem lookup_eq {α : Type} {dict dict' : Dict String α} {name : String}
    (same : dict.get? name = dict'.get? name)
    : lookup dict.entries name = lookup dict'.entries name := by
  unfold lookup
  rw [show dict.entries.lookup name = dict'.entries.lookup name from same]

/-- What JSON has of a type described: all but the links of `__proto__`. -/
theorem json_get? {types : Types} {name : String} {stored : StoredType}
    : (json types.describe).get? name = some stored
      ↔ isBuiltin name = false ∧ ∃ t, types.types.get? name = some t
        ∧ { describeType t with links := (t.links.filter (· ≠ "__proto__")).listing } = stored := by
  unfold json
  rw [Dict.get?_listing, Dict.get?_map, Dict.get?_filter]
  by_cases proto : name = "__proto__"
  · subst proto
    have always : isBuiltin "__proto__" = true := isBuiltin_iff.mpr (.inr (by decide))
    simp [always]
  · rw [if_pos (decide_eq_true proto)]
    simp only [Option.map_eq_some_iff, describe_get?]
    constructor
    · rintro ⟨_, ⟨free, t, is, rfl⟩, rfl⟩
      exact ⟨free, t, is, rfl⟩
    · rintro ⟨free, t, is, rfl⟩
      exact ⟨_, ⟨free, t, is, rfl⟩, rfl⟩

theorem json_links {links : Dict String (List String)} {field : String} (other : field ≠ "__proto__")
    : lookup (links.filter (· ≠ "__proto__")).listing.entries field = lookup links.entries field := by
  refine lookup_eq ?_
  rw [Dict.get?_listing, Dict.get?_filter, if_pos (decide_eq_true other)]

theorem json_proto (links : Dict String (List String))
    : lookup (links.filter (· ≠ "__proto__")).listing.entries "__proto__" = .inherited := by
  have gone : (links.filter (· ≠ "__proto__")).listing.entries.lookup "__proto__" = none := by
    change (links.filter (· ≠ "__proto__")).listing.get? "__proto__" = none
    rw [Dict.get?_listing, Dict.get?_filter]
    rfl
  unfold lookup
  rw [gone]
  rfl

/-- A version is compatible with all that the one before it is compatible with, each read back. -/
theorem compatible_read {first second third : Types} (made : second.Constructed)
    (made' : third.Constructed)
    (here : second.checkCompatible (some (json first.describe)) = .ok ())
    (there : third.checkCompatible (some (json second.describe)) = .ok ())
    : third.checkCompatible (some (json first.describe)) = .ok () := by
  rw [checkCompatible_eq_ok made] at here
  rw [checkCompatible_eq_ok made'] at there ⊢
  intro name old is
  obtain ⟨t, known, goes⟩ := here name old is
  obtain ⟨free, t', _, rfl⟩ := json_get?.mp is
  obtain ⟨now, found, goes'⟩ := there name _ (json_get?.mpr ⟨free, t, known, rfl⟩)
  refine ⟨now, found, continues_trans goes (made.targeted known) goes' fun field listed => ?_⟩
  by_cases proto : field = "__proto__"
  · subst proto
    rw [json_proto, ← goes.links _ listed, json_proto]
  · exact (json_links proto).symm

-- The versions recorded

/-- The text recorded for types that are set, after the latest version's if there is one, with
`JSON.parse` and `JSON.stringify` as given.
-/
def recordedText (parse : String → Option Stored) (print : Stored → String) (types : String)
    (current : Option String) : Option String := do
  let given ← parse types
  let current ← current.mapM parse
  (setTypes current given).map print

theorem setTypes_eq_some {current : Option Stored} {given : Stored} {recorded : Stored}
    : setTypes current given = some recorded
      ↔ ∃ next, ofStored given = .ok next ∧ next.checkCompatible current = .ok ()
        ∧ next.describe = recorded := by
  unfold setTypes
  cases made : ofStored given with
  | error err => exact ⟨fun same => (nomatch same), fun ⟨_, same, _⟩ => (nomatch same)⟩
  | ok next =>
      cases checked : next.checkCompatible current with
      | error err =>
          simp [bind, Except.bind, checked]
      | ok _ =>
          simp [bind, Except.bind, checked, pure, Except.pure]

end Types

namespace Decisions

open Hypergraph.Types Readers

section Chains

variable (parse : String → Option Stored) (print : Stored → String) {env : Env} {v w : View}
  {node : Node}

/-- The versions recorded: one after another from the first, each compatible with every earlier one
as it is read back.
-/
structure Chain (v : View) (versions : List Types) : Prop where
  latest : v.types.getD 0 = versions.length
  recorded : ∀ n types, versions[n]? = some types → v.typesAt (n + 1) = some (print types.describe)
  constructed : ∀ types ∈ versions, types.Constructed
  compatible : versions.Pairwise fun earlier later =>
    later.checkCompatible (some (json earlier.describe)) = .ok ()

/-- What is recorded is read back as JSON has it. -/
def ReadBack (v : View) : Prop :=
  ∀ version (types : Types), v.typesAt version = some (print types.describe)
    → parse (print types.describe) = some (json types.describe)

variable {parse print}

/-- A version more. -/
theorem Chain.add {versions : List Types} (chain : Chain print v versions)
    (reads : ReadBack parse print v) (declares : env.declared = recordedText parse print)
    {types text : String} (next : nextTypes env v types = some text)
    : ∃ last : Types, last.Constructed ∧ text = print last.describe
      ∧ ∀ earlier ∈ versions, last.checkCompatible (some (json earlier.describe)) = .ok () := by
  have made {current : Option String} (declared : env.declared types current = some text)
      : ∃ last : Types, last.Constructed ∧ text = print last.describe
        ∧ ∀ recorded stored, current = some recorded → parse recorded = some stored
          → last.checkCompatible (some stored) = .ok () := by
    simp only [declares, recordedText, Option.bind_eq_bind, Option.bind_eq_some_iff,
      Option.map_eq_some_iff, setTypes_eq_some] at declared
    obtain ⟨given, _, read, parsed, _, ⟨last, made, checked, rfl⟩, rfl⟩ := declared
    refine ⟨last, ⟨_, made⟩, rfl, fun recorded stored is parses => ?_⟩
    subst is
    rw [Option.mapM_some, Option.map_eq_map] at parsed
    obtain ⟨stored', parses', rfl⟩ := Option.map_eq_some_iff.mp parsed
    cases parses.symm.trans parses'
    exact checked
  unfold nextTypes at next
  split at next
  · rename_i none_
    obtain ⟨last, constructed, same, _⟩ := made next
    have empty : versions = [] := List.length_eq_zero_iff.mp (chain.latest.symm.trans none_)
    subst empty
    exact ⟨last, constructed, same, fun _ listed => (nomatch listed)⟩
  · rename_i some_
    obtain ⟨recorded, at_, declared⟩ := Option.bind_eq_some_iff.mp next
    obtain ⟨last, constructed, same, accepts⟩ := made declared
    refine ⟨last, constructed, same, ?_⟩
    rw [chain.latest] at some_ at_
    obtain empty | ⟨init, before_, rfl⟩ := versions.eq_nil_or_concat
    · exact absurd (congrArg List.length empty) some_
    · rw [List.concat_eq_append] at chain at_ ⊢
      have there : v.typesAt (init.length + 1) = some (print before_.describe) :=
        chain.recorded init.length before_ List.getElem?_concat_length
      rw [List.length_append, List.length_singleton, there] at at_
      cases at_
      have accepted := accepts _ _ rfl (reads _ _ there)
      have known := chain.constructed before_ List.mem_concat_self
      obtain ⟨_, _, each⟩ := List.pairwise_append.mp chain.compatible
      intro earlier listed
      rcases List.mem_append.mp listed with first | here
      · exact compatible_read known constructed (each earlier first before_ (.head _)) accepted
      · rw [List.mem_singleton.mp here]
        exact accepted

/-- The next version is compatible with every one before it. -/
theorem Chain.step {versions : List Types} (chain : Chain print v versions)
    (reads : ReadBack parse print v) (declares : env.declared = recordedText parse print)
    (step : NodeStep env v node w) (sound : v.Sound)
    : ∃ versions', Chain print w versions' := by
  rcases declares_of_step step sound with ⟨types, typesAt⟩ | ⟨_, text, next, types, typesAt⟩
  · exact ⟨versions, by rw [types]; exact chain.latest, by rw [typesAt]; exact chain.recorded,
      chain.constructed, chain.compatible⟩
  · obtain ⟨last, constructed, rfl, accepts⟩ := chain.add reads declares next
    refine ⟨versions ++ [last], ?_, fun n types is => ?_, ?_, ?_⟩
    · rw [types, Option.getD_some, chain.latest, List.length_append, List.length_singleton]
    · rw [typesAt, chain.latest]
      by_cases new : n = versions.length
      · subst new
        rw [List.getElem?_concat_length] at is
        rw [if_pos rfl, Option.some_inj.mp is]
      · have within_ := (List.getElem?_eq_some_iff.mp is).1
        rw [List.length_append, List.length_singleton] at within_
        rw [List.getElem?_append_left (by omega)] at is
        rw [if_neg (by omega)]
        exact chain.recorded n types is
    · intro types listed
      rcases List.mem_append.mp listed with first | here
      · exact chain.constructed types first
      · rw [List.mem_singleton.mp here]
        exact constructed
    · refine List.pairwise_append.mpr ⟨chain.compatible, List.pairwise_singleton _ _, ?_⟩
      intro earlier listed later here
      rw [List.mem_singleton.mp here]
      exact accepts earlier listed

theorem chain_of_reachable (declares : env.declared = recordedText parse print)
    (reached : Reachable env w) (reads : ReadBack parse print w)
    : ∃ versions, Chain print w versions := by
  obtain ⟨nodes, ran⟩ := reached
  have start : Chain print View.empty [] :=
    ⟨rfl, fun _ _ is => (nomatch is), fun _ listed => (nomatch listed), .nil⟩
  have kept := (applyNodes_keeps
    (fun u => UpToLatest u ∧ (ReadBack parse print u → ∃ versions, Chain print u versions))
    (fun u node u' sound so step => by
      obtain ⟨upTo, chain⟩ := so
      obtain ⟨upTo', still⟩ := upTo.step step sound
      refine ⟨upTo', fun reads => ?_⟩
      have reads' : ReadBack parse print u := fun version types is =>
        reads version types (still version _ is)
      obtain ⟨versions, chain⟩ := chain reads'
      exact chain.step reads' declares step sound)
    .empty ⟨fun _ _ => rfl, fun _ => ⟨[], start⟩⟩ ran).2.2
  exact kept reads

end Chains

end Decisions

-- Records

namespace Types

open Wire Fields Decisions

/-- A record of a type written under an older declaration is read under a newer one as under its
own; what an edit keeps of the version it replaces, where that one is read under the newer.
-/
def ReadsAlike (p : Packages) (type : String) (old new : FieldList) : Prop :=
  ∀ object values keep version was, validate p type old object = .ok values
    → (∀ before_ ∈ keep, (decode p new before_).isSome)
    → encode p old values keep = some version → version.Held
    → decode p old version = some was
    → ∃ is, decode p new version = some is ∧ ∀ name ∈ old.names, is name = was name

/-- A type that goes on reads the records there were. -/
theorem readsAlike {p : Packages} (promised : Promised p) (own : ReadsOwn p.uint)
    {old : StoredType} {now : TypeDecl} (goes : Continues old now) {fields fields' : FieldList}
    (declared : old.fields = fields.list.map fun field => (field.1, field.2.name))
    (declared' : now.fields = fields'.list) (type : String)
    : ReadsAlike p type fields fields' := by
  have start := goes.fields
  rw [declared, declared'] at start
  have injective : Function.Injective fun field : String × Kind => (field.1, field.2.name) := by
    intro field field' same
    obtain ⟨name, kind⟩ := Prod.mk.inj same
    exact Prod.ext name (Kind.name_injective kind)
  obtain ⟨_, ⟨more, grown⟩, same⟩ := List.prefix_map_iff.mp start
  cases List.map_injective_iff.mpr injective same
  intro object values keep version was ok kept written held read
  exact decodes_later promised own grown.symm (validate_checked ok).1 kept written held read

/-- A declaration that is accepted after a recorded one only adds to it just where it keeps its
indexes. Being compatible is reflexive and transitive, the versions a space records are each
compatible with every one before it, and a record is read under any later declaration as it is
under its own.
-/
theorem compatible_adds_iff (p : Packages) (promised : Promised p) (own : ReadsOwn p.uint)
    : (∀ current next, Constructed next → next.checkCompatible (some current) = .ok ()
        → (OnlyAdds current next ↔ KeepsIndexes current next)) ∧
      (∀ types, Constructed types → types.checkCompatible (some types.describe) = .ok ()) ∧
      (∀ first second third : Types, Constructed second → Constructed third
        → second.checkCompatible (some first.describe) = .ok ()
        → third.checkCompatible (some second.describe) = .ok ()
        → third.checkCompatible (some first.describe) = .ok ()) ∧
      (∀ (env : Env) parse print v, env.declared = recordedText parse print → Reachable env v
        → ReadBack parse print v → ∃ versions, Chain print v versions) ∧
      (∀ current next name old now (fields fields' : FieldList), Constructed next
        → next.checkCompatible (some current) = .ok () → current.get? name = some old
        → next.types.get? name = some now
        → old.fields = fields.list.map (fun field => (field.1, field.2.name))
        → now.fields = fields'.list
        → ReadsAlike p name fields fields') := by
  refine ⟨fun current next made accepted => ?_, fun types made => compatible_refl made,
    fun first second third made made' here there => compatible_trans made made' here there,
    fun env parse print v declares reached reads => chain_of_reachable declares reached reads,
    fun current next name old now fields fields' made accepted is there declared declared' => ?_⟩
  · exact onlyAdds_iff ((checkCompatible_eq_ok made).mp accepted)
  · obtain ⟨now', there', goes⟩ := (checkCompatible_eq_ok made).mp accepted name old is
    cases there.symm.trans there'
    exact readsAlike promised own goes declared declared' name

-- Posts by title

/-- A text stands for each of two declarations of posts. -/
def postsText (types : Stored) : String :=
  if types = plainApp.describe then "plain"
  else if types = indexedApp.describe then "indexed"
  else ""

def ofPostsText (text : String) : Option Stored :=
  if text = "plain" then some plainApp.describe
  else if text = "indexed" then some indexedApp.describe
  else none

def postsEnv : Env := { idealEnv (keyOf 9) with declared := recordedText ofPostsText postsText }

/-- A space whose owner records posts, then lists them by title. -/
def postsLog : List Node :=
  [sent (keyOf 9) 1 (initial (keyOf 9) (keyOf 10) (keyOf 11)),
    sent (keyOf 9) 2 (.typesSet ⟨1, "plain"⟩),
    sent (keyOf 9) 3 (.typesSet ⟨2, "indexed"⟩)]

theorem postsLog_recorded
    : ((applyNodes postsEnv postsLog .empty).toOption.map fun v =>
        (v.types, v.typesAt 0, v.typesAt 1, v.typesAt 2))
      = some (some 2, none, some "plain", some "indexed") := by
  decide +kernel

theorem declared_constructed {declarations : Dict String Declaration}
    (accepted : (new declarations).isOk = true)
    : Constructed (declared declarations) := by
  refine ⟨declarations, ?_⟩
  unfold declared
  cases made : new declarations with
  | error err => rw [made] at accepted; cases accepted
  | ok types => rfl

theorem plainApp_constructed : plainApp.Constructed := declared_constructed (by decide +kernel)

theorem indexedApp_constructed : indexedApp.Constructed := declared_constructed (by decide +kernel)

theorem postsLog_readBack {v : View} (ran : applyNodes postsEnv postsLog .empty = .ok v)
    : ReadBack ofPostsText postsText v := by
  have recorded := postsLog_recorded
  rw [ran] at recorded
  obtain ⟨latest, zero, one, two⟩ : v.types = some 2 ∧ v.typesAt 0 = none
      ∧ v.typesAt 1 = some "plain" ∧ v.typesAt 2 = some "indexed" := by
    simpa [Except.toOption] using recorded
  intro version types is
  have within_ : version = 1 ∨ version = 2 := by
    by_contra other
    have none_ : v.typesAt version = none := by
      by_cases first : version = 0
      · rw [first, zero]
      · refine Readers.upToLatest ⟨_, ran⟩ version ?_
        rw [latest, Option.getD_some]
        omega
    rw [none_] at is
    cases is
  have named : postsText types.describe = "plain" ∨ postsText types.describe = "indexed" := by
    rcases within_ with rfl | rfl
    · exact .inl (Option.some.inj (is.symm.trans one))
    · exact .inr (Option.some.inj (is.symm.trans two))
  have same : types.describe = plainApp.describe ∨ types.describe = indexedApp.describe := by
    unfold postsText at named
    split_ifs at named with plain indexed
    · exact .inl plain
    · exact .inr indexed
    · simp at named
  rcases same with same | same
  · rw [same]
    decide +kernel
  · rw [same]
    decide +kernel

/-- A bed recorded as an older app declares it, and declared by a newer one. -/
def storedBeds : Stored :=
  .ofList [("bed", ⟨[("depth", "int"), ("rows", "uint")], .empty, false, .author, none, none⟩)]

def beds : Types :=
  declared (.ofList [("bed", {
    fields := .ofList [("depth", "int"), ("rows", "uint"), ("map", "bytes")] })])

/-- Posts listed by title only add to posts, a space records both, and an older bed is read by a
newer app.
-/
theorem compatible_adds_posts
    : OnlyAdds plainApp.describe indexedApp
      ∧ (∃ v versions, applyNodes postsEnv postsLog .empty = .ok v ∧ Chain postsText v versions)
      ∧ ReadsAlike compactPackages "bed" olderBed newerBed := by
  obtain ⟨adds, -, -, chain, reads⟩ :=
    compatible_adds_iff compactPackages compactPackages_promised compactUint_readsOwn
  refine ⟨?_, ?_, ?_⟩
  · exact (adds _ _ indexedApp_constructed (by decide +kernel)).mpr (by decide +kernel)
  · have recorded := postsLog_recorded
    cases ran : applyNodes postsEnv postsLog .empty with
    | error err => rw [ran] at recorded; cases recorded
    | ok v =>
        obtain ⟨versions, is⟩ := chain postsEnv _ _ v rfl ⟨_, ran⟩ (postsLog_readBack ran)
        exact ⟨v, versions, rfl, is⟩
  · exact reads storedBeds beds "bed" _ _ olderBed newerBed (declared_constructed (by decide +kernel))
      (by decide +kernel) rfl rfl rfl rfl

/-- Posts no longer listed by title are accepted after posts that were. -/
theorem dropped_index_accepted
    : plainApp.Constructed ∧ plainApp.checkCompatible (some indexedApp.describe) = .ok ()
      ∧ ¬OnlyAdds indexedApp.describe plainApp :=
  ⟨plainApp_constructed, by decide +kernel, fun adds =>
    absurd adds.keepsIndexes (by decide +kernel)⟩

end Types

end Hypergraph
