import Hypergraph.Declaring

/-! A declaration recorded and read back (`describe`, and `from` of what JSON keeps of it, in
`lib/types.js`): what of it comes back.
-/

namespace Hypergraph.Types

open Js

/-- What is read back of types that were described. Assigning `__proto__` makes no property, so JSON
has none.
-/
def json (stored : Stored) : Stored :=
  ((stored.filter (· ≠ "__proto__")).map fun t =>
    { t with links := (t.links.filter (· ≠ "__proto__")).listing }).listing

/-- What a type's stored form is declared as. -/
def restated (t : TypeDecl) : Declaration where
  fields := (Dict.ofList (t.fields.map fun field => (field.1, field.2.name))).listing
  links := (t.links.filter (· ≠ "__proto__")).listing
  onePerMember := t.onePerMember
  editable := t.editable
  put := t.put
  index := t.index

-- The stored form

theorem ofList_entries {α : Type} (dict : Dict String α) : Dict.ofList dict.entries = dict := by
  have general (entries : List (String × α)) (start : Dict String α)
      (unique : (entries.map Prod.fst).Nodup) (fresh : ∀ entry ∈ entries, entry.1 ∉ start.keys)
      : (entries.foldl (fun dict entry => dict.put entry.1 entry.2) start).entries
        = start.entries ++ entries := by
    induction entries generalizing start with
    | nil => exact (List.append_nil _).symm
    | cons entry rest ih =>
        rw [List.map_cons, List.nodup_cons] at unique
        obtain ⟨here, others⟩ := List.forall_mem_cons.mp fresh
        rw [List.foldl_cons, ih _ unique.2, entries_put here, List.append_assoc]
        · rfl
        · intro other listed
          rw [Dict.keys_put, if_neg here, List.mem_append, List.mem_singleton, not_or]
          exact ⟨others other listed, fun same => unique.1 (List.mem_map.mpr ⟨other, listed, same⟩)⟩
  exact Dict.ext_entries (general dict.entries .empty dict.unique fun _ _ => List.not_mem_nil)

theorem lookup_ne_undefined {α : Type} {table : List (String × α)} {name : String}
    : lookup table name ≠ .undefined ↔ name ∈ table.map Prod.fst ∨ name ∈ objectPrototype := by
  unfold lookup
  rw [Dict.mem_keys_lookup]
  cases table.lookup name with
  | some value => simp
  | none => by_cases proto : name ∈ objectPrototype <;> simp [proto]

theorem isBuiltin_iff {name : String}
    : isBuiltin name = true ↔ name ∈ builtin.entries.map Prod.fst ∨ name ∈ objectPrototype := by
  rw [← lookup_ne_undefined]
  unfold isBuiltin
  cases lookup builtin.entries name <;> simp

/-- Of the types an app makes, only its own are described, and none by an inherited name. -/
theorem describe_entries {app : Types} {all : Dict String Declaration}
    {own builtins : List (String × TypeDecl)}
    (apps : Made all false all.entries own) (are : Made builtin true builtin.entries builtins)
    (entries : app.types.entries = own ++ builtins)
    : app.describe.entries
      = (own.filter fun type => type.1 ∉ objectPrototype).map fun type =>
          (type.1, describeType type.2) := by
  have theirs : own.filter (fun type => !isBuiltin type.1)
      = own.filter fun type => decide (type.1 ∉ objectPrototype) := by
    refine List.filter_congr fun type listed => ?_
    have apart : type.1 ∉ builtin.entries.map Prod.fst := by
      intro met
      obtain ⟨entry, known, same⟩ := List.mem_map.mp met
      have never := apps.apart type listed
      rw [← same, builtin_own entry known] at never
      cases never
    rw [Bool.eq_iff_iff, Bool.not_eq_true', ← Bool.not_eq_true, isBuiltin_iff, decide_eq_true_iff]
    simp [apart]
  have ours : builtins.filter (fun type => !isBuiltin type.1) = [] := by
    refine List.filter_eq_nil_iff.mpr fun type listed => ?_
    have known : type.1 ∈ builtin.entries.map Prod.fst := are.keys ▸ List.mem_map_of_mem listed
    simp [isBuiltin_iff.mpr (.inl known)]
  change ((app.types.entries.filter _).map _) = _
  rw [entries, List.filter_append, theirs, ours, List.append_nil]

theorem made_listed {all : Dict String Declaration} (listed : all.Listed)
    {own : List (String × TypeDecl)} (apps : Made all false all.entries own)
    : own.Pairwise fun first second => place first.1 ≤ place second.1 := by
  have given : (all.entries.map Prod.fst).Pairwise fun first second => place first ≤ place second :=
    List.pairwise_map.mpr listed
  rw [← apps.keys, List.pairwise_map] at given
  exact given

/-- The types described are declared again as they are restated, but for those left out. -/
theorem declarationsOf_json {app : Types} {all : Dict String Declaration} (listed : all.Listed)
    {own builtins : List (String × TypeDecl)}
    (apps : Made all false all.entries own) (are : Made builtin true builtin.entries builtins)
    (entries : app.types.entries = own ++ builtins)
    : (declarationsOf (json app.describe)).entries
      = (own.filter fun type => type.1 ∉ objectPrototype).map fun type =>
          (type.1, restated type.2) := by
  have described := describe_entries apps are entries
  have sorted : app.describe.Listed := by
    unfold Dict.Listed
    rw [described, List.pairwise_map]
    exact (made_listed listed apps).sublist List.filter_sublist
  have kept (name : String) (met : name ∈ app.describe.keys) : name ≠ "__proto__" := by
    rintro rfl
    rw [Dict.keys, described, List.map_map] at met
    obtain ⟨type, free, same⟩ := List.mem_map.mp met
    have plain := of_decide_eq_true (List.mem_filter.mp free).2
    rw [show type.1 = "__proto__" from same] at plain
    exact plain (by decide)
  have whole (stored : Stored) (apart : ∀ name ∈ stored.keys, name ≠ "__proto__")
      : stored.filter (fun name => decide (name ≠ "__proto__")) = stored := by
    refine Dict.ext_entries (List.filter_eq_self.mpr fun entry met => ?_)
    exact decide_eq_true (apart entry.1 (List.mem_map_of_mem met))
  have read : json app.describe = app.describe.map fun t =>
      { t with links := (t.links.filter (· ≠ "__proto__")).listing } := by
    unfold json
    rw [whole _ kept]
    exact Dict.listing_eq (sorted.map _)
  unfold declarationsOf
  rw [read, whole]
  · rw [Dict.listing_eq ((sorted.map _).map _)]
    change (app.describe.entries.map _).map _ = _
    rw [described, List.map_map, List.map_map]
    rfl
  · intro name met
    refine kept name ?_
    rw [Dict.keys, Dict.map, List.map_map] at met
    exact met

-- One type

/-- What a declaration says that is lost: links of a field named `__proto__`, and an index on the
stamp alone, which its stored form names no field of.
-/
structure Restates (decl : Declaration) : Prop where
  links : "__proto__" ∉ decl.links.keys
  index : ∀ keys ∈ decl.index, ∃ key ∈ keys, key ≠ "stamp"

instance (decl : Declaration) : Decidable (Restates decl) :=
  decidable_of_iff
    ("__proto__" ∉ decl.links.keys ∧ ∀ keys ∈ decl.index, ∃ key ∈ keys, key ≠ "stamp")
    ⟨fun ⟨links, index⟩ => ⟨links, index⟩, fun restates => ⟨restates.links, restates.index⟩⟩

theorem indexed_eq_nil {keys : List String} : indexed keys = [] ↔ ¬∃ key ∈ keys, key ≠ "stamp" := by
  simp [indexed, List.filter_eq_nil_iff]

theorem indexed_indexed (keys : List String) : indexed (indexed keys) = indexed keys := by
  simp [indexed, List.filter_filter]

/-- A declared type is declared again from its stored form just where nothing of it is lost. -/
theorem declare_restated {name : String} {decl : Declaration} {all all' : Dict String Declaration}
    {type : TypeDecl} (fields : decl.fields.Listed) (links : decl.links.Listed)
    (declared : declare name decl all false = .ok type)
    (targets : ∀ target, lookup all.entries target ≠ .undefined
      → lookup all'.entries target ≠ .undefined)
    : declare name (restated type) all' false = .ok type ↔ Restates decl := by
  obtain ⟨made, declares⟩ := declare_eq_ok.mp declared
  have given : restated type = { decl with
      links := (decl.links.filter (· ≠ "__proto__")).listing
      index := decl.index.map indexed } := by
    have same : (Dict.ofList (type.fields.map fun field => (field.1, field.2.name))).listing
        = decl.fields := by
      rw [← declares.given, ofList_entries, Dict.listing_eq fields]
    unfold restated
    rw [same, made]
    rfl
  have kept : (decl.links.filter (· ≠ "__proto__")).listing = decl.links
      ↔ "__proto__" ∉ decl.links.keys := by
    rw [Dict.listing_eq (links.filter _)]
    constructor
    · intro same met
      rw [← same, Dict.mem_keys_iff, Dict.get?_filter] at met
      simp at met
    · intro apart
      refine Dict.ext_entries (List.filter_eq_self.mpr fun entry met => decide_eq_true ?_)
      rintro same
      exact apart (same ▸ List.mem_map_of_mem met)
  rw [declare_eq_ok, given]
  constructor
  · rintro ⟨same, again⟩
    refine ⟨kept.mp ?_, fun keys listed => ?_⟩
    · have links := congrArg TypeDecl.links same
      rw [made] at links
      exact links.symm
    · by_contra stamped
      exact (again.index (indexed keys) (List.mem_map_of_mem listed)).1 (indexed_eq_nil.mpr stamped)
  · rintro ⟨linked, filled⟩
    rw [kept.mpr linked]
    refine ⟨?_, ?_⟩
    · rw [made]
      simp only [typeOf, List.map_map]
      congr 1
      exact List.map_congr_left fun keys _ => (indexed_indexed keys).symm
    · refine ⟨declares.own, declares.given, declares.free, fun entry met => ?_, declares.editable,
        declares.put, fun keys met => ?_⟩
      · obtain ⟨link, known⟩ := declares.links entry met
        exact ⟨link, fun target at_ => targets target (known target at_)⟩
      · obtain ⟨before, listed, rfl⟩ := List.mem_map.mp met
        refine ⟨fun empty => indexed_eq_nil.mp empty (filled before listed), fun key at_ => ?_⟩
        exact (declares.index before listed).2 key (List.mem_filter.mp at_).1

-- A whole declaration

/-- No type is named like a property every object has, and each restates what it says. -/
def Recordable (given : Plain Given) : Prop :=
  ∀ entry ∈ given.1.entries, entry.1 ∉ objectPrototype ∧ Restates entry.2.declaration

instance (given : Plain Given) : Decidable (Recordable given) := by
  unfold Recordable
  infer_instance

theorem links_listed (given : Given) : given.declaration.links.Listed := by
  unfold Given.declaration
  cases given.links with
  | none => exact List.Pairwise.nil
  | some links => exact links.2

/-- Two lists whose items go together, each with its own of the other. -/
theorem forall₂_restated {all all' : Dict String Declaration}
    {entries : List (String × Declaration)} {own : List (String × TypeDecl)}
    (apps : Made all false entries own)
    (fields : ∀ entry ∈ entries, entry.2.fields.Listed ∧ entry.2.links.Listed)
    (targets : ∀ target, lookup all.entries target ≠ .undefined
      → lookup all'.entries target ≠ .undefined)
    : Made all' false (own.map fun type => (type.1, restated type.2)) own
      ↔ ∀ entry ∈ entries, Restates entry.2 := by
  induction apps with
  | nil => exact ⟨fun _ _ met => (nomatch met), fun _ => .nil⟩
  | @cons entry type _ _ here _ ih =>
      obtain ⟨⟨listed, linked⟩, others⟩ := List.forall_mem_cons.mp fields
      have one := declare_restated listed linked here.2 targets
      rw [here.1] at one
      rw [List.map_cons, Made, List.forall₂_cons, List.forall_mem_cons, ← ih others, ← one]
      exact and_congr_left' (and_iff_right rfl)

/-- A declaration the constructor accepts comes back whole from its record just where no type is
named like a property every object has, no index is on the stamp alone, and no field named
`__proto__` has links.
-/
theorem recorded_back_iff {given : Plain Given} {types : Types} (accepted : ofGiven given = .ok types)
    : ofStored (json types.describe) = .ok types ↔ Recordable given := by
  obtain ⟨own, builtins, apps, are, entries⟩ := new_eq_ok.mp accepted
  have listed : (given.1.map Given.declaration).Listed := given.2.map _
  have again := declarationsOf_json listed apps are entries
  have names : own.map Prod.fst = given.1.keys := by
    rw [apps.keys]
    exact List.map_map
  have plain : (∀ type ∈ own, type.1 ∉ objectPrototype)
      ↔ ∀ entry ∈ given.1.entries, entry.1 ∉ objectPrototype := by
    have each := @List.forall_mem_map _ _ Prod.fst own fun name => name ∉ objectPrototype
    rw [names] at each
    exact each.symm.trans List.forall_mem_map
  have made : ofStored (json types.describe) = .ok types
      ↔ Made (declarationsOf (json types.describe)) false
          (declarationsOf (json types.describe)).entries own := by
    unfold ofStored
    rw [new_eq_ok]
    constructor
    · rintro ⟨own', builtins', apps', are', entries'⟩
      rw [entries, are.functional are'] at entries'
      rwa [List.append_cancel_right entries']
    · intro apps'
      exact ⟨own, builtins, apps', are, entries⟩
  have whole (free : ∀ type ∈ own, type.1 ∉ objectPrototype)
      : Made (declarationsOf (json types.describe)) false
          (declarationsOf (json types.describe)).entries own
        ↔ ∀ entry ∈ given.1.entries, Restates entry.2.declaration := by
    have all : own.filter (fun type => decide (type.1 ∉ objectPrototype)) = own :=
      List.filter_eq_self.mpr fun type met => decide_eq_true (free type met)
    rw [all] at again
    have fields : ∀ entry ∈ (given.1.map Given.declaration).entries,
        entry.2.fields.Listed ∧ entry.2.links.Listed := by
      refine List.forall_mem_map.mpr fun entry _ => ?_
      exact ⟨entry.2.fields.2, links_listed entry.2⟩
    have targets (target : String)
        (known : lookup (given.1.map Given.declaration).entries target ≠ .undefined)
        : lookup (declarationsOf (json types.describe)).entries target ≠ .undefined := by
      rw [lookup_ne_undefined] at known ⊢
      rw [again, List.map_map]
      exact known.imp_left fun met => by rwa [← apps.keys] at met
    have each := forall₂_restated apps fields targets
    rw [← again] at each
    exact each.trans List.forall_mem_map
  rw [made]
  constructor
  · intro apps'
    have same := apps'.length_eq
    rw [again, List.length_map] at same
    have free : ∀ type ∈ own, type.1 ∉ objectPrototype := fun type met =>
      of_decide_eq_true (List.length_filter_eq_length_iff.mp same type met)
    exact fun entry met => ⟨plain.mp free entry met, (whole free).mp apps' entry met⟩
  · intro recordable
    exact (whole (plain.mpr fun entry met => (recordable entry met).1)).mpr fun entry met =>
      (recordable entry met).2

/-- A board's posts and votes, declared in the forms an app gives them. -/
def board : Plain Given :=
  ⟨.ofList [
    ("post", {
      fields := ⟨.ofList [("text", "text"), ("at", "int")], by decide⟩
      editable := .named "members"
      index := some [["at", "stamp"]] }),
    ("vote", {
      fields := ⟨.ofList [("on", "link")], by decide⟩
      links := some ⟨.ofList [("on", ["post"])], by decide⟩
      onePerMember := true
      put := .permission "decide" })], by decide⟩

theorem board_recorded_back
    : ∃ types, ofGiven board = .ok types ∧ ofStored (json types.describe) = .ok types := by
  have accepted : (ofGiven board).isOk = true := by decide +kernel
  cases given : ofGiven board with
  | error err => rw [given] at accepted; cases accepted
  | ok types => exact ⟨types, rfl, (recorded_back_iff given).mpr (by decide +kernel)⟩

/-- An index on the stamp alone is taken, and recorded as one that is refused. -/
theorem stamp_index_not_recorded_back
    : ∃ (given : Plain Given) (types : Types), ofGiven given = .ok types
      ∧ ¬(ofStored (json types.describe)).isOk := by
  let posts : Plain Given :=
    ⟨.ofList [("post", { fields := ⟨.ofList [("text", "text")], by decide⟩
                         index := some [["stamp"]] })], by decide⟩
  have refused : ((ofGiven posts).bind fun types => ofStored (json types.describe)).isOk = false
      ∧ (ofGiven posts).isOk = true := by decide +kernel
  cases given : ofGiven posts with
  | error err => rw [given] at refused; cases refused.2
  | ok types => rw [given] at refused; exact ⟨posts, types, given, (Bool.not_eq_true _).mpr refused.1⟩

end Hypergraph.Types
