import Hypergraph.Types

/-! What the `Types` constructor accepts, and what it makes of it (`lib/types.js`, `declare`).
An app's declarations are given in several forms, which come down to one.
-/

namespace Hypergraph

open Js

-- Checks of a list

theorem bind_eq_ok {α β : Type} {first : Checked α} {next : α → Checked β} {result : β}
    : (first >>= next) = .ok result ↔ ∃ value, first = .ok value ∧ next value = .ok result := by
  cases first with
  | error err => exact ⟨fun same => (nomatch same), fun ⟨_, same, _⟩ => (nomatch same)⟩
  | ok value =>
      exact ⟨fun same => ⟨value, rfl, same⟩, fun ⟨_, same, rest⟩ => Except.ok.inj same ▸ rest⟩

theorem forM_eq_ok {α : Type} {list : List α} {check : α → Checked Unit}
    : list.forM check = .ok () ↔ ∀ item ∈ list, check item = .ok () := by
  induction list with
  | nil => exact ⟨fun _ _ listed => (nomatch listed), fun _ => rfl⟩
  | cons first rest ih =>
      rw [List.forall_mem_cons, ← ih]
      change (check first >>= fun _ => rest.forM check) = _ ↔ _
      cases here : check first with
      | error thrown => simp [bind, Except.bind]
      | ok _ => simp [bind, Except.bind]

theorem mapM_eq_ok {α β : Type} {list : List α} {check : α → Checked β} {made : List β}
    : list.mapM check = .ok made ↔ List.Forall₂ (fun item value => check item = .ok value) list made := by
  induction list generalizing made with
  | nil =>
      rw [List.mapM_nil, List.forall₂_nil_left_iff]
      exact ⟨fun same => (Except.ok.inj same).symm, fun same => congrArg Except.ok same.symm⟩
  | cons first rest ih =>
      simp only [List.mapM_cons, bind_eq_ok, ih, List.forall₂_cons_left_iff]
      constructor
      · rintro ⟨value, here, values, later, same⟩
        exact ⟨value, values, here, later, (Except.ok.inj same).symm⟩
      · rintro ⟨value, values, here, later, rfl⟩
        exact ⟨value, here, values, later, rfl⟩

-- A type declared

/-- A field is declared when its name is free and its kind known. -/
theorem declareField_eq_ok {name : String} {entry : String × String} {field : String × Kind}
    : declareField name entry = .ok field
      ↔ entry = (field.1, field.2.name) ∧ field.1 ∉ reserved := by
  obtain ⟨given, text⟩ := entry
  obtain ⟨made, kind⟩ := field
  have known : kinds.find? (·.name = kind.name) = some kind := by cases kind <;> decide
  unfold declareField
  dsimp only
  by_cases taken : given ∈ reserved
  · simp only [taken, if_true, throw, throwThe, MonadExceptOf.throw, reduceCtorEq, false_iff,
      Prod.mk.injEq, not_and, not_not]
    rintro ⟨rfl, _⟩
    exact taken
  · rw [if_neg taken]
    constructor
    · intro accepted
      cases found : kinds.find? (·.name = text) with
      | none =>
          rw [found] at accepted
          cases accepted
      | some kind' =>
          rw [found] at accepted
          cases accepted
          have same := List.find?_some found
          exact ⟨Prod.ext rfl (of_decide_eq_true same).symm, taken⟩
    · rintro ⟨same, _⟩
      cases same
      rw [known]
      rfl

/-- The fields an app names, in their order, none by a reserved name. -/
theorem fields_declared {name : String} {entries : List (String × String)}
    {fields : List (String × Kind)}
    : List.Forall₂ (fun entry field => declareField name entry = .ok field) entries fields
      ↔ entries = fields.map (fun field => (field.1, field.2.name))
        ∧ ∀ field ∈ fields, field.1 ∉ reserved := by
  simp only [declareField_eq_ok]
  induction fields generalizing entries with
  | nil => simp
  | cons field fields ih =>
      simp only [List.forall₂_cons_right_iff, List.map_cons, List.forall_mem_cons]
      constructor
      · rintro ⟨entry, rest, ⟨here, free⟩, later, rfl⟩
        obtain ⟨same, others⟩ := ih.mp later
        exact ⟨by rw [here, same], free, others⟩
      · rintro ⟨rfl, free, others⟩
        exact ⟨_, _, ⟨rfl, free⟩, ih.mpr ⟨rfl, others⟩, rfl⟩

/-- What an index is of: its fields, where the record's stamp is none. -/
def indexed (keys : List String) : List String := keys.filter (· ≠ "stamp")

/-- An index is on declared fields, or the stamp. -/
def KnownKeys (fields : List (String × Kind)) (keys : List String) : Prop :=
  keys ≠ [] ∧ ∀ key ∈ keys, key = "stamp" ∨ (fields.lookup key).isSome

theorem declareIndex_eq_ok {name : String} {fields : List (String × Kind)}
    {keys made : List String}
    : declareIndex name fields keys = .ok made ↔ KnownKeys fields keys ∧ made = indexed keys := by
  unfold declareIndex KnownKeys
  rw [throwIf_bind, bind_eq_ok, decide_eq_false_iff_not]
  have free (key : String)
      : throwIf (key ≠ "stamp" && (fields.lookup key).isNone)
          (invalidType name ("index: unknown field \"" ++ key ++ "\"")) = .ok ()
        ↔ (key = "stamp" ∨ (fields.lookup key).isSome) := by
    rw [throwIf_eq_ok]
    cases fields.lookup key <;> simp
  constructor
  · rintro ⟨filled, _, known, same⟩
    cases same
    exact ⟨⟨filled, fun key listed => (free key).mp (forM_eq_ok.mp known key listed)⟩, rfl⟩
  · rintro ⟨⟨filled, known⟩, rfl⟩
    exact ⟨filled, (), forM_eq_ok.mpr fun key listed => (free key).mpr (known key listed), rfl⟩

/-- A link's targets are declared, or inherited names. -/
def KnownTargets {α : Type} (fields : List (String × Kind)) (all : Dict String α)
    (entry : String × List String) : Prop :=
  fields.lookup entry.1 = some .link
    ∧ ∀ target ∈ entry.2, lookup all.entries target ≠ .undefined

theorem declareLink_eq_ok {α : Type} {name : String} {fields : List (String × Kind)}
    {all : Dict String α} {entry : String × List String}
    : declareLink name fields all entry = .ok () ↔ KnownTargets fields all entry := by
  obtain ⟨field, targets⟩ := entry
  unfold declareLink KnownTargets
  rw [throwIf_bind, forM_eq_ok]
  simp only [throwIf_eq_ok, decide_eq_false_iff_not, ne_eq, not_not]
  refine and_congr_right fun _ => forall₂_congr fun target _ => ?_
  cases lookup all.entries target <;> simp

/-- The type a declaration is of, its fields' kinds known. -/
def typeOf (decl : Declaration) (fields : List (String × Kind)) : TypeDecl where
  fields := fields
  links := decl.links
  onePerMember := decl.onePerMember
  target := if decl.onePerMember then (fields.find? (·.2 = .link)).map Prod.fst else none
  editable := decl.editable
  put := decl.put
  index := decl.index.map indexed

/-- What is asked of a declaration with these fields. -/
structure Declares {α : Type} (name : String) (decl : Declaration) (all : Dict String α)
    (builtin : Bool) (fields : List (String × Kind)) : Prop where
  own : ownPrefix name = true → builtin = true
  given : decl.fields.entries = fields.map fun field => (field.1, field.2.name)
  free : ∀ field ∈ fields, field.1 ∉ reserved
  links : ∀ entry ∈ decl.links.entries, KnownTargets fields all entry
  editable : decl.editable ≠ .permission ""
  put : decl.put ≠ .permission ""
  index : ∀ keys ∈ decl.index, KnownKeys fields keys

theorem declare_eq_ok {α : Type} {name : String} {decl : Declaration} {all : Dict String α}
    {builtin : Bool} {made : TypeDecl}
    : declare name decl all builtin = .ok made
      ↔ made = typeOf decl made.fields ∧ Declares name decl all builtin made.fields := by
  have indexes (fields : List (String × Kind)) (index : List (List String))
      : List.Forall₂ (fun keys made => declareIndex name fields keys = .ok made) decl.index index
        ↔ (∀ keys ∈ decl.index, KnownKeys fields keys) ∧ index = decl.index.map indexed := by
    simp only [declareIndex_eq_ok]
    induction decl.index generalizing index with
    | nil => simp
    | cons keys rest ih =>
        simp only [List.forall₂_cons_left_iff, List.forall_mem_cons, List.map_cons]
        constructor
        · rintro ⟨here, later, ⟨known, rfl⟩, others, rfl⟩
          obtain ⟨each, same⟩ := (ih later).mp others
          exact ⟨⟨known, each⟩, by rw [same]⟩
        · rintro ⟨⟨known, each⟩, rfl⟩
          exact ⟨_, _, ⟨known, rfl⟩, (ih _).mpr ⟨each, rfl⟩, rfl⟩
  have owned : (ownPrefix name && !builtin) = false ↔ (ownPrefix name = true → builtin = true) := by
    cases ownPrefix name <;> cases builtin <;> simp
  constructor
  · intro declared
    obtain ⟨own, declared⟩ := throwIf_bind.mp declared
    obtain ⟨fields, named, declared⟩ := bind_eq_ok.mp declared
    obtain ⟨_, links, declared⟩ := bind_eq_ok.mp declared
    obtain ⟨editable, declared⟩ := throwIf_bind.mp declared
    obtain ⟨put, declared⟩ := throwIf_bind.mp declared
    obtain ⟨index, listed, declared⟩ := bind_eq_ok.mp declared
    obtain ⟨given, free⟩ := fields_declared.mp (mapM_eq_ok.mp named)
    obtain ⟨known, rfl⟩ := (indexes fields index).mp (mapM_eq_ok.mp listed)
    cases declared
    exact ⟨rfl, owned.mp own, given, free,
      fun entry met => declareLink_eq_ok.mp (forM_eq_ok.mp links entry met),
      of_decide_eq_false editable, of_decide_eq_false put, known⟩
  · rintro ⟨same, own, given, free, links, editable, put, known⟩
    refine throwIf_bind.mpr ⟨owned.mpr own, bind_eq_ok.mpr ⟨made.fields,
      mapM_eq_ok.mpr (fields_declared.mpr ⟨given, free⟩), bind_eq_ok.mpr ⟨(),
      forM_eq_ok.mpr fun entry met => declareLink_eq_ok.mpr (links entry met),
      throwIf_bind.mpr ⟨decide_eq_false editable, throwIf_bind.mpr ⟨decide_eq_false put,
      bind_eq_ok.mpr ⟨_, mapM_eq_ok.mpr ((indexes made.fields _).mpr ⟨known, rfl⟩), ?_⟩⟩⟩⟩⟩⟩
    exact congrArg Except.ok same.symm

-- The constructor

/-- Declared types, each from the entry at its place. -/
def Made {α : Type} (all : Dict String α) (builtin : Bool) (entries : List (String × Declaration))
    (made : List (String × TypeDecl)) : Prop :=
  List.Forall₂ (fun entry type => entry.1 = type.1
    ∧ declare entry.1 entry.2 all builtin = .ok type.2) entries made

theorem Made.keys {α : Type} {all : Dict String α} {builtin : Bool}
    {entries : List (String × Declaration)} {made : List (String × TypeDecl)}
    (is : Made all builtin entries made)
    : made.map Prod.fst = entries.map Prod.fst := by
  induction is with
  | nil => rfl
  | cons here _ ih => rw [List.map_cons, List.map_cons, ih, here.1]

theorem Made.functional {α : Type} {all : Dict String α} {builtin : Bool}
    {entries : List (String × Declaration)} {made made' : List (String × TypeDecl)}
    (is : Made all builtin entries made) (is' : Made all builtin entries made')
    : made = made' := by
  induction is generalizing made' with
  | nil => exact (List.forall₂_nil_left_iff.mp is').symm
  | cons here _ ih =>
      obtain ⟨type, rest, there, later, rfl⟩ := List.forall₂_cons_left_iff.mp is'
      rw [ih later]
      congr 1
      exact Prod.ext (here.1.symm.trans there.1) (Except.ok.inj (here.2.symm.trans there.2))

/-- A declared type is from an entry of its name. -/
theorem Made.of_mem {α : Type} {all : Dict String α} {builtin : Bool}
    {entries : List (String × Declaration)} {made : List (String × TypeDecl)}
    (is : Made all builtin entries made) {type : String × TypeDecl} (listed : type ∈ made)
    : ∃ entry ∈ entries, entry.1 = type.1 ∧ declare entry.1 entry.2 all builtin = .ok type.2 := by
  induction is with
  | nil => cases listed
  | cons here _ ih =>
      rcases List.mem_cons.mp listed with rfl | later
      · exact ⟨_, .head _, here⟩
      · obtain ⟨entry, there, is⟩ := ih later
        exact ⟨entry, .tail _ there, is⟩

theorem entries_put {α : Type} {dict : Dict String α} {key : String} {value : α}
    (fresh : key ∉ dict.keys)
    : (dict.put key value).entries = dict.entries ++ [(key, value)] := by
  have general (entries : List (String × α)) (fresh : key ∉ entries.map Prod.fst)
      : Dict.putEntries key value entries = entries ++ [(key, value)] := by
    induction entries with
    | nil => rfl
    | cons first rest ih =>
        obtain ⟨k, v⟩ := first
        have other : k ≠ key := fun same => fresh (by simp [same])
        simp only [Dict.putEntries, if_neg other, List.cons_append]
        rw [ih fun later => fresh (List.mem_cons_of_mem _ later)]
  exact general dict.entries fresh

theorem foldlM_eq_ok {α : Type} {all : Dict String α} {builtin : Bool}
    {entries : List (String × Declaration)} {start result : Dict String TypeDecl}
    (unique : (entries.map Prod.fst).Nodup) (fresh : ∀ entry ∈ entries, entry.1 ∉ start.keys)
    : entries.foldlM (fun types entry => do
        return types.put entry.1 (← declare entry.1 entry.2 all builtin)) start = .ok result
      ↔ ∃ made, Made all builtin entries made ∧ result.entries = start.entries ++ made := by
  induction entries generalizing start with
  | nil =>
      constructor
      · intro same
        cases same
        exact ⟨[], .nil, (List.append_nil _).symm⟩
      · rintro ⟨made, is, same⟩
        rw [List.forall₂_nil_left_iff.mp is, List.append_nil] at same
        exact congrArg Except.ok (Dict.ext_entries same.symm)
  | cons entry rest ih =>
      rw [List.map_cons, List.nodup_cons] at unique
      obtain ⟨here, others⟩ := List.forall_mem_cons.mp fresh
      have later (type : TypeDecl) : ∀ other ∈ rest, other.1 ∉ (start.put entry.1 type).keys := by
        intro other listed
        rw [Dict.keys_put, if_neg here, List.mem_append, List.mem_singleton, not_or]
        refine ⟨others other listed, fun same => unique.1 ?_⟩
        exact List.mem_map.mpr ⟨other, listed, same⟩
      simp only [List.foldlM_cons, bind_eq_ok, Made, List.forall₂_cons_left_iff]
      constructor
      · rintro ⟨types, ⟨type, declared, same⟩, added⟩
        cases same
        obtain ⟨made, is, same⟩ := (ih unique.2 (later type)).mp added
        refine ⟨_, ⟨(entry.1, type), made, ⟨rfl, declared⟩, is, rfl⟩, ?_⟩
        rw [same, entries_put here, List.append_assoc]
        rfl
      · rintro ⟨_, ⟨⟨name, type⟩, made, ⟨rfl, declared⟩, is, rfl⟩, same⟩
        refine ⟨_, ⟨type, declared, rfl⟩, (ih unique.2 (later type)).mpr ⟨made, is, ?_⟩⟩
        rw [same, entries_put here, List.append_assoc]
        rfl

/-- No type of an app is named as hypergraph's own are. -/
theorem Made.apart {α : Type} {all : Dict String α} {entries : List (String × Declaration)}
    {made : List (String × TypeDecl)} (is : Made all false entries made)
    : ∀ type ∈ made, ownPrefix type.1 = false := by
  induction is with
  | nil => exact fun _ listed => (nomatch listed)
  | @cons entry type _ _ here _ ih =>
      refine List.forall_mem_cons.mpr ⟨?_, ih⟩
      obtain ⟨name, declared⟩ := here
      rw [← name]
      by_contra own
      have always := (declare_eq_ok.mp declared).2.own (Bool.not_eq_false _ ▸ own)
      cases always

theorem builtin_own : ∀ entry ∈ builtin.entries, ownPrefix entry.1 = true := by decide +kernel

/-- The types an app declares, in their order, then hypergraph's own. -/
theorem Types.new_eq_ok {declarations : Dict String Declaration} {types : Types}
    : Types.new declarations = .ok types
      ↔ ∃ own builtins, Made declarations false declarations.entries own
        ∧ Made builtin true builtin.entries builtins ∧ types.types.entries = own ++ builtins := by
  have first (result : Dict String TypeDecl) :=
    @foldlM_eq_ok _ declarations false _ .empty result declarations.unique
      fun _ _ => List.not_mem_nil
  have fresh {start : Dict String TypeDecl} {own : List (String × TypeDecl)}
      (is : Made declarations false declarations.entries own) (same : start.entries = own)
      : ∀ entry ∈ builtin.entries, entry.1 ∉ start.keys := by
    intro entry listed met
    rw [Dict.keys, same] at met
    obtain ⟨type, made, name⟩ := List.mem_map.mp met
    have apart := is.apart type made
    rw [name, builtin_own entry listed] at apart
    cases apart
  unfold Types.new
  simp only [bind_eq_ok, first]
  constructor
  · rintro ⟨start, ⟨own, is, same⟩, result, added, made⟩
    cases made
    obtain ⟨builtins, are, entries⟩ := (foldlM_eq_ok builtin.unique (fresh is same)).mp added
    exact ⟨own, builtins, is, are, by rw [entries, same]; rfl⟩
  · rintro ⟨own, builtins, is, are, entries⟩
    have unique : (own.map Prod.fst).Nodup := by
      rw [is.keys]
      exact declarations.unique
    exact ⟨⟨own, unique⟩, ⟨own, is, rfl⟩, types.types,
      (foldlM_eq_ok builtin.unique (fresh is rfl)).mpr ⟨builtins, are, entries⟩, rfl⟩

-- The forms it takes

/-- What an app gives as `editable` or as `put`. -/
inductive Rule
  | undefined
  | named (text : String)
  | permission (name : String)
  /-- Anything else. -/
  | other
  deriving DecidableEq, Repr

/-- A type as an app gives it. What is left out is `none`, and a truthy `onePerMember` is true. -/
structure Given where
  fields : Plain String
  links : Option (Plain (List String)) := none
  onePerMember : Bool := false
  editable : Rule := .undefined
  put : Rule := .undefined
  index : Option (List (List String)) := none

namespace Given

/-- A rule that is none of the forms is refused as an unnamed permission is. -/
def editableOf : Rule → Editable
  | .undefined => .author
  | .named text =>
      if text = "author" then .author
      else if text = "members" then .members
      else .permission ""
  | .permission name => .permission name
  | .other => .permission ""

def putOf : Rule → Put
  | .undefined => .members
  | .named text => if text = "members" then .members else .permission ""
  | .permission name => .permission name
  | .other => .permission ""

def declaration (given : Given) : Declaration where
  fields := given.fields.1
  links := (given.links.map Subtype.val).getD .empty
  onePerMember := given.onePerMember
  editable := editableOf given.editable
  put := putOf given.put
  index := given.index.getD []

end Given

/-- `new Types(declarations)`. -/
def Types.ofGiven (given : Plain Given) : Checked Types := Types.new (given.1.map Given.declaration)

end Hypergraph
