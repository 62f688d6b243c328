import Hypergraph.Lib.Js
import Hypergraph.Lib.Listing
import Hypergraph.Lib.Merging

/-! The record types an app declares (`lib/types.js`): checked when declared, compared with
what a space recorded, and added to it by the apps of those who may decide (`lib/space.js`,
`#recordTypes`).
-/

namespace Hypergraph

open Js

structure HypergraphError where
  code : String
  message : String
  deriving DecidableEq, Repr

/-- A computation that may throw one of the program's own errors. -/
abbrev Checked := Except HypergraphError

def throwIf (condition : Bool) (err : HypergraphError) : Checked Unit :=
  if condition then throw err else return ()

@[simp]
theorem throwIf_bind {α : Type} {condition : Bool} {err : HypergraphError} {next : Unit → Checked α}
    {result : α}
    : (throwIf condition err >>= next) = .ok result ↔ condition = false ∧ next () = .ok result := by
  cases condition
  · exact ⟨fun same => ⟨rfl, same⟩, fun same => same.2⟩
  · exact ⟨fun same => (nomatch same), fun same => (nomatch same.1)⟩

@[simp]
theorem throwIf_eq_ok {condition : Bool} {err : HypergraphError}
    : throwIf condition err = .ok () ↔ condition = false := by
  cases condition
  · exact ⟨fun _ => rfl, fun _ => rfl⟩
  · exact ⟨fun same => (nomatch same), fun same => (nomatch same)⟩

inductive Kind
  | string | text | int | uint | float | bool | bytes | ref | space | link
  deriving DecidableEq, Repr

def Kind.name : Kind → String
  | .string => "string"
  | .text => "text"
  | .int => "int"
  | .uint => "uint"
  | .float => "float"
  | .bool => "bool"
  | .bytes => "bytes"
  | .ref => "ref"
  | .space => "space"
  | .link => "link"

/-- The kinds there are (`fieldsCodec.KINDS`). -/
def kinds : List Kind :=
  [.string, .text, .int, .uint, .float, .bool, .bytes, .ref, .space, .link]

/-- What a record carries next to its fields. -/
def reserved : List String := ["id", "type", "author", "device", "stamp", "edited", "futureStamp"]

inductive Editable
  | author
  | members
  | permission (name : String)
  deriving DecidableEq, Repr

inductive Put
  | members
  | permission (name : String)
  deriving DecidableEq, Repr

/-- A type as an app declares it, its fields' kinds by name. -/
structure Declaration where
  fields : Dict String String
  links : Dict String (List String) := .empty
  onePerMember : Bool := false
  editable : Editable := .author
  put : Put := .members
  index : List (List String) := []
  deriving DecidableEq

/-- A type in the form a space records (`describe`). `put` and `index` are absent from what was
recorded before they existed.
-/
structure StoredType where
  fields : List (String × String)
  links : Dict String (List String)
  onePerMember : Bool
  editable : Editable
  put : Option Put
  index : Option (List (List String))
  deriving DecidableEq

abbrev Stored := Dict String StoredType

/-- A declared type, checked. -/
structure TypeDecl where
  fields : List (String × Kind)
  links : Dict String (List String)
  onePerMember : Bool
  /-- The field records are grouped by where only one counts per member. -/
  target : Option String
  editable : Editable
  put : Put
  index : List (List String)
  deriving DecidableEq

-- Declaring

def invalidType (name msg : String) : HypergraphError :=
  ⟨"INVALID_TYPE", "Type \"" ++ name ++ "\": " ++ msg⟩

def incompatible (msg : String) : HypergraphError :=
  ⟨"INCOMPATIBLE_TYPES", msg ++ ". Between app versions, only adding fields at the end of a type"
    ++ " and adding types is allowed."⟩

def ownPrefix (name : String) : Bool := "hg/".toList.isPrefixOf name.toList

def declareField (name : String) : String × String → Checked (String × Kind)
  | (field, kind) =>
      if field ∈ reserved then
        throw (invalidType name ("field \"" ++ field
          ++ "\": that name is taken by the record itself (" ++ ", ".intercalate reserved ++ ")"))
      else
        match kinds.find? (·.name = kind) with
        | none => throw (invalidType name ("field \"" ++ field ++ "\" has unknown kind \"" ++ kind
            ++ "\" (kinds: " ++ ", ".intercalate (kinds.map Kind.name) ++ ")"))
        | some kind => return (field, kind)

/-- The types a link field may point at, each of `all` (or of `Object.prototype`). -/
def declareLink {α : Type} (name : String) (fields : List (String × Kind))
    (all : Dict String α) : String × List String → Checked Unit
  | (field, targets) => do
      throwIf (fields.lookup field ≠ some .link)
        (invalidType name ("links." ++ field ++ ": \"" ++ field ++ "\" is not a link field"))
      targets.forM fun target =>
        throwIf (lookup all.entries target matches .undefined)
          (invalidType name ("links." ++ field ++ ": unknown type \"" ++ target ++ "\""))

def declareIndex (name : String) (fields : List (String × Kind)) (keys : List String)
    : Checked (List String) := do
  throwIf (keys = [])
    (invalidType name "index is a list of field lists, e.g. [['forum', 'stamp']]")
  keys.forM fun k =>
    throwIf (k ≠ "stamp" && (fields.lookup k).isNone)
      (invalidType name ("index: unknown field \"" ++ k ++ "\""))
  return keys.filter (· ≠ "stamp")

def declare {α : Type} (name : String) (decl : Declaration) (all : Dict String α) (builtin : Bool)
    : Checked TypeDecl := do
  throwIf (ownPrefix name && !builtin)
    (invalidType name "names starting with \"hg/\" are hypergraph's own")
  let fields ← decl.fields.entries.mapM (declareField name)
  decl.links.entries.forM (declareLink name fields all)
  throwIf (decl.editable = .permission "")
    (invalidType name "editable is \"author\", \"members\" or { permission: name }")
  throwIf (decl.put = .permission "")
    (invalidType name "put is \"members\" or { permission: name }")
  let index ← decl.index.mapM (declareIndex name fields)
  let firstLink := fields.find? (·.2 = .link)
  return {
    fields := fields
    links := decl.links
    onePerMember := decl.onePerMember
    target := if decl.onePerMember then firstLink.map Prod.fst else none
    editable := decl.editable
    put := decl.put
    index := index }

/-- Hypergraph's own types, which apps can't write. -/
def builtin : Dict String Declaration :=
  let type (fields : List (String × String)) (index : List (List String)) : Declaration :=
    { fields := .ofList fields, index := index }
  .ofList [
    ("hg/device", type [("key", "bytes"), ("name", "string")] []),
    ("hg/space", type [("space", "space"), ("name", "string"), ("root", "space")] []),
    ("hg/setting", type [("name", "string"), ("value", "text")] [["name", "stamp"]]),
    ("hg/heads", type [("heads", "bytes")] []),
    ("hg/device-remove", type [("removed", "bytes"), ("cut", "bytes"), ("proof", "bytes")] []),
    ("hg/relation", type [("from", "link"), ("to", "link"), ("rel", "string"), ("value", "float"),
      ("data", "text"), ("off", "bool")] []),
    ("hg/tag", type [("on", "link"), ("tag", "string"), ("off", "bool")] []),
    ("hg/grant", type [("to", "string"), ("epoch", "uint"), ("commit", "bytes"),
      ("sealed", "bytes")] [["to"]]),
    ("hg/report", type [("boxes", "bytes")] []),
    ("hg/key-link", type [("from", "bytes"), ("to", "bytes"), ("epoch", "uint"),
      ("sealed", "bytes")] [])]

/-- `BUILTIN[name]`: what every object inherits counts too. -/
def isBuiltin (name : String) : Bool :=
  match lookup builtin.entries name with
  | .undefined => false
  | _ => true

/-- An app's types, hypergraph's own added. -/
structure Types where
  types : Dict String TypeDecl

namespace Types

def new (declarations : Dict String Declaration) : Checked Types := do
  let add {α : Type} (all : Dict String α) (own : Bool) (types : Dict String TypeDecl)
      (entry : String × Declaration) : Checked (Dict String TypeDecl) := do
    return types.put entry.1 (← declare entry.1 entry.2 all own)
  let types ← declarations.entries.foldlM (add declarations false) .empty
  return ⟨← builtin.entries.foldlM (add builtin true) types⟩

def describeType (t : TypeDecl) : StoredType where
  fields := t.fields.map fun (field, kind) => (field, kind.name)
  links := t.links
  onePerMember := t.onePerMember
  editable := t.editable
  put := some t.put
  index := some t.index

/-- The form to store, to compare with the next app version's. -/
def describe (app : Types) : Stored :=
  (app.types.filter fun name => !isBuiltin name).map describeType

/-- A space's stored types as declarations; a type named `__proto__` would set the prototype
of their object, and is none of them.
-/
def declarationsOf (stored : Stored) : Dict String Declaration :=
  ((stored.filter (· ≠ "__proto__")).map fun t => {
    fields := (Dict.ofList t.fields).listing
    links := t.links
    onePerMember := t.onePerMember
    editable := t.editable
    put := t.put.getD .members
    index := t.index.getD [] }).listing

/-- The types a space recorded. -/
def ofStored (stored : Stored) : Checked Types := new (declarationsOf stored)

/-- A space's types with declarations added: the types they name replace the space's. -/
def adding (stored : Stored) (declarations : Dict String Declaration) : Checked Types :=
  new (declarations.entries.foldl (fun all entry => all.put entry.1 entry.2)
    (declarationsOf stored))

/-- A space's types with this app's: a type the app declares with at least the space's fields is
the app's, any other stays the space's.
-/
def over_ (app : Types) (stored : Stored) : Stored :=
  app.describe.entries.foldl
    (fun out (entry : String × StoredType) =>
      match out.get? entry.1 with
      | none => out.put entry.1 entry.2
      | some old =>
          if old.fields.length ≤ entry.2.fields.length then out.put entry.1 entry.2 else out)
    stored

-- Comparing

def checkField (name : String) (old : StoredType) (now : TypeDecl)
    : (String × String) × Nat → Checked Unit
  | ((field, kind), i) => do
      let f := now.fields[i]?
      throwIf (f.map Prod.fst ≠ some field)
        (incompatible (name ++ ": field \"" ++ field
          ++ "\" moved or was removed; fields can only be added at the end"))
      let kind' := (f.map fun f => f.2.name).getD ""
      throwIf (kind' ≠ kind)
        (incompatible (name ++ ": field \"" ++ field ++ "\" changed from " ++ kind ++ " to "
          ++ kind'))
      throwIf (kind = "link" && lookup old.links.entries field ≠ lookup now.links.entries field)
        (incompatible (name ++ ": the types field \"" ++ field ++ "\" may link to changed"))

def checkType (name : String) (old : StoredType) (now : TypeDecl) : Checked Unit := do
  old.fields.zipIdx.forM (checkField name old now)
  throwIf (old.onePerMember ≠ now.onePerMember) (incompatible (name ++ ": onePerMember changed"))
  throwIf (now.onePerMember && truthy now.target && !old.fields.any (·.2 = "link"))
    (incompatible (name ++ ": field \"" ++ now.target.getD ""
      ++ "\" would be its first link, which changes what one per member counts by"))
  throwIf (old.editable ≠ now.editable) (incompatible (name ++ ": editable changed"))
  throwIf (old.put.getD .members ≠ now.put) (incompatible (name ++ ": put changed"))

/-- Does this declaration only append fields to the stored types, add types or add indexes? -/
def checkCompatible (app : Types) (stored : Option Stored) : Checked Unit :=
  match stored with
  | none => return ()
  | some stored =>
      stored.entries.forM fun (name, old) =>
        match app.types.get? name with
        | none => throw (incompatible ("type \"" ++ name
            ++ "\" was removed; types can only be added"))
        | some now => checkType name old now

/-- Do this declaration and the stored types agree on the types both have, as far as the fields
of both go?
-/
def conflict (app : Types) (stored : Option Stored) : Checked Unit :=
  let common := (stored.getD .empty).entries.filterMap fun (name, old) =>
    match app.types.get? name with
    | none => none
    | some now =>
        if isBuiltin name then none
        else some (name, { old with fields := old.fields.take now.fields.length })
  app.checkCompatible (some (.ofList common))

/-- The types whose rows may be indexed with an older declaration. -/
def stale (app : Types) (stored : Option Stored) : List String :=
  match stored with
  | none => []
  | some stored =>
      (app.types.entries.filter fun (name, now) =>
        !isBuiltin name && match stored.get? name with
          | none => true
          | some old => old.index.any (· ≠ now.index)).map Prod.fst

-- Recording

/-- The types a decider's app records when it opens the space, if any. -/
def recordTypes (app : Types) (recorded : Option Stored) : Option Stored :=
  if app.describe.entries = [] then none
  else
    match recorded with
    | none => some app.describe
    | some recorded =>
        if !app.describe.keys.any fun name => (recorded.get? name).isSome then none
        else
          let next := app.over_ recorded
          if next = recorded then none
          else
            match (do (← ofStored next).checkCompatible (some recorded) : Checked Unit) with
            | .error _ => none
            | .ok _ => some next

/-- The version a `types/set` that counts leaves recorded. -/
def setTypes (current : Option Stored) (types : Stored) : Option Stored :=
  match (do let next ← ofStored types; next.checkCompatible current; return next
      : Checked Types) with
  | .error _ => none
  | .ok next => some next.describe

end Types

end Hypergraph
