import Hypergraph.Engine.EntityIds
import Hypergraph.Engine.Events

/-! The graph's view (`src/view.js`, `src/index-layout/graph.js`): its entries, what one event of a user
log writes, and the view that a set of logs comes to.
-/

namespace Hypergraph.Engine

open Wire

namespace Graphs

open Layouts (IndexEncoder Member keyTime maxSafeInteger parseEntityId formatEntityId
  authorFromEntityId parseEntityId_eq_some parseEntityId_format authorFromEntityId_format
  formatEntityId_eq)
open Events (Decoded Event)

-- Entries

/-- What an entry is of: the indexes of `src/index-layout/graph.js`, but those about contexts. -/
inductive Place where
  | node (type : String) (author : Bytes) (seq : Nat)
  | nodeByType (type : String) (time : Nat) (author : Bytes) (seq : Nat)
  | nodeByTime (time : Nat) (type : String) (author : Bytes) (seq : Nat)
  | content (type : String) (author : Bytes) (seq contentSeq : Nat)
  | profile (author : Bytes)
  | userProgress (author : Bytes)
  deriving DecidableEq

/-- The log whose events an entry is of. -/
def Place.author : Place → Bytes
  | .node _ author _ | .nodeByType _ _ author _ | .nodeByTime _ _ author _ => author
  | .content _ author _ _ | .profile author | .userProgress author => author

/-- What is read of an entry: of a node its time, and when it was deleted. -/
inductive Value where
  | node (createdAt : Nat) (deletedAt : Option Nat)
  | empty
  | profile (seq : Nat) (username : String) (bio : Option String)
  | count (count : Nat)
  deriving DecidableEq

def tag : Place → Nat
  | .node .. => 0x01
  | .nodeByType .. => 0x02
  | .nodeByTime .. => 0x03
  | .content .. => 0x04
  | .profile .. => 0x05
  | .userProgress .. => 0x06

def members : Place → List Member
  | .node type author seq => [.string type, .buffer author, .uint seq]
  | .nodeByType type time author seq => [.string type, .uint time, .buffer author, .uint seq]
  | .nodeByTime time type author seq => [.uint time, .string type, .buffer author, .uint seq]
  | .content type author seq contentSeq =>
      [.string type, .buffer author, .uint seq, .uint contentSeq]
  | .profile author => [.buffer author]
  | .userProgress author => [.buffer author]

variable {Key : Type} (enc : IndexEncoder Key)

def key (place : Place) : Key := enc.encode (tag place) (members place)

theorem key_injective : Function.Injective (key enc) := by
  intro place place' same
  have tags := enc.tag_inj same
  have members_ : members place = members place' := by
    rw [← enc.decode_encode (tag place) (members place),
      ← enc.decode_encode (tag place') (members place')]
    exact congrArg enc.decode same
  cases place <;> cases place' <;> cases tags
  all_goals
    simp only [members, List.cons.injEq, Member.string.injEq, Member.buffer.injEq, Member.uint.injEq,
      and_true] at members_
    grind

-- Events

variable {Number : Type}

/-- An event's time as a member of a key: what is no time sorts as 0. -/
def timeOf (timestamp : Option Nat) : Nat := keyTime (timestamp.getD 0)

section Events

-- What is read of the view, and the name of the log: its key in hex.
variable (get : Place → Option Value) (coreKeyHex : String)

def applyIdentityUpdate (author username : String) (bio : Option String) (seq : Nat)
    : List (Place × Value) :=
  if author ≠ coreKeyHex then []
  else [(.profile (fromHex author), .profile seq username (required bio))]

def applyEntityCreate (timestamp : Option Nat) (entityType author : String) (seq : Nat)
    : List (Place × Value) :=
  if author ≠ coreKeyHex then []
  else
    -- the id is derived, never taken from the event
    match parseEntityId (entityType ++ "/" ++ coreKeyHex ++ "/" ++ toString seq) with
    | none => []
    | some (type, author, seq) =>
        match get (.node type author seq) with
        | some (.node _ none) => []
        | _ =>
            [(.node type author seq, .node (timeOf timestamp) none),
              (.nodeByType type (timeOf timestamp) author seq, .empty),
              (.nodeByTime (timeOf timestamp) type author seq, .empty)]

def applyEntityTombstone (timestamp : Option Nat) (id author : String) : List (Place × Value) :=
  if author ≠ coreKeyHex then []
  else
    match parseEntityId id with
    | none => []
    | some (type, author, seq) =>
        if toHex author ≠ coreKeyHex then []
        else
          match get (.node type author seq) with
          | some (.node createdAt _) =>
              [(.node type author seq, .node createdAt (some (timeOf timestamp)))]
          | _ => []

def applyContentAppend (entityId : String) (seq : Nat) : List (Place × Value) :=
  if authorFromEntityId entityId ≠ some coreKeyHex then []
  else
    match parseEntityId entityId with
    | none => []
    | some (type, author, entitySeq) => [(.content type author entitySeq seq, .empty)]

/-- What is put into the view. -/
def applyEvent (seq : Nat) : Decoded Number → List (Place × Value)
  | .event ⟨timestamp, .entityCreate _ entityType author⟩ =>
      applyEntityCreate get coreKeyHex timestamp entityType author seq
  | .event ⟨timestamp, .entityTombstone id author⟩ =>
      applyEntityTombstone get coreKeyHex timestamp id author
  | .event ⟨_, .contentAppend entityId _ _ _⟩ => applyContentAppend coreKeyHex entityId seq
  | .event ⟨_, .identityUpdate author username bio⟩ =>
      applyIdentityUpdate coreKeyHex author username bio seq
  | _ => []

end Events

-- Views

section Tables

variable [Ord Key] [Std.TransOrd Key]

/-- The view as it is stored. -/
abbrev Db (Key : Type) [Ord Key] := Table Key Value

def Db.get (db : Db Key) (place : Place) : Option Value := db[key enc place]?

def Db.put (db : Db Key) (puts : List (Place × Value)) : Db Key :=
  puts.foldl (fun db put => db.insert (key enc put.1) put.2) db

end Tables

/-- The view by what its entries are of. -/
abbrev View := Place → Option Value

def View.put (view : View) (puts : List (Place × Value)) : View :=
  puts.foldl (fun view put => Function.update view put.1 (some put.2)) view

/-- A stored view has the entries of a view, and no others. -/
def Shows [Ord Key] [Std.TransOrd Key] (db : Db Key) (view : View) : Prop :=
  Keyed.Holds (fun place : Key => db[place]?) (key enc) view

variable {enc}

theorem Shows.get [Ord Key] [Std.TransOrd Key] {db : Db Key} {view : View} (shows_ : Shows enc db view)
    : Db.get enc db = view :=
  funext shows_.under

theorem Shows.put [Ord Key] [Std.TransOrd Key] [Std.LawfulEqOrd Key] {db : Db Key} {view : View}
    (shows_ : Shows enc db view) (puts : List (Place × Value))
    : Shows enc (Db.put enc db puts) (view.put puts) := by
  classical
  induction puts generalizing db view with
  | nil => exact shows_
  | cons first rest ih =>
      refine ih ?_
      have map : (fun place : Key => (db.insert (key enc first.1) first.2)[place]?)
          = Function.update (fun place : Key => db[place]?) (key enc first.1) (some first.2) := by
        funext place
        rw [Std.ExtTreeMap.getElem?_insert, Function.update_apply]
        by_cases same : place = key enc first.1
        · simp [same]
        · simp [same, Ne.symm same]
      unfold Shows
      rw [map]
      exact Keyed.Holds.update shows_ (key_injective enc) first.1 (some first.2)

-- Logs

section Logs

variable {view view' : View} {puts : List (Place × Value)} {place : Place} {author : Bytes}
  {seq : Nat} {block : Decoded Number} {get get' : Place → Option Value} {id : String}

theorem put_of_not_mem (other : ∀ put ∈ puts, put.1 ≠ place) : view.put puts place = view place := by
  induction puts generalizing view with
  | nil => rfl
  | cons first rest ih =>
      exact (ih fun put mem => other put (.tail _ mem)).trans
        (Function.update_of_ne (other first (.head _)).symm _ _)

theorem put_congr (same : view place = view' place) : view.put puts place = view'.put puts place := by
  induction puts generalizing view view' with
  | nil => exact same
  | cons first rest ih =>
      refine ih ?_
      by_cases here : place = first.1
      · subst here
        simp only [Function.update_self]
      · simp only [Function.update_of_ne here, same]

theorem author_of_parse {type : String} (is : parseEntityId id = some (type, author, seq))
    : authorFromEntityId id = some (toHex author) := by
  obtain ⟨_, _, rfl⟩ := parseEntityId_eq_some.mp is
  exact authorFromEntityId_format

/-- The id of a log's own entity, as it is derived, is read where its position is a safe integer. -/
theorem applyEntityCreate_eq {timestamp : Option Nat} {entityType claimed : String}
    (length : author.length = 32) (safe : seq ≤ maxSafeInteger)
    (fresh : get (.node entityType author seq) = none)
    : applyEntityCreate get (toHex author) timestamp entityType claimed seq
      = if claimed ≠ toHex author then []
        else
          [(.node entityType author seq, .node (timeOf timestamp) none),
            (.nodeByType entityType (timeOf timestamp) author seq, .empty),
            (.nodeByTime (timeOf timestamp) entityType author seq, .empty)] := by
  rw [applyEntityCreate, ← formatEntityId_eq, parseEntityId_format length safe]
  simp only [fresh]

theorem applyContentAppend_eq
    : applyContentAppend (toHex author) id seq
      = match parseEntityId id with
        | none => []
        | some (type, named, entitySeq) =>
            if named ≠ author then [] else [(.content type author entitySeq seq, .empty)] := by
  rw [applyContentAppend]
  cases is : parseEntityId id with
  | none => exact ite_self _
  | some parts =>
      obtain ⟨type, named, entitySeq⟩ := parts
      rw [author_of_parse is]
      by_cases own : named = author
      · subst own
        rw [if_neg (not_not.mpr rfl)]
        exact (if_neg (not_not.mpr rfl)).symm
      · rw [if_pos fun same => own (toHex_injective (Option.some.inj same))]
        exact (if_pos own).symm

theorem author_of_mem {value : Value}
    (mem : (place, value) ∈ applyEvent get (toHex author) seq block)
    : place.author = author ∧ ∀ other, place ≠ .userProgress other := by
  unfold applyEvent at mem
  split at mem
  · simp only [applyEntityCreate, ← formatEntityId_eq] at mem
    split at mem
    · cases mem
    · split at mem
      · cases mem
      · rename_i is
        have own := author_of_parse is
        rw [authorFromEntityId_format, Option.some.injEq, toHex_injective.eq_iff] at own
        subst own
        split at mem
        · cases mem
        · rcases mem with _ | ⟨_, _ | ⟨_, _ | ⟨_, mem⟩⟩⟩
          · exact ⟨rfl, nofun⟩
          · exact ⟨rfl, nofun⟩
          · exact ⟨rfl, nofun⟩
          · cases mem
  · simp only [applyEntityTombstone] at mem
    split at mem
    · cases mem
    · split at mem
      · cases mem
      · split at mem
        · cases mem
        · rename_i own
          rw [not_not, toHex_injective.eq_iff] at own
          split at mem
          · cases List.mem_singleton.mp mem
            exact ⟨own, nofun⟩
          · cases mem
  · rw [applyContentAppend_eq] at mem
    split at mem
    · cases mem
    · split at mem
      · cases mem
      · cases List.mem_singleton.mp mem
        exact ⟨rfl, nofun⟩
  · simp only [applyIdentityUpdate] at mem
    split at mem
    · cases mem
    · rename_i own
      cases List.mem_singleton.mp mem
      exact ⟨by rw [not_not.mp own]; exact fromHex_toHex author, nofun⟩
  · cases mem

/-- What a log's event writes is decided by the log's own entities. -/
theorem applyEvent_congr
    (same : ∀ type seq, get (.node type author seq) = get' (.node type author seq))
    : applyEvent get (toHex author) seq block = applyEvent get' (toHex author) seq block := by
  unfold applyEvent
  split
  · simp only [applyEntityCreate, ← formatEntityId_eq]
    split
    · rfl
    · split
      · rfl
      · rename_i is
        have own := author_of_parse is
        rw [authorFromEntityId_format, Option.some.injEq, toHex_injective.eq_iff] at own
        subst own
        rw [same]
  · simp only [applyEntityTombstone]
    split
    · rfl
    · split
      · rfl
      · split
        · rfl
        · rename_i own
          rw [not_not, toHex_injective.eq_iff] at own
          subst own
          rw [same]
  · rfl
  · rfl
  · rfl

section Tags

variable {coreKeyHex claimed entityType username : String} {timestamp : Option Nat}
  {bio : Option String}

theorem tag_entityCreate
    : ∀ put ∈ applyEntityCreate get coreKeyHex timestamp entityType claimed seq, tag put.1 ≤ 3 := by
  intro put mem
  simp only [applyEntityCreate] at mem
  split at mem
  · cases mem
  · split at mem
    · cases mem
    · split at mem
      · cases mem
      · rcases mem with _ | ⟨_, _ | ⟨_, _ | ⟨_, mem⟩⟩⟩
        · exact Nat.le_of_ble_eq_true rfl
        · exact Nat.le_of_ble_eq_true rfl
        · exact Nat.le_of_ble_eq_true rfl
        · cases mem

theorem tag_entityTombstone
    : ∀ put ∈ applyEntityTombstone get coreKeyHex timestamp id claimed, tag put.1 = 1 := by
  intro put mem
  simp only [applyEntityTombstone] at mem
  split at mem
  · cases mem
  · split at mem
    · cases mem
    · split at mem
      · cases mem
      · split at mem
        · cases List.mem_singleton.mp mem
          rfl
        · cases mem

theorem tag_contentAppend : ∀ put ∈ applyContentAppend coreKeyHex id seq, tag put.1 = 4 := by
  intro put mem
  simp only [applyContentAppend] at mem
  split at mem
  · cases mem
  · split at mem
    · cases mem
    · cases List.mem_singleton.mp mem
      rfl

theorem tag_identityUpdate
    : ∀ put ∈ applyIdentityUpdate coreKeyHex claimed username bio seq, tag put.1 = 5 := by
  intro put mem
  simp only [applyIdentityUpdate] at mem
  split at mem
  · cases mem
  · cases List.mem_singleton.mp mem
    rfl

end Tags

end Logs

end Graphs

end Hypergraph.Engine
