import Hypergraph.Engine.GraphView

/-! The graph's view as the replay of the user logs: what the events of one log come to, entry by
entry.
-/

namespace Hypergraph.Engine

open Wire

namespace Graphs

open Layouts (keyTime maxSafeInteger formatEntityId parseEntityId_eq_some parseEntityId_format)
open Events (Decoded Event)

variable {Number : Type}

-- Replays

/-- The view of a log's events alone, applied in order. -/
def replay (author : Bytes) (blocks : List (Decoded Number)) : View :=
  blocks.zipIdx.foldl
    (fun view (block, seq) => view.put (applyEvent view (toHex author) seq block)) fun _ => none

theorem replay_append {author : Bytes} {blocks : List (Decoded Number)} {block : Decoded Number}
    : replay author (blocks ++ [block])
      = (replay author blocks).put
          (applyEvent (replay author blocks) (toHex author) blocks.length block) := by
  simp only [replay, List.zipIdx_append, List.foldl_append, List.zipIdx_cons, List.zipIdx_nil,
    List.foldl_cons, List.foldl_nil, Nat.zero_add]

/-- The view of all logs, each to some event, and the records of how far each is indexed. -/
def viewOf (logs : Bytes → List (Decoded Number)) (progress : Bytes → Option Nat) : View
  | .userProgress author => (progress author).map .count
  | place => replay place.author (logs place.author) place

section Logs

variable {logs : Bytes → List (Decoded Number)} {progress : Bytes → Option Nat} {place : Place}
  {author : Bytes} {block : Decoded Number}

theorem viewOf_eq_replay (noRecord : ∀ other, place ≠ .userProgress other)
    : viewOf logs progress place = replay place.author (logs place.author) place := by
  cases place with
  | userProgress other => exact absurd rfl (noRecord other)
  | _ => rfl

theorem viewOf_update_of_ne {blocks : List (Decoded Number)} (other : place.author ≠ author)
    : viewOf (Function.update logs author blocks) progress place = viewOf logs progress place := by
  cases place with
  | userProgress => rfl
  | _ => simp only [viewOf, Function.update_of_ne other]

/-- The next event of one log, applied to the view of all: the others are as they were. -/
theorem put_applyEvent
    : (viewOf logs progress).put
        (applyEvent (viewOf logs progress) (toHex author) (logs author).length block)
      = viewOf (Function.update logs author (logs author ++ [block])) progress := by
  funext place
  by_cases record : ∃ other, place = .userProgress other
  · obtain ⟨other, rfl⟩ := record
    exact put_of_not_mem fun put mem same => (author_of_mem mem).2 other same
  · have noRecord : ∀ other, place ≠ .userProgress other := fun other is => record ⟨other, is⟩
    by_cases own : place.author = author
    · subst own
      rw [viewOf_eq_replay noRecord, Function.update_self, replay_append]
      have same : applyEvent (viewOf logs progress) (toHex place.author) (logs place.author).length block
          = applyEvent (replay place.author (logs place.author)) (toHex place.author)
              (logs place.author).length block := applyEvent_congr fun _ _ => rfl
      rw [same]
      exact put_congr (viewOf_eq_replay noRecord)
    · rw [viewOf_update_of_ne own]
      exact put_of_not_mem fun put mem same => own (same ▸ (author_of_mem mem).1)

theorem put_progress {seq : Nat}
    : (viewOf logs progress).put [(.userProgress author, .count seq)]
      = viewOf logs (Function.update progress author (some seq)) := by
  funext place
  by_cases here : place = .userProgress author
  · subst here
    simp [View.put, viewOf]
  · rw [put_of_not_mem fun put mem same => here (by cases List.mem_singleton.mp mem; exact same.symm)]
    cases place with
    | userProgress other =>
        have apart : other ≠ author := fun is => here (is ▸ rfl)
        simp only [viewOf, Function.update_of_ne apart]
    | _ => rfl

end Logs

-- What a log says

section Says

variable (author : Bytes)

/-- The time of an entity's creation, by its own log. -/
def creation (type : String) : Decoded Number → Option Nat
  | .event ⟨timestamp, .entityCreate _ entityType claimed⟩ =>
      if claimed = toHex author ∧ entityType = type then some (timeOf timestamp) else none
  | _ => none

/-- The time of an entity's deletion, by its own log. -/
def tombstone (type : String) (seq : Nat) : Decoded Number → Option Nat
  | .event ⟨timestamp, .entityTombstone id claimed⟩ =>
      if claimed = toHex author ∧ id = formatEntityId type author seq then some (timeOf timestamp)
      else none
  | _ => none

/-- Content of an entity, by its own log. -/
def IsContent (type : String) (seq : Nat) : Decoded Number → Prop
  | .event ⟨_, .contentAppend entityId _ _ _⟩ => entityId = formatEntityId type author seq
  | _ => False

/-- The profile in a log's event. -/
def profile : Decoded Number × Nat → Option Value
  | (.event ⟨_, .identityUpdate claimed username bio⟩, seq) =>
      if claimed = toHex author then some (.profile seq username (required bio)) else none
  | _ => none

variable (blocks : List (Decoded Number))

/-- The log created the entity at that place, at that time. -/
def createdAt (type : String) (seq : Nat) : Option Nat := blocks[seq]?.bind (creation author type)

/-- When the last later event of the log that deletes it says so. -/
def deletedAt (type : String) (seq : Nat) : Option Nat :=
  ((blocks.drop (seq + 1)).filterMap (tombstone author type seq)).getLast?

end Says

section Spec

variable {author : Bytes} {type : String} {seq : Nat} {block : Decoded Number}
  {blocks : List (Decoded Number)}

theorem createdAt_append
    : createdAt author (blocks ++ [block]) type seq
      = if seq = blocks.length then creation author type block else createdAt author blocks type seq := by
  rw [createdAt, createdAt]
  split
  · rename_i here
    rw [here, List.getElem?_concat_length]
    rfl
  · by_cases before : seq < blocks.length
    · rw [List.getElem?_append_left before]
    · rw [List.getElem?_eq_none (by simp; omega), List.getElem?_eq_none (by omega)]

theorem createdAt_of_le (none_ : blocks.length ≤ seq) : createdAt author blocks type seq = none := by
  rw [createdAt, List.getElem?_eq_none none_]
  rfl

theorem deletedAt_append
    : deletedAt author (blocks ++ [block]) type seq
      = if seq < blocks.length then
          (tombstone author type seq block).or (deletedAt author blocks type seq)
        else none := by
  rw [deletedAt, deletedAt]
  split
  · rename_i before
    rw [List.drop_append_of_le_length before, List.filterMap_append, List.getLast?_append]
    cases is : tombstone author type seq block <;> simp [is]
  · rw [List.drop_eq_nil_of_le (by simp; omega)]
    rfl

def Value.deleted (time : Nat) : Value → Value
  | .node createdAt _ => .node createdAt (some time)
  | other => other

/-- What the event at a place makes of an entity's entry. -/
def nodeAfter (author : Bytes) (type : String) (seq n : Nat) (block : Decoded Number)
    (before : Option Value) : Option Value :=
  if seq = n then (creation author type block).map (.node · none)
  else
    match tombstone author type seq block with
    | some time => before.map (Value.deleted time)
    | none => before

section Nodes

variable {view : View} {n : Nat} {timestamp : Option Nat} {id entityType claimed : String}

theorem nodeAfter_of_other (creates : creation author type block = none)
    (deletes : tombstone author type seq block = none)
    (fresh : view (.node type author n) = none)
    : nodeAfter author type seq n block (view (.node type author seq)) = view (.node type author seq) := by
  rw [nodeAfter, creates, deletes]
  split
  · rename_i here
    rw [here, fresh]
    rfl
  · rfl

theorem put_entityCreate (length : author.length = 32) (safe : n ≤ maxSafeInteger)
    (fresh : ∀ type, view (.node type author n) = none)
    : (view.put (applyEntityCreate view (toHex author) timestamp entityType claimed n))
        (.node type author seq)
      = nodeAfter author type seq n
          (.event ⟨timestamp, .entityCreate id entityType claimed⟩ : Decoded Number)
          (view (.node type author seq)) := by
  rw [applyEntityCreate_eq length safe (fresh entityType)]
  by_cases own : claimed = toHex author
  · rw [if_neg (not_not.mpr own)]
    by_cases here : seq = n
    · subst here
      by_cases same : entityType = type
      · subst same
        simp [nodeAfter, creation, own, View.put]
      · simp [nodeAfter, creation, own, same, Ne.symm same, View.put, fresh]
    · simp [nodeAfter, tombstone, here, View.put]
  · have creates : creation author type
        (.event ⟨timestamp, .entityCreate id entityType claimed⟩ : Decoded Number) = none :=
      if_neg fun both => own both.1
    rw [if_pos own, nodeAfter_of_other creates rfl (fresh type)]
    rfl

theorem put_entityTombstone (length : author.length = 32) (safe : seq ≤ maxSafeInteger)
    (fresh : ∀ type, view (.node type author n) = none)
    : (view.put (applyEntityTombstone view (toHex author) timestamp id claimed))
        (.node type author seq)
      = nodeAfter author type seq n
          (.event ⟨timestamp, .entityTombstone id claimed⟩ : Decoded Number)
          (view (.node type author seq)) := by
  by_cases names : claimed = toHex author ∧ id = formatEntityId type author seq
  · obtain ⟨rfl, rfl⟩ := names
    simp only [applyEntityTombstone, parseEntityId_format length safe, ne_eq, not_true_eq_false,
      if_false]
    have tombstone_ : tombstone author type seq (.event ⟨timestamp,
        .entityTombstone (formatEntityId type author seq) (toHex author)⟩ : Decoded Number)
          = some (timeOf timestamp) := if_pos ⟨rfl, rfl⟩
    rw [nodeAfter, tombstone_]
    cases at_ : view (.node type author seq) with
    | none =>
        rw [show (creation author type (.event ⟨timestamp,
          .entityTombstone (formatEntityId type author seq) (toHex author)⟩ : Decoded Number)) = none from rfl]
        simp [View.put, at_]
    | some value =>
        have later : seq ≠ n := fun same => by
          rw [same, fresh] at at_
          cases at_
        rw [if_neg later]
        cases value <;> simp [View.put, at_, Value.deleted]
  · have deletes : tombstone author type seq
        (.event ⟨timestamp, .entityTombstone id claimed⟩ : Decoded Number) = none := if_neg names
    rw [nodeAfter_of_other rfl deletes (fresh type)]
    refine put_of_not_mem fun put mem same => names ?_
    simp only [applyEntityTombstone] at mem
    split at mem
    · cases mem
    · rename_i own
      split at mem
      · cases mem
      · rename_i is
        obtain ⟨_, _, named⟩ := parseEntityId_eq_some.mp is
        split at mem
        · cases mem
        · split at mem
          · cases List.mem_singleton.mp mem
            cases same
            exact ⟨not_not.mp own, named⟩
          · cases mem

end Nodes

/-- An event's part in an entity. -/
theorem put_node {view : View} (length : author.length = 32) {n : Nat} (safe : n ≤ maxSafeInteger)
    (safe' : seq ≤ maxSafeInteger) (fresh : ∀ type, view (.node type author n) = none)
    : (view.put (applyEvent view (toHex author) n block)) (.node type author seq)
      = nodeAfter author type seq n block (view (.node type author seq)) := by
  have other (creates : creation author type block = none)
      (deletes : tombstone author type seq block = none)
      (elsewhere : ∀ put ∈ applyEvent view (toHex author) n block, put.1 ≠ .node type author seq)
      : (view.put (applyEvent view (toHex author) n block)) (.node type author seq)
        = nodeAfter author type seq n block (view (.node type author seq)) := by
    rw [put_of_not_mem elsewhere, nodeAfter_of_other creates deletes (fresh type)]
  cases block with
  | event event =>
      obtain ⟨timestamp, body⟩ := event
      cases body with
      | entityCreate id entityType claimed => exact put_entityCreate length safe fresh
      | entityTombstone id claimed => exact put_entityTombstone length safe' fresh
      | contentAppend id =>
          exact other rfl rfl fun put mem same => by
            simpa [same, tag] using tag_contentAppend put mem
      | identityUpdate claimed =>
          exact other rfl rfl fun put mem same => by
            simpa [same, tag] using tag_identityUpdate put mem
      | _ => exact other rfl rfl nofun
  | _ => exact other rfl rfl nofun

/-- Where entities are listed, by type and by time. -/
theorem put_listed {view : View} (length : author.length = 32) {n time : Nat}
    (safe : n ≤ maxSafeInteger) (fresh : ∀ type, view (.node type author n) = none) {place : Place}
    (listed : place = .nodeByType type time author seq ∨ place = .nodeByTime time type author seq)
    : (view.put (applyEvent view (toHex author) n block)) place
      = if seq = n ∧ creation author type block = some time then some .empty else view place := by
  have other (creates : creation author type block = none)
      (elsewhere : ∀ put ∈ applyEvent view (toHex author) n block, put.1 ≠ place)
      : (view.put (applyEvent view (toHex author) n block)) place
        = if seq = n ∧ creation author type block = some time then some .empty else view place := by
    rw [put_of_not_mem elsewhere, creates, if_neg fun both => by cases both.2]
  have tags : tag place = 2 ∨ tag place = 3 := by
    rcases listed with rfl | rfl <;> simp [tag]
  cases block with
  | event event =>
      obtain ⟨timestamp, body⟩ := event
      cases body with
      | entityCreate id entityType claimed =>
          simp only [applyEvent]
          rw [applyEntityCreate_eq length safe (fresh entityType), creation]
          by_cases own : claimed = toHex author
          · rcases listed with rfl | rfl
            · simp only [own, true_and, ne_eq, not_true_eq_false, if_false, View.put, List.foldl_cons,
                List.foldl_nil, Function.update_apply, Option.ite_none_right_eq_some, Option.some.injEq,
                reduceCtorEq, Place.nodeByType.injEq]
              exact if_congr (by tauto) rfl rfl
            · simp only [own, true_and, ne_eq, not_true_eq_false, if_false, View.put, List.foldl_cons,
                List.foldl_nil, Function.update_apply, Option.ite_none_right_eq_some, Option.some.injEq,
                reduceCtorEq, Place.nodeByTime.injEq]
              exact if_congr (by tauto) rfl rfl
          · simp [own, View.put]
      | entityTombstone id claimed =>
          exact other rfl fun put mem same => by
            have one := tag_entityTombstone put mem
            rw [same] at one
            omega
      | contentAppend id =>
          exact other rfl fun put mem same => by
            have four := tag_contentAppend put mem
            rw [same] at four
            omega
      | identityUpdate claimed =>
          exact other rfl fun put mem same => by
            have five := tag_identityUpdate put mem
            rw [same] at five
            omega
      | _ => exact other rfl nofun
  | _ => exact other rfl nofun

/-- Where an entity's content is. -/
theorem put_content {view : View} (length : author.length = 32) {n c : Nat}
    (safe : seq ≤ maxSafeInteger)
    : ((view.put (applyEvent view (toHex author) n block)) (.content type author seq c)).isSome
      ↔ (c = n ∧ IsContent author type seq block) ∨ (view (.content type author seq c)).isSome := by
  have other (not_ : ¬ IsContent author type seq block)
      (elsewhere : ∀ put ∈ applyEvent view (toHex author) n block, put.1 ≠ .content type author seq c)
      : ((view.put (applyEvent view (toHex author) n block)) (.content type author seq c)).isSome
        ↔ (c = n ∧ IsContent author type seq block) ∨ (view (.content type author seq c)).isSome := by
    rw [put_of_not_mem elsewhere, or_iff_right fun both => not_ both.2]
  cases block with
  | event event =>
      obtain ⟨timestamp, body⟩ := event
      cases body with
      | entityCreate id entityType claimed =>
          exact other nofun fun put mem same => by
            simpa [same, tag] using tag_entityCreate put mem
      | entityTombstone id claimed =>
          exact other nofun fun put mem same => by
            simpa [same, tag] using tag_entityTombstone put mem
      | contentAppend entityId =>
          simp only [applyEvent, applyContentAppend_eq, IsContent]
          by_cases names : entityId = formatEntityId type author seq
          · rw [names, parseEntityId_format length safe]
            by_cases here : c = n
            · simp [here, View.put]
            · simp [here, View.put]
          · rw [put_of_not_mem, or_iff_right fun both => names both.2]
            intro put mem same
            split at mem
            · cases mem
            · rename_i is
              obtain ⟨_, _, named⟩ := parseEntityId_eq_some.mp is
              split at mem
              · cases mem
              · rename_i own
                cases List.mem_singleton.mp mem
                cases same
                exact names (not_not.mp own ▸ named)
      | identityUpdate claimed =>
          exact other nofun fun put mem same => by
            simpa [same, tag] using tag_identityUpdate put mem
      | _ => exact other nofun nofun
  | _ => exact other nofun nofun

theorem put_profile {view : View} {n : Nat}
    : (view.put (applyEvent view (toHex author) n block)) (.profile author)
      = (profile author (block, n)).or (view (.profile author)) := by
  have other (none_ : profile author (block, n) = none)
      (elsewhere : ∀ put ∈ applyEvent view (toHex author) n block, put.1 ≠ .profile author)
      : (view.put (applyEvent view (toHex author) n block)) (.profile author)
        = (profile author (block, n)).or (view (.profile author)) := by
    rw [put_of_not_mem elsewhere, none_, Option.none_or]
  cases block with
  | event event =>
      obtain ⟨timestamp, body⟩ := event
      cases body with
      | entityCreate id entityType claimed =>
          exact other rfl fun put mem same => by
            simpa [same, tag] using tag_entityCreate put mem
      | entityTombstone id claimed =>
          exact other rfl fun put mem same => by
            simpa [same, tag] using tag_entityTombstone put mem
      | contentAppend id =>
          exact other rfl fun put mem same => by
            simpa [same, tag] using tag_contentAppend put mem
      | identityUpdate claimed username bio =>
          by_cases own : claimed = toHex author
          · simp [applyEvent, applyIdentityUpdate, profile, own, View.put, fromHex_toHex]
          · simp [applyEvent, applyIdentityUpdate, profile, own, View.put]
      | _ => exact other rfl fun _ mem => absurd mem List.not_mem_nil
  | _ => exact other rfl fun _ mem => absurd mem List.not_mem_nil

section Replays

variable (length : author.length = 32) (short : blocks.length ≤ maxSafeInteger)

include length short

/-- An entity is in a log's view where the log created it, deleted where the log later says so. By
induction on the events, the last one first.
-/
theorem replay_node (safe : seq ≤ maxSafeInteger)
    : replay author blocks (.node type author seq)
      = (createdAt author blocks type seq).map fun time =>
          .node time (deletedAt author blocks type seq) := by
  induction blocks using List.reverseRecOn generalizing type seq with
  | nil => rfl
  | append_singleton blocks block ih =>
      have short' : blocks.length ≤ maxSafeInteger := by
        rw [List.length_append] at short
        omega
      have fresh : ∀ type, replay author blocks (.node type author blocks.length) = none := fun type => by
        rw [ih short' short', createdAt_of_le le_rfl]
        rfl
      rw [replay_append, put_node length short' safe fresh, ih short' safe, nodeAfter, createdAt_append,
        deletedAt_append]
      rcases lt_trichotomy seq blocks.length with before | here | after
      · rw [if_neg before.ne, if_neg before.ne, if_pos before]
        cases tombstone author type seq block <;> cases createdAt author blocks type seq <;> rfl
      · rw [if_pos here, if_pos here, if_neg here.not_lt]
      · rw [if_neg after.ne', if_neg after.ne', createdAt_of_le after.le]
        cases tombstone author type seq block <;> rfl

theorem replay_fresh : replay author blocks (.node type author blocks.length) = none := by
  rw [replay_node length short short, createdAt_of_le le_rfl]
  rfl

theorem replay_listed {time : Nat} {place : Place}
    (listed : place = .nodeByType type time author seq ∨ place = .nodeByTime time type author seq)
    : replay author blocks place
      = if createdAt author blocks type seq = some time then some .empty else none := by
  induction blocks using List.reverseRecOn with
  | nil =>
      rw [createdAt_of_le (Nat.zero_le _)]
      rfl
  | append_singleton blocks block ih =>
      have short' : blocks.length ≤ maxSafeInteger := by
        rw [List.length_append] at short
        omega
      rw [replay_append, put_listed length short' (fun _ => replay_fresh length short') listed,
        ih short', createdAt_append]
      by_cases here : seq = blocks.length
      · simp [here, createdAt_of_le]
      · simp [here]

omit short in
theorem replay_content {c : Nat} (safe : seq ≤ maxSafeInteger)
    : (replay author blocks (.content type author seq c)).isSome
      ↔ ∃ block, blocks[c]? = some block ∧ IsContent author type seq block := by
  induction blocks using List.reverseRecOn with
  | nil => simp [replay]
  | append_singleton blocks block ih =>
      rw [replay_append, put_content length safe, ih]
      rcases lt_trichotomy c blocks.length with before | here | after
      · rw [List.getElem?_append_left before, or_iff_right fun both => before.ne both.1]
      · rw [here, List.getElem?_concat_length, List.getElem?_eq_none le_rfl]
        simp
      · rw [List.getElem?_eq_none after.le, List.getElem?_eq_none (by simp; omega),
          or_iff_right fun both => after.ne' both.1]

omit length short in
theorem replay_profile
    : replay author blocks (.profile author)
      = (blocks.zipIdx.filterMap (profile author)).getLast? := by
  induction blocks using List.reverseRecOn with
  | nil => rfl
  | append_singleton blocks block ih =>
      rw [replay_append, put_profile, ih, List.zipIdx_append, List.filterMap_append,
        List.getLast?_append]
      cases is : profile author (block, blocks.length) <;> simp [is]

end Replays

end Spec

end Graphs

end Hypergraph.Engine
