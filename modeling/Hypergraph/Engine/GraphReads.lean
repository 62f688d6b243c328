import Hypergraph.Engine.GraphReplays

/-! What is read of the graph's view (`src/view.js`), where it is the replay of the user logs. -/

namespace Hypergraph.Engine

open Wire

namespace Graphs

open Layouts (IndexEncoder Member maxSafeInteger parseEntityId formatEntityId parseEntityId_eq_some
  parseEntityId_format keyTime_le)
open Events (Decoded Encrypted)

-- Reads

variable {Key Number : Type} [Ord Key] [Std.TransOrd Key]

structure Node where
  id : String
  type : String
  author : String
  createdAt : Nat
  version : Nat
  deriving DecidableEq

structure Content where
  entityId : String
  contentType : String
  body : String
  createdAt : Option Nat
  encrypted : Option Encrypted

structure Identity where
  author : String
  username : String
  bio : Option String
  seq : Nat
  deriving DecidableEq

section Reads

variable (enc : IndexEncoder Key) (db : Db Key)

/-- The keys of a range, in order. -/
def stream (tag : Nat) (parts : List Member) : List Key := db.keys.filter (enc.inRange tag parts)

def getIdentity (pubkey : String) : Option Identity :=
  if isHex64 pubkey then
    match Db.get enc db (.profile (fromHex pubkey)) with
    | some (.profile seq username bio) => some ⟨pubkey, username, bio, seq⟩
    | _ => none
  else none

def getNode (id : String) : Option Node :=
  match parseEntityId id with
  | none => none
  | some (type, author, seq) =>
      match Db.get enc db (.node type author seq) with
      | some (.node createdAt none) => some ⟨id, type, toHex author, createdAt, seq⟩
      | _ => none

def contentSeqFromKey (key : Key) : Option Nat :=
  match enc.decode key with
  | [_, _, _, .uint seq] => some seq
  | _ => none

/-- What is read of an event for content; `none`: it is no content of the entity. -/
def contentFrom (entityId : String) : Decoded Number → Option Content
  | .event ⟨timestamp, .contentAppend id contentType body encrypted⟩ =>
      if id = entityId then some ⟨entityId, contentType, body, timestamp, encrypted⟩ else none
  | _ => none

/-- `read`: what an open log has of a block, without waiting for it. -/
def getContent (read : String → Nat → Option (Decoded Number)) (entityId : String) : Option Content :=
  match parseEntityId entityId with
  | none => none
  | some (type, author, seq) =>
      -- the newest version is the last key of the entity's range
      match (stream enc db 0x04 [.string type, .buffer author, .uint seq]).getLast?.bind
        (contentSeqFromKey enc) with
      | none => none
      | some contentSeq => (read (toHex author) contentSeq).bind (contentFrom entityId)

def nodeIdFromTypeKey (key : Key) : String :=
  match enc.decode key with
  | [.string type, _, .buffer author, .uint seq] => formatEntityId type author seq
  | _ => ""

def nodeIdFromTimeKey (key : Key) : String :=
  match enc.decode key with
  | [_, .string type, .buffer author, .uint seq] => formatEntityId type author seq
  | _ => ""

def nodeIds (type : Option String) (reverse : Bool) : List String :=
  let ids := match type with
    | some type => (stream enc db 0x02 [.string type]).map (nodeIdFromTypeKey enc)
    | none => (stream enc db 0x03 []).map (nodeIdFromTimeKey enc)
  if reverse then ids.reverse else ids

end Reads

-- Ranges

/-- The keys of tuples that part in a number are in its order: `index-encoder` keeps the order of its
members.
-/
def Ordered (enc : IndexEncoder Key) : Prop :=
  ∀ (tag : Nat) (parts rest rest' : List Member) (m n : Nat), m < n → n ≤ maxSafeInteger
    → compare (enc.encode tag (parts ++ .uint m :: rest)) (enc.encode tag (parts ++ .uint n :: rest'))
      = .lt

section Ranges

variable {enc : IndexEncoder Key} {db : Db Key} {view : View} {t : Nat} {parts : List Member}
  {k k' : Key}

theorem pairwise_stream : (stream enc db t parts).Pairwise fun k k' => compare k k' = .lt :=
  Std.ExtTreeMap.ordered_keys.filter _

omit [Std.TransOrd Key] in
theorem le_getLast {keys : List Key} (ordered : keys.Pairwise fun k k' => compare k k' = .lt)
    (last : keys.getLast? = some k') (mem : k ∈ keys)
    : k = k' ∨ compare k k' = .lt := by
  obtain ⟨before, rfl⟩ := List.getLast?_eq_some_iff.mp last
  rcases List.mem_append.mp mem with mem | mem
  · exact .inr ((List.pairwise_append.mp ordered).2.2 k mem k' (.head _))
  · exact .inl (List.mem_singleton.mp mem)

variable [Std.LawfulEqOrd Key]

theorem mem_stream (shows_ : Shows enc db view)
    : k ∈ stream enc db t parts
      ↔ ∃ place, (view place).isSome ∧ tag place = t ∧ parts <+: members place ∧ k = key enc place := by
  rw [stream, List.mem_filter, Std.ExtTreeMap.mem_keys, ← Std.ExtTreeMap.isSome_getElem?_iff_mem]
  constructor
  · rintro ⟨there, inside⟩
    by_cases named : ∃ place, key enc place = k
    · obtain ⟨place, rfl⟩ := named
      obtain ⟨same, begins⟩ := (enc.inRange_encode ..).mp inside
      exact ⟨place, shows_.under place ▸ there, same, begins, rfl⟩
    · have nothing := shows_.only k fun place is => named ⟨place, is⟩
      rw [nothing] at there
      cases there
  · rintro ⟨place, there, rfl, begins, rfl⟩
    exact ⟨(shows_.under place).symm ▸ there, (enc.inRange_encode ..).mpr ⟨rfl, begins⟩⟩

end Ranges

-- What is read of replays

section Replayed

variable {enc : IndexEncoder Key} {db : Db Key} {logs : Bytes → List (Decoded Number)}
  {progress : Bytes → Option Nat} {author : Bytes} {type id : String} {seq time : Nat}
  (shows_ : Shows enc db (viewOf logs progress))
  (short : ∀ author, (logs author).length ≤ maxSafeInteger)
  (keys : ∀ author, logs author ≠ [] → author.length = 32)

theorem deletedAt_eq_none {blocks : List (Decoded Number)}
    : deletedAt author blocks type seq = none
      ↔ ∀ later block, seq < later → blocks[later]? = some block
          → tombstone author type seq block = none := by
  rw [deletedAt, List.getLast?_eq_none_iff, List.filterMap_eq_nil_iff]
  constructor
  · intro none_ later block lt at_
    refine none_ block (List.mem_of_getElem? (i := later - (seq + 1)) ?_)
    rw [List.getElem?_drop, Nat.add_sub_cancel' lt, at_]
  · intro none_ block mem
    obtain ⟨n, at_⟩ := List.mem_iff_getElem?.mp mem
    rw [List.getElem?_drop] at at_
    exact none_ (seq + 1 + n) block (by omega) at_

theorem seq_lt_of_createdAt {blocks : List (Decoded Number)}
    (created : createdAt author blocks type seq = some time)
    : seq < blocks.length := by
  by_contra none_
  rw [createdAt_of_le (not_lt.mp none_)] at created
  cases created

include short keys in
theorem parse_of_createdAt (created : createdAt author (logs author) type seq = some time)
    : author.length = 32 ∧ seq ≤ maxSafeInteger := by
  have lt := seq_lt_of_createdAt created
  exact ⟨keys author (List.ne_nil_of_length_pos (by omega)), by have := short author; omega⟩

include shows_ short keys in
/-- An entity is read where its own log created it and doesn't later delete it. -/
theorem getNode_eq_some {node : Node}
    : getNode enc db id = some node
      ↔ ∃ type author seq time, id = formatEntityId type author seq
          ∧ createdAt author (logs author) type seq = some time
          ∧ (∀ later block, seq < later → (logs author)[later]? = some block
              → tombstone author type seq block = none)
          ∧ node = ⟨id, type, toHex author, time, seq⟩ := by
  have at_ (type : String) (author : Bytes) (seq : Nat) (length : author.length = 32)
      (safe : seq ≤ maxSafeInteger)
      : Db.get enc db (.node type author seq)
        = (createdAt author (logs author) type seq).map fun time =>
            .node time (deletedAt author (logs author) type seq) := by
    rw [shows_.get]
    exact replay_node length (short author) safe
  constructor
  · intro is
    rw [getNode] at is
    split at is
    · cases is
    · rename_i type author seq parsed
      obtain ⟨length, safe, rfl⟩ := parseEntityId_eq_some.mp parsed
      rw [at_ type author seq length safe] at is
      cases created : createdAt author (logs author) type seq with
      | none =>
          rw [created] at is
          cases is
      | some time =>
          rw [created, Option.map_some] at is
          cases deleted : deletedAt author (logs author) type seq with
          | some late =>
              rw [deleted] at is
              cases is
          | none =>
              rw [deleted] at is
              cases is
              exact ⟨type, author, seq, time, rfl, created, deletedAt_eq_none.mp deleted, rfl⟩
  · rintro ⟨type, author, seq, time, rfl, created, kept, rfl⟩
    obtain ⟨length, safe⟩ := parse_of_createdAt short keys created
    rw [getNode, parseEntityId_format length safe]
    simp only
    rw [at_ type author seq length safe, created, deletedAt_eq_none.mpr kept]
    rfl

/-- The last of what is read of a list's members. -/
theorem getLast?_filterMap_zipIdx {α β : Type} {l : List α} {f : α × Nat → Option β} {b : β}
    : (l.zipIdx.filterMap f).getLast? = some b
      ↔ ∃ n a, l[n]? = some a ∧ f (a, n) = some b
          ∧ ∀ later a', n < later → l[later]? = some a' → f (a', later) = none := by
  induction l using List.reverseRecOn with
  | nil => simp
  | append_singleton l last ih =>
      rw [List.zipIdx_append, List.filterMap_append, List.getLast?_append]
      have at_last : (l ++ [last])[l.length]? = some last := List.getElem?_concat_length
      have before {n : Nat} (lt : n < l.length) : (l ++ [last])[n]? = l[n]? :=
        List.getElem?_append_left lt
      have bound {n : Nat} {a : α} (at_ : (l ++ [last])[n]? = some a) : n ≤ l.length := by
        have lt := (List.getElem?_eq_some_iff.mp at_).1
        rw [List.length_append, List.length_singleton] at lt
        omega
      simp only [List.zipIdx_cons, List.zipIdx_nil, Nat.zero_add]
      cases is : f (last, l.length) with
      | some value =>
          simp only [List.filterMap_cons, is, List.filterMap_nil, List.getLast?_singleton,
            Option.some_or, Option.some.injEq]
          constructor
          · rintro rfl
            exact ⟨l.length, last, at_last, is, fun later a' lt at_ => by have := bound at_; omega⟩
          · rintro ⟨n, a, at_, read, none_⟩
            rcases (bound at_).lt_or_eq with lt | rfl
            · rw [none_ _ last lt at_last] at is
              cases is
            · rw [at_last, Option.some.injEq] at at_
              subst at_
              exact Option.some.inj (is.symm.trans read)
      | none =>
          simp only [List.filterMap_cons, is, List.filterMap_nil, List.getLast?_nil, Option.none_or, ih]
          constructor
          · rintro ⟨n, a, at_, read, none_⟩
            have lt := (List.getElem?_eq_some_iff.mp at_).1
            refine ⟨n, a, by rw [before lt, at_], read, fun later a' lt' at' => ?_⟩
            rcases (bound at').lt_or_eq with lt'' | rfl
            · exact none_ later a' lt' (by rw [← before lt'', at'])
            · rw [at_last, Option.some.injEq] at at'
              exact at' ▸ is
          · rintro ⟨n, a, at_, read, none_⟩
            rcases (bound at_).lt_or_eq with lt | rfl
            · refine ⟨n, a, by rw [← before lt, at_], read, fun later a' lt' at' => ?_⟩
              have lt'' := (List.getElem?_eq_some_iff.mp at').1
              exact none_ later a' lt' (by rw [before lt'', at'])
            · rw [at_last, Option.some.injEq] at at_
              subst at_
              rw [read] at is
              cases is

/-- A profile in an event, if its author says to be that. -/
def identityFrom (pubkey : String) : Decoded Number × Nat → Option Identity
  | (.event ⟨_, .identityUpdate author username bio⟩, seq) =>
      if author = pubkey then some ⟨pubkey, username, required bio, seq⟩ else none
  | _ => none

theorem profile_eq {pubkey : String} (hex : toHex author = pubkey) (entry : Decoded Number × Nat)
    : profile author entry
      = (identityFrom pubkey entry).map fun identity =>
          .profile identity.seq identity.username identity.bio := by
  subst hex
  obtain ⟨block, seq⟩ := entry
  cases block with
  | event event =>
      obtain ⟨timestamp, body⟩ := event
      cases body with
      | identityUpdate claimed username bio =>
          simp only [profile, identityFrom]
          split
          · rfl
          · rfl
      | _ => rfl
  | _ => rfl

theorem author_of_identityFrom {pubkey : String} {entry : Decoded Number × Nat} {identity : Identity}
    (is : identityFrom pubkey entry = some identity)
    : identity.author = pubkey := by
  unfold identityFrom at is
  split at is
  · split at is
    · cases is
      rfl
    · cases is
  · cases is

theorem toHex_fromHex {text : String} (is : isHex64 text) : toHex (fromHex text) = text := by
  rw [toHex, fromHex, Layouts.hexChars_of_isHex64 (by rwa [String.ofList_toList]), String.ofList_toList]

include shows_ in
/-- A profile is the last that its own log has. -/
theorem getIdentity_eq_some {pubkey : String} {identity : Identity}
    : getIdentity enc db pubkey = some identity
      ↔ isHex64 pubkey ∧ ∃ seq block, (logs (fromHex pubkey))[seq]? = some block
          ∧ identityFrom pubkey (block, seq) = some identity
          ∧ ∀ later block', seq < later → (logs (fromHex pubkey))[later]? = some block'
              → identityFrom pubkey (block', later) = none := by
  rw [getIdentity]
  split
  · rename_i hex
    have at_ : Db.get enc db (.profile (fromHex pubkey))
        = (((logs (fromHex pubkey)).zipIdx.filterMap (identityFrom pubkey)).getLast?).map fun identity =>
            .profile identity.seq identity.username identity.bio := by
      rw [shows_.get, ← List.getLast?_map, List.map_filterMap]
      exact replay_profile.trans
        (congrArg _ (List.filterMap_congr fun entry _ => profile_eq (toHex_fromHex hex) entry))
    rw [at_, and_iff_right hex, ← getLast?_filterMap_zipIdx]
    cases is : ((logs (fromHex pubkey)).zipIdx.filterMap (identityFrom pubkey)).getLast? with
    | none => exact ⟨nofun, nofun⟩
    | some found =>
        obtain ⟨n, block, _, from_, _⟩ := getLast?_filterMap_zipIdx.mp is
        rw [← author_of_identityFrom from_]
        exact Iff.rfl
  · rename_i other
    exact ⟨nofun, fun both => absurd both.1 other⟩

/-- Where the block of an open log is held, it is what the log has there. -/
def heldBlocks (logs : Bytes → List (Decoded Number)) (held : String → Nat → Bool) (keyHex : String)
    (seq : Nat) : Option (Decoded Number) :=
  if held keyHex seq then (logs (fromHex keyHex))[seq]? else none

theorem isContent_iff {block : Decoded Number}
    : IsContent author type seq block ↔ (contentFrom (formatEntityId type author seq) block).isSome := by
  cases block with
  | event event =>
      obtain ⟨timestamp, body⟩ := event
      cases body with
      | contentAppend id contentType body encrypted => simp [IsContent, contentFrom]
      | _ => simp [IsContent, contentFrom]
  | _ => simp [IsContent, contentFrom]

theorem exists_content {place : Place} (is : tag place = 4)
    (begins : [.string type, .buffer author, .uint seq] <+: members place)
    : ∃ c, place = .content type author seq c := by
  cases place with
  | content type' author' seq' c =>
      simp only [members, List.cons_prefix_cons, Member.string.injEq, Member.buffer.injEq,
        Member.uint.injEq] at begins
      obtain ⟨rfl, rfl, rfl, _⟩ := begins
      exact ⟨c, rfl⟩
  | _ => cases is

section Newest

variable [Std.LawfulEqOrd Key] (ordered : Ordered enc) (length : author.length = 32)
  (safe : seq ≤ maxSafeInteger) {c : Nat}

include shows_ length safe in
theorem mem_contents {k : Key}
    : k ∈ stream enc db 0x04 [.string type, .buffer author, .uint seq]
      ↔ ∃ c block, (logs author)[c]? = some block ∧ IsContent author type seq block
          ∧ k = key enc (.content type author seq c) := by
  rw [mem_stream shows_]
  constructor
  · rintro ⟨place, there, is, begins, rfl⟩
    obtain ⟨c, rfl⟩ := exists_content is begins
    obtain ⟨block, at_, content⟩ := (replay_content length safe).mp there
    exact ⟨c, block, at_, content, rfl⟩
  · rintro ⟨c, block, at_, content, rfl⟩
    have there := (replay_content length safe).mpr ⟨block, at_, content⟩
    exact ⟨.content type author seq c, there, rfl, ⟨[.uint c], rfl⟩, rfl⟩

include shows_ short ordered length safe in
/-- The last key of an entity's range is of the last event with content of it. -/
theorem newest_eq_some
    : (stream enc db 0x04 [.string type, .buffer author, .uint seq]).getLast?.bind
          (contentSeqFromKey enc) = some c
      ↔ (∃ block, (logs author)[c]? = some block ∧ IsContent author type seq block)
        ∧ ∀ later block, c < later → (logs author)[later]? = some block
            → ¬ IsContent author type seq block := by
  have seq_of (c : Nat) : contentSeqFromKey enc (key enc (.content type author seq c)) = some c := by
    rw [contentSeqFromKey, key, enc.decode_encode]
    rfl
  have lt {c c' : Nat} (before : c < c') (block : Decoded Number) (at_ : (logs author)[c']? = some block)
      : compare (key enc (.content type author seq c)) (key enc (.content type author seq c')) = .lt := by
    have inside := (List.getElem?_eq_some_iff.mp at_).1
    have := short author
    exact ordered 4 [.string type, .buffer author, .uint seq] [] [] c c' before (by omega)
  have mem {k : Key} : k ∈ stream enc db 0x04 [.string type, .buffer author, .uint seq]
      ↔ ∃ c block, (logs author)[c]? = some block ∧ IsContent author type seq block
          ∧ k = key enc (.content type author seq c) := mem_contents shows_ length safe
  constructor
  · intro is
    obtain ⟨k, last, is⟩ := Option.bind_eq_some_iff.mp is
    obtain ⟨c', block, at_, content, rfl⟩ := mem.mp (List.mem_of_getLast? last)
    rw [seq_of, Option.some.injEq] at is
    subst is
    refine ⟨⟨block, at_, content⟩, fun later block' before at' content' => ?_⟩
    rcases le_getLast pairwise_stream last (mem.mpr ⟨later, block', at', content', rfl⟩) with same | lt'
    · cases key_injective enc same
      omega
    · rw [Std.OrientedCmp.gt_of_lt (lt before block' at')] at lt'
      cases lt'
  · rintro ⟨⟨block, at_, content⟩, none_⟩
    have there := mem.mpr ⟨c, block, at_, content, rfl⟩
    cases last : (stream enc db 0x04 [.string type, .buffer author, .uint seq]).getLast? with
    | none =>
        rw [List.getLast?_eq_none_iff.mp last] at there
        cases there
    | some k =>
        obtain ⟨c', block', at', content', rfl⟩ := mem.mp (List.mem_of_getLast? last)
        rw [Option.bind_some, seq_of, Option.some.injEq]
        rcases le_getLast pairwise_stream last there with same | lt'
        · cases key_injective enc same
          rfl
        · rcases lt_trichotomy c c' with before | same | after
          · exact absurd content' (none_ c' block' before at')
          · exact same.symm
          · rw [Std.OrientedCmp.gt_of_lt (lt after block at_)] at lt'
            cases lt'

end Newest

include shows_ short keys in
/-- An entity's content is the last that its own log has of it, where that is held. -/
theorem getContent_eq_some [Std.LawfulEqOrd Key] (ordered : Ordered enc)
    {full : Bytes → List (Decoded Number)} (prefix_ : ∀ author, logs author <+: full author)
    {held : String → Nat → Bool} {content : Content}
    : getContent enc db (heldBlocks full held) id = some content
      ↔ ∃ type author seq c block, id = formatEntityId type author seq ∧ seq ≤ maxSafeInteger
          ∧ (logs author)[c]? = some block ∧ contentFrom id block = some content
          ∧ (∀ later block', c < later → (logs author)[later]? = some block'
              → contentFrom id block' = none)
          ∧ held (toHex author) c := by
  have same {author : Bytes} {c : Nat} {block : Decoded Number} (at_ : (logs author)[c]? = some block)
      : (full author)[c]? = some block := by
    obtain ⟨more, is⟩ := prefix_ author
    rw [← is, List.getElem?_append_left (List.getElem?_eq_some_iff.mp at_).1, at_]
  constructor
  · intro is
    rw [getContent] at is
    split at is
    · cases is
    · rename_i type author seq parsed
      obtain ⟨length, safe, rfl⟩ := parseEntityId_eq_some.mp parsed
      split at is
      · cases is
      · rename_i c newest
        obtain ⟨⟨block, at_, _⟩, none_⟩ :=
          (newest_eq_some shows_ short ordered length safe).mp newest
        obtain ⟨block', read, from_⟩ := Option.bind_eq_some_iff.mp is
        obtain ⟨holds, read⟩ := Option.ite_none_right_eq_some.mp read
        rw [fromHex_toHex, same at_, Option.some.injEq] at read
        subst read
        refine ⟨type, author, seq, c, block, rfl, safe, at_, from_, fun later block' lt at' => ?_, holds⟩
        have not_ := none_ later block' lt at'
        rw [isContent_iff, Option.not_isSome_iff_eq_none] at not_
        exact not_
  · rintro ⟨type, author, seq, c, block, rfl, safe, at_, from_, none_, holds⟩
    have length := keys author (List.ne_nil_of_mem (List.mem_of_getElem? at_))
    have newest := (newest_eq_some shows_ short ordered length safe).mpr
      ⟨⟨block, at_, isContent_iff.mpr (by rw [from_]; rfl)⟩, fun later block' lt at' => by
        rw [isContent_iff, none_ later block' lt at']
        exact Bool.false_ne_true⟩
    rw [getContent, parseEntityId_format length safe]
    simp only [newest, heldBlocks]
    rw [if_pos holds, fromHex_toHex, same at_]
    exact from_

-- Lists of entities

/-- A range that lists entities by time: of a type, or of all. -/
structure Listing (enc : IndexEncoder Key) (wanted : Option String) (t : Nat) (parts : List Member)
    (idOf : Key → String) (place : String → Nat → Bytes → Nat → Place) : Prop where
  listed : ∀ type time author seq, place type time author seq = .nodeByType type time author seq
    ∨ place type time author seq = .nodeByTime time type author seq
  inside : ∀ {entry}, tag entry = t ∧ parts <+: members entry
    ↔ ∃ type time author seq, entry = place type time author seq ∧ ∀ other ∈ wanted, type = other
  id : ∀ type time author seq, idOf (key enc (place type time author seq))
    = formatEntityId type author seq
  lt : ∀ {type time author seq type' time' author' seq'}, (∀ other ∈ wanted, type = other)
    → (∀ other ∈ wanted, type' = other) → time < time' → time' ≤ maxSafeInteger
    → compare (key enc (place type time author seq)) (key enc (place type' time' author' seq')) = .lt

omit [Std.TransOrd Key] in
theorem listing_type (ordered : Ordered enc) (wanted : String)
    : Listing enc (some wanted) 0x02 [.string wanted] (nodeIdFromTypeKey enc) .nodeByType where
  listed _ _ _ _ := .inl rfl
  inside {entry} := by
    constructor
    · rintro ⟨is, begins⟩
      cases entry with
      | nodeByType type time author seq =>
          simp only [members, List.cons_prefix_cons, Member.string.injEq] at begins
          exact ⟨type, time, author, seq, rfl, fun other mem => by cases mem; exact begins.1.symm⟩
      | _ => cases is
    · rintro ⟨type, time, author, seq, rfl, same⟩
      cases same wanted rfl
      exact ⟨rfl, _, rfl⟩
  id _ _ _ _ := by
    rw [nodeIdFromTypeKey, key, enc.decode_encode]
    rfl
  lt same same' before safe := by
    cases same wanted rfl
    cases same' wanted rfl
    exact ordered 2 [.string wanted] _ _ _ _ before safe

omit [Std.TransOrd Key] in
theorem listing_all (ordered : Ordered enc)
    : Listing enc none 0x03 [] (nodeIdFromTimeKey enc)
        fun type time author seq => .nodeByTime time type author seq where
  listed _ _ _ _ := .inr rfl
  inside {entry} := by
    constructor
    · rintro ⟨is, _⟩
      cases entry with
      | nodeByTime time type author seq => exact ⟨type, time, author, seq, rfl, nofun⟩
      | _ => cases is
    · rintro ⟨type, time, author, seq, rfl, _⟩
      exact ⟨rfl, List.nil_prefix⟩
  id _ _ _ _ := by
    rw [nodeIdFromTimeKey, key, enc.decode_encode]
    rfl
  lt _ _ before safe := ordered 3 [] _ _ _ _ before safe

theorem createdAt_le {blocks : List (Decoded Number)}
    (created : createdAt author blocks type seq = some time)
    : time ≤ maxSafeInteger := by
  obtain ⟨block, _, created⟩ := Option.bind_eq_some_iff.mp created
  unfold creation at created
  split at created
  · obtain ⟨_, is⟩ := Option.ite_none_right_eq_some.mp created
    cases is
    exact keyTime_le _
  · cases created

section Lists

variable [Std.LawfulEqOrd Key] {wanted : Option String} {t : Nat} {parts : List Member}
  {idOf : Key → String} {place : String → Nat → Bytes → Nat → Place}

include shows_ short keys in
/-- The keys of such a range are those of the entities that their logs created. -/
theorem Listing.mem_stream (listing : Listing enc wanted t parts idOf place) {k : Key}
    : k ∈ stream enc db t parts
      ↔ ∃ type time author seq, createdAt author (logs author) type seq = some time
          ∧ (∀ other ∈ wanted, type = other) ∧ k = key enc (place type time author seq) := by
  have there (type : String) (time : Nat) (author : Bytes) (seq : Nat)
      : (viewOf logs progress (place type time author seq)).isSome
        ↔ createdAt author (logs author) type seq = some time := by
    have is : viewOf logs progress (place type time author seq)
        = replay author (logs author) (place type time author seq) := by
      rcases listing.listed type time author seq with is | is <;> rw [is] <;> rfl
    rw [is]
    by_cases none_ : logs author = []
    · rw [none_, createdAt_of_le (Nat.zero_le _)]
      exact ⟨nofun, nofun⟩
    · rw [replay_listed (keys author none_) (short author) (listing.listed type time author seq)]
      split <;> simp [*]
  rw [Graphs.mem_stream shows_]
  constructor
  · rintro ⟨entry, some_, is, begins, rfl⟩
    obtain ⟨type, time, author, seq, rfl, same⟩ := listing.inside.mp ⟨is, begins⟩
    exact ⟨type, time, author, seq, (there ..).mp some_, same, rfl⟩
  · rintro ⟨type, time, author, seq, created, same, rfl⟩
    obtain ⟨is, begins⟩ := listing.inside.mpr ⟨type, time, author, seq, rfl, same⟩
    exact ⟨_, (there ..).mpr created, is, begins, rfl⟩

include shows_ short keys in
theorem Listing.mem_ids (listing : Listing enc wanted t parts idOf place)
    : id ∈ (stream enc db t parts).map idOf
      ↔ ∃ type author seq, (∀ other ∈ wanted, type = other)
          ∧ (createdAt author (logs author) type seq).isSome ∧ id = formatEntityId type author seq := by
  rw [List.mem_map]
  constructor
  · rintro ⟨k, mem, rfl⟩
    obtain ⟨type, time, author, seq, created, same, rfl⟩ :=
      (listing.mem_stream shows_ short keys).mp mem
    exact ⟨type, author, seq, same, created ▸ rfl, listing.id ..⟩
  · rintro ⟨type, author, seq, same, created, rfl⟩
    obtain ⟨time, created⟩ := Option.isSome_iff_exists.mp created
    exact ⟨_, (listing.mem_stream shows_ short keys).mpr
      ⟨type, time, author, seq, created, same, rfl⟩, listing.id ..⟩

include shows_ short keys in
theorem Listing.nodup_ids (listing : Listing enc wanted t parts idOf place)
    : ((stream enc db t parts).map idOf).Nodup := by
  refine List.Nodup.map_on ?_ (Std.ExtTreeMap.nodup_keys.filter _)
  intro k mem k' mem' same
  obtain ⟨type, time, author, seq, created, _, rfl⟩ := (listing.mem_stream shows_ short keys).mp mem
  obtain ⟨type', time', author', seq', created', _, rfl⟩ :=
    (listing.mem_stream shows_ short keys).mp mem'
  obtain ⟨length, safe⟩ := parse_of_createdAt short keys created
  obtain ⟨length', safe'⟩ := parse_of_createdAt short keys created'
  rw [listing.id, listing.id] at same
  have parsed : parseEntityId (formatEntityId type author seq) = some (type, author, seq) :=
    parseEntityId_format length safe
  rw [same, parseEntityId_format length' safe'] at parsed
  cases parsed
  rw [created, Option.some.injEq] at created'
  rw [created']

/-- When a log says that it created an entity. -/
def claimedAt (logs : Bytes → List (Decoded Number)) (id : String) : Nat :=
  match parseEntityId id with
  | some (type, author, seq) => (createdAt author (logs author) type seq).getD 0
  | none => 0

include shows_ short keys in
theorem Listing.pairwise_ids (listing : Listing enc wanted t parts idOf place)
    : ((stream enc db t parts).map idOf).Pairwise fun id id' => claimedAt logs id ≤ claimedAt logs id' := by
  rw [List.pairwise_map]
  refine pairwise_stream.imp_of_mem ?_
  intro k k' mem mem' before
  obtain ⟨type, time, author, seq, created, same, rfl⟩ := (listing.mem_stream shows_ short keys).mp mem
  obtain ⟨type', time', author', seq', created', same', rfl⟩ :=
    (listing.mem_stream shows_ short keys).mp mem'
  have claimed {type : String} {time : Nat} {author : Bytes} {seq : Nat}
      (created : createdAt author (logs author) type seq = some time)
      : claimedAt logs (formatEntityId type author seq) = time := by
    obtain ⟨length, safe⟩ := parse_of_createdAt short keys created
    rw [claimedAt, parseEntityId_format length safe]
    simp only [created, Option.getD_some]
  rw [listing.id, listing.id, claimed created, claimed created']
  by_contra later
  rw [Std.OrientedCmp.gt_of_lt (listing.lt same' same (not_le.mp later) (createdAt_le created))] at before
  cases before

end Lists

/-- The listing of a call. -/
theorem exists_listing (db : Db Key) (ordered : Ordered enc) (wanted : Option String) (reverse : Bool)
    : ∃ t parts idOf place, Listing enc wanted t parts idOf place
        ∧ nodeIds enc db wanted reverse
          = if reverse then ((stream enc db t parts).map idOf).reverse
            else (stream enc db t parts).map idOf := by
  cases wanted with
  | none => exact ⟨_, _, _, _, listing_all ordered, rfl⟩
  | some type => exact ⟨_, _, _, _, listing_type ordered type, rfl⟩

section Calls

variable [Std.LawfulEqOrd Key] (ordered : Ordered enc) {wanted : Option String} {reverse : Bool}

include shows_ short keys ordered

theorem mem_nodeIds
    : id ∈ nodeIds enc db wanted reverse
      ↔ ∃ type author seq, (∀ other ∈ wanted, type = other)
          ∧ (createdAt author (logs author) type seq).isSome ∧ id = formatEntityId type author seq := by
  obtain ⟨t, parts, idOf, place, listing, is⟩ := exists_listing db ordered wanted reverse
  rw [is, ← listing.mem_ids shows_ short keys]
  split
  · exact List.mem_reverse
  · exact Iff.rfl

theorem nodup_nodeIds : (nodeIds enc db wanted reverse).Nodup := by
  obtain ⟨t, parts, idOf, place, listing, is⟩ := exists_listing db ordered wanted reverse
  rw [is]
  split
  · exact List.nodup_reverse.mpr (listing.nodup_ids shows_ short keys)
  · exact listing.nodup_ids shows_ short keys

theorem pairwise_nodeIds
    : (nodeIds enc db wanted reverse).Pairwise fun id id' =>
        if reverse then claimedAt logs id' ≤ claimedAt logs id
        else claimedAt logs id ≤ claimedAt logs id' := by
  obtain ⟨t, parts, idOf, place, listing, is⟩ := exists_listing db ordered wanted reverse
  rw [is]
  cases reverse with
  | true =>
      simp only [if_true, List.pairwise_reverse]
      exact listing.pairwise_ids shows_ short keys
  | false => simpa using listing.pairwise_ids shows_ short keys

end Calls

end Replayed

end Graphs

end Hypergraph.Engine
