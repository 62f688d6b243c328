import Hypergraph.Lib.Splits
import Hypergraph.Engine.Replaying

/-! Messages and moderation in a context's view: the entries are those of the events applied, each under
its own key, and what a read of a target's or an author's entries finds.
-/

namespace Hypergraph.Engine

open Wire Js Layouts Events

variable {W Db Number : Type}

-- Keys

/-- The key a message is kept under. -/
def messageKey (stamp : Nat × String) : String := "msg:" ++ toString stamp.1 ++ ":" ++ stamp.2

/-- What a message's key is made of. -/
def ContextMessage.stamp (m : ContextMessage) : Nat × String := (m.timestamp, sliceStart m.author 8)

def ContextMessage.row (m : ContextMessage) : String × ContextMessage := (messageKey m.stamp, m)

theorem messageKey_injective : Function.Injective messageKey := by
  rintro ⟨time, start⟩ ⟨time', start'⟩ same
  have chars := congrArg String.toList same
  simp only [messageKey, String.toList_append, List.append_assoc] at chars
  obtain ⟨times, starts⟩ := Joined.cut_inj (List.append_cancel_left chars)
    (Digits.colon_not_mem_toString _) (Digits.colon_not_mem_toString _)
  exact Prod.ext (Digits.toString_injective (String.toList_injective times))
    (String.toList_injective starts)

/-- A moderation action that counts, with the node it came in. -/
structure Counted where
  action : ModerationAction
  from_ : Key
  length : Nat

namespace Counted

variable (c : Counted)

/-- Whose block it is, and which: the core's key, and the length with it. -/
def mark : Key × Nat := (c.from_, c.length)

def seq : Int := if 0 < c.length then c.length - 1 else -1

def time : String := String.ofList (toSortableTs c.action.timestamp)

def targetKey : String :=
  "m:t:" ++ c.action.target ++ ":" ++ c.time ++ ":" ++ toHex c.from_ ++ ":" ++ toString c.seq

def authorKey : String :=
  "m:a:" ++ c.action.author ++ ":" ++ c.time ++ ":" ++ c.action.target ++ ":" ++ toHex c.from_ ++ ":"
    ++ toString c.seq

def entry (peer : ContextPeer W Number) : Moderated where
  eventId := peer.sha256 s!"{toHex c.from_}:{c.seq}"
  action := c.action.action
  target := c.action.target
  reason := required c.action.reason
  author := c.action.author
  createdAt := c.action.timestamp
  signature := c.action.signature
  coreKey := toHex c.from_
  seq := c.seq

/-- The entries of an action: one for its target, one for its author. -/
def rows (peer : ContextPeer W Number) : List (String × Moderated) :=
  [(c.targetKey, c.entry peer), (c.authorKey, c.entry peer)]

/-- Those of several actions. -/
def allRows (peer : ContextPeer W Number) (counted : List Counted) : List (String × Moderated) :=
  counted.flatMap fun c => c.rows peer

/-- How an action's keys end: with its block. -/
def ends : List Char := (toHex c.from_).toList ++ ':' :: (toString c.seq).toList

/-- What goes on after a target's name in a key, and after an author's. -/
def targetTail : List Char := c.time.toList ++ ':' :: c.ends

def authorTail : List Char := c.time.toList ++ ':' :: (c.action.target.toList ++ ':' :: c.ends)

theorem targetKey_toList
    : c.targetKey.toList = "m:t:".toList ++ (c.action.target.toList ++ ':' :: c.targetTail) := by
  simp [targetKey, targetTail, ends, String.toList_append]

theorem authorKey_toList
    : c.authorKey.toList = "m:a:".toList ++ (c.action.author.toList ++ ':' :: c.authorTail) := by
  simp [authorKey, authorTail, ends, String.toList_append]

theorem low_time (rest : List Char) : (c.time.toList ++ ':' :: rest).head?.all (· < '\uffff') = true := by
  have low := @Layout1.low_joined _ [rest] (Layout1.low_toSortableTs c.action.timestamp)
  rw [time, String.toList_ofList]
  exact low

/-- A block's place is written in digits; that of none, with a sign. -/
theorem seq_cases
    : (0 < c.length ∧ toString c.seq = toString (c.length - 1))
      ∨ (c.length = 0 ∧ toString c.seq = "-1") := by
  rw [seq]
  split
  · rename_i positive
    have is : (c.length : Int) - 1 = ((c.length - 1 : Nat) : Int) := by omega
    rw [is]
    exact .inl ⟨positive, rfl⟩
  · rename_i none_
    exact .inr ⟨Nat.eq_zero_of_not_pos none_, rfl⟩

theorem toString_ne_signed (n : Nat) : toString n ≠ "-1" := by
  intro same
  have mem : '-' ∈ (toString n).toList := by
    rw [same]
    decide
  rw [Nat.toString_eq_ofList_toDigits, String.toList_ofList] at mem
  exact absurd (Nat.isDigit_of_mem_toDigits (by decide) (by decide) mem) (by decide)

theorem length_of_seq {c c' : Counted} (same : toString c.seq = toString c'.seq)
    : c.length = c'.length := by
  rcases c.seq_cases with ⟨positive, is⟩ | ⟨none_, is⟩
  · rcases c'.seq_cases with ⟨positive', is'⟩ | ⟨none', is'⟩
    · rw [is, is'] at same
      have told := Digits.toString_injective same
      omega
    · rw [is, is'] at same
      exact absurd same (toString_ne_signed _)
  · rcases c'.seq_cases with ⟨positive', is'⟩ | ⟨none', is'⟩
    · rw [is, is'] at same
      exact absurd same.symm (toString_ne_signed _)
    · rw [none_, none']

theorem colon_not_mem_seq : ':' ∉ (toString c.seq).toList := by
  rcases c.seq_cases with ⟨_, is⟩ | ⟨_, is⟩
  · rw [is]
    exact Digits.colon_not_mem_toString _
  · rw [is]
    decide

theorem colon_not_mem_toHex (key : Key) : ':' ∉ (toHex key).toList := by
  intro mem
  rw [toHex, String.toList_ofList] at mem
  rcases lower_of_mem_hexChars mem with ⟨_, _⟩ | ⟨_, _⟩ <;> contradiction

theorem mark_eq {c c' : Counted} {first first' : List Char}
    (same : first ++ ':' :: c.ends = first' ++ ':' :: c'.ends)
    : c.mark = c'.mark := by
  rw [ends, ends, ← List.cons_append, ← List.append_assoc, ← List.cons_append,
    ← List.append_assoc] at same
  obtain ⟨same, seqs⟩ := Splits.append_cons_inj same c.colon_not_mem_seq c'.colon_not_mem_seq
  obtain ⟨-, keys⟩ := Splits.append_cons_inj same (colon_not_mem_toHex _) (colon_not_mem_toHex _)
  exact Prod.ext (toHex_injective (String.toList_injective keys))
    (length_of_seq (String.toList_injective seqs))

theorem regroup (first next rest : List Char)
    : first ++ ':' :: (next ++ ':' :: rest) = (first ++ ':' :: next) ++ ':' :: rest := by simp

theorem mark_of_targetKey {c c' : Counted} (same : c.targetKey = c'.targetKey)
    : c.mark = c'.mark := by
  have chars := congrArg String.toList same
  rw [targetKey_toList, targetKey_toList, targetTail, targetTail] at chars
  have chars := List.append_cancel_left chars
  rw [regroup, regroup] at chars
  exact mark_eq chars

theorem mark_of_authorKey {c c' : Counted} (same : c.authorKey = c'.authorKey)
    : c.mark = c'.mark := by
  have chars := congrArg String.toList same
  rw [authorKey_toList, authorKey_toList, authorTail, authorTail] at chars
  have chars := List.append_cancel_left chars
  rw [regroup, regroup, regroup, regroup] at chars
  exact mark_eq chars

theorem targetKey_ne_authorKey (c c' : Counted) : c.targetKey ≠ c'.authorKey := by
  intro same
  have chars := congrArg String.toList same
  rw [targetKey_toList, authorKey_toList] at chars
  simp at chars

theorem nodup_rows (peer : ContextPeer W Number) {counted : List Counted}
    (apart : (counted.map mark).Nodup)
    : ((allRows peer counted).map Prod.fst).Nodup := by
  rw [allRows, List.map_flatMap, List.nodup_flatMap]
  refine ⟨fun c _ => ?_, (List.pairwise_map.mp apart).imp fun {c c'} other => ?_⟩
  · simp [rows, c.targetKey_ne_authorKey c]
  · intro key mem mem'
    simp only [rows, List.map_cons, List.map_nil, List.mem_cons, List.not_mem_nil, or_false]
      at mem mem'
    rcases mem with rfl | rfl
    · rcases mem' with same | same
      · exact other (mark_of_targetKey same)
      · exact c.targetKey_ne_authorKey c' same
    · rcases mem' with same | same
      · exact c'.targetKey_ne_authorKey c same.symm
      · exact other (mark_of_authorKey same)

end Counted

namespace Context

variable (peer : ContextPeer W Number) (p : Primitives) (float64 : Codec Number)
  (layout : IndexLayout Db Number)

-- What a run applies

/-- The message of a node, where it is applied. -/
def postedAt (s : Context W Db) : Option (ContextNode × Nat) → List ContextMessage
  | none => []
  | some (node, _) =>
      match asked peer p float64 node with
      | .message event text username author =>
          if s.index.passesRules peer layout event then
            [⟨text, username, author, event.timestamp.getD 0⟩]
          else []
      | _ => []

/-- The moderation action of a node, where it counts. -/
def countedAt (s : Context W Db) : Option (ContextNode × Nat) → List Counted
  | none => []
  | some (node, now) =>
      match asked peer p float64 node with
      | .moderation m =>
          if m.verifies peer now ∧ canIn s.governance.roles m.author m.action then
            [⟨m, node.from_, node.length⟩]
          else []
      | _ => []

/-- A step of a run: a node applied, or a chunk's end. -/
abbrev taking : Context W Db → Option (ContextNode × Nat) → Context W Db :=
  Chunks.taken (fun s input => apply peer p float64 layout s input.1 input.2) (settle layout)

/-- The messages that calls apply, and the moderation actions that count. -/
def posted (s : Context W Db) (given : List (Nat × List (ContextNode × Nat))) : List ContextMessage :=
  Runs.given (taking peer p float64 layout) (postedAt peer p float64 layout) s (Chunks.calls given)

def counted (s : Context W Db) (given : List (Nat × List (ContextNode × Nat))) : List Counted :=
  Runs.given (taking peer p float64 layout) (countedAt peer p float64) s (Chunks.calls given)

/-- What is read of the entries whose keys start with a text (`createReadStream`). -/
def listing (table : Table String Moderated) (start : String) : List Moderated :=
  (table.toList.filter fun row => Joined.inRange start.toList row.1.toList).map Prod.snd

/-- `queryContext`, of a target. -/
def ofTarget (s : Context W Db) (target : String) : List Moderated :=
  listing s.moderation ("m:t:" ++ target ++ ":")

/-- The entries of an author, likewise. -/
def ofAuthor (s : Context W Db) (author : String) : List Moderated :=
  listing s.moderation ("m:a:" ++ author ++ ":")

variable {peer p float64 layout} {s : Context W Db}
  {given : List (Nat × List (ContextNode × Nat))}

theorem messages_taking (input : Option (ContextNode × Nat))
    : (taking peer p float64 layout s input).messages
      = s.messages.putRows ((postedAt peer p float64 layout s input).map ContextMessage.row) := by
  cases input with
  | none => rfl
  | some input =>
      obtain ⟨node, now⟩ := input
      show (apply peer p float64 layout s node now).messages = _
      rw [apply, postedAt]
      cases asked peer p float64 node with
      | moderation m =>
          simp only [applyModeration]
          split_ifs <;> rfl
      | message event text username author =>
          simp only [applyMessage]
          by_cases passes : s.index.passesRules peer layout event = true
          · rw [if_neg (not_not.mpr passes), if_pos passes]
            rfl
          · rw [if_pos passes, if_neg passes]
            rfl
      | _ => rfl

theorem moderation_taking (input : Option (ContextNode × Nat))
    : (taking peer p float64 layout s input).moderation
      = s.moderation.putRows
          (Counted.allRows peer (countedAt peer p float64 s input)) := by
  cases input with
  | none => rfl
  | some input =>
      obtain ⟨node, now⟩ := input
      show (apply peer p float64 layout s node now).moderation = _
      rw [apply, countedAt]
      cases asked peer p float64 node with
      | moderation m =>
          simp only [applyModeration]
          by_cases verifies : m.verifies peer now = true
          · by_cases can : canIn s.governance.roles m.author m.action = true
            · rw [if_neg (not_not.mpr verifies), if_neg (not_not.mpr can), if_pos ⟨verifies, can⟩]
              rfl
            · rw [if_neg (not_not.mpr verifies), if_pos can, if_neg fun both => can both.2]
              rfl
          · rw [if_pos verifies, if_neg fun both => verifies both.1]
            rfl
      | message event text username author =>
          simp only [applyMessage]
          split_ifs <;> rfl
      | _ => rfl

/-- A run puts in the entries of the messages applied. -/
theorem messages_run
    : (s.run peer p float64 layout given).messages
      = s.messages.putRows ((posted peer p float64 layout s given).map ContextMessage.row) :=
  Runs.view_given Context.messages
    (fun table (messages : List ContextMessage) =>
      Table.putRows table (messages.map ContextMessage.row))
    (fun _ => rfl)
    (fun table first rest => by
      rw [List.map_append]
      exact Table.putRows_append _ _)
    fun s input => messages_taking input

/-- And those of the moderation actions that count. -/
theorem moderation_run
    : (s.run peer p float64 layout given).moderation
      = s.moderation.putRows (Counted.allRows peer (counted peer p float64 layout s given)) :=
  Runs.view_given Context.moderation (fun table counted => table.putRows (Counted.allRows peer counted))
    (fun _ => rfl)
    (fun table first rest => by
      rw [Counted.allRows, List.flatMap_append]
      exact Table.putRows_append _ _)
    fun s input => moderation_taking input

/-- Autobase gives each block once. -/
def Once (given : List (Nat × List (ContextNode × Nat))) : Prop :=
  ((given.flatMap Prod.snd).map fun input => (input.1.from_, input.1.length)).Nodup

theorem nodup_counted (once : Once given)
    : ((counted peer p float64 layout s given).map Counted.mark).Nodup := by
  have part : ((counted peer p float64 layout s given).map Counted.mark).Sublist
      ((Chunks.calls given).flatMap fun input =>
        input.toList.map fun input => (input.1.from_, input.1.length)) := by
    refine Runs.sublist_given fun s input => ?_
    cases input with
    | none => exact List.Sublist.refl _
    | some input =>
        rw [countedAt]
        split
        · split
          · exact List.Sublist.refl _
          · exact List.nil_sublist _
        · exact List.nil_sublist _
  refine part.nodup ?_
  rw [Chunks.flatMap_toList, Chunks.reduceOption_calls]
  exact once

-- What is found

/-- A read finds the entries of actions in its range, of each action two. -/
theorem mem_listing (fresh : s.moderation = ∅) (once : Once given) {start : String}
    {entry : Moderated}
    : entry ∈ listing (s.run peer p float64 layout given).moderation start
      ↔ ∃ c ∈ counted peer p float64 layout s given,
          (Joined.inRange start.toList c.targetKey.toList = true
            ∨ Joined.inRange start.toList c.authorKey.toList = true) ∧ c.entry peer = entry := by
  have perm := Table.toList_putRows_perm_iff.mpr
    (Counted.nodup_rows peer (@nodup_counted _ _ _ peer p float64 layout s given once))
  rw [listing, moderation_run, fresh, List.mem_map]
  constructor
  · rintro ⟨row, mem, rfl⟩
    obtain ⟨held, within⟩ := List.mem_filter.mp mem
    obtain ⟨c, there, is⟩ := List.mem_flatMap.mp (perm.mem_iff.mp held)
    rcases List.mem_pair.mp is with rfl | rfl
    · exact ⟨c, there, .inl within, rfl⟩
    · exact ⟨c, there, .inr within, rfl⟩
  · rintro ⟨c, there, within, rfl⟩
    have rows (row : String × Moderated) (is : row ∈ c.rows peer) :=
      perm.mem_iff.mpr (List.mem_flatMap.mpr ⟨c, there, is⟩)
    rcases within with within | within
    · exact ⟨_, List.mem_filter.mpr ⟨rows _ (.head _), within⟩, rfl⟩
    · exact ⟨_, List.mem_filter.mpr ⟨rows _ (.tail _ (.head _)), within⟩, rfl⟩

/-- A read finds what is of the name just where no other action's name clashes with it. -/
theorem only_iff {found : List Moderated} {actions : List Counted} {name : Counted → String}
    {tail : Counted → List Char} {wanted : String} (start : List Char)
    (low : ∀ c, (tail c).head?.all (· < '\uffff') = true)
    (named : ∀ c c' : Counted, c.entry peer = c'.entry peer → name c = name c')
    (finds
      : ∀ entry,
          entry ∈ found
          ↔ ∃ c ∈ actions,
              Joined.inRange (start ++ (wanted.toList ++ [':']))
                (start ++ ((name c).toList ++ ':' :: tail c)) = true
              ∧ c.entry peer = entry)
    : (∀ entry, entry ∈ found ↔ ∃ c ∈ actions, name c = wanted ∧ c.entry peer = entry)
      ↔ ∀ c ∈ actions, ¬ Joined.Clashes wanted.toList (name c).toList (tail c) := by
  simp only [Joined.inRange_name_iff, low, and_true, String.toList_inj] at finds
  constructor
  · intro only c mem clashes
    obtain ⟨c', _, own, same⟩ := (only (c.entry peer)).mp ((finds _).mpr ⟨c, mem, .inr clashes, rfl⟩)
    rw [← own, named c' c same] at clashes
    exact Joined.not_clashes_self clashes
  · intro apart entry
    rw [finds]
    constructor
    · rintro ⟨c, mem, own | clashes, is⟩
      · exact ⟨c, mem, own.symm, is⟩
      · exact absurd clashes (apart c mem)
    · rintro ⟨c, mem, own, is⟩
      exact ⟨c, mem, .inl own.symm, is⟩

theorem ofTarget_iff (fresh : s.moderation = ∅) (once : Once given) {target : String}
    : (∀ entry, entry ∈ (s.run peer p float64 layout given).ofTarget target
        ↔ ∃ c ∈ counted peer p float64 layout s given,
            c.action.target = target ∧ c.entry peer = entry)
      ↔ ∀ c ∈ counted peer p float64 layout s given,
          ¬ Joined.Clashes target.toList c.action.target.toList c.targetTail := by
  refine only_iff "m:t:".toList (fun c => c.low_time _)
    (fun c c' same => congrArg Moderated.target same) fun entry => ?_
  rw [ofTarget, mem_listing fresh once]
  refine exists_congr fun c => and_congr_right fun _ => and_congr_left fun _ => ?_
  have start : ("m:t:" ++ target ++ ":").toList = "m:t:".toList ++ (target.toList ++ [':']) := by simp
  have other : ¬ Joined.inRange ("m:t:" ++ target ++ ":").toList c.authorKey.toList = true := by
    rw [start, Joined.inRange_iff, Counted.authorKey_toList]
    simp
  rw [or_iff_left other, start, Counted.targetKey_toList]

theorem ofAuthor_iff (fresh : s.moderation = ∅) (once : Once given) {author : String}
    : (∀ entry, entry ∈ (s.run peer p float64 layout given).ofAuthor author
        ↔ ∃ c ∈ counted peer p float64 layout s given,
            c.action.author = author ∧ c.entry peer = entry)
      ↔ ∀ c ∈ counted peer p float64 layout s given,
          ¬ Joined.Clashes author.toList c.action.author.toList c.authorTail := by
  refine only_iff "m:a:".toList (fun c => c.low_time _)
    (fun c c' same => congrArg Moderated.author same) fun entry => ?_
  rw [ofAuthor, mem_listing fresh once]
  refine exists_congr fun c => and_congr_right fun _ => and_congr_left fun _ => ?_
  have start : ("m:a:" ++ author ++ ":").toList = "m:a:".toList ++ (author.toList ++ [':']) := by simp
  have other : ¬ Joined.inRange ("m:a:" ++ author ++ ":").toList c.targetKey.toList = true := by
    rw [start, Joined.inRange_iff, Counted.targetKey_toList]
    simp
  rw [or_iff_right other, start, Counted.authorKey_toList]

/-- The entries of messages are those of the messages applied, one each, where no two of these have the
same time and start of an author.
-/
theorem messages_perm_iff (fresh : s.messages = ∅)
    : (s.run peer p float64 layout given).messages.toList.Perm
          ((posted peer p float64 layout s given).map ContextMessage.row)
      ↔ ((posted peer p float64 layout s given).map ContextMessage.stamp).Nodup := by
  rw [messages_run, fresh, Table.toList_putRows_perm_iff, List.map_map]
  have keys : Prod.fst ∘ ContextMessage.row = messageKey ∘ ContextMessage.stamp := rfl
  rw [keys, ← List.map_map, List.nodup_map_iff messageKey_injective]

/-- Calls that give each block once leave each moderation action that counts one entry for its target and
one for its author; the messages applied have an entry each, and reads of a target's and an author's
entries find theirs only, where no two messages have one time and start of an author, and no other
action's target or author clashes with those read.
-/
theorem records_iff (messages : s.messages = ∅) (moderation : s.moderation = ∅) (once : Once given)
    (target author : String)
    : ((s.run peer p float64 layout given).messages.toList.Perm
          ((posted peer p float64 layout s given).map ContextMessage.row)
        ∧ (s.run peer p float64 layout given).moderation.toList.Perm
            (Counted.allRows peer (counted peer p float64 layout s given))
        ∧ (∀ entry, entry ∈ (s.run peer p float64 layout given).ofTarget target
            ↔ ∃ c ∈ counted peer p float64 layout s given,
                c.action.target = target ∧ c.entry peer = entry)
        ∧ ∀ entry, entry ∈ (s.run peer p float64 layout given).ofAuthor author
            ↔ ∃ c ∈ counted peer p float64 layout s given,
                c.action.author = author ∧ c.entry peer = entry)
      ↔ ((posted peer p float64 layout s given).map ContextMessage.stamp).Nodup
        ∧ (∀ c ∈ counted peer p float64 layout s given,
            ¬ Joined.Clashes target.toList c.action.target.toList c.targetTail)
        ∧ ∀ c ∈ counted peer p float64 layout s given,
            ¬ Joined.Clashes author.toList c.action.author.toList c.authorTail := by
  have held : (s.run peer p float64 layout given).moderation.toList.Perm
      (Counted.allRows peer (counted peer p float64 layout s given)) := by
    rw [moderation_run, moderation]
    exact Table.toList_putRows_perm_iff.mpr (Counted.nodup_rows peer (nodup_counted once))
  rw [messages_perm_iff messages, ofTarget_iff moderation once, ofAuthor_iff moderation once,
    and_iff_right held]

-- Two messages of a time

/-- A message at 5 by someone, in a block of one's log. -/
def posting (text author : String) (length : Nat) : ContextNode where
  value := some (encodeEvent compact compactFloat64 ⟨some 5, .message text "ann" author⟩)
  from_ := [1]
  length := length

/-- A message and an action, each with its entries. -/
theorem records_of_two
    : ((ownedBy "aa").run trusting compact compactFloat64 (layout2 inOrder compact compactFloat64)
          [(8, [(message, 0), (hides, 700000)])]).messages.toList.Perm
        ((posted trusting compact compactFloat64 (layout2 inOrder compact compactFloat64) (ownedBy "aa")
          [(8, [(message, 0), (hides, 700000)])]).map ContextMessage.row) := by
  have one : (posted trusting compact compactFloat64 (layout2 inOrder compact compactFloat64)
      (ownedBy "aa") [(8, [(message, 0), (hides, 700000)])]).length = 1 := by
    decide +kernel
  have about : (counted trusting compact compactFloat64 (layout2 inOrder compact compactFloat64)
      (ownedBy "aa") [(8, [(message, 0), (hides, 700000)])]).map
        (fun c => (c.action.target, c.action.author)) = [("post", "aa")] := by
    decide +kernel
  have named (c : Counted) (mem : c ∈ counted trusting compact compactFloat64
      (layout2 inOrder compact compactFloat64) (ownedBy "aa") [(8, [(message, 0), (hides, 700000)])])
      : c.action.target = "post" ∧ c.action.author = "aa" := by
    have there := List.mem_map_of_mem (f := fun c => (c.action.target, c.action.author)) mem
    rw [about, List.mem_singleton, Prod.mk.injEq] at there
    exact there
  obtain ⟨m, is⟩ := List.length_eq_one_iff.mp one
  have once : Once [(8, [(message, 0), (hides, 700000)])] := by
    unfold Once
    decide
  refine ((records_iff rfl rfl once "post" "aa").mpr ⟨?_, fun c mem => ?_, fun c mem => ?_⟩).1
  · rw [is]
    exact List.nodup_singleton _
  · rw [(named c mem).1]
    exact Joined.not_clashes_self
  · rw [(named c mem).2]
    exact Joined.not_clashes_self

/-- Of two messages at one time, by authors whose keys start alike, the later one's entry is left. -/
theorem message_replaced
    : ¬ ((ownedBy "aa").run trusting compact compactFloat64 (layout2 inOrder compact compactFloat64)
          [(8, [(posting "one" "aabbccdd01" 1, 0), (posting "two" "aabbccdd02" 2, 0)])]).messages.toList.Perm
        ((posted trusting compact compactFloat64 (layout2 inOrder compact compactFloat64) (ownedBy "aa")
          [(8, [(posting "one" "aabbccdd01" 1, 0), (posting "two" "aabbccdd02" 2, 0)])]).map
            ContextMessage.row) := by
  rw [messages_perm_iff rfl]
  decide +kernel

end Context

end Hypergraph.Engine
