import Mathlib.Data.Multiset.DershowitzManna
import Mathlib.Order.WellFounded
import Hypergraph.Logs.Ranges

/-! What two sides of a connection say to each other ends: each message that waits for an answer gets
one `done`, after the answers to it, and what is asked in answers is about less each time. Whatever
logs the sides hold, and however these change meanwhile.
-/

namespace Hypergraph.Ranges

open Js

-- Ranges of few keys

theorem byte_ext {first second : UInt8} (higher : high first = high second)
    (lower : low first = low second)
    : first = second := by
  have above := congrArg Fin.val higher
  have below := congrArg Fin.val lower
  simp only [high, low] at above below
  exact UInt8.toNat_inj.mp (by omega)

theorem flatMap_nibbles_inj {first second : List UInt8}
    (same : (first.flatMap fun byte => [high byte, low byte])
      = second.flatMap fun byte => [high byte, low byte])
    : first = second := by
  induction first generalizing second with
  | nil =>
      cases second with
      | nil => rfl
      | cons byte rest => simp at same
  | cons byte rest ih =>
      cases second with
      | nil => simp at same
      | cons byte' rest' =>
          simp only [List.flatMap_cons, List.cons_append, List.nil_append, List.cons.injEq] at same
          obtain ⟨higher, lower, others⟩ := same
          rw [byte_ext higher lower, ih others]

theorem nibbles_inj {first second : LogKey} (same : nibbles first = nibbles second)
    : first = second :=
  Subtype.ext (flatMap_nibbles_inj same)

theorem length_nibbles (key : LogKey) : (nibbles key).length = 64 := by
  have doubled : ∀ bytes : List UInt8,
      (bytes.flatMap fun byte => [high byte, low byte]).length = 2 * bytes.length := by
    intro bytes
    induction bytes with
    | nil => rfl
    | cons byte rest ih =>
        simp only [List.flatMap_cons, List.length_append, List.length_cons, List.length_nil, ih]
        omega
  rw [nibbles, doubled, key.2]

/-- A key of a range of all but the last nibble is the range and its last nibble. -/
theorem nibbles_deep {key : LogKey} {range : List Nibble} (deep : range.length = MAX_DEPTH)
    (inside : range.isPrefixOf (nibbles key) = true)
    : ∃ last, nibbles key = range ++ [last] := by
  obtain ⟨rest, is⟩ := List.isPrefixOf_iff_prefix.mp inside
  have long := length_nibbles key
  rw [← is, List.length_append, deep, MAX_DEPTH] at long
  obtain ⟨last, single⟩ := List.length_eq_one_iff.mp (show rest.length = 1 by omega)
  exact ⟨last, by rw [← is, single]⟩

/-- The deepest ranges have at most a key for each nibble, fewer than are sent at once. -/
theorem within_deep (keys : Keys) {range : List Nibble} (deep : range.length = MAX_DEPTH)
    : (within keys range).length ≤ FEW := by
  let last (entry : LogKey × Nat) : Nibble := (nibbles entry.1).getLastD 0
  have unique : ((within keys range).map Prod.fst).Nodup :=
    keys.unique.sublist (List.filter_sublist.map Prod.fst)
  have apart : ((within keys range).map last).Nodup := by
    refine List.Nodup.map_on ?_ unique.of_map
    intro first mem second mem' same
    obtain ⟨n, is⟩ := nibbles_deep deep (List.mem_filter.mp mem).2
    obtain ⟨n', is'⟩ := nibbles_deep deep (List.mem_filter.mp mem').2
    have here : n = n' := by simpa [last, is, is'] using same
    have key : first.1 = second.1 := nibbles_inj (by rw [is, is', here])
    exact List.inj_on_of_nodup_map unique mem mem' key
  have few := apart.length_le_card
  rw [List.length_map, Fintype.card_fin] at few
  exact few.trans (by decide)

theorem shallow_of_many {keys : Keys} {range : List Nibble} (formed : range.length ≤ MAX_DEPTH)
    (many : FEW < (within keys range).length)
    : range.length < MAX_DEPTH :=
  lt_of_le_of_ne formed fun deep => absurd (within_deep keys deep) (by omega)

theorem within_inside (keys : Keys) (range : List Nibble)
    : ∀ entry ∈ within keys range, range.isPrefixOf (nibbles entry.1) = true :=
  fun _ mem => (List.mem_filter.mp mem).2

/-- A slice has at most `CHUNK` of the list's items. -/
theorem mem_slices {α : Type} {list slice : List α} (mem : slice ∈ slices list)
    : slice.length ≤ CHUNK ∧ ∀ item ∈ slice, item ∈ list := by
  obtain ⟨i, _, rfl⟩ := List.mem_map.mp mem
  exact ⟨(List.length_take_le _ _), fun item mem => List.mem_of_mem_drop (List.mem_of_mem_take mem)⟩

-- Answers

namespace Message

/-- The range a message is about. -/
def about : Message → List Nibble
  | .ranges range _ => range
  | .keys range _ _ => range

/-- Is it the end of the answers to a message? -/
def ends : Message → Bool
  | .keys _ .done _ => true
  | _ => false

/-- The end of the answers to a message. -/
def end_ (m : Message) : Message := .keys m.about .done []

/-- What an honest session sends: a range that has sub-ranges, keys of the range and not more than a
message may carry.
-/
def Formed : Message → Prop
  | .ranges range _ => range.length < MAX_DEPTH
  | .keys range _ sent =>
      range.length ≤ MAX_DEPTH ∧ sent.length ≤ CHUNK
        ∧ ∀ entry ∈ sent, range.isPrefixOf (nibbles entry.1) = true

/-- How a direct answer is to what it answers: ranges are answered about deeper ranges, "send me
yours" with the parts or the keys of the same range, keys with keys that take no answer.
-/
inductive Direct : Message → Message → Prop
  | deeper {range : List Nibble} {theirs : Nibble → Part} {i : Nibble} {answer : Message}
    : answer.about = range ++ [i] → answer.ends = false → Direct (.ranges range theirs) answer
  | parts {range : List Nibble} {keys : List (LogKey × Nat)} {mine : Nibble → Part}
    : Direct (.keys range .ask keys) (.ranges range mine)
  | given {range : List Nibble} {keys mine : List (LogKey × Nat)} {take : Bool}
    : Direct (.keys range .ask keys) (.keys range (if take then .mine else .lack) mine)
  | lack {range : List Nibble} {keys mine : List (LogKey × Nat)}
    : Direct (.keys range .mine keys) (.keys range .lack mine)

/-- How far what is said about a message can still go. -/
def rank : Message → Nat
  | .ranges range _ => 2 * (64 - range.length) + 1
  | .keys range .ask _ => 2 * (64 - range.length) + 2
  | .keys _ .mine _ => 1
  | .keys _ .lack _ | .keys _ .done _ => 0

end Message

/-- What a session sends for a message. -/
def Session.answers (item : LogKey → Nat → BitVec 256) (session : Session) : Message → List Message
  | .ranges range theirs => (session.onRanges item range theirs).2
  | .keys range kind keys => (session.onKeys item range kind keys).out

section Answers

variable {item : LogKey → Nat → BitVec 256} {session : Session} {m answer : Message}

theorem Message.Direct.ends_eq (direct : m.Direct answer) : answer.ends = false := by
  cases direct with
  | deeper _ open_ => exact open_
  | parts => rfl
  | given =>
      rename_i take
      cases take <;> rfl
  | lack => rfl

theorem Message.Direct.rank_lt (direct : m.Direct answer) (formed : m.Formed)
    : answer.rank < m.rank := by
  cases direct with
  | @deeper range theirs i _ about _ =>
      have short : range.length < 63 := formed
      cases answer with
      | ranges deeper _ =>
          obtain rfl : deeper = range ++ [i] := about
          simp only [rank, List.length_append, List.length_singleton]
          omega
      | keys deeper kind _ =>
          obtain rfl : deeper = range ++ [i] := about
          cases kind <;> simp only [rank, List.length_append, List.length_singleton] <;> omega
  | parts => simp [rank]
  | given =>
      rename_i take
      cases take <;> simp [rank]
  | lack => simp [rank]

/-- What a sub-range is answered with: nothing, or one message about it. -/
theorem Session.mem_reply {range : List Nibble} {theirs : Part} (short : range.length ≤ MAX_DEPTH)
    (mem : answer ∈ session.reply item range theirs)
    : answer.Formed ∧ answer.about = range ∧ answer.ends = false := by
  have inside := within_inside session.keys range
  have chunk : ∀ n : Nat, n ≤ FEW → n ≤ CHUNK := fun n few => few.trans (by decide)
  rw [Session.reply] at mem
  split at mem
  · simp at mem
  split at mem
  · split at mem
    · rename_i many
      obtain rfl := List.mem_singleton.mp mem
      exact ⟨shallow_of_many short many, rfl, rfl⟩
    · rename_i few
      split at mem
      · obtain rfl := List.mem_singleton.mp mem
        exact ⟨⟨short, chunk _ (Nat.not_lt.mp few), inside⟩, rfl, rfl⟩
      · simp at mem
  · split at mem
    · obtain rfl := List.mem_singleton.mp mem
      exact ⟨⟨short, by simp, by simp⟩, rfl, rfl⟩
    · split at mem
      · rename_i few
        obtain rfl := List.mem_singleton.mp mem
        exact ⟨⟨short, chunk _ few, inside⟩, rfl, rfl⟩
      · rename_i many
        obtain rfl := List.mem_singleton.mp mem
        exact ⟨shallow_of_many short (Nat.not_le.mp many), rfl, rfl⟩

/-- Direct answers of an honest session, with the end after them. -/
def Session.Answered (m : Message) (answers : List Message) : Prop :=
  ∃ direct, answers = direct ++ [m.end_] ∧ ∀ answer ∈ direct, answer.Formed ∧ m.Direct answer

/-- Ranges are answered about their sub-ranges, and then the answers end. -/
theorem Session.onRanges_answered {range : List Nibble} {theirs : Nibble → Part}
    (formed : (Message.ranges range theirs).Formed)
    : Session.Answered (.ranges range theirs) (session.onRanges item range theirs).2 := by
  have short : ¬ MAX_DEPTH < range.length + 1 := Nat.not_lt.mpr formed
  refine ⟨(List.finRange 16).flatMap fun i => session.reply item (range ++ [i]) (theirs i),
    by simp [Session.onRanges, short, Message.end_, Message.about], ?_⟩
  intro answer mem
  obtain ⟨i, _, mem⟩ := List.mem_flatMap.mp mem
  obtain ⟨fine, about, open_⟩ := mem_reply (by simpa using Nat.succ_le_of_lt formed) mem
  exact ⟨fine, .deeper about open_⟩

/-- The keys a peer lacks are sent in messages a peer reads. -/
theorem Session.mem_lacking {range : List Nibble} {keys : List (LogKey × Nat)}
    (short : range.length ≤ MAX_DEPTH)
    (mem : answer ∈ (slices (onKeys.lacking session range keys)).map (Message.keys range .lack))
    : answer.Formed ∧ (Message.keys range .mine keys).Direct answer := by
  obtain ⟨slice, listed, rfl⟩ := List.mem_map.mp mem
  obtain ⟨size, sub⟩ := mem_slices listed
  exact ⟨⟨short, size, fun entry here =>
    within_inside session.keys range entry (List.mem_filter.mp (sub entry here)).1⟩, .lack⟩

/-- "Send me yours" and a peer's keys are answered about the same range, and then the answers end. -/
theorem Session.onKeys_answered {range : List Nibble} {kind : Kind} {keys : List (LogKey × Nat)}
    (formed : (Message.keys range kind keys).Formed)
    (question : answered (.keys range kind keys) = true)
    : Session.Answered (.keys range kind keys) (session.onKeys item range kind keys).out := by
  obtain ⟨short, size, inside⟩ := formed
  have sized : ¬ (MAX_DEPTH < range.length ∨ CHUNK < keys.length) := by omega
  have all : (keys.all fun entry => range.isPrefixOf (nibbles entry.1)) = true := by
    simpa using inside
  have none_ : Session.Answered (.keys range kind keys) [.keys range .done []] :=
    ⟨[], rfl, by simp⟩
  cases kind with
  | done => cases question
  | lack => cases question
  | ask =>
      simp only [Session.onKeys, if_neg sized, reduceCtorEq, if_false, all, not_true_eq_false]
      split_ifs with many taking
      · exact ⟨[_], rfl, by simpa using
          ⟨shallow_of_many short many, Message.Direct.parts⟩⟩
      · exact ⟨[_], rfl, by simpa using
          ⟨⟨short, (by simpa [count] using many : _ ≤ FEW).trans (by decide),
            within_inside session.keys range⟩, @Message.Direct.given _ _ _ true⟩⟩
      · exact ⟨[_], rfl, by simpa using
          ⟨⟨short, (by simpa [count] using many : _ ≤ FEW).trans (by decide),
            within_inside session.keys range⟩, @Message.Direct.given _ _ _ false⟩⟩
  | mine =>
      have given : Session.Answered (.keys range .mine keys)
          ((slices (onKeys.lacking session range keys)).map (.keys range .lack)
            ++ [.keys range .done []]) :=
        ⟨_, rfl, fun answer mem => mem_lacking short mem⟩
      simp only [Session.onKeys, if_neg sized, reduceCtorEq, if_false, all, not_true_eq_false]
      cases session.expect.get? range with
      | none =>
          simp only
          split_ifs
          · exact none_
          · exact given
      | some expected =>
          simp only
          split_ifs
          · exact given
          · exact none_

variable (item session) in
theorem Session.answers_of_question (formed : m.Formed) (question : answered m = true)
    : Session.Answered m (session.answers item m) := by
  cases m with
  | ranges range theirs => exact onRanges_answered formed
  | keys range kind keys => exact onKeys_answered formed question

theorem Session.answers_of_told (told : answered m = false) : session.answers item m = [] := by
  cases m with
  | ranges range theirs => cases told
  | keys range kind keys =>
      cases kind with
      | mine => cases told
      | ask => cases told
      | lack =>
          simp only [answers, onKeys]
          split_ifs <;> rfl
      | done =>
          simp only [answers, onKeys]
          split_ifs <;> rfl

end Answers

-- Two sides

section Sides

variable {item : LogKey → Nat → BitVec 256} {me other me' other' : Side}

/-- The state of two sides: the messages under way are an honest session's, and each side waits for
as many answers as its questions the other didn't read yet and the ends it didn't read itself.
-/
structure Owed (me other : Side) : Prop where
  formed : ∀ m ∈ me.inbox, m.Formed
  waiting : me.waiting = other.inbox.countP answered + me.inbox.countP Message.ends

variable (item) in
theorem Session.countP_ends (session : Session) {m : Message} (formed : m.Formed)
    : (session.answers item m).countP Message.ends = if answered m then 1 else 0 := by
  cases question : answered m with
  | false => rw [answers_of_told question]; rfl
  | true =>
      obtain ⟨direct, is, open_⟩ := answers_of_question item session formed question
      have none_ : direct.countP Message.ends = 0 :=
        List.countP_eq_zero.mpr fun answer mem => by simp [(open_ answer mem).2.ends_eq]
      rw [is, List.countP_append, none_]
      rfl

/-- An honest session's keys message is an end, or it isn't. -/
theorem Session.onKeys_done {session : Session} {range : List Nibble} {kind : Kind}
    {keys : List (LogKey × Nat)} (formed : (Message.keys range kind keys).Formed)
    : (session.onKeys item range kind keys).done = (Message.keys range kind keys).ends := by
  obtain ⟨short, size, inside⟩ := formed
  have sized : ¬ (MAX_DEPTH < range.length ∨ CHUNK < keys.length) := by omega
  have all : (keys.all fun entry => range.isPrefixOf (nibbles entry.1)) = true := by
    simpa using inside
  cases kind with
  | done => simp [onKeys, sized, Message.ends]
  | ask =>
      simp only [onKeys, if_neg sized, reduceCtorEq, if_false, all, not_true_eq_false]
      split_ifs <;> rfl
  | lack =>
      simp only [onKeys, if_neg sized, reduceCtorEq, if_false, all, not_true_eq_false]
      rfl
  | mine =>
      simp only [onKeys, if_neg sized, reduceCtorEq, if_false, all, not_true_eq_false]
      split <;> split_ifs <;> rfl

variable (item other) in
/-- A message read: what it is answered with reaches the other side, and an answer less is waited
for when it was an end.
-/
theorem Side.receive_eq {m : Message} {rest : List Message} (inbox : me.inbox = m :: rest)
    (formed : m.Formed)
    : ∃ session told, Side.receive item me other
      = some
        ({ session := session
           inbox := rest
           waiting := me.waiting + (me.session.answers item m).countP answered
            - (if m.ends then 1 else 0)
           told := told },
         { other with inbox := other.inbox ++ me.session.answers item m }) := by
  rw [Side.receive, inbox]
  cases m with
  | ranges range theirs =>
      refine ⟨(me.session.onRanges item range theirs).1, me.told, ?_⟩
      simp only [send, Session.answers, Message.ends, List.countP_eq_length_filter]
      rfl
  | keys range kind keys =>
      refine ⟨(me.session.onKeys item range kind keys).session,
        me.told ++ (me.session.onKeys item range kind keys).learn, ?_⟩
      simp only [send, Session.answers, Session.onKeys_done formed, List.countP_eq_length_filter]
      split_ifs <;> rfl

theorem Session.formed_of_mem {session : Session} {m answer : Message} (formed : m.Formed)
    (mem : answer ∈ session.answers item m)
    : answer.Formed := by
  cases question : answered m with
  | false =>
      rw [answers_of_told question] at mem
      cases mem
  | true =>
      obtain ⟨direct, is, fine⟩ :=
        answers_of_question item session formed question
      rw [is, List.mem_append, List.mem_singleton] at mem
      rcases mem with mem | rfl
      · exact (fine answer mem).1
      · cases m with
        | ranges range _ => exact ⟨Nat.le_of_lt formed, by simp, by simp⟩
        | keys range _ _ => exact ⟨formed.1, by simp, by simp⟩

theorem Owed.receive (mine : Owed me other) (theirs : Owed other me)
    (step : Side.receive item me other = some (me', other'))
    : Owed me' other' ∧ Owed other' me' := by
  cases inbox : me.inbox with
  | nil => simp [Side.receive, inbox] at step
  | cons m rest =>
      have formed : m.Formed := mine.formed m (by simp [inbox])
      obtain ⟨session, told, is⟩ := Side.receive_eq item other inbox formed
      obtain ⟨rfl, rfl⟩ : _ ∧ _ := by simpa using is.symm.trans step
      have ended := Session.countP_ends item me.session formed
      have waiting := mine.waiting
      have waiting' := theirs.waiting
      rw [inbox, List.countP_cons] at waiting waiting'
      refine ⟨⟨fun m' mem => mine.formed m' (by simp [inbox, mem]), ?_⟩, ⟨fun m' mem => ?_, ?_⟩⟩
      · simp only [List.countP_append]
        omega
      · rcases List.mem_append.mp mem with mem | mem
        · exact theirs.formed m' mem
        · exact Session.formed_of_mem formed mem
      · simp only [List.countP_append, ended]
        omega

/-- So does every act of a side. -/
theorem Owed.act {act : Act} (mine : Owed me other) (theirs : Owed other me)
    (step : me.act item other act = some (me', other'))
    : Owed me' other' ∧ Owed other' me' := by
  cases act with
  | receive => exact mine.receive theirs step
  | start =>
      rw [Side.act, Option.ite_none_right_eq_some] at step
      obtain ⟨_, is⟩ := step
      obtain ⟨rfl, rfl⟩ : _ ∧ _ := by simpa [Side.send] using is
      refine ⟨⟨mine.formed, ?_⟩, ⟨fun m mem => ?_, ?_⟩⟩
      · have waiting := mine.waiting
        simp only [List.countP_append, ← List.countP_eq_length_filter]
        omega
      · rcases List.mem_append.mp mem with mem | mem
        · exact theirs.formed m mem
        · obtain rfl := List.mem_singleton.mp mem
          exact (by decide : 0 < MAX_DEPTH)
      · have waiting := theirs.waiting
        simpa [List.countP_append, Session.start, Session.ranges, Message.ends] using waiting
  | set key length | delete key | want take =>
      obtain ⟨rfl, rfl⟩ : _ ∧ _ := by simpa [Side.act] using step
      exact ⟨⟨mine.formed, mine.waiting⟩, ⟨theirs.formed, theirs.waiting⟩⟩

end Sides

-- What is under way

section Flight

variable {item : LogKey → Nat → BitVec 256} {me other me' other' : Side} {m answer : Message}

/-- An answer leads less far than what it answers, the end of the answers too. -/
theorem rank_lt_of_mem {session : Session} (formed : m.Formed)
    (mem : answer ∈ session.answers item m)
    : answer.rank < m.rank := by
  cases question : answered m with
  | false =>
      rw [Session.answers_of_told question] at mem
      cases mem
  | true =>
      obtain ⟨direct, is, fine⟩ :=
        Session.answers_of_question item session formed question
      rw [is, List.mem_append, List.mem_singleton] at mem
      rcases mem with mem | rfl
      · exact (fine answer mem).2.rank_lt formed
      · cases m with
        | ranges range _ => simp [Message.end_, Message.rank]
        | keys range kind _ =>
            cases kind with
            | mine => simp [Message.end_, Message.rank]
            | ask => simp [Message.end_, Message.rank]
            | lack => cases question
            | done => cases question

/-- Some session answers a message with another. -/
def Answers (item : LogKey → Nat → BitVec 256) (answer m : Message) : Prop :=
  ∃ session : Session, answer ∈ session.answers item m

/-- What a message leads to ends, whatever the sessions that read it and its answers hold. By the
rank of the message.
-/
theorem acc_answers (formed : m.Formed) : Acc (Answers item) m := by
  induction rank : m.rank using Nat.strongRecOn generalizing m with
  | ind n ih =>
      refine ⟨m, fun answer ⟨session, mem⟩ => ?_⟩
      exact ih answer.rank (rank ▸ rank_lt_of_mem formed mem) (Session.formed_of_mem formed mem) rfl

/-- How far each message under way to one of two sides still leads. -/
def flight (me other : Side) : Multiset Nat := ↑((me.inbox ++ other.inbox).map Message.rank)

theorem flight_comm (me other : Side) : flight me other = flight other me :=
  Multiset.coe_eq_coe.mpr (List.perm_append_comm.map _)

/-- A message read makes what is under way less: the answers each lead less far than it. -/
theorem flight_receive (mine : Owed me other)
    (step : Side.receive item me other = some (me', other'))
    : Multiset.IsDershowitzMannaLT (flight me' other') (flight me other) := by
  cases inbox : me.inbox with
  | nil => simp [Side.receive, inbox] at step
  | cons m rest =>
      have formed : m.Formed := mine.formed m (by simp [inbox])
      obtain ⟨session, told, is⟩ := Side.receive_eq item other inbox formed
      obtain ⟨rfl, rfl⟩ : _ ∧ _ := by simpa using is.symm.trans step
      refine ⟨↑((rest ++ other.inbox).map Message.rank),
        ↑((me.session.answers item m).map Message.rank), {m.rank}, by simp, ?_, ?_, ?_⟩
      · simp [flight]
      · rw [flight, inbox, ← Multiset.coe_singleton, Multiset.coe_add]
        exact Multiset.coe_eq_coe.mpr (by simpa using
          (List.perm_append_singleton m.rank ((rest ++ other.inbox).map Message.rank)).symm)
      · intro rank mem
        obtain ⟨answer, sent, rfl⟩ := List.mem_map.mp (Multiset.mem_coe.mp mem)
        exact ⟨m.rank, by simp, rank_lt_of_mem formed sent⟩

theorem flight_act {act : Act} (read : act ≠ .receive) (started : act ≠ .start)
    (step : me.act item other act = some (me', other'))
    : flight me' other' = flight me other := by
  cases act with
  | receive => exact absurd rfl read
  | start => exact absurd rfl started
  | set key length | delete key | want take =>
      obtain ⟨rfl, rfl⟩ : _ ∧ _ := by simpa [Side.act] using step
      rfl

end Flight

-- Exchanges

def Who.other : Who → Who
  | .a => .b
  | .b => .a

namespace Pair

variable {item : LogKey → Nat → BitVec 256} {s s' : Pair} {who : Who} {act : Act}

def side (s : Pair) : Who → Side
  | .a => s.a
  | .b => s.b

/-- Nothing was sent yet. -/
def Fresh (s : Pair) : Prop := ∀ who, (s.side who).inbox = [] ∧ (s.side who).waiting = 0

/-- Both sides are owed what they wait for. -/
def Sound (s : Pair) : Prop := ∀ who, Owed (s.side who) (s.side who.other)

/-- An act is one of a side's, toward the other. -/
theorem act_eq_some
    : s.act item who act = some s'
      ↔ (s.side who).act item (s.side who.other) act
        = some (s'.side who, s'.side who.other) := by
  obtain ⟨a, b⟩ := s
  obtain ⟨a', b'⟩ := s'
  cases who with
  | a =>
      simp only [Pair.act, side, Who.other, Option.map_eq_some_iff, Prod.exists, Pair.mk.injEq]
      constructor
      · rintro ⟨x, y, is, rfl, rfl⟩
        exact is
      · exact fun is => ⟨a', b', is, rfl, rfl⟩
  | b =>
      simp only [Pair.act, side, Who.other, Option.map_eq_some_iff, Prod.exists, Pair.mk.injEq]
      constructor
      · rintro ⟨x, y, is, rfl, rfl⟩
        exact is
      · exact fun is => ⟨b', a', is, rfl, rfl⟩

theorem Fresh.sound (fresh : s.Fresh) : s.Sound := by
  intro who
  obtain ⟨inbox, waiting⟩ := fresh who
  refine ⟨by simp [inbox], ?_⟩
  rw [inbox, (fresh who.other).1, waiting]
  rfl

theorem Sound.step (sound : s.Sound) (step : s.act item who act = some s') : s'.Sound := by
  have both := (sound who).act (by cases who <;> exact sound _) (act_eq_some.mp step)
  intro who'
  cases who <;> cases who'
  · exact both.1
  · exact both.2
  · exact both.2
  · exact both.1

theorem Run.sound {allowed : Act → Prop} (run : s.Run item allowed s') (sound : s.Sound)
    : s'.Sound := by
  induction run with
  | refl => exact sound
  | act _ _ step ih => exact ih.step step

/-- What is under way between two sides. -/
def flight (s : Pair) : Multiset Nat := Ranges.flight s.a s.b

theorem flight_side (who : Who)
    : s.flight = Ranges.flight (s.side who) (s.side who.other) := by
  cases who with
  | a => rfl
  | b => exact Ranges.flight_comm s.a s.b

/-- Two sides acting on and on. -/
structure Endless (item : LogKey → Nat → BitVec 256) (s : Pair) where
  states : Nat → Pair
  who : Nat → Who
  act : Nat → Act
  first : states 0 = s
  next : ∀ n, (states n).act item (who n) (act n) = some (states (n + 1))

theorem Endless.sound (acts : Endless item s) (sound : s.Sound) (n : Nat)
    : (acts.states n).Sound := by
  induction n with
  | zero =>
      rw [acts.first]
      exact sound
  | succ n ih => exact ih.step (acts.next n)

/-- Once no round is started any more, some message is the last one read: each that is read makes
what is under way less, and that can't go on for ever.
-/
theorem Endless.last_read (acts : Endless item s) (sound : s.Sound) {since : Nat}
    (none_ : ∀ n ≥ since, acts.act n ≠ .start)
    : ∃ last, ∀ n ≥ last, acts.act n ≠ .receive := by
  have reads (n : Nat) (read : acts.act n = .receive)
      : Multiset.IsDershowitzMannaLT (acts.states (n + 1)).flight (acts.states n).flight := by
    rw [flight_side (acts.who n), flight_side (acts.who n)]
    have step := act_eq_some.mp (acts.next n)
    rw [read] at step
    exact flight_receive (acts.sound sound n _) step
  have keeps (n : Nat) (from_ : n ≥ since) (other : acts.act n ≠ .receive)
      : (acts.states (n + 1)).flight = (acts.states n).flight := by
    rw [flight_side (acts.who n), flight_side (acts.who n)]
    exact flight_act other (none_ n from_) (act_eq_some.mp (acts.next n))
  -- Where the least is under way, of all that is from `since` on.
  obtain ⟨_, ⟨last, from_, rfl⟩, least⟩ :=
    Multiset.wellFounded_isDershowitzMannaLT.has_min
      {left | ∃ n ≥ since, (acts.states n).flight = left} ⟨_, since, le_refl _, rfl⟩
  have stays (k : Nat) : (acts.states (last + k)).flight = (acts.states last).flight
      ∧ acts.act (last + k) ≠ .receive := by
    have unread (k : Nat) (same : (acts.states (last + k)).flight = (acts.states last).flight)
        : acts.act (last + k) ≠ .receive := fun read =>
      least _ ⟨last + k + 1, by omega, rfl⟩ (same ▸ reads (last + k) read)
    induction k with
    | zero => exact ⟨rfl, unread 0 rfl⟩
    | succ k ih =>
        have same := (keeps (last + k) (by omega) ih.2).trans ih.1
        exact ⟨same, unread (k + 1) same⟩
  refine ⟨last, fun n from_ => ?_⟩
  obtain ⟨k, rfl⟩ := Nat.exists_eq_add_of_le from_
  exact (stays k).2

/-- What two sides say to each other, at any time of their exchange. -/
structure Accounted (item : LogKey → Nat → BitVec 256) (s : Pair) : Prop where
  /-- A question read gets one end, after the direct answers to it; anything else gets nothing. -/
  answers : ∀ who m rest, (s.side who).inbox = m :: rest →
    ∃ s' direct, s.act item who .receive = some s' ∧ (s'.side who).inbox = rest
      ∧ (s'.side who.other).inbox
        = (s.side who.other).inbox ++ (if answered m then direct ++ [m.end_] else [])
      ∧ ∀ answer ∈ direct, m.Direct answer ∧ answer.ends = false
  /-- Each side waits for as many answers as it has questions under way and ends to read. -/
  waiting : ∀ who, (s.side who).waiting
    = (s.side who.other).inbox.countP answered + (s.side who).inbox.countP Message.ends
  /-- With no message under way, neither side waits. -/
  settled : s.a.inbox = [] → s.b.inbox = [] → s.a.waiting = 0 ∧ s.b.waiting = 0
  /-- What a message leads to ends. -/
  cascade : ∀ who, ∀ m ∈ (s.side who).inbox, Acc (Answers item) m
  /-- However the sides act from here on, a last message is read if no more rounds are started. -/
  last : ∀ acts : Endless item s, (∃ since, ∀ n ≥ since, acts.act n ≠ .start) →
    ∃ last, ∀ n ≥ last, acts.act n ≠ .receive
  /-- No message carries more keys than one may. -/
  small : ∀ who range kind keys, .keys range kind keys ∈ (s.side who).inbox → keys.length ≤ CHUNK

theorem Sound.answers (sound : s.Sound) {m : Message} {rest : List Message}
    (inbox : (s.side who).inbox = m :: rest)
    : ∃ s' direct, s.act item who .receive = some s' ∧ (s'.side who).inbox = rest
      ∧ (s'.side who.other).inbox
        = (s.side who.other).inbox ++ (if answered m then direct ++ [m.end_] else [])
      ∧ ∀ answer ∈ direct, m.Direct answer ∧ answer.ends = false := by
  have formed : m.Formed := (sound who).formed m (by simp [inbox])
  obtain ⟨session, told, is⟩ :=
    Side.receive_eq item (s.side who.other) inbox formed
  let me : Side :=
    ⟨session, rest, (s.side who).waiting
      + ((s.side who).session.answers item m).countP answered - (if m.ends then 1 else 0), told⟩
  let other : Side :=
    { s.side who.other with
      inbox := (s.side who.other).inbox ++ (s.side who).session.answers item m }
  let s' : Pair := match who with
    | .a => ⟨me, other⟩
    | .b => ⟨other, me⟩
  have here : s'.side who = me := by cases who <;> rfl
  have there : s'.side who.other = other := by cases who <;> rfl
  have step : s.act item who .receive = some s' := act_eq_some.mpr (by rw [here, there]; exact is)
  cases question : answered m with
  | false =>
      refine ⟨s', [], step, by rw [here], ?_, by simp⟩
      rw [there]
      simp [other, Session.answers_of_told question]
  | true =>
      obtain ⟨direct, said, fine⟩ :=
        Session.answers_of_question item (s.side who).session formed question
      refine ⟨s', direct, step, by rw [here], ?_, fun answer mem =>
        ⟨(fine answer mem).2, (fine answer mem).2.ends_eq⟩⟩
      rw [there]
      simp [other, said]

end Pair

/-- Whatever logs two sides hold, however these change while they talk, and whoever starts rounds:
each question is answered and its answers end, what they lead to ends, and with nothing under way
neither side waits. By what is owed, in every run.
-/
theorem exchange_accounted {item : LogKey → Nat → BitVec 256} {fresh s : Pair}
    (new : fresh.Fresh) (run : fresh.Run item (fun _ => True) s)
    : s.Accounted item := by
  have sound := run.sound new.sound
  refine ⟨fun who m rest inbox => sound.answers inbox, fun who => (sound who).waiting, ?_,
    fun who m mem => acc_answers ((sound who).formed m mem), ?_, ?_⟩
  · intro a b
    have mine := (sound .a).waiting
    have theirs := (sound .b).waiting
    simp only [Pair.side, Who.other, a, b, List.countP_nil] at mine theirs
    exact ⟨mine, theirs⟩
  · rintro acts ⟨since, none_⟩
    exact acts.last_read sound none_
  · exact fun who range kind keys mem => ((sound who).formed _ mem).2.1

/-- A side that holds a log starts a round with one that holds none, and is asked for it. -/
theorem exchange_accounted_asked
    : ∃ s : Pair, s.a.inbox = [.keys [0] .ask [], .keys [] .done []] ∧ s.a.waiting = 1
      ∧ s.Accounted fun _ _ => 1 := by
  let log : LogKey := ⟨List.replicate 32 0, by simp⟩
  let fresh : Pair := ⟨⟨{ keys := Dict.empty.put log 3 }, [], 0, []⟩, ⟨{ keys := .empty }, [], 0, []⟩⟩
  have new : fresh.Fresh := by
    intro who
    cases who <;> exact ⟨rfl, rfl⟩
  have started := @Pair.Run.act (fun _ _ => 1) (fun _ => True) fresh _ ⟨⟨_, _, _, _⟩, ⟨_, _, _, _⟩⟩ .a
    .start .refl trivial rfl
  have asked := @Pair.Run.act _ _ _ _ ⟨⟨_, _, _, _⟩, ⟨_, _, _, _⟩⟩ .b .receive started trivial rfl
  exact ⟨_, by decide, by decide, exchange_accounted new asked⟩

end Hypergraph.Ranges
