import Hypergraph.Lib.Runs
import Hypergraph.Engine.Alike
import Hypergraph.Engine.GraphReads

/-! The graph's view over whole runs (`src/view.js`): logs that grow, passes that index them in batches,
throws and restarts. Where each log is added under its own key, what is committed is at every time the
replay of each log to its progress.
-/

namespace Hypergraph.Engine

open Wire

namespace Graphs

open Layouts (IndexEncoder Member maxSafeInteger formatEntityId parseEntityId_format keyTime inOrder)
open Events (Decoded Encrypted)

variable {Key Number : Type} [Ord Key] [Std.TransOrd Key]

/-- The last indexed seq of a user log; `none`: -1. -/
def readUserProgress (enc : IndexEncoder Key) (db : Db Key) (keyHex : String) : Option Nat :=
  match Db.get enc db (.userProgress (fromHex keyHex)) with
  | some (.count seq) => some seq
  | _ => none

-- Passes

/-- The first event that isn't indexed yet. -/
def next (lastSeq : Option Nat) : Nat := lastSeq.elim 0 (· + 1)

/-- One user log being indexed. -/
structure Pass where
  keyHex : String
  currentLength : Nat
  committed : Option Nat
  lastProcessed : Option Nat
  /-- What the open batch has pending. -/
  writer : List (Place × Value)

structure State (Key Number : Type) [Ord Key] where
  /-- What each log holds, by its key. -/
  logs : Bytes → List (Decoded Number)
  bee : Db Key
  userCores : List String
  lastProcessedSeq : String → Option (Option Nat)
  /-- Progress records that were read and aren't noted yet. -/
  loading : List (String × Option Nat)
  pass : Option Pass

inductive Action (Number : Type)
  /-- A log grows. -/
  | append (author : Bytes) (block : Decoded Number)
  | addUserCore (keyHex : String)
  | read (keyHex : String)
  | note (keyHex : String) (seq : Option Nat)
  /-- A pass comes to a log, with the length that is known of it. -/
  | visit (keyHex : String) (length : Nat)
  /-- The next event is indexed, by batches of that many events. -/
  | index (batch : Nat)
  /-- There is no next event, or it doesn't arrive. -/
  | stop
  /-- Something throws. -/
  | throw_
  | restart

namespace State

variable (enc : IndexEncoder Key) (s : State Key Number)

/-- The batch is flushed with the record of how far it goes. -/
def commit (p : Pass) (lastProcessed : Nat) : State Key Number :=
  { s with
    bee := Db.put enc s.bee
      (p.writer ++ [(.userProgress (fromHex p.keyHex), .count lastProcessed)])
    lastProcessedSeq := Function.update s.lastProcessedSeq p.keyHex (some (some lastProcessed)) }

def index (p : Pass) (batch : Nat) (block : Decoded Number) : State Key Number :=
  let i := next p.lastProcessed
  let writer := p.writer
    ++ applyEvent (Db.get enc (Db.put enc s.bee p.writer)) p.keyHex i block
  let p := { p with lastProcessed := some i, writer }
  if i + 1 - next p.committed ≥ batch then
    { s.commit enc p i with pass := some { p with committed := some i, writer := [] } }
  else { s with pass := some p }

/-- `none`: it can't happen now. -/
def step : Action Number → Option (State Key Number)
  | .append author block =>
      -- a length is a safe integer
      if author.length = 32 ∧ (s.logs author).length < maxSafeInteger then
        some { s with logs := Function.update s.logs author (s.logs author ++ [block]) }
      else none
  | .addUserCore keyHex =>
      -- a log is opened by the bytes of a text, which are to be a key
      if (fromHex keyHex).length = 32 then
        some { s with userCores := if keyHex ∈ s.userCores then s.userCores
          else s.userCores ++ [keyHex] }
      else none
  | .read keyHex =>
      if keyHex ∈ s.userCores then
        some { s with loading := (keyHex, readUserProgress enc s.bee keyHex) :: s.loading }
      else none
  | .note keyHex seq =>
      if (keyHex, seq) ∈ s.loading then
        some { s with
          loading := s.loading.erase (keyHex, seq)
          lastProcessedSeq := if s.lastProcessedSeq keyHex = none then
              Function.update s.lastProcessedSeq keyHex (some seq)
            else s.lastProcessedSeq }
      else none
  | .visit keyHex length =>
      match s.pass, s.lastProcessedSeq keyHex with
      | none, some lastSeq =>
          if keyHex ∈ s.userCores ∧ length ≤ (s.logs (fromHex keyHex)).length
              ∧ ¬ length ≤ next lastSeq then
            some { s with pass := some ⟨keyHex, length, lastSeq, lastSeq, []⟩ }
          else none
      | _, _ => none
  | .index batch =>
      match s.pass with
      | some p =>
          if next p.lastProcessed < p.currentLength then
            (s.logs (fromHex p.keyHex))[next p.lastProcessed]?.map (s.index enc p batch)
          else none
      | none => none
  | .stop =>
      match s.pass with
      | some p =>
          match p.lastProcessed with
          | some lastProcessed =>
              if next p.committed < next p.lastProcessed then
                some { s.commit enc p lastProcessed with pass := none }
              else some { s with pass := none }
          | none => some { s with pass := none }
      | none => none
  | .throw_ => some { s with pass := none }
  | .restart =>
      some { s with userCores := [], lastProcessedSeq := fun _ => none, loading := [], pass := none }

/-- A new graph, before any log. -/
def opened : State Key Number :=
  { logs := fun _ => [], bee := ∅, userCores := [], lastProcessedSeq := fun _ => none, loading := [],
    pass := none }

end State

theorem View.put_append {view : View} {first rest : List (Place × Value)}
    : view.put (first ++ rest) = (view.put first).put rest := List.foldl_append

-- What every step keeps

/-- What is indexed of each log, by records of progress. -/
def upTo (logs : Bytes → List (Decoded Number)) (progress : Bytes → Option Nat) (author : Bytes)
    : List (Decoded Number) :=
  (logs author).take (next (progress author))

/-- A pass indexes the log after what is committed of it, and its batch has pending what the events
since then write.
-/
structure Passing (s : State Key Number) (progress : Bytes → Option Nat) (p : Pass) : Prop where
  core : p.keyHex ∈ s.userCores
  last : s.lastProcessedSeq p.keyHex = some p.committed
  forward : next p.committed ≤ next p.lastProcessed
  within : next p.lastProcessed ≤ (s.logs (fromHex p.keyHex)).length
  writer : (viewOf (upTo s.logs progress) progress).put p.writer
    = viewOf (Function.update (upTo s.logs progress) (fromHex p.keyHex)
        ((s.logs (fromHex p.keyHex)).take (next p.lastProcessed))) progress

/-- What is committed is the replay of each log to its progress. -/
structure Good (enc : IndexEncoder Key) (s : State Key Number) (progress : Bytes → Option Nat)
    : Prop where
  shows_ : Shows enc s.bee (viewOf (upTo s.logs progress) progress)
  within : ∀ author, next (progress author) ≤ (s.logs author).length
  short : ∀ author, (s.logs author).length ≤ maxSafeInteger
  keys : ∀ author, s.logs author ≠ [] → author.length = 32
  cores : ∀ keyHex ∈ s.userCores, toHex (fromHex keyHex) = keyHex
  last : ∀ keyHex seq, s.lastProcessedSeq keyHex = some seq → keyHex ∈ s.userCores
    ∧ seq = progress (fromHex keyHex)
  loading : ∀ keyHex seq, (keyHex, seq) ∈ s.loading → keyHex ∈ s.userCores
    ∧ (s.lastProcessedSeq keyHex = none → seq = progress (fromHex keyHex))
  passing : ∀ p, s.pass = some p → Passing s progress p

/-- Every log is added under its own key, as hex in lower case. -/
def Canonical : Action Number → Prop
  | .addUserCore keyHex => toHex (fromHex keyHex) = keyHex
  | _ => True

/-- What is indexed stays so. -/
def Ahead (progress progress' : Bytes → Option Nat) : Prop :=
  ∀ author, next (progress author) ≤ next (progress' author)

section Keeps

variable {enc : IndexEncoder Key} {s s' : State Key Number} {progress : Bytes → Option Nat} {p : Pass}

theorem readUserProgress_eq {db : Db Key} {logs : Bytes → List (Decoded Number)} {keyHex : String}
    (shows_ : Shows enc db (viewOf logs progress))
    : readUserProgress enc db keyHex = progress (fromHex keyHex) := by
  rw [readUserProgress, shows_.get, viewOf]
  cases progress (fromHex keyHex) <;> rfl

theorem upTo_update {logs : Bytes → List (Decoded Number)} {author : Bytes} {seq : Nat}
    : upTo logs (Function.update progress author (some seq))
      = Function.update (upTo logs progress) author ((logs author).take (seq + 1)) := by
  funext other
  by_cases here : other = author
  · subst here
    simp [upTo, next]
  · simp [upTo, here]

theorem Good.append (good : Good enc s progress) {author : Bytes} {block : Decoded Number}
    (next_ : s.step enc (.append author block) = some s')
    : Good enc s' progress := by
  obtain ⟨⟨length, room⟩, next_⟩ := Option.ite_none_right_eq_some.mp next_
  cases next_
  have grown : ∀ other, (s.logs other).length
      ≤ (Function.update s.logs author (s.logs author ++ [block]) other).length := by
    intro other
    by_cases here : other = author
    · subst here
      simp
    · simp [here]
  have take (other : Bytes) {n : Nat} (le : n ≤ (s.logs other).length)
      : (Function.update s.logs author (s.logs author ++ [block]) other).take n
        = (s.logs other).take n := by
    by_cases here : other = author
    · subst here
      rw [Function.update_self, List.take_append_of_le_length le]
    · rw [Function.update_of_ne here]
  have same : upTo (Function.update s.logs author (s.logs author ++ [block])) progress
      = upTo s.logs progress := funext fun other => take other (good.within other)
  refine ⟨same ▸ good.shows_, fun other => (good.within other).trans (grown other), ?_, ?_, good.cores,
    good.last, good.loading, ?_⟩
  · intro other
    by_cases here : other = author
    · subst here
      simp
      omega
    · simpa [here] using good.short other
  · intro other some_
    by_cases here : other = author
    · exact here ▸ length
    · exact good.keys other (by simpa [here] using some_)
  · intro p is
    have passing := good.passing p is
    exact ⟨passing.core, passing.last, passing.forward, passing.within.trans (grown _),
      by simp only [same, take _ passing.within]; exact passing.writer⟩

theorem Good.addUserCore (good : Good enc s progress) {keyHex : String}
    (canonical : toHex (fromHex keyHex) = keyHex) (next_ : s.step enc (.addUserCore keyHex) = some s')
    : Good enc s' progress := by
  obtain ⟨length, next_⟩ := Option.ite_none_right_eq_some.mp next_
  cases next_
  have still : ∀ name ∈ s.userCores,
      name ∈ if keyHex ∈ s.userCores then s.userCores else s.userCores ++ [keyHex] := by
    intro name mem
    split
    · exact mem
    · exact List.mem_append_left _ mem
  refine ⟨good.shows_, good.within, good.short, good.keys, ?_,
    fun name seq is => (good.last name seq is).imp_left (still name),
    fun name seq mem => (good.loading name seq mem).imp_left (still name), fun p is => ?_⟩
  · intro name mem
    split at mem
    · exact good.cores name mem
    · rcases List.mem_append.mp mem with mem | mem
      · exact good.cores name mem
      · exact List.mem_singleton.mp mem ▸ canonical
  · have passing := good.passing p is
    exact ⟨still _ passing.core, passing.last, passing.forward, passing.within, passing.writer⟩

theorem Good.read (good : Good enc s progress) {keyHex : String}
    (next_ : s.step enc (.read keyHex) = some s')
    : Good enc s' progress := by
  obtain ⟨core, next_⟩ := Option.ite_none_right_eq_some.mp next_
  cases next_
  refine ⟨good.shows_, good.within, good.short, good.keys, good.cores, good.last, ?_, fun p is =>
    ⟨(good.passing p is).core, (good.passing p is).last, (good.passing p is).forward,
      (good.passing p is).within, (good.passing p is).writer⟩⟩
  intro name seq mem
  rcases List.mem_cons.mp mem with is | mem
  · cases is
    exact ⟨core, fun _ => readUserProgress_eq good.shows_⟩
  · exact good.loading name seq mem

theorem Good.note (good : Good enc s progress) {keyHex : String} {seq : Option Nat}
    (next_ : s.step enc (.note keyHex seq) = some s')
    : Good enc s' progress := by
  obtain ⟨mem, next_⟩ := Option.ite_none_right_eq_some.mp next_
  cases next_
  obtain ⟨core, fresh⟩ := good.loading keyHex seq mem
  -- what stands in memory stays; what is noted anew is what is committed
  have kept : ∀ name last, s.lastProcessedSeq name = some last
      → (if s.lastProcessedSeq keyHex = none then
            Function.update s.lastProcessedSeq keyHex (some seq)
          else s.lastProcessedSeq) name = some last := by
    intro name last is
    split
    · rename_i none_
      have other : name ≠ keyHex := fun same => by
        rw [same, none_] at is
        cases is
      rw [Function.update_of_ne other, is]
    · exact is
  refine ⟨good.shows_, good.within, good.short, good.keys, good.cores, ?_, ?_, fun p is =>
    ⟨(good.passing p is).core, kept _ _ (good.passing p is).last, (good.passing p is).forward,
      (good.passing p is).within, (good.passing p is).writer⟩⟩
  · intro name last is
    simp only at is
    split at is
    · rename_i none_
      by_cases same : name = keyHex
      · subst same
        rw [Function.update_self, Option.some.injEq] at is
        exact ⟨core, is ▸ fresh none_⟩
      · rw [Function.update_of_ne same] at is
        exact good.last name last is
    · exact good.last name last is
  · intro name last mem
    obtain ⟨core', fresh'⟩ := good.loading name last (List.mem_of_mem_erase mem)
    refine ⟨core', fun none_ => fresh' ?_⟩
    cases is : s.lastProcessedSeq name with
    | none => rfl
    | some last =>
        have some_ := kept name last is
        simp only at none_
        rw [none_] at some_
        cases some_

theorem Good.visit (good : Good enc s progress) {keyHex : String} {length : Nat}
    (next_ : s.step enc (.visit keyHex length) = some s')
    : Good enc s' progress := by
  simp only [State.step] at next_
  split at next_
  · rename_i lastSeq none_ last
    obtain ⟨⟨core, le, _⟩, next_⟩ := Option.ite_none_right_eq_some.mp next_
    cases next_
    refine ⟨good.shows_, good.within, good.short, good.keys, good.cores, good.last, good.loading, ?_⟩
    intro p is
    cases is
    obtain ⟨_, rfl⟩ := good.last keyHex lastSeq last
    refine ⟨core, last, le_rfl, good.within _, ?_⟩
    rw [← upTo, Function.update_eq_self]
    rfl
  · cases next_

theorem Good.throw_ (good : Good enc s progress) : Good enc { s with pass := none } progress :=
  ⟨good.shows_, good.within, good.short, good.keys, good.cores, good.last, good.loading, nofun⟩

theorem Good.restart (good : Good enc s progress)
    : Good enc { s with userCores := [], lastProcessedSeq := fun _ => none, loading := [], pass := none }
        progress :=
  ⟨good.shows_, good.within, good.short, good.keys, nofun, nofun, nofun, nofun⟩

variable [Std.LawfulEqOrd Key]

theorem Good.commit (good : Good enc s progress) (passing : Passing s progress p) {seq : Nat}
    (last : p.lastProcessed = some seq)
    : Good enc { s.commit enc p seq with pass := none }
        (Function.update progress (fromHex p.keyHex) (some seq)) := by
  have after : next p.lastProcessed = seq + 1 := by rw [last]; rfl
  have apart : ∀ name ∈ s.userCores, name ≠ p.keyHex → fromHex name ≠ fromHex p.keyHex :=
    fun name core other same => other
      (by rw [← good.cores name core, same, good.cores p.keyHex passing.core])
  refine ⟨?_, ?_, good.short, good.keys, good.cores, ?_, ?_, nofun⟩
  · have put := good.shows_.put (p.writer ++ [(.userProgress (fromHex p.keyHex), .count seq)])
    rwa [View.put_append, passing.writer, put_progress, after, ← upTo_update] at put
  · intro author
    by_cases here : author = fromHex p.keyHex
    · subst here
      rw [Function.update_self]
      exact le_of_eq_of_le after.symm passing.within
    · rw [Function.update_of_ne here]
      exact good.within author
  · intro name lastSeq is
    simp only [State.commit] at is
    by_cases here : name = p.keyHex
    · subst here
      rw [Function.update_self, Option.some.injEq] at is
      exact ⟨passing.core, by rw [Function.update_self, is]⟩
    · rw [Function.update_of_ne here] at is
      obtain ⟨core, same⟩ := good.last name lastSeq is
      exact ⟨core, by rw [Function.update_of_ne (apart name core here), same]⟩
  · intro name lastSeq mem
    obtain ⟨core, same⟩ := good.loading name lastSeq mem
    refine ⟨core, fun none_ => ?_⟩
    simp only [State.commit] at none_
    by_cases here : name = p.keyHex
    · subst here
      rw [Function.update_self] at none_
      cases none_
    · rw [Function.update_of_ne here] at none_
      rw [Function.update_of_ne (apart name core here), same none_]

/-- An event more in the batch. -/
theorem Passing.index (good : Good enc s progress) (passing : Passing s progress p)
    {block : Decoded Number} (at_ : (s.logs (fromHex p.keyHex))[next p.lastProcessed]? = some block)
    : Passing s progress
        { p with
          lastProcessed := some (next p.lastProcessed)
          writer := p.writer ++ applyEvent (Db.get enc (Db.put enc s.bee p.writer)) p.keyHex
            (next p.lastProcessed) block } := by
  obtain ⟨inside, is⟩ := List.getElem?_eq_some_iff.mp at_
  refine ⟨passing.core, passing.last, passing.forward.trans (Nat.le_succ _), inside, ?_⟩
  let blocks := (s.logs (fromHex p.keyHex)).take (next p.lastProcessed)
  have length : blocks.length = next p.lastProcessed := List.length_take_of_le inside.le
  have reads : Db.get enc (Db.put enc s.bee p.writer)
      = viewOf (Function.update (upTo s.logs progress) (fromHex p.keyHex) blocks) progress :=
    (good.shows_.put p.writer).get.trans passing.writer
  have more : (s.logs (fromHex p.keyHex)).take (next p.lastProcessed + 1) = blocks ++ [block] := by
    rw [List.take_add_one, at_]
    rfl
  have writes : (viewOf (Function.update (upTo s.logs progress) (fromHex p.keyHex) blocks) progress).put
        (applyEvent (viewOf (Function.update (upTo s.logs progress) (fromHex p.keyHex) blocks) progress)
          (toHex (fromHex p.keyHex))
          (Function.update (upTo s.logs progress) (fromHex p.keyHex) blocks (fromHex p.keyHex)).length
          block)
      = viewOf (Function.update (Function.update (upTo s.logs progress) (fromHex p.keyHex) blocks)
          (fromHex p.keyHex)
          (Function.update (upTo s.logs progress) (fromHex p.keyHex) blocks (fromHex p.keyHex)
            ++ [block])) progress := put_applyEvent
  rw [Function.update_self, length, good.cores _ passing.core, Function.update_idem, ← more] at writes
  rw [View.put_append, passing.writer, reads]
  exact writes

omit [Std.LawfulEqOrd Key] in
/-- What a commit notes is ahead of what was. -/
theorem Good.ahead_commit (good : Good enc s progress) (passing : Passing s progress p) {seq : Nat}
    (last : p.lastProcessed = some seq)
    : Ahead progress (Function.update progress (fromHex p.keyHex) (some seq)) := by
  intro author
  by_cases here : author = fromHex p.keyHex
  · subst here
    rw [Function.update_self, ← last, ← (good.last _ _ passing.last).2]
    exact passing.forward
  · rw [Function.update_of_ne here]

theorem Good.index (good : Good enc s progress) {batch : Nat} (next_ : s.step enc (.index batch) = some s')
    : ∃ progress', Good enc s' progress' ∧ Ahead progress progress' := by
  simp only [State.step] at next_
  split at next_
  · rename_i p is
    have passing := good.passing p is
    obtain ⟨_, next_⟩ := Option.ite_none_right_eq_some.mp next_
    obtain ⟨block, at_, rfl⟩ := Option.map_eq_some_iff.mp next_
    have grown := passing.index good at_
    simp only [State.index]
    split
    · have committed := good.commit grown rfl
      refine ⟨_, ⟨committed.shows_, committed.within, committed.short, committed.keys, committed.cores,
        committed.last, committed.loading, ?_⟩, good.ahead_commit grown rfl⟩
      intro p' is'
      cases is'
      refine ⟨grown.core, Function.update_self .., le_rfl, grown.within, ?_⟩
      have self : upTo s.logs (Function.update progress (fromHex p.keyHex) (some (next p.lastProcessed)))
          (fromHex p.keyHex) = (s.logs (fromHex p.keyHex)).take (next p.lastProcessed + 1) := by
        rw [upTo_update, Function.update_self]
      simp only [State.commit, next, Option.elim_some] at self ⊢
      rw [← self, Function.update_eq_self]
      rfl
    · refine ⟨progress, ⟨good.shows_, good.within, good.short, good.keys, good.cores, good.last,
        good.loading, ?_⟩, fun _ => le_rfl⟩
      intro p' is'
      cases is'
      exact ⟨grown.core, grown.last, grown.forward, grown.within, grown.writer⟩
  · cases next_

theorem Good.stop (good : Good enc s progress) (next_ : s.step enc .stop = some s')
    : ∃ progress', Good enc s' progress' ∧ Ahead progress progress' := by
  simp only [State.step] at next_
  split at next_
  · rename_i p is
    split at next_
    · rename_i seq last
      split at next_
      · cases next_
        exact ⟨_, good.commit (good.passing p is) last, good.ahead_commit (good.passing p is) last⟩
      · cases next_
        exact ⟨_, good.throw_, fun _ => le_rfl⟩
    · cases next_
      exact ⟨_, good.throw_, fun _ => le_rfl⟩
  · cases next_

/-- One thing happens. -/
theorem Good.step (good : Good enc s progress) {action : Action Number} (canonical : Canonical action)
    (next_ : s.step enc action = some s')
    : ∃ progress', Good enc s' progress' ∧ Ahead progress progress' := by
  have same {s' : State Key Number} (good : Good enc s' progress)
      : ∃ progress', Good enc s' progress' ∧ Ahead progress progress' :=
    ⟨progress, good, fun _ => le_rfl⟩
  cases action with
  | append author block => exact same (good.append next_)
  | addUserCore keyHex => exact same (good.addUserCore canonical next_)
  | read keyHex => exact same (good.read next_)
  | note keyHex seq => exact same (good.note next_)
  | visit keyHex length => exact same (good.visit next_)
  | index batch => exact good.index next_
  | stop => exact good.stop next_
  | throw_ =>
      cases next_
      exact same good.throw_
  | restart =>
      cases next_
      exact same good.restart

omit [Std.LawfulEqOrd Key] in
theorem good_opened : Good enc (State.opened : State Key Number) fun _ => none := by
  refine ⟨⟨fun place => ?_, fun place _ => ?_⟩, fun _ => Nat.zero_le _, fun _ => Nat.zero_le _, nofun,
    nofun, nofun, nofun, nofun⟩
  · rw [State.opened, Std.ExtTreeMap.getElem?_empty]
    cases place <;> rfl
  · exact Std.ExtTreeMap.getElem?_empty

-- A whole update

/-- What an update does by itself, in batches of a size. -/
def OfUpdate (batch : Nat) : Action Number → Prop
  | .read _ | .note .. | .visit .. | .stop => True
  | .index size => size = batch
  | _ => False

/-- A state that an update can come to, with more of the logs indexed. -/
structure Reaches (enc : IndexEncoder Key) (batch : Nat) (s : State Key Number)
    (progress : Bytes → Option Nat) (s' : State Key Number) (progress' : Bytes → Option Nat)
    : Prop where
  run : ∃ actions : List (Action Number), (∀ action ∈ actions, OfUpdate batch action)
    ∧ actions.foldlM (State.step enc) s = some s'
  good : Good enc s' progress'
  ahead : Ahead progress progress'
  logs : s'.logs = s.logs
  userCores : s'.userCores = s.userCores

omit [Std.LawfulEqOrd Key] in
theorem Reaches.refl {batch : Nat} (good : Good enc s progress) : Reaches enc batch s progress s progress :=
  ⟨⟨[], nofun, rfl⟩, good, fun _ => le_rfl, rfl, rfl⟩

omit [Std.LawfulEqOrd Key] in
theorem Reaches.trans {batch : Nat} {progress' progress'' : Bytes → Option Nat}
    {s'' : State Key Number} (first : Reaches enc batch s progress s' progress')
    (second : Reaches enc batch s' progress' s'' progress'')
    : Reaches enc batch s progress s'' progress'' := by
  obtain ⟨actions, own, ran⟩ := first.run
  obtain ⟨actions', own', ran'⟩ := second.run
  refine ⟨⟨actions ++ actions', ?_, ?_⟩, second.good,
    fun author => (first.ahead author).trans (second.ahead author), second.logs.trans first.logs,
    second.userCores.trans first.userCores⟩
  · intro action mem
    rcases List.mem_append.mp mem with mem | mem
    · exact own action mem
    · exact own' action mem
  · rw [List.foldlM_append, ran]
    exact ran'

/-- One thing that an update does. -/
theorem Good.reaches (good : Good enc s progress) (batch : Nat) {action : Action Number}
    (own : OfUpdate batch action) (next_ : s.step enc action = some s') (logs : s'.logs = s.logs)
    (userCores : s'.userCores = s.userCores)
    : ∃ progress', Reaches enc batch s progress s' progress' := by
  have canonical : Canonical action := by
    cases action with
    | addUserCore => exact own.elim
    | _ => trivial
  obtain ⟨progress', good', ahead⟩ := good.step canonical next_
  refine ⟨progress', ⟨[action], ?_, ?_⟩, good', ahead, logs, userCores⟩
  · intro action mem
    exact List.mem_singleton.mp mem ▸ own
  · rw [List.foldlM_cons, next_]
    rfl

omit [Std.LawfulEqOrd Key] in
/-- A batch ends with what was indexed noted. -/
theorem exists_stop (good : Good enc s progress) (is : s.pass = some p)
    : ∃ s' lastSeq, s.step enc .stop = some s' ∧ s'.pass = none ∧ s'.logs = s.logs
        ∧ s'.userCores = s.userCores ∧ s'.lastProcessedSeq p.keyHex = some lastSeq
        ∧ next lastSeq = next p.lastProcessed := by
  have passing := good.passing p is
  have idle (none_ : ¬ next p.committed < next p.lastProcessed)
      : next p.committed = next p.lastProcessed := passing.forward.antisymm (not_lt.mp none_)
  simp only [State.step, is]
  cases last : p.lastProcessed with
  | none =>
      refine ⟨_, p.committed, rfl, rfl, rfl, rfl, passing.last, ?_⟩
      have forward := passing.forward
      rw [last] at forward
      exact Nat.le_zero.mp forward
  | some seq =>
      by_cases some_ : next p.committed < next (some seq)
      · exact ⟨_, some seq, if_pos some_, rfl, rfl, rfl, Function.update_self .., rfl⟩
      · exact ⟨_, p.committed, if_neg some_, rfl, rfl, rfl, passing.last, last ▸ idle (last ▸ some_)⟩

omit [Std.LawfulEqOrd Key] in
/-- The next event of a log is indexed. -/
theorem exists_index (is : s.pass = some p) (batch : Nat) (before : next p.lastProcessed < p.currentLength)
    (all : p.currentLength = (s.logs (fromHex p.keyHex)).length)
    : ∃ s' p', s.step enc (.index batch) = some s' ∧ s'.pass = some p' ∧ s'.logs = s.logs
        ∧ s'.userCores = s.userCores ∧ p'.keyHex = p.keyHex ∧ p'.currentLength = p.currentLength
        ∧ next p'.lastProcessed = next p.lastProcessed + 1 := by
  have at_ := List.getElem?_eq_getElem (all ▸ before)
  simp only [State.step, is, if_pos before, at_, Option.map_some, State.index]
  split
  · exact ⟨_, _, rfl, rfl, rfl, rfl, rfl, rfl, rfl⟩
  · exact ⟨_, _, rfl, rfl, rfl, rfl, rfl, rfl, rfl⟩

/-- The rest of a log is indexed, whatever its events are. By induction on how many there are. -/
theorem Good.rest (good : Good enc s progress) (is : s.pass = some p) (batch : Nat)
    (all : p.currentLength = (s.logs (fromHex p.keyHex)).length)
    : ∃ s' progress', Reaches enc batch s progress s' progress' ∧ s'.pass = none
        ∧ next (progress' (fromHex p.keyHex)) = (s.logs (fromHex p.keyHex)).length := by
  have passing := good.passing p is
  induction left : p.currentLength - next p.lastProcessed generalizing s progress p with
  | zero =>
      obtain ⟨s', lastSeq, next_, none_, logs, userCores, noted, same⟩ := exists_stop good is
      have own : OfUpdate batch (.stop : Action Number) := trivial
      obtain ⟨progress', reaches⟩ := good.reaches batch own next_ logs userCores
      refine ⟨s', progress', reaches, none_, ?_⟩
      rw [← (reaches.good.last _ _ noted).2, same]
      have := passing.within
      omega
  | succ n ih =>
      obtain ⟨s', p', next_, is', logs, userCores, name, length, more⟩ :=
        exists_index is batch (by omega) all
      have own : OfUpdate batch (.index batch : Action Number) := rfl
      obtain ⟨progress', reaches⟩ := good.reaches batch own next_ logs userCores
      obtain ⟨s'', progress'', reaches', none_, done⟩ := ih reaches.good is'
        (by rw [length, name, logs, all]) (reaches.good.passing p' is') (by omega)
      exact ⟨s'', progress'', reaches.trans reaches', none_, by rw [← name, done, logs]⟩

/-- What is committed of a log is noted. -/
theorem Good.noted (good : Good enc s progress) (idle : s.pass = none) (batch : Nat) {keyHex : String}
    (core : keyHex ∈ s.userCores)
    : ∃ s' progress', Reaches enc batch s progress s' progress' ∧ s'.pass = none
        ∧ ∃ lastSeq, s'.lastProcessedSeq keyHex = some lastSeq := by
  cases last : s.lastProcessedSeq keyHex with
  | some lastSeq => exact ⟨s, progress, .refl good, idle, lastSeq, last⟩
  | none =>
      let seq := readUserProgress enc s.bee keyHex
      let s₁ : State Key Number := { s with loading := (keyHex, seq) :: s.loading }
      let s₂ : State Key Number :=
        { s₁ with
          loading := s₁.loading.erase (keyHex, seq)
          lastProcessedSeq := if s₁.lastProcessedSeq keyHex = none then
              Function.update s₁.lastProcessedSeq keyHex (some seq)
            else s₁.lastProcessedSeq }
      have reads : s.step enc (.read keyHex) = some s₁ := if_pos core
      have notes : s₁.step enc (.note keyHex seq) = some s₂ := if_pos (.head _)
      have own : OfUpdate batch (.read keyHex : Action Number) := trivial
      have own' : OfUpdate batch (.note keyHex seq : Action Number) := trivial
      obtain ⟨progress₁, reaches₁⟩ := good.reaches batch own reads rfl rfl
      obtain ⟨progress₂, reaches₂⟩ := reaches₁.good.reaches batch own' notes rfl rfl
      refine ⟨s₂, progress₂, reaches₁.trans reaches₂, idle, seq, ?_⟩
      simp only [s₂, s₁]
      rw [if_pos last, Function.update_self]

/-- A log is indexed to its end. -/
theorem Good.whole (good : Good enc s progress) (idle : s.pass = none) (batch : Nat) {keyHex : String}
    (core : keyHex ∈ s.userCores)
    : ∃ s' progress', Reaches enc batch s progress s' progress' ∧ s'.pass = none
        ∧ next (progress' (fromHex keyHex)) = (s.logs (fromHex keyHex)).length := by
  obtain ⟨s₁, progress₁, reaches, idle₁, lastSeq, last⟩ := good.noted idle batch core
  obtain ⟨core₁, rfl⟩ := reaches.good.last keyHex lastSeq last
  by_cases done : (s₁.logs (fromHex keyHex)).length ≤ next (progress₁ (fromHex keyHex))
  · exact ⟨s₁, progress₁, reaches, idle₁,
      reaches.logs ▸ (reaches.good.within _).antisymm done⟩
  · have begins : s₁.step enc (.visit keyHex (s₁.logs (fromHex keyHex)).length)
        = some { s₁ with pass := some ⟨keyHex, (s₁.logs (fromHex keyHex)).length,
            progress₁ (fromHex keyHex), progress₁ (fromHex keyHex), []⟩ } := by
      simp only [State.step, idle₁, last]
      exact if_pos ⟨core₁, le_rfl, done⟩
    have own : OfUpdate batch (.visit keyHex (s₁.logs (fromHex keyHex)).length : Action Number) := trivial
    obtain ⟨progress₂, reaches₂⟩ := reaches.good.reaches batch own begins rfl rfl
    obtain ⟨s₃, progress₃, reaches₃, idle₃, all⟩ := reaches₂.good.rest rfl batch rfl
    exact ⟨s₃, progress₃, (reaches.trans reaches₂).trans reaches₃, idle₃, all.trans (by rw [reaches.logs])⟩

/-- Every log is indexed to its end, whatever the events of the others are. -/
theorem Good.update (good : Good enc s progress) (idle : s.pass = none) (batch : Nat)
    {names : List String} (cores : ∀ name ∈ names, name ∈ s.userCores)
    : ∃ s' progress', Reaches enc batch s progress s' progress' ∧ s'.pass = none
        ∧ ∀ name ∈ names, next (progress' (fromHex name)) = (s.logs (fromHex name)).length := by
  induction names generalizing s progress with
  | nil => exact ⟨s, progress, .refl good, idle, nofun⟩
  | cons first rest ih =>
      obtain ⟨s', progress', reaches, idle', done⟩ := good.whole idle batch (cores first (.head _))
      obtain ⟨s'', progress'', reaches', idle'', all⟩ := ih reaches.good idle'
        fun name mem => reaches.userCores ▸ cores name (.tail _ mem)
      refine ⟨s'', progress'', reaches.trans reaches', idle'', ?_⟩
      intro name mem
      rcases List.mem_cons.mp mem with rfl | mem
      · refine le_antisymm ?_ (done ▸ reaches'.ahead _)
        have within := reaches'.good.within (fromHex name)
        rwa [reaches'.logs, reaches.logs] at within
      · rw [all name mem, reaches.logs]

end Keeps

-- Runs

/-- How far a log is indexed, as it is committed. -/
def State.progress (enc : IndexEncoder Key) (s : State Key Number) (author : Bytes) : Option Nat :=
  readUserProgress enc s.bee (toHex author)

/-- A log's events from 0 to its progress. -/
def State.indexed (enc : IndexEncoder Key) (s : State Key Number) (author : Bytes)
    : List (Decoded Number) :=
  upTo s.logs (s.progress enc) author

/-- What is committed is the replay of the logs: entry by entry, and as it is read. -/
structure Replayed (enc : IndexEncoder Key) (s : State Key Number) : Prop where
  within : ∀ author, next (s.progress enc author) ≤ (s.logs author).length
  entries : Shows enc s.bee (viewOf (s.indexed enc) (s.progress enc))
  /-- An entity is live where its own log created it and doesn't later delete it. -/
  node : ∀ id node, getNode enc s.bee id = some node
    ↔ ∃ type author seq time, id = formatEntityId type author seq
        ∧ createdAt author (s.indexed enc author) type seq = some time
        ∧ (∀ later block, seq < later → (s.indexed enc author)[later]? = some block
            → tombstone author type seq block = none)
        ∧ node = ⟨id, type, toHex author, time, seq⟩
  /-- Its content is the last in its own log, where that block is held. -/
  content : ∀ held id content, getContent enc s.bee (heldBlocks s.logs held) id = some content
    ↔ ∃ type author seq c block, id = formatEntityId type author seq ∧ seq ≤ maxSafeInteger
        ∧ (s.indexed enc author)[c]? = some block ∧ contentFrom id block = some content
        ∧ (∀ later block', c < later → (s.indexed enc author)[later]? = some block'
            → contentFrom id block' = none)
        ∧ held (toHex author) c
  /-- A profile is the last in its own log. -/
  identity : ∀ pubkey identity, getIdentity enc s.bee pubkey = some identity
    ↔ isHex64 pubkey ∧ ∃ seq block, (s.indexed enc (fromHex pubkey))[seq]? = some block
        ∧ identityFrom pubkey (block, seq) = some identity
        ∧ ∀ later block', seq < later → (s.indexed enc (fromHex pubkey))[later]? = some block'
            → identityFrom pubkey (block', later) = none
  /-- Every entity that its log created is listed, of its type and among all, once and by the time
  that is claimed.
  -/
  listed : ∀ wanted reverse id, id ∈ nodeIds enc s.bee wanted reverse
    ↔ ∃ type author seq, (∀ other ∈ wanted, type = other)
        ∧ (createdAt author (s.indexed enc author) type seq).isSome ∧ id = formatEntityId type author seq
  once : ∀ wanted reverse, (nodeIds enc s.bee wanted reverse).Nodup
  byTime : ∀ wanted reverse, (nodeIds enc s.bee wanted reverse).Pairwise fun id id' =>
    if reverse then claimedAt (s.indexed enc) id' ≤ claimedAt (s.indexed enc) id
    else claimedAt (s.indexed enc) id ≤ claimedAt (s.indexed enc) id'
  /-- Whatever events there are, an update comes to the end of every log. -/
  update : s.pass = none → ∀ batch, ∃ (actions : List (Action Number)) (s' : State Key Number),
    (∀ action ∈ actions, OfUpdate batch action) ∧ actions.foldlM (State.step enc) s = some s'
      ∧ s'.logs = s.logs
      ∧ ∀ keyHex ∈ s.userCores,
          s'.indexed enc (fromHex keyHex) = s.logs (fromHex keyHex)

section Final

variable {enc : IndexEncoder Key} {s : State Key Number} {progress : Bytes → Option Nat}

theorem Good.progress_eq (good : Good enc s progress) : s.progress enc = progress := by
  funext author
  rw [State.progress, readUserProgress_eq good.shows_, fromHex_toHex]

theorem Good.indexed_eq (good : Good enc s progress) : s.indexed enc = upTo s.logs progress := by
  funext author
  rw [State.indexed, good.progress_eq]

variable [Std.LawfulEqOrd Key]

theorem Good.replays (good : Good enc s progress) (ordered : Ordered enc) : Replayed enc s := by
  have short : ∀ author, (s.indexed enc author).length ≤ maxSafeInteger := fun author =>
    (List.length_take_le' ..).trans (good.short author)
  have keys : ∀ author, s.indexed enc author ≠ [] → author.length = 32 := by
    intro author some_
    refine good.keys author fun none_ => some_ ?_
    rw [State.indexed, upTo, none_, List.take_nil]
  have shows_ : Shows enc s.bee (viewOf (s.indexed enc) (s.progress enc)) := by
    rw [good.indexed_eq, good.progress_eq]
    exact good.shows_
  have whole : ∀ author, s.indexed enc author <+: s.logs author := fun author => List.take_prefix ..
  refine
    { within := fun author => good.progress_eq ▸ good.within author
      entries := shows_
      node := fun _ _ => getNode_eq_some shows_ short keys
      content := fun _ _ _ => getContent_eq_some shows_ short keys ordered whole
      identity := fun _ _ => getIdentity_eq_some shows_
      listed := fun _ _ _ => mem_nodeIds shows_ short keys ordered
      once := fun _ _ => nodup_nodeIds shows_ short keys ordered
      byTime := fun _ _ => pairwise_nodeIds shows_ short keys ordered
      update := fun idle batch => ?_ }
  obtain ⟨s', progress', reaches, _, done⟩ := good.update idle batch fun _ mem => mem
  obtain ⟨actions, own, ran⟩ := reaches.run
  refine ⟨actions, s', own, ran, reaches.logs, fun keyHex core => ?_⟩
  rw [reaches.good.indexed_eq, upTo, done keyHex core, reaches.logs, List.take_length]

/-- Where each log is added under its own key, the view is at every time the replay of the logs. -/
theorem replayed (ordered : Ordered enc) {actions : List (Action Number)}
    (canonical : ∀ action ∈ actions, Canonical action)
    (ran : actions.foldlM (State.step enc) State.opened = some s)
    : Replayed enc s := by
  obtain ⟨progress, good⟩ : ∃ progress, Good enc s progress :=
    Runs.AsFar.keeps (fun s => ∃ progress, Good enc s progress)
      (fun s action s' good canonical next_ => by
        obtain ⟨progress, good⟩ := good
        obtain ⟨progress', good', _⟩ := good.step canonical next_
        exact ⟨progress', good'⟩)
      ⟨_, good_opened⟩ (Runs.asFar_of_forall canonical) ran
  exact good.replays ordered

end Final

-- Two runs

theorem compare_append {α : Type} [Ord α] [Std.ReflOrd α] {l r r' : List α} {a b : α}
    (lt : compare a b = .lt)
    : compare (l ++ a :: r) (l ++ b :: r') = .lt := by
  induction l with
  | nil =>
      rw [List.nil_append, List.nil_append, List.compare_cons_cons, lt]
      rfl
  | cons head tail ih =>
      rw [List.cons_append, List.cons_append, List.compare_cons_cons, Std.compare_self]
      exact ih

theorem inOrder_ordered : Ordered inOrder := by
  intro tag parts rest rest' m n lt _
  have numbers : compare (Member.uint m).code (Member.uint n).code = .lt :=
    compare_append (l := [2]) (Nat.compare_eq_lt.mpr lt)
  simp only [inOrder, List.map_append, List.map_cons]
  exact compare_append (l := [tag] :: parts.map Member.code) numbers

/-- A log with a post, which is added under the given text and indexed. -/
def posted (keyHex : String) : List (Action Nat) :=
  let author := List.replicate 32 0xab
  [.append author (.event ⟨some 5, .entityCreate "" "post" (toHex author)⟩), .addUserCore keyHex,
    .read keyHex, .note keyHex none, .visit keyHex 1, .index 64, .stop]

theorem replayed_posted
    : ∃ s, (posted (toHex (List.replicate 32 0xab))).foldlM (State.step inOrder) State.opened = some s
        ∧ s.progress inOrder (List.replicate 32 0xab) = some 0 ∧ Replayed inOrder s := by
  obtain ⟨s, ran, indexed⟩ : ∃ s,
      (posted (toHex (List.replicate 32 0xab))).foldlM (State.step inOrder) State.opened = some s
        ∧ s.progress inOrder (List.replicate 32 0xab) = some 0 := ⟨_, rfl, rfl⟩
  have canonical : ∀ action ∈ posted (toHex (List.replicate 32 0xab)), Canonical action := by
    intro action mem
    cases action with
    | addUserCore keyHex =>
        have same : keyHex = toHex (List.replicate 32 0xab) := by
          simpa only [posted, List.mem_cons, reduceCtorEq, Action.addUserCore.injEq, List.not_mem_nil,
            false_or, or_false] using mem
        rw [Canonical, same, fromHex_toHex]
    | _ => trivial
  exact ⟨s, ran, indexed, replayed inOrder_ordered canonical ran⟩

/-- The same key in upper case. -/
def upperHex : String := String.ofList (List.replicate 32 ['A', 'B']).flatten

/-- The log added under its key in upper case: it is noted as indexed, and nothing of it is. -/
theorem uppercase_skipped
    : ¬ ∀ (actions : List (Action Nat)) (s : State (List (List Nat)) Nat),
        actions.foldlM (State.step inOrder) State.opened = some s → Replayed inOrder s := by
  intro claim
  let author : Bytes := List.replicate 32 0xab
  obtain ⟨s, ran, block⟩ : ∃ s, (posted upperHex).foldlM (State.step inOrder) State.opened = some s
      ∧ s.logs author = [.event ⟨some 5, .entityCreate "" "post" (toHex author)⟩] := ⟨_, rfl, rfl⟩
  have read : ((posted upperHex).foldlM (State.step inOrder) State.opened).map
      (fun s => (Db.get inOrder s.bee (.node "post" author 0), s.progress inOrder author))
      = some (none, some 0) := by decide +kernel
  rw [ran, Option.map_some, Option.some.injEq, Prod.mk.injEq] at read
  obtain ⟨nothing, indexed⟩ := read
  have created : createdAt author (s.indexed inOrder author) "post" 0 = some 5 := by
    rw [State.indexed, upTo, indexed, block]
    simp [next, createdAt, creation, timeOf, keyTime, Layouts.maxSafeInteger]
  have live := ((claim _ s ran).node (formatEntityId "post" author 0)
    ⟨formatEntityId "post" author 0, "post", toHex author, 5, 0⟩).mpr
      ⟨"post", author, 0, 5, rfl, created, fun later block' lt at_ => ?_, rfl⟩
  · rw [getNode, parseEntityId_format rfl (Nat.zero_le _)] at live
    simp only [nothing] at live
    cases live
  · rw [State.indexed, upTo, indexed, block, List.getElem?_eq_none] at at_
    · cases at_
    · exact lt

end Graphs

end Hypergraph.Engine
