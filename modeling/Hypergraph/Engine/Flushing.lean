import Hypergraph.Lib.Runs
import Hypergraph.Engine.Bulk

/-! Flushes among the other writes in flight: the user core's write lock, one append per context, and
what a flush tells of what it wrote.
-/

namespace Hypergraph.Engine

namespace Bulk

open Events (Event)

variable {Number : Type}

-- Writes in flight

/-- A block of a log, and the write it is of. -/
structure Entry (Number : Type) where
  owner : Option Nat
  event : Event Number

/-- `written`, of a flush's result and of a `BulkWriteError`. -/
structure Written where
  userCore : Bool
  contexts : List String

/-- How a flush ends; of an entity, its id and type. -/
inductive Outcome where
  | wrote (entities : List (String × String)) (written : Written)
  | threw (message : String)
  | bulkWriteError (message : String) (written : Written) (entities : List (String × String))

/-- Where a flush is: at the user core's lock, at its append, at the contexts that remain, within one
that is written event by event, at the view, or at its end.
-/
inductive Point (Number : Type) where
  | waiting
  | appending (built : Built Number)
  | relating (rest : List (String × List (Event Number))) (written : List String)
  | adding (context : String) (left : List (Event Number))
      (rest : List (String × List (Event Number))) (written : List String)
  | indexing (written : List String)
  | done (outcome : Outcome)

structure Flush (Number : Type) where
  graph : Graph Number
  stamp : Nat → Stamp
  ops : List (Op Number)
  ids : Nat → Option String
  point : Point Number

/-- Another write of the user core: at the lock, at its append, or at its end. -/
inductive WritePoint where
  | waiting
  | appending
  | done

inductive Task (Number : Type) where
  | write (event : Event Number) (point : WritePoint)
  | flush (flush : Flush Number)

/-- The user core, who waits for its write lock (the holder first), this device's events of each
context, and the writes.
-/
structure World (Number : Type) where
  core : List (Entry Number)
  lock : List Nat
  contexts : String → List (Entry Number)
  tasks : Nat → Option (Task Number)

/-- What becomes of an append: `late` is one that wrote, and throws after. -/
inductive Answer where
  | ok
  | failed (message : String)
  | late (message : String)

inductive Action (Number : Type) where
  | write (task : Nat) (event : Event Number)
  | flush (task : Nat) (graph : Graph Number) (stamp : Nat → Stamp) (ops : List (Op Number))
  | take (task : Nat)
  | append (task : Nat) (failed : Option String)
  | context (task : Nat) (writable : Bool) (answer : Answer)
  | index (task : Nat) (failed : Option String)
  | other (context : String) (event : Event Number)

namespace Flush

variable (f : Flush Number)

/-- `hasUserCoreWrites`. -/
def inCore : Bool := f.ops.any Op.inCore

/-- The entities that the user core has. -/
def entities : List (String × String) :=
  f.ops.zipIdx.filterMap fun
    | (.put type, p) => (f.ids p).map (·, type)
    | _ => none

/-- On to the next context, or to the view. -/
def next (rest : List (String × List (Event Number))) (written : List String) : Point Number :=
  match rest with
  | [] => .indexing written
  | _ => .relating rest written

/-- The events of each context, once the refs have their ids. -/
def relate : Point Number :=
  match relations f.graph f.stamp f.ids f.ops with
  | .ok byContext => next byContext.entries []
  | .error message => .done (.threw message)

/-- A context could not be written. -/
def fails (context message : String) (written : List String) : Point Number :=
  .done (if f.inCore = false ∧ written = [] then .threw message
    else .bulkWriteError
      ("Bulk write partly failed: context " ++ context ++ " could not be written (" ++ message ++ ")")
      ⟨f.inCore, written⟩ f.entities)

end Flush

namespace World

variable (w : World Number)

def setTask (i : Nat) (task : Task Number) : World Number :=
  { w with tasks := Function.update w.tasks i (some task) }

/-- A flush goes on. -/
def goTo (i : Nat) (f : Flush Number) (point : Point Number) : World Number :=
  w.setTask i (.flush { f with point })

def appendCore (i : Nat) (events : List (Event Number)) : World Number :=
  { w with core := w.core ++ events.map (⟨some i, ·⟩) }

/-- `release()`: the next one holds the lock. -/
def release : World Number := { w with lock := w.lock.tail }

def appendContext (context : String) (owner : Option Nat) (events : List (Event Number))
    : World Number :=
  { w with
    contexts := Function.update w.contexts context
      (w.contexts context ++ events.map (⟨owner, ·⟩)) }

/-- The next append to a context. -/
def writeContext (i : Nat) (f : Flush Number) (writable : Bool) (answer : Answer)
    : Option (World Number) :=
  match f.point with
  | .relating ((context, events) :: rest) written =>
      if writable then
        match answer with
        | .ok => some ((w.appendContext context (some i) events).goTo i f
            (Flush.next rest (written ++ [context])))
        | .failed message => some (w.goTo i f (f.fails context message written))
        | .late message => some ((w.appendContext context (some i) events).goTo i f
            (f.fails context message written))
      else some (w.goTo i f (.adding context events rest written))
  | .adding context [] rest written =>
      some (w.goTo i f (Flush.next rest (written ++ [context])))
  | .adding context (event :: left) rest written =>
      match answer with
      | .ok => some ((w.appendContext context (some i) [event]).goTo i f
          (.adding context left rest written))
      | .failed message => some (w.goTo i f (f.fails context message written))
      | .late message => some ((w.appendContext context (some i) [event]).goTo i f
          (f.fails context message written))
  | _ => none

/-- One thing happens: `none` where it can't. -/
def step : Action Number → Option (World Number)
  | .write i event =>
      if (w.tasks i).isSome then none
      else some { w.setTask i (.write event .waiting) with lock := w.lock ++ [i] }
  | .flush i graph stamp ops =>
      if (w.tasks i).isSome then none
      else
        let f : Flush Number := { graph, stamp, ops, ids := fun _ => none, point := .waiting }
        match validate graph ops with
        | .error message => some (w.goTo i f (.done (.threw message)))
        | .ok _ =>
            if f.inCore then some { w.goTo i f .waiting with lock := w.lock ++ [i] }
            else some (w.goTo i f f.relate)
  | .take i =>
      if w.lock.head? = some i then
        match w.tasks i with
        | some (.write event .waiting) => some (w.setTask i (.write event .appending))
        | some (.flush f) =>
            match f.point with
            | .waiting =>
                match build f.graph f.stamp w.core.length f.ops with
                -- the refs have their ids before the append
                | .ok built => some (w.goTo i { f with ids := built.ids } (.appending built))
                | .error message => some (w.goTo i f (.done (.threw message))).release
            | _ => none
        | _ => none
      else none
  | .append i failed =>
      match w.tasks i with
      | some (.write event .appending) =>
          some (match failed with
            | none => ((w.appendCore i [event]).setTask i (.write event .done)).release
            | some _ => (w.setTask i (.write event .done)).release)
      | some (.flush f) =>
          match f.point with
          | .appending built =>
              some (match failed with
                | none => ((w.appendCore i built.events).goTo i f f.relate).release
                | some message => (w.goTo i f (.done (.threw message))).release)
          | _ => none
      | _ => none
  | .context i writable answer =>
      match w.tasks i with
      | some (.flush f) => w.writeContext i f writable answer
      | _ => none
  | .index i failed =>
      match w.tasks i with
      | some (.flush f) =>
          match f.point with
          | .indexing written =>
              some (w.goTo i f (.done (match failed with
                | none => .wrote f.entities ⟨f.inCore, written⟩
                | some message => .threw message)))
          | _ => none
      | _ => none
  | .other context event => some (w.appendContext context none [event])

end World

-- What is in the logs

section Logs

variable {w w' : World Number} {i j : Nat} {f : Flush Number} {done : Done Number}
  {log log' : List (Entry Number)} {events : List (Event Number)} {owner : Option Nat}
  {now : String → List (Event Number)} {context : String}

/-- The events of one write in a log, in their order. -/
def eventsOf (i : Nat) (log : List (Entry Number)) : List (Event Number) :=
  (log.filter (·.owner = some i)).map Entry.event

theorem eventsOf_append : eventsOf i (log ++ log') = eventsOf i log ++ eventsOf i log' := by
  rw [eventsOf, List.filter_append, List.map_append, eventsOf, eventsOf]

theorem eventsOf_map : eventsOf i (events.map (⟨some i, ·⟩)) = events := by
  simp [eventsOf, List.filter_map, Function.comp_def]

theorem eventsOf_map_of_ne (ne : owner ≠ some i) : eventsOf i (events.map (⟨owner, ·⟩)) = [] := by
  simp [eventsOf, List.filter_map, Function.comp_def, ne]

/-- No log has an event of the write. -/
def Nothing (w : World Number) (i : Nat) : Prop :=
  eventsOf i w.core = [] ∧ ∀ context, eventsOf i (w.contexts context) = []

/-- The user core has the batch's events in one piece: what the single writes, one after the other,
add to what is before them. Each ref has the id of its entity's block, and of each context the events
are these.
-/
structure Holds (w : World Number) (i : Nat) (f : Flush Number) (done : Done Number)
    (now : String → List (Event Number))
    : Prop where
  core : ∃ before events after, w.core = before ++ events.map (⟨some i, ·⟩) ++ after
    ∧ eventsOf i before = [] ∧ eventsOf i after = []
    ∧ oneByOne f.graph f.stamp (before.map Entry.event) f.ops = .ok done
    ∧ done.core = before.map Entry.event ++ events ∧ (events ≠ [] ↔ f.inCore)
  ids : f.ids = done.ids
  refs : ∀ p type, f.ops[p]? = some (.put type)
    → ∃ seq, f.ids p = some (f.graph.entityId type seq)
      ∧ w.core[seq]? = some ⟨some i, f.graph.entityCreateEvent type (f.stamp p)⟩
  contexts : ∀ context, eventsOf i (w.contexts context) = now context

/-- The logs named are those that have events of the write. -/
def Names (w : World Number) (i : Nat) (written : Written) : Prop :=
  (written.userCore ↔ eventsOf i w.core ≠ [])
    ∧ ∀ context, context ∈ written.contexts ↔ eventsOf i (w.contexts context) ≠ []

/-- What a flush tells at its end is so: a success that all of it is there, a `BulkWriteError` which
logs have events of the batch, and those have all of theirs.
-/
def Told (w : World Number) (i : Nat) (f : Flush Number) : Outcome → Prop
  | .wrote entities written => ∃ done, Holds w i f done done.contexts ∧ entities = f.entities
      ∧ Names w i written
  | .threw _ => Nothing w i
  | .bulkWriteError _ written entities => ∃ done,
      Holds w i f done (fun context =>
        if context ∈ written.contexts then done.contexts context else [])
      ∧ entities = f.entities ∧ Names w i written

/-- The contexts that remain, and those written before them. -/
def Remaining (done : Done Number) (rest : List (String × List (Event Number)))
    (written : List String)
    : Prop :=
  ∃ (byContext : Js.Dict String (List (Event Number)))
      (front : List (String × List (Event Number))),
    (∀ context, done.contexts context = (byContext.get? context).getD [])
    ∧ (∀ context events, byContext.get? context = some events → events ≠ [])
    ∧ byContext.entries = front ++ rest ∧ written = front.map Prod.fst

/-- What is so of a flush, by where it is. -/
def At (w : World Number) (i : Nat) (f : Flush Number) : Prop :=
  match f.point with
  | .waiting => Nothing w i ∧ ∃ created, validate f.graph f.ops = .ok created
  | .appending built => Nothing w i ∧ (∃ created, validate f.graph f.ops = .ok created)
      ∧ w.lock.head? = some i ∧ build f.graph f.stamp w.core.length f.ops = .ok built
      ∧ f.ids = built.ids
  | .relating rest written => ∃ done, Remaining done rest written
      ∧ Holds w i f done (fun context => if context ∈ written then done.contexts context else [])
  | .adding context left rest written => ∃ done sent,
      Remaining done ((context, sent ++ left) :: rest) written
      ∧ Holds w i f done (fun other => if other ∈ written then done.contexts other
          else if other = context then sent else [])
  | .indexing written => ∃ done, Remaining done [] written
      ∧ Holds w i f done (fun context => if context ∈ written then done.contexts context else [])
  | .done outcome => Told w i f outcome

/-- What is so of all writes. -/
structure Inv (w : World Number) : Prop where
  fresh : ∀ i, w.tasks i = none → Nothing w i
  write : ∀ i event, w.tasks i = some (.write event .appending) → w.lock.head? = some i
  flush : ∀ i f, w.tasks i = some (.flush f) → At w i f

-- What others do

/-- Logs only have events of others added. -/
structure Grown (i : Nat) (w w' : World Number) : Prop where
  core : ∃ new, w'.core = w.core ++ new ∧ eventsOf i new = []
  contexts : ∀ context, ∃ new, w'.contexts context = w.contexts context ++ new ∧ eventsOf i new = []

/-- Nothing is done to a write: its task is as it was, and while it holds the lock it keeps it and the
user core stays as it is.
-/
structure Beside (i : Nat) (w w' : World Number) : Prop extends Grown i w w' where
  tasks : w'.tasks i = w.tasks i
  lock : w.lock.head? = some i → w'.lock.head? = some i ∧ w'.core = w.core

theorem Grown.of_same (core : w'.core = w.core) (contexts : w'.contexts = w.contexts)
    : Grown i w w' :=
  ⟨⟨[], by rw [core, List.append_nil], rfl⟩, fun _ => ⟨[], by rw [contexts, List.append_nil], rfl⟩⟩

theorem Grown.eventsOf_core (grown : Grown i w w') : eventsOf i w'.core = eventsOf i w.core := by
  obtain ⟨new, is, none_⟩ := grown.core
  rw [is, eventsOf_append, none_, List.append_nil]

theorem Grown.eventsOf_contexts (grown : Grown i w w')
    : eventsOf i (w'.contexts context) = eventsOf i (w.contexts context) := by
  obtain ⟨new, is, none_⟩ := grown.contexts context
  rw [is, eventsOf_append, none_, List.append_nil]

theorem Names.grown {written : Written} (names : Names w i written) (grown : Grown i w w')
    : Names w' i written :=
  ⟨grown.eventsOf_core ▸ names.1, fun _ => grown.eventsOf_contexts ▸ names.2 _⟩

theorem Nothing.grown (nothing : Nothing w i) (grown : Grown i w w') : Nothing w' i := by
  exact ⟨grown.eventsOf_core.trans nothing.1, fun _ => grown.eventsOf_contexts.trans (nothing.2 _)⟩

theorem Holds.grown (holds : Holds w i f done now) (grown : Grown i w w')
    : Holds w' i f done now := by
  obtain ⟨new, core, none_⟩ := grown.core
  refine ⟨?_, holds.ids, fun p type is => ?_, fun context => ?_⟩
  · obtain ⟨before, events, after, is, first, last, rest⟩ := holds.core
    refine ⟨before, events, after ++ new, ?_, first, ?_, rest⟩
    · rw [core, is, List.append_assoc]
    · rw [eventsOf_append, last, none_, List.nil_append]
  · obtain ⟨seq, id, there⟩ := holds.refs p type is
    refine ⟨seq, id, ?_⟩
    rw [core, List.getElem?_append_left (List.getElem?_eq_some_iff.mp there).1, there]
  · exact grown.eventsOf_contexts.trans (holds.contexts context)

/-- By where the flush is: only at its append does it matter that no other has the lock. -/
theorem At.grown (at_ : At w i f) (grown : Grown i w w')
    (lock : ∀ built, f.point = .appending built
      → w.lock.head? = some i → w'.lock.head? = some i ∧ w'.core = w.core)
    : At w' i f := by
  unfold At at at_ ⊢
  split at at_
  · exact ⟨at_.1.grown grown, at_.2⟩
  · rename_i built point
    obtain ⟨nothing, checked, head, is, ids⟩ := at_
    obtain ⟨head', same⟩ := lock built point head
    exact ⟨nothing.grown grown, checked, head', same ▸ is, ids⟩
  · obtain ⟨done, remaining, holds⟩ := at_
    exact ⟨done, remaining, holds.grown grown⟩
  · obtain ⟨done, sent, remaining, holds⟩ := at_
    exact ⟨done, sent, remaining, holds.grown grown⟩
  · obtain ⟨done, remaining, holds⟩ := at_
    exact ⟨done, remaining, holds.grown grown⟩
  · rename_i outcome _
    cases outcome with
    | wrote =>
        obtain ⟨done, holds, entities, names⟩ := at_
        exact ⟨done, holds.grown grown, entities, names.grown grown⟩
    | threw => exact Nothing.grown at_ grown
    | bulkWriteError =>
        obtain ⟨done, holds, entities, names⟩ := at_
        exact ⟨done, holds.grown grown, entities, names.grown grown⟩

theorem Beside.trans {w'' : World Number} (first : Beside i w w') (next : Beside i w' w'')
    : Beside i w w'' := by
  refine ⟨⟨?_, fun context => ?_⟩, next.tasks.trans first.tasks, fun head => ?_⟩
  · obtain ⟨new, is, none_⟩ := first.core
    obtain ⟨new', is', none_'⟩ := next.core
    exact ⟨new ++ new', by rw [is', is, List.append_assoc],
      by rw [eventsOf_append, none_, none_', List.nil_append]⟩
  · obtain ⟨new, is, none_⟩ := first.contexts context
    obtain ⟨new', is', none_'⟩ := next.contexts context
    exact ⟨new ++ new', by rw [is', is, List.append_assoc],
      by rw [eventsOf_append, none_, none_', List.nil_append]⟩
  · obtain ⟨head, same⟩ := first.lock head
    obtain ⟨head, same'⟩ := next.lock head
    exact ⟨head, same'.trans same⟩

section Parts

variable {task : Task Number} {point : Point Number} (ne : i ≠ j)

include ne

theorem beside_setTask : Beside i w (w.setTask j task) :=
  ⟨.of_same rfl rfl, Function.update_of_ne ne _ _, fun head => ⟨head, rfl⟩⟩

theorem beside_goTo : Beside i w (w.goTo j f point) := beside_setTask ne

omit ne in
theorem beside_wait : Beside i w { w with lock := w.lock ++ [j] } := by
  refine ⟨.of_same rfl rfl, rfl, fun head => ⟨?_, rfl⟩⟩
  rw [List.head?_append, head]
  rfl

theorem beside_release (head : w.lock.head? = some j) : Beside i w w.release :=
  ⟨.of_same rfl rfl, rfl,
    fun held => absurd (Option.some.inj (held.symm.trans head)) ne⟩

theorem beside_appendCore (head : w.lock.head? = some j) : Beside i w (w.appendCore j events) :=
  ⟨⟨⟨_, rfl, eventsOf_map_of_ne fun same => ne (Option.some.inj same).symm⟩,
      fun _ => ⟨[], (List.append_nil _).symm, rfl⟩⟩, rfl,
    fun held => absurd (Option.some.inj (held.symm.trans head)) ne⟩

end Parts

theorem contexts_appendContext {other : String}
    : (w.appendContext context owner events).contexts other
      = if other = context then w.contexts context ++ events.map (⟨owner, ·⟩)
        else w.contexts other := by
  unfold World.appendContext
  by_cases same : other = context
  · simp [same]
  · simp [same]

theorem beside_appendContext (ne : owner ≠ some i)
    : Beside i w (w.appendContext context owner events) := by
  refine ⟨⟨⟨[], (List.append_nil _).symm, rfl⟩, fun other => ?_⟩, rfl, fun head => ⟨head, rfl⟩⟩
  rw [contexts_appendContext]
  split
  · rename_i same
    exact ⟨_, by rw [same], eventsOf_map_of_ne ne⟩
  · exact ⟨[], (List.append_nil _).symm, rfl⟩

/-- One write is seen to; of the others nothing changes. -/
theorem Inv.of_beside (inv : Inv w) (others : ∀ i, i ≠ j → Beside i w w')
    (fresh : w'.tasks j = none → Nothing w' j)
    (write : ∀ event, w'.tasks j = some (.write event .appending) → w'.lock.head? = some j)
    (flush : ∀ f, w'.tasks j = some (.flush f) → At w' j f)
    : Inv w' := by
  refine ⟨fun i => ?_, fun i => ?_, fun i => ?_⟩ <;> by_cases here : i = j
  · exact here ▸ fresh
  · intro is
    exact (inv.fresh i ((others i here).tasks ▸ is)).grown (others i here).toGrown
  · exact here ▸ write
  · intro event is
    exact ((others i here).lock (inv.write i event ((others i here).tasks ▸ is))).1
  · exact here ▸ flush
  · intro f is
    exact (inv.flush i f ((others i here).tasks ▸ is)).grown (others i here).toGrown
      fun _ _ => (others i here).lock

-- What a flush does

/-- The next context is not written yet, and has events. -/
theorem Remaining.head {rest : List (String × List (Event Number))} {written : List String}
    (remaining : Remaining done ((context, events) :: rest) written)
    : context ∉ written ∧ done.contexts context = events
      ∧ Remaining done rest (written ++ [context]) := by
  obtain ⟨byContext, front, contexts, some_, entries, rfl⟩ := remaining
  have unique := byContext.unique
  have found : byContext.get? context = some events :=
    Js.Dict.lookup_of_mem unique (by rw [entries]; simp)
  refine ⟨?_, by rw [contexts, found]; rfl, byContext, front ++ [(context, events)], contexts, some_,
    by rw [entries, List.append_assoc]; rfl, by simp⟩
  rw [entries, List.map_append, List.map_cons] at unique
  intro mem
  exact (List.nodup_append.mp unique).2.2 _ mem _ (.head _) rfl

theorem Remaining.written {rest : List (String × List (Event Number))} {written : List String}
    (remaining : Remaining done rest written) (mem : context ∈ written)
    : done.contexts context ≠ [] := by
  obtain ⟨byContext, front, contexts, some_, entries, rfl⟩ := remaining
  obtain ⟨⟨context, events⟩, there, rfl⟩ := List.mem_map.mp mem
  have found : byContext.get? context = some events :=
    Js.Dict.lookup_of_mem byContext.unique (by rw [entries]; exact List.mem_append_left _ there)
  rw [contexts, found]
  exact some_ _ _ found

theorem Remaining.none_left {written : List String} (remaining : Remaining done [] written)
    : context ∈ written ↔ done.contexts context ≠ [] := by
  refine ⟨remaining.written, fun some_ => ?_⟩
  obtain ⟨byContext, front, contexts, _, entries, rfl⟩ := remaining
  by_contra other
  rw [List.append_nil] at entries
  have none_ : byContext.get? context = none := by
    rw [← Option.not_isSome_iff_eq_none, Js.Dict.get?, ← Js.Dict.mem_keys_lookup, entries]
    exact other
  rw [contexts, none_] at some_
  exact some_ rfl

theorem Holds.inCore (holds : Holds w i f done now) : f.inCore ↔ eventsOf i w.core ≠ [] := by
  obtain ⟨before, events, after, is, first, last, _, _, some_⟩ := holds.core
  rw [is, eventsOf_append, eventsOf_append, eventsOf_map, first, last, List.nil_append,
    List.append_nil, some_]

theorem Holds.nothing (holds : Holds w i f done fun _ => []) (none_ : f.inCore = false)
    : Nothing w i := by
  refine ⟨?_, holds.contexts⟩
  by_contra some_
  rw [holds.inCore.mpr some_] at none_
  cases none_

theorem Holds.congr {now' : String → List (Event Number)} (holds : Holds w i f done now)
    (same : ∀ context, now context = now' context)
    : Holds w i f done now' :=
  funext same ▸ holds

theorem Holds.goTo {point : Point Number} (holds : Holds w i f done now)
    : Holds w i { f with point } done now :=
  ⟨holds.core, holds.ids, holds.refs, holds.contexts⟩

/-- On to what remains. -/
theorem at_next {rest : List (String × List (Event Number))} {written : List String}
    (remaining : Remaining done rest written)
    (holds : Holds w i f done fun context =>
      if context ∈ written then done.contexts context else [])
    : At w i { f with point := Flush.next rest written } := by
  cases rest with
  | nil => exact ⟨done, remaining, holds.goTo⟩
  | cons => exact ⟨done, remaining, holds.goTo⟩

/-- A context that couldn't be written, where it has nothing of the batch. -/
theorem at_fails {rest : List (String × List (Event Number))} {written : List String}
    {message : String} (remaining : Remaining done rest written)
    (holds : Holds w i f done fun context =>
      if context ∈ written then done.contexts context else [])
    : At w i { f with point := f.fails context message written } := by
  change Told w i _ _
  split
  · rename_i none_
    obtain ⟨inCore, rfl⟩ := none_
    exact Holds.nothing (holds.congr fun _ => if_neg List.not_mem_nil) inCore
  · refine ⟨done, holds.goTo, rfl, holds.inCore, fun context => ?_⟩
    rw [holds.contexts]
    split
    · rename_i mem
      exact ⟨fun _ => remaining.written mem, fun _ => mem⟩
    · rename_i other
      exact ⟨fun mem => absurd mem other, fun some_ => absurd rfl some_⟩

/-- A piece more in a context. -/
theorem Holds.appendContext (holds : Holds w i f done now)
    : Holds (w.appendContext context (some i) events) i f done fun other =>
        if other = context then now context ++ events else now other := by
  refine ⟨holds.core, holds.ids, holds.refs, fun other => ?_⟩
  rw [contexts_appendContext]
  split
  · rw [eventsOf_append, eventsOf_map, holds.contexts]
  · exact holds.contexts other

variable {point : Point Number}

theorem At.goTo (at_ : At w i { f with point }) : At (w.goTo i f point) i { f with point } :=
  at_.grown (.of_same rfl rfl) fun _ _ head => ⟨head, rfl⟩

theorem At.release (at_ : At w i f) (past : ∀ built, f.point ≠ .appending built)
    : At w.release i f :=
  at_.grown (.of_same rfl rfl) fun built here => absurd here (past built)

theorem tasks_goTo : (w.goTo i f point).tasks i = some (.flush { f with point }) :=
  Function.update_self ..

theorem Inv.of_flush (inv : Inv w) (others : ∀ j, j ≠ i → Beside j w w')
    (task : w'.tasks i = some (.flush f)) (at_ : At w' i f)
    : Inv w' := by
  refine inv.of_beside others ?_ ?_ ?_
  · intro none_
    rw [task] at none_
    cases none_
  · intro event is
    rw [task] at is
    cases is
  · intro f' is
    rw [task] at is
    cases is
    exact at_

/-- Another write of the user core is seen to. -/
theorem Inv.of_write (inv : Inv w) (others : ∀ j, j ≠ i → Beside j w w') {event : Event Number}
    {at_ : WritePoint} (task : w'.tasks i = some (.write event at_))
    (lock : at_ = .appending → w'.lock.head? = some i)
    : Inv w' := by
  refine inv.of_beside others ?_ ?_ ?_
  · intro none_
    rw [task] at none_
    cases none_
  · intro event' is
    rw [task] at is
    cases is
    exact lock rfl
  · intro f is
    rw [task] at is
    cases is

/-- A context is written whole. -/
theorem Holds.writeContext {rest : List (String × List (Event Number))} {written : List String}
    (remaining : Remaining done ((context, events) :: rest) written)
    (holds : Holds w i f done fun context =>
      if context ∈ written then done.contexts context else [])
    : Holds (w.appendContext context (some i) events) i f done fun other =>
        if other ∈ written ++ [context] then done.contexts other else [] := by
  obtain ⟨new, same, _⟩ := remaining.head
  refine holds.appendContext.congr fun other => ?_
  by_cases here : other = context
  · subst here
    simp [new, same]
  · simp [here]

/-- What a context must not do: throw with events of the batch written, but not told. -/
def Whole (w : World Number) : Action Number → Prop
  | .context i writable answer => ∀ f, w.tasks i = some (.flush f) →
      match f.point with
      | .relating _ _ => writable → ∀ message, answer ≠ .late message
      | .adding context (_ :: _) _ _ => (∀ message, answer ≠ .late message)
          ∧ ∀ message, answer = .failed message → eventsOf i (w.contexts context) = []
      | _ => True
  | .index i failed => ∀ f written, w.tasks i = some (.flush f) → f.point = .indexing written
      → failed.isSome → f.inCore = false ∧ written = []
  | _ => True

theorem Inv.writeContext (inv : Inv w) {writable : Bool} {answer : Answer}
    (is : w.tasks i = some (.flush f)) (whole : Whole w (.context i writable answer))
    (next : w.writeContext i f writable answer = some w')
    : Inv w' := by
  have at_ := inv.flush i f is
  have whole := whole f is
  have besides {events : List (Event Number)} {context : String} {point : Point Number} (j : Nat)
      (ne : j ≠ i)
      : Beside j w ((w.appendContext context (some i) events).goTo i f point) :=
    (beside_appendContext fun same => ne (Option.some.inj same).symm).trans (beside_goTo ne)
  unfold World.writeContext at next
  unfold At at at_
  split at next
  · rename_i context events rest written point
    rw [point] at at_ whole
    obtain ⟨done, remaining, holds⟩ := at_
    split at next
    · rename_i writes
      split at next <;> cases next
      · exact inv.of_flush besides tasks_goTo
          (at_next remaining.head.2.2 (holds.writeContext remaining)).goTo
      · exact inv.of_flush (fun _ ne => beside_goTo ne) tasks_goTo (at_fails remaining holds).goTo
      · exact absurd rfl (whole writes _)
    · cases next
      refine inv.of_flush (fun _ ne => beside_goTo ne) tasks_goTo (At.goTo ?_)
      refine ⟨done, [], remaining, holds.goTo.congr fun other => ?_⟩
      split
      · rfl
      · exact (ite_self _).symm
  · rename_i context rest written point
    rw [point] at at_
    obtain ⟨done, sent, remaining, holds⟩ := at_
    cases next
    rw [List.append_nil] at remaining
    obtain ⟨new, same, remaining⟩ := remaining.head
    refine inv.of_flush (fun _ ne => beside_goTo ne) tasks_goTo (at_next remaining ?_).goTo
    refine holds.congr fun other => ?_
    by_cases here : other = context
    · subst here
      simp [new, same]
    · simp [here]
  · rename_i context event left rest written point
    rw [point] at at_ whole
    obtain ⟨done, sent, remaining, holds⟩ := at_
    obtain ⟨new, _, _⟩ := remaining.head
    split at next <;> cases next
    · refine inv.of_flush besides tasks_goTo (At.goTo ?_)
      refine ⟨done, sent ++ [event], by rwa [List.append_assoc], holds.appendContext.goTo.congr ?_⟩
      intro other
      by_cases here : other = context
      · subst here
        simp [new]
      · simp [here]
    · have none_ := whole.2 _ rfl
      rw [holds.contexts, if_neg new, if_pos rfl] at none_
      subst none_
      refine inv.of_flush (fun _ ne => beside_goTo ne) tasks_goTo (at_fails remaining ?_).goTo
      refine holds.congr fun other => ?_
      split
      · rfl
      · exact ite_self _
    · exact absurd rfl (whole.1 _)
  · cases next

/-- A batch with nothing for the user core gives no ref an id. -/
theorem build_relations {g : Graph Number} {stamp : Nat → Stamp} {ops : List (Op Number)}
    {length : Nat} {built : Built Number} (made : build g stamp length ops = .ok built)
    (none_ : ops.any Op.inCore = false)
    : built = ⟨[], fun _ => none⟩ := by
  induction ops using List.reverseRecOn generalizing built with
  | nil =>
      cases made
      rfl
  | append_singleton ops op ih =>
      rw [build, foldlM_concat, ← build, bind_eq_ok] at made
      obtain ⟨before, made, madeOne⟩ := made
      rw [List.any_append, Bool.or_eq_false_iff] at none_
      cases op with
      | put | content => simp [Op.inCore] at none_
      | relate =>
          cases madeOne
          exact ih made none_.1

/-- The batch's events once they are in the user core, at the place its ids were made for. -/
theorem at_relate {created : List Nat} {before after : List (Entry Number)} {built : Built Number}
    (checked : validate f.graph f.ops = .ok created)
    (made : build f.graph f.stamp before.length f.ops = .ok built) (ids : f.ids = built.ids)
    (core : w.core = before ++ built.events.map (⟨some i, ·⟩) ++ after)
    (first : eventsOf i before = []) (last : eventsOf i after = [])
    (contexts : ∀ context, eventsOf i (w.contexts context) = [])
    : At w i { f with point := f.relate } := by
  obtain ⟨built', byContext, done, (made' : build f.graph f.stamp _ _ = _), relations, single, same,
      ids', contexts'⟩ :=
    writes_alike (before.map Entry.event) checked
  rw [List.length_map, made] at made'
  cases made'
  obtain ⟨some_, places⟩ := build_places made
  have holds : Holds w i f done fun _ => [] := by
    refine ⟨⟨before, built.events, after, core, first, last, single, same, some_⟩,
      ids.trans ids'.symm, fun p type is => ?_, contexts⟩
    obtain ⟨k, id, there⟩ := places p type is
    refine ⟨before.length + k, ids ▸ id, ?_⟩
    rw [core, List.append_assoc, List.getElem?_append_right (Nat.le_add_right _ _),
      Nat.add_sub_cancel_left, List.getElem?_append_left, List.getElem?_map, there]
    · rfl
    · rw [List.length_map]
      exact (List.getElem?_eq_some_iff.mp there).1
  have point : f.relate = Flush.next byContext.entries [] := by rw [Flush.relate, ids, relations]
  rw [point]
  refine at_next ?_ (holds.congr fun _ => (if_neg List.not_mem_nil).symm)
  exact ⟨byContext, [], contexts', fun _ _ is => relations_ne_nil relations is, rfl, rfl⟩

theorem relate_ne_appending (built : Built Number) : f.relate ≠ .appending built := by
  unfold Flush.relate
  split
  · unfold Flush.next
    split <;> exact fun same => by cases same
  · exact fun same => by cases same

theorem Inv.append (inv : Inv w) {failed : Option String}
    (next : w.step (.append i failed) = some w')
    : Inv w' := by
  simp only [World.step] at next
  split at next
  · rename_i event is
    have head := inv.write i event is
    cases failed <;> cases next
    · exact inv.of_write (fun _ ne => ((beside_appendCore ne head).trans (beside_setTask ne)).trans
        (beside_release ne head)) (Function.update_self ..) fun same => by cases same
    · exact inv.of_write (fun _ ne => (beside_setTask ne).trans (beside_release ne head))
        (Function.update_self ..) fun same => by cases same
  · rename_i f is
    split at next
    · rename_i built point
      have at_ := inv.flush i f is
      unfold At at at_
      rw [point] at at_
      obtain ⟨nothing, ⟨created, checked⟩, head, made, ids⟩ := at_
      cases failed <;> cases next
      · have at_ : At (w.appendCore i built.events) i { f with point := f.relate } :=
          at_relate checked made ids (List.append_nil _).symm nothing.1 rfl nothing.2
        exact inv.of_flush (fun _ ne => ((beside_appendCore ne head).trans (beside_goTo ne)).trans
          (beside_release ne head)) (Function.update_self ..) (at_.goTo.release relate_ne_appending)
      · exact inv.of_flush (fun _ ne => (beside_goTo ne).trans (beside_release ne head))
          (Function.update_self ..) ⟨nothing.1, nothing.2⟩
    · cases next
  · cases next

theorem Inv.take (inv : Inv w) (next : w.step (.take i) = some w') : Inv w' := by
  obtain ⟨head, next⟩ := Option.ite_none_right_eq_some.mp next
  split at next
  · cases next
    exact inv.of_write (fun _ ne => beside_setTask ne) (Function.update_self ..) fun _ => head
  · rename_i f is
    split at next
    · rename_i point
      have at_ := inv.flush i f is
      unfold At at at_
      rw [point] at at_
      obtain ⟨nothing, checked⟩ := at_
      split at next <;> cases next
      · rename_i built made
        exact inv.of_flush (fun _ ne => beside_goTo ne) tasks_goTo
          ⟨⟨nothing.1, nothing.2⟩, checked, head, made, rfl⟩
      · exact inv.of_flush (fun _ ne => (beside_goTo ne).trans (beside_release ne head))
          (Function.update_self ..) ⟨nothing.1, nothing.2⟩
    · cases next
  · cases next

theorem Inv.start (inv : Inv w) {graph : Graph Number} {stamp : Nat → Stamp} {ops : List (Op Number)}
    (next : w.step (.flush i graph stamp ops) = some w')
    : Inv w' := by
  obtain ⟨new, next⟩ := Option.ite_none_left_eq_some.mp next
  have nothing := inv.fresh i (Option.not_isSome_iff_eq_none.mp new)
  split at next
  · cases next
    exact inv.of_flush (fun _ ne => beside_goTo ne) tasks_goTo ⟨nothing.1, nothing.2⟩
  · rename_i created checked
    split at next <;> cases next
    · exact inv.of_flush (fun _ ne => (beside_goTo ne).trans beside_wait) tasks_goTo
        ⟨⟨nothing.1, nothing.2⟩, created, checked⟩
    · rename_i none_
      obtain ⟨built, _, _, (made : build graph stamp _ ops = _), _⟩ :=
        writes_alike (w.core.map Entry.event) checked
      rw [List.length_map] at made
      obtain rfl := build_relations made (Bool.not_eq_true _ ▸ none_)
      have core : w.core = w.core ++ ([] : List (Event Number)).map (⟨some i, ·⟩) ++ [] := by simp
      exact inv.of_flush (fun _ ne => beside_goTo ne) tasks_goTo
        (at_relate checked made rfl core nothing.1 rfl nothing.2).goTo

theorem Inv.index (inv : Inv w) {failed : Option String} (whole : Whole w (.index i failed))
    (next : w.step (.index i failed) = some w')
    : Inv w' := by
  simp only [World.step] at next
  split at next
  · rename_i f is
    split at next
    · rename_i written point
      cases next
      have at_ := inv.flush i f is
      unfold At at at_
      rw [point] at at_
      obtain ⟨done, remaining, holds⟩ := at_
      refine inv.of_flush (fun _ ne => beside_goTo ne) tasks_goTo (At.goTo ?_)
      cases failed with
      | none =>
          have whole : Holds w i f done done.contexts := by
            refine holds.congr fun context => ?_
            split
            · rfl
            · rename_i other
              exact (not_not.mp (mt remaining.none_left.mpr other)).symm
          exact ⟨done, whole.goTo, rfl, holds.inCore,
            fun context => whole.contexts context ▸ remaining.none_left⟩
      | some message =>
          obtain ⟨none_, rfl⟩ := whole f written is point rfl
          exact Holds.nothing (holds.congr fun _ => if_neg List.not_mem_nil) none_
    · cases next
  · cases next

/-- One thing happens. -/
theorem Inv.step (inv : Inv w) {action : Action Number} (whole : Whole w action)
    (next : w.step action = some w')
    : Inv w' := by
  cases action with
  | write i event =>
      obtain ⟨new, next⟩ := Option.ite_none_left_eq_some.mp next
      cases next
      exact inv.of_write (fun _ ne => (beside_setTask ne).trans beside_wait)
        (Function.update_self ..) fun same => by cases same
  | flush => exact inv.start next
  | take => exact inv.take next
  | append => exact inv.append next
  | context i writable answer =>
      simp only [World.step] at next
      split at next
      · rename_i f is
        exact inv.writeContext is whole next
      · cases next
  | index => exact inv.index whole next
  | other context event =>
      cases next
      have beside (i : Nat) : Beside i w (w.appendContext context none [event]) :=
        beside_appendContext nofun
      exact ⟨fun i is => (inv.fresh i is).grown (beside i).toGrown,
        fun i event is => ((beside i).lock (inv.write i event is)).1,
        fun i f is => (inv.flush i f is).grown (beside i).toGrown fun _ _ => (beside i).lock⟩

-- Runs

/-- Logs with nothing in flight. -/
def World.opened (core : List (Event Number)) (contexts : String → List (Event Number))
    : World Number :=
  { core := core.map (⟨none, ·⟩), lock := [],
    contexts := fun context => (contexts context).map (⟨none, ·⟩), tasks := fun _ => none }

theorem inv_opened {core : List (Event Number)} {contexts : String → List (Event Number)}
    : Inv (World.opened core contexts) :=
  ⟨fun _ _ => ⟨eventsOf_map_of_ne nofun, fun _ => eventsOf_map_of_ne nofun⟩, nofun, nofun⟩

/-- Whatever is in flight, where no context fails with events of a batch written that aren't told, and
the view doesn't fail after a write: what each flush tells at its end is so.
-/
theorem flush_told {core : List (Event Number)} {contexts : String → List (Event Number)}
    {actions : List (Action Number)}
    (whole : Runs.AsFar World.step Whole (World.opened core contexts) actions)
    (ran : actions.foldlM World.step (World.opened core contexts) = some w) {outcome : Outcome}
    (is : w.tasks i = some (.flush f)) (ended : f.point = .done outcome)
    : Told w i f outcome := by
  have inv : Inv w :=
    Runs.AsFar.keeps Inv (fun _ _ _ inv whole next => inv.step whole next) inv_opened whole ran
  have at_ := inv.flush i f is
  unfold At at at_
  rwa [ended] at at_

end Logs

/-- A graph whose user core can be written. -/
def listGraph : Graph Nat where
  author := "a"
  writable := true
  device := "d"
  node := fun _ => false
  scopeKey := fun _ => .error "No ScopeBase attached — cannot encrypt content"
  context := fun _ => .ok ()
  encrypt := fun _ content _ => content
  sign := fun _ context _ => context

/-- A post with its content, related to itself, while another write has the lock. -/
def posting : List (Action Nat) :=
  [.write 0 ⟨some 1, .entityTombstone "" "a"⟩, .take 0,
    .flush 1 listGraph (fun _ => ⟨2, ""⟩)
      [.put "post", .content (.ref 0) "hi" "text" none,
        .relate (.ref 0) (.ref 0) "is" none none "c"],
    .append 0 none, .take 1, .append 1 none, .context 1 true .ok, .index 1 none]

theorem flush_told_posting
    : ∃ w f, posting.foldlM World.step (World.opened [] fun _ => []) = some w
        ∧ w.tasks 1 = some (.flush f) ∧ f.point = .done (.wrote [("post/a/1", "post")] ⟨true, ["c"]⟩)
        ∧ Told w 1 f (.wrote [("post/a/1", "post")] ⟨true, ["c"]⟩) := by
  have whole : Runs.AsFar World.step Whole (World.opened [] fun _ => []) posting := by
    refine ⟨trivial, fun w is => ?_⟩
    cases is
    refine ⟨trivial, fun w is => ?_⟩
    cases is
    refine ⟨trivial, fun w is => ?_⟩
    cases is
    refine ⟨trivial, fun w is => ?_⟩
    cases is
    refine ⟨trivial, fun w is => ?_⟩
    cases is
    refine ⟨trivial, fun w is => ?_⟩
    cases is
    refine ⟨fun f is => ?_, fun w is => ?_⟩
    · cases is
      exact fun _ message same => by cases same
    cases is
    exact ⟨fun _ _ _ _ failed => (by cases failed), fun _ _ => trivial⟩
  obtain ⟨w, f, ran, is, ended⟩ : ∃ w f,
      posting.foldlM World.step (World.opened [] fun _ => []) = some w
        ∧ w.tasks 1 = some (.flush f)
        ∧ f.point = .done (.wrote [("post/a/1", "post")] ⟨true, ["c"]⟩) := ⟨_, _, rfl, rfl, rfl⟩
  exact ⟨w, f, ran, is, ended, flush_told whole ran is ended⟩

/-- Two relations of a context that this device is no writer of yet: the second append fails. -/
def halfway : List (Action Nat) :=
  [.flush 0 listGraph (fun _ => ⟨1, ""⟩)
      [.relate (.entity "x") (.entity "y") "is" none none "c",
        .relate (.entity "y") (.entity "x") "is" none none "c"],
    .context 0 false .ok, .context 0 false .ok, .context 0 false (.failed "offline")]

/-- The first relation is in the context, and the flush throws its plain error. -/
theorem flush_halfway
    : ¬ ∀ (actions : List (Action Nat)) (w : World Nat) (i : Nat) (f : Flush Nat)
        (outcome : Outcome), actions.foldlM World.step (World.opened [] fun _ => []) = some w
          → w.tasks i = some (.flush f) → f.point = .done outcome → Told w i f outcome := by
  intro claim
  obtain ⟨w, f, ran, is, ended, some_⟩ : ∃ w f,
      halfway.foldlM World.step (World.opened [] fun _ => []) = some w
        ∧ w.tasks 0 = some (.flush f) ∧ f.point = .done (.threw "offline")
        ∧ (eventsOf 0 (w.contexts "c")).length = 1 := ⟨_, _, rfl, rfl, rfl, rfl⟩
  have none_ : Nothing w 0 := claim _ w 0 f _ ran is ended
  rw [none_.2] at some_
  cases some_

end Bulk

end Hypergraph.Engine
