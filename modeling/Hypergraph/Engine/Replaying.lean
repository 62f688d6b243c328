import Hypergraph.Lib.Runs
import Hypergraph.Engine.Contexts
import Hypergraph.Engine.CountsApart

/-! A context's view doesn't depend on when it is applied, nor on how its nodes are split into calls and
chunks: but for moderation, which a peer's clock decides, and in the first layout for counters whose
texts have colons.
-/

namespace Hypergraph.Engine

open Wire Js Layouts Events

variable {W Db Number : Type} {peer : ContextPeer W Number} {layout : IndexLayout Db Number}
  {sound : Db → Prop} {may : Counter → Prop}

-- Relations and tags

/-- May the counters of a relation's event be counted? -/
def Counting (may : Counter → Prop) (event : Event Number) : Prop :=
  match event.body with
  | .relationCreate source target type _ _ _ _ =>
      may ⟨.incoming, target, type⟩ ∧ may ⟨.outgoing, source, type⟩
  | .relationDelete source target type _ _ _ =>
      may ⟨.incoming, target, type⟩ ∧ may ⟨.outgoing, source, type⟩
  | _ => True

namespace Layouts.Applying

variable {s : Applying Db} {more : Nat} {event : Event Number}

theorem Room.less (room : Room layout sound may s (more + 1)) : Room layout sound may s more :=
  ⟨room.sound, room.may, fun direction entityId type => by
    have := room.counts direction entityId type
    omega⟩

section Apart

variable (apart : layout.Apart sound may)

include apart

theorem reader_flush (room : Room layout sound may s more)
    : (s.flush layout).reader layout = s.reader layout := by
  have answers := answers_flush apart room
  have count := count_flush apart room
  rw [reader, reader, count, answers]

theorem passesRules_flush (room : Room layout sound may s more)
    : (s.flush layout).passesRules peer layout event = s.passesRules peer layout event := by
  rw [passesRules, passesRules, reader_flush apart room]

theorem late_write (room : Room layout sound may s more) {write : Write Number} (other : write.Other)
    : ((s.flush layout).write layout write).flush layout = (s.write layout write).flush layout := by
  rw [flush_write apart (room.flush apart) other, flush_write apart room other, flush_flush]

/-- An event after a chunk's end is as if the chunk went on. -/
theorem late_applyData (room : Room layout sound may s more) (counting : Counting may event)
    : ((s.flush layout).applyData peer layout event).flush layout
      = (s.applyData peer layout event).flush layout := by
  have passes : (s.flush layout).passesRules peer layout event = s.passesRules peer layout event :=
    passesRules_flush apart room
  rw [applyData, applyData]
  obtain ⟨timestamp, body⟩ := event
  cases body with
  | relationCreate source target relationType author signature value data =>
      simp only [passes]
      split_ifs
      all_goals first | rfl | exact late_applyRelation apart room counting.1 counting.2
  | relationDelete source target relationType author createdAt signature =>
      simp only [passes]
      split_ifs
      all_goals first | rfl | exact late_moved apart counting.1 counting.2 room trivial
  | tag op entityId tag author signature =>
      simp only [passes]
      split_ifs
      all_goals first | rfl | (cases op <;> exact late_write apart room trivial)
  | _ => rfl

theorem Room.applyData (room : Room layout sound may s (more + 1)) (counting : Counting may event)
    : Room layout sound may (s.applyData peer layout event) more := by
  rw [Applying.applyData]
  obtain ⟨timestamp, body⟩ := event
  cases body with
  | relationCreate source target relationType author signature value data =>
      simp only
      split_ifs
      all_goals first | exact room.less | exact room.applyRelation apart counting.1 counting.2
  | relationDelete source target relationType author createdAt signature =>
      simp only
      split_ifs
      all_goals first
        | exact room.less
        | exact room.moved apart counting.1 counting.2 trivial (by decide)
  | tag op entityId tag author signature =>
      simp only
      split_ifs
      all_goals first
        | exact room.less
        | (cases op <;> exact room.less.write apart trivial)
  | _ => exact room.less

end Apart

end Layouts.Applying

-- Nodes and calls

namespace Context

variable {p : Primitives} {float64 : Codec Number} {s : Context W Db} {node : ContextNode}
  {now now' more : Nat}

/-- May the counters of a node's event be counted? -/
def Counts (peer : ContextPeer W Number) (p : Primitives) (float64 : Codec Number)
    (may : Counter → Prop) (node : ContextNode) : Prop :=
  ∀ event, asked peer p float64 node = .data event → Counting may event

section Apart

variable (apart : layout.Apart sound may)

include apart

/-- A node after a chunk's end is as if the chunk went on. -/
theorem late_apply (room : Applying.Room layout sound may s.index more)
    (counts : Counts peer p float64 may node)
    : ((s.settle layout).apply peer p float64 layout node now).settle layout
      = (s.apply peer p float64 layout node now).settle layout := by
  rw [apply, apply]
  cases is : asked peer p float64 node with
  | nothing => rfl
  | governance asked => rfl
  | moderation m =>
      have governance : (s.settle layout).governance = s.governance := rfl
      simp only [applyModeration, governance]
      split_ifs <;> rfl
  | message event text username author =>
      have passes : (s.index.flush layout).passesRules peer layout event
          = s.index.passesRules peer layout event :=
        Applying.passesRules_flush apart room
      have index : (s.settle layout).index = s.index.flush layout := rfl
      simp only [applyMessage, index, passes]
      split_ifs <;> rfl
  | data event =>
      exact congrArg (Context.mk s.governance · s.moderation s.messages)
        (Applying.late_applyData apart room (counts event is))

theorem room_apply (room : Applying.Room layout sound may s.index (more + 1))
    (counts : Counts peer p float64 may node)
    : Applying.Room layout sound may (s.apply peer p float64 layout node now).index more := by
  rw [apply]
  cases is : asked peer p float64 node with
  | nothing => exact room.less
  | governance asked => exact room.less
  | moderation m =>
      simp only [applyModeration]
      split_ifs <;> exact room.less
  | message event text username author =>
      simp only [applyMessage]
      split_ifs <;> exact room.less
  | data event => exact room.applyData apart (counts event is)

/-- Calls end with what their nodes make, one after the other. -/
theorem run_eq {given : List (Nat × List (ContextNode × Nat))} (settled : s.settle layout = s)
    (counts : ∀ input ∈ given.flatMap Prod.snd, Counts peer p float64 may input.1)
    (room : Applying.Room layout sound may s.index (given.flatMap Prod.snd).length)
    : s.run peer p float64 layout given
      = ((given.flatMap Prod.snd).foldl
          (fun s input => s.apply peer p float64 layout input.1 input.2) s).settle layout := by
  have ends : ((s.run peer p float64 layout given).settle layout)
      = ((Chunks.calls given).reduceOption.foldl
          (fun s input => s.apply peer p float64 layout input.1 input.2) s).settle layout := by
    refine @Chunks.settle_taken _ _ (fun s input => apply peer p float64 layout s input.1 input.2)
      (settle layout) (fun s more => Applying.Room layout sound may s.index more)
      (fun input : ContextNode × Nat => Counts peer p float64 may input.1) s ?_ ?_ ?_ ?_
      (Chunks.calls given) ?_ ?_
    · exact fun s input more fine room => room_apply apart room fine
    · exact fun s more room => room.flush apart
    · exact fun s input more fine room => late_apply apart room fine
    · exact fun s => rfl
    · rwa [Chunks.reduceOption_calls]
    · rwa [Chunks.reduceOption_calls]
  have idem : ∀ s : Context W Db, (s.settle layout).settle layout = s.settle layout := fun s => rfl
  rw [Chunks.reduceOption_calls] at ends
  exact (Chunks.settle_calls idem settled given).symm.trans ends

end Apart

-- Clocks

/-- What a node makes of the governance. -/
def governed (peer : ContextPeer W Number) (p : Primitives) (float64 : Codec Number) (g : Governance W)
    (node : ContextNode) : Governance W :=
  match asked peer p float64 node with
  | .governance asked => g.apply peer.toPeer asked
  | _ => g

theorem governance_apply
    : (s.apply peer p float64 layout node now).governance
      = governed peer p float64 s.governance node := by
  rw [apply, governed]
  cases asked peer p float64 node with
  | moderation m =>
      simp only [applyModeration]
      split_ifs <;> rfl
  | message event text username author =>
      simp only [applyMessage]
      split_ifs <;> rfl
  | _ => rfl

/-- Two clocks judge alike whether a node's moderation action, where everything else lets it through,
claims a time too far ahead.
-/
def JudgedAlike (peer : ContextPeer W Number) (p : Primitives) (float64 : Codec Number)
    (g : Governance W) (node : ContextNode) (now now' : Nat) : Prop :=
  ∀ m, asked peer p float64 node = .moderation m → m.wellFormed → m.signed peer
    → canIn g.roles m.author m.action → m.timely now = m.timely now'

/-- What a clock doesn't decide: everything but moderation. -/
def Unmoderated (s s' : Context W Db) : Prop :=
  s.governance = s'.governance ∧ s.index = s'.index ∧ s.messages = s'.messages

variable {s' : Context W Db}

theorem Unmoderated.apply (same : s.Unmoderated s')
    : (s.apply peer p float64 layout node now).Unmoderated
        (s'.apply peer p float64 layout node now') := by
  obtain ⟨governance, index, moderation, messages⟩ := s
  obtain ⟨governance', index', moderation', messages'⟩ := s'
  obtain ⟨rfl, rfl, rfl⟩ : governance = governance' ∧ index = index' ∧ messages = messages' := same
  rw [Context.apply, Context.apply]
  cases asked peer p float64 node with
  | moderation m =>
      simp only [applyModeration]
      split_ifs <;> exact ⟨rfl, rfl, rfl⟩
  | message event text username author =>
      simp only [applyMessage]
      split_ifs <;> exact ⟨rfl, rfl, rfl⟩
  | _ => exact ⟨rfl, rfl, rfl⟩

theorem apply_judgedAlike (alike : JudgedAlike peer p float64 s.governance node now now')
    : s.apply peer p float64 layout node now = s.apply peer p float64 layout node now' := by
  rw [apply, apply]
  cases is : asked peer p float64 node with
  | moderation m =>
      have judged := alike m is
      by_cases fine : m.wellFormed ∧ m.signed peer ∧ canIn s.governance.roles m.author m.action
      · obtain ⟨wellFormed, signed, can⟩ := fine
        have verifies : m.verifies peer now = m.verifies peer now' := by
          rw [ModerationAction.verifies, ModerationAction.verifies, judged wellFormed signed can]
        have same : s.applyModeration peer m node now = s.applyModeration peer m node now' := by
          rw [applyModeration, applyModeration, verifies]
        exact same
      · have none_ : ∀ now, s.applyModeration peer m node now = s := by
          intro now
          rw [applyModeration]
          split_ifs with verified can
          · simp only [ModerationAction.verifies, Bool.and_eq_true] at verified
            exact absurd ⟨verified.1.1, verified.2, can⟩ fine
          · rfl
          · rfl
        simp only [none_]
  | _ => rfl

-- Two peers

/-- A context with a view that a layout's writes made, at a chunk's end, and room for some more events
to be counted.
-/
structure Starts (layout : IndexLayout Db Number) (empty : Db) (s : Context W Db) (more : Nat)
    : Prop where
  made : ∃ writes : List (Write Number), s.index.view = writes.foldl layout.write empty
  settled : s.index.counts = .empty
  counts : ∀ direction entityId type, s.index.count layout direction entityId type + more
    ≤ maxSafeInteger

theorem Starts.room {empty : Db} (starts : s.Starts layout empty more) (apart : layout.Apart sound may)
    (fine : sound empty)
    : Applying.Room layout sound may s.index more where
  sound := by
    obtain ⟨writes, made⟩ := starts.made
    rw [made]
    exact Runs.keeps sound (fun db write => apart.keeps write) writes fine
  may := by
    rw [starts.settled]
    rintro entry ⟨⟩
  counts := starts.counts

theorem Starts.settled_settle {empty : Db} (starts : s.Starts layout empty more)
    : s.settle layout = s := by
  obtain ⟨governance, ⟨view, counts⟩, moderation, messages⟩ := s
  obtain rfl : counts = .empty := starts.settled
  rfl

-- Nodes, each with the clocks of two peers that apply it.
variable {nodes : List (ContextNode × Nat × Nat)} {given given' : List (Nat × List (ContextNode × Nat))}

theorem Unmoderated.foldl (same : s.Unmoderated s')
    : ((nodes.map fun n => (n.1, n.2.1)).foldl
          (fun s input => s.apply peer p float64 layout input.1 input.2) s).Unmoderated
        ((nodes.map fun n => (n.1, n.2.2)).foldl
          (fun s input => s.apply peer p float64 layout input.1 input.2) s') := by
  induction nodes generalizing s s' with
  | nil => exact same
  | cons n rest ih => exact ih same.apply

theorem foldl_judgedAlike
    (alike : Runs.Each (fun g (n : ContextNode × Nat × Nat) => governed peer p float64 g n.1)
      (fun g n => JudgedAlike peer p float64 g n.1 n.2.1 n.2.2) s.governance nodes)
    : (nodes.map fun n => (n.1, n.2.1)).foldl
          (fun s input => s.apply peer p float64 layout input.1 input.2) s
        = (nodes.map fun n => (n.1, n.2.2)).foldl
          (fun s input => s.apply peer p float64 layout input.1 input.2) s := by
  induction nodes generalizing s with
  | nil => rfl
  | cons n rest ih =>
      obtain ⟨here, later⟩ := alike
      have next : (s.apply peer p float64 layout n.1 n.2.2).governance
          = governed peer p float64 s.governance n.1 := governance_apply
      rw [List.map_cons, List.map_cons, List.foldl_cons, List.foldl_cons, apply_judgedAlike here]
      refine ih ?_
      rw [next]
      exact later

/-- Two peers that apply the same nodes, at any times and split in any way, end with the same, but for
moderation; with the same moderation too, if their clocks judge alike.
-/
theorem runs_alike {empty : Db} (apart : layout.Apart sound may) (fine : sound empty)
    (starts : s.Starts layout empty nodes.length)
    (counts : ∀ n ∈ nodes, Counts peer p float64 may n.1)
    (first : given.flatMap Prod.snd = nodes.map fun n => (n.1, n.2.1))
    (second : given'.flatMap Prod.snd = nodes.map fun n => (n.1, n.2.2))
    : (s.run peer p float64 layout given).Unmoderated (s.run peer p float64 layout given')
      ∧ (Runs.Each (fun g (n : ContextNode × Nat × Nat) => governed peer p float64 g n.1)
          (fun g n => JudgedAlike peer p float64 g n.1 n.2.1 n.2.2) s.governance nodes
        → s.run peer p float64 layout given = s.run peer p float64 layout given') := by
  have room := starts.room apart fine
  have here : s.run peer p float64 layout given
      = ((nodes.map fun n => (n.1, n.2.1)).foldl
          (fun s input => s.apply peer p float64 layout input.1 input.2) s).settle layout := by
    rw [← first]
    refine run_eq apart starts.settled_settle ?_ ?_
    · rw [first, List.forall_mem_map]
      exact counts
    · rwa [first, List.length_map]
  have there : s.run peer p float64 layout given'
      = ((nodes.map fun n => (n.1, n.2.2)).foldl
          (fun s input => s.apply peer p float64 layout input.1 input.2) s).settle layout := by
    rw [← second]
    refine run_eq apart starts.settled_settle ?_ ?_
    · rw [second, List.forall_mem_map]
      exact counts
    · rwa [second, List.length_map]
  rw [here, there]
  constructor
  · obtain ⟨governance, index, messages⟩ := @Unmoderated.foldl _ _ _ peer layout p float64 s s nodes
      ⟨rfl, rfl, rfl⟩
    exact ⟨governance, congrArg (Applying.flush layout) index, messages⟩
  · intro alike
    rw [foldl_judgedAlike alike]

-- A context

/-- A peer that takes every signature for one. -/
def trusting : ContextPeer (List (Key × Bool)) UInt64 where
  autobase := .inList
  verify _ _ _ := true
  contextKey := some "01"
  closed := true
  verifyData _ _ _ := true
  sha256 text := text
  rules := none
  refuses := false

/-- A context's start, with one member who owns it. -/
def ownedBy (owner : String) : Context (List (Key × Bool)) (Layout2.Db (List (List Nat))) where
  governance := .start owner [1] [([1], true)]
  index := { view := ∅ }

/-- A message, and a moderation action ten minutes ahead of 0. -/
def message : ContextNode where
  value := some (encodeEvent compact compactFloat64 ⟨some 5, .message "hi" "ann" "aa"⟩)
  from_ := [1]
  length := 1

def hides : ContextNode where
  value := some (encodeEvent compact compactFloat64
    ⟨some 600000, .moderationAction 1 "content.hide" "post" none none "aa" (some "01")⟩)
  from_ := [1]
  length := 2

end Context

-- What waits

namespace Upgraded

open Context

variable {p : Primitives} {float64 : Codec Number} {s : Upgraded W Db}
  {nodes : List (ContextNode × Nat × Nat)} {given given' : List ((Nat × List (ContextNode × Nat)) × RoleBase)}

/-- Nothing waits. -/
structure Idle (s : Upgraded W Db) : Prop where
  changes : s.changes = ∅
  reports : s.reports = ∅

/-- Where nothing waits, calls come to what their nodes do; induction on the calls. -/
theorem run_idle (idle : s.Idle)
    : s.run peer p float64 layout given
      = { s with toContext := s.toContext.run peer p float64 layout (given.map Prod.fst) } := by
  obtain ⟨context, changes, reports⟩ := s
  obtain ⟨rfl, rfl⟩ : changes = ∅ ∧ reports = ∅ := ⟨idle.changes, idle.reports⟩
  induction given generalizing context with
  | nil => rfl
  | cons call rest ih =>
      have next : applyView peer p float64 layout ⟨context, ∅, ∅⟩ call.2 call.1
          = ⟨context.run peer p float64 layout [call.1], ∅, ∅⟩ := by
        have none_ {α : Type} : (∅ : Table String α).toList = [] := rfl
        rw [applyView, drainPendingModeration, none_, List.foldl_nil, drainPendingWriterChanges, none_,
          List.foldl_nil]
      have split : context.run peer p float64 layout ((call :: rest).map Prod.fst)
          = (context.run peer p float64 layout [call.1]).run peer p float64 layout (rest.map Prod.fst) := by
        simp [Context.run, Chunks.calls]
      rw [run, List.foldl_cons, next, split]
      exact ih _ ⟨rfl, rfl⟩

/-- As of the nodes alone. -/
theorem runs_alike {sound : Db → Prop} {may : Counter → Prop} {empty : Db} (apart : layout.Apart sound may)
    (fine : sound empty) (idle : s.Idle) (starts : s.toContext.Starts layout empty nodes.length)
    (counts : ∀ n ∈ nodes, Counts peer p float64 may n.1)
    (first : given.flatMap (fun call => call.1.2) = nodes.map fun n => (n.1, n.2.1))
    (second : given'.flatMap (fun call => call.1.2) = nodes.map fun n => (n.1, n.2.2))
    : (s.run peer p float64 layout given).Unmoderated (s.run peer p float64 layout given').toContext
      ∧ (Runs.Each (fun g (n : ContextNode × Nat × Nat) => governed peer p float64 g n.1)
          (fun g n => JudgedAlike peer p float64 g n.1 n.2.1 n.2.2) s.governance nodes
        → s.run peer p float64 layout given = s.run peer p float64 layout given') := by
  rw [run_idle idle, run_idle idle]
  have both := Context.runs_alike (s := s.toContext) apart fine starts counts
    ((List.flatMap_map ..).trans first) ((List.flatMap_map ..).trans second)
  exact ⟨both.1, fun alike => by rw [both.2 alike]⟩

/-- In the second layout for any texts, in the first where no relation that is applied has a colon in
its ends or its type.
-/
theorem context_replayed {Key : Type} [Ord Key] [Std.TransOrd Key] [Std.LawfulEqOrd Key]
    {enc : IndexEncoder Key} {json : Number → Option Number}
    (safe : ∀ n ≤ maxSafeInteger, p.uint.Fits n)
    (first : given.flatMap (fun call => call.1.2) = nodes.map fun n => (n.1, n.2.1))
    (second : given'.flatMap (fun call => call.1.2) = nodes.map fun n => (n.1, n.2.2))
    : (∀ s : Upgraded W (Layout2.Db Key), s.Idle → s.Starts (layout2 enc p float64) ∅ nodes.length
        → (s.run peer p float64 (layout2 enc p float64) given).Unmoderated
            (s.run peer p float64 (layout2 enc p float64) given').toContext
          ∧ (Runs.Each (fun g (n : ContextNode × Nat × Nat) => governed peer p float64 g n.1)
              (fun g n => JudgedAlike peer p float64 g n.1 n.2.1 n.2.2) s.governance nodes
            → s.run peer p float64 (layout2 enc p float64) given
              = s.run peer p float64 (layout2 enc p float64) given'))
      ∧ ∀ s : Upgraded W (Layout1.Db Number), s.Idle → s.Starts (layout1 json) ∅ nodes.length
        → (∀ n ∈ nodes, Counts peer p float64
            (fun counter => Plain counter.entityId ∧ Plain counter.type) n.1)
        → (s.run peer p float64 (layout1 json) given).Unmoderated
            (s.run peer p float64 (layout1 json) given').toContext
          ∧ (Runs.Each (fun g (n : ContextNode × Nat × Nat) => governed peer p float64 g n.1)
              (fun g n => JudgedAlike peer p float64 g n.1 n.2.1 n.2.2) s.governance nodes
            → s.run peer p float64 (layout1 json) given
              = s.run peer p float64 (layout1 json) given') := by
  constructor
  · intro s idle starts
    refine runs_alike (layout2_apart safe) trivial idle starts (fun n _ event is => ?_) first second
    rw [Counting]
    split <;> simp
  · intro s idle starts counts
    refine runs_alike (layout1_apart json) (fun place key is => ?_) idle starts counts first second
    rw [Std.ExtTreeMap.getElem?_empty] at is
    cases is

/-- Two peers, one much later, the other event by event; one has the RoleBase, the other hasn't. -/
theorem context_replayed_split
    : (run trusting compact compactFloat64 (layout2 inOrder compact compactFloat64)
          { toContext := ownedBy "aa" } [((1, [(message, 0)]), fun _ _ => none),
            ((1, [(hides, 0)]), fun _ _ => none)]).Unmoderated
        (run trusting compact compactFloat64 (layout2 inOrder compact compactFloat64)
          { toContext := ownedBy "aa" }
          [((8, [(message, 700000), (hides, 700000)]), fun _ _ => some true)]).toContext := by
  refine ((@context_replayed _ _ trusting compact compactFloat64
    [(message, 0, 700000), (hides, 0, 700000)] _ _ _ _ _ _ inOrder some (fun n safe => ?_) rfl rfl).1
      { toContext := ownedBy "aa" } ⟨rfl, rfl⟩ ⟨⟨[], rfl⟩, rfl, fun direction entityId type => ?_⟩).1
  · show n < 2 ^ 53
    exact Nat.lt_of_le_of_lt safe (by decide)
  · have none_ : (ownedBy "aa").index.count (layout2 inOrder compact compactFloat64) direction entityId
        type = 0 := by
      simp [ownedBy, Applying.count, Dict.empty, Dict.get?, layout2, Layout2.answers, Layout2.getCount]
    rw [none_]
    decide

/-- A writer waits to be added. -/
def waiting : Upgraded (List (Key × Bool)) (Layout2.Db (List (List Nat))) where
  toContext := ownedBy "aa"
  changes := (∅ : Table String QueuedChange).insert "w:p:roles/addWriter:02:1" ⟨true, "02", "aa"⟩

/-- A moderation action ten minutes ahead is left out by who applies it now, and counts for who does
five minutes later; and what waits is decided by who has the RoleBase.
-/
theorem moderation_by_clock
    : (run trusting compact compactFloat64 (layout2 inOrder compact compactFloat64)
          { toContext := ownedBy "aa" } [((1, [(hides, 0)]), fun _ _ => none)]
        ≠ run trusting compact compactFloat64 (layout2 inOrder compact compactFloat64)
          { toContext := ownedBy "aa" } [((1, [(hides, 300000)]), fun _ _ => none)])
      ∧ run trusting compact compactFloat64 (layout2 inOrder compact compactFloat64) waiting
          [((1, []), fun _ _ => none)]
        ≠ run trusting compact compactFloat64 (layout2 inOrder compact compactFloat64) waiting
          [((1, []), fun _ _ => some true)] := by
  refine ⟨fun same => ?_, fun same => ?_⟩
  · have now : (run trusting compact compactFloat64 (layout2 inOrder compact compactFloat64)
        { toContext := ownedBy "aa" } [((1, [(hides, 0)]), fun _ _ => none)]).moderation.isEmpty = true := by
      decide +kernel
    have later : (run trusting compact compactFloat64 (layout2 inOrder compact compactFloat64)
        { toContext := ownedBy "aa" } [((1, [(hides, 300000)]), fun _ _ => none)]).moderation.isEmpty
          = false := by
      decide +kernel
    rw [same, later] at now
    cases now
  · have writers := congrArg (fun s => s.governance.writers.length) same
    revert writers
    decide +kernel

end Upgraded

end Hypergraph.Engine
