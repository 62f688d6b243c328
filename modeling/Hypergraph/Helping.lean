import Hypergraph.Lib.Runs
import Mathlib.Data.List.Basic

/-! Which logs a space hands to its helpers, and when (`Helpers` of `lib/helpers.js`): one at a time, each
again once it grew or the list of helpers changed, and what wasn't sent once more after a while.
-/

namespace Hypergraph.Helping

/-- A log as the directory has it: an entry of its own each time it is accepted. -/
abbrev Log := Nat

/-- What its entry says of its hand-offs: its length at the last one, and which list that went to. -/
structure Entry where
  length : Nat := 0
  handed : Int := -1
  handedTo : Option String := none

/-- `#handOff`, under way: to the client of the list with that tag. -/
structure HandOff where
  log : Log
  tag : String
  /-- Its length as it was opened. -/
  length : Option Nat := none

structure State where
  /-- `directory.logs`. -/
  logs : List Log := []
  entry : Log → Entry := fun _ => {}
  /-- `state.helpers`. -/
  helpers : List String := []
  dht : Bool := false
  keys : String := ""
  tag : Option String := none
  /-- The client, by its list's tag. -/
  peering : Option String := none
  queue : List Log := []
  unsent : List Log := []
  running : Option HandOff := none
  timer : Bool := false
  closed : Bool := false
  -- Read by no step: what was written to which helpers, at which lengths the logs were last held, and
  -- whose hand-offs threw since.
  given : List (Log × String × Int) := []
  asked : Log → Nat := fun _ => 0
  threw : List Log := []

/-- What happens. `sent`: the request was written to every helper that the log goes to. -/
inductive Event
  | accept (log : Log) (entry : Entry)
  | drop (log : Log)
  | grow (log : Log) (blocks : Nat)
  | list (helpers : List String)
  | online (dht : Bool)
  | update
  | hold (log : Log)
  | opened
  | ended (sent : Bool)
  | throws
  | retry
  | close

/-- `Set.add`. -/
def add (set : List Log) (log : Log) : List Log := if log ∈ set then set else set ++ [log]

theorem mem_add {set : List Log} {log other : Log} : other ∈ add set log ↔ other ∈ set ∨ other = log := by
  unfold add
  split_ifs with mem
  · refine ⟨.inl, fun or => or.elim id ?_⟩
    rintro rfl
    exact mem
  · rw [List.mem_append, List.mem_singleton]

namespace State

variable (hash : String → String) (s : State)

/-- The loop of `#drain`, up to the next hand-off. -/
def next : List Log → State
  | [] => { s with queue := [], running := none }
  | log :: rest =>
      match s.peering with
      | none => { s with queue := log :: rest, running := none }
      | some tag =>
          if s.closed then { s with queue := log :: rest, running := none }
          else if log ∈ s.logs then { s with queue := rest, running := some { log, tag } }
          else next rest

/-- `#drain`. -/
def drain : State := if s.running.isSome then s else s.next s.queue

/-- `hold`. -/
def hold (log : Log) : State :=
  if s.peering = none ∨ s.closed then s
  else
    let s := { s with asked := Function.update s.asked log (s.entry log).length }
    if (s.entry log).handedTo = s.tag ∧ ((s.entry log).length : Int) ≤ (s.entry log).handed then s
    else drain { s with queue := add s.queue log, threw := s.threw.filter (· ≠ log) }

/-- `update`. -/
def update : State :=
  let keys := ",".intercalate s.helpers
  if s.closed ∨ ¬ s.dht ∨ keys = s.keys then s
  else if s.helpers = [] then { s with keys, peering := none }
  else
    s.logs.foldl hold { s with keys, tag := some (hash keys), peering := some (hash keys) }

/-- `#retryLater`. -/
def retryLater : State := if s.timer ∨ s.closed then s else { s with timer := true }

/-- The end of `#handOff`. -/
def handedOff (handing : HandOff) (length : Nat) (sent : Bool) : State :=
  if sent then
    { s with
      entry := Function.update s.entry handing.log
        { s.entry handing.log with handed := length, handedTo := s.tag }
      unsent := s.unsent.filter (· ≠ handing.log)
      given := (handing.log, handing.tag, (length : Int)) :: s.given }
  else retryLater { s with unsent := add s.unsent handing.log }

def step : Event → State
  | .accept log entry =>
      hold { s with
        logs := s.logs ++ [log]
        entry := Function.update s.entry log entry
        asked := Function.update s.asked log 0
        given := (entry.handedTo.map (log, ·, entry.handed)).toList ++ s.given } log
  | .drop log => { s with logs := s.logs.filter (· ≠ log) }
  | .grow log blocks =>
      { s with
        entry := Function.update s.entry log
          { s.entry log with length := (s.entry log).length + blocks } }
  | .list helpers => { s with helpers }
  | .online dht => { s with dht }
  | .update => s.update hash
  | .hold log => s.hold log
  | .opened =>
      { s with running := s.running.map fun handing =>
          { handing with length := some (handing.length.getD (s.entry handing.log).length) } }
  | .ended sent =>
      match s.running with
      | some handing =>
          match handing.length with
          | some length =>
              let s := s.handedOff handing length sent
              s.next s.queue
          | none => s
      | none => s
  | .throws =>
      match s.running with
      | some handing =>
          let s := { s with threw := handing.log :: s.threw }
          s.next s.queue
      | none => s
  | .retry =>
      if s.timer then { s.unsent.foldl hold { s with timer := false } with unsent := [] } else s
  | .close => { s with closed := true, timer := false, queue := [], unsent := [], peering := none }

/-- A log is marked as handed to the helpers of now, no shorter than it was last held, or queued, or being
handed off.
-/
inductive Handed (log : Log) : Prop
  | marked (here : (s.entry log).handedTo = s.tag) (far : (s.asked log : Int) ≤ (s.entry log).handed)
  | queued (mem : log ∈ s.queue) (running : s.running.isSome)
  | handing {h : HandOff} (running : s.running = some h) (of : h.log = log)
      (far : ∀ n, h.length = some n → s.asked log ≤ n)

/-- What is done about a log: its hand-off, which may have thrown, or another one later. -/
inductive Kept (log : Log) : Prop
  | handed (handed : s.Handed log)
  | threw (mem : log ∈ s.threw)
  | waiting (mem : log ∈ s.unsent) (timer : s.timer)

/-- What lengths are about, and that a space that closed has no client. -/
structure Sound : Prop where
  asked : ∀ log, s.asked log ≤ (s.entry log).length
  handed : ∀ log, (s.entry log).handed ≤ (s.entry log).length
  opened : ∀ {h n}, s.running = some h → h.length = some n →
    (s.entry h.log).handed ≤ n ∧ n ≤ (s.entry h.log).length
    ∧ (¬ s.closed → s.asked h.log ≤ n ∨ h.log ∈ s.queue)
  closed : s.closed → s.peering = none

variable {s} {log other : Log} {logs : List Log}

/-- All that the loop of `#drain` changes. -/
theorem next_eq (logs : List Log)
    : ∃ queue running, s.next logs = { s with queue, running }
      ∧ ∀ h n, running = some h → h.length ≠ some n := by
  induction logs with
  | nil => exact ⟨[], none, rfl, by rintro h n ⟨⟩⟩
  | cons log rest ih =>
      rw [next]
      split
      · exact ⟨_, none, rfl, by rintro h n ⟨⟩⟩
      · split_ifs
        · exact ⟨_, none, rfl, by rintro h n ⟨⟩⟩
        · refine ⟨_, _, rfl, ?_⟩
          rintro h n ⟨⟩ ⟨⟩
        · exact ih

theorem next_handed (client : s.peering.isSome) (open_ : ¬ s.closed) (held : log ∈ s.logs)
    (mem : log ∈ logs)
    : (s.next logs).Handed log := by
  obtain ⟨tag, peering⟩ := Option.isSome_iff_exists.mp client
  induction logs with
  | nil => cases mem
  | cons first rest ih =>
      simp only [next, peering, if_neg open_]
      split_ifs with here
      · rcases List.mem_cons.mp mem with rfl | mem
        · exact .handing rfl rfl (by rintro n ⟨⟩)
        · exact .queued mem rfl
      · rcases List.mem_cons.mp mem with rfl | mem
        · exact absurd held here
        · exact ih mem

/-- All that `hold` changes. -/
theorem hold_cases (log : Log)
    : (s.hold log = s ∧ (s.peering = none ∨ s.closed))
      ∨ ∃ queue running threw,
          s.hold log
            = { s with asked := Function.update s.asked log (s.entry log).length, queue, running, threw }
          ∧ (∀ other ∈ s.threw, other ≠ log → other ∈ threw)
          ∧ ∀ h n, running = some h → h.length = some n →
              s.running = some h ∧ (∀ other ∈ s.queue, other ∈ queue)
              ∧ ((s.entry log).length ≤ (s.entry log).handed ∨ log ∈ queue) := by
  unfold hold
  dsimp only
  split_ifs with none_ marked
  · exact .inl ⟨rfl, none_⟩
  · exact .inr ⟨s.queue, s.running, s.threw, rfl, fun _ mem _ => mem,
      fun _ _ same _ => ⟨same, fun _ mem => mem, .inl marked.2⟩⟩
  · have threw : ∀ other ∈ s.threw, other ≠ log → other ∈ s.threw.filter (· ≠ log) :=
      fun other mem ne => List.mem_filter.mpr ⟨mem, decide_eq_true ne⟩
    unfold drain
    split_ifs
    · exact .inr ⟨_, s.running, _, rfl, threw, fun _ _ same _ =>
        ⟨same, fun _ mem => mem_add.mpr (.inl mem), .inr (mem_add.mpr (.inr rfl))⟩⟩
    · obtain ⟨queue, running, eq, fresh⟩ := next_eq (s := { s with
        asked := Function.update s.asked log (s.entry log).length
        queue := add s.queue log
        threw := s.threw.filter (· ≠ log) }) (add s.queue log)
      exact .inr ⟨queue, running, _, eq, threw, fun h n some_ length => absurd length (fresh h n some_)⟩

theorem Sound.hold (sound : s.Sound) (log : Log) : (s.hold log).Sound := by
  obtain ⟨eq, _⟩ | ⟨queue, running, threw, eq, _, same⟩ := s.hold_cases log
  · rwa [eq]
  · rw [eq]
    refine ⟨fun other => ?_, sound.handed, fun {h n} some_ length => ?_, sound.closed⟩
    · rcases eq_or_ne other log with rfl | ne
      · exact Nat.le_of_eq (Function.update_self ..)
      · simpa only [Function.update_of_ne ne] using sound.asked other
    · obtain ⟨was, queued, far⟩ := same h n some_ length
      obtain ⟨handed, long, asked⟩ := sound.opened was length
      refine ⟨handed, long, fun open_ => ?_⟩
      dsimp only
      rcases eq_or_ne h.log log with rfl | ne
      · rw [Function.update_self]
        exact far.imp_left fun far => by omega
      · rw [Function.update_of_ne ne]
        exact (asked open_).imp_right (queued _)

theorem hold_handed (client : s.peering.isSome) (sound : s.Sound) (held : log ∈ s.logs)
    : (s.hold log).Handed log := by
  have some_ : s.peering ≠ none := Option.isSome_iff_ne_none.mp client
  have open_ : ¬ s.closed := fun closed => some_ (sound.closed closed)
  unfold State.hold
  dsimp only
  rw [if_neg (not_or.mpr ⟨some_, open_⟩)]
  split_ifs with marked
  · exact .marked marked.1 (by simpa using marked.2)
  · have mem : log ∈ add s.queue log := mem_add.mpr (.inr rfl)
    unfold drain
    split_ifs with running
    · exact .queued mem running
    · exact next_handed client open_ held mem

/-- A log is as handed where its marks and the hand-off are as they were, whatever else is queued. -/
theorem Handed.more {s' : State} (handed : s.Handed log)
    (entry : ∃ length, s'.entry log = { s.entry log with length }) (asked : s'.asked log = s.asked log)
    (tag : s'.tag = s.tag) (queue : ∀ log ∈ s.queue, log ∈ s'.queue) (running : s'.running = s.running)
    : s'.Handed log := by
  obtain ⟨length, entry⟩ := entry
  cases handed with
  | marked here far => exact .marked (by rw [entry, tag]; exact here) (by rw [entry, asked]; exact far)
  | queued mem some_ => exact .queued (queue log mem) (running ▸ some_)
  | handing some_ of far => exact .handing (running ▸ some_) of (asked ▸ far)

theorem Handed.hold (handed : s.Handed other) (ne : other ≠ log) : (s.hold log).Handed other := by
  have asked {n : Nat} : Function.update s.asked log n other = s.asked other := Function.update_of_ne ne ..
  unfold State.hold
  dsimp only
  split_ifs
  · exact handed
  · exact handed.more ⟨_, rfl⟩ asked rfl (fun _ mem => mem) rfl
  · unfold drain
    split_ifs with idle
    · exact handed.more ⟨_, rfl⟩ asked rfl (fun _ mem => mem_add.mpr (.inl mem)) rfl
    · obtain ⟨queue, running, eq, _⟩ := next_eq (s := { s with
        asked := Function.update s.asked log (s.entry log).length
        queue := add s.queue log
        threw := s.threw.filter (· ≠ log) }) (add s.queue log)
      rw [eq]
      cases handed with
      | marked here far => exact .marked here (by simpa only [asked] using far)
      | queued _ running => exact absurd running idle
      | handing running => exact absurd (by rw [running]; rfl) idle

/-- Several held in turn: each of them, and what was handed or threw before. -/
theorem holds_handed (logs : List Log) (client : s.peering.isSome) (sound : s.Sound) (held : other ∈ s.logs)
    (done : other ∈ logs ∨ s.Handed other ∨ other ∈ s.threw)
    : (logs.foldl hold s).Handed other ∨ other ∈ (logs.foldl hold s).threw := by
  induction logs generalizing s with
  | nil => exact done.resolve_left (List.not_mem_nil)
  | cons log rest ih =>
      have same : (s.hold log).peering = s.peering ∧ (s.hold log).logs = s.logs := by
        obtain ⟨eq, _⟩ | ⟨_, _, _, eq, _⟩ := s.hold_cases log <;> rw [eq] <;> exact ⟨rfl, rfl⟩
      refine ih (same.1 ▸ client) (sound.hold log) (same.2 ▸ held) (or_iff_not_imp_left.mpr fun later => ?_)
      rcases eq_or_ne other log with rfl | ne
      · exact .inl (hold_handed client sound held)
      · refine (done.resolve_left ?_).imp (fun handed => handed.hold ne) fun mem => ?_
        · simp [ne, later]
        · obtain ⟨eq, _⟩ | ⟨_, _, _, eq, threw, _⟩ := s.hold_cases log <;> rw [eq]
          · exact mem
          · exact threw other mem ne

/-- An entry accepted is one of its own, and its log is no shorter than it was when handed off. -/
def Right (s : State) : Event → Prop
  | .accept log entry => (∀ h, s.running = some h → h.log ≠ log) ∧ entry.handed ≤ entry.length
  | _ => True

/-- Each log held is taken care of, while there are helpers. -/
structure Keeps (s : State) : Prop where
  sound : s.Sound
  kept : s.peering.isSome → ∀ log ∈ s.logs, s.Kept log

theorem Sound.next (sound : s.Sound) (logs : List Log) : (s.next logs).Sound := by
  obtain ⟨queue, running, eq, fresh⟩ := s.next_eq logs
  rw [eq]
  exact ⟨sound.asked, sound.handed, fun {h n} some_ length => absurd length (fresh h n some_), sound.closed⟩

theorem Sound.holds (sound : s.Sound) (logs : List Log) : (logs.foldl State.hold s).Sound :=
  Runs.keeps State.Sound (fun _ log sound => sound.hold log) logs sound

theorem holds_eq (logs : List Log)
    : (logs.foldl hold s).logs = s.logs ∧ (logs.foldl hold s).peering = s.peering
      ∧ (logs.foldl hold s).tag = s.tag :=
  Runs.keeps (fun s' : State => s'.logs = s.logs ∧ s'.peering = s.peering ∧ s'.tag = s.tag)
    (fun s' log same => by
      obtain ⟨eq, _⟩ | ⟨_, _, _, eq, _⟩ := s'.hold_cases log <;> rw [eq] <;> exact same)
    logs ⟨rfl, rfl, rfl⟩

theorem handed_unsent (unsent : List Log) (timer : Bool)
    : State.Handed { s with unsent, timer } log ↔ s.Handed log :=
  ⟨fun handed => handed.more ⟨_, rfl⟩ rfl rfl (fun _ mem => mem) rfl,
    fun handed => handed.more ⟨_, rfl⟩ rfl rfl (fun _ mem => mem) rfl⟩

/-- A log is kept where its marks, the queues and its hand-off are as they were. -/
theorem Kept.same {s' : State} (kept : s.Kept log)
    (entry : ∃ length, s'.entry log = { s.entry log with length }) (asked : s'.asked log = s.asked log)
    (tag : s'.tag = s.tag) (queue : s'.queue = s.queue) (running : s'.running = s.running)
    (unsent : s'.unsent = s.unsent) (timer : s'.timer = s.timer) (threw : s'.threw = s.threw)
    : s'.Kept log := by
  cases kept with
  | handed handed => exact .handed (handed.more entry asked tag (fun _ mem => queue ▸ mem) running)
  | threw mem => exact .threw (threw ▸ mem)
  | waiting mem set => exact .waiting (unsent ▸ mem) (timer ▸ set)

theorem hold_kept (sound : s.Sound) (client : s.peering.isSome) (held : other ∈ s.logs)
    (kept : other ≠ log → s.Kept other)
    : (s.hold log).Kept other := by
  rcases eq_or_ne other log with rfl | ne
  · exact .handed (hold_handed client sound held)
  · cases kept ne with
    | handed handed => exact .handed (handed.hold ne)
    | threw mem =>
        obtain ⟨eq, _⟩ | ⟨_, _, _, eq, threw, _⟩ := s.hold_cases log <;> rw [eq]
        · exact .threw mem
        · exact .threw (threw other mem ne)
    | waiting mem timer =>
        obtain ⟨eq, _⟩ | ⟨_, _, _, eq, _⟩ := s.hold_cases log <;> rw [eq] <;> exact .waiting mem timer

theorem Keeps.hold (keeps : s.Keeps) (log : Log) : (s.hold log).Keeps := by
  obtain ⟨logs, peering, _⟩ := s.holds_eq [log]
  refine ⟨keeps.sound.hold log, fun client other held => ?_⟩
  have client := peering ▸ client
  have held := logs ▸ held
  exact hold_kept keeps.sound client held fun _ => keeps.kept client other held

theorem Keeps.accept (keeps : s.Keeps) {entry : Entry} (right : s.Right (.accept log entry))
    (given : List (Log × String × Int))
    : Keeps (State.hold { s with
        logs := s.logs ++ [log]
        entry := Function.update s.entry log entry
        asked := Function.update s.asked log 0
        given } log) := by
  obtain ⟨notRunning, least⟩ := right
  have sound : State.Sound { s with
      logs := s.logs ++ [log]
      entry := Function.update s.entry log entry
      asked := Function.update s.asked log 0
      given } := by
    refine ⟨fun other => ?_, fun other => ?_, fun {h n} running length => ?_, keeps.sound.closed⟩
    · rcases eq_or_ne other log with rfl | ne
      · simp
      · simpa [ne] using keeps.sound.asked other
    · rcases eq_or_ne other log with rfl | ne
      · simpa using least
      · simpa [ne] using keeps.sound.handed other
    · simpa [notRunning h running] using keeps.sound.opened running length
  have same := holds_eq (s := { s with
    logs := s.logs ++ [log]
    entry := Function.update s.entry log entry
    asked := Function.update s.asked log 0
    given }) [log]
  simp only [List.foldl_cons, List.foldl_nil] at same
  refine ⟨sound.hold log, fun client other held => ?_⟩
  rw [same.2.1] at client
  rw [same.1] at held
  refine hold_kept sound client held fun ne => ?_
  exact (keeps.kept client other (by simpa [ne] using held)).same ⟨_, Function.update_of_ne ne ..⟩
    (Function.update_of_ne ne ..) rfl rfl rfl rfl rfl rfl

theorem Keeps.update (keeps : s.Keeps) (hash : String → String) : (s.update hash).Keeps := by
  unfold State.update
  dsimp only
  split_ifs with same empty
  · exact keeps
  · exact ⟨{ keeps.sound with closed := fun _ => rfl }, fun client => by cases client⟩
  · have sound : State.Sound { s with
        keys := ",".intercalate s.helpers
        tag := some (hash (",".intercalate s.helpers))
        peering := some (hash (",".intercalate s.helpers)) } :=
      ⟨keeps.sound.asked, keeps.sound.handed, keeps.sound.opened, fun closed => absurd (.inl closed) same⟩
    refine ⟨sound.holds s.logs, fun _ log held => ?_⟩
    rw [(holds_eq _).1] at held
    exact (holds_handed s.logs rfl sound held (.inl held)).elim .handed .threw

theorem Keeps.retry (keeps : s.Keeps)
    : Keeps { s.unsent.foldl State.hold { s with timer := false } with unsent := [] } := by
  have sound : State.Sound { s with timer := false } :=
    ⟨keeps.sound.asked, keeps.sound.handed, keeps.sound.opened, keeps.sound.closed⟩
  have holds := sound.holds s.unsent
  refine ⟨⟨holds.asked, holds.handed, holds.opened, holds.closed⟩, fun client log held => ?_⟩
  rw [(holds_eq _).1] at held
  rw [(holds_eq _).2.1] at client
  have done : log ∈ s.unsent ∨ State.Handed { s with timer := false } log ∨ log ∈ s.threw := by
    cases keeps.kept client log held with
    | handed handed => exact .inr (.inl ((handed_unsent s.unsent false).mpr handed))
    | threw mem => exact .inr (.inr mem)
    | waiting mem _ => exact .inl mem
  exact (holds_handed s.unsent client sound held done).elim
    (fun handed => .handed ((handed_unsent [] _).mpr handed)) fun mem => .threw mem

/-- A log's turn comes as the hand-off before it ends. -/
theorem Keeps.turn (keeps : s.Keeps) (client : s.peering.isSome) (held : log ∈ s.logs) (mem : log ∈ s.queue)
    {s' : State} (logs : s'.logs = s.logs) (peering : s'.peering = s.peering) (closed : s'.closed = s.closed)
    : (s'.next s.queue).Kept log :=
  .handed (next_handed (peering ▸ client)
    (fun now => Option.isSome_iff_ne_none.mp client (keeps.sound.closed (closed ▸ now))) (logs ▸ held) mem)

theorem Keeps.sent {h : HandOff} {n : Nat} (keeps : s.Keeps) (running : s.running = some h)
    (length : h.length = some n)
    : Keeps ((s.handedOff h n true).next s.queue) := by
  obtain ⟨least, long, asked⟩ := keeps.sound.opened running length
  have sound : (s.handedOff h n true).Sound := by
    refine ⟨fun log => ?_, fun log => ?_, fun {h' m} running' length' => ?_, keeps.sound.closed⟩
    · rcases eq_or_ne log h.log with rfl | ne
      · simpa [handedOff] using keeps.sound.asked h.log
      · simpa [handedOff, ne] using keeps.sound.asked log
    · rcases eq_or_ne log h.log with rfl | ne
      · simpa [handedOff] using long
      · simpa [handedOff, ne] using keeps.sound.handed log
    · cases running.symm.trans running'
      cases length.symm.trans length'
      simpa [handedOff] using And.intro long asked
  refine ⟨sound.next _, fun client log held => ?_⟩
  obtain ⟨queue, running', eq, _⟩ := next_eq (s := s.handedOff h n true) s.queue
  rw [eq] at client held
  have open_ : ¬ s.closed := fun now => Option.isSome_iff_ne_none.mp client (keeps.sound.closed now)
  have turn (mem : log ∈ s.queue) : ((s.handedOff h n true).next s.queue).Kept log :=
    keeps.turn client held mem rfl rfl rfl
  rcases eq_or_ne log h.log with rfl | ne
  · refine (asked open_).elim (fun asked => ?_) turn
    rw [eq]
    exact .handed (.marked (by simp [handedOff]) (by simpa [handedOff] using asked))
  · cases keeps.kept client log held with
    | handed handed =>
        cases handed with
        | marked here far =>
            rw [eq]
            exact .handed (.marked (by simpa [handedOff, ne] using here) (by simpa [handedOff, ne] using far))
        | queued mem _ => exact turn mem
        | handing running' of => exact absurd (Option.some.inj (running'.symm.trans running) ▸ of.symm) ne
    | threw mem =>
        rw [eq]
        exact .threw mem
    | waiting mem timer =>
        rw [eq]
        exact .waiting (List.mem_filter.mpr ⟨mem, decide_eq_true ne⟩) timer

/-- It wasn't sent, or threw: its log waits, unless it threw. -/
theorem Keeps.unsent {h : HandOff} (keeps : s.Keeps) (running : s.running = some h) {unsent threw : List Log}
    {timer : Bool} (more : ∀ log ∈ s.unsent, log ∈ unsent) (later : s.timer → timer)
    (more' : ∀ log ∈ s.threw, log ∈ threw)
    (of : s.peering.isSome → (h.log ∈ unsent ∧ timer) ∨ h.log ∈ threw)
    : Keeps (State.next { s with unsent, threw, timer } s.queue) := by
  have sound : State.Sound { s with unsent, threw, timer } :=
    ⟨keeps.sound.asked, keeps.sound.handed, keeps.sound.opened, keeps.sound.closed⟩
  refine ⟨sound.next _, fun client log held => ?_⟩
  obtain ⟨queue, running', eq, _⟩ := next_eq (s := { s with unsent, threw, timer }) s.queue
  rw [eq] at client held
  cases keeps.kept client log held with
  | handed handed =>
      cases handed with
      | marked here far =>
          rw [eq]
          exact .handed (.marked here far)
      | queued mem _ => exact keeps.turn client held mem rfl rfl rfl
      | handing running' same =>
          cases running.symm.trans running'
          rw [eq, ← same]
          exact (of client).elim (fun waits => .waiting waits.1 waits.2) fun mem => .threw mem
  | threw mem =>
      rw [eq]
      exact .threw (more' log mem)
  | waiting mem set =>
      rw [eq]
      exact .waiting (more log mem) (later set)

theorem Keeps.fewer (keeps : s.Keeps) {logs : List Log} {helpers : List String} {dht : Bool}
    (less : ∀ log ∈ logs, log ∈ s.logs)
    : Keeps { s with logs, helpers, dht } :=
  ⟨⟨keeps.sound.asked, keeps.sound.handed, keeps.sound.opened, keeps.sound.closed⟩,
    fun client other held => (keeps.kept client other (less other held)).same ⟨_, rfl⟩
      rfl rfl rfl rfl rfl rfl rfl⟩

theorem Keeps.grow (keeps : s.Keeps) (log : Log) (blocks : Nat)
    : Keeps { s with
        entry := Function.update s.entry log
          { s.entry log with length := (s.entry log).length + blocks } } := by
  have entry (other : Log) : ∃ more, Function.update s.entry log
      { s.entry log with length := (s.entry log).length + blocks } other
      = { s.entry other with length := (s.entry other).length + more } := by
    rcases eq_or_ne other log with rfl | ne
    · exact ⟨blocks, Function.update_self ..⟩
    · exact ⟨0, Function.update_of_ne ne ..⟩
  refine ⟨⟨fun other => ?_, fun other => ?_, fun {h n} running length => ?_, keeps.sound.closed⟩, ?_⟩
  · obtain ⟨more, eq⟩ := entry other
    simpa only [eq] using Nat.le_add_right_of_le (keeps.sound.asked other)
  · obtain ⟨more, eq⟩ := entry other
    have := keeps.sound.handed other
    simp only [eq]
    omega
  · obtain ⟨more, eq⟩ := entry h.log
    obtain ⟨least, long, asked⟩ := keeps.sound.opened running length
    simpa only [eq] using And.intro least (And.intro (Nat.le_add_right_of_le long) asked)
  · intro client other held
    obtain ⟨more, eq⟩ := entry other
    exact (keeps.kept client other held).same ⟨_, eq⟩ rfl rfl rfl rfl rfl rfl rfl

theorem Keeps.opened (keeps : s.Keeps) (hash : String → String) : (s.step hash .opened).Keeps := by
  rw [State.step]
  refine ⟨⟨keeps.sound.asked, keeps.sound.handed, fun {h n} running length => ?_, keeps.sound.closed⟩, ?_⟩
  · obtain ⟨h', was, rfl⟩ := Option.map_eq_some_iff.mp running
    cases open_ : h'.length with
    | some n' =>
        have same : n' = n := by simpa [open_] using length
        exact keeps.sound.opened (h := h') was (same ▸ open_)
    | none =>
        have same : (s.entry h'.log).length = n := by simpa [open_] using length
        subst same
        exact ⟨keeps.sound.handed _, Nat.le_refl _, fun _ => .inl (keeps.sound.asked _)⟩
  · intro client other held
    cases keeps.kept client other held with
    | handed handed =>
        cases handed with
        | marked here far => exact .handed (.marked here far)
        | queued mem running => exact .handed (.queued mem (by simpa using running))
        | handing running of far =>
            refine .handed (.handing (congrArg (Option.map _) running) of ?_)
            rintro n ⟨⟩
            cases open_ : HandOff.length _ with
            | some n' => exact far n' open_
            | none => exact of ▸ keeps.sound.asked _
    | threw mem => exact .threw mem
    | waiting mem timer => exact .waiting mem timer

/-- What a step keeps. -/
theorem Keeps.step (keeps : s.Keeps) (hash : String → String) {event : Event} (right : s.Right event)
    : (s.step hash event).Keeps := by
  cases event with
  | accept log entry => exact keeps.accept right _
  | drop log => exact keeps.fewer fun _ mem => (List.mem_filter.mp mem).1
  | grow log blocks => exact keeps.grow log blocks
  | list helpers => exact keeps.fewer fun _ mem => mem
  | online dht => exact keeps.fewer fun _ mem => mem
  | update => exact keeps.update hash
  | hold log => exact keeps.hold log
  | opened => exact keeps.opened hash
  | ended sent =>
      rw [State.step]
      split
      · rename_i h running
        split
        · rename_i n length
          cases sent with
          | true => exact keeps.sent running length
          | false =>
              have more : ∀ log ∈ s.unsent, log ∈ add s.unsent h.log := fun _ mem => mem_add.mpr (.inl mem)
              have mem : h.log ∈ add s.unsent h.log := mem_add.mpr (.inr rfl)
              simp only [handedOff, Bool.false_eq_true, if_false, retryLater]
              split_ifs with set
              · exact keeps.unsent running more id (fun _ mem => mem) fun client => .inl ⟨mem,
                  set.resolve_right fun closed =>
                    Option.isSome_iff_ne_none.mp client (keeps.sound.closed closed)⟩
              · exact keeps.unsent running more (fun _ => rfl) (fun _ mem => mem) fun _ => .inl ⟨mem, rfl⟩
        · exact keeps
      · exact keeps
  | throws =>
      rw [State.step]
      split
      · rename_i h running
        exact keeps.unsent running (fun _ mem => mem) id (fun _ mem => .tail _ mem) fun _ => .inr (.head _)
      · exact keeps
  | retry =>
      rw [State.step]
      split_ifs
      · exact keeps.retry
      · exact keeps
  | close =>
      refine ⟨⟨keeps.sound.asked, keeps.sound.handed, fun some_ length => ?_, fun _ => rfl⟩, ?_⟩
      · obtain ⟨least, long, _⟩ := keeps.sound.opened some_ length
        exact ⟨least, long, fun open_ => absurd rfl open_⟩
      · intro client
        cases client

/-- In every run, each log that the directory has is taken care of, while there are helpers: it is marked as
handed to them, no shorter than it was last held, or its hand-off comes, is under way or threw, or it waits
for the timer.
-/
theorem run_kept {events : List Event} (hash : String → String)
    (right : Runs.Each (step hash) Right {} events) (log : Log)
    (client : (events.foldl (step hash) {}).peering.isSome)
    (held : log ∈ (events.foldl (step hash) {}).logs)
    : (events.foldl (step hash) {}).Kept log := by
  have start : Keeps {} := by
    refine ⟨⟨fun _ => Nat.le_refl _, fun _ => by simp, ?_, fun closed => by cases closed⟩,
      fun client => by cases client⟩
    rintro h n ⟨⟩
  have run : Keeps (events.foldl (step hash) {}) :=
    right.keeps (fun s event keeps right => keeps.step hash right) start
  exact run.kept client log held

/-- A log of three blocks grows as it is handed off to one helper: it comes again. -/
theorem run_kept_grown
    : State.Kept ([.accept 0 { length := 3 }, .list ["a"], .online true, .update, .opened, .grow 0 1, .hold 0,
        .ended true].foldl (step id) {}) 0 := by
  refine run_kept id ?_ 0 rfl (by decide)
  exact ⟨⟨by simp, by decide⟩, trivial, trivial, trivial, trivial, trivial, trivial, trivial, trivial⟩

/-- The list doesn't become another one while a log is handed off. -/
def Steady (hash : String → String) (s : State) (event : Event) : Prop :=
  s.running.isSome → (s.step hash event).tag = s.tag

/-- Marks are of what was written, and the hand-off that runs is to the list of now. -/
structure Truly (s : State) : Prop where
  marks : ∀ log tag, (s.entry log).handedTo = some tag → (log, tag, (s.entry log).handed) ∈ s.given
  running : ∀ h, s.running = some h → s.tag = some h.tag
  peering : ∀ tag, s.peering = some tag → s.tag = some tag

theorem next_running {h : HandOff} (running : (s.next logs).running = some h) : s.peering = some h.tag := by
  induction logs with
  | nil => cases running
  | cons log rest ih =>
      rw [next] at running
      split at running
      · cases running
      · rename_i peering
        split_ifs at running
        · cases running
          exact peering
        · exact ih running

theorem Truly.next (truly : s.Truly) (logs : List Log) : (s.next logs).Truly := by
  have running : ∀ h, (s.next logs).running = some h → s.peering = some h.tag := fun _ => next_running
  obtain ⟨queue, running', eq, _⟩ := s.next_eq logs
  rw [eq] at running ⊢
  exact ⟨truly.marks, fun h is => truly.peering _ (running h is), truly.peering⟩

theorem Truly.hold (truly : s.Truly) (log : Log) : (s.hold log).Truly := by
  unfold State.hold
  dsimp only
  split_ifs
  · exact truly
  · exact ⟨truly.marks, truly.running, truly.peering⟩
  · have queued : State.Truly { s with
        asked := Function.update s.asked log (s.entry log).length
        queue := add s.queue log
        threw := s.threw.filter (· ≠ log) } := ⟨truly.marks, truly.running, truly.peering⟩
    unfold drain
    split_ifs
    · exact queued
    · exact queued.next _

theorem Truly.holds (truly : s.Truly) (logs : List Log) : (logs.foldl State.hold s).Truly :=
  Runs.keeps Truly (fun _ log truly => truly.hold log) logs truly

theorem Truly.update (truly : s.Truly) {hash : String → String} (steady : s.Steady hash .update)
    : (s.update hash).Truly := by
  have steady : s.running.isSome → (s.update hash).tag = s.tag := steady
  unfold State.update at steady ⊢
  dsimp only at steady ⊢
  split_ifs at steady ⊢
  · exact truly
  · exact ⟨truly.marks, truly.running, fun tag some_ => by cases some_⟩
  · apply Truly.holds
    refine ⟨truly.marks, fun h running => ?_, fun _ => id⟩
    have same := steady (Option.isSome_of_mem running)
    rw [(holds_eq _).2.2] at same
    exact same.trans (truly.running h running)

theorem Truly.sent {h : HandOff} {n : Nat} (truly : s.Truly) (running : s.running = some h)
    : (s.handedOff h n true).Truly := by
  refine ⟨fun log tag marked => ?_, truly.running, truly.peering⟩
  simp only [handedOff, if_true] at marked ⊢
  rcases eq_or_ne log h.log with rfl | ne
  · rw [Function.update_self] at marked ⊢
    rw [truly.running h running] at marked
    cases marked
    exact .head _
  · rw [Function.update_of_ne ne] at marked ⊢
    exact .tail _ (truly.marks log tag marked)

theorem Truly.step (truly : s.Truly) {hash : String → String} {event : Event} (steady : s.Steady hash event)
    : (s.step hash event).Truly := by
  cases event with
  | accept log entry =>
      apply Truly.hold
      refine ⟨fun other tag marked => ?_, truly.running, truly.peering⟩
      dsimp only at marked ⊢
      rcases eq_or_ne other log with rfl | ne
      · rw [Function.update_self] at marked ⊢
        exact List.mem_append_left _ (by simp [marked])
      · rw [Function.update_of_ne ne] at marked ⊢
        exact List.mem_append_right _ (truly.marks other tag marked)
  | drop log | list helpers | online dht => exact ⟨truly.marks, truly.running, truly.peering⟩
  | grow log blocks =>
      refine ⟨fun other tag marked => ?_, truly.running, truly.peering⟩
      rcases eq_or_ne other log with rfl | ne
      · simpa [State.step] using truly.marks other tag (by simpa [State.step] using marked)
      · simpa [State.step, ne] using truly.marks other tag (by simpa [State.step, ne] using marked)
  | update => exact truly.update steady
  | hold log => exact truly.hold log
  | opened =>
      refine ⟨truly.marks, fun h running => ?_, truly.peering⟩
      obtain ⟨h', was, rfl⟩ := Option.map_eq_some_iff.mp running
      exact truly.running h' was
  | ended sent =>
      rw [State.step]
      split
      · rename_i h running
        split
        · refine Truly.next ?_ _
          cases sent with
          | true => exact truly.sent running
          | false =>
              simp only [handedOff, Bool.false_eq_true, if_false, retryLater]
              split_ifs <;> exact ⟨truly.marks, truly.running, truly.peering⟩
        · exact truly
      · exact truly
  | throws =>
      rw [State.step]
      split
      · apply Truly.next
        exact ⟨truly.marks, truly.running, truly.peering⟩
      · exact truly
  | retry =>
      rw [State.step]
      split_ifs
      · have before : State.Truly { s with timer := false } := ⟨truly.marks, truly.running, truly.peering⟩
        have holds := before.holds s.unsent
        exact ⟨holds.marks, holds.running, holds.peering⟩
      · exact truly
  | close => exact ⟨truly.marks, truly.running, fun tag some_ => by cases some_⟩

/-- In every run in which the list stays while a log is handed off, a log marked as handed to a list's helpers
had its request written to them, at the length of the mark.
-/
theorem run_given {hash : String → String} {events : List Event}
    (steady : Runs.Each (step hash) (Steady hash) {} events) {log : Log} {tag : String}
    (marked : ((events.foldl (step hash) {}).entry log).handedTo = some tag)
    : (log, tag, ((events.foldl (step hash) {}).entry log).handed) ∈ (events.foldl (step hash) {}).given := by
  have start : Truly {} := by
    constructor
    · rintro log tag ⟨⟩
    · rintro h ⟨⟩
    · rintro tag ⟨⟩
  have run : Truly (events.foldl (step hash) {}) :=
    steady.keeps (fun s event truly steady => truly.step steady) start
  exact run.marks log tag marked

theorem run_given_once
    : (0, "a", 1) ∈ ([.accept 0 { length := 1 }, .list ["a"], .online true, .update, .opened,
        .ended true].foldl (step id) {}).given := by
  refine run_given ?_ rfl
  refine ⟨fun _ => rfl, fun _ => rfl, fun _ => rfl, ?_, fun _ => rfl, fun _ => rfl, trivial⟩
  intro running
  cases running

end State

end Hypergraph.Helping
