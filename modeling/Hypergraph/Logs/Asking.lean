import Hypergraph.Logs.Directory
import Hypergraph.Lib.Runs
import Mathlib.Data.List.NodupEquivFin

/-! Who waits for a log's header (`consider`, `#fetch` and `#nextFetch` in `lib/directory.js`): each call
is given a promise, which is settled, or follows a fetch under way, or waits with the queue's entry for
the log. The queue and the fetches are those of the directory.
-/

namespace Hypergraph.Logs

open Runs Decisions

namespace Asking

/-- A promise of `consider`. -/
inductive Promise
  | settled
  /-- Settled as the one this resolver was made with. -/
  | waiting (resolver : Nat)
  /-- Settled with the log's fetch under way. -/
  | following (key : Key)
  deriving DecidableEq

/-- A log in the queue, and the resolver of those that wait for it. -/
structure Entry where
  key : Key
  resolver : Nat
  deriving DecidableEq

structure Running where
  key : Key
  urgent : Bool
  deriving DecidableEq

/-- What is known of logs otherwise: held or refused; waiting, for an author who may not write yet. -/
structure View where
  known : Key → Bool
  waits : Key → Bool

end Asking

open Asking in
structure Asking where
  inflight : List Running
  queue : List Entry
  /-- The next resolver to be made. -/
  next : Nat
  /-- What became of each call's promise, the first call's first. -/
  promises : List Promise
  deriving DecidableEq

namespace Asking

def empty : Asking := ⟨[], [], 0, []⟩

variable (s : Asking) (key : Key)

def urgent : Nat := s.inflight.countP fun fetch => fetch.urgent

/-- `inflight.size - urgent`. -/
def ordinary : Nat := s.inflight.countP fun fetch => !fetch.urgent

def fetching : Bool := (s.inflight.map Running.key).contains key

/-- The promises that wait with a resolver settle as another one. -/
def resolve (resolver : Nat) (promise : Promise) : Asking :=
  { s with promises := s.promises.map fun other => if other = .waiting resolver then promise else other }

/-- The header is asked for. -/
def run (urgent : Bool) : Asking × Promise :=
  ({ s with inflight := s.inflight ++ [⟨key, urgent⟩] }, .following key)

/-- `queue.set`: an entry there is replaced. -/
def setEntry (queue : List Entry) (entry : Entry) : List Entry :=
  if entry.key ∈ queue.map Entry.key then
    queue.map fun other => if other.key = entry.key then entry else other
  else queue ++ [entry]

/-- The log waits for its turn, if there is no slot; or is dropped, if too many wait. -/
def inTurn : Asking × Promise :=
  if FETCHES ≤ s.ordinary then
    if MAX_QUEUE ≤ s.queue.length then (s, .settled)
    else ({ s with queue := setEntry s.queue ⟨key, s.next⟩, next := s.next + 1 }, .waiting s.next)
  else s.run key false

/-- `#fetch`. -/
def fetch (urgent : Bool) : Asking × Promise :=
  match s.queue.find? fun entry => entry.key = key with
  | none => if urgent = true ∧ s.urgent < FETCHES then s.run key true else s.inTurn key
  | some queued =>
      if urgent = false then (s, .waiting queued.resolver)
      else if s.urgent < FETCHES then
        let (s, run) := ({ s with queue := s.queue.filter fun entry => entry.key ≠ key } : Asking).run key true
        (s.resolve queued.resolver run, run)
      else s.inTurn key

def consider (view : View) (urgent : Bool) : Asking × Promise :=
  if view.known key then (s, .settled)
  else if s.fetching key then (s, .following key)
  else if view.waits key then (s, .settled)
  else s.fetch key urgent

/-- `#nextFetch`, that many fetches at most. -/
def nextFetch (view : View) : Nat → Asking → Asking
  | 0, s => s
  | fuel + 1, s =>
      match s.queue with
      | [] => s
      | entry :: rest =>
          if s.ordinary < FETCHES then
            let (s, promise) := ({ s with queue := rest } : Asking).consider entry.key view false
            nextFetch view fuel (s.resolve entry.resolver promise)
          else s

/-- A fetch is over: those that follow it are settled, and the next in the queue run. -/
def ended (view : View) : Asking :=
  nextFetch view s.queue.length
    { s with
      inflight := s.inflight.filter fun fetch => fetch.key ≠ key
      promises := s.promises.map fun promise => if promise = .following key then .settled else promise }

inductive Event
  | consider (key : Key) (urgent : Bool) (view : View)
  | ended (key : Key) (view : View)

def step : Event → Asking
  | .consider key urgent view =>
      let (s, promise) := s.consider key view urgent
      { s with promises := s.promises ++ [promise] }
  | .ended key view => if s.fetching key then s.ended key view else s

/-- A log in the queue isn't asked for as urgent while there is no slot for it and the queue has room. -/
def InTime : Event → Prop
  | .consider key true _ =>
      key ∈ s.queue.map Entry.key → s.urgent < FETCHES ∨ MAX_QUEUE ≤ s.queue.length
  | _ => True

instance InTime.decidable : ∀ event, Decidable (InTime s event)
  | .consider key true _ =>
      inferInstanceAs (Decidable (key ∈ s.queue.map Entry.key → s.urgent < FETCHES ∨ MAX_QUEUE ≤ s.queue.length))
  | .consider _ false _ => .isTrue trivial
  | .ended _ _ => .isTrue trivial

-- The directory's fetches

/-- These are the directory's fetches and its queue. -/
structure Of (dir : Directory) (s : Asking) : Prop where
  inflight : s.inflight = dir.inflight.map fun fetch => ⟨fetch.key, fetch.urgent⟩
  queue : s.queue.map Entry.key = dir.queue

/-- What a directory knows of logs. -/
def viewOf (dir : Directory) (who : Key → Option Who) (standing : Standing) : View where
  known key := (dir.logs key).isSome || dir.refused.contains key
  waits key := dir.pending.contains key && !decide (1 < Directory.limitOf who standing key)

-- What holds at all times

/-- A promise isn't forgotten: it is settled, or its resolver is in the queue, or its fetch under way. -/
def Held (s : Asking) : Promise → Prop
  | .settled => True
  | .waiting resolver => resolver ∈ s.queue.map Entry.resolver
  | .following key => key ∈ s.inflight.map Running.key

structure Sound (s : Asking) : Prop where
  urgent : s.urgent ≤ FETCHES
  ordinary : s.ordinary ≤ FETCHES
  short : s.queue.length ≤ MAX_QUEUE
  once : (s.inflight.map Running.key).Nodup
  keys : (s.queue.map Entry.key).Nodup
  resolvers : (s.queue.map Entry.resolver).Nodup
  made : ∀ entry ∈ s.queue, entry.resolver < s.next
  held : ∀ promise ∈ s.promises, s.Held promise

/-- Logs wait for their fetch only while there is no slot. -/
def Full (s : Asking) : Prop := s.queue ≠ [] → FETCHES ≤ s.ordinary

variable {s key} {view : View} {entry : Entry} {promise : Promise} {extra : List Running} {rest : List Entry}

theorem fetching_iff : s.fetching key = true ↔ key ∈ s.inflight.map Running.key := by
  exact List.contains_iff_mem

/-- An entry leaves the queue, fetches may begin, and those that wait for it settle as a promise. -/
def moved (s : Asking) (entry : Entry) (extra : List Running) (promise : Promise) : Asking :=
  ({ s with
    queue := s.queue.filter fun other => other.key ≠ entry.key
    inflight := s.inflight ++ extra } : Asking).resolve entry.resolver promise

/-- A fetch that may begin: there is a slot for it, and none of the log is under way. -/
structure MayRun (s : Asking) (fetch : Running) : Prop where
  slot : if fetch.urgent then s.urgent < FETCHES else s.ordinary < FETCHES
  idle : fetch.key ∉ s.inflight.map Running.key

theorem MayRun.urgent_le {fetch : Running} (may : MayRun s fetch) (bound : s.urgent ≤ FETCHES)
    : (s.inflight ++ [fetch]).countP (fun fetch => fetch.urgent) ≤ FETCHES := by
  have slot := may.slot
  rw [List.countP_append, List.countP_singleton]
  split at slot
  · rename_i is
    rw [if_pos is]
    exact slot
  · rename_i is
    rw [if_neg is]
    exact bound

theorem MayRun.ordinary_le {fetch : Running} (may : MayRun s fetch) (bound : s.ordinary ≤ FETCHES)
    : (s.inflight ++ [fetch]).countP (fun fetch => !fetch.urgent) ≤ FETCHES := by
  have slot := may.slot
  rw [List.countP_append, List.countP_singleton]
  split at slot
  · rename_i is
    rw [if_neg (by rw [is]; exact Bool.false_ne_true)]
    exact bound
  · rename_i is
    rw [if_pos (by rw [Bool.eq_false_iff.mpr is]; rfl)]
    exact slot

theorem MayRun.once {fetch : Running} (may : MayRun s fetch) (once : (s.inflight.map Running.key).Nodup)
    : ((s.inflight ++ [fetch]).map Running.key).Nodup := by
  rw [List.map_append, List.nodup_append]
  refine ⟨once, List.nodup_singleton _, fun key there other is same => ?_⟩
  rw [List.map_singleton, List.mem_singleton] at is
  rw [same, is] at there
  exact may.idle there

/-- An entry leaves the queue, whatever those that waited for it settle as. -/
theorem Sound.moved (sound : Sound s) (mem : entry ∈ s.queue)
    (runs : extra = [] ∨ ∃ fetch, extra = [fetch] ∧ MayRun s fetch)
    (held : promise = .settled ∨ ∃ key, promise = .following key ∧ key ∈ (s.inflight ++ extra).map Running.key)
    : Sound (s.moved entry extra promise) := by
  have queue : ((s.queue.filter fun other => other.key ≠ entry.key)).Sublist s.queue := List.filter_sublist
  have counts : (s.inflight ++ extra).countP (fun fetch => fetch.urgent) ≤ FETCHES
      ∧ (s.inflight ++ extra).countP (fun fetch => !fetch.urgent) ≤ FETCHES
      ∧ ((s.inflight ++ extra).map Running.key).Nodup := by
    rcases runs with rfl | ⟨fetch, rfl, may⟩
    · rw [List.append_nil]
      exact ⟨sound.urgent, sound.ordinary, sound.once⟩
    · exact ⟨may.urgent_le sound.urgent, may.ordinary_le sound.ordinary, may.once sound.once⟩
  refine ⟨counts.1, counts.2.1, le_trans queue.length_le sound.short, counts.2.2, sound.keys.sublist (queue.map _),
    sound.resolvers.sublist (queue.map _), fun other there => sound.made other (queue.subset there),
    fun other there => ?_⟩
  obtain ⟨before, listed, rfl⟩ := List.mem_map.mp there
  split
  · rcases held with rfl | ⟨key, rfl, fetched⟩
    · trivial
    · exact fetched
  · rename_i apart
    have kept := sound.held before listed
    cases before with
    | settled => trivial
    | waiting resolver =>
        obtain ⟨other, queued, is⟩ := List.mem_map.mp kept
        refine List.mem_map.mpr ⟨other, List.mem_filter.mpr ⟨queued, decide_eq_true fun same => ?_⟩, is⟩
        -- The only entry of that log is the one that leaves.
        have one : other = entry := List.inj_on_of_nodup_map sound.keys queued mem same
        exact apart (by rw [← is, one])
    | following key =>
        refine List.mem_map.mpr ?_
        obtain ⟨fetch, fetched, is⟩ := List.mem_map.mp kept
        exact ⟨fetch, List.mem_append_left _ fetched, is⟩

theorem Sound.run (sound : Sound s) {urgent : Bool} (may : MayRun s ⟨key, urgent⟩) : Sound (s.run key urgent).1 := by
  refine ⟨may.urgent_le sound.urgent, may.ordinary_le sound.ordinary, sound.short, may.once sound.once, sound.keys,
    sound.resolvers, sound.made, fun other there => ?_⟩
  have kept := sound.held other there
  cases other with
  | settled => trivial
  | waiting resolver => exact kept
  | following key =>
      obtain ⟨fetch, fetched, is⟩ := List.mem_map.mp kept
      exact List.mem_map.mpr ⟨fetch, List.mem_append_left _ fetched, is⟩

/-- A log waits for its turn. -/
def enqueued (s : Asking) (key : Key) : Asking :=
  { s with queue := s.queue ++ [⟨key, s.next⟩], next := s.next + 1 }

theorem Sound.enqueued (sound : Sound s) (new : key ∉ s.queue.map Entry.key) (room : s.queue.length < MAX_QUEUE)
    : Sound (s.enqueued key) := by
  have short : (s.queue ++ [(⟨key, s.next⟩ : Entry)]).length ≤ MAX_QUEUE := by
    rw [List.length_append, List.length_singleton]
    exact room
  have keys : ((s.queue ++ [(⟨key, s.next⟩ : Entry)]).map Entry.key).Nodup := by
    rw [List.map_append, List.nodup_append]
    refine ⟨sound.keys, List.nodup_singleton _, fun other there key' is same => ?_⟩
    rw [List.map_singleton, List.mem_singleton] at is
    rw [same, is] at there
    exact new there
  have resolvers : ((s.queue ++ [(⟨key, s.next⟩ : Entry)]).map Entry.resolver).Nodup := by
    rw [List.map_append, List.nodup_append]
    refine ⟨sound.resolvers, List.nodup_singleton _, fun other there resolver is same => ?_⟩
    obtain ⟨entry, queued, rfl⟩ := List.mem_map.mp there
    rw [List.map_singleton, List.mem_singleton] at is
    exact absurd (sound.made entry queued) (by rw [same, is]; exact lt_irrefl _)
  refine ⟨sound.urgent, sound.ordinary, short, sound.once, keys, resolvers, fun entry there => ?_,
    fun other there => ?_⟩
  · rcases List.mem_append.mp there with old | new
    · exact lt_trans (sound.made entry old) (Nat.lt_succ_self _)
    · rw [List.mem_singleton.mp new]
      exact Nat.lt_succ_self _
  · have kept := sound.held other there
    cases other with
    | settled => trivial
    | waiting resolver =>
        obtain ⟨entry, queued, is⟩ := List.mem_map.mp kept
        exact List.mem_map.mpr ⟨entry, List.mem_append_left _ queued, is⟩
    | following key => exact kept

-- A call

/-- What a call does, and the promise it is given: nothing, for one that is held; or the log's fetch
begins, at once or for those that waited for it too; or the log waits for its turn.
-/
inductive Considered (s : Asking) (key : Key) : Asking × Promise → Prop
  | known {promise : Promise} (held : s.Held promise) : Considered s key (s, promise)
  | run {urgent : Bool} (may : MayRun s ⟨key, urgent⟩) (new : key ∉ s.queue.map Entry.key)
    : Considered s key (s.run key urgent)
  | hurried {entry : Entry} (mem : entry ∈ s.queue) (named : entry.key = key) (may : MayRun s ⟨key, true⟩)
    : Considered s key (s.moved entry [⟨key, true⟩] (.following key), .following key)
  | queued (new : key ∉ s.queue.map Entry.key) (slots : FETCHES ≤ s.ordinary) (room : s.queue.length < MAX_QUEUE)
    : Considered s key (s.enqueued key, .waiting s.next)

theorem find?_eq_none_iff : s.queue.find? (fun entry => decide (entry.key = key)) = none
    ↔ key ∉ s.queue.map Entry.key := by
  rw [List.find?_eq_none]
  constructor
  · intro none_ there
    obtain ⟨entry, queued, is⟩ := List.mem_map.mp there
    exact none_ entry queued (decide_eq_true is)
  · intro new entry queued is
    exact new (List.mem_map.mpr ⟨entry, queued, of_decide_eq_true is⟩)

theorem considered_inTurn (new : key ∉ s.queue.map Entry.key) (idle : key ∉ s.inflight.map Running.key)
    : Considered s key (s.inTurn key) := by
  unfold inTurn
  by_cases slots : FETCHES ≤ s.ordinary
  · rw [if_pos slots]
    by_cases crowded : MAX_QUEUE ≤ s.queue.length
    · rw [if_pos crowded]
      exact .known trivial
    · rw [if_neg crowded]
      unfold setEntry
      rw [if_neg new]
      exact .queued new slots (not_le.mp crowded)
  · rw [if_neg slots]
    exact .run ⟨not_le.mp slots, idle⟩ new

theorem considered_fetch {urgent : Bool} (full : s.Full) (idle : key ∉ s.inflight.map Running.key)
    (inTime : urgent = true → key ∈ s.queue.map Entry.key → s.urgent < FETCHES ∨ MAX_QUEUE ≤ s.queue.length)
    : Considered s key (s.fetch key urgent) := by
  unfold fetch
  cases found : s.queue.find? fun entry => entry.key = key with
  | none =>
      have new := find?_eq_none_iff.mp found
      dsimp only
      split
      · rename_i hurry
        exact .run ⟨hurry.2, idle⟩ new
      · exact considered_inTurn new idle
  | some entry =>
      have mem := List.mem_of_find?_eq_some found
      have named : entry.key = key := by simpa using List.find?_some found
      have queued : key ∈ s.queue.map Entry.key := List.mem_map.mpr ⟨entry, mem, named⟩
      dsimp only
      cases urgent with
      | false =>
          rw [if_pos rfl]
          exact .known (List.mem_map_of_mem mem)
      | true =>
          rw [if_neg (by decide)]
          by_cases slot : s.urgent < FETCHES
          · rw [if_pos slot]
            subst named
            exact .hurried mem rfl ⟨slot, idle⟩
          · rw [if_neg slot]
            have crowded := (inTime rfl queued).resolve_left slot
            unfold inTurn
            rw [if_pos (full (List.ne_nil_of_mem mem)), if_pos crowded]
            exact .known trivial

theorem considered {urgent : Bool} (full : s.Full) (inTime : s.InTime (.consider key urgent view))
    : Considered s key (s.consider key view urgent) := by
  unfold consider
  split
  · exact .known trivial
  · split
    · rename_i fetched
      exact .known (fetching_iff.mp fetched)
    · rename_i idle
      split
      · exact .known trivial
      · refine considered_fetch full (fetching_iff.not.mp idle) fun hurry queued => ?_
        rw [hurry] at inTime
        exact inTime queued

-- The steps

theorem Sound.given (sound : Sound s) (held : s.Held promise)
    : Sound { s with promises := s.promises ++ [promise] } := by
  refine ⟨sound.urgent, sound.ordinary, sound.short, sound.once, sound.keys, sound.resolvers, sound.made,
    fun other there => ?_⟩
  rcases List.mem_append.mp there with old | new
  · exact sound.held other old
  · exact List.mem_singleton.mp new ▸ held

theorem Considered.sound {result : Asking × Promise} (considered : Considered s key result) (sound : Sound s)
    : Sound result.1 ∧ result.1.Held result.2 := by
  cases considered with
  | known held => exact ⟨sound, held⟩
  | run may new =>
      exact ⟨sound.run may, List.mem_map.mpr ⟨_, List.mem_append_right _ (List.mem_singleton_self _), rfl⟩⟩
  | hurried mem named may =>
      have fetched : key ∈ (s.inflight ++ [(⟨key, true⟩ : Running)]).map Running.key :=
        List.mem_map.mpr ⟨_, List.mem_append_right _ (List.mem_singleton_self _), rfl⟩
      exact ⟨sound.moved mem (.inr ⟨_, rfl, may⟩) (.inr ⟨key, rfl, fetched⟩), fetched⟩
  | queued new slots room =>
      exact ⟨sound.enqueued new room, List.mem_map.mpr ⟨_, List.mem_append_right _ (List.mem_singleton_self _), rfl⟩⟩

theorem ordinary_le_append (extra : List Running)
    : s.ordinary ≤ (s.inflight ++ extra).countP fun fetch => !fetch.urgent := by
  rw [List.countP_append]
  exact Nat.le_add_right _ _

theorem Considered.full {result : Asking × Promise} (considered : Considered s key result) (full : s.Full)
    : result.1.Full := by
  cases considered with
  | known held => exact full
  | run may new => exact fun some_ => le_trans (full some_) (ordinary_le_append _)
  | hurried mem named may => exact fun _ => le_trans (full (List.ne_nil_of_mem mem)) (ordinary_le_append _)
  | queued new slots room => exact fun _ => slots

theorem filter_first (sound : Sound s) (first : s.queue = entry :: rest)
    : (s.queue.filter fun other => other.key ≠ entry.key) = rest := by
  have keys := sound.keys
  rw [first, List.map_cons, List.nodup_cons] at keys
  rw [first, List.filter_cons_of_neg (by simp)]
  exact List.filter_eq_self.mpr fun other there => decide_eq_true fun same =>
    keys.1 (List.mem_map.mpr ⟨other, there, same⟩)

/-- The first of the queue has its turn: it is known by now, or its fetch begins. -/
theorem turn (sound : Sound s) (first : s.queue = entry :: rest) (slot : s.ordinary < FETCHES)
    : ∃ extra promise,
        (({ s with queue := rest } : Asking).consider entry.key view false).1.resolve entry.resolver
            (({ s with queue := rest } : Asking).consider entry.key view false).2
          = s.moved entry extra promise
        ∧ (extra = [] ∨ ∃ fetch, extra = [fetch] ∧ MayRun s fetch)
        ∧ (promise = .settled ∨ ∃ key, promise = .following key ∧ key ∈ (s.inflight ++ extra).map Running.key) := by
  have keys := sound.keys
  rw [first, List.map_cons, List.nodup_cons] at keys
  have moved_ (extra : List Running) (promise : Promise) : s.moved entry extra promise
      = ({ s with queue := rest, inflight := s.inflight ++ extra } : Asking).resolve entry.resolver promise := by
    unfold moved
    rw [filter_first sound first]
  unfold consider
  split
  · exact ⟨[], .settled, by rw [moved_, List.append_nil], .inl rfl, .inl rfl⟩
  · split
    · rename_i fetched
      exact ⟨[], .following entry.key, by rw [moved_, List.append_nil], .inl rfl,
        .inr ⟨_, rfl, by rw [List.append_nil]; exact fetching_iff.mp fetched⟩⟩
    · rename_i idle
      split
      · exact ⟨[], .settled, by rw [moved_, List.append_nil], .inl rfl, .inl rfl⟩
      · have new : ({ s with queue := rest } : Asking).queue.find? (fun other => decide (other.key = entry.key))
            = none := find?_eq_none_iff.mpr keys.1
        have fetch_ : ({ s with queue := rest } : Asking).fetch entry.key false
            = ({ s with queue := rest } : Asking).run entry.key false := by
          unfold fetch
          rw [new]
          rw [if_neg fun hurry => absurd hurry.1 (by decide)]
          exact if_neg (not_le.mpr slot)
        refine ⟨[⟨entry.key, false⟩], .following entry.key, by rw [fetch_, moved_]; rfl,
          .inr ⟨_, rfl, slot, fetching_iff.not.mp idle⟩, .inr ⟨_, rfl, ?_⟩⟩
        exact List.mem_map.mpr ⟨_, List.mem_append_right _ (List.mem_singleton_self _), rfl⟩

/-- No promise comes to wait with a resolver it didn't wait with, and what is settled stays so. -/
structure Onward (s s' : Asking) : Prop where
  waits
    : ∀ i resolver : Nat, i < s.promises.length → s'.promises[i]? = some (Promise.waiting resolver)
      → s.promises[i]? = some (Promise.waiting resolver)
  settled : ∀ i : Nat, s.promises[i]? = some Promise.settled → s'.promises[i]? = some Promise.settled
  longer : s.promises.length ≤ s'.promises.length

theorem Onward.refl (s : Asking) : Onward s s := ⟨fun _ _ _ is => is, fun _ is => is, le_refl _⟩

theorem Onward.trans {s' s'' : Asking} (first : Onward s s') (second : Onward s' s'') : Onward s s'' :=
  ⟨fun i resolver short is => first.waits i resolver short
      (second.waits i resolver (lt_of_lt_of_le short first.longer) is),
    fun i is => second.settled i (first.settled i is), le_trans first.longer second.longer⟩

/-- Promises that change, but what is settled doesn't, and none comes to wait. -/
theorem onward_map {s' : Asking} {change : Promise → Promise} (is : s'.promises = s.promises.map change)
    (waits : ∀ promise resolver, change promise = .waiting resolver → promise = .waiting resolver)
    (settled : change .settled = .settled)
    : Onward s s' := by
  refine ⟨fun i resolver _ at_ => ?_, fun i at_ => ?_, by rw [is, List.length_map]⟩
  · rw [is, List.getElem?_map] at at_
    obtain ⟨promise, there, same⟩ := Option.map_eq_some_iff.mp at_
    rw [there, waits promise resolver same]
  · rw [is, List.getElem?_map, at_, Option.map_some, settled]

theorem onward_moved
    (held : promise = .settled ∨ ∃ key, promise = .following key ∧ key ∈ (s.inflight ++ extra).map Running.key)
    : Onward s (s.moved entry extra promise) := by
  refine onward_map rfl (fun other resolver is => ?_) (if_neg nofun)
  split at is
  · rcases held with rfl | ⟨key, rfl, _⟩
    · cases is
    · cases is
  · exact is

/-- The next in the queue have their turn, the first ones of it, at least one of them if there is a slot. -/
theorem nextFetch_spec {fuel : Nat} (sound : Sound s) (enough : s.queue.length ≤ fuel)
    : Sound (nextFetch view fuel s) ∧ (nextFetch view fuel s).Full ∧ Onward s (nextFetch view fuel s)
      ∧ ∃ n, (nextFetch view fuel s).queue = s.queue.drop n
        ∧ (s.ordinary < FETCHES → s.queue ≠ [] → 1 ≤ n) := by
  induction fuel generalizing s with
  | zero =>
      have none_ : s.queue = [] := List.eq_nil_of_length_eq_zero (Nat.le_zero.mp enough)
      exact ⟨sound, fun some_ => absurd none_ some_, .refl s, 0, rfl, fun _ some_ => absurd none_ some_⟩
  | succ fuel ih =>
      unfold nextFetch
      cases first : s.queue with
      | nil =>
          exact ⟨sound, fun some_ => absurd first some_, .refl s, 0, by rw [first]; rfl,
            fun _ some_ => absurd rfl some_⟩
      | cons entry rest =>
          dsimp only
          by_cases slot : s.ordinary < FETCHES
          · rw [if_pos slot]
            obtain ⟨extra, promise, is, runs, held⟩ := @turn s view entry rest sound first slot
            have mem : entry ∈ s.queue := first ▸ List.mem_cons_self
            have left : (s.moved entry extra promise).queue = rest := filter_first sound first
            rw [is]
            obtain ⟨sound', full, onward, n, queue, _⟩ := ih (sound.moved mem runs held) (by
              rw [left]
              rw [first, List.length_cons] at enough
              omega)
            refine ⟨sound', full, (onward_moved held).trans onward, n + 1, ?_, fun _ _ => Nat.le_add_left _ _⟩
            rw [queue, left, List.drop_succ_cons]
          · rw [if_neg slot]
            exact ⟨sound, fun _ => not_lt.mp slot, .refl s, 0, first, fun may => absurd may slot⟩

/-- A fetch is over, before the next ones run. -/
def over_ (s : Asking) (key : Key) : Asking :=
  { s with
    inflight := s.inflight.filter fun fetch => fetch.key ≠ key
    promises := s.promises.map fun promise => if promise = .following key then .settled else promise }

theorem Sound.over_ (sound : Sound s) (key : Key) : Sound (s.over_ key) := by
  have fewer : (s.inflight.filter fun fetch => fetch.key ≠ key).Sublist s.inflight := List.filter_sublist
  refine ⟨le_trans (List.Sublist.countP_le fewer) sound.urgent, le_trans (List.Sublist.countP_le fewer) sound.ordinary,
    sound.short, sound.once.sublist (fewer.map _), sound.keys, sound.resolvers, sound.made, fun other there => ?_⟩
  obtain ⟨before, listed, rfl⟩ := List.mem_map.mp there
  split
  · trivial
  · rename_i apart
    have kept := sound.held before listed
    cases before with
    | settled => trivial
    | waiting resolver => exact kept
    | following other =>
        obtain ⟨fetch, fetched, is⟩ := List.mem_map.mp kept
        refine List.mem_map.mpr ⟨fetch, List.mem_filter.mpr ⟨fetched, decide_eq_true fun same => ?_⟩, is⟩
        exact apart (by rw [← is, same])

theorem onward_over (key : Key) : Onward s (s.over_ key) := by
  refine onward_map rfl (fun promise resolver is => ?_) (if_neg nofun)
  split at is
  · cases is
  · exact is

/-- Does the event end a fetch in an ordinary slot? -/
def endsOrdinary (s : Asking) : Event → Bool
  | .ended key _ => s.inflight.any fun fetch => fetch.key = key && !fetch.urgent
  | .consider _ _ _ => false

theorem Sound.ordinary_over {key : Key} (sound : Sound s) (ends : s.endsOrdinary (.ended key view) = true)
    : (s.over_ key).ordinary < FETCHES := by
  obtain ⟨fetch, mem, is⟩ := List.any_eq_true.mp ends
  rw [Bool.and_eq_true, decide_eq_true_iff] at is
  refine lt_of_lt_of_le ?_ sound.ordinary
  unfold Asking.ordinary Asking.over_
  rw [List.countP_eq_length_filter, List.countP_eq_length_filter, List.filter_comm]
  refine List.length_filter_lt_length_iff_exists.mpr ⟨fetch, List.mem_filter.mpr ⟨mem, is.2⟩, ?_⟩
  rw [is.1]
  simp

/-- A resolver stands no further back in the queue than it did. -/
def MovesOn (s s' : Asking) (by_ : Nat) : Prop :=
  ∀ j j' resolver, (s.queue.map Entry.resolver)[j]? = some resolver
    → (s'.queue.map Entry.resolver)[j']? = some resolver → j' + by_ ≤ j

/-- A resolver stands in the queue once. -/
theorem Sound.place_eq {j j' resolver : Nat} (sound : Sound s)
    (at_ : (s.queue.map Entry.resolver)[j]? = some resolver)
    (at_' : (s.queue.map Entry.resolver)[j']? = some resolver)
    : j' = j :=
  (List.getElem?_inj (List.getElem?_eq_some_iff.mp at_').1 sound.resolvers).mp (at_'.trans at_.symm)

theorem Considered.onward {result : Asking × Promise} (considered : Considered s key result)
    : Onward s result.1 := by
  cases considered with
  | known held => exact .refl s
  | run may new => exact ⟨fun _ _ _ is => is, fun _ is => is, le_refl _⟩
  | hurried mem named may =>
      exact onward_moved (.inr ⟨key, rfl, List.mem_map.mpr
        ⟨_, List.mem_append_right _ (List.mem_singleton_self _), rfl⟩⟩)
  | queued new slots room => exact ⟨fun _ _ _ is => is, fun _ is => is, le_refl _⟩

theorem Considered.movesOn {result : Asking × Promise} (considered : Considered s key result) (sound : Sound s)
    : MovesOn s result.1 0 := by
  intro j j' resolver at_ at_'
  cases considered with
  | known held => exact (sound.place_eq at_ at_').le
  | run may new => exact (sound.place_eq at_ at_').le
  | @hurried entry mem named may =>
      -- What is kept of the queue stands where it stood, or before.
      have fewer : ((s.moved entry [⟨key, true⟩] (.following key)).queue.map Entry.resolver).Sublist
          (s.queue.map Entry.resolver) := List.filter_sublist.map _
      obtain ⟨place, is⟩ := List.sublist_iff_exists_orderEmbedding_getElem?_eq.mp fewer
      have there := sound.place_eq at_ ((is j').symm.trans at_')
      exact there ▸ place.strictMono.le_apply
  | queued new slots room =>
      change ((s.queue ++ [(⟨key, s.next⟩ : Entry)]).map Entry.resolver)[j']? = some resolver at at_'
      rw [List.map_append, List.getElem?_append] at at_'
      split at at_'
      · exact (sound.place_eq at_ at_').le
      · obtain ⟨entry, queued, is⟩ := List.mem_map.mp (List.mem_of_getElem? at_)
        have made := sound.made entry queued
        have fresh := List.mem_of_getElem? at_'
        rw [List.map_singleton, List.mem_singleton] at fresh
        exact absurd made (by rw [is, fresh]; exact lt_irrefl _)

/-- What each step keeps; and the queue moves on in it, by one where a fetch in an ordinary slot ends. -/
theorem step_spec {event : Event} (sound : Sound s) (full : s.Full) (inTime : s.InTime event)
    : Sound (s.step event) ∧ (s.step event).Full ∧ Onward s (s.step event)
      ∧ MovesOn s (s.step event) (if s.endsOrdinary event then 1 else 0) := by
  cases event with
  | consider key urgent view =>
      have considered := considered full inTime
      obtain ⟨sound', held⟩ := considered.sound sound
      refine ⟨sound'.given held, considered.full full, considered.onward.trans ⟨fun i resolver short at_ => ?_,
        fun i at_ => ?_, ?_⟩, considered.movesOn sound⟩
      · exact (List.getElem?_append_left short).symm.trans at_
      · exact (List.getElem?_append_left (List.getElem?_eq_some_iff.mp at_).1).trans at_
      · exact (List.length_append ▸ Nat.le_add_right _ _ : _ ≤ (_ ++ [_]).length)
  | ended key view =>
      unfold step
      dsimp only
      by_cases fetched : s.fetching key = true
      · rw [if_pos fetched]
        obtain ⟨sound', full', onward, n, queue, some_⟩ := @nextFetch_spec _ view _ (sound.over_ key) (le_refl _)
        refine ⟨sound', full', (onward_over key).trans onward, fun j j' resolver at_ at_' => ?_⟩
        change ((nextFetch view s.queue.length (s.over_ key)).queue.map Entry.resolver)[j']? = some resolver at at_'
        rw [show (nextFetch view s.queue.length (s.over_ key)).queue = s.queue.drop n from queue, List.map_drop,
          List.getElem?_drop] at at_'
        have there : n + j' = j := sound.place_eq at_ at_'
        split
        · rename_i ends
          have filled : s.queue ≠ [] := by
            rintro none_
            rw [none_] at at_
            cases at_
          have moved := some_ (sound.ordinary_over ends) filled
          omega
        · omega
      · rw [if_neg fetched]
        refine ⟨sound, full, .refl s, fun j j' resolver at_ at_' => ?_⟩
        have none_ : s.endsOrdinary (.ended key view) = false := by
          refine List.any_eq_false.mpr fun fetch mem is => fetched (fetching_iff.mpr ?_)
          rw [Bool.and_eq_true, decide_eq_true_iff] at is
          exact List.mem_map.mpr ⟨fetch, mem, is.1⟩
        rw [none_]
        exact (sound.place_eq at_ at_').le

-- The directory's queue

section Directory

variable {dir : Directory} {who : Key → Option Who} {standing : Standing} {hurry : Bool}

theorem Of.urgent (of : Of dir s) : s.urgent = dir.urgent := by
  unfold Asking.urgent Directory.urgent
  rw [of.inflight, List.countP_map]
  rfl

theorem Of.ordinary (of : Of dir s) : s.ordinary = dir.ordinary := by
  unfold Asking.ordinary Directory.ordinary
  rw [of.inflight, List.countP_map]
  rfl

theorem Of.fetching (of : Of dir s) : s.fetching key = dir.fetching key := by
  unfold Asking.fetching Directory.fetching
  rw [of.inflight, List.map_map]
  rfl

theorem Of.run (of : Of dir s) {queue : List Entry} {queue' : List Key} (same : queue.map Entry.key = queue')
    : Of { dir with queue := queue', inflight := dir.inflight ++ [⟨key, hurry, .asking⟩] }
        (({ s with queue := queue } : Asking).run key hurry).1 := by
  refine ⟨?_, same⟩
  rw [of.inflight, List.map_append]
  rfl

/-- `queue.set` puts a log behind the others, unless it is in the queue. -/
theorem keys_setEntry {queue : List Entry}
    : (setEntry queue entry).map Entry.key
      = if entry.key ∈ queue.map Entry.key then queue.map Entry.key else queue.map Entry.key ++ [entry.key] := by
  unfold setEntry
  split
  · rw [List.map_map]
    refine List.map_congr_left fun other _ => ?_
    change (if other.key = entry.key then entry else other).key = other.key
    split
    · rename_i same
      exact same.symm
    · rfl
  · rw [List.map_append, List.map_singleton]

theorem Of.fetch (of : Of dir s) (unique : (s.queue.map Entry.key).Nodup)
    : Of (dir.fetch key hurry) (s.fetch key hurry).1 := by
  have inTurn : Of (if FETCHES ≤ dir.ordinary then
        if MAX_QUEUE ≤ dir.queue.length then dir
        else { dir with queue := if key ∈ dir.queue then dir.queue else dir.queue ++ [key] }
      else { dir with inflight := dir.inflight ++ [⟨key, false, .asking⟩] }) (s.inTurn key).1 := by
    unfold Asking.inTurn
    rw [of.ordinary, ← of.queue, List.length_map]
    split
    · split
      · exact of
      · exact ⟨of.inflight, keys_setEntry⟩
    · exact of.run rfl
  unfold Asking.fetch Directory.fetch
  cases found : s.queue.find? fun entry => entry.key = key with
  | none =>
      have new : key ∉ dir.queue := of.queue ▸ find?_eq_none_iff.mp found
      rw [if_neg fun queued => new queued.1, List.erase_of_not_mem new, ← of.urgent]
      rw [if_neg new] at inTurn
      split
      · exact of.run of.queue
      · exact inTurn
  | some entry =>
      have mem := List.mem_of_find?_eq_some found
      have named : entry.key = key := by simpa using List.find?_some found
      have queued : key ∈ dir.queue := of.queue ▸ List.mem_map.mpr ⟨entry, mem, named⟩
      dsimp only
      cases hurry with
      | false =>
          rw [if_pos rfl, if_pos ⟨queued, rfl⟩]
          exact of
      | true =>
          have hurried : ¬ (true = false) := fun is => nomatch is
          rw [if_neg hurried, if_neg fun is => hurried is.2, ← of.urgent]
          by_cases slot : s.urgent < FETCHES
          · rw [if_pos slot, if_pos ⟨rfl, slot⟩]
            have left : (s.queue.filter fun entry => entry.key ≠ key).map Entry.key = dir.queue.erase key := by
              rw [← of.queue, List.Nodup.erase_eq_filter unique, List.filter_map]
              refine congrArg _ (List.filter_congr fun other _ => ?_)
              by_cases same : other.key = key <;> simp [same]
            have ran := @Of.run s key dir true of _ _ left
            exact ⟨ran.inflight, ran.queue⟩
          · rw [if_neg slot, if_neg fun is => slot is.2]
            exact inTurn

theorem Of.consider (of : Of dir s) (unique : (s.queue.map Entry.key).Nodup)
    : Of (dir.consider key who standing hurry) (s.consider key (viewOf dir who standing) hurry).1 := by
  have known : (viewOf dir who standing).known key = true ↔ (dir.logs key).isSome ∨ key ∈ dir.refused := by
    simp [viewOf]
  have waits : (viewOf dir who standing).waits key = true
      ↔ key ∈ dir.pending ∧ ¬ 1 < Directory.limitOf who standing key := by
    simp [viewOf]
  unfold Asking.consider Directory.consider
  simp only [of.fetching, known, waits]
  split
  · exact of
  · split
    · exact of
    · by_cases pending : key ∈ dir.pending
      · by_cases counts : 1 < Directory.limitOf who standing key
        · simp only [pending, counts, not_true, and_false, if_true, if_false]
          exact of.fetch unique
        · simp only [pending, counts, not_false_iff, and_self, if_true, if_false]
          exact of
      · simp only [pending, false_and, if_false]
        exact of.fetch unique

theorem viewOf_consider : viewOf (dir.consider key who standing hurry) who standing = viewOf dir who standing := by
  have fetch_ : viewOf (dir.fetch key hurry) who standing = viewOf dir who standing := by
    unfold Directory.fetch
    split_ifs <;> rfl
  unfold Directory.consider
  split_ifs
  · rfl
  · rfl
  · exact fetch_
  · rfl
  · exact fetch_

theorem Of.nextFetch {fuel : Nat} (of : Of dir s) (sound : Sound s) (view_ : viewOf dir who standing = view)
    : Of (dir.nextFetch who standing fuel) (nextFetch view fuel s) := by
  induction fuel generalizing dir s with
  | zero => exact of
  | succ fuel ih =>
      unfold Asking.nextFetch Directory.nextFetch
      cases first : s.queue with
      | nil =>
          have none_ : dir.queue = [] := by rw [← of.queue, first, List.map_nil]
          rw [none_]
          exact of
      | cons entry rest =>
          have first' : dir.queue = entry.key :: rest.map Entry.key := by rw [← of.queue, first, List.map_cons]
          rw [first']
          dsimp only
          rw [of.ordinary]
          by_cases slot : dir.ordinary < FETCHES
          · rw [if_pos slot, if_pos slot]
            have keys := sound.keys
            rw [first, List.map_cons, List.nodup_cons] at keys
            have taken : Of { dir with queue := rest.map Entry.key } { s with queue := rest } := ⟨of.inflight, rfl⟩
            have considered : Of (({ dir with queue := rest.map Entry.key } : Directory).consider entry.key who
                standing false) (({ s with queue := rest } : Asking).consider entry.key view false).1 := by
              have same : view = viewOf ({ dir with queue := rest.map Entry.key } : Directory) who standing := view_.symm
              rw [same]
              exact taken.consider keys.2
            obtain ⟨extra, promise, is, runs, held⟩ := @turn s view entry rest sound first (of.ordinary ▸ slot)
            refine ih ⟨considered.inflight, considered.queue⟩ ?_ ?_
            · rw [is]
              exact sound.moved (first ▸ List.mem_cons_self) runs held
            · exact viewOf_consider.trans view_
          · rw [if_neg slot, if_neg slot]
            exact of

/-- The end of a fetch leaves the directory's fetches and queue, as it knows of logs then. -/
theorem Of.ended (of : Of dir s) (sound : Sound s)
    : Of (dir.ended key who standing) (s.ended key (viewOf dir who standing)) := by
  have length : dir.queue.length = s.queue.length := by rw [← of.queue, List.length_map]
  unfold Asking.ended Directory.ended
  rw [length]
  refine Of.nextFetch ⟨?_, of.queue⟩ (sound.over_ key) rfl
  rw [of.inflight, List.filter_map]
  rfl

end Directory

-- Runs

/-- How many fetches in ordinary slots end in a run. -/
def ends : Asking → List Event → Nat
  | _, [] => 0
  | s, event :: rest => (if s.endsOrdinary event then 1 else 0) + ends (s.step event) rest

/-- The slots and the queue keep their bounds, and no promise is forgotten. -/
structure Kept (s : Asking) : Prop where
  urgent : s.urgent ≤ FETCHES
  ordinary : s.ordinary ≤ FETCHES
  queue : s.queue.length ≤ MAX_QUEUE
  held : ∀ promise ∈ s.promises, s.Held promise

/-- Promises settle: one that follows a fetch, when it is over; one that waits, once the fetches before
it are: the ordinary slots are all taken as long as any waits, and as many of their fetches end before
it has its turn as wait before it.
-/
structure Settles (s : Asking) : Prop where
  followed
    : ∀ (i : Nat) key view, s.promises[i]? = some (.following key)
      → (s.step (.ended key view)).promises[i]? = some .settled
  busy : s.queue ≠ [] → s.ordinary = FETCHES
  waited
    : ∀ (i j resolver : Nat) later, s.promises[i]? = some (.waiting resolver)
      → (s.queue.map Entry.resolver)[j]? = some resolver → Each step InTime s later → j < s.ends later
      → ∃ promise, (later.foldl step s).promises[i]? = some promise ∧ ∀ other, promise ≠ .waiting other

theorem sound_run {events : List Event} (sound : Sound s) (full : s.Full) (inTime : Each step InTime s events)
    : Sound (events.foldl step s) ∧ (events.foldl step s).Full ∧ Onward s (events.foldl step s) := by
  induction events generalizing s with
  | nil => exact ⟨sound, full, .refl s⟩
  | cons event rest ih =>
      obtain ⟨sound', full', onward, _⟩ := step_spec sound full inTime.1
      obtain ⟨sound'', full'', later⟩ := ih sound' full' inTime.2
      exact ⟨sound'', full'', onward.trans later⟩

/-- As long as a promise waits, no more fetches in ordinary slots end than waited before it. -/
theorem ends_le {events : List Event} {i j resolver resolver' : Nat} (sound : Sound s) (full : s.Full)
    (inTime : Each step InTime s events) (at_ : s.promises[i]? = some (.waiting resolver))
    (place : (s.queue.map Entry.resolver)[j]? = some resolver)
    (still : (events.foldl step s).promises[i]? = some (.waiting resolver'))
    : s.ends events ≤ j := by
  induction events generalizing s j resolver with
  | nil => exact Nat.zero_le _
  | cons event rest ih =>
      obtain ⟨sound', full', onward, moves⟩ := step_spec sound full inTime.1
      obtain ⟨_, _, later⟩ := sound_run sound' full' inTime.2
      have short := (List.getElem?_eq_some_iff.mp at_).1
      have next := later.waits i resolver' (lt_of_lt_of_le short onward.longer) still
      have same : resolver' = resolver := by
        have before := onward.waits i resolver' short next
        rw [at_] at before
        injection before with is
        injection is with is
        exact is.symm
      obtain ⟨j', place'⟩ := List.mem_iff_getElem?.mp (sound'.held _ (List.mem_of_getElem? next))
      have before := moves j j' resolver place (same ▸ place')
      have after := ih sound' full' inTime.2 next place' still
      rw [ends]
      omega

theorem sound_empty : Sound empty where
  urgent := Nat.zero_le _
  ordinary := Nat.zero_le _
  short := Nat.zero_le _
  once := List.nodup_nil
  keys := List.nodup_nil
  resolvers := List.nodup_nil
  made _ mem := nomatch mem
  held _ mem := nomatch mem

/-- No call is forgotten, whatever the order of calls and ends of fetches, but for logs of the queue asked
for as urgent without a slot: the bounds hold, each promise is held, and settles.
-/
theorem requests_kept {events : List Event} (inTime : Each step InTime empty events)
    : Kept (events.foldl step empty) ∧ Settles (events.foldl step empty) := by
  obtain ⟨sound, full, _⟩ := sound_run sound_empty (fun some_ => absurd rfl some_) inTime
  generalize events.foldl step empty = s at sound full
  refine ⟨⟨sound.urgent, sound.ordinary, sound.short, sound.held⟩, fun i key view at_ => ?_, fun some_ => ?_,
    fun i j resolver later at_ place inTime ends => ?_⟩
  · have fetched : s.fetching key = true := fetching_iff.mpr (sound.held _ (List.mem_of_getElem? at_))
    have over_ : (s.over_ key).promises[i]? = some .settled := by
      unfold over_
      rw [List.getElem?_map, at_, Option.map_some, if_pos rfl]
    have ended_ : s.step (.ended key view) = nextFetch view s.queue.length (s.over_ key) := if_pos fetched
    obtain ⟨_, _, onward, _⟩ := @nextFetch_spec _ view _ (sound.over_ key) (le_refl _)
    rw [ended_]
    exact onward.settled i over_
  · exact le_antisymm sound.ordinary (full some_)
  · obtain ⟨_, _, onward⟩ := sound_run sound full inTime
    have short := lt_of_lt_of_le (List.getElem?_eq_some_iff.mp at_).1 onward.longer
    refine ⟨_, List.getElem?_eq_getElem short, fun other is => ?_⟩
    have still : (later.foldl step s).promises[i]? = some (.waiting other) := by
      rw [List.getElem?_eq_getElem short, is]
    exact absurd (ends_le sound full inTime at_ place still) (not_le.mpr ends)

-- A flood of keys

/-- Nothing is known of any log. -/
def unknown : View := ⟨fun _ => false, fun _ => false⟩

def named (urgent : Bool) (first : Nat) : List Event :=
  (List.range FETCHES).map fun i => .consider [UInt8.ofNat (first + i)] urgent unknown

/-- Peers name logs enough for every slot, and one more that a member announces besides. -/
def announced : List Event :=
  named false 0 ++ named true 16 ++ [.consider [32] false unknown, .consider [32] true unknown]

theorem announced_forgets
    : (announced.foldl step empty).queue = [⟨[32], 1⟩]
      ∧ (announced.foldl step empty).promises[32]? = some (.waiting 0) := by
  decide +kernel

/-- The first to ask for the log waits for ever. -/
theorem overwritten_forgotten : ¬ Kept (announced.foldl step empty) := by
  obtain ⟨queue, promise⟩ := announced_forgets
  intro kept
  have held : 0 ∈ (announced.foldl step empty).queue.map Entry.resolver := kept.held _ (List.mem_of_getElem? promise)
  rw [queue] at held
  exact absurd held (by decide)

/-- Three logs are named with the slots taken; the first is asked for again as urgent, and a fetch ends. -/
def askedAgain : List Event :=
  named false 0 ++ [.consider [32] false unknown, .consider [33] false unknown, .consider [34] false unknown,
    .consider [32] true unknown, .ended [0] unknown]

/-- The last log named still waits. -/
theorem requests_kept_again
    : (askedAgain.foldl step empty).queue.map Entry.key = [[34]]
      ∧ Kept (askedAgain.foldl step empty) ∧ Settles (askedAgain.foldl step empty) := by
  exact ⟨by decide +kernel, requests_kept (by decide +kernel)⟩

end Asking

end Hypergraph.Logs
