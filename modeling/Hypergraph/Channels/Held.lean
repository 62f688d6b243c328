import Hypergraph.Channels.Replication
import Hypergraph.Lib.Runs

/-! Held means held: every block of what a member's replicator lists as held is here, as far as closed
segments come as they were held, and drops spare what is held.
-/

namespace Hypergraph.Channels

open Wire Js Encodings Runs

-- Ranges of blocks

def Range.Covers (range : Range) (log : Key) (index : Nat) : Prop :=
  range.log = log ∧ range.start ≤ index ∧ index < range.stop

/-- Is a block in a range of the item's plan? -/
def Item.Covers (item : Item) (log : Key) (index : Nat) : Prop :=
  ∃ range ∈ item.ranges, range.Covers log index

/-- Every block of the item's ranges is here. -/
def Item.Here (item : Item) (blocks : Key → Nat → Bool) : Prop :=
  ∀ log index, item.Covers log index → blocks log index = true

section Ranges

variable {r : Replicator} {item : Item} {blocks blocks' : Key → Nat → Bool}

theorem Item.Here.mono (here : item.Here blocks)
    (kept : ∀ log index, item.Covers log index → blocks log index = true → blocks' log index = true)
    : item.Here blocks' :=
  fun log index covers => kept log index covers (here log index covers)

theorem complete_iff : r.complete item = true ↔ item.Here r.blocks := by
  unfold Replicator.complete Replicator.has Item.Here Item.Covers Range.Covers
  simp only [List.all_eq_true, List.mem_range'_1]
  constructor
  · rintro all log index ⟨range, mem, rfl, from_, to_⟩
    exact all range mem index ⟨from_, by omega⟩
  · intro here range mem index within
    exact here range.log index ⟨range, mem, rfl, within.1, by omega⟩

end Ranges

-- Steps that keep what is held

/-- What a pass about to end with nothing to try again has found here. -/
def Phase.found : Phase → List Item
  | .sweeping _ want _ false false => want
  | _ => []

/-- A closed segment is looked at whose blocks are here, but for those it is held with already; and
what is cleared is in no plan that is held, or that the pass has found here.
-/
def Spares (r : Replicator) : Event → Prop
  | .settle =>
      ∀ fits want item left retry, r.phase = .holding fits want (item :: left) true retry
        → item.current = false → ∀ before, r.held.get? item.key = some before
          → ∀ log index, item.Covers log index → before.Covers log index ∨ r.blocks log index = true
  | .clear _ =>
      ∀ c rest, r.queue = c :: rest → ∀ index, r.clears c index = true
        → (∀ segment item, r.held.get? segment = some item → ¬ item.Covers c.range.log index)
          ∧ ∀ item ∈ r.phase.found, ¬ item.Covers c.range.log index
  | _ => True

/-- What is listed as held is here, and so is what a pass has come through. -/
structure Sound (r : Replicator) : Prop where
  held : ∀ segment item, r.held.get? segment = some item → item.Here r.blocks
  planning : ∀ budget cursors want, r.phase = .planning budget cursors want
    → r.queue = [] ∧ (r.mode = .all → budget = none)
  holding : ∀ fits want left waiting retry, r.phase = .holding fits want left waiting retry
    → r.queue = [] ∧ (r.mode = .all → fits = true)
      ∧ ∃ done, want = done ++ left ∧ (retry = false → ∀ item ∈ done, item.Here r.blocks)
  sweeping : ∀ fits want left stalled retry, r.phase = .sweeping fits want left stalled retry
    → (r.mode = .all → fits = true)
      ∧ (stalled = false → retry = false → ∀ item ∈ want, item.Here r.blocks)

section Steps

variable {r r' : Replicator} {event : Event}

theorem sound_new (mode : Mode) (budget : Nat) (writable : Key → Bool) (blocks : Key → Nat → Bool)
    : Sound (.new mode budget writable blocks) where
  held segment item found := by cases found
  planning budget cursors want phase := by cases phase
  holding fits want left waiting retry phase := by cases phase
  sweeping fits want left stalled retry phase := by cases phase

/-- Where nothing of what is held, found here or going on changes, and no block goes. -/
theorem Sound.of_same (sound : Sound r) (held : r'.held = r.held) (mode : r'.mode = r.mode)
    (phase : r'.phase = r.phase) (queue : r'.queue = r.queue)
    (blocks : ∀ log index, r.blocks log index = true → r'.blocks log index = true)
    : Sound r' where
  held segment item found := by
    rw [held] at found
    exact (sound.held segment item found).mono fun log index _ => blocks log index
  planning budget cursors want now := by
    rw [phase] at now
    rw [mode, queue]
    exact sound.planning budget cursors want now
  holding fits want left waiting retry now := by
    rw [phase] at now
    rw [mode, queue]
    obtain ⟨none_, all, done, split, here⟩ := sound.holding fits want left waiting retry now
    exact ⟨none_, all, done, split, fun good item mem =>
      (here good item mem).mono fun log index _ => blocks log index⟩
  sweeping fits want left stalled retry now := by
    rw [phase] at now
    rw [mode]
    obtain ⟨all, here⟩ := sound.sweeping fits want left stalled retry now
    exact ⟨all, fun ends good item mem =>
      (here ends good item mem).mono fun log index _ => blocks log index⟩

/-- A state of a pass in which nothing is to be shown but what is held. -/
theorem Sound.of_held (held : ∀ segment item, r.held.get? segment = some item → item.Here r.blocks)
    (phase : r.phase = .idle ∨ ∃ left, r.phase = .trimming left)
    : Sound r where
  held := held
  planning budget cursors want now := by
    rcases phase with is | ⟨left, is⟩ <;> rw [is] at now <;> cases now
  holding fits want left waiting retry now := by
    rcases phase with is | ⟨left, is⟩ <;> rw [is] at now <;> cases now
  sweeping fits want left stalled retry now := by
    rcases phase with is | ⟨left, is⟩ <;> rw [is] at now <;> cases now

/-- The pass goes on, where what it has come through is here. -/
theorem sound_holdNext {fits : Bool} {want left done : List Item} {stalled retry : Bool}
    (held : ∀ segment item, r.held.get? segment = some item → item.Here r.blocks)
    (queue : r.queue = []) (all : r.mode = .all → fits = true) (split : want = done ++ left)
    (here : retry = false → stalled = false → ∀ item ∈ done, item.Here r.blocks)
    : Sound (r.holdNext fits want left stalled retry) := by
  unfold Replicator.holdNext
  split
  · rename_i ends
    refine ⟨held, fun _ _ _ now => ?_, fun _ _ _ _ _ now => ?_, fun _ _ _ _ _ now => ?_⟩
    · cases now
    · cases now
    · cases now
      refine ⟨all, fun going good item mem => ?_⟩
      rcases ends with is | none_
      · rw [going] at is
        cases is
      · rw [split, none_, List.append_nil] at mem
        exact here good going item mem
  · rename_i goes
    refine ⟨held, fun _ _ _ now => ?_, fun _ _ _ _ _ now => ?_, fun _ _ _ _ _ now => ?_⟩
    · cases now
    · cases now
      refine ⟨queue, all, done, split, fun good => here good ?_⟩
      cases stalled with
      | false => rfl
      | true => exact absurd (.inl rfl) goes
    · cases now

theorem plan_same (r : Replicator) (w : World) (c : Cursor) (segment : Int)
    : ∃ closedPlans, (r.plan w c segment).1 = { r with closedPlans := closedPlans } := by
  unfold Replicator.plan
  dsimp only
  split
  · exact ⟨r.closedPlans, rfl⟩
  · split
    · exact ⟨_, rfl⟩
    · exact ⟨r.closedPlans, rfl⟩

theorem sound_planNext (sound : Sound r) {budget : Option Nat} {cursors : List Cursor} {want : List Item}
    (phase : r.phase = .planning budget cursors want) (w : World)
    : Sound (r.planNext w budget cursors want) := by
  obtain ⟨queue, all⟩ := sound.planning budget cursors want phase
  unfold Replicator.planNext
  split
  · exact @sound_holdNext _ _ _ _ [] _ _ sound.held queue (fun _ => rfl) rfl nofun
  · rename_i c others _
    obtain ⟨closedPlans, same⟩ := plan_same r w c c.next
    dsimp only
    rw [same]
    split
    · exact .of_held sound.held (.inl rfl)
    · split
      · rename_i beyond
        refine @sound_holdNext _ _ _ _ [] _ _ sound.held queue (fun is => ?_) rfl nofun
        rw [all is] at beyond
        cases beyond
      · refine ⟨sound.held, fun _ _ _ now => ?_, fun _ _ _ _ _ now => ?_, fun _ _ _ _ _ now => ?_⟩
        · cases now
          exact ⟨queue, all⟩
        · cases now
        · cases now

/-- What came of a segment is looked at: it is listed as held where it is here. -/
theorem sound_settle (sound : Sound r) {fits : Bool} {want left : List Item} {item : Item} {retry : Bool}
    (phase : r.phase = .holding fits want (item :: left) true retry) (spares : Spares r .settle)
    : Sound (r.settle fits want item left retry) := by
  obtain ⟨queue, all, done, split, here⟩ := sound.holding _ _ _ _ _ phase
  -- what is taken for done is here
  have came (is : ((!item.current && (r.held.get? item.key).isSome)
      || (r.complete item && !item.unknown)) = true) : item.Here r.blocks := by
    rcases Bool.or_eq_true_iff.mp is with before | whole
    · obtain ⟨closed, known⟩ := Bool.and_eq_true_iff.mp before
      obtain ⟨before, known⟩ := Option.isSome_iff_exists.mp known
      intro log index covers
      rcases spares _ _ _ _ _ phase (by simpa using closed) before known log index covers with held | is
      · exact sound.held _ _ known log index held
      · exact is
    · exact complete_iff.mp (Bool.and_eq_true_iff.mp whole).1
  unfold Replicator.settle
  refine @sound_holdNext _ _ _ _ (done ++ [item]) _ _ ?_ ?_ ?_ ?_ ?_
  · intro segment found at_
    split at at_
    · rename_i is
      rw [if_pos is]
      rw [Dict.get?_put] at at_
      split at at_
      · cases at_
        exact came is
      · exact sound.held segment found at_
    · rename_i isnt
      rw [if_neg isnt]
      exact sound.held segment found at_
  · split <;> exact queue
  · split <;> exact all
  · rw [split, List.append_assoc]
    rfl
  · intro good going found mem
    obtain ⟨good, known⟩ := Bool.or_eq_false_iff.mp good
    have same : ∀ {dict}, (if (((!item.current && (r.held.get? item.key).isSome)
        || (r.complete item && !item.unknown)) = true) then ({ r with held := dict } : Replicator)
        else r).blocks = r.blocks := by
      intro dict
      split <;> rfl
    rw [same]
    rcases List.mem_append.mp mem with mem | mem
    · exact here good found mem
    · cases List.mem_singleton.mp mem
      refine came ?_
      rw [known, Bool.not_false, Bool.true_and, Bool.not_eq_false'] at going
      rw [known]
      exact going

theorem sound_clear (sound : Sound r) {c : Clearing} {rest : List Clearing} (queue : r.queue = c :: rest)
    {works : Bool} (spares : Spares r (.clear works))
    : Sound { r.clear c with queue := rest } := by
  have spared (item : Item) (apart : ∀ index, r.clears c index = true → ¬ item.Covers c.range.log index)
      (here : item.Here r.blocks) : item.Here (r.clear c).blocks := by
    refine here.mono fun log index covers is => ?_
    change (r.blocks log index && !(decide (log = c.range.log) && r.clears c index)) = true
    rw [is, Bool.true_and, Bool.not_eq_true', Bool.and_eq_false_iff]
    by_cases same : log = c.range.log
    · right
      subst same
      exact Bool.eq_false_iff.mpr fun cleared => apart index cleared covers
    · exact .inl (decide_eq_false same)
  refine ⟨fun segment item found => ?_, fun _ _ _ now => ?_, fun _ _ _ _ _ now => ?_,
    fun _ _ _ _ _ now => ?_⟩
  · exact spared item (fun index is => (spares c rest queue index is).1 segment item found)
      (sound.held segment item found)
  · have none_ := (sound.planning _ _ _ now).1
    rw [queue] at none_
    cases none_
  · have none_ := (sound.holding _ _ _ _ _ now).1
    rw [queue] at none_
    cases none_
  · obtain ⟨all, here⟩ := sound.sweeping _ _ _ _ _ now
    refine ⟨all, fun ends good item mem => spared item (fun index is => ?_) (here ends good item mem)⟩
    refine (spares c rest queue index is).2 item ?_
    have phase : r.phase = .sweeping _ _ _ _ _ := now
    rw [phase, ends, good]
    exact mem

theorem retryLater_same (r : Replicator) (schedule : Option (List Nat))
    : (r.retryLater schedule).held = r.held ∧ (r.retryLater schedule).blocks = r.blocks
      ∧ (r.retryLater schedule).phase = r.phase := by
  unfold Replicator.retryLater
  split
  · exact ⟨rfl, rfl, rfl⟩
  · split <;> exact ⟨rfl, rfl, rfl⟩

/-- Every event that spares what is held keeps it here. -/
theorem sound_step (sound : Sound r) (spares : Spares r event) (step : r.next event = some r')
    : Sound r' := by
  cases event with
  | arrive log index byteLength =>
      cases step
      refine sound.of_same rfl rfl rfl rfl fun other i is => ?_
      change (r.blocks other i || _) = true
      rw [is, Bool.true_or]
  | read segment ranges at_ =>
      cases step
      unfold Replicator.noteRead
      split
      · exact sound
      · exact sound.of_same rfl rfl rfl rfl fun _ _ is => is
  | start =>
      simp only [Replicator.next] at step
      split at step
      · split at step
        · cases step
        · cases step
          exact .of_held sound.held (.inr ⟨_, rfl⟩)
      · cases step
  | trim =>
      simp only [Replicator.next] at step
      split at step
      · split at step <;> cases step
        · exact .of_held sound.held (.inr ⟨_, rfl⟩)
        · exact .of_held sound.held (.inr ⟨_, rfl⟩)
      · cases step
  | clear works =>
      simp only [Replicator.next] at step
      split at step
      · rename_i c rest queue
        cases step
        cases works with
        | true => exact sound_clear sound queue spares
        | false =>
            refine ⟨sound.held, fun _ _ _ now => ?_, fun _ _ _ _ _ now => ?_, sound.sweeping⟩
            · have none_ := (sound.planning _ _ _ now).1
              rw [queue] at none_
              cases none_
            · have none_ := (sound.holding _ _ _ _ _ now).1
              rw [queue] at none_
              cases none_
      · cases step
  | survey w =>
      simp only [Replicator.next] at step
      split at step
      · rename_i queue
        cases step
        refine ⟨sound.held, fun _ _ _ now => ?_, fun _ _ _ _ _ now => ?_, fun _ _ _ _ _ now => ?_⟩
        · cases now
          exact ⟨queue, fun all => if_pos all⟩
        · cases now
        · cases now
      · cases step
  | plan w =>
      simp only [Replicator.next] at step
      split at step
      · rename_i phase
        cases step
        exact sound_planNext sound phase w
      · cases step
  | hold =>
      simp only [Replicator.next] at step
      split at step
      · rename_i fits want item left retry phase
        obtain ⟨queue, all, done, split_, here⟩ := sound.holding _ _ _ _ _ phase
        split at step
        · cases step
          exact .of_held sound.held (.inl rfl)
        · cases step
          refine ⟨?_, fun _ _ _ now => ?_, fun _ _ _ _ _ now => ?_, fun _ _ _ _ _ now => ?_⟩
          · split <;> exact sound.held
          · cases now
          · cases now
            split <;> exact ⟨queue, all, done, split_, here⟩
          · cases now
      · cases step
  | settle =>
      simp only [Replicator.next] at step
      split at step
      · rename_i phase
        cases step
        exact sound_settle sound phase spares
      · cases step
  | sweep =>
      simp only [Replicator.next] at step
      split at step
      · rename_i phase queue
        cases step
        refine ⟨fun segment item found => ?_, fun _ _ _ now => ?_, fun _ _ _ _ _ now => ?_,
          fun _ _ _ _ _ now => ?_⟩
        · rw [Dict.get?_remove] at found
          split at found
          · cases found
          · exact sound.held segment item found
        · cases now
        · cases now
        · cases now
          exact sound.sweeping _ _ _ _ _ phase
      · cases step
  | finish =>
      simp only [Replicator.next] at step
      split at step
      · cases step
        unfold Replicator.finish
        refine .of_held ?_ (.inl (retryLater_same _ _).2.2)
        rw [(retryLater_same _ _).1, (retryLater_same _ _).2.1]
        exact sound.held
      · cases step
  | retry =>
      cases step
      exact sound.of_same rfl rfl rfl rfl fun _ _ is => is
  | close =>
      cases step
      exact sound.of_same rfl rfl rfl rfl fun _ _ is => is

end Steps

-- Runs

/-- What is listed as held is here, and a pass of a member that holds everything, about to end with
nothing to try again, has left out no segment and found every block planned.
-/
structure HeldHere (r : Replicator) : Prop where
  held : ∀ segment item, r.held.get? segment = some item → item.Here r.blocks
  pass
    : ∀ fits want, r.mode = .all → r.phase = .sweeping fits want [] false false → r.queue = []
        → fits = true ∧ ∀ item ∈ want, item.Here r.blocks

/-- In every run whose events spare what is held, held means held. -/
theorem held_run {mode : Mode} {budget : Nat} {writable : Key → Bool} {blocks : Key → Nat → Bool}
    {events : List Event} {r : Replicator}
    (far : AsFar Replicator.next Spares (.new mode budget writable blocks) events)
    (ran : events.foldlM Replicator.next (.new mode budget writable blocks) = some r)
    : HeldHere r := by
  have sound : Sound r := by
    refine AsFar.keeps Sound ?_ (sound_new mode budget writable blocks) far ran
    exact fun r event r' sound spares step => sound_step sound spares step
  refine ⟨sound.held, fun fits want all phase _ => ?_⟩
  obtain ⟨whole, here⟩ := sound.sweeping _ _ _ _ _ phase
  exact ⟨whole all, here rfl rfl⟩

-- A segment held while it is current, and closed longer

/-- Events that plainly spare what is held: no block is cleared, and what is looked at is current or
not held yet.
-/
def sparesPlainly (r : Replicator) : Event → Bool
  | .settle =>
      match r.phase with
      | .holding _ _ (item :: _) _ _ => item.current || (r.held.get? item.key).isNone
      | _ => true
  | .clear _ => false
  | _ => true

def sparesAll : Replicator → List Event → Bool
  | _, [] => true
  | r, event :: rest =>
      sparesPlainly r event
        && match r.next event with
          | some r' => sparesAll r' rest
          | none => true

theorem spares_of_plainly {r : Replicator} {event : Event} (plain : sparesPlainly r event = true)
    : Spares r event := by
  cases event with
  | settle =>
      intro fits want item left retry phase closed before known
      simp only [sparesPlainly, phase, closed, known] at plain
      cases plain
  | clear works => cases plain
  | _ => trivial

/-- Induction on the events. -/
theorem asFar_of_all {r : Replicator} {events : List Event} (all : sparesAll r events = true)
    : AsFar Replicator.next Spares r events := by
  induction events generalizing r with
  | nil => trivial
  | cons event rest ih =>
      obtain ⟨plain, later⟩ := Bool.and_eq_true_iff.mp all
      refine ⟨spares_of_plainly plain, fun r' step => ?_⟩
      rw [step] at later
      exact ih later

/-- An author's log, of so many blocks at that time, listed in the channel's first segment. -/
def oneAuthor (now length : Nat) : World where
  now := now
  channels := [⟨[1], 10, 0⟩]
  latest _ most := if 0 ≤ most then 0 else -1
  entries _ _ := [⟨[2], [3], 0⟩]
  length _ := length
  byteLength _ := 80 * length

/-- A member who holds everything, of which nothing is here yet. -/
def holdsAll : Replicator := .new .all 0 (fun _ => false) fun _ _ => false

/-- The first segment's only block is planned, comes, and is listed as held. -/
def firstPass : List Event :=
  [.start, .survey (oneAuthor 5 1), .plan (oneAuthor 5 1), .plan (oneAuthor 5 1), .hold,
    .arrive [3] 0 80, .settle]

/-- The segment closes, once its author posted another message, which doesn't come. -/
def secondPass : List Event :=
  [.finish, .start, .survey (oneAuthor 25 2), .plan (oneAuthor 25 2), .plan (oneAuthor 25 2), .hold,
    .settle]

/-- The first segment as it is planned with so many blocks. -/
def firstSegment (blocks bytes : Nat) (current : Bool) : Item :=
  ⟨[1], 0, [⟨[3], 0, blocks⟩], bytes, current, false⟩

/-- What a state shows of the first segment: what it is held with, whether its second block is here,
and whether the pass ends well.
-/
def shows (r : Replicator) : Option Item × Bool × Bool × Bool :=
  (r.held.get? ([1], 0), r.blocks [3] 1, r.mode = .all && r.queue.isEmpty,
    match r.phase with
    | .sweeping true _ [] false false => true
    | _ => false)

theorem passes_show
    : (firstPass.foldlM Replicator.next holdsAll).map shows
        = some (some (firstSegment 1 210 true), false, true, true)
      ∧ ((firstPass ++ secondPass).foldlM Replicator.next holdsAll).map shows
        = some (some (firstSegment 2 420 false), false, true, true)
      ∧ sparesAll holdsAll firstPass = true := by
  decide +kernel

/-- Witness: after the first pass, what is held is here. -/
theorem first_pass_held
    : ∃ r, firstPass.foldlM Replicator.next holdsAll = some r ∧ (r.held.get? ([1], 0)).isSome = true
        ∧ HeldHere r := by
  obtain ⟨shown, _, plain⟩ := passes_show
  obtain ⟨r, ran, shown⟩ := Option.map_eq_some_iff.mp shown
  refine ⟨r, ran, ?_, held_run (asFar_of_all plain) ran⟩
  rw [(Prod.mk.inj shown).1]
  rfl

/-- The second pass ends with nothing to try again, and lists the segment as held with both blocks;
the second isn't here.
-/
theorem closed_block_missing
    : ∃ r, (firstPass ++ secondPass).foldlM Replicator.next holdsAll = some r
        ∧ (∃ want, r.mode = .all ∧ r.phase = .sweeping true want [] false false ∧ r.queue = [])
        ∧ r.held.get? ([1], 0) = some (firstSegment 2 420 false) ∧ r.blocks [3] 1 = false
        ∧ ¬ HeldHere r := by
  obtain ⟨_, shown, _⟩ := passes_show
  obtain ⟨r, ran, shown⟩ := Option.map_eq_some_iff.mp shown
  obtain ⟨held, shown⟩ := Prod.mk.inj shown
  obtain ⟨missing, shown⟩ := Prod.mk.inj shown
  obtain ⟨ends, phase⟩ := Prod.mk.inj shown
  refine ⟨r, ran, ?_, held, missing, fun whole => ?_⟩
  · obtain ⟨all, queue⟩ := Bool.and_eq_true_iff.mp ends
    split at phase
    · rename_i want is
      exact ⟨want, of_decide_eq_true all, is, List.isEmpty_iff.mp queue⟩
    · cases phase
  · have here := whole.held _ _ held [3] 1 ⟨⟨[3], 0, 2⟩, .head _, rfl, by decide, by decide⟩
    rw [missing] at here
    cases here

end Hypergraph.Channels
