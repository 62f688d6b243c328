import Hypergraph.Logs.Asking

/-! The directory's runs, and the promises of its calls (`lib/directory.js`): whatever a member is told,
decides and fetches, the directory's fetches and its queue are those of its calls, as long as no log that
waits in the queue is asked for as urgent while there is no slot for it.
-/

namespace Hypergraph.Logs

/-- As `Asking.InTime`, of a directory's step. -/
def Directory.InTime (dir : Directory) : Event → Prop
  | .consider key true => key ∈ dir.queue → dir.urgent < FETCHES ∨ MAX_QUEUE ≤ dir.queue.length
  | _ => True

namespace Asking

/-- What calls and ends of fetches in time lead to. -/
inductive Reached : Asking → Prop
  | empty : Reached empty
  | step {s : Asking} (event : Event) (before : Reached s) (inTime : s.InTime event) : Reached (s.step event)

variable {s : Asking} {dir : Directory} {who : Key → Option Who} {standing : Standing} {key : Key}

theorem Reached.sound (reached : Reached s) : Sound s ∧ s.Full := by
  induction reached with
  | empty => exact ⟨sound_empty, fun some_ => absurd rfl some_⟩
  | step event _ inTime ih =>
      obtain ⟨sound, full, _⟩ := step_spec ih.1 ih.2 inTime
      exact ⟨sound, full⟩

/-- A call's promise is what the directory does about the log. -/
theorem Of.considers (of : Of dir s) (reached : Reached s) {urgent : Bool}
    (inTime : dir.InTime (.consider key urgent))
    : ∃ s', Reached s' ∧ Of (dir.consider key who standing urgent) s' := by
  have considered : Of (dir.consider key who standing urgent)
      (s.consider key (viewOf dir who standing) urgent).1 :=
    of.consider reached.sound.1.keys
  refine ⟨s.step (.consider key urgent (viewOf dir who standing)), reached.step _ ?_,
    considered.inflight, considered.queue⟩
  cases urgent with
  | false => trivial
  | true =>
      intro queued
      rw [of.queue] at queued
      have length : s.queue.length = dir.queue.length := by rw [← of.queue, List.length_map]
      rw [of.urgent, length]
      exact inTime queued

theorem Of.considersAll (of : Of dir s) (reached : Reached s) (keys : List Key)
    : ∃ s', Reached s' ∧ Of (keys.foldl (fun dir key => dir.consider key who standing false) dir) s' := by
  induction keys generalizing dir s with
  | nil => exact ⟨s, reached, of⟩
  | cons key rest ih =>
      have one : ∃ s', Reached s' ∧ Of (dir.consider key who standing false) s' :=
        of.considers reached trivial
      obtain ⟨s', reached', of'⟩ := one
      exact ih of' reached'

theorem Of.setPhase (of : Of dir s) (phase : Phase) : Of (dir.setPhase key phase) s := by
  refine ⟨?_, of.queue⟩
  rw [of.inflight]
  unfold Directory.setPhase
  rw [List.map_map]
  refine List.map_congr_left fun fetch _ => ?_
  dsimp only [Function.comp]
  split <;> rfl

theorem Of.judge (of : Of dir s) : Of (dir.judge key who standing) s := by
  have refused : Of (dir.refuse key) s := ⟨of.inflight, of.queue⟩
  have waits : Of (dir.wait key) s := ⟨of.inflight, of.queue⟩
  unfold Directory.judge
  split
  · exact refused.setPhase _
  · dsimp only
    split_ifs
    · exact of.setPhase _
    · exact waits.setPhase _
    · exact refused.setPhase _

/-- In every run of a member there are promises of its calls that its fetches and its queue are those of:
the slots and the queue keep their bounds, and no promise is forgotten. By induction on the run, each
step one of the calls', or none.
-/
theorem run_follows {allowed : Member → List Key → Logs.Event → Prop}
    (inTime : ∀ m told event, allowed m told event → m.dir.InTime event) {told : List Key} {m : Member}
    (run : Run who allowed told m)
    : ∃ s, Reached s ∧ Of m.dir s ∧ Kept s := by
  have follows : ∃ s, Reached s ∧ Of m.dir s := by
    induction run with
    | start standing => exact ⟨empty, .empty, rfl, rfl⟩
    | @step told m _ event before may steps ih =>
        obtain ⟨s, reached, of⟩ := ih
        have inTime := inTime _ _ _ may
        cases steps with
        | consider key urgent => exact of.considers reached inTime
        | judge fetch _ _ => exact ⟨s, reached, of.judge⟩
        | accept fetch limit _ _ =>
            have accepted : Of (m.dir.accept fetch.key limit) s := by
              unfold Directory.accept
              split
              · exact of
              · exact ⟨of.inflight, of.queue⟩
            exact ⟨s, reached, accepted.setPhase _⟩
        | ended fetch listed _ =>
            have fetched : s.fetching fetch.key = true := by
              rw [of.fetching]
              exact List.contains_iff_mem.mpr (List.mem_map_of_mem listed)
            refine ⟨s.step (.ended fetch.key (viewOf m.dir who m.standing)), reached.step _ trivial, ?_⟩
            rw [Asking.step, if_pos fetched]
            exact of.ended reached.sound.1
        | decide _ _ _ => exact ⟨s, reached, of⟩
        | recheck touched _ =>
            obtain ⟨s', reached', of'⟩ := of.considersAll reached _
            exact ⟨s', reached', of'.inflight, of'.queue⟩
        | cutDone | startCut | endCut | drop => exact ⟨s, reached, of.inflight, of.queue⟩
  obtain ⟨s, reached, of⟩ := follows
  obtain ⟨sound, _⟩ := reached.sound
  exact ⟨s, reached, of, sound.urgent, sound.ordinary, sound.short, sound.held⟩

/-- A log is asked for as urgent. -/
theorem run_follows_told
    : ∃ (m : Member) (s : Asking), m.dir.inflight = [⟨[3], true, .asking⟩]
      ∧ Reached s ∧ Of m.dir s ∧ Kept s := by
  have run : Run (fun _ => none) (fun m _ event => m.dir.InTime event) _ _ :=
    .step (.consider [3] true) (.start ⟨Decisions.View.empty, [], fun _ _ => []⟩)
      (fun queued => by cases queued) (.consider _ _ _)
  obtain ⟨s, reached, of, kept⟩ := run_follows (fun _ _ _ may => may) run
  exact ⟨_, s, by decide, reached, of, kept⟩

end Asking

end Hypergraph.Logs
