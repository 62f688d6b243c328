import Hypergraph.Control.Memory

/-! The rotations of a private channel in the order of the control log: of those to one epoch the
first counts, and one ordered before others never takes an epoch away.
-/

namespace Hypergraph.Control

/-- A rotation that an admin signed: to which epoch, by which commitment, and whether it is this
device's.
-/
structure Rotation where
  epoch : Nat
  commit : String
  own : Bool
  deriving DecidableEq

/-- What a channel's rotations come to: its epoch, and the commitment of each. -/
structure Recorded where
  epoch : Nat
  commits : Nat → Option String

namespace Recorded

/-- A channel with its first commitment. -/
def start (first : String) : Recorded := ⟨0, fun epoch => if epoch = 0 then some first else none⟩

/-- A rotation counts where it is to the next epoch. -/
def rotate (recorded : Recorded) (rotation : Rotation) : Recorded :=
  if rotation.epoch = recorded.epoch + 1 then
    ⟨rotation.epoch, fun epoch => if epoch = rotation.epoch then some rotation.commit
      else recorded.commits epoch⟩
  else recorded

/-- What a log's rotations come to. -/
def of (first : String) (log : List Rotation) : Recorded := log.foldl rotate (start first)

variable {first : String} {log before after : List Rotation} {rotation : Rotation} {epoch : Nat}
  {recorded recorded' : Recorded}

theorem of_append : of first (before ++ after) = after.foldl rotate (of first before) := by
  rw [of, of, List.foldl_append]

theorem of_concat : of first (log ++ [rotation]) = (of first log).rotate rotation := by
  rw [of_append, List.foldl_cons, List.foldl_nil]

theorem epoch_rotate
    : (recorded.rotate rotation).epoch
      = if rotation.epoch = recorded.epoch + 1 then recorded.epoch + 1 else recorded.epoch := by
  unfold rotate
  split
  · assumption
  · rfl

theorem le_epoch_rotate : recorded.epoch ≤ (recorded.rotate rotation).epoch := by
  rw [epoch_rotate]
  split <;> omega

theorem le_epoch_foldl : recorded.epoch ≤ (after.foldl rotate recorded).epoch := by
  induction after generalizing recorded with
  | nil => exact Nat.le_refl _
  | cons rotation rest ih => exact Nat.le_trans le_epoch_rotate ih

theorem epoch_le_append : (of first before).epoch ≤ (of first (before ++ after)).epoch := by
  rw [of_append]
  exact le_epoch_foldl

theorem commits_rotate (below : epoch ≤ recorded.epoch)
    : (recorded.rotate rotation).commits epoch = recorded.commits epoch := by
  unfold rotate
  split
  · exact if_neg (by omega)
  · rfl

theorem commits_foldl (below : epoch ≤ recorded.epoch)
    : (after.foldl rotate recorded).commits epoch = recorded.commits epoch := by
  induction after generalizing recorded with
  | nil => rfl
  | cons rotation rest ih =>
      rw [List.foldl_cons, ih (Nat.le_trans below le_epoch_rotate), commits_rotate below]

theorem commits_append (below : epoch ≤ (of first before).epoch)
    : (of first (before ++ after)).commits epoch = (of first before).commits epoch := by
  rw [of_append, commits_foldl below]

theorem commits_none_rotate (none_ : ∀ e, recorded.epoch < e → recorded.commits e = none)
    (above : (recorded.rotate rotation).epoch < epoch)
    : (recorded.rotate rotation).commits epoch = none := by
  unfold rotate at above ⊢
  split
  · rename_i next
    rw [if_pos next] at above
    simp only at above ⊢
    rw [if_neg (by omega), none_ epoch (by omega)]
  · rename_i other
    rw [if_neg other] at above
    exact none_ epoch above

theorem commits_ahead_foldl (none_ : ∀ e, recorded.epoch < e → recorded.commits e = none)
    (above : (after.foldl rotate recorded).epoch < epoch)
    : (after.foldl rotate recorded).commits epoch = none := by
  induction after generalizing recorded with
  | nil => exact none_ epoch above
  | cons rotation rest ih => exact ih (fun e above => commits_none_rotate none_ above) above

theorem commits_ahead (above : (of first log).epoch < epoch) : (of first log).commits epoch = none :=
  commits_ahead_foldl (fun _ above => if_neg (Nat.ne_of_gt above)) above

theorem le_of_commits {commit : String} (is : (of first log).commits epoch = some commit)
    : epoch ≤ (of first log).epoch := by
  by_contra ahead
  rw [commits_ahead (Nat.not_le.mp ahead)] at is
  cases is

theorem commits_of_counts (counts : rotation.epoch = (of first before).epoch + 1)
    : (of first (before ++ rotation :: after)).commits rotation.epoch = some rotation.commit := by
  have step : (of first (before ++ [rotation])).epoch = rotation.epoch
      ∧ (of first (before ++ [rotation])).commits rotation.epoch = some rotation.commit := by
    rw [of_concat, rotate, if_pos counts]
    exact ⟨rfl, if_pos rfl⟩
  rw [List.append_cons, commits_append (Nat.le_of_eq step.1.symm), step.2]

theorem epoch_rotate_mono (le : recorded.epoch ≤ recorded'.epoch)
    : (recorded.rotate rotation).epoch ≤ (recorded'.rotate rotation).epoch := by
  rw [epoch_rotate, epoch_rotate]
  split <;> split <;> omega

theorem epoch_le_insert
    : (of first (before ++ after)).epoch ≤ (of first (before ++ rotation :: after)).epoch := by
  rw [of_append, of_append, List.foldl_cons]
  have le : (of first before).epoch ≤ ((of first before).rotate rotation).epoch := le_epoch_rotate
  revert le
  generalize of first before = recorded
  generalize recorded.rotate rotation = recorded'
  intro le
  induction after generalizing recorded recorded' with
  | nil => exact le
  | cons rotation rest ih => exact ih _ _ (epoch_rotate_mono le)

/-- The epochs up to the channel's have commitments, and no others; induction on the rotations. -/
theorem isSome_commits (epoch : Nat)
    : ((of first log).commits epoch).isSome ↔ epoch ≤ (of first log).epoch := by
  refine ⟨fun found => ?_, ?_⟩
  · obtain ⟨commit, is⟩ := Option.isSome_iff_exists.mp found
    exact le_of_commits is
  · induction log using List.reverseRecOn with
    | nil =>
        intro zero
        have here : ((start first).commits epoch) = some first := if_pos (Nat.le_zero.mp zero)
        exact here ▸ rfl
    | append_singleton log rotation ih =>
        rw [of_concat]
        by_cases next : rotation.epoch = (of first log).epoch + 1
        · rw [rotate, if_pos next]
          intro below
          dsimp only at below ⊢
          split
          · rfl
          · exact ih (by omega)
        · rw [rotate, if_neg next]
          exact ih

end Recorded

-- In the control log

section Log

variable {W Number : Type} {peer : Peer W Number} {s s' : State W Number} {node : Node Number}
  {channel : String}

/-- What the control log records of a private channel. -/
def recordedOf (s : State W Number) (channel : String) : Option Recorded :=
  (s.privateChannel channel).map fun found =>
    ⟨found.2.epoch, fun n => s.view.epochs[channel ++ ":" ++ toString n]?.map EpochRecord.commit⟩

theorem recordedOf_congr (channels : s'.view.channels = s.view.channels)
    (epochs : s'.view.epochs = s.view.epochs)
    : recordedOf s' channel = recordedOf s channel := by
  rw [recordedOf, recordedOf, privateChannel_congr channels, epochs]

theorem recordedOf_removeRole {member : String}
    : recordedOf (s.removeRole peer member) channel = recordedOf s channel :=
  recordedOf_congr (by rw [view_removeRole]) (by rw [view_removeRole])

theorem Shaped.epoch_none (shaped : Shaped s) (none_ : s.privateChannel channel = none) (n : Nat)
    : s.view.epochs[channel ++ ":" ++ toString n]? = none := by
  rw [← Option.not_isSome_iff_eq_none, ← Std.ExtTreeMap.mem_iff_isSome_getElem?]
  intro mem
  obtain ⟨channel', found, private_, n', same, is, _⟩ := shaped.epochs _ mem
  obtain ⟨rfl, _⟩ := epochKey_inj same
  rw [none_] at is
  cases is

theorem recordedOf_putChannel (shaped : Shaped s) {author id name : String}
    {fields : List (String × Js.Json Number)} {commit : Option String}
    (new : s.view.channels[id]? = none)
    : recordedOf (s.putChannel peer author fields id name commit) channel
      = if id = channel then commit.map Recorded.start else recordedOf s channel := by
  have none_ : s.privateChannel id = none := by simp [State.privateChannel, new]
  by_cases same : id = channel
  · subst same
    rw [if_pos rfl]
    cases commit with
    | none => simp [recordedOf, State.privateChannel, State.putChannel]
    | some commit =>
        have is : (s.putChannel peer author fields id name (some commit)).privateChannel id
            = some (_, ⟨0, Js.Json.isTrue (Js.Json.field fields "memberGrants")⟩) :=
          privateChannel_eq_some.mpr ⟨Std.ExtTreeMap.getElem?_insert_self, rfl⟩
        rw [recordedOf, is, Option.map_some, Option.map_some]
        refine congrArg some (congrArg (Recorded.mk 0) (funext fun n => ?_))
        simp only [State.putChannel, firstKey]
        by_cases first : n = 0
        · simp [first]
        · rw [getElem?_insert_of_ne fun same => first (epochKey_inj same).2.symm,
            shaped.epoch_none none_, if_neg first, Option.map_none]
  · rw [if_neg same]
    have is : (s.putChannel peer author fields id name commit).privateChannel channel
        = s.privateChannel channel := by
      simp only [State.privateChannel, State.putChannel, getElem?_insert_of_ne same]
    rw [recordedOf, recordedOf, is]
    refine Option.map_congr fun found _ => congrArg (Recorded.mk _) (funext fun n => ?_)
    cases commit with
    | none => rfl
    | some commit =>
        simp only [State.putChannel, firstKey]
        rw [getElem?_insert_of_ne fun both => same (epochKey_inj both).1]

theorem recordedOf_putEpoch {channel' : String} {found : ChannelRecord Number}
    {private_ : PrivateChannel} {epoch : EpochRecord Number}
    (is : s.privateChannel channel' = some (found, private_))
    : recordedOf (s.putEpoch channel' found private_ epoch) channel
      = if channel' = channel then
          (recordedOf s channel).map (Recorded.rotate · ⟨private_.epoch + 1, epoch.commit, false⟩)
        else recordedOf s channel := by
  by_cases same : channel' = channel
  · subst same
    have now : (s.putEpoch channel' found private_ epoch).privateChannel channel'
        = some (_, { private_ with epoch := private_.epoch + 1 }) :=
      privateChannel_eq_some.mpr ⟨Std.ExtTreeMap.getElem?_insert_self, rfl⟩
    rw [if_pos rfl, recordedOf, recordedOf, now, is, Option.map_some, Option.map_some, Option.map_some,
      Recorded.rotate, if_pos rfl]
    refine congrArg some (congrArg (Recorded.mk _) (funext fun n => ?_))
    simp only [State.putEpoch]
    by_cases next : n = private_.epoch + 1
    · simp [next]
    · rw [getElem?_insert_of_ne fun same => next (epochKey_inj same).2.symm, if_neg next]
  · rw [if_neg same]
    have kept : (s.putEpoch channel' found private_ epoch).privateChannel channel
        = s.privateChannel channel := by
      simp only [State.privateChannel, State.putEpoch, getElem?_insert_of_ne same]
    rw [recordedOf, recordedOf, kept]
    refine Option.map_congr fun found' _ => congrArg (Recorded.mk _) (funext fun n => ?_)
    simp only [State.putEpoch]
    rw [getElem?_insert_of_ne fun both => same (epochKey_inj both).1]

/-- A private channel stays one, with further rotations; one that comes to be has its first commitment,
and rotations after it.
-/
def Grows : Option Recorded → Option Recorded → Prop
  | none, after => ∀ recorded, after = some recorded → ∃ first rotations, recorded = Recorded.of first rotations
  | some recorded, after => ∃ rotations : List Rotation, after = some (rotations.foldl Recorded.rotate recorded)

theorem Grows.refl (recorded : Option Recorded) : Grows recorded recorded := by
  cases recorded with
  | none =>
      intro recorded is
      cases is
  | some recorded => exact ⟨[], rfl⟩

theorem Grows.trans {before between after : Option Recorded} (first : Grows before between)
    (second : Grows between after)
    : Grows before after := by
  cases before with
  | none =>
      cases between with
      | none => exact second
      | some recorded =>
          obtain ⟨start, rotations, rfl⟩ := first recorded rfl
          obtain ⟨more, rfl⟩ := second
          intro recorded is
          cases is
          exact ⟨start, rotations ++ more, Recorded.of_append.symm⟩
  | some recorded =>
      obtain ⟨rotations, rfl⟩ := first
      obtain ⟨more, rfl⟩ := second
      exact ⟨rotations ++ more, by rw [List.foldl_append]⟩

/-- Each event leaves a private channel, or takes it an epoch on. -/
theorem grows_step (shaped : Shaped s) (step : Step peer s node s')
    : Grows (recordedOf s channel) (recordedOf s' channel) := by
  have same (is : recordedOf s' channel = recordedOf s channel)
      : Grows (recordedOf s channel) (recordedOf s' channel) :=
    is ▸ .refl _
  cases step with
  | removeRole => exact same recordedOf_removeRole
  | @channel _ id _ _ _ _ _ new =>
      rw [recordedOf_putChannel shaped new]
      split
      · rename_i here
        subst here
        have none_ : recordedOf s id = none := by simp [recordedOf, State.privateChannel, new]
        rw [none_]
        intro recorded is
        obtain ⟨commit, _, rfl⟩ := Option.map_eq_some_iff.mp is
        exact ⟨commit, [], rfl⟩
      · exact .refl _
  | epoch _ _ found =>
      rw [recordedOf_putEpoch found]
      split
      · cases recordedOf s channel with
        | none =>
            intro recorded is
            cases is
        | some recorded => exact ⟨[_], rfl⟩
      · exact .refl _
  | redeem _ _ _ _ gives => cases gives <;> exact same rfl
  | _ => exact same rfl

theorem grows_run (shaped : Shaped s) {later : List (Node Number)} (ran : s.run peer later = some s')
    : Shaped s' ∧ Grows (recordedOf s channel) (recordedOf s' channel) := by
  refine Runs.foldlM_keeps
    (fun s' : State W Number => Shaped s' ∧ Grows (recordedOf s channel) (recordedOf s' channel))
    (fun _ _ _ both applied => ?_) ⟨shaped, .refl _⟩ ran
  obtain ⟨shaped, grown⟩ := both
  have step := step_of_apply applied
  exact ⟨shaped.step step, grown.trans (grows_step shaped step)⟩

/-- In every run of the control log a private channel stays one: its epoch never goes back, the
commitment of an epoch stays, and there is one for each epoch up to the channel's and for no other.
-/
theorem epochs_once {writers : W} {log later : List (Node Number)}
    (reached : State.run peer { writers } log = some s) (ran : s.run peer later = some s')
    {recorded : Recorded} (is : recordedOf s channel = some recorded)
    : ∃ recorded', recordedOf s' channel = some recorded'
      ∧ recorded.epoch ≤ recorded'.epoch
      ∧ (∀ epoch commit, recorded.commits epoch = some commit → recorded'.commits epoch = some commit)
      ∧ ∀ epoch, (recorded'.commits epoch).isSome ↔ epoch ≤ recorded'.epoch := by
  have start : Shaped ({ writers } : State W Number) :=
    ⟨by simp, by simp, by simp, by simp, by simp, by simp, by simp⟩
  obtain ⟨shaped, made⟩ := @grows_run _ _ _ _ _ channel start _ reached
  have none_ : recordedOf ({ writers } : State W Number) channel = none := by
    simp [recordedOf, State.privateChannel]
  rw [none_, is] at made
  obtain ⟨first, before, rfl⟩ := made recorded rfl
  obtain ⟨_, grown⟩ := @grows_run _ _ _ _ _ channel shaped _ ran
  rw [is] at grown
  obtain ⟨rotations, now⟩ := grown
  rw [← Recorded.of_append] at now
  refine ⟨_, now, Recorded.epoch_le_append, fun epoch commit found => ?_, Recorded.isSome_commits⟩
  rw [Recorded.commits_append (Recorded.le_of_commits found), found]

/-- A channel is created, and taken an epoch on. -/
theorem epochs_once_rotated
    : ∃ (s s' : State (List (Key × Bool)) Nat) (recorded recorded' : Recorded),
        s.run listPeer [rotates "x" 1 8] = some s'
        ∧ recordedOf s "x" = some recorded ∧ recordedOf s' "x" = some recorded'
        ∧ recorded.epoch ≤ recorded'.epoch
        ∧ ∀ epoch, (recorded'.commits epoch).isSome ↔ epoch ≤ recorded'.epoch := by
  have ran : (State.run listPeer { writers := [(List.replicate 32 0, true)] } [founding, creates "x" 7]).any
      (fun s => (s.run listPeer [rotates "x" 1 8]).isSome ∧ (recordedOf s "x").isSome) = true := by
    decide +kernel
  obtain ⟨s, reached, has⟩ := (Option.any_eq_true _ _).mp ran
  obtain ⟨goes, there⟩ := of_decide_eq_true has
  obtain ⟨s', ran⟩ := Option.isSome_iff_exists.mp goes
  obtain ⟨recorded, is⟩ := Option.isSome_iff_exists.mp there
  obtain ⟨recorded', now, on, _, all⟩ := epochs_once reached ran is
  exact ⟨s, s', recorded, recorded', ran, is, now, on, all⟩

end Log

end Hypergraph.Control
