import Hypergraph.Control.Rotations

/-! One device's rotations of a private channel: any number of calls in flight, the new key of each
in the slot of its epoch while the log decides. Keys are told apart by their commitments, as the
control log and the grants do.
-/

namespace Hypergraph.Control

-- The device

/-- Where a call of `rotate` is between two awaits; one of `revoke` records its event before, and
checks the epoch again after.
-/
inductive Point (Key : Type) where
  | revoking
  | starting
  | updating (attempt : Nat)
  | waiting (attempt current tries : Nat)
  | ready (attempt current : Nat)
  | appending (attempt epoch : Nat) (key : Key)
  | appended (attempt epoch : Nat) (key : Key)
  | regranting (epoch : Nat) (key : Key)
  | submitting (epoch : Nat) (key : Key)
  | rechecking (epoch : Nat)
  | returned (epoch : Nat)
  | thrown
  deriving DecidableEq

/-- A call, and how often it may still check its epoch again. -/
structure Call (Key : Type) where
  point : Point Key
  left : Nat
  deriving DecidableEq

/-- A device: the channel's rotations in the order of its control log, the slot of each epoch, the
grants it made, those that others made, and its calls.
-/
structure Device (Key : Type) where
  first : String
  log : List Rotation
  keys : Nat → Option Key
  granted : List (Nat × Key)
  others : List (Nat × Key)
  calls : Nat → Option (Call Key)

/-- What happens to a device. -/
inductive Action (Key : Type) where
  | rotate (call : Nat)
  | revoke (call : Nat)
  | resume (call : Nat) (admin : Bool) (fresh : Key)
  | load (epoch : Nat) (key : Key)
  | other (place epoch : Nat) (commit : String)
  | grant (epoch : Nat) (key : Key)

variable {Key : Type}

namespace Device

/-- A device that starts: nothing in flight, and no rotation in the log by a call of its own. -/
def opened (first : String) (log : List (Nat × String)) (keys : Nat → Option Key)
    (others : List (Nat × Key))
    : Device Key :=
  { first, log := log.map fun (epoch, commit) => ⟨epoch, commit, false⟩, keys, granted := [], others,
    calls := fun _ => none }

/-- What the control log records. -/
def recorded (d : Device Key) : Recorded := .of d.first d.log

/-- The call goes on at a point. -/
def goTo (d : Device Key) (i : Nat) (call : Call Key) (point : Point Key) : Device Key :=
  { d with calls := Function.update d.calls i (some { call with point }) }

/-- `#holdKey`, or the slot deleted. -/
def slot (d : Device Key) (epoch : Nat) (key : Option Key) : Device Key :=
  { d with keys := Function.update d.keys epoch key }

variable (commitOf : Key → String)

/-- The key of an epoch that this member holds, if its commitment is the log's. -/
def epochKey (d : Device Key) (epoch : Nat) : Option Key :=
  (d.keys epoch).filter fun key => d.recorded.commits epoch = some (commitOf key)

/-- A call up to its next await. `admin` is whether this member's role allows it then; where it
doesn't, the log leaves out what is appended.
-/
def resume (d : Device Key) (i : Nat) (call : Call Key) (admin : Bool) (fresh : Key)
    : Option (Device Key) :=
  match call.point with
  | .revoking => some (d.goTo i call .starting)
  | .starting => some (d.goTo i call (if admin then .updating 0 else .thrown))
  | .updating attempt => some (d.goTo i call (.waiting attempt d.recorded.epoch 0))
  | .waiting attempt current tries =>
      some (d.goTo i call (
        if (d.epochKey commitOf current).isSome then .ready attempt current
        else if tries < 20 then .waiting attempt current (tries + 1)
        else .thrown))
  | .ready attempt current =>
      some ((d.slot (current + 1) (some fresh)).goTo i call
        (.appending attempt (current + 1) fresh))
  | .appending attempt epoch key =>
      let d := d.goTo i call (.appended attempt epoch key)
      some (if admin then { d with log := d.log ++ [⟨epoch, commitOf key, true⟩] } else d)
  | .appended attempt epoch key =>
      if d.recorded.commits epoch = some (commitOf key) then
        some (d.goTo i call (.regranting epoch key))
      -- the slot is the epoch's: whatever key is in it goes
      else some ((d.slot epoch none).goTo i call (
        if attempt + 1 < 5 then .updating (attempt + 1) else .thrown))
  | .regranting epoch key =>
      -- the key is read again from the slot
      match d.keys epoch with
      | none => some (d.goTo i call .thrown)
      | some held =>
          some { d.goTo i call (.submitting epoch key) with granted := (epoch, held) :: d.granted }
  | .submitting epoch _ =>
      some (d.goTo i call (if call.left = 0 then .returned epoch else .rechecking epoch))
  | .rechecking epoch =>
      if (d.recorded.commits epoch).isSome ∧ (d.epochKey commitOf epoch).isSome
          ∧ d.recorded.epoch = epoch then
        some (d.goTo i call (.returned epoch))
      else some (d.goTo i { call with left := call.left - 1 } .starting)
  | .returned _ => none
  | .thrown => none

/-- One thing happens: `none` where it can't. -/
def step [DecidableEq Key] (d : Device Key) : Action Key → Option (Device Key)
  | .rotate i => if d.calls i = none then some (d.goTo i ⟨.starting, 0⟩ .starting) else none
  | .revoke i => if d.calls i = none then some (d.goTo i ⟨.revoking, 3⟩ .revoking) else none
  | .resume i admin fresh => (d.calls i).bind fun call => d.resume commitOf i call admin fresh
  | .load epoch key =>
      if (epoch, key) ∈ d.granted ++ d.others ∧ d.recorded.commits epoch = some (commitOf key) then
        some (d.slot epoch (some key))
      else none
  | .other place epoch commit =>
      some { d with log := d.log.take place ++ ⟨epoch, commit, false⟩ :: d.log.drop place }
  | .grant epoch key => some { d with others := (epoch, key) :: d.others }

end Device

-- What a call holds

namespace Point

/-- The epoch a call goes on from. -/
def current : Point Key → Option Nat
  | .waiting _ current _ | .ready _ current => some current
  | _ => none

/-- The epoch and the key of a call in flight: from its key's being put in the slot to its end. -/
def target : Point Key → Option (Nat × Key)
  | .appending _ epoch key | .appended _ epoch key => some (epoch, key)
  | .regranting epoch key | .submitting epoch key => some (epoch, key)
  | _ => none

/-- Of a call that found its rotation recorded. -/
def granting : Point Key → Option (Nat × Key)
  | .regranting epoch key | .submitting epoch key => some (epoch, key)
  | _ => none

/-- Of a call whose rotation is in the log and whose grants aren't made. -/
def owing : Point Key → Option (Nat × Key)
  | .appended _ epoch key | .regranting epoch key => some (epoch, key)
  | _ => none

theorem target_of_granting {point : Point Key} {target : Nat × Key}
    (is : point.granting = some target)
    : point.target = some target := by
  cases point <;> first | exact is | cases is

theorem target_of_owing {point : Point Key} {target : Nat × Key}
    (is : point.owing = some target)
    : point.target = some target := by
  cases point <;> first | exact is | cases is

end Point

namespace Device

variable {d d' : Device Key} {i j epoch : Nat} {call : Call Key} {next : Point Key} {key : Key}
  {rotation : Rotation} {admin : Bool} {fresh : Key}

/-- Where a call is. -/
def point (d : Device Key) (i : Nat) : Option (Point Key) := (d.calls i).map Call.point

theorem point_goTo
    : (d.goTo i call next).point j = if j = i then some next else d.point j := by
  simp only [Device.point, goTo]
  by_cases same : j = i
  · rw [if_pos same, same, Function.update_self, Option.map_some]
  · rw [if_neg same, Function.update_of_ne same]

theorem point_of_calls (is : d.calls i = some call) : d.point i = some call.point := by
  rw [Device.point, is, Option.map_some]

/-- A rotation by this device that counts at its place in the log. -/
def Won (d : Device Key) (rotation : Rotation) : Prop :=
  ∃ before after, d.log = before ++ rotation :: after ∧ rotation.own
    ∧ rotation.epoch = (Recorded.of d.first before).epoch + 1

/-- The next step of the call returns the epoch, and changes nothing else. -/
def Returning (d : Device Key) (i epoch : Nat) : Prop :=
  ∃ key, d.point i = some (.submitting epoch key)

variable (commitOf : Key → String)

/-- This device holds the key that the log records for the epoch, and each grant that it made is of
that key.
-/
def Holds (d : Device Key) (epoch : Nat) : Prop :=
  ∃ key, d.keys epoch = some key ∧ d.recorded.commits epoch = some (commitOf key)
    ∧ ∀ grant ∈ d.granted, grant.1 = epoch → commitOf grant.2 = commitOf key

/-- Somebody has the key of a commitment: this device in its slot, or those whom it granted it to. -/
def Had (d : Device Key) (epoch : Nat) (commit : String) : Prop :=
  (∃ key, d.keys epoch = some key ∧ commitOf key = commit)
    ∨ ∃ grant ∈ d.granted, grant.1 = epoch ∧ commitOf grant.2 = commit

/-- Calls kept apart: none puts its key in the slot of another's epoch while that is in flight, a new
key is new, and no rotation of another's is ordered before that of a call that is granting, or given
the commitment of one in flight.
-/
def Apart (d : Device Key) : Action Key → Prop
  | .resume i _ fresh => ∀ attempt current, d.point i = some (.ready attempt current)
      → d.recorded.commits (current + 1) ≠ some (commitOf fresh)
        ∧ ∀ j point key, d.point j = some point → point.target ≠ some (current + 1, key)
  | .other place epoch commit => ∀ j point, d.point j = some point
      → let log := d.log.take place ++ ⟨epoch, commit, false⟩ :: d.log.drop place
        (∀ epoch key, point.granting = some (epoch, key)
          → d.recorded.commits epoch = some (commitOf key)
          → (Recorded.of d.first log).commits epoch = some (commitOf key))
        ∧ ∀ epoch key, point.target = some (epoch, key)
          → (Recorded.of d.first log).commits epoch = some (commitOf key)
          → d.recorded.commits epoch = some (commitOf key)
  | _ => True

/-- What steps kept apart keep. -/
structure Kept (d : Device Key) : Prop where
  apart : ∀ i j p q epoch key key', d.point i = some p → d.point j = some q
    → p.target = some (epoch, key) → q.target = some (epoch, key') → i = j
  current : ∀ i p epoch, d.point i = some p → p.current = some epoch → epoch ≤ d.recorded.epoch
  appending : ∀ i attempt epoch key, d.point i = some (.appending attempt epoch key)
    → epoch ≤ d.recorded.epoch + 1 ∧ (d.recorded.epoch < epoch → d.keys epoch = some key)
  target : ∀ i p epoch key, d.point i = some p → p.target = some (epoch, key)
    → d.recorded.commits epoch = some (commitOf key) → d.Holds commitOf epoch
  granting : ∀ i p epoch key, d.point i = some p → p.granting = some (epoch, key)
    → d.recorded.commits epoch = some (commitOf key)
  granted : ∀ grant ∈ d.granted, grant.1 ≤ d.recorded.epoch
  ordered : ∀ before rotation after, d.log = before ++ rotation :: after → rotation.own
    → rotation.epoch ≤ (Recorded.of d.first before).epoch + 1
  won : ∀ rotation, d.Won rotation
    → (∃ grant ∈ d.granted, grant.1 = rotation.epoch ∧ commitOf grant.2 = rotation.commit)
      ∨ ∃ i p key, d.point i = some p ∧ p.owing = some (rotation.epoch, key)
        ∧ commitOf key = rotation.commit

variable {commitOf}

theorem Won.recorded (won : d.Won rotation)
    : d.recorded.commits rotation.epoch = some rotation.commit := by
  obtain ⟨before, after, is, _, counts⟩ := won
  rw [Device.recorded, is, Recorded.commits_of_counts counts]

theorem kept_opened {first : String} {log : List (Nat × String)} {keys : Nat → Option Key}
    {others : List (Nat × Key)}
    : Kept commitOf (opened first log keys others) := by
  have own : ∀ before rotation after,
      (opened first log keys others).log = before ++ rotation :: after → rotation.own = false := by
    intro before rotation after is
    have mem : rotation ∈ (opened first log keys others).log := by rw [is]; simp
    obtain ⟨_, _, rfl⟩ := List.mem_map.mp mem
    rfl
  have point (i : Nat) : (opened first log keys others).point i = none := rfl
  refine ⟨?_, ?_, ?_, ?_, ?_, ?_, ?_, ?_⟩
  · exact fun i _ _ _ _ _ _ at_ => by cases at_
  · exact fun i _ _ at_ => by cases at_
  · exact fun i _ _ _ at_ => by cases at_
  · exact fun i _ _ _ at_ => by cases at_
  · exact fun i _ _ _ at_ => by cases at_
  · exact fun _ mem => by cases mem
  · exact fun before rotation after is own_ => by simp [own before rotation after is] at own_
  · rintro rotation ⟨before, after, is, own_, _⟩
    simp [own before rotation after is] at own_

variable {p : Point Key}

/-- A call that moves on, everything else as it is. -/
theorem Kept.goTo (kept : Kept commitOf d)
    (current : ∀ epoch, next.current = some epoch → epoch ≤ d.recorded.epoch)
    (appending : ∀ attempt epoch key, next ≠ .appending attempt epoch key)
    (target : ∀ target, next.target = some target
      → ∃ p, d.point i = some p ∧ p.target = some target)
    (granting : ∀ epoch key, next.granting = some (epoch, key)
      → d.recorded.commits epoch = some (commitOf key))
    (owing : ∀ p epoch key, d.point i = some p → p.owing = some (epoch, key)
      → next.owing = some (epoch, key)
        ∨ (∃ grant ∈ d.granted, grant.1 = epoch ∧ commitOf grant.2 = commitOf key)
        ∨ d.recorded.commits epoch ≠ some (commitOf key))
    : Kept commitOf (d.goTo i call next) := by
  have is (j : Nat) (q : Point Key) (at' : (d.goTo i call next).point j = some q)
      : (j = i ∧ q = next) ∨ d.point j = some q := by
    rw [point_goTo] at at'
    split at at'
    · exact .inl ⟨‹_›, (Option.some.inj at').symm⟩
    · exact .inr at'
  have old (j : Nat) (q : Point Key) (target' : Nat × Key)
      (at' : (d.goTo i call next).point j = some q) (has : q.target = some target')
      : ∃ q', d.point j = some q' ∧ q'.target = some target' := by
    rcases is j q at' with ⟨rfl, rfl⟩ | at'
    · exact target _ has
    · exact ⟨q, at', has⟩
  refine ⟨?_, ?_, ?_, ?_, ?_, kept.granted, kept.ordered, ?_⟩
  · intro j k q r epoch key key' atJ atK hasJ hasK
    obtain ⟨q', atJ, hasJ⟩ := old j q _ atJ hasJ
    obtain ⟨r', atK, hasK⟩ := old k r _ atK hasK
    exact kept.apart j k q' r' epoch key key' atJ atK hasJ hasK
  · intro j q epoch atJ from_
    rcases is j q atJ with ⟨rfl, rfl⟩ | atJ
    · exact current epoch from_
    · exact kept.current j q epoch atJ from_
  · intro j attempt epoch key atJ
    rcases is j _ atJ with ⟨_, same⟩ | atJ
    · exact absurd same.symm (appending _ _ _)
    · exact kept.appending j attempt epoch key atJ
  · intro j q epoch key atJ has
    obtain ⟨q', atJ, has⟩ := old j q _ atJ has
    exact kept.target j q' epoch key atJ has
  · intro j q epoch key atJ has
    rcases is j q atJ with ⟨rfl, rfl⟩ | atJ
    · exact granting epoch key has
    · exact kept.granting j q epoch key atJ has
  · intro rotation won
    have recorded := won.recorded
    rcases kept.won rotation won with granted | ⟨j, q, key, atJ, owes, same⟩
    · exact .inl granted
    · by_cases here : j = i
      · subst here
        rcases owing q _ key atJ owes with owes | ⟨grant, mem, is, commit⟩ | lost
        · exact .inr ⟨j, next, key, by rw [point_goTo, if_pos rfl], owes, same⟩
        · exact .inl ⟨grant, mem, is, commit.trans same⟩
        · exact absurd (recorded.trans (congrArg some same.symm)) lost
      · exact .inr ⟨j, q, key, by rw [point_goTo, if_neg here]; exact atJ, owes, same⟩

/-- A call that holds no new key goes where it holds none. -/
theorem Kept.idle (kept : Kept commitOf d) (owes : ∀ p, d.point i = some p → p.owing = none)
    (idle : next.target = none)
    (current : ∀ epoch, next.current = some epoch → epoch ≤ d.recorded.epoch)
    : Kept commitOf (d.goTo i call next) := by
  refine kept.goTo current ?_ ?_ ?_ ?_
  · rintro attempt epoch key rfl
    cases idle
  · intro target is
    rw [idle] at is
    cases is
  · intro epoch key is
    rw [Point.target_of_granting is] at idle
    cases idle
  · intro p epoch key at_ is
    rw [owes p at_] at is
    cases is

/-- A call that holds no new key goes where it needs none. -/
theorem Kept.rest (kept : Kept commitOf d) (owes : ∀ p, d.point i = some p → p.owing = none)
    (idle : next.target = none) (current : next.current = none)
    : Kept commitOf (d.goTo i call next) :=
  kept.idle owes idle fun _ is => by
    rw [current] at is
    cases is

theorem Kept.slot (kept : Kept commitOf d) {held : Option Key}
    (free : ∀ j q key, d.point j = some q → q.target ≠ some (epoch, key))
    : Kept commitOf (d.slot epoch held) := by
  have other (e : Nat) (ne : e ≠ epoch) : (d.slot epoch held).keys e = d.keys e :=
    Function.update_of_ne ne _ _
  refine ⟨kept.apart, kept.current, ?_, ?_, kept.granting, kept.granted, kept.ordered, kept.won⟩
  · intro j attempt e key atJ
    have ne : e ≠ epoch := fun same => free j _ key atJ (by rw [same]; rfl)
    exact ⟨(kept.appending j attempt e key atJ).1, fun ahead => by
      rw [other e ne]
      exact (kept.appending j attempt e key atJ).2 ahead⟩
  · intro j q e key atJ has recorded
    have ne : e ≠ epoch := fun same => free j q key atJ (same ▸ has)
    obtain ⟨held', is, commit, granted⟩ := kept.target j q e key atJ has recorded
    exact ⟨held', (other e ne).trans is, commit, granted⟩

theorem Kept.load (kept : Kept commitOf d) (is : d.recorded.commits epoch = some (commitOf key))
    : Kept commitOf (d.slot epoch (some key)) := by
  refine ⟨kept.apart, kept.current, ?_, ?_, kept.granting, kept.granted, kept.ordered, kept.won⟩
  · intro j attempt e key' atJ
    refine ⟨(kept.appending j attempt e key' atJ).1, fun ahead => ?_⟩
    have ne : e ≠ epoch := fun same =>
      Nat.not_lt.mpr (Recorded.le_of_commits is) (same ▸ ahead)
    exact (Function.update_of_ne ne _ _).trans ((kept.appending j attempt e key' atJ).2 ahead)
  · intro j q e key' atJ has recorded
    obtain ⟨held, slot, commit, granted⟩ := kept.target j q e key' atJ has recorded
    by_cases same : e = epoch
    · subst same
      refine ⟨key, Function.update_self .., is, fun grant mem of => ?_⟩
      rw [granted grant mem of, ← Option.some_inj, ← commit]
      exact is
    · exact ⟨held, (Function.update_of_ne same _ _).trans slot, commit, granted⟩

/-- A call that puts its key in the slot. -/
theorem Kept.hold (kept : Kept commitOf d) {attempt : Nat} (at_ : d.point i = some p)
    (quiet : p.owing = none) (le : epoch ≤ d.recorded.epoch + 1) (slot : d.keys epoch = some key)
    (new : d.recorded.commits epoch ≠ some (commitOf key))
    (free : ∀ j q key, d.point j = some q → q.target ≠ some (epoch, key))
    : Kept commitOf (d.goTo i call (.appending attempt epoch key)) := by
  have is (j : Nat) (q : Point Key)
      (at' : (d.goTo i call (.appending attempt epoch key)).point j = some q)
      : (j = i ∧ q = .appending attempt epoch key) ∨ d.point j = some q := by
    rw [point_goTo] at at'
    split at at'
    · exact .inl ⟨‹_›, (Option.some.inj at').symm⟩
    · exact .inr at'
  refine ⟨?_, ?_, ?_, ?_, ?_, kept.granted, kept.ordered, ?_⟩
  · intro j k q r e key' key'' atJ atK hasJ hasK
    rcases is j q atJ with ⟨rfl, rfl⟩ | oldJ <;> rcases is k r atK with ⟨rfl, rfl⟩ | oldK
    · rfl
    · cases hasJ
      exact absurd hasK (free k r _ oldK)
    · cases hasK
      exact absurd hasJ (free j q _ oldJ)
    · exact kept.apart j k q r e key' key'' oldJ oldK hasJ hasK
  · intro j q e atJ from_
    rcases is j q atJ with ⟨rfl, rfl⟩ | atJ
    · cases from_
    · exact kept.current j q e atJ from_
  · intro j attempt' e key' atJ
    rcases is j _ atJ with ⟨_, same⟩ | atJ
    · cases same
      exact ⟨le, fun _ => slot⟩
    · exact kept.appending j attempt' e key' atJ
  · intro j q e key' atJ has recorded
    rcases is j q atJ with ⟨rfl, rfl⟩ | atJ
    · cases has
      exact absurd recorded new
    · exact kept.target j q e key' atJ has recorded
  · intro j q e key' atJ has
    rcases is j q atJ with ⟨rfl, rfl⟩ | atJ
    · cases has
    · exact kept.granting j q e key' atJ has
  · intro rotation won
    rcases kept.won rotation won with granted | ⟨j, q, key', atJ, owes, same⟩
    · exact .inl granted
    · have other : j ≠ i := by
        rintro rfl
        rw [at_] at atJ
        cases atJ
        rw [quiet] at owes
        cases owes
      exact .inr ⟨j, q, key', by rw [point_goTo, if_neg other]; exact atJ, owes, same⟩

/-- A call that grants the key in the slot. -/
theorem Kept.grant (kept : Kept commitOf d) (at_ : d.point i = some p)
    (grants : p.granting = some (epoch, key)) {held : Key} (slot : d.keys epoch = some held)
    : commitOf held = commitOf key
      ∧ Kept commitOf { d with granted := (epoch, held) :: d.granted } := by
  have recorded := kept.granting i p epoch key at_ grants
  have same : commitOf held = commitOf key := by
    obtain ⟨held', slot', commit, _⟩ :=
      kept.target i p epoch key at_ (Point.target_of_granting grants) recorded
    cases slot.symm.trans slot'
    exact Option.some.inj (commit.symm.trans recorded)
  refine ⟨same, kept.apart, kept.current, kept.appending, ?_, kept.granting, ?_, kept.ordered, ?_⟩
  · intro j q e key' atJ has recorded'
    obtain ⟨held', slot', commit, granted⟩ := kept.target j q e key' atJ has recorded'
    refine ⟨held', slot', commit, List.forall_mem_cons.mpr ⟨?_, granted⟩⟩
    rintro rfl
    rw [slot] at slot'
    cases slot'
    rfl
  · exact List.forall_mem_cons.mpr ⟨Recorded.le_of_commits recorded, kept.granted⟩
  · intro rotation won
    rcases kept.won rotation won with ⟨grant, mem, granted⟩ | owed
    · exact .inl ⟨grant, .tail _ mem, granted⟩
    · exact .inr owed

/-- The rotation of a call, at the end of the log. -/
theorem Kept.append (kept : Kept commitOf d) (at_ : d.point i = some p)
    (owes : p.owing = some (epoch, key)) (le : epoch ≤ d.recorded.epoch + 1)
    (slot : d.recorded.epoch < epoch → d.keys epoch = some key)
    : Kept commitOf { d with log := d.log ++ [⟨epoch, commitOf key, true⟩] } := by
  have further : d.recorded.epoch
      ≤ (Recorded.of d.first (d.log ++ [⟨epoch, commitOf key, true⟩])).epoch :=
    Recorded.epoch_le_append
  have stays (e : Nat) (le : e ≤ d.recorded.epoch)
      : (Recorded.of d.first (d.log ++ [⟨epoch, commitOf key, true⟩])).commits e
        = d.recorded.commits e :=
    Recorded.commits_append le
  refine ⟨kept.apart, ?_, ?_, ?_, ?_, ?_, ?_, ?_⟩
  · exact fun j q e atJ from_ => Nat.le_trans (kept.current j q e atJ from_) further
  · intro j attempt e key' atJ
    obtain ⟨le, slot⟩ := kept.appending j attempt e key' atJ
    exact ⟨Nat.le_trans le (Nat.succ_le_succ further),
      fun ahead => slot (Nat.lt_of_le_of_lt further ahead)⟩
  · intro j q e key' atJ has recorded
    by_cases reached : e ≤ d.recorded.epoch
    · obtain ⟨held, slot, commit, granted⟩ :=
        kept.target j q e key' atJ has ((stays e reached).symm.trans recorded)
      exact ⟨held, slot, (stays e reached).trans commit, granted⟩
    · -- the epoch is this rotation's
      have new : e = epoch ∧ epoch = d.recorded.epoch + 1 := by
        have le : e ≤ (Recorded.of d.first (d.log ++ [⟨epoch, commitOf key, true⟩])).epoch :=
          Recorded.le_of_commits recorded
        rw [Recorded.of_concat, Recorded.epoch_rotate, ← Device.recorded] at le
        split at le
        · rename_i next
          change epoch = d.recorded.epoch + 1 at next
          omega
        · exact absurd le reached
      obtain ⟨rfl, next⟩ := new
      obtain rfl := kept.apart j i q p e key' key atJ at_ has (Point.target_of_owing owes)
      obtain rfl : q = p := Option.some.inj (atJ.symm.trans at_)
      obtain ⟨_, rfl⟩ := Prod.mk.inj (Option.some.inj (has.symm.trans (Point.target_of_owing owes)))
      refine ⟨key', slot (by omega), recorded, fun grant mem of => ?_⟩
      exact absurd (kept.granted grant mem) (by omega)
  · intro j q e key' atJ has
    have recorded := kept.granting j q e key' atJ has
    exact (stays e (Recorded.le_of_commits recorded)).trans recorded
  · exact fun grant mem => Nat.le_trans (kept.granted grant mem) further
  · intro before rotation after is own
    rcases Runs.append_singleton_eq_iff.mp is with ⟨after', is, _⟩ | ⟨rfl, rfl, _⟩
    · exact kept.ordered before rotation after' is own
    · exact le
  · rintro rotation ⟨before, after, is, own, counts⟩
    rcases Runs.append_singleton_eq_iff.mp is with ⟨after', is, _⟩ | ⟨rfl, rfl, _⟩
    · exact kept.won rotation ⟨before, after', is, own, counts⟩
    · exact .inr ⟨i, p, key, at_, owes, rfl⟩

/-- A place in a list that one element was put in: it is that one's, or one of the list, with what
was before it there.
-/
theorem insert_eq_iff {first rest before after : List Rotation} {new : Rotation}
    (is : first ++ new :: rest = before ++ rotation :: after)
    : rotation = new
      ∨ (∃ after', first ++ rest = before ++ rotation :: after')
      ∨ ∃ between, before = first ++ new :: between
          ∧ first ++ rest = (first ++ between) ++ rotation :: after := by
  rcases List.append_eq_append_iff.mp is with ⟨between, rfl, same⟩ | ⟨between, rfl, same⟩
  · cases between with
    | nil => exact .inl (List.cons.inj same).1.symm
    | cons head between =>
        obtain ⟨rfl, rfl⟩ := List.cons.inj same
        exact .inr (.inr ⟨between, rfl, by simp⟩)
  · cases between with
    | nil => exact .inl (List.cons.inj same).1
    | cons head between =>
        obtain ⟨rfl, rfl⟩ := List.cons.inj same
        exact .inr (.inl ⟨between ++ rest, by simp⟩)

theorem Kept.other (kept : Kept commitOf d) {place : Nat} {commit : String}
    (apart : Apart commitOf d (.other place epoch commit))
    : Kept commitOf
        { d with log := d.log.take place ++ ⟨epoch, commit, false⟩ :: d.log.drop place } := by
  have log : d.log.take place ++ d.log.drop place = d.log := List.take_append_drop ..
  have further : d.recorded.epoch
      ≤ (Recorded.of d.first
          (d.log.take place ++ ⟨epoch, commit, false⟩ :: d.log.drop place)).epoch := by
    have insert : (Recorded.of d.first (d.log.take place ++ d.log.drop place)).epoch
        ≤ (Recorded.of d.first
            (d.log.take place ++ ⟨epoch, commit, false⟩ :: d.log.drop place)).epoch :=
      Recorded.epoch_le_insert
    rwa [log] at insert
  -- an own rotation was in the log, after no more epochs than now
  have was (before after : List Rotation) (rotation : Rotation) (own : rotation.own)
      (is : d.log.take place ++ ⟨epoch, commit, false⟩ :: d.log.drop place
        = before ++ rotation :: after)
      : ∃ before' after', d.log = before' ++ rotation :: after'
          ∧ (Recorded.of d.first before').epoch ≤ (Recorded.of d.first before).epoch := by
    rcases insert_eq_iff is with rfl | ⟨after', there⟩ | ⟨between, rfl, there⟩
    · cases own
    · exact ⟨before, after', log.symm.trans there, Nat.le_refl _⟩
    · exact ⟨_, after, log.symm.trans there, Recorded.epoch_le_insert⟩
  refine ⟨kept.apart, ?_, ?_, ?_, ?_, ?_, ?_, ?_⟩
  · exact fun j q e atJ from_ => Nat.le_trans (kept.current j q e atJ from_) further
  · intro j attempt e key' atJ
    obtain ⟨le, slot⟩ := kept.appending j attempt e key' atJ
    exact ⟨Nat.le_trans le (Nat.succ_le_succ further),
      fun ahead => slot (Nat.lt_of_le_of_lt further ahead)⟩
  · intro j q e key' atJ has recorded
    have before := (apart j q atJ).2 e key' has recorded
    obtain ⟨held, slot, commit', granted⟩ := kept.target j q e key' atJ has before
    exact ⟨held, slot, recorded.trans (before.symm.trans commit'), granted⟩
  · intro j q e key' atJ has
    exact (apart j q atJ).1 e key' has (kept.granting j q e key' atJ has)
  · exact fun grant mem => Nat.le_trans (kept.granted grant mem) further
  · intro before rotation after is own
    obtain ⟨before', after', is, le⟩ := was before after rotation own is
    exact Nat.le_trans (kept.ordered before' rotation after' is own) (Nat.succ_le_succ le)
  · rintro rotation ⟨before, after, is, own, counts⟩
    obtain ⟨before', after', is, le⟩ := was before after rotation own is
    have ordered := kept.ordered before' rotation after' is own
    have counts : rotation.epoch = (Recorded.of d.first before).epoch + 1 := counts
    exact kept.won rotation ⟨before', after', is, own, by omega⟩

/-- A call up to its next await, kept apart. By where it is. -/
theorem Kept.resume (kept : Kept commitOf d) (is : d.calls i = some call)
    (apart : Apart commitOf d (.resume i admin fresh))
    (next : d.resume commitOf i call admin fresh = some d')
    : Kept commitOf d' := by
  have at_ := point_of_calls is
  have here (p : Point Key) (at' : d.point i = some p) : call.point = p :=
    Option.some.inj (at_.symm.trans at')
  unfold Device.resume at next
  split at next
  all_goals
    rename_i point
    rw [point] at at_ here
  case h_1 =>
    cases next
    exact kept.rest (fun p at' => here p at' ▸ rfl) rfl rfl
  case h_2 =>
    cases next
    exact kept.rest (fun p at' => here p at' ▸ rfl) (by split <;> rfl) (by split <;> rfl)
  case h_3 =>
    cases next
    exact kept.idle (fun p at' => here p at' ▸ rfl) rfl fun _ from_ => by
      cases from_
      exact Nat.le_refl _
  case h_4 attempt current tries =>
    cases next
    have le := kept.current i _ current at_ rfl
    refine kept.idle (fun p at' => here p at' ▸ rfl) ?_ ?_
    · split
      · rfl
      · split <;> rfl
    · intro epoch from_
      split at from_
      · cases from_
        exact le
      · split at from_ <;> cases from_
        exact le
  case h_5 attempt current =>
    cases next
    obtain ⟨new, free⟩ := apart attempt current at_
    have le := kept.current i _ current at_ rfl
    exact (kept.slot free).hold at_ rfl (Nat.succ_le_succ le) (Function.update_self ..) new free
  case h_6 attempt epoch key =>
    obtain ⟨le, slot⟩ := kept.appending i attempt epoch key at_
    have moved : Kept commitOf (d.goTo i call (.appended attempt epoch key)) := by
      refine kept.goTo (fun _ from_ => by cases from_) (fun _ _ _ same => by cases same)
        (fun target has => ⟨_, at_, has⟩) (fun _ _ has => by cases has) fun p _ _ at' has => ?_
      obtain rfl := here p at'
      cases has
    split at next <;> cases next
    · exact moved.append (by rw [point_goTo, if_pos rfl]) rfl le slot
    · exact moved
  case h_7 attempt epoch key =>
    split at next <;> cases next
    · rename_i recorded
      refine kept.goTo (fun _ from_ => by cases from_) (fun _ _ _ same => by cases same)
        (fun target has => ⟨_, at_, has⟩) (fun _ _ has => ?_) fun p _ _ at' has => ?_
      · cases has
        exact recorded
      · obtain rfl := here p at'
        exact .inl has
    · rename_i lost
      -- the slot is no other call's
      have moved : Kept commitOf (d.goTo i call
          (if attempt + 1 < 5 then .updating (attempt + 1) else .thrown)) := by
        refine kept.goTo ?_ ?_ ?_ ?_ fun p epoch key at' has => .inr (.inr ?_)
        · split <;> exact fun _ from_ => by cases from_
        · split <;> exact fun _ _ _ same => by cases same
        · split <;> exact fun _ has => by cases has
        · split <;> exact fun _ _ has => by cases has
        · obtain rfl := here p at'
          cases has
          exact lost
      refine moved.slot fun j q key' atJ has => ?_
      rw [point_goTo] at atJ
      split at atJ
      · cases atJ
        split at has <;> cases has
      · rename_i other
        exact other (kept.apart j i q _ epoch key' key atJ at_ has rfl)
  case h_8 epoch key =>
    have recorded := kept.granting i _ epoch key at_ rfl
    obtain ⟨held, slot, _⟩ := kept.target i _ epoch key at_ rfl recorded
    rw [slot] at next
    cases next
    obtain ⟨same, granted⟩ := kept.grant at_ rfl slot
    refine granted.goTo (fun _ from_ => by cases from_) (fun _ _ _ same => by cases same)
      (fun target has => ⟨_, at_, has⟩) (fun _ _ has => ?_) fun p _ _ at' has => .inr (.inl ?_)
    · cases has
      exact recorded
    · obtain rfl := here p at'
      cases has
      exact ⟨_, .head _, rfl, same⟩
  case h_9 epoch key =>
    cases next
    exact kept.rest (fun p at' => here p at' ▸ rfl) (by split <;> rfl) (by split <;> rfl)
  case h_10 epoch =>
    split at next <;> cases next <;> exact kept.rest (fun p at' => here p at' ▸ rfl) rfl rfl
  case h_11 => cases next
  case h_12 => cases next

/-- What happens kept apart keeps all of it. -/
theorem Kept.step [DecidableEq Key] (kept : Kept commitOf d) {action : Action Key}
    (apart : Apart commitOf d action) (next : d.step commitOf action = some d')
    : Kept commitOf d' := by
  cases action with
  | rotate i | revoke i =>
      obtain ⟨free, is⟩ := Option.ite_none_right_eq_some.mp next
      cases is
      exact kept.rest (fun p at' => by simp [Device.point, free] at at') rfl rfl
  | resume i admin fresh =>
      obtain ⟨call, is, next⟩ := Option.bind_eq_some_iff.mp next
      exact kept.resume is apart next
  | load epoch key =>
      obtain ⟨⟨_, recorded⟩, is⟩ := Option.ite_none_right_eq_some.mp next
      cases is
      exact kept.load recorded
  | other place epoch commit =>
      cases next
      exact kept.other apart
  | grant epoch key =>
      cases next
      exact ⟨kept.apart, kept.current, kept.appending, kept.target, kept.granting, kept.granted,
        kept.ordered, kept.won⟩

/-- In every run whose steps are kept apart: where a rotation returns an epoch, this device holds the
key that the log records, its grants for the epoch are of it, and no rotation of this device is
recorded without somebody having its key.
-/
theorem rotations_keep [DecidableEq Key] {first : String} {log : List (Nat × String)}
    {keys : Nat → Option Key} {others : List (Nat × Key)} {actions : List (Action Key)}
    (apart : Runs.AsFar (Device.step commitOf) (Apart commitOf) (opened first log keys others)
      actions)
    (ran : actions.foldlM (Device.step commitOf) (opened first log keys others) = some d)
    : (∀ i epoch, d.Returning i epoch → d.Holds commitOf epoch)
      ∧ ∀ rotation, d.Won rotation → d.Had commitOf rotation.epoch rotation.commit := by
  have kept : Kept commitOf d :=
    Runs.AsFar.keeps (Kept commitOf) (fun _ _ _ kept apart next => kept.step apart next) kept_opened
      apart ran
  constructor
  · rintro i epoch ⟨key, at_⟩
    exact kept.target i _ epoch key at_ rfl (kept.granting i _ epoch key at_ rfl)
  · intro rotation won
    rcases kept.won rotation won with granted | ⟨i, p, key, at_, owes, same⟩
    · exact .inr granted
    · have recorded := won.recorded.trans (congrArg some same.symm)
      obtain ⟨held, slot, commit, _⟩ :=
        kept.target i p rotation.epoch key at_ (Point.target_of_owing owes) recorded
      exact .inl ⟨held, slot, Option.some.inj (commit.symm.trans won.recorded)⟩

/-- A device that holds the first key of a channel. Keys stand for their commitments. -/
def created : Device String := opened "k0" [] (fun epoch => if epoch = 0 then some "k0" else none) []

/-- One call, with another's rotation ordered behind its own. -/
def alone : List (Action String) :=
  [.rotate 0, .resume 0 true "", .resume 0 true "", .resume 0 true "", .resume 0 true "k1",
    .resume 0 true "", .resume 0 true "", .other 1 1 "k2", .resume 0 true ""]

theorem rotations_keep_alone
    : ∃ d, alone.foldlM (Device.step id) created = some d ∧ d.Returning 0 1 ∧ d.Holds id 1 := by
  have apart : Runs.AsFar (Device.step id) (Apart id) created alone := by
    refine ⟨trivial, fun d is => ?_⟩
    cases is
    refine ⟨fun _ _ at_ => (by cases at_), fun d is => ?_⟩
    cases is
    refine ⟨fun _ _ at_ => (by cases at_), fun d is => ?_⟩
    cases is
    refine ⟨fun _ _ at_ => (by cases at_), fun d is => ?_⟩
    cases is
    refine ⟨fun attempt current at_ => ?_, fun d is => ?_⟩
    · cases at_
      refine ⟨by decide, fun j point key at_ => ?_⟩
      cases j <;> cases at_
      exact fun target => by cases target
    cases is
    refine ⟨fun _ _ at_ => (by cases at_), fun d is => ?_⟩
    cases is
    refine ⟨fun _ _ at_ => (by cases at_), fun d is => ?_⟩
    cases is
    refine ⟨fun j point at_ => ?_, fun d is => ?_⟩
    · cases j <;> cases at_
      refine ⟨fun _ _ granting _ => ?_, fun _ _ target _ => ?_⟩
      · cases granting
        rfl
      · cases target
        rfl
    cases is
    exact ⟨fun _ _ at_ => (by cases at_), fun _ _ => trivial⟩
  obtain ⟨d, ran, returning⟩ : ∃ d, alone.foldlM (Device.step id) created = some d
      ∧ d.point 0 = some (.submitting 1 "k1") := ⟨_, rfl, rfl⟩
  exact ⟨d, ran, ⟨_, returning⟩, (rotations_keep apart ran).1 0 1 ⟨_, returning⟩⟩

/-- Two calls at once: the second's key takes the slot of the first's, and is the one that loses. -/
def together : List (Action String) :=
  [.rotate 0, .rotate 1, .resume 0 true "", .resume 1 true "", .resume 0 true "", .resume 1 true "",
    .resume 0 true "", .resume 1 true "", .resume 0 true "k1", .resume 1 true "k2",
    .resume 0 true "", .resume 1 true "", .resume 0 true "", .resume 1 true ""]

/-- The first's rotation is recorded, its key nowhere. -/
theorem key_lost
    : ¬ ∀ (actions : List (Action String)) (d : Device String),
        actions.foldlM (Device.step id) created = some d
          → (∀ i epoch, d.Returning i epoch → d.Holds id epoch)
            ∧ ∀ rotation, d.Won rotation → d.Had id rotation.epoch rotation.commit := by
  intro claim
  obtain ⟨d, ran, log, slot, granted⟩ : ∃ d, together.foldlM (Device.step id) created = some d
      ∧ d.log = [⟨1, "k1", true⟩, ⟨1, "k2", true⟩] ∧ d.keys 1 = none ∧ d.granted = [] :=
    ⟨_, rfl, rfl, rfl, rfl⟩
  have won : d.Won ⟨1, "k1", true⟩ := ⟨[], [⟨1, "k2", true⟩], log, rfl, rfl⟩
  rcases (claim _ d ran).2 _ won with ⟨key, is, _⟩ | ⟨grant, mem, _⟩
  · rw [slot] at is
    cases is
  · rw [granted] at mem
    cases mem

end Device

end Hypergraph.Control
