import Hypergraph.Control.Calm

/-! The writers of a control log follow its roles: which role changes keep it so that each writer is
recorded for a member with a role, indexing just for an admin or the owner, and that no recorded writer
stops writing.
-/

namespace Hypergraph.Control

open Wire Js Engine
open Governance (someone)

variable {W Number : Type} (peer : Peer W Number) (s : State W Number)

-- Writers and roles

/-- The writer key recorded for a member. -/
def writerOf (member : String) : Option Key :=
  (s.view.roles[member]?.bind RoleRecord.writer).map fromHex

/-- Is a role one whose writer indexes? -/
def leads (role : Option (Json Number)) : Bool := isRole role "owner" || isRole role "admin"

/-- Every writer but the bootstrap is recorded for a member with a role, and indexes where such a member
leads; every recorded writer writes.
-/
structure Follows : Prop where
  recorded : ∀ key indexer, key ≠ peer.key → peer.autobase.indexes s.writers key = some indexer
    → (∃ member, writerOf s member = some key)
      ∧ (indexer = true ↔ ∃ member, writerOf s member = some key ∧ leads (s.roleOf member))
  writes : ∀ member key, writerOf s member = some key
    → (peer.autobase.indexes s.writers key).isSome

/-- A member's key that stays a writer when their record goes: the bootstrap's, or one recorded for
another member too, and for one who leads where this member does.
-/
def Left (member : String) (key : Key) : Prop :=
  key = peer.key
    ∨ (∃ other, other ≠ member ∧ writerOf s other = some key)
      ∧ (leads (s.roleOf member)
        → ∃ other, other ≠ member ∧ writerOf s other = some key ∧ leads (s.roleOf other))

/-- A role taken away from a member takes away no one else's key, and leaves none of their own. -/
def RemovesOwn (member : String) : Prop :=
  ∀ key, writerOf s member = some key
    → if peer.autobase.removeable s.writers key then
        ∀ other, other ≠ member → writerOf s other ≠ some key
      else Left peer s member key

/-- A role given to a member leaves no other key of theirs behind, and stops no one's key indexing. -/
def GivesOwn (member : String) (role : Json Number) (writer : Option String) : Prop :=
  (∀ key, writerOf s member = some key → writer.map fromHex ≠ some key → Left peer s member key)
    ∧ ∀ key, writer.map fromHex = some key → key ≠ peer.key → leads (some role) = false
      → ∀ other, other ≠ member → writerOf s other = some key → leads (s.roleOf other) = false

/-- A node whose role change, if it makes one, takes and leaves no one's key but the member's own. -/
def Orderly (node : Node Number) : Prop :=
  (∀ author member role writer, SetsRole peer node author member role writer
    → mayAssign (s.roleOf author) (s.roleOf member) role
    → match role with
      | none => RemovesOwn peer s member
      | some role => GivesOwn peer s member role writer)
  ∧ ∀ author timestamp r, Records peer node author timestamp r → Above peer (s.roleOf author) 1
    → Redeems peer s timestamp r
    → ∀ role current, r.invite.role = some role
      → rankName peer.numbers (s.roleOf (toHex r.identity)) = some current → stepsUp current role
      → GivesOwn peer s (toHex r.identity) (.string role) (r.writer.map toHex)

/-- What is documented of taking a writer out. -/
def Removes (autobase : Autobase W) : Prop :=
  ∀ w key, autobase.removeable w key → (autobase.removeWriter w key).isSome

-- One role change

section Changes

variable {peer s} {s' : State W Number} {node : Node Number} {member : String}

theorem Follows.congr (follows : Follows peer s) (roles : s'.view.roles = s.view.roles)
    (writers : s'.writers = s.writers)
    : Follows peer s' := by
  constructor
  · simpa only [writerOf, State.roleOf, roles, writers] using follows.recorded
  · simpa only [writerOf, roles, writers] using follows.writes

/-- A state that differs from another in what it records for one member. -/
structure But (s s' : State W Number) (member : String) : Prop where
  writers : ∀ other, other ≠ member → writerOf s' other = writerOf s other
  roles : ∀ other, other ≠ member → s'.roleOf other = s.roleOf other

/-- What was said of a key that is no longer the member's is still so where the key is left. -/
theorem But.recorded {key : Key} {indexer : Bool} (but : But s s' member)
    (follows : Follows peer s) (apart : key ≠ peer.key)
    (indexes : peer.autobase.indexes s.writers key = some indexer)
    (gone : writerOf s' member ≠ some key)
    : (writerOf s member = some key → Left peer s member key)
      ↔ (∃ other, writerOf s' other = some key)
        ∧ (indexer = true ↔ ∃ other, writerOf s' other = some key ∧ leads (s'.roleOf other)) := by
  obtain ⟨⟨holder, holds⟩, leading⟩ := follows.recorded key indexer apart indexes
  have other_ (other : String) (has : writerOf s' other = some key) : other ≠ member := by
    rintro rfl
    exact gone has
  have back : (∃ other, writerOf s' other = some key ∧ leads (s'.roleOf other)) → indexer = true := by
    rintro ⟨other, has, lead⟩
    have different := other_ other has
    rw [but.writers other different] at has
    rw [but.roles other different] at lead
    exact leading.mpr ⟨other, has, lead⟩
  constructor
  · intro left
    by_cases own : writerOf s member = some key
    · rcases left own with same | ⟨⟨other, different, has⟩, leader⟩
      · exact (apart same).elim
      · refine ⟨⟨other, by rw [but.writers other different, has]⟩, ?_, back⟩
        intro indexes
        obtain ⟨lead, has, leads⟩ := leading.mp indexes
        by_cases same : lead = member
        · obtain ⟨lead', different', has', leads'⟩ := leader (same ▸ leads)
          exact ⟨lead', by rw [but.writers lead' different', has'],
            by rw [but.roles lead' different', leads']⟩
        · exact ⟨lead, by rw [but.writers lead same, has], by rw [but.roles lead same, leads]⟩
    · have different (other : String) (has : writerOf s other = some key) : other ≠ member := by
        rintro rfl
        exact own has
      refine ⟨⟨holder, by rw [but.writers holder (different holder holds), holds]⟩, ?_, back⟩
      intro indexes
      obtain ⟨lead, has, leads⟩ := leading.mp indexes
      exact ⟨lead, by rw [but.writers lead (different lead has), has],
        by rw [but.roles lead (different lead has), leads]⟩
  · rintro ⟨⟨other, has⟩, leading'⟩ own
    refine .inr ⟨⟨other, other_ other has, by rw [← but.writers other (other_ other has), has]⟩, ?_⟩
    intro lead
    obtain ⟨leader, has, leads⟩ := leading'.mp (leading.mpr ⟨member, own, lead⟩)
    have different := other_ leader has
    rw [but.writers leader different] at has
    rw [but.roles leader different] at leads
    exact ⟨leader, different, has, leads⟩

variable (documented : peer.autobase.Documented)
include documented

/-- Giving a role keeps the writers following just where it leaves and stops no key. -/
theorem follows_assign {role : Json Number} {writer : Option String} {author : String}
    (follows : Follows peer s) (unowned : isRole (some role) "owner" = false)
    : Follows peer (s.assign peer member role writer author)
      ↔ GivesOwn peer s member role writer := by
  have but : But s (s.assign peer member role writer author) member := by
    constructor <;> intro other different <;>
      simp [writerOf, State.roleOf, State.assign, State.putRole, Std.ExtTreeMap.getElem?_insert,
        Ne.symm different]
  have own : writerOf (s.assign peer member role writer author) member = writer.map fromHex := by
    simp [writerOf, State.assign, State.putRole]
  have ownRole : (s.assign peer member role writer author).roleOf member = some role := by
    simp [State.roleOf, State.assign, State.putRole]
  have leads_ : leads (some role) = isRole (some role) "admin" := by rw [leads, unowned, Bool.false_or]
  have new (key : Key) (is : writer.map fromHex = some key)
      : peer.autobase.indexes (s.assign peer member role writer author).writers key
        = some (leads (some role)) := by
    obtain ⟨text, rfl, rfl⟩ := Option.map_eq_some_iff.mp is
    simp [State.assign, State.putRole, documented.add, leads_]
  have old (key : Key) (isnt : writer.map fromHex ≠ some key)
      : peer.autobase.indexes (s.assign peer member role writer author).writers key
        = peer.autobase.indexes s.writers key := by
    cases writer with
    | none => rfl
    | some text =>
        have different : key ≠ fromHex text := fun same => isnt (by simp [same])
        simp [State.assign, State.putRole, documented.add, different]
  constructor
  · intro follows'
    constructor
    · intro key has isnt
      by_cases boot : key = peer.key
      · exact .inl boot
      · obtain ⟨indexer, indexes⟩ := Option.isSome_iff_exists.mp (follows.writes member key has)
        exact (but.recorded follows boot indexes (own ▸ isnt)).mpr
          (follows'.recorded key indexer boot ((old key isnt).trans indexes)) has
    · intro key is boot follower other different has
      obtain ⟨_, leading⟩ := follows'.recorded key _ boot (new key is)
      rw [← Bool.not_eq_true]
      intro lead
      rw [leading.mpr ⟨other, by rw [but.writers other different, has],
        by rw [but.roles other different, lead]⟩] at follower
      cases follower
  · rintro ⟨left, stops⟩
    constructor
    · intro key indexer boot indexes
      by_cases is : writer.map fromHex = some key
      · have is_ := (new key is).symm.trans indexes
        refine ⟨⟨member, own.trans is⟩, ?_⟩
        rw [← Option.some.inj is_]
        constructor
        · intro lead
          exact ⟨member, own.trans is, by rw [ownRole, lead]⟩
        · rintro ⟨other, has, lead⟩
          by_cases same : other = member
          · rwa [same, ownRole] at lead
          · rw [but.writers other same] at has
            rw [but.roles other same] at lead
            by_contra follower
            rw [Bool.not_eq_true] at follower
            rw [stops key is boot follower other same has] at lead
            cases lead
      · rw [old key is] at indexes
        exact (but.recorded follows boot indexes (own ▸ is)).mp fun has => left key has is
    · intro other key has
      by_cases is : writer.map fromHex = some key
      · rw [new key is]
        rfl
      · rw [old key is]
        by_cases same : other = member
        · rw [same, own] at has
          exact (is has).elim
        · rw [but.writers other same] at has
          exact follows.writes other key has

variable (removes : Removes peer.autobase)
include removes

/-- Taking a role away keeps the writers following just where it takes and leaves no other's key. -/
theorem follows_removeRole (whole : Whole s) (follows : Follows peer s)
    : Follows peer (s.removeRole peer member) ↔ RemovesOwn peer s member := by
  have roles : (s.removeRole peer member).view.roles = s.view.roles.erase member := by
    rw [view_removeRole]
  have but : But s (s.removeRole peer member) member := by
    constructor <;> intro other different <;>
      simp [writerOf, State.roleOf, roles, Std.ExtTreeMap.getElem?_erase, Ne.symm different]
  have gone (key : Key) : writerOf (s.removeRole peer member) member ≠ some key := by
    simp [writerOf, roles]
  cases has : s.view.roles[member]?.bind RoleRecord.writer with
  | none =>
      have none_ : writerOf s member = none := by rw [writerOf, has, Option.map_none]
      have writers : (s.removeRole peer member).writers = s.writers := by simp [State.removeRole, has]
      refine iff_of_true ⟨?_, ?_⟩ fun key is => (by simp [none_] at is)
      · intro key indexer boot indexes
        rw [writers] at indexes
        exact (but.recorded follows boot indexes (gone key)).mp fun is => (by simp [none_] at is)
      · intro other key is
        rw [writers]
        by_cases same : other = member
        · exact (gone key (same ▸ is)).elim
        · exact follows.writes other key (but.writers other same ▸ is)
  | some text =>
      have own : writerOf s member = some (fromHex text) := by rw [writerOf, has, Option.map_some]
      have long : (fromHex text).length = 32 := by
        obtain ⟨record, at_, writer⟩ := Option.bind_eq_some_iff.mp has
        exact whole member record at_ text writer
      have others (other : String) (different : other ≠ member) (key : Key)
          (is : writerOf (s.removeRole peer member) other = some key)
          : (peer.autobase.indexes s.writers key).isSome :=
        follows.writes other key (but.writers other different ▸ is)
      rw [RemovesOwn]
      simp only [own, Option.some.injEq, forall_eq']
      by_cases removeable : peer.autobase.removeable s.writers (fromHex text) = true
      · obtain ⟨writers', removed⟩ := Option.isSome_iff_exists.mp (removes _ _ removeable)
        have writers : (s.removeRole peer member).writers = writers' := by
          simp [State.removeRole, has, State.dropWriter, long, removeable, removed]
        have indexes_ := documented.remove _ _ _ removed
        rw [if_pos removeable]
        constructor
        · intro follows' other different is
          have writes := follows'.writes other (fromHex text) (by rw [but.writers other different, is])
          rw [writers, indexes_, if_pos rfl] at writes
          cases writes
        · intro alone
          constructor
          · intro key indexer boot indexes
            rw [writers, indexes_] at indexes
            split at indexes
            · cases indexes
            rename_i different
            refine (but.recorded follows boot indexes (gone key)).mp fun is => ?_
            rw [own] at is
            exact (different (Option.some.inj is).symm).elim
          · intro other key is
            by_cases same : other = member
            · exact (gone key (same ▸ is)).elim
            · have different : key ≠ fromHex text := by
                rintro rfl
                exact alone other same (but.writers other same ▸ is)
              rw [writers, indexes_, if_neg different]
              exact others other same key is
      · have writers : (s.removeRole peer member).writers = s.writers := by
          simp [State.removeRole, has, State.dropWriter, removeable]
        rw [if_neg removeable]
        constructor
        · intro follows'
          by_cases boot : fromHex text = peer.key
          · exact .inl boot
          · obtain ⟨indexer, indexes⟩ := Option.isSome_iff_exists.mp (follows.writes member _ own)
            exact (but.recorded follows boot indexes (gone _)).mpr
              (follows'.recorded _ indexer boot (writers ▸ indexes)) own
        · intro left
          constructor
          · intro key indexer boot indexes
            rw [writers] at indexes
            refine (but.recorded follows boot indexes (gone key)).mp fun is => ?_
            rw [own] at is
            exact Option.some.inj is ▸ left
          · intro other key is
            rw [writers]
            by_cases same : other = member
            · exact (gone key (same ▸ is)).elim
            · exact others other same key is

end Changes

-- Runs

/-- What is so of every state a log leads to: keys are whole, and nobody has a role before the log is
founded.
-/
structure Sound : Prop where
  whole : Whole s
  unfounded : s.view.community = none
    → (∀ member : String, s.view.roles[member]? = none) ∧ (peer.autobase.indexes s.writers peer.key).isSome

section Runs

variable {peer s} {s' : State W Number} {node : Node Number}

@[simp]
theorem mayAssign_nobody {current role : Option (Json Number)} : mayAssign none current role = false := by
  simp [mayAssign, isRole, Json.string?]

theorem not_above_nobody {wanted : Nat} (positive : 0 < wanted)
    : ¬ Above peer none wanted := by
  simp [Above, atLeast, rankName, rankOf, ownRank, objectPrototype, Nat.not_le.mpr positive]

variable (key : peer.key.length = 32)
include key

theorem Sound.step (sound : Sound peer s) (step : Step peer s node s') : Sound peer s' := by
  refine ⟨sound.whole.step key step, fun unfounded => ?_⟩
  have nobody (new : s.view.community = none) (author : String) : s.roleOf author = none := by
    rw [State.roleOf, (sound.unfounded new).1, Option.map_none]
  cases step with
  | found => cases unfounded
  | removeRole _ may =>
      rw [view_removeRole] at unfounded
      rw [nobody unfounded, mayAssign_nobody] at may
      cases may
  | assign _ may _ =>
      have new : s.view.community = none := unfounded
      rw [nobody new, mayAssign_nobody] at may
      cases may
  | redeem _ above _ _ gives =>
      have new : s.view.community = none := by
        cases gives <;> exact unfounded
      rw [nobody new] at above
      exact (not_above_nobody (by decide) above).elim
  | _ => exact sound.unfounded unfounded

variable (documented : peer.autobase.Documented) (removes : Removes peer.autobase)
include documented removes

omit key in
/-- A step that is orderly keeps the writers following. -/
theorem Follows.step (sound : Sound peer s) (follows : Follows peer s) (orderly : Orderly peer s node)
    (step : Step peer s node s')
    : Follows peer s' := by
  cases step with
  | @found author name timestamp from_ signed new =>
      obtain ⟨nobody, boot⟩ := sound.unfounded new
      constructor
      · intro key indexer apart indexes
        obtain ⟨⟨member, has⟩, _⟩ := follows.recorded key indexer apart indexes
        simp [writerOf, nobody] at has
      · intro member key has
        have at_ : writerOf (s.found name timestamp author (toHex peer.key)) member
            = if author = member then some peer.key else none := by
          simp only [writerOf, State.found, Std.ExtTreeMap.getElem?_insert, Std.compare_eq_iff_eq, nobody]
          split <;> simp [fromHex_toHex]
        rw [at_] at has
        split at has
        · rw [← Option.some.inj has]
          exact boot
        · cases has
  | removeRole sets may =>
      exact (follows_removeRole documented removes sound.whole follows).mpr (orderly.1 _ _ _ _ sets may)
  | assign sets may _ =>
      refine (follows_assign documented follows ?_).mpr (orderly.1 _ _ _ _ sets may)
      rw [← Bool.not_eq_true]
      intro owner
      simp [mayAssign, owner] at may
  | redeem records above redeems _ gives =>
      cases gives with
      | nothing => exact follows.congr rfl rfl
      | role gives current up =>
          refine Follows.congr ((follows_assign documented follows ?_).mpr
            (orderly.2 _ _ _ records above redeems _ _ gives current up)) rfl rfl
          rw [← Bool.not_eq_true]
          intro owner
          have givable := redeems.givable
          simp [State.givable, gives, mayAssign, owner] at givable
  | _ => exact follows.congr rfl rfl

/-- In every run whose role changes are orderly, from a log where just the bootstrap writes, the writers
follow the roles in every state.
-/
theorem writers_follow {writers : W}
    (starts : ∀ other, peer.autobase.indexes writers other = if other = peer.key then some true else none)
    (log : List (Node Number))
    (orderly : Runs.AsFar (State.apply peer) (Orderly peer) { writers } log)
    : ∀ before after s, log = before ++ after → State.run peer { writers } before = some s
      → Follows peer s := by
  rintro before after s rfl reached
  have both : Sound peer s ∧ Follows peer s := by
    have start : Sound peer ({ writers } : State W Number) ∧ Follows peer ({ writers } : State W Number) := by
      refine ⟨⟨fun _ _ at_ => by simp at at_, fun _ => ⟨fun _ => by simp, by simp [starts]⟩⟩, ?_, ?_⟩
      · intro other indexer apart indexes
        simp [starts, apart] at indexes
      · intro member other has
        simp [writerOf] at has
    refine orderly.of_append.keeps (fun s => Sound peer s ∧ Follows peer s) (fun s node s' both orderly applied => ?_) start reached
    have step := step_of_apply applied
    exact ⟨both.1.step key step, both.2.step documented removes both.1 orderly step⟩
  exact both.2

end Runs

/-- The owner gives someone a role, with their writer where there is one. -/
def gives (member : UInt8) (role : String) (writer : UInt8) : Node Nat :=
  signedBy (someone 1) "role"
    [("member", .string (someone member)), ("role", .string role), ("writer", .string (someone writer))] 0

/-- The owner takes someone's role away. -/
def takes (member : UInt8) : Node Nat :=
  signedBy (someone 1) "role" [("member", .string (someone member))] 0

section Founded

variable {W : Type} {s : State W Nat}

/-- What is so of every writer recorded. -/
theorem all_writers (has : Key → Bool)
    (all : s.view.roles.toList.all fun row => (row.2.writer.map fromHex).all has) {member : String}
    {key : Key} (is : writerOf s member = some key)
    : has key := by
  obtain ⟨text, found, rfl⟩ := Option.map_eq_some_iff.mp is
  obtain ⟨record, at_, writer⟩ := Option.bind_eq_some_iff.mp found
  have row := List.all_eq_true.mp all _ (Std.ExtTreeMap.mem_toList_iff_getElem?_eq_some.mpr at_)
  simpa [writer] using row

end Founded

theorem orderly_founded : Orderly listPeer founded (gives 2 "mod" 8) := by
  constructor
  · rintro author member role writer ⟨fields, value, _, _, member_, role_, writer_⟩ _
    cases value
    have member_ : some (someone 2) = some member := member_
    have role_ : some (.string "mod") = role := role_
    cases member_
    cases role_
    constructor
    · intro key has
      have none_ : writerOf founded (someone 2) = none := by decide +kernel
      rw [none_] at has
      cases has
    · rintro key is apart _ other _ has
      have boot : (key == List.replicate 32 0) = true :=
        all_writers (fun key => key == List.replicate 32 0) (by decide +kernel) has
      exact (apart (eq_of_beq boot)).elim
  · rintro author timestamp r ⟨fields, value, type, _⟩
    cases value
    simp [Json.field, Json.string?] at type

theorem writers_follow_gives
    : ∃ s, State.run listPeer { writers := [(List.replicate 32 0, true)] } [founding, gives 2 "mod" 8]
        = some s ∧ Follows listPeer s := by
  have ran : (State.run listPeer { writers := [(List.replicate 32 0, true)] }
      [founding, gives 2 "mod" 8]).isSome := by
    decide +kernel
  obtain ⟨s, is⟩ := Option.isSome_iff_exists.mp ran
  have orderly : Runs.AsFar (State.apply listPeer) (Orderly listPeer)
      { writers := [(List.replicate 32 0, true)] } [founding, gives 2 "mod" 8] := by
    refine ⟨⟨?_, ?_⟩, fun s' ran => ?_⟩
    · rintro author member role writer ⟨fields, value, type, _⟩
      cases value
      simp [Json.field, Json.string?] at type
    · rintro author timestamp r ⟨fields, value, type, _⟩
      cases value
      simp [Json.field, Json.string?] at type
    · have ran_ := run_founding
      rw [State.run, List.foldlM_cons, ran] at ran_
      cases ran_
      exact ⟨orderly_founded, fun _ _ => trivial⟩
  refine ⟨s, is, writers_follow (by decide) Autobase.documented_inList (fun w key may => ?_)
    (fun other => ?_) _ orderly [founding, gives 2 "mod" 8] [] s rfl is⟩
  · simp only [listPeer, Autobase.inList, decide_eq_true_eq] at may ⊢
    rw [if_neg may]
    rfl
  · show ([(List.replicate 32 0, true)] : List (Key × Bool)).lookup other
      = if other = List.replicate 32 0 then some true else none
    by_cases same : other = List.replicate 32 0
    · rw [same, if_pos rfl, List.lookup_cons_self]
    · rw [if_neg same, List.lookup_cons, beq_false_of_ne same, List.lookup_nil]

/-- A member given another writer leaves the first one a writer; and of two members that name one
writer, the second's removal stops the first's.
-/
theorem writers_astray
    : (∃ s, State.run listPeer { writers := [(List.replicate 32 0, true)] }
          [founding, gives 2 "mod" 8, gives 2 "mod" 9] = some s ∧ ¬ Follows listPeer s)
      ∧ ∃ s, State.run listPeer { writers := [(List.replicate 32 0, true)] }
          [founding, gives 2 "mod" 8, gives 3 "mod" 8, takes 3] = some s ∧ ¬ Follows listPeer s := by
  constructor
  · have ran : (State.run listPeer { writers := [(List.replicate 32 0, true)] }
        [founding, gives 2 "mod" 8, gives 2 "mod" 9]).any
          (fun s => s.writers.lookup (List.replicate 32 8) = some false
            ∧ s.view.roles.toList.all fun row =>
              (row.2.writer.map fromHex).all (· ≠ List.replicate 32 8)) = true := by
      decide +kernel
    obtain ⟨s, is, has⟩ := (Option.any_eq_true _ _).mp ran
    obtain ⟨writes, unrecorded⟩ := of_decide_eq_true has
    refine ⟨s, is, fun follows => ?_⟩
    obtain ⟨⟨member, recorded⟩, _⟩ := follows.recorded (List.replicate 32 8) false (by decide) writes
    simpa using all_writers _ unrecorded recorded
  · have ran : (State.run listPeer { writers := [(List.replicate 32 0, true)] }
        [founding, gives 2 "mod" 8, gives 3 "mod" 8, takes 3]).any
          (fun s => s.writers.lookup (List.replicate 32 8) = none
            ∧ writerOf s (someone 2) = some (List.replicate 32 8)) = true := by
      decide +kernel
    obtain ⟨s, is, has⟩ := (Option.any_eq_true _ _).mp ran
    obtain ⟨stopped, recorded⟩ := of_decide_eq_true has
    refine ⟨s, is, fun follows => ?_⟩
    have writes : (s.writers.lookup (List.replicate 32 8)).isSome := follows.writes _ _ recorded
    rw [stopped] at writes
    cases writes

end Hypergraph.Control
