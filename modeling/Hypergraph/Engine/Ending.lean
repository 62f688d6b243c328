import Hypergraph.Engine.Applies
import Hypergraph.Engine.Invitations
import Hypergraph.Engine.Replaying

/-! Runs of a context's nodes and of the drains after them that end: those in which no key is handed to
Autobase that isn't one, and the app's rules don't throw.
-/

namespace Hypergraph.Engine

open Wire Js Layouts Events
open Runs (Ends AsFar)

variable {W : Type}

-- Governance

namespace Governance

/-- The table is of version 1, and every invite is to a named role of one. -/
structure Formed (s : Governance W) : Prop where
  version : ∀ table, s.roles = some table → table.version = 1
  invites : ∀ (key : String) inv, s.invites[key]? = some inv → s.roles.isSome ∧ inv.role ≠ ""

variable {peer : Peer W} {s : Governance W} {key member author : String} {timestamp : Nat}
  {signature : Option String} {indexer : Bool}

theorem isSome_of_mayAssign {role : String} (may : mayAssign s.roles author member role = true)
    : s.roles.isSome := by
  cases is : s.roles with
  | none =>
      rw [is] at may
      cases may
  | some table => rfl

theorem ends_addWriter (formed : s.Formed) {key : Key} (whole : key.length = 32)
    : Ends Formed (s.addWriter? peer key indexer) :=
  ⟨_, if_pos whole, formed.version, formed.invites⟩

theorem ends_addWriters (formed : s.Formed) {keys : List Key} (whole : ∀ key ∈ keys, key.length = 32)
    : Ends Formed (keys.foldlM (fun s key => s.addWriter? peer key indexer) s) :=
  (Runs.asFar_of_forall whole).ends Formed (fun _ _ formed whole => ends_addWriter formed whole) formed

theorem Formed.linkWriter (formed : s.Formed) : (s.linkWriter key member).Formed :=
  ⟨formed.version, formed.invites⟩

theorem Formed.removeWriter (formed : s.Formed) {key : Key} : (s.removeWriter peer key).Formed := by
  unfold Governance.removeWriter
  split
  · exact formed
  · exact ⟨formed.version, formed.invites⟩

theorem ends_contextWriter (formed : s.Formed)
    (whole
      : key ≠ "" → verifies peer (.writer key member peer.contextKey author timestamp) author signature = true
        → (peer.closed = true → canIn s.roles author "context.write" = true)
        → (fromHex key).length = 32)
    : Ends Formed (s.applyContextWriter? peer key member author timestamp signature) := by
  refine .ite formed fun named => .ite formed fun signed => .ite formed fun may => ?_
  have whole := whole named (not_not.mp signed) fun closed => by simpa [closed] using may
  split
  · exact ends_addWriter formed.linkWriter whole
  · exact ends_addWriter formed whole

theorem ends_contextRole (formed : s.Formed) {role : String}
    (whole
      : member ≠ "" → verifies peer (.role member role peer.contextKey author timestamp) author signature = true
        → mayAssign s.roles author member role = true
        → ∀ next, applyRoleEvent s.roles (roleEvent member role) = some next
        → canIn s.roles member "context.index" ≠ next.can member "context.index"
        → (canIn s.roles member "context.index" = true
          → (s.writersOf member).all (peer.autobase.removeable s.writers) = true)
        → ∀ key ∈ s.writersOf member, key.length = 32)
    : Ends Formed (s.applyContextRole? peer member role author timestamp signature) := by
  refine .ite formed fun named => .ite formed fun signed => .ite formed fun may => ?_
  obtain ⟨table, is⟩ := Option.isSome_iff_exists.mp (isSome_of_mayAssign (not_not.mp may))
  cases made : applyRoleEvent s.roles (roleEvent member role) with
  | none => exact ⟨s, rfl, formed⟩
  | some next =>
      refine .ite formed fun goes => ends_addWriters ⟨fun table' is' => ?_, fun key inv at_ => ?_⟩ ?_
      · cases is'
        rw [is] at made
        exact Registry.version_of_applyRoleEvent made
      · exact ⟨rfl, (formed.invites key inv at_).2⟩
      · intro key mem
        split at mem
        · cases mem
        · rename_i moved
          refine whole named (not_not.mp signed) (not_not.mp may) next made moved (fun before => ?_) key mem
          by_contra some_
          refine goes ⟨before, fun after => moved (before.trans after.symm), ?_⟩
          rw [if_neg moved]
          exact some_

theorem Formed.contextInvite (formed : s.Formed) {inviteKey role : String} {uses : Nat}
    {asked : Option ScopeAsked}
    : (s.applyContextInvite peer inviteKey role uses author timestamp signature asked).Formed := by
  have invite {inv : Invite} (there : s.roles.isSome) (named : inv.role ≠ "")
      : ({ s with invites := s.invites.insert inviteKey inv } : Governance W).Formed := by
    refine ⟨formed.version, fun key inv' at_ => ?_⟩
    rcases Table.at_insert at_ with ⟨rfl, rfl⟩ | ⟨_, at_⟩
    · exact ⟨there, named⟩
    · exact formed.invites key inv' at_
  have default_ : (if role ≠ "" then role else "member") ≠ "" := by
    split
    · assumption
    · decide
  unfold applyContextInvite
  dsimp only
  generalize (if role ≠ "" then role else "member") = role at default_ ⊢
  split
  · exact formed
  split
  · exact formed
  split
  · split
    · exact formed
    · rename_i inv at_
      obtain ⟨there, named⟩ := formed.invites _ _ at_
      split
      · exact formed
      · exact invite there named
  · split
    · exact formed
    split
    · exact formed
    split
    · exact formed
    · rename_i may
      split
      · exact formed
      · exact invite (isSome_of_mayAssign (not_not.mp may)) default_

theorem given?_eq {table : Registry} {role : String} (version : table.version = 1) (named : member ≠ "")
    (role_ : role ≠ "")
    : given? table member role = some (given table member role) := by
  unfold given? given
  split
  · rfl
  · rw [Registry.applyRoleEvent_setRole, if_pos ⟨version, named, role_⟩]
    rfl

theorem ends_contextRedeem (formed : s.Formed) {inviteKey : String}
    {memberSignature encryptionKey : Option String} {from_ : Key} {optimistic : Bool}
    (whole : from_.length = 32)
    : Ends Formed (s.applyContextRedeem? peer inviteKey member key timestamp signature memberSignature
        encryptionKey from_ optimistic) := by
  refine .ite formed fun own => .ite formed fun named => ?_
  cases at_ : s.invites[inviteKey]? with
  | none => exact ⟨s, rfl, formed⟩
  | some inv =>
      refine .ite formed fun valid => .ite formed fun signed => ?_
      obtain ⟨there, role⟩ := formed.invites _ _ at_
      obtain ⟨table, is⟩ := Option.isSome_iff_exists.mp there
      have version := formed.version table is
      have after : s.applyContextRedeem peer inviteKey member key timestamp signature memberSignature
          encryptionKey from_ optimistic
          = s.redeemed peer table inv inviteKey member key encryptionKey from_ optimistic := by
        rw [applyContextRedeem, if_neg own, if_neg named, at_]
        dsimp only
        rw [if_neg valid, if_neg signed, is]
        rfl
      rw [is, Option.bind_some, given?_eq version named role]
      refine ⟨_, if_pos whole, ?_⟩
      rw [after]
      refine ⟨fun table' is' => ?_, fun key' inv' at_' => ?_⟩
      · rw [roles_redeemed] at is'
        cases is'
        exact version_given version
      · rw [roles_redeemed]
        rw [invites_redeemed] at at_'
        rcases Table.at_insert at_' with ⟨_, rfl⟩ | ⟨_, at_'⟩
        · exact ⟨rfl, role⟩
        · exact ⟨rfl, (formed.invites key' inv' at_').2⟩

end Governance

-- Steps that are fine

namespace ContextView

open Governance (addWriter? verifies writersOf mayChange changeSigned ends_addWriter)

/-- A text is a key in hex. -/
def Whole (key : String) : Prop := (fromHex key).length = 32

section Fine

variable {Tuple Number : Type} [Ord Tuple] [Std.TransOrd Tuple] (peer : ThrowingPeer W Number)
  (p : Primitives) (float64 : Codec Number) (enc : IndexEncoder Tuple) (json : Number → Option Number)
  (s : ContextView W Tuple Number)

/-- What a governance event hands to Autobase, where its branch comes to it, is a key. -/
def Keyed (event : GovernanceEvent) (given : Given) : Prop :=
  let roles := s.governance.roles
  given.optimistic = false →
    match event with
    | .addWriter key => peer.closed = false → Whole key
    | .contextWriter key member author timestamp signature =>
        s.recordOf.version = 3 → key ≠ ""
        → verifies peer.toPeer (.writer key member peer.contextKey author timestamp) author signature = true
        → (peer.closed = true → canIn roles author "context.write" = true)
        → Whole key
    | .contextRole member role author timestamp signature =>
        s.recordOf.version = 3 → member ≠ ""
        → verifies peer.toPeer (.role member role peer.contextKey author timestamp) author signature = true
        → mayAssign roles author member role = true
        → ∀ next, applyRoleEvent roles (roleEvent member role) = some next
        → canIn roles member "context.index" ≠ next.can member "context.index"
        → (canIn roles member "context.index" = true
          → (s.governance.writersOf member).all (peer.autobase.removeable s.governance.writers) = true)
        → ∀ key ∈ s.governance.writersOf member, key.length = 32
    | .rolesAddWriter key author timestamp signature =>
        if s.recordOf.version = 3 then
          s.governance.mayChange peer.toPeer "roles/addWriter" key author timestamp signature = true
            → Whole key
        else
          (peer.closed = true
            → changeSigned peer.toPeer "roles/addWriter" key author timestamp signature = true
              ∧ given.allowed (author.getD "") "context.write" = some true)
          → Whole key
    | _ => True

/-- The app's rules, where they are asked about an event, don't throw. -/
def Ruled (event : Event Number) : Prop :=
  Applying.Asks peer.toContextPeer event → peer.rules.isSome →
    if s.recordOf.layoutId = 2 then
      peer.mistaken event (s.second.reader (layout2 enc p float64)) = false
    else peer.mistaken event (s.first.reader (layout1 json)) = false

/-- A node's event, or the changes of writers that waited, have keys for Autobase, and don't make the
rules throw; the counts that a full chunk writes are safe integers.
-/
def Fine : Happening → Prop
  | .node given =>
      (given.flush = true → s.first.Counted ∧ s.second.Counted) ∧
      let s := if given.flush then s.flushed p float64 enc json else s
      s.stopped = false → ∀ event, Context.eventOf p float64 given.toContextNode = some event →
        refusal peer s.recordOf = none →
          (∀ governance, governanceEvent event = some governance → s.Keyed peer governance given)
          ∧ (given.optimistic = false → s.Ruled peer p float64 enc json event)
  | .drain allowed =>
      ∀ entry ∈ s.changes.toList, entry.2.add = true →
        allowed entry.2.author "context.write" = some true → Whole entry.2.key

/-- What the reads of a view need. -/
structure Sound : Prop where
  governance : s.governance.Formed
  first : s.first.Holds Layout1.Refs
  second : s.second.Holds (Layout2.Legible enc p float64)

end Fine

-- Steps

variable {Tuple Number : Type} [Ord Tuple] [Std.TransOrd Tuple] {peer : ThrowingPeer W Number}
  {p : Primitives} {float64 : Codec Number} {enc : IndexEncoder Tuple} {json : Number → Option Number}
  {s : ContextView W Tuple Number} {event : Event Number} {given : Given}

section Governed

variable (sound : s.Sound p float64 enc)

include sound

theorem ends_governed {made : Option (Governance W)} (ends : Ends Governance.Formed made)
    : Ends (Sound p float64 enc) (made.map fun governance => { s with governance }) := by
  obtain ⟨governance, rfl, formed⟩ := ends
  exact ⟨_, rfl, formed, sound.first, sound.second⟩

/-- A writer is added, or removed. -/
theorem ends_change {add : Bool} {key : String} (whole : add = true → Whole key)
    : Ends (Sound p float64 enc)
        (if add then do
          let governance ← s.governance.addWriter? peer.toPeer (fromHex key) (s.recordOf.version = 1)
          return { s with governance }
        else some { s with governance := s.governance.removeWriter peer.toPeer (fromHex key) }) := by
  cases add with
  | true =>
      exact (ends_addWriter sound.governance (whole rfl)).bind fun governance formed =>
        ⟨_, rfl, formed, sound.first, sound.second⟩
  | false => exact ⟨_, rfl, sound.governance.removeWriter, sound.first, sound.second⟩

theorem ends_applyChange {add : Bool} {key : String} {author : Option String} {timestamp : Nat}
    {signature : Option String} {allowed : (author action : String) → Option Bool}
    (whole
      : add = true
        → (peer.closed = true
          → changeSigned peer.toPeer "roles/addWriter" key author timestamp signature = true
            ∧ allowed (author.getD "") "context.write" = some true)
        → Whole key)
    : Ends (Sound p float64 enc)
        (s.applyChange peer add key author timestamp signature allowed) := by
  unfold applyChange
  dsimp only
  split
  · rename_i open_
    exact ends_change sound fun is => whole is fun closed => absurd closed open_
  · refine .ite sound fun signed => ?_
    split
    · exact ⟨_, rfl, sound.governance, sound.first, sound.second⟩
    · exact ⟨s, rfl, sound⟩
    · rename_i may
      refine ends_change sound fun is => whole is fun _ => ⟨?_, may⟩
      rw [is] at signed
      exact not_not.mp signed

theorem ends_govern {event : GovernanceEvent} (keyed : s.Keyed peer event given)
    : Ends (Sound p float64 enc) (s.govern peer event given) := by
  have stays : Ends (Sound p float64 enc) (some s) := ⟨s, rfl, sound⟩
  cases event with
  | contextRedeem inviteKey member key timestamp signature memberSignature encryptionKey =>
      unfold govern
      dsimp only
      split
      · exact ends_governed sound (Governance.ends_contextRedeem sound.governance given.key)
      · exact stays
  | contextInvite inviteKey role uses author timestamp signature asked =>
      refine .ite sound fun _ => ?_
      split
      · exact ends_governed sound ⟨_, rfl, sound.governance.contextInvite⟩
      · exact stays
  | addWriter key =>
      refine .ite sound fun own => .ite sound fun open_ => ends_governed sound ?_
      exact ends_addWriter sound.governance (keyed (by simpa using own) (by simpa using open_))
  | contextWriter key member author timestamp signature =>
      refine .ite sound fun own => ?_
      split
      · rename_i third
        exact ends_governed sound
          (Governance.ends_contextWriter sound.governance (keyed (by simpa using own) third))
      · exact stays
  | contextRole member role author timestamp signature =>
      refine .ite sound fun own => ?_
      split
      · rename_i third
        exact ends_governed sound
          (Governance.ends_contextRole sound.governance (keyed (by simpa using own) third))
      · exact stays
  | rolesAddWriter key author timestamp signature =>
      refine .ite sound fun own => ?_
      have keyed := keyed (by simpa using own)
      split
      · rename_i third
        simp only [third, if_true] at keyed
        exact .ite sound fun may => ends_governed sound
          (ends_addWriter sound.governance (keyed (not_not.mp may)))
      · rename_i third
        simp only [third, if_false] at keyed
        exact ends_applyChange sound fun _ => keyed
  | rolesRemoveWriter key author timestamp signature =>
      refine .ite sound fun own => ?_
      split
      · exact .ite sound fun may => ends_governed sound ⟨_, rfl, sound.governance.removeWriter⟩
      · exact ends_applyChange sound fun is => (by cases is)

theorem Sound.recorded {record : ContextRecord}
    : ({ s with record := some record } : ContextView W Tuple Number).Sound p float64 enc :=
  ⟨sound.governance, sound.first, sound.second⟩

theorem Sound.startRoleTable {owner : String} {key : Key}
    : (s.startRoleTable owner key).Sound p float64 enc where
  governance := ⟨fun table is => by cases is; rfl, fun key' inv at_ =>
    ⟨rfl, (sound.governance.invites key' inv at_).2⟩⟩
  first := sound.first
  second := sound.second

theorem Sound.contextInit {version : Nat} {rules owner : Option String} {layout : Option Nat} {from_ : Key}
    : (s.applyContextInit peer version rules owner layout from_).Sound p float64 enc := by
  unfold applyContextInit
  split
  · exact sound
  split
  · exact sound
  dsimp only
  split
  · exact ⟨sound.governance, sound.first, sound.second⟩
  split
  · split
    · exact sound.recorded.startRoleTable
    · exact sound.recorded
  · exact sound.recorded

theorem ends_contextUpgrade {version : Nat} {owner : String} {from_ : Key}
    : Ends (Sound p float64 enc) (s.applyContextUpgrade peer version owner from_) := by
  refine .ite sound fun _ => .ite sound fun _ => .ite sound fun _ => ?_
  have started : (({ s with record := some { s.recordOf with version := 3, owner := some owner } }
      : ContextView W Tuple Number).startRoleTable owner from_).Sound p float64 enc :=
    sound.recorded.startRoleTable
  have each (governance : Governance W) (key : Key) (formed : governance.Formed) (whole : key.length = 32)
      : Ends Governance.Formed
          (if key = from_ then some governance else governance.addWriter? peer.toPeer key false) :=
    .ite formed fun _ => ends_addWriter formed whole
  have whole : ∀ key ∈ (peer.indexers s.governance.writers).map Subtype.val, key.length = 32 := by
    intro key mem
    obtain ⟨indexer, _, rfl⟩ := List.mem_map.mp mem
    exact indexer.2
  exact (AsFar.ends _ each started.governance (Runs.asFar_of_forall whole)).bind
    fun governance formed => ⟨_, rfl, formed, started.first, started.second⟩

theorem Sound.moderated {m : ModerationAction} {from_ : Key} {length : Nat}
    : (s.moderated peer m from_ length).Sound p float64 enc :=
  ⟨sound.governance, sound.first, sound.second⟩

theorem Sound.moderationAction {m : ModerationAction}
    : (s.applyModerationAction peer m given).Sound p float64 enc := by
  unfold applyModerationAction
  split
  · exact sound
  split
  · split
    · exact sound.moderated
    · exact sound
  split
  · exact ⟨sound.governance, sound.first, sound.second⟩
  · exact sound
  · exact sound.moderated

theorem Sound.message {passes : Bool} {timestamp : Nat} {text username author : String}
    : (s.applyMessage passes timestamp text username author).Sound p float64 enc := by
  unfold applyMessage
  split
  · exact ⟨sound.governance, sound.first, sound.second⟩
  · exact sound

/-- The changes of writers that waited are made where those allowed have keys. -/
theorem ends_drainChanges {allowed : (author action : String) → Option Bool}
    (whole : ∀ entry ∈ s.changes.toList, entry.2.add = true
      → allowed entry.2.author "context.write" = some true → Whole entry.2.key)
    : Ends (Sound p float64 enc) (s.drainChanges peer allowed) := by
  refine AsFar.ends (Sound p float64 enc) (fun t entry sound whole => ?_) sound
    (Runs.asFar_of_forall whole)
  obtain ⟨name, change⟩ := entry
  dsimp only at whole ⊢
  have erased : ({ t with changes := t.changes.erase name } : ContextView W Tuple Number).Sound p float64 enc :=
    ⟨sound.governance, sound.first, sound.second⟩
  split
  · exact ⟨t, rfl, sound⟩
  · exact ⟨_, rfl, erased⟩
  · rename_i may
    exact ends_change erased fun add => whole add may

/-- The actions of moderation that waited change no index and no writer. -/
theorem drainReports_keeps {allowed : (author action : String) → Option Bool}
    : (s.drainReports peer allowed).changes = s.changes
      ∧ (s.drainReports peer allowed).Sound p float64 enc := by
  refine Runs.keeps
    (fun t : ContextView W Tuple Number => t.changes = s.changes ∧ t.Sound p float64 enc)
    (fun t entry kept => ?_) _ ⟨rfl, sound⟩
  obtain ⟨changes, sound⟩ := kept
  obtain ⟨name, report⟩ := entry
  dsimp only
  split
  · exact ⟨changes, sound⟩
  · split
    · exact ⟨changes, sound.governance, sound.first, sound.second⟩
    · exact ⟨changes, sound.governance, sound.first, sound.second⟩

end Governed

section Legible

variable [Std.LawfulEqOrd Tuple] (codes : Layout2.Codes p float64) (sound : s.Sound p float64 enc)

include codes sound

theorem Sound.flushed (counted : s.first.Counted ∧ s.second.Counted)
    : (s.flushed p float64 enc json).Sound p float64 enc where
  governance := sound.governance
  first := Applying.Holds.flush (Layout1.reads json) sound.first counted.1
  second := Applying.Holds.flush (Layout2.reads codes) sound.second counted.2

theorem ends_applyApp (ruled : s.Ruled peer p float64 enc json event)
    : Ends (Sound p float64 enc) (s.applyApp peer p float64 enc json event) := by
  unfold applyApp
  unfold Ruled at ruled
  dsimp only
  split
  · rename_i two
    simp only [two, if_true] at ruled
    split
    · rename_i is
      have asks : Applying.Asks peer.toContextPeer event := by simp only [Applying.Asks, is]
      obtain ⟨passes, told⟩ : ∃ passes, s.second.passesRules? peer (throwing2 enc p float64) event = some passes :=
        Applying.passes_of_fine (ruled asks)
      rw [told]
      exact ⟨_, rfl, sound.message⟩
    · obtain ⟨second, made, legible⟩ := Applying.ends_applyData (Layout2.reads codes) sound.second ruled
      rw [made]
      exact ⟨_, rfl, sound.governance, sound.first, legible⟩
  · rename_i one
    simp only [one, if_false] at ruled
    split
    · rename_i is
      have asks : Applying.Asks peer.toContextPeer event := by simp only [Applying.Asks, is]
      obtain ⟨passes, told⟩ : ∃ passes, s.first.passesRules? peer (throwing1 json) event = some passes :=
        Applying.passes_of_fine (ruled asks)
      rw [told]
      exact ⟨_, rfl, sound.message⟩
    · obtain ⟨first, made, legible⟩ := Applying.ends_applyData (Layout1.reads json) sound.first ruled
      rw [made]
      exact ⟨_, rfl, sound.governance, legible, sound.second⟩

theorem ends_applyEvent
    (fine : refusal peer s.recordOf = none
      → (∀ governance, governanceEvent event = some governance → s.Keyed peer governance given)
        ∧ (given.optimistic = false → s.Ruled peer p float64 enc json event))
    : Ends (Sound p float64 enc) (s.applyEvent peer p float64 enc json event given) := by
  unfold applyEvent
  split
  · exact ⟨_, rfl, sound.contextInit⟩
  · exact ends_contextUpgrade sound
  · split
    · exact ⟨_, rfl, sound.governance, sound.first, sound.second⟩
    · rename_i taken
      obtain ⟨keyed, ruled⟩ := fine taken
      split
      · rename_i governs
        exact ends_govern sound (keyed _ governs)
      · refine .ite sound fun own => ?_
        split
        · exact ⟨_, rfl, sound.moderationAction⟩
        · exact ends_applyApp codes sound (ruled (by simpa using own))

/-- One step is made. -/
theorem ends_step {happening : Happening} (fine : s.Fine peer p float64 enc json happening)
    : Ends (Sound p float64 enc) (s.step peer p float64 enc json happening) := by
  cases happening with
  | node given =>
      obtain ⟨counted, fine⟩ := fine
      have chunk : (if given.flush then s.flushed p float64 enc json else s).Sound p float64 enc := by
        split
        · rename_i full
          exact sound.flushed codes (counted full)
        · exact sound
      have going : (if given.flush then s.flushed p float64 enc json else s).stopped = s.stopped := by
        split <;> rfl
      refine .ite sound fun goes => ?_
      split
      · exact ⟨_, rfl, chunk⟩
      · rename_i event is
        exact ends_applyEvent codes chunk (fine (going.trans (by simpa using goes)) event is)
  | drain allowed =>
      obtain ⟨changes, sound⟩ := drainReports_keeps sound
      refine ends_drainChanges sound fun entry mem => fine entry ?_
      rwa [changes] at mem

end Legible

-- Runs

/-- From an empty view, whatever its record, write mode and layout come to be, every run whose steps are
fine goes to its end. By induction on the run, what the reads need kept at each step.
-/
theorem applying_ends [Std.LawfulEqOrd Tuple] (codes : Layout2.Codes p float64) (writers : W)
    (happenings : List Happening)
    (fine : AsFar (step peer p float64 enc json) (Fine peer p float64 enc json)
      { governance := { writers } } happenings)
    : (happenings.foldlM (step peer p float64 enc json)
        ({ governance := { writers } } : ContextView W Tuple Number)).isSome := by
  have start : ({ governance := { writers } } : ContextView W Tuple Number).Sound p float64 enc := by
    refine ⟨⟨fun _ is => ?_, fun _ _ at_ => ?_⟩, fun _ _ at_ => ?_, fun _ _ _ at_ => ?_⟩
    · cases is
    all_goals cases Std.ExtTreeMap.getElem?_empty.symm.trans at_
  obtain ⟨s, made, _⟩ := fine.ends (Sound p float64 enc) (fun _ _ sound fine => ends_step codes sound fine) start
  rw [made]
  rfl

/-- An open context's peer, without rules. -/
def openPeer : ThrowingPeer (List (Key × Bool)) UInt64 where
  toContextPeer := { Context.trusting with closed := false }
  rulesId := ""
  mistaken _ _ := false
  bootstrap := List.replicate 32 1
  indexers _ := []

/-- A node of the first writer. -/
def nodeOf (value : Bytes) : Given where
  value := some value
  from_ := List.replicate 32 1
  length := 1
  key := rfl
  flush := false
  now := 0
  allowed _ _ := none

/-- An event that adds a writer by its key in hex. -/
def addsKey : Bytes := 9 :: 0 :: 64 :: List.replicate 64 97

/-- And one whose key is empty. -/
def addsNone : Bytes := [9, 0, 0]

theorem codes_compact : Layout2.Codes compact compactFloat64 where
  float _ := trivial
  safe n le := Nat.lt_of_le_of_lt le (by decide)
  text text small := by
    have fits := Nat.lt_of_le_of_lt small (show maxRelationDataBytes < 2 ^ 53 by decide)
    simpa [compact, compactString] using fits

/-- A node of an event, with the chunk before it written or not. -/
def sent (flush : Bool) (body : Body UInt64) : Happening :=
  .node { nodeOf (encodeEvent compact compactFloat64 ⟨some 1, body⟩) with flush := flush }

def relatesTo (target : String) : Body UInt64 :=
  .relationCreate post target "b" "0101010101010101010101010101010101010101010101010101010101010101"
    (some "01") none none

/-- A writer is added, the second layout taken, and a post related to something. -/
def upToRelation : List Happening :=
  [.node (nodeOf addsKey), sent false (.contextInit 1 none none (some 2)), sent false (relatesTo "x")]

theorem fine_app {s : ContextView (List (Key × Bool)) (List (List Nat)) UInt64} {given : Given}
    (counted : given.flush = true → s.first.Counted ∧ s.second.Counted)
    (app
      : (Context.eventOf compact compactFloat64 given.toContextNode).all
          (fun event => (governanceEvent event).isNone) = true)
    : s.Fine openPeer compact compactFloat64 inOrder some (.node given) := by
  refine ⟨counted, fun _ event is _ => ⟨fun governance governs => ?_, fun _ _ rules => nomatch rules⟩⟩
  rw [is, Option.all_some, governs] at app
  cases app

/-- The post is related to something else once the counts were written: the rows of both are read. -/
theorem applying_ends_added
    : ((upToRelation ++ [sent true (relatesTo "y")]).foldlM
        (step openPeer compact compactFloat64 inOrder some)
        ({ governance := { writers := [] } } : ContextView _ (List (List Nat)) UInt64)).isSome := by
  refine applying_ends codes_compact [] _ ⟨⟨nofun, fun _ event is _ => ?_⟩, fun s made =>
    ⟨fine_app nofun (by decide +kernel), fun s' made' => ⟨fine_app nofun (by decide +kernel), fun s'' made'' =>
      ⟨fine_app (fun _ => ?_) (by decide +kernel), fun _ _ => trivial⟩⟩⟩⟩
  · have read : Context.eventOf compact compactFloat64 (nodeOf addsKey).toContextNode
        = some ⟨some 0, .writer .addWriter (String.ofList (List.replicate 64 'a')) none none⟩ := rfl
    cases read.symm.trans is
    refine ⟨fun governance same _ => ?_, fun _ asks => asks.elim⟩
    cases same
    exact fun _ => (by decide : (fromHex (String.ofList (List.replicate 64 'a'))).length = 32)
  · have counted : (upToRelation.foldlM (step openPeer compact compactFloat64 inOrder some)
        ({ governance := { writers := [] } } : ContextView _ (List (List Nat)) UInt64)).all (fun s =>
          s.first.counts.entries.all (·.2 ≤ maxSafeInteger) && s.second.counts.entries.all (·.2 ≤ maxSafeInteger))
        = true := by
      decide +kernel
    have ran : upToRelation.foldlM (step openPeer compact compactFloat64 inOrder some)
        ({ governance := { writers := [] } } : ContextView _ (List (List Nat)) UInt64) = some s'' := by
      rw [upToRelation, List.foldlM_cons, made, Option.bind_eq_bind, Option.bind_some, List.foldlM_cons, made',
        Option.bind_eq_bind, Option.bind_some, List.foldlM_cons, made'']
      rfl
    rw [ran, Option.all_some, Bool.and_eq_true, List.all_eq_true, List.all_eq_true] at counted
    exact ⟨fun entry mem => of_decide_eq_true (counted.1 entry mem),
      fun entry mem => of_decide_eq_true (counted.2 entry mem)⟩

/-- Without a key an `addWriter` event throws. -/
theorem no_key_throws
    : ¬ ∀ happenings : List Happening,
        (happenings.foldlM (step openPeer compact compactFloat64 inOrder some)
          ({ governance := { writers := [] } } : ContextView _ (List (List Nat)) UInt64)).isSome := by
  intro ends
  have stops : ([.node (nodeOf addsNone)].foldlM (step openPeer compact compactFloat64 inOrder some)
      ({ governance := { writers := [] } } : ContextView _ (List (List Nat)) UInt64)).isSome = false := rfl
  exact Bool.false_ne_true (stops.symm.trans (ends _))

end ContextView

end Hypergraph.Engine
