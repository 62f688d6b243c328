import Hypergraph.Channels.Pages
import Hypergraph.Control.Memory

/-! What bans hide (`#visible` of `src/v2/index.js`), in the states a log leads to: a ban's record is
replaced whole by the next one, and hides what it did where the next one covers it.
-/

namespace Hypergraph.Control

open Wire Js Engine
open Governance (someone)
open Channels.Pages (isFuture)

variable {W Number : Type}

-- Messages of a banned author

section Visible

-- `reaches`: `value >= t`, of numbers
variable (numbers : Numbers Number) (reaches : Number → Nat → Bool)

/-- `t <= value`; `none`: it throws. -/
def reached (t : Nat) : Option (Json Number) → Option Bool
  | none => some false
  | some .null => some (decide (t = 0))
  | some (.bool value) => some (decide (t ≤ if value then 1 else 0))
  | some (.number value) => some (reaches value t)
  | some value =>
      (Json.text numbers value).map fun text => (numbers.ofString text).any (reaches · t)

/-- Does a ban leave a message, by its place in a log that is cut, in another by its time? -/
def Ban.shows (ban : Ban Number) (log : String) (seq t : Nat) : Option Bool :=
  match ban.cut.lookup log with
  | some cut => some (decide (seq < cut))
  | none => reached numbers reaches t ban.at_

/-- `#visible`, of the message at a place of a log, with the time it claims. -/
def visible (bans : Table String (Ban Number)) (now : Nat) (author log : String) (seq t : Nat)
    : Option Bool :=
  if isFuture t now then some false
  else
    match bans[author]? with
    | none => some true
    | some ban => ban.shows numbers reaches log seq t

def Ban.Hides (ban : Ban Number) (log : String) (seq t : Nat) : Prop :=
  ban.shows numbers reaches log seq t = some false

/-- A time after a ban's own. -/
def Ban.Past (ban : Ban Number) (t : Nat) : Prop := reached numbers reaches t ban.at_ = some false

/-- Each log is cut no later by the new record: where the old one cuts it, the new one does too, no
longer, or lets no time show; where only the new one cuts it, it leaves nothing, unless the old one hides
nothing there; where neither does, each time after the old one's is after the new one's.
-/
def Covers (old new : Ban Number) : Prop :=
  ∀ log,
    match old.cut.lookup log, new.cut.lookup log with
    | some cut, some cut' => cut' ≤ cut
    | some _, none => ∀ t, new.Past numbers reaches t
    | none, some cut' => cut' = 0 ∨ ∀ t, ¬ old.Past numbers reaches t
    | none, none => ∀ t, old.Past numbers reaches t → new.Past numbers reaches t

variable {numbers reaches} {ban old new : Ban Number} {log : String} {seq t cut : Nat}

theorem hides_of_cut (is : ban.cut.lookup log = some cut)
    : ban.Hides numbers reaches log seq t ↔ cut ≤ seq := by
  simp [Ban.Hides, Ban.shows, is]

theorem hides_of_time (is : ban.cut.lookup log = none)
    : ban.Hides numbers reaches log seq t ↔ ban.Past numbers reaches t := by
  rw [Ban.Hides, Ban.shows, is, Ban.Past]

/-- A record covers another just where it hides all that the other does. -/
theorem covers_iff
    : Covers numbers reaches old new
      ↔ ∀ log seq t, old.Hides numbers reaches log seq t → new.Hides numbers reaches log seq t := by
  refine forall_congr' fun log => ?_
  cases is : old.cut.lookup log with
  | some cut =>
      cases is' : new.cut.lookup log with
      | some cut' =>
          simp only [hides_of_cut is, hides_of_cut is']
          exact ⟨fun le seq _ past => le.trans past, fun all => all cut 0 (le_refl _)⟩
      | none =>
          simp only [hides_of_cut is, hides_of_time is']
          exact ⟨fun all _ t _ => all t, fun all t => all cut t (le_refl _)⟩
  | none =>
      cases is' : new.cut.lookup log with
      | some cut' =>
          simp only [hides_of_time is, hides_of_cut is']
          constructor
          · rintro (rfl | never) seq t past
            · exact Nat.zero_le _
            · exact absurd past (never t)
          · intro all
            by_cases ever : ∃ t, old.Past numbers reaches t
            · obtain ⟨t, past⟩ := ever
              exact .inl (Nat.le_zero.mp (all 0 t past))
            · exact .inr (not_exists.mp ever)
      | none =>
          simp only [hides_of_time is, hides_of_time is']
          exact ⟨fun all _ t => all t, fun all t => all 0 t⟩

theorem visible_of_hides {bans : Table String (Ban Number)} {author : String} (now : Nat)
    (at_ : bans[author]? = some ban) (hides : ban.Hides numbers reaches log seq t)
    : visible numbers reaches bans now author log seq t = some false := by
  rw [visible, at_]
  split
  · rfl
  · exact hides

end Visible

-- What an event does to bans

section Events

variable (peer : Peer W Number)

/-- The record an event makes of a ban. -/
def banOf (author : String) (fields : List (String × Json Number)) : Ban Number where
  at_ := Json.field fields "timestamp"
  reason := reasonOf peer fields
  by_ := author
  cut := banCut peer.numbers (Json.field fields "cut")

/-- An event of a type, signed by a moderator, about a member. -/
def Moderates (s : State W Number) (node : Node Number) (type author member : String)
    (fields : List (String × Json Number))
    : Prop :=
  node.value = .object fields ∧ Json.string? (Json.field fields "type") = some type
    ∧ peer.signer fields = some author ∧ Above peer (s.roleOf author) 2
    ∧ Json.fieldText peer.numbers (Json.field fields "member") = some member

/-- A node bans a member, who is not the owner. -/
def Bans (s : State W Number) (node : Node Number) (member : String) (ban : Ban Number) : Prop :=
  ∃ author fields, Moderates peer s node "ban" author member fields
    ∧ ¬ isRole (s.roleOf member) "owner" ∧ ban = banOf peer author fields

/-- A node takes a member's ban away. -/
def Unbans (s : State W Number) (node : Node Number) (member : String) : Prop :=
  ∃ author fields, Moderates peer s node "unban" author member fields

variable {peer} {s s' s'' : State W Number} {node : Node Number} {author : String}
  {authorRole : Option (Json Number)} {fields : List (String × Json Number)} {α : Type}

/-- Whatever state comes of it, if one does, has the bans there were. -/
def Spared (s : State W Number) (next : Option (State W Number)) : Prop :=
  ∀ s', next = some s' → s'.view.bans = s.view.bans

theorem spared_some (same : s'.view.bans = s.view.bans) : Spared s (some s') := by
  rintro _ ⟨⟩
  exact same

theorem spared_bind {asked : Option α} {next : α → Option (State W Number)}
    (each : ∀ a, Spared s (next a))
    : Spared s (asked.bind next) := by
  intro s' is
  obtain ⟨a, _, is⟩ := Option.bind_eq_some_iff.mp is
  exact each a s' is

theorem spared_map {asked : Option α} {next : α → State W Number}
    (each : ∀ a, (next a).view.bans = s.view.bans)
    : Spared s (asked.map next) := by
  intro s' is
  obtain ⟨a, _, rfl⟩ := Option.map_eq_some_iff.mp is
  exact each a

theorem spared_ite {given : Prop} [Decidable given] {next other : Option (State W Number)}
    (yes : Spared s next) (no : Spared s other)
    : Spared s (if given then next else other) := by
  split
  · exact yes
  · exact no

theorem spared_addWriter {key : Key} {indexer : Bool} (same : s'.view.bans = s.view.bans)
    : Spared s (s'.addWriter peer key indexer) := by
  intro s'' is
  obtain ⟨_, rfl⟩ := addWriter_eq_some.mp is
  exact same

theorem spared_applyRole : Spared s (s.applyRole peer author authorRole fields) := by
  refine spared_bind fun member => spared_ite (spared_some rfl) ?_
  split
  · exact spared_some (by rw [view_removeRole])
  · dsimp only
    split
    · exact spared_some rfl
    · exact spared_addWriter rfl

theorem spared_applyChannel : Spared s (s.applyChannel peer author authorRole fields) := by
  refine spared_bind fun above => spared_ite (spared_some rfl) ?_
  split
  · exact spared_some rfl
  · refine spared_ite (spared_some rfl) ?_
    split
    · exact spared_some rfl
    · exact spared_map fun name => rfl

theorem spared_applyRotate : Spared s (s.applyRotate peer author authorRole fields) := by
  refine spared_bind fun above => spared_ite (spared_some rfl) ?_
  split
  · exact spared_some rfl
  · refine spared_bind fun channel => ?_
    split
    · exact spared_ite (spared_some rfl) (spared_some rfl)
    · exact spared_some rfl

theorem spared_applyRedeem : Spared s (s.applyRedeem peer author (s.roleOf author) fields) := by
  intro s' is
  rcases redeem_cases is with rfl | ⟨r, s'', _, _, _, gives, rfl⟩
  · rfl
  · cases gives <;> rfl

theorem spared_applyRevokeInvite
    : Spared s (s.applyRevokeInvite peer author (s.roleOf author) fields) := by
  intro s' is
  rcases revokeInvite_cases is with rfl | ⟨inv, _, _, _, rfl⟩
  · rfl
  · rfl

theorem spared_applyRevoke {revoke : Bool}
    : Spared s (s.applyRevoke peer author authorRole fields revoke) := by
  refine spared_bind fun above => spared_ite (spared_some rfl) ?_
  split
  · exact spared_some rfl
  · exact spared_bind fun channel => spared_ite (spared_some rfl) (spared_some rfl)

theorem spared_applyHide : Spared s (s.applyHide peer author authorRole fields) := by
  refine spared_bind fun above => spared_ite (spared_some rfl) ?_
  exact spared_bind fun member => spared_bind fun log => spared_bind fun seq => spared_some rfl

theorem spared_applyKeeper : Spared s (s.applyKeeper peer author authorRole fields) := by
  refine spared_bind fun above => spared_ite (spared_some rfl) ?_
  split
  · exact spared_some rfl
  · exact spared_some rfl

/-- What a node does to bans: nothing, or it bans a member, or takes a ban away. -/
theorem bans_apply (applied : s.apply peer node = some s')
    : s'.view.bans = s.view.bans
      ∨ (∃ member ban, Bans peer s node member ban
          ∧ s'.view.bans = s.view.bans.insert member ban)
      ∨ ∃ member, Unbans peer s node member ∧ s'.view.bans = s.view.bans.erase member := by
  unfold State.apply at applied
  split at applied
  case h_2 =>
    cases applied
    exact .inl rfl
  case h_1 fields value =>
    split at applied
    case h_1 =>
      cases applied
      exact .inl rfl
    case h_2 =>
      cases applied
      left
      unfold State.applyInit State.found
      split
      · rfl
      · split
        · rfl
        · split <;> rfl
    case h_3 type _ typed =>
      split at applied
      case h_1 =>
        cases applied
        exact .inl rfl
      case h_2 author signer =>
        unfold State.applySigned at applied
        split at applied
        · exact .inl (spared_applyRole s' applied)
        · exact .inl (spared_applyChannel s' applied)
        · exact .inl (spared_applyRotate s' applied)
        · exact .inl (spared_applyRedeem s' applied)
        · exact .inl (spared_applyRevokeInvite s' applied)
        · exact .inl (spared_applyRevoke s' applied)
        · exact .inl (spared_applyRevoke s' applied)
        · -- a ban
          rw [State.applyBan, Option.bind_eq_bind, bind_atLeast_eq_some] at applied
          rcases applied with ⟨_, applied⟩ | ⟨above, applied⟩
          · cases applied
            exact .inl rfl
          simp only [not_true_eq_false, if_false, Option.bind_eq_bind, Option.bind_eq_some_iff]
            at applied
          obtain ⟨member, about, applied⟩ := applied
          split at applied
          · cases applied
            exact .inl rfl
          · rename_i other
            cases applied
            exact .inr (.inl ⟨member, banOf peer author fields,
              ⟨author, fields, ⟨value, typed, signer, above, about⟩, other, rfl⟩, rfl⟩)
        · -- a ban taken away
          rw [State.applyUnban, Option.bind_eq_bind, bind_atLeast_eq_some] at applied
          rcases applied with ⟨_, applied⟩ | ⟨above, applied⟩
          · cases applied
            exact .inl rfl
          simp only [not_true_eq_false, if_false, Option.bind_eq_bind, Option.bind_eq_some_iff,
            Option.some.injEq] at applied
          obtain ⟨member, about, rfl⟩ := applied
          exact .inr (.inr ⟨member, ⟨author, fields, value, typed, signer, above, about⟩, rfl⟩)
        · exact .inl (spared_applyHide s' applied)
        · exact .inl (spared_applyKeeper s' applied)
        · cases applied
          exact .inl rfl

end Events

-- Logs

section Logs

variable (peer : Peer W Number) (reaches : Number → Nat → Bool)

/-- A node doesn't take the member's ban away. -/
def Leaves (member : String) (s : State W Number) (node : Node Number) : Prop :=
  ¬ Unbans peer s node member

/-- Where a node bans the member though a ban stands, its record covers that one. -/
def Renews (member : String) (s : State W Number) (node : Node Number) : Prop :=
  ∀ old new, s.view.bans[member]? = some old → Bans peer s node member new
    → Covers peer.numbers reaches old new

/-- A ban of the member stands that hides a message. -/
def Hidden (member log : String) (seq t : Nat) (s : State W Number) : Prop :=
  ∃ ban, s.view.bans[member]? = some ban ∧ ban.Hides peer.numbers reaches log seq t

variable {peer reaches} {s s' : State W Number} {node : Node Number} {member log : String}
  {seq t : Nat} {nodes : List (Node Number)}

/-- One step keeps a message hidden. -/
theorem Hidden.apply (hidden : Hidden peer reaches member log seq t s)
    (leaves : Leaves peer member s node) (renews : Renews peer reaches member s node)
    (applied : s.apply peer node = some s')
    : Hidden peer reaches member log seq t s' := by
  obtain ⟨old, stands, hides⟩ := hidden
  rcases bans_apply applied with same | ⟨other, new, bans, same⟩ | ⟨other, unbans, same⟩
  · exact ⟨old, by rw [same, stands], hides⟩
  · by_cases own : other = member
    · subst own
      refine ⟨new, by rw [same, Std.ExtTreeMap.getElem?_insert_self], ?_⟩
      exact covers_iff.mp (renews old new stands bans) log seq t hides
    · refine ⟨old, ?_, hides⟩
      rw [same, getElem?_insert_of_ne own, stands]
  · have apart : other ≠ member := by
      rintro rfl
      exact leaves unbans
    refine ⟨old, ?_, hides⟩
    rw [same, Std.ExtTreeMap.getElem?_erase, if_neg (by simpa using apart), stands]

/-- From a state in which a ban hides a message, along a log that takes no ban from its author and where
each ban of the author covers the one that stands: the message isn't visible in the state reached, nor in
the memory read of it.
-/
theorem stays_hidden (hidden : Hidden peer reaches member log seq t s)
    (leaves : Runs.AsFar (State.apply peer) (Leaves peer member) s nodes)
    (renews : Runs.AsFar (State.apply peer) (Renews peer reaches member) s nodes)
    (ran : s.run peer nodes = some s') (now : Nat)
    : visible peer.numbers reaches s'.view.bans now member log seq t = some false
      ∧ ∀ memory, read s'.view = some memory
        → visible peer.numbers reaches memory.bans now member log seq t = some false := by
  have both
      : Runs.AsFar (State.apply peer)
          (fun s node => Leaves peer member s node ∧ Renews peer reaches member s node) s nodes :=
    leaves.and renews
  obtain ⟨ban, stands, hides⟩ := both.keeps (Hidden peer reaches member log seq t)
    (fun s node s' hidden both applied => hidden.apply both.1 both.2 applied) hidden ran
  refine ⟨visible_of_hides now stands hides, fun memory is => ?_⟩
  have same : memory.bans = s'.view.bans := by
    simp only [read, Option.bind_eq_bind, Option.bind_eq_some_iff, Option.some.injEq] at is
    obtain ⟨_, _, _, _, bans, own, _, _, _, _, _, _, _, _, _, _, _, _, _, _, rfl⟩ := is
    exact (properties_eq_some.mp own).2
  rw [same]
  exact visible_of_hides now stands hides

end Logs

-- A second ban

/-- The owner bans a member with more fields. -/
def ban (fields : List (String × Json Nat)) : Node Nat :=
  signedBy (someone 1) "ban" (("member", .string (someone 2)) :: fields) 0

/-- A ban that cuts a log to nothing. -/
def banCutting : Node Nat :=
  ban [("timestamp", .number 5), ("cut", .object [(someone 3, .number 0)])]

/-- What a member sees of the log's first message, of a time. -/
def sees (s : State (List (Key × Bool)) Nat) (t : Nat) : Option Bool :=
  visible listPeer.numbers (fun value t => decide (t ≤ value)) s.view.bans 0 (someone 2) (someone 3) 0 t

theorem hidden_cutting
    : ∃ s, founded.run listPeer [banCutting] = some s
        ∧ Hidden listPeer (fun value t => decide (t ≤ value)) (someone 2) (someone 3) 0 3 s := by
  have ran : (founded.run listPeer [banCutting]).any (fun s =>
      (s.view.bans[someone 2]?).any fun ban => decide <|
        ban.shows listPeer.numbers (fun value t => decide (t ≤ value)) (someone 3) 0 3
          = some false) = true := by
    decide +kernel
  obtain ⟨s, is, has⟩ := (Option.any_eq_true _ _).mp ran
  obtain ⟨ban, stands, hides⟩ := (Option.any_eq_true _ _).mp has
  have hides := of_decide_eq_true hides
  exact ⟨s, is, ban, stands, hides⟩

theorem leaves_ban (member : String) (s : State (List (Key × Bool)) Nat)
    (fields : List (String × Json Nat))
    : Runs.AsFar (State.apply listPeer) (Leaves listPeer member) s [ban fields] := by
  refine ⟨?_, fun _ _ => trivial⟩
  rintro ⟨author, fields', value, typed, _⟩
  cases value
  simp [Json.field] at typed

/-- A ban without a time hides whatever another one hides. -/
theorem stays_hidden_untimed
    : ∃ s s', founded.run listPeer [banCutting] = some s ∧ s.run listPeer [ban []] = some s'
        ∧ sees s' 3 = some false := by
  obtain ⟨s, is, hidden⟩ := hidden_cutting
  have ran : ((founded.run listPeer [banCutting]).bind (State.run listPeer · [ban []])).isSome := by
    decide +kernel
  rw [is, Option.bind_some] at ran
  obtain ⟨s', is'⟩ := Option.isSome_iff_exists.mp ran
  have renews
      : Runs.AsFar (State.apply listPeer)
          (Renews listPeer (fun value t => decide (t ≤ value)) (someone 2)) s [ban []] := by
    refine ⟨?_, fun _ _ => trivial⟩
    rintro old _ _ ⟨author, fields, ⟨value, _⟩, _, rfl⟩
    cases value
    exact covers_iff.mpr fun _ _ _ _ => rfl
  exact ⟨s, s', is, is', (stays_hidden hidden (leaves_ban _ s _) renews is' 0).1⟩

/-- A second ban that is later and cuts nothing shows what the first one cut. -/
theorem shown_by_second
    : ∃ s s', founded.run listPeer [banCutting] = some s
        ∧ Hidden listPeer (fun value t => decide (t ≤ value)) (someone 2) (someone 3) 0 3 s
        ∧ Runs.AsFar (State.apply listPeer) (Leaves listPeer (someone 2)) s
            [ban [("timestamp", .number 9)]]
        ∧ s.run listPeer [ban [("timestamp", .number 9)]] = some s' ∧ sees s' 3 = some true := by
  obtain ⟨s, is, hidden⟩ := hidden_cutting
  have ran : ((founded.run listPeer [banCutting]).bind
      (State.run listPeer · [ban [("timestamp", .number 9)]])).any
        (fun s => decide (sees s 3 = some true)) = true := by
    decide +kernel
  rw [is, Option.bind_some] at ran
  obtain ⟨s', is', sees_⟩ := (Option.any_eq_true _ _).mp ran
  exact ⟨s, s', is, hidden, leaves_ban _ s _, is', of_decide_eq_true sees_⟩

end Hypergraph.Control
