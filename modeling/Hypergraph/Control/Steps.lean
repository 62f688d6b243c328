import Hypergraph.Control.Apply

/-! What one node of a control log may do to its state, and what was so before it. -/

namespace Hypergraph.Control

open Wire Js Engine

variable {W Number : Type}

/-- A node is signed by an author. -/
def Signs (peer : Peer W Number) (node : Node Number) (author : String) : Prop :=
  ∃ fields, node.value = .object fields ∧ peer.signer fields = some author

/-- A role at least as high as another. -/
def Above (peer : Peer W Number) (role : Option (Json Number)) (wanted : Nat) : Prop :=
  atLeast peer.numbers role wanted = some true

/-- A role event signed by an author: for whom, the role it gives or none, and the writer it names. -/
def SetsRole (peer : Peer W Number) (node : Node Number) (author member : String)
    (role : Option (Json Number)) (writer : Option String)
    : Prop :=
  ∃ fields, node.value = .object fields ∧ Json.string? (Json.field fields "type") = some "role"
    ∧ peer.signer fields = some author
    ∧ Json.fieldText peer.numbers (Json.field fields "member") = some member
    ∧ Json.fieldOrNull peer.numbers (Json.field fields "role") = role
    ∧ (Json.string? (Json.field fields "writer")).filter (length · = 64) = writer

/-- A redemption recorded by an author, at a time they claim. -/
def Records (peer : Peer W Number) (node : Node Number) (author : String)
    (timestamp : Option (Json Number)) (r : SignedRedemption)
    : Prop :=
  ∃ fields, node.value = .object fields ∧ Json.string? (Json.field fields "type") = some "redeem"
    ∧ peer.signer fields = some author ∧ Json.field fields "timestamp" = timestamp
    ∧ decodeRedemption peer.primitives (Json.string? (Json.field fields "redemption")) = some r

/-- A role given to a member, with their writer where they have one. -/
def State.assign (peer : Peer W Number) (s : State W Number) (member : String) (role : Json Number)
    (writer : Option String) (author : String)
    : State W Number :=
  { s.putRole member role writer author with
    writers := match writer with
      | some writer => peer.autobase.addWriter s.writers (fromHex writer) (isRole (some role) "admin")
      | none => s.writers }

/-- A redemption that counts, of an invite whose maker may give what it gives. -/
structure Redeems (peer : Peer W Number) (s : State W Number) (timestamp : Option (Json Number))
    (r : SignedRedemption)
    : Prop where
  redeemable : s.redeemable peer r
  timely : expired peer r.invite.toInvite timestamp = some false
  givable : s.givable r.invite.toInvite r.identity
  channels : s.channelsOk peer (s.roleOf (toHex r.invite.maker)) r.invite.channels = some true

/-- The role a redemption that counts brings, if any. -/
inductive Gives (peer : Peer W Number) (s : State W Number) (r : SignedRedemption)
    : State W Number → Prop
  | nothing : Gives peer s r s
  | role {role current : String} (gives : r.invite.role = some role)
      (current_ : rankName peer.numbers (s.roleOf (toHex r.identity)) = some current)
      (up : stepsUp current role)
      : Gives peer s r
          (s.assign peer (toHex r.identity) (.string role) (r.writer.map toHex) (toHex r.invite.maker))

/-- What a node may do. -/
inductive Step (peer : Peer W Number) (s : State W Number) (node : Node Number)
    : State W Number → Prop
  | idle : Step peer s node s
  | found {author : String} {name : Json Number} {timestamp : Option (Json Number)}
      (from_ : node.from_ = peer.key) (signed : Signs peer node author)
      (new : s.view.community = none)
      : Step peer s node (s.found name timestamp author (toHex peer.key))
  | removeRole {author member : String} {writer : Option String}
      (sets : SetsRole peer node author member none writer)
      (may : mayAssign (s.roleOf author) (s.roleOf member) none)
      : Step peer s node (s.removeRole peer member)
  | assign {author member : String} {role : Json Number} {writer : Option String}
      (sets : SetsRole peer node author member (some role) writer)
      (may : mayAssign (s.roleOf author) (s.roleOf member) (some role))
      (whole : ∀ key, writer = some key → (fromHex key).length = 32)
      : Step peer s node (s.assign peer member role writer author)
  | channel {author id name : String} {fields : List (String × Json Number)} {commit : Option String}
      (signed : Signs peer node author) (above : Above peer (s.roleOf author) 3)
      (new : s.view.channels[id]? = none)
      : Step peer s node (s.putChannel peer author fields id name commit)
  | epoch {author channel : String} {found : ChannelRecord Number} {private_ : PrivateChannel}
      {epoch : EpochRecord Number} (signed : Signs peer node author)
      (above : Above peer (s.roleOf author) 3) (is : s.privateChannel channel = some (found, private_))
      : Step peer s node (s.putEpoch channel found private_ epoch)
  | redeem {author : String} {timestamp : Option (Json Number)} {r : SignedRedemption}
      {s' : State W Number} (records : Records peer node author timestamp r)
      (above : Above peer (s.roleOf author) 1) (redeems : Redeems peer s timestamp r)
      (whole : ∀ key, r.writer = some key → key.length = 32)
      (gives : Gives peer s r s')
      : Step peer s node (s'.putRedemption author timestamp r.toRedemption)
  | revokeInvite {author : String} {inv : SignedInvite} {noted : Noted Number}
      (signed : Signs peer node author) (verified : peer.verifyInvite inv)
      (may : Above peer (s.roleOf author) 3 ∨ author = toHex inv.maker)
      : Step peer s node (s.putInviteRevoked (toHex inv.id) noted)
  | revoke {author channel member : String} {noted : Option (Noted Number)}
      (signed : Signs peer node author) (above : Above peer (s.roleOf author) 3)
      (is : (s.privateChannel channel).isSome)
      : Step peer s node (s.putRevoked (channel ++ ":" ++ member) noted)
  | ban {author member : String} {ban : Option (Ban Number)} (signed : Signs peer node author)
      (above : Above peer (s.roleOf author) 2)
      : Step peer s node (s.putBan member ban)
  | hide {author member log seq : String} {hide : Hide Number} (signed : Signs peer node author)
      (above : Above peer (s.roleOf author) 2)
      : Step peer s node (s.putHide (member ++ ":" ++ log ++ ":" ++ seq) hide)
  | keeper {author channel rosterKey : String} (signed : Signs peer node author)
      (above : Above peer (s.roleOf author) 1)
      : Step peer s node (s.putKeeper (channel ++ ":" ++ author) rosterKey)

section Signed

variable {peer : Peer W Number} {s s' : State W Number} {node : Node Number} {author : String}
  {fields : List (String × Json Number)}

/-- What comes after asking for a role's rank: nothing, or what the right allows. -/
theorem bind_atLeast_eq_some {authorRole : Option (Json Number)} {wanted : Nat}
    {next : Bool → Option (State W Number)}
    : (atLeast peer.numbers authorRole wanted).bind next = some s'
      ↔ atLeast peer.numbers authorRole wanted = some false ∧ next false = some s'
        ∨ Above peer authorRole wanted ∧ next true = some s' := by
  rw [Above]
  cases atLeast peer.numbers authorRole wanted with
  | none => simp
  | some above => cases above <;> simp

theorem addWriter_eq_some {key : Key} {indexer : Bool}
    : s.addWriter peer key indexer = some s'
      ↔ key.length = 32 ∧ { s with writers := peer.autobase.addWriter s.writers key indexer } = s' := by
  rw [State.addWriter, Option.ite_none_right_eq_some, Option.some.injEq]

theorem privateChannel_eq_some {channel : String} {found : ChannelRecord Number}
    {private_ : PrivateChannel}
    : s.privateChannel channel = some (found, private_)
      ↔ s.view.channels[channel]? = some found ∧ found.private_ = some private_ := by
  simp only [State.privateChannel, Option.bind_eq_bind, Option.bind_eq_some_iff, Option.some.injEq,
    Prod.mk.injEq]
  grind

theorem view_removeRole {member : String}
    : (s.removeRole peer member).view = { s.view with roles := s.view.roles.erase member } := by
  unfold State.removeRole State.dropWriter
  dsimp only
  split
  · rfl
  · split
    · split <;> rfl
    · rfl

variable (signed : Signs peer node author)
include signed

omit signed in
theorem step_applyRole (value : node.value = .object fields)
    (type : Json.string? (Json.field fields "type") = some "role") (signer : peer.signer fields = some author)
    (applied : s.applyRole peer author (s.roleOf author) fields = some s')
    : Step peer s node s' := by
  simp only [State.applyRole, Option.bind_eq_bind, Option.bind_eq_some_iff] at applied
  obtain ⟨member, member_, applied⟩ := applied
  split at applied
  · cases applied
    exact .idle
  rename_i may
  rw [not_not] at may
  cases role : Json.fieldOrNull peer.numbers (Json.field fields "role") with
  | none =>
      simp only [role, Option.some.injEq] at applied may
      rw [← applied]
      exact .removeRole ⟨fields, value, type, signer, member_, role, rfl⟩ may
  | some role_ =>
      simp only [role] at applied may
      cases given : (Json.string? (Json.field fields "writer")).filter (length · = 64) with
      | none =>
          simp only [given, Option.some.injEq] at applied
          rw [← applied]
          exact @Step.assign _ _ _ _ _ _ _ _ none
            ⟨fields, value, type, signer, member_, role, given⟩ may (by simp)
      | some writer =>
          simp only [given, addWriter_eq_some] at applied
          obtain ⟨whole, rfl⟩ := applied
          exact @Step.assign _ _ _ _ _ _ _ _ (some writer)
            ⟨fields, value, type, signer, member_, role, given⟩ may (by simpa using whole)

theorem step_applyChannel (applied : s.applyChannel peer author (s.roleOf author) fields = some s')
    : Step peer s node s' := by
  rw [State.applyChannel, Option.bind_eq_bind, bind_atLeast_eq_some] at applied
  rcases applied with ⟨_, applied⟩ | ⟨above, applied⟩
  · cases applied
    exact .idle
  simp only [not_true_eq_false, if_false] at applied
  cases given : required (Json.string? (Json.field fields "id")) with
  | none =>
      simp only [given, Option.some.injEq] at applied
      rw [← applied]
      exact .idle
  | some id =>
  simp only [given] at applied
  cases new : s.view.channels[id]? with
  | some channel =>
      simp only [new, Option.isSome_some, if_true, Option.some.injEq] at applied
      rw [← applied]
      exact .idle
  | none =>
  simp only [new, Option.isSome_none, Bool.false_eq_true, if_false] at applied
  cases commit : firstCommit fields with
  | none =>
      simp only [commit, Option.some.injEq] at applied
      rw [← applied]
      exact .idle
  | some commit =>
      simp only [commit, Option.map_eq_some_iff] at applied
      obtain ⟨name, _, rfl⟩ := applied
      exact .channel signed above new

theorem step_applyRotate (applied : s.applyRotate peer author (s.roleOf author) fields = some s')
    : Step peer s node s' := by
  rw [State.applyRotate, Option.bind_eq_bind, bind_atLeast_eq_some] at applied
  rcases applied with ⟨_, applied⟩ | ⟨above, applied⟩
  · cases applied
    exact .idle
  simp only [not_true_eq_false, if_false] at applied
  split at applied
  · cases applied
    exact .idle
  simp only [Option.bind_eq_bind, Option.bind_eq_some_iff] at applied
  obtain ⟨channel, _, applied⟩ := applied
  split at applied
  · rename_i is _
    split at applied
    · cases applied
      exact .idle
    · cases applied
      exact .epoch signed above is
  · cases applied
    exact .idle

omit signed in
theorem gives_giveRole {r : SignedRedemption}
    (given : s.giveRole peer r.invite.toInvite (toHex r.identity) r.writer = some s')
    : Gives peer s r s' := by
  rw [State.giveRole] at given
  cases gives : r.invite.role with
  | none =>
      simp only [gives, Option.some.injEq] at given
      rw [← given]
      exact .nothing
  | some role =>
      simp only [gives, Option.bind_eq_bind, Option.bind_eq_some_iff] at given
      obtain ⟨current, current_, given⟩ := given
      split at given
      · cases given
        exact .nothing
      rename_i up
      rw [not_not] at up
      have made : s' = s.assign peer (toHex r.identity) (.string role) (r.writer.map toHex)
          (toHex r.invite.maker) := by
        cases writer : r.writer with
        | none =>
            simp only [writer, Option.some.injEq] at given
            rw [← given]
            rfl
        | some writer =>
            simp only [writer, addWriter_eq_some] at given
            obtain ⟨_, rfl⟩ := given
            simp [State.assign, fromHex_toHex, isRole, Json.string?, State.putRole]
      rw [made]
      exact .role gives current_ up

omit signed in
/-- What recording a redemption does, and of which redemption. -/
theorem redeem_cases (applied : s.applyRedeem peer author (s.roleOf author) fields = some s')
    : s' = s ∨ ∃ r s'',
        decodeRedemption peer.primitives (Json.string? (Json.field fields "redemption")) = some r
        ∧ Above peer (s.roleOf author) 1 ∧ Redeems peer s (Json.field fields "timestamp") r
        ∧ Gives peer s r s''
        ∧ s' = s''.putRedemption author (Json.field fields "timestamp") r.toRedemption := by
  rw [State.applyRedeem, Option.bind_eq_bind, bind_atLeast_eq_some] at applied
  rcases applied with ⟨_, applied⟩ | ⟨above, applied⟩
  · cases applied
    exact .inl rfl
  simp only [not_true_eq_false, if_false] at applied
  split at applied
  · cases applied
    exact .inl rfl
  rename_i r decoded
  rw [State.redeem] at applied
  split at applied
  · cases applied
    exact .inl rfl
  rename_i redeemable
  rw [not_not] at redeemable
  simp only [Option.bind_eq_bind, Option.bind_eq_some_iff] at applied
  obtain ⟨late, timely, applied⟩ := applied
  split at applied
  · cases applied
    exact .inl rfl
  rename_i inTime
  rw [Bool.not_eq_true] at inTime
  rw [inTime] at timely
  split at applied
  · cases applied
    exact .inl rfl
  rename_i givable
  rw [not_not] at givable
  rw [Option.bind_eq_some_iff] at applied
  obtain ⟨ok, channels, applied⟩ := applied
  cases ok with
  | false =>
      cases applied
      exact .inl rfl
  | true =>
      simp only [not_true_eq_false, if_false, Option.map_eq_some_iff] at applied
      obtain ⟨s'', given, rfl⟩ := applied
      exact .inr ⟨r, s'', decoded, above, ⟨redeemable, timely, givable, channels⟩, gives_giveRole given, rfl⟩

omit signed in
theorem step_applyRedeem (value : node.value = .object fields)
    (type : Json.string? (Json.field fields "type") = some "redeem")
    (signer : peer.signer fields = some author)
    (applied : s.applyRedeem peer author (s.roleOf author) fields = some s')
    : Step peer s node s' := by
  rcases redeem_cases applied with rfl | ⟨r, s'', decoded, above, redeems, gives, rfl⟩
  · exact .idle
  · exact .redeem ⟨fields, value, type, signer, rfl, decoded⟩ above redeems
      (fun key writer => length_of_decodeRedemption _ decoded writer) gives

omit signed in
/-- What revoking an invite does, and which. -/
theorem revokeInvite_cases
    (applied : s.applyRevokeInvite peer author (s.roleOf author) fields = some s')
    : s' = s ∨ ∃ inv,
        decodeInvite peer.primitives (Json.string? (Json.field fields "invite")) = some inv
        ∧ peer.verifyInvite inv ∧ (Above peer (s.roleOf author) 3 ∨ author = toHex inv.maker)
        ∧ s' = s.putInviteRevoked (toHex inv.id) ⟨author, Json.field fields "timestamp"⟩ := by
  rw [State.applyRevokeInvite] at applied
  split at applied
  · cases applied
    exact .inl rfl
  rename_i inv decoded
  split at applied
  · cases applied
    exact .inl rfl
  rename_i verified
  rw [not_not] at verified
  rw [Option.bind_eq_bind, bind_atLeast_eq_some] at applied
  rcases applied with ⟨_, applied⟩ | ⟨above, applied⟩
  · split at applied
    · cases applied
      exact .inl rfl
    · rename_i own
      cases applied
      exact .inr ⟨inv, decoded, verified, .inr (by simpa using own), rfl⟩
  · simp only [not_true_eq_false, false_and, if_false, Option.some.injEq] at applied
    exact .inr ⟨inv, decoded, verified, .inl above, applied.symm⟩

theorem step_applyRevokeInvite
    (applied : s.applyRevokeInvite peer author (s.roleOf author) fields = some s')
    : Step peer s node s' := by
  rcases revokeInvite_cases applied with rfl | ⟨inv, _, verified, may, rfl⟩
  · exact .idle
  · exact .revokeInvite signed verified may

theorem step_applyRevoke {revoke : Bool}
    (applied : s.applyRevoke peer author (s.roleOf author) fields revoke = some s')
    : Step peer s node s' := by
  rw [State.applyRevoke, Option.bind_eq_bind, bind_atLeast_eq_some] at applied
  rcases applied with ⟨_, applied⟩ | ⟨above, applied⟩
  · cases applied
    exact .idle
  simp only [not_true_eq_false, if_false] at applied
  split at applied
  · cases applied
    exact .idle
  simp only [Option.bind_eq_bind, Option.bind_eq_some_iff] at applied
  obtain ⟨channel, _, applied⟩ := applied
  split at applied
  · cases applied
    exact .idle
  · rename_i is
    cases applied
    exact .revoke signed above (by simpa [Option.isSome_iff_ne_none] using is)

theorem step_applyBan (applied : s.applyBan peer author (s.roleOf author) fields = some s')
    : Step peer s node s' := by
  rw [State.applyBan, Option.bind_eq_bind, bind_atLeast_eq_some] at applied
  rcases applied with ⟨_, applied⟩ | ⟨above, applied⟩
  · cases applied
    exact .idle
  simp only [not_true_eq_false, if_false, Option.bind_eq_bind, Option.bind_eq_some_iff] at applied
  obtain ⟨member, _, applied⟩ := applied
  split at applied
  · cases applied
    exact .idle
  · cases applied
    exact .ban signed above

theorem step_applyUnban (applied : s.applyUnban peer (s.roleOf author) fields = some s')
    : Step peer s node s' := by
  rw [State.applyUnban, Option.bind_eq_bind, bind_atLeast_eq_some] at applied
  rcases applied with ⟨_, applied⟩ | ⟨above, applied⟩
  · cases applied
    exact .idle
  simp only [not_true_eq_false, if_false, Option.bind_eq_bind, Option.bind_eq_some_iff,
    Option.some.injEq] at applied
  obtain ⟨member, _, rfl⟩ := applied
  exact .ban signed above

theorem step_applyHide (applied : s.applyHide peer author (s.roleOf author) fields = some s')
    : Step peer s node s' := by
  rw [State.applyHide, Option.bind_eq_bind, bind_atLeast_eq_some] at applied
  rcases applied with ⟨_, applied⟩ | ⟨above, applied⟩
  · cases applied
    exact .idle
  simp only [not_true_eq_false, if_false, Option.bind_eq_bind, Option.bind_eq_some_iff,
    Option.some.injEq] at applied
  obtain ⟨member, _, log, _, seq, _, rfl⟩ := applied
  exact .hide signed above

theorem step_applyKeeper (applied : s.applyKeeper peer author (s.roleOf author) fields = some s')
    : Step peer s node s' := by
  rw [State.applyKeeper, Option.bind_eq_bind, bind_atLeast_eq_some] at applied
  rcases applied with ⟨_, applied⟩ | ⟨above, applied⟩
  · cases applied
    exact .idle
  simp only [not_true_eq_false, if_false] at applied
  split at applied <;> cases applied
  · exact .keeper signed above
  · exact .idle

omit signed in
/-- An event of a type, signed by its author. -/
theorem apply_of_signed {type : String} (value : node.value = .object fields)
    (type_ : Json.string? (Json.field fields "type") = some type) (later : type ≠ "init")
    (signer : peer.signer fields = some author)
    : s.apply peer node = s.applySigned peer author (s.roleOf author) fields type := by
  unfold State.apply
  simp only [value, type_, signer]

omit signed in
theorem step_of_apply (applied : s.apply peer node = some s') : Step peer s node s' := by
  unfold State.apply at applied
  split at applied
  case h_2 =>
    cases applied
    exact .idle
  rename_i fields value
  split at applied
  · cases applied
    exact .idle
  · -- The first node of the log.
    cases applied
    rw [State.applyInit]
    by_cases from_ : node.from_ = peer.key
    · cases new : s.view.community with
      | some community => simpa [from_, new] using Step.idle
      | none =>
          cases signer : peer.signer fields with
          | none => simpa [from_, new, signer] using Step.idle
          | some author =>
              simpa [from_, new, signer] using Step.found from_ ⟨fields, value, signer⟩ new
    · simpa [from_] using Step.idle
  · rename_i type
    split at applied
    · cases applied
      exact .idle
    rename_i author signer
    have signed : Signs peer node author := ⟨fields, value, signer⟩
    unfold State.applySigned at applied
    split at applied
    · exact step_applyRole value type signer applied
    · exact step_applyChannel signed applied
    · exact step_applyRotate signed applied
    · exact step_applyRedeem value type signer applied
    · exact step_applyRevokeInvite signed applied
    · exact step_applyRevoke signed applied
    · exact step_applyRevoke signed applied
    · exact step_applyBan signed applied
    · exact step_applyUnban signed applied
    · exact step_applyHide signed applied
    · exact step_applyKeeper signed applied
    · cases applied
      exact .idle

end Signed

end Hypergraph.Control
