import Mathlib.Algebra.GroupWithZero.Nat
import Mathlib.Order.Lattice
import Hypergraph.Lib.Runs
import Hypergraph.Engine.Registry

/-! Read scopes of the first engine (`src/scopes-registry.js`, `src/scope-base.js`): who was sealed
the key of which epoch, as the events of the log say. Rotations race for an epoch; a rotation's id
decides which one's grants count.
-/

namespace Hypergraph.Engine

open Js

namespace ScopeBase

-- The finite numbers, which JSON has.
variable {Number : Type} [LinearOrder Number] [Zero Number]

-- Registries

structure Grant (Number : Type) where
  sealedKey : String
  recipientEncryptionPublicKey : String
  granter : Option String
  timestamp : Number
  deriving DecidableEq

/-- A scope. A grant stands under `<recipient>:<epoch>`: a number has no colon in it. -/
structure Scope (Number : Type) where
  creator : Option String := none
  currentEpoch : Option Number := none
  grants : Object (String × Number) (Grant Number) := []
  revoked : Object String Unit := []
  epochRotations : Object Number String := []
  deriving DecidableEq

abbrev Registries (Number : Type) := Object String (Scope Number)

/-- What an event says; `none` where there is no such field, or no text in it. -/
inductive Body (Number : Type)
  | create (scopeId creator : String)
  | keyGrant (scopeId recipient : String) (epoch : Number)
      (sealedKey recipientEncryptionPublicKey : String) (granter rotationId : Option String)
  | revoke (scopeId pubkey : String)

/-- An event whose fields are of the types they should be. -/
structure Event (Number : Type) where
  body : Body Number
  author : String
  timestamp : Number
  signature : String

/-- What a signature covers. -/
inductive Message (Number : Type)
  | create (scopeId creator author : String) (timestamp : Number)
  | keyGrant (scopeId recipient : String) (epoch : Number)
      (sealedKey recipientEncryptionPublicKey author : String) (timestamp : Number)
  | revoke (scopeId pubkey author : String) (timestamp : Number)
  deriving DecidableEq

/-- The hash that is signed: neither a grant's `granter` nor its `rotationId` is in it. -/
def stableScopeHash (event : Event Number) : Message Number :=
  match event.body with
  | .create scopeId creator => .create scopeId creator event.author event.timestamp
  | .keyGrant scopeId recipient epoch sealedKey encryptionKey _ _ =>
      .keyGrant scopeId recipient epoch sealedKey encryptionKey event.author event.timestamp
  | .revoke scopeId pubkey => .revoke scopeId pubkey event.author event.timestamp

/-- The scope an event is about, where there is one: a property of `Object.prototype` is spread to
nothing.
-/
def scopeOf (registries : Registries Number) (scopeId : String) : Option (Scope Number) :=
  match Js.lookup registries scopeId with
  | .own scope => some scope
  | .inherited => some {}
  | .undefined => none

def initScope (creatorPubkeyHex : String) : Scope Number :=
  { creator := some creatorPubkeyHex, currentEpoch := some 0 }

/-- A grant of a rotation counts, unless another was first for the epoch; one of none does. -/
def counts (scope : Scope Number) (epoch : Number) (rotationId : Option String) : Bool :=
  match required rotationId, scope.epochRotations.lookup epoch with
  | some rotationId, some existing => existing = rotationId
  | _, _ => true

/-- The scope with a grant that counts. -/
def grant (scope : Scope Number) (recipient : String) (epoch : Number) (given : Grant Number)
    (rotationId : Option String) : Scope Number :=
  { scope with
    epochRotations := match required rotationId with
      | some rotationId => (epoch, rotationId) :: scope.epochRotations
      | none => scope.epochRotations
    grants := ((recipient, epoch), given) :: scope.grants
    revoked := Js.delete scope.revoked recipient
    currentEpoch := scope.currentEpoch.map fun current =>
      if current < epoch then epoch else current }

def applyScopeEvent (registries : Registries Number) (event : Event Number) : Registries Number :=
  match event.body with
  | .create scopeId creator =>
      if (scopeOf registries scopeId).isSome then registries
      else Js.set registries scopeId (initScope creator)
  | .keyGrant scopeId recipient epoch sealedKey encryptionKey granter rotationId =>
      match scopeOf registries scopeId with
      | none => registries
      | some scope =>
          if ¬ counts scope epoch rotationId then registries
          else
            Js.set registries scopeId (grant scope recipient epoch
              ⟨sealedKey, encryptionKey, required granter, event.timestamp⟩ rotationId)
  | .revoke scopeId pubkey =>
      match scopeOf registries scopeId with
      | none => registries
      | some scope =>
          Js.set registries scopeId { scope with revoked := (pubkey, ()) :: scope.revoked }

-- The log

/-- The fields an event must have. -/
def hasFields : Body Number → Bool
  | .create scopeId creator => scopeId ≠ "" && creator ≠ ""
  | .keyGrant scopeId recipient epoch sealedKey encryptionKey _ _ =>
      scopeId ≠ "" && recipient ≠ "" && ¬ epoch < 0 && sealedKey ≠ "" && encryptionKey ≠ ""
  | .revoke scopeId pubkey => scopeId ≠ "" && pubkey ≠ ""

-- `verify`: is a text a signature of a message, by a public key?
variable (verify : Message Number → String → String → Bool)

def verifyScopeEventSignature (event : Event Number) : Bool :=
  event.author ≠ "" && event.signature ≠ "" && hasFields event.body
    && verify (stableScopeHash event) event.signature event.author

def requiredPermission : Body Number → String
  | .create .. => "scope.create"
  | .revoke .. => "scope.revoke"
  | .keyGrant .. => "scope.grant"

/-- An event of the log, and the RoleBase's registry as it is then; `none`: there is no RoleBase, or
nothing of it yet.
-/
structure Node (Number : Type) where
  event : Event Number
  roles : Option Registry

def isScopeActionAllowed (node : Node Number) : Option Bool :=
  node.roles.map fun roles => roles.can node.event.author (requiredPermission node.event.body)

/-- Is a node's event let through? -/
def passes (node : Node Number) : Bool :=
  verifyScopeEventSignature verify node.event && isScopeActionAllowed node = some true

def apply (registries : Registries Number) (node : Node Number) : Registries Number :=
  if passes verify node then applyScopeEvent registries node.event else registries

def run (log : List (Node Number)) : Registries Number := log.foldl (apply verify) []

def getGrant (registries : Registries Number) (scopeId pubkeyHex : String) (epoch : Number)
    : Option (Grant Number) :=
  match scopeOf registries scopeId with
  | none => none
  | some scope => scope.grants.lookup (pubkeyHex, epoch)

/-- The rotation an epoch is recorded with. -/
def rotation (registries : Registries Number) (scopeId : String) (epoch : Number)
    : Option String :=
  match scopeOf registries scopeId with
  | none => none
  | some scope => scope.epochRotations.lookup epoch

def getCurrentEpoch (registries : Registries Number) (scopeId : String) : Option Number :=
  match scopeOf registries scopeId with
  | none => none
  | some scope => scope.currentEpoch

/-- A node gives someone the key of an epoch: its event passes, and its rotation counts. What is set
as `__proto__` is no property.
-/
structure Gives (registries : Registries Number) (node : Node Number) (scopeId recipient : String)
    (epoch : Number) (sealedKey : String) (rotationId : Option String) : Prop where
  body : ∃ encryptionKey granter,
    node.event.body = .keyGrant scopeId recipient epoch sealedKey encryptionKey granter rotationId
  passes : passes verify node = true
  known : (scopeOf registries scopeId).isSome
  named : scopeId ≠ "__proto__"
  counts : ∀ id existing, required rotationId = some id →
    rotation registries scopeId epoch = some existing → existing = id

-- What an event changes

section Steps

variable {verify} {registries : Registries Number} {node : Node Number}

omit [LinearOrder Number] [Zero Number] in
theorem scopeOf_set (scopeId other : String) (scope : Scope Number)
    : scopeOf (Js.set registries scopeId scope) other
      = if other = scopeId ∧ scopeId ≠ "__proto__" then some scope
        else scopeOf registries other := by
  by_cases here : other = scopeId ∧ scopeId ≠ "__proto__"
  · simp [scopeOf, Js.lookup, lookup_set, here]
  · simp only [scopeOf, Js.lookup, lookup_set, here, if_false]

omit [LinearOrder Number] [Zero Number] in
/-- A scope set is there, or is as it was. -/
theorem scopeOf_set_cases (scopeId other : String) (scope : Scope Number)
    : scopeOf (Js.set registries scopeId scope) other = scopeOf registries other
      ∨ other = scopeId ∧ scopeId ≠ "__proto__"
        ∧ scopeOf (Js.set registries scopeId scope) other = some scope := by
  rw [scopeOf_set]
  split
  · rename_i here
    exact .inr ⟨here.1, here.2, rfl⟩
  · exact .inl rfl

omit [Zero Number] in
theorem counts_iff {scope : Scope Number} {epoch : Number} {rotationId : Option String}
    : counts scope epoch rotationId = true
      ↔ ∀ id existing, required rotationId = some id →
          scope.epochRotations.lookup epoch = some existing → existing = id := by
  rw [counts]
  cases required rotationId with
  | none => simp
  | some id =>
      cases scope.epochRotations.lookup epoch with
      | none => simp
      | some existing => simp

variable (verify registries node) in
/-- What an event makes of a scope: nothing; a new one; one with a grant that counts; or one with
the same grants.
-/
theorem scopeOf_apply (scopeId : String)
    : scopeOf (apply verify registries node) scopeId = scopeOf registries scopeId
      ∨ (scopeOf registries scopeId = none
        ∧ ∃ creator, scopeOf (apply verify registries node) scopeId = some (initScope creator))
      ∨ (∃ scope recipient epoch given rotationId, scopeOf registries scopeId = some scope
        ∧ Gives verify registries node scopeId recipient epoch given.sealedKey rotationId
        ∧ scopeOf (apply verify registries node) scopeId
          = some (grant scope recipient epoch given rotationId))
      ∨ ∃ scope revoked, scopeOf registries scopeId = some scope
        ∧ scopeOf (apply verify registries node) scopeId = some { scope with revoked } := by
  by_cases passed : passes verify node = true
  case neg => exact .inl (by rw [apply, if_neg passed])
  rw [apply, if_pos passed, applyScopeEvent]
  cases is : node.event.body with
  | create told creator =>
      simp only
      split
      · exact .inl rfl
      · rename_i fresh
        rcases scopeOf_set_cases told scopeId (initScope creator : Scope Number) with
          same | ⟨rfl, _, made⟩
        · exact .inl same
        · exact .inr (.inl ⟨by simpa using fresh, creator, made⟩)
  | keyGrant told recipient epoch sealedKey encryptionKey granter rotationId =>
      simp only
      cases known : scopeOf registries told with
      | none => exact .inl rfl
      | some scope =>
          simp only
          split
          · exact .inl rfl
          · rename_i counted
            rcases scopeOf_set_cases told scopeId _ with same | ⟨rfl, named, made⟩
            · exact .inl same
            · have counts := counts_iff.mp (of_not_not counted)
              refine .inr (.inr (.inl ⟨scope, recipient, epoch, _, rotationId, known, ?_, made⟩))
              exact ⟨⟨encryptionKey, granter, is⟩, passed, by simp [known], named, by
                simpa only [rotation, known] using counts⟩
  | revoke told pubkey =>
      simp only
      cases known : scopeOf registries told with
      | none => exact .inl rfl
      | some scope =>
          rcases scopeOf_set_cases told scopeId _ with same | ⟨rfl, _, made⟩
          · exact .inl same
          · exact .inr (.inr (.inr ⟨scope, _, known, made⟩))

variable (verify registries node) in
/-- What an event makes of an epoch: nothing; or someone is given a key of it, and its rotation is
recorded.
-/
theorem epoch_apply (scopeId : String) (epoch : Number)
    : ((∀ recipient, getGrant (apply verify registries node) scopeId recipient epoch
          = getGrant registries scopeId recipient epoch)
        ∧ rotation (apply verify registries node) scopeId epoch = rotation registries scopeId epoch)
      ∨ ∃ recipient given rotationId,
        Gives verify registries node scopeId recipient epoch given.sealedKey rotationId
        ∧ (∀ other, getGrant (apply verify registries node) scopeId other epoch
          = if other = recipient then some given else getGrant registries scopeId other epoch)
        ∧ rotation (apply verify registries node) scopeId epoch
          = (required rotationId).or (rotation registries scopeId epoch) := by
  rcases scopeOf_apply verify registries node scopeId with
    same | ⟨fresh, creator, made⟩ | ⟨scope, recipient, epoch', given, rotationId, known, gives, made⟩
    | ⟨scope, revoked, known, made⟩
  · exact .inl (by simp [getGrant, rotation, same])
  · exact .inl (by simp [getGrant, rotation, fresh, made, initScope])
  · by_cases here : epoch = epoch'
    · subst here
      refine .inr ⟨recipient, given, rotationId, gives, fun other => ?_, ?_⟩
      · by_cases same : other = recipient
        · simp [getGrant, made, grant, same]
        · have apart : ((other, epoch) == (recipient, epoch)) = false := by simpa using same
          simp [getGrant, known, made, grant, List.lookup_cons, apart, same]
      · cases told : required rotationId <;> simp [rotation, known, made, grant, told]
    · refine .inl ⟨fun other => ?_, ?_⟩
      · have apart : ((other, epoch) == (recipient, epoch')) = false := by simp [here]
        simp [getGrant, known, made, grant, List.lookup_cons, apart]
      · have apart : (epoch == epoch') = false := by simpa using here
        cases told : required rotationId <;>
          simp [rotation, known, made, grant, told, List.lookup_cons, apart]
  · exact .inl (by simp [getGrant, rotation, known, made])

/-- Who is given a key has it, and its rotation is recorded. -/
theorem Gives.apply {scopeId recipient sealedKey : String} {epoch : Number}
    {rotationId : Option String}
    (gives : Gives verify registries node scopeId recipient epoch sealedKey rotationId)
    : (getGrant (apply verify registries node) scopeId recipient epoch).isSome
      ∧ rotation (apply verify registries node) scopeId epoch
        = (required rotationId).or (rotation registries scopeId epoch) := by
  obtain ⟨encryptionKey, granter, body⟩ := gives.body
  obtain ⟨scope, known⟩ := Option.isSome_iff_exists.mp gives.known
  have counted : ScopeBase.counts scope epoch rotationId = true :=
    counts_iff.mpr (by simpa only [rotation, known] using gives.counts)
  have made : scopeOf (ScopeBase.apply verify registries node) scopeId
      = some (grant scope recipient epoch
          ⟨sealedKey, encryptionKey, required granter, node.event.timestamp⟩ rotationId) := by
    rw [ScopeBase.apply, if_pos gives.passes, applyScopeEvent, body]
    simp only [known, counted, not_true_eq_false, if_false]
    rw [scopeOf_set, if_pos ⟨rfl, gives.named⟩]
  refine ⟨by simp [getGrant, made, grant], ?_⟩
  cases told : required rotationId <;> simp [rotation, known, made, grant, told]

/-- Who is given a key keeps one. -/
theorem getGrant_keep {scopeId recipient : String} {epoch : Number}
    (held : (getGrant registries scopeId recipient epoch).isSome)
    : (getGrant (apply verify registries node) scopeId recipient epoch).isSome := by
  rcases epoch_apply verify registries node scopeId epoch with
    ⟨same, _⟩ | ⟨whom, given, rotationId, _, made, _⟩
  · rw [same]
    exact held
  · rw [made]
    split
    · rfl
    · exact held

/-- An epoch keeps its rotation. -/
theorem rotation_keep {scopeId id : String} {epoch : Number}
    (recorded : rotation registries scopeId epoch = some id)
    : rotation (apply verify registries node) scopeId epoch = some id := by
  rcases epoch_apply verify registries node scopeId epoch with
    ⟨_, same⟩ | ⟨whom, given, rotationId, gives, _, made⟩
  · rw [same, recorded]
  · rw [made, recorded]
    cases told : required rotationId with
    | none => rfl
    | some id' => rw [gives.counts id' id told recorded]; rfl

variable (verify node) in
/-- The epoch of a scope doesn't go back. -/
theorem getCurrentEpoch_apply {scopeId : String} {epoch : Number}
    (current : getCurrentEpoch registries scopeId = some epoch)
    : ∃ later, getCurrentEpoch (apply verify registries node) scopeId = some later
      ∧ epoch ≤ later := by
  rcases scopeOf_apply verify registries node scopeId with
    same | ⟨fresh, _⟩ | ⟨scope, recipient, epoch', given, rotationId, known, _, made⟩
    | ⟨scope, revoked, known, made⟩
  · exact ⟨epoch, by simpa [getCurrentEpoch, same] using current, le_rfl⟩
  · simp [getCurrentEpoch, fresh] at current
  · have now : scope.currentEpoch = some epoch := by simpa [getCurrentEpoch, known] using current
    refine ⟨if epoch < epoch' then epoch' else epoch, ?_, ?_⟩
    · simp [getCurrentEpoch, made, grant, now]
    · split
      · exact le_of_lt ‹_›
      · exact le_rfl
  · exact ⟨epoch, by simpa [getCurrentEpoch, known, made] using current, le_rfl⟩

end Steps

-- One key of each epoch

section Keys

-- `rotationOf`: the rotation a message was signed as a part of; none of `createScope`, `grantKey`.
-- `keyOf`: the key that is sealed.
variable {κ : Type} (rotationOf : Message Number → Option String) (keyOf : String → κ)

/-- A rotation seals one key. -/
def OneKeyEach : Prop :=
  ∀ id scopeId epoch recipient sealedKey encryptionKey author timestamp
    recipient' sealedKey' encryptionKey' author' timestamp',
    rotationOf (.keyGrant scopeId recipient epoch sealedKey encryptionKey author timestamp)
      = some id →
    rotationOf (.keyGrant scopeId recipient' epoch sealedKey' encryptionKey' author' timestamp')
      = some id →
    keyOf sealedKey = keyOf sealedKey'

/-- Each grant that counts carries the rotation it was signed as a part of. And where its epoch
isn't recorded with that rotation and someone has a key of it, its author has the key it seals.
-/
structure Faithful (registries : Registries Number) (node : Node Number) : Prop where
  unaltered : ∀ {scopeId recipient epoch sealedKey rotationId},
    Gives verify registries node scopeId recipient epoch sealedKey rotationId →
    required rotationId = rotationOf (stableScopeHash node.event)
  holds : ∀ {scopeId recipient epoch sealedKey rotationId},
    Gives verify registries node scopeId recipient epoch sealedKey rotationId →
    required rotationId = none ∨ rotation registries scopeId epoch = none →
    (∃ other, (getGrant registries scopeId other epoch).isSome) →
    ∃ own, getGrant registries scopeId node.event.author epoch = some own
      ∧ keyOf own.sealedKey = keyOf sealedKey

/-- A rotation's grant opens an epoch: nobody has a key of it. -/
structure Opens (registries : Registries Number) (node : Node Number) (scopeId : String)
    (epoch : Number) (id : String) : Prop where
  gives : ∃ recipient sealedKey rotationId,
    Gives verify registries node scopeId recipient epoch sealedKey rotationId
  signed : rotationOf (stableScopeHash node.event) = some id
  first : ∀ other, getGrant registries scopeId other epoch = none

/-- A grant is a node's, signed as a part of a rotation, or of none by someone who has the key. -/
structure SignedFor (registries : Registries Number) (node : Node Number)
    (scopeId recipient : String) (epoch : Number) (held : Grant Number) (id : String) : Prop where
  gives : ∃ rotationId,
    Gives verify registries node scopeId recipient epoch held.sealedKey rotationId
  signed : rotationOf (stableScopeHash node.event) = some id
    ∨ rotationOf (stableScopeHash node.event) = none
      ∧ ∃ own, getGrant registries scopeId node.event.author epoch = some own
        ∧ keyOf own.sealedKey = keyOf held.sealedKey

/-- The grants of each epoch seal one key, and so do the messages of the rotation it is recorded
with.
-/
structure Agreed (registries : Registries Number) : Prop where
  grants : ∀ {scopeId recipient recipient' epoch held held'},
    getGrant registries scopeId recipient epoch = some held →
    getGrant registries scopeId recipient' epoch = some held' →
    keyOf held.sealedKey = keyOf held'.sealedKey
  rotations : ∀ {scopeId id epoch}, rotation registries scopeId epoch = some id →
    ∃ recipient held, getGrant registries scopeId recipient epoch = some held ∧
      ∀ whom sealedKey encryptionKey author timestamp,
        rotationOf (.keyGrant scopeId whom epoch sealedKey encryptionKey author timestamp) = some id →
        keyOf held.sealedKey = keyOf sealedKey

variable {verify rotationOf keyOf} {registries : Registries Number} {node : Node Number}
  {log : List (Node Number)}

/-- A grant that counts seals the key of those before it. -/
theorem Agreed.gives (agreed : Agreed rotationOf keyOf registries)
    (faithful : Faithful verify rotationOf keyOf registries node)
    {scopeId recipient : String} {epoch : Number} {sealedKey : String} {rotationId : Option String}
    (gives : Gives verify registries node scopeId recipient epoch sealedKey rotationId)
    {other : String} {held : Grant Number}
    (has : getGrant registries scopeId other epoch = some held)
    : keyOf held.sealedKey = keyOf sealedKey := by
  have byAuthor (lost : required rotationId = none ∨ rotation registries scopeId epoch = none)
      : keyOf held.sealedKey = keyOf sealedKey := by
    obtain ⟨own, owned, same⟩ := faithful.holds gives lost ⟨other, by simp [has]⟩
    exact (agreed.grants has owned).trans same
  cases told : required rotationId with
  | none => exact byAuthor (.inl told)
  | some id =>
      cases recorded : rotation registries scopeId epoch with
      | none => exact byAuthor (.inr recorded)
      | some existing =>
          obtain rfl := gives.counts id existing told recorded
          obtain ⟨whom, first, had, seals⟩ := agreed.rotations recorded
          obtain ⟨encryptionKey, granter, body⟩ := gives.body
          have signed := (faithful.unaltered gives).symm.trans told
          rw [stableScopeHash, body] at signed
          exact (agreed.grants has had).trans (seals _ _ _ _ _ signed)

/-- A grant that replaces another seals the same key. -/
theorem Agreed.replaced (agreed : Agreed rotationOf keyOf registries)
    (faithful : Faithful verify rotationOf keyOf registries node)
    {scopeId holder : String} {epoch : Number} {held held' : Grant Number}
    (has : getGrant registries scopeId holder epoch = some held)
    (has' : getGrant (apply verify registries node) scopeId holder epoch = some held')
    : keyOf held.sealedKey = keyOf held'.sealedKey := by
  rcases epoch_apply verify registries node scopeId epoch with
    ⟨same, _⟩ | ⟨whom, given, rotationId, gives, made, _⟩
  · rw [same] at has'
    exact agreed.grants has has'
  · rw [made] at has'
    split at has'
    · obtain rfl := Option.some.inj has'
      exact agreed.gives faithful gives has
    · exact agreed.grants has has'

/-- Each event keeps the keys agreed. -/
theorem Agreed.apply (each : OneKeyEach rotationOf keyOf)
    (agreed : Agreed rotationOf keyOf registries)
    (faithful : Faithful verify rotationOf keyOf registries node)
    : Agreed rotationOf keyOf (apply verify registries node) where
  grants {scopeId recipient recipient' epoch held held'} has has' := by
    rcases epoch_apply verify registries node scopeId epoch with
      ⟨same, _⟩ | ⟨whom, given, rotationId, gives, made, _⟩
    · rw [same] at has has'
      exact agreed.grants has has'
    · have seals {other held}
          (has : getGrant (ScopeBase.apply verify registries node) scopeId other epoch = some held)
          : keyOf held.sealedKey = keyOf given.sealedKey := by
        rw [made] at has
        split at has
        · rw [Option.some.inj has]
        · exact agreed.gives faithful gives has
      exact (seals has).trans (seals has').symm
  rotations {scopeId id epoch} recorded := by
    rcases epoch_apply verify registries node scopeId epoch with
      ⟨same, kept⟩ | ⟨whom, given, rotationId, gives, made, now⟩
    · simp only [same]
      exact agreed.rotations (kept ▸ recorded)
    · refine ⟨whom, given, by simp [made], fun _ sealedKey _ author timestamp signed => ?_⟩
      have ofRotation (told : required rotationId = some id)
          : keyOf given.sealedKey = keyOf sealedKey := by
        obtain ⟨encryptionKey, granter, body⟩ := gives.body
        have signed' := (faithful.unaltered gives).symm.trans told
        rw [stableScopeHash, body] at signed'
        exact each _ _ _ _ _ _ _ _ _ _ _ _ _ signed' signed
      rw [now] at recorded
      cases told : required rotationId with
      | some id' =>
          rw [told] at recorded
          exact ofRotation (told.trans recorded)
      | none =>
          rw [told] at recorded
          obtain ⟨_, first, had, seals⟩ := agreed.rotations recorded
          exact (agreed.gives faithful gives had).symm.trans (seals _ _ _ _ _ signed)

omit [Zero Number] in
theorem agreed_nil : Agreed rotationOf keyOf ([] : Registries Number) where
  grants {scopeId recipient _ epoch held _} has _ := by
    exfalso
    by_cases inherited : scopeId ∈ objectPrototype <;>
      simp [getGrant, scopeOf, Js.lookup, inherited] at has
  rotations {scopeId id epoch} recorded := by
    exfalso
    by_cases inherited : scopeId ∈ objectPrototype <;>
      simp [rotation, scopeOf, Js.lookup, inherited] at recorded

theorem agreed_run (each : OneKeyEach rotationOf keyOf)
    (faithful : Runs.Each (apply verify) (Faithful verify rotationOf keyOf) [] log)
    : Agreed rotationOf keyOf (run verify log) :=
  Runs.Each.keeps (fun _ _ agreed now => agreed.apply each now) agreed_nil faithful

/-- What is given in a run from some registries was given by a node of it. -/
theorem getGrant_run {scopeId recipient : String} {epoch : Number} {held : Grant Number}
    (now : getGrant (log.foldl (apply verify) registries) scopeId recipient epoch = some held)
    : getGrant registries scopeId recipient epoch = some held
      ∨ ∃ before node after, log = before ++ node :: after
        ∧ ∃ rotationId, Gives verify (before.foldl (apply verify) registries) node scopeId recipient
          epoch held.sealedKey rotationId := by
  have byNode (registries : Registries Number) (node : Node Number)
      (made : getGrant (apply verify registries node) scopeId recipient epoch = some held)
      : getGrant registries scopeId recipient epoch = some held
        ∨ ∃ rotationId, Gives verify registries node scopeId recipient epoch held.sealedKey
          rotationId := by
    rcases epoch_apply verify registries node scopeId epoch with
      ⟨same, _⟩ | ⟨whom, given, rotationId, gives, is, _⟩
    · exact .inl ((same recipient).symm.trans made)
    · rw [is] at made
      split at made
      · rename_i here
        obtain rfl := Option.some.inj made
        exact .inr ⟨rotationId, here ▸ gives⟩
      · exact .inl made
  exact @Runs.exists_step _ _ _ _ (getGrant · scopeId recipient epoch = some held) _ _ byNode now

/-- The rotation that opens an epoch is recorded, and stays so while someone has a key of it. -/
theorem Opens.keeps {scopeId id : String} {epoch : Number}
    (opens : Opens verify rotationOf registries node scopeId epoch id)
    (faithful : Faithful verify rotationOf keyOf registries node) (log : List (Node Number))
    : rotation (log.foldl (apply verify) (apply verify registries node)) scopeId epoch = some id
      ∧ ∃ other, (getGrant (log.foldl (apply verify) (apply verify registries node)) scopeId other
          epoch).isSome := by
  obtain ⟨recipient, sealedKey, rotationId, gives⟩ := opens.gives
  obtain ⟨held, recorded⟩ := gives.apply
  have told := (faithful.unaltered gives).trans opens.signed
  refine ⟨Runs.keeps (rotation · scopeId epoch = some id) (fun _ _ => rotation_keep) log ?_,
    recipient, ?_⟩
  · rw [recorded, told, Option.some_or]
  · exact Runs.keeps (fun registries => (getGrant registries scopeId recipient epoch).isSome)
      (fun _ _ => getGrant_keep) log held

/-- Each grant of an epoch that a rotation opens was signed for it. -/
theorem signedFor_run {scopeId id holder : String} {epoch : Number} {held : Grant Number}
    {before after : List (Node Number)} {opening : Node Number}
    (faithful : Runs.Each (apply verify) (Faithful verify rotationOf keyOf) []
      (before ++ opening :: after))
    (opens : Opens verify rotationOf (run verify before) opening scopeId epoch id)
    (now : getGrant (run verify (before ++ opening :: after)) scopeId holder epoch = some held)
    : ∃ earlier node later, opening :: after = earlier ++ node :: later
      ∧ SignedFor verify rotationOf keyOf (run verify (before ++ earlier)) node scopeId holder epoch
        held id := by
  have faithful' := (Runs.each_append.mp faithful).2
  rw [run, List.foldl_append] at now
  rcases getGrant_run now with already | ⟨earlier, node, later, is, rotationId, gives⟩
  · cases (opens.first holder).symm.trans already
  refine ⟨earlier, node, later, is, ?_⟩
  rw [run, List.foldl_append]
  refine ⟨⟨rotationId, gives⟩, ?_⟩
  cases earlier with
  | nil =>
      obtain ⟨rfl, rfl⟩ := List.cons.inj is
      exact .inl opens.signed
  | cons first earlier =>
      obtain ⟨rfl, rfl⟩ := List.cons.inj is
      obtain ⟨recorded, someone⟩ := opens.keeps faithful'.1 earlier
      have here := (Runs.each_append.mp faithful'.2).2.1
      have told := here.unaltered gives
      cases said : required rotationId with
      | some id' =>
          obtain rfl := gives.counts id' id said recorded
          exact .inl (told.symm.trans said)
      | none => exact .inr ⟨told.symm.trans said, here.holds gives (.inl said) someone⟩

/-- **One key of each epoch.** In every run whose grants carry the rotation they were signed as a
part of, and else are by who has the key then: the grants of an epoch that a rotation opens were
signed as a part of it, or by someone who had its key; a grant replaced seals the same key; and the
epoch of a scope doesn't go back.
-/
theorem one_key_each_epoch (each : OneKeyEach rotationOf keyOf)
    (faithful : Runs.Each (apply verify) (Faithful verify rotationOf keyOf) [] log)
    : (∀ before opening after scopeId epoch id, log = before ++ opening :: after →
        Opens verify rotationOf (run verify before) opening scopeId epoch id →
        ∀ holder held, getGrant (run verify log) scopeId holder epoch = some held →
          ∃ earlier node later, opening :: after = earlier ++ node :: later
            ∧ SignedFor verify rotationOf keyOf (run verify (before ++ earlier)) node scopeId holder
              epoch held id)
      ∧ (∀ before node after, log = before ++ node :: after → ∀ scopeId holder epoch held held',
        getGrant (run verify before) scopeId holder epoch = some held →
        getGrant (run verify (before ++ [node])) scopeId holder epoch = some held' →
        keyOf held.sealedKey = keyOf held'.sealedKey)
      ∧ ∀ before after, log = before ++ after → ∀ scopeId epoch,
        getCurrentEpoch (run verify before) scopeId = some epoch →
        ∃ later, getCurrentEpoch (run verify log) scopeId = some later ∧ epoch ≤ later := by
  refine ⟨?_, ?_, ?_⟩
  · rintro before opening after scopeId epoch id rfl opens holder held now
    exact signedFor_run faithful opens now
  · rintro before node after rfl scopeId holder epoch held held' has has'
    obtain ⟨first, here, _⟩ := Runs.each_append.mp faithful
    rw [run, List.foldl_append] at has'
    exact (agreed_run each first).replaced here has has'
  · rintro before after rfl scopeId epoch current
    rw [run, List.foldl_append]
    have onward (registries : Registries Number) (node : Node Number)
        (now : ∃ later, getCurrentEpoch registries scopeId = some later ∧ epoch ≤ later)
        : ∃ later, getCurrentEpoch (apply verify registries node) scopeId = some later
          ∧ epoch ≤ later := by
      obtain ⟨later, now, le⟩ := now
      obtain ⟨latest, now', le'⟩ := getCurrentEpoch_apply verify node now
      exact ⟨latest, now', le.trans le'⟩
    exact Runs.keeps _ onward after ⟨epoch, current, le_rfl⟩

end Keys

-- Two rotations

section Two

/-- Two owners. -/
def owners : Option Registry :=
  some { roles := [("owner", some ["*"])], members := [("a", .role "owner"), ("b", .role "owner")] }

def created : Node Nat := ⟨⟨.create "s" "a", "a", 1, "signature"⟩, owners⟩

def granted (author recipient : String) (epoch : Nat) (key : String) (rotationId : Option String)
    : Node Nat :=
  ⟨⟨.keyGrant "s" recipient epoch key "seal" (some author) rotationId, author, 1, "signature"⟩,
    owners⟩

/-- One creates the scope, grants the other its key and rotates it. -/
def rotated : List (Node Nat) :=
  [created, granted "a" "a" 0 "k0" none, granted "a" "b" 0 "k0" none,
    granted "a" "a" 1 "k1" (some "r1"), granted "a" "b" 1 "k1" (some "r1")]

/-- The other's rotation to the same epoch, and its grant of the epoch's key to someone else. -/
def others : List (Node Nat) :=
  [granted "b" "a" 1 "k2" (some "r2"), granted "b" "c" 1 "k1" none]

/-- What they signed, and nothing else, has a signature. -/
def signed (message : Message Nat) (signature author : String) : Bool :=
  signature = "signature"
    && ((rotated ++ others).map fun node => (stableScopeHash node.event, node.event.author)).contains
      (message, author)

/-- What each signed as a part of a rotation. -/
def partOf : Message Nat → Option String
  | .keyGrant _ _ _ sealedKey _ author _ =>
      if sealedKey = "k1" ∧ author = "a" then some "r1"
      else if sealedKey = "k2" ∧ author = "b" then some "r2" else none
  | _ => none

theorem oneKeyEach_partOf : OneKeyEach partOf (id : String → String) := by
  intro id scopeId epoch recipient sealedKey _ author _ recipient' sealedKey' _ author' _ signed signed'
  simp only [partOf] at signed signed'
  grind

theorem getGrant_unrotated (other : String)
    : getGrant (run signed (rotated.take 3)) "s" other 1 = none := by
  have now : scopeOf (run signed (rotated.take 3)) "s" = some ⟨some "a", some 0,
      [(("b", 0), ⟨"k0", "seal", some "a", 1⟩), (("a", 0), ⟨"k0", "seal", some "a", 1⟩)], [], []⟩ := by
    decide
  have apart (one : String) : ((other, 1) == (one, 0)) = false := by simp
  simp [now, getGrant, List.lookup_cons, apart]

theorem opens_rotated
    : Opens signed partOf (run signed (rotated.take 3)) (granted "a" "a" 1 "k1" (some "r1")) "s" 1
        "r1" where
  gives := ⟨"a", "k1", some "r1", ⟨"seal", some "a", rfl⟩, by decide, by decide, by decide,
    fun _ _ _ recorded => by cases recorded⟩
  signed := by decide
  first := getGrant_unrotated

/-- In the run of the two someone has one key of an epoch that a rotation opens, the rotation that
loses changes nothing, and its grant without its `rotationId` replaces that key by its own.
-/
theorem losing_rotation_replaces
    : OneKeyEach partOf (id : String → String)
      ∧ Opens signed partOf (run signed (rotated.take 3)) (granted "a" "a" 1 "k1" (some "r1")) "s" 1
        "r1"
      ∧ (getGrant (run signed rotated) "s" "a" 1).map Grant.sealedKey = some "k1"
      ∧ run signed (rotated ++ [granted "b" "a" 1 "k2" (some "r2")]) = run signed rotated
      ∧ partOf (stableScopeHash (granted "b" "a" 1 "k2" none).event) = some "r2"
      ∧ (getGrant (run signed (rotated ++ [granted "b" "a" 1 "k2" none])) "s" "a" 1).map
        Grant.sealedKey = some "k2" := by
  exact ⟨oneKeyEach_partOf, opens_rotated, by decide, by decide, by decide, by decide⟩

theorem faithful_granted {registries : Registries Nat} {author recipient key : String} {epoch : Nat}
    {rotationId : Option String}
    (unaltered : required rotationId
      = partOf (stableScopeHash (granted author recipient epoch key rotationId).event))
    (holds : required rotationId = none ∨ rotation registries "s" epoch = none →
      (∃ other, (getGrant registries "s" other epoch).isSome) →
      (getGrant registries "s" author epoch).map Grant.sealedKey = some key)
    : Faithful signed partOf (id : String → String) registries
        (granted author recipient epoch key rotationId) where
  unaltered gives := by
    obtain ⟨_, _, body⟩ := gives.body
    cases body
    exact unaltered
  holds gives lost someone := by
    obtain ⟨_, _, body⟩ := gives.body
    cases body
    exact Option.map_eq_some_iff.mp (holds lost someone)

theorem faithful_rotated
    : Runs.Each (apply signed) (Faithful signed partOf (id : String → String)) []
        (rotated ++ [granted "b" "c" 1 "k1" none]) := by
  refine ⟨⟨?_, ?_⟩, faithful_granted rfl ?_, faithful_granted rfl fun _ _ => by decide,
    faithful_granted rfl ?_, faithful_granted rfl ?_, faithful_granted rfl fun _ _ => by decide,
    trivial⟩
  · intro _ _ _ _ _ gives
    obtain ⟨_, _, body⟩ := gives.body
    cases body
  · intro _ _ _ _ _ gives
    obtain ⟨_, _, body⟩ := gives.body
    cases body
  · rintro _ ⟨other, held⟩
    have fresh : getGrant (apply signed [] created) "s" other 0 = none := rfl
    rw [fresh] at held
    cases held
  · rintro _ ⟨other, held⟩
    obtain ⟨_, has⟩ := Option.isSome_iff_exists.mp held
    cases (getGrant_unrotated other).symm.trans has
  · exact fun lost => absurd lost (by decide)

theorem one_key_each_epoch_rotated
    : ∃ held, getGrant (run signed (rotated ++ [granted "b" "c" 1 "k1" none])) "s" "c" 1 = some held
      ∧ ∃ earlier node later, rotated.drop 3 ++ [granted "b" "c" 1 "k1" none] = earlier ++ node :: later
        ∧ SignedFor signed partOf (id : String → String) (run signed (rotated.take 3 ++ earlier)) node
          "s" "c" 1 held "r1" := by
  refine ⟨⟨"k1", "seal", some "b", 1⟩, by decide, ?_⟩
  exact (one_key_each_epoch oneKeyEach_partOf faithful_rotated).1 (rotated.take 3) _ _ "s" 1 "r1" rfl
    opens_rotated "c" _ (by decide)

end Two

end ScopeBase

end Hypergraph.Engine
