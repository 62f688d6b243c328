import Hypergraph.Messages

/-! What is encoded is read back: the value, its empty buffers `null`; and what an older version
wrote is read as the value without the fields it did not know. Each format's law is put together
from the primitives', in the order of its fields.
-/

namespace Hypergraph.Encodings

open Wire Wire.Codec.Restores

-- Valid values and their normal forms

def RecordId.Valid (id : RecordId) : Prop := Fixed32 id.log ∧ Safe id.seq

def CutEntry.Valid (entry : CutEntry) : Prop := Fixed32 entry.log ∧ Safe entry.length

def WriteLimit.Valid (limit : WriteLimit) : Prop := Safe limit.records ∧ Safe limit.periodMs

def ListedLog.Valid (listed : ListedLog) : Prop := Fixed32 listed.space ∧ Fixed32 listed.log

/-- The fields of a decision are within what the primitives carry. -/
def Body.Valid : Body → Prop
  | .spaceInit d =>
      Text d.name ∧ Maybe Fixed32 d.parent ∧ Text d.policy ∧ Safe d.version ∧ Buffered d.proof
  | .memberAdd identity => Fixed32 identity
  | .memberRemove d => Fixed32 d.identity ∧ Each CutEntry.Valid d.cut
  | .roleDefine d => Text d.name ∧ Each Text d.permissions
  | .roleSet d => Fixed32 d.identity ∧ Text d.role ∧ Each CutEntry.Valid d.cut
  | .moderate d =>
      Text d.action ∧ Buffered d.target ∧ Text d.reason ∧ Each CutEntry.Valid d.cut ∧
        Maybe Text d.drop
  | .inviteCreate invite => Buffered invite
  | .inviteRevoke invite => Buffered invite
  | .inviteRedeem redemption => Buffered redemption
  | .keyRotate d => Safe d.epoch ∧ Fixed32 d.commit
  | .subspaceCreate d => Fixed32 d.key ∧ Text d.name ∧ Each Text d.writeRoles
  | .settingsSet d =>
      Maybe Text d.policy ∧ Maybe WriteLimit.Valid d.writeLimit ∧ Maybe (Each Text) d.rules ∧
        Maybe Text d.history ∧ Maybe (Each Text) d.helpers
  | .writerAdd d => Fixed32 d.key ∧ Buffered d.proof
  | .deviceRemove d => Fixed32 d.device ∧ Buffered d.cut ∧ Buffered d.proof
  | .scoped d => Fixed32 d.space ∧ Buffered d.decision
  | .logsList logs => Each ListedLog.Valid logs
  | .typesSet d => Safe d.version ∧ Text d.types

/-- A decision's empty buffers as `null`. -/
def Body.norm : Body → Body
  | .spaceInit d => .spaceInit { d with proof := nullable d.proof }
  | .moderate d => .moderate { d with target := nullable d.target }
  | .inviteCreate invite => .inviteCreate (nullable invite)
  | .inviteRevoke invite => .inviteRevoke (nullable invite)
  | .inviteRedeem redemption => .inviteRedeem (nullable redemption)
  | .writerAdd d => .writerAdd { d with proof := nullable d.proof }
  | .deviceRemove d => .deviceRemove { d with cut := nullable d.cut, proof := nullable d.proof }
  | .scoped d => .scoped { d with decision := nullable d.decision }
  | body => body

def Decision.Valid (d : Decision) : Prop := Safe d.stamp ∧ d.body.Valid

def Decision.norm (d : Decision) : Decision := { d with body := d.body.norm }

def Invite.Valid (inv : Invite) : Prop :=
  Fixed32 inv.space ∧ Buffered inv.id ∧ Text inv.role ∧ Safe inv.uses ∧ Safe inv.expires ∧
    Each Fixed32 inv.subspaces ∧ Fixed32 inv.maker ∧ Buffered inv.proof

def Invite.norm (inv : Invite) : Invite :=
  { inv with id := nullable inv.id, proof := nullable inv.proof }

def Redemption.Valid (r : Redemption) : Prop :=
  r.invite.Valid ∧ Fixed32 r.identity ∧ Fixed32 r.writer ∧ Buffered r.proof

def Redemption.norm (r : Redemption) : Redemption :=
  { r with invite := r.invite.norm, proof := nullable r.proof }

def RangePart.Valid (part : RangePart) : Prop := Safe part.count ∧ Fixed32 part.digest

def RangesMessage.Valid (m : RangesMessage) : Prop :=
  Buffered m.start ∧ Safe m.bits ∧ Each RangePart.Valid m.parts

def KeysMessage.Valid (m : KeysMessage) : Prop :=
  Buffered m.start ∧ Safe m.bits ∧ Safe m.kind ∧ Each Fixed32 m.keys ∧ Each Safe m.lengths

def ActivityEntry.Valid (e : ActivityEntry) : Prop :=
  Fixed32 e.log ∧ Safe e.period ∧ Safe e.start

def ActivityList.Valid (m : ActivityList) : Prop :=
  Safe (encodeSince m.since) ∧ Each ActivityEntry.Valid m.entries

/-- A value the primitives carry all of; a record is one that `encodeRecord` takes. -/
def Value.Valid (c : Primitives) : Value → Prop
  | .recordId id => id.Valid
  | .header h => h.Valid
  | .record r => r.Valid c
  | .decision d => d.Valid
  | .invite inv => inv.Valid
  | .redemption r => r.Valid
  | .summary m => Safe m.count ∧ Fixed32 m.digest ∧ Safe m.records
  | .ranges m => m.Valid
  | .keys m => m.Valid
  | .logKey log => Fixed32 log
  | .redeem buffer => Buffered buffer
  | .ask buffer => Buffered buffer
  | .hello proof => Buffered proof
  | .entry e => e.Valid
  | .want since => Safe since
  | .list m => m.Valid

/-- A value with its empty buffers `null`. -/
def Value.norm : Value → Value
  | .header h => .header h.norm
  | .record r => .record r.norm
  | .decision d => .decision d.norm
  | .invite inv => .invite inv.norm
  | .redemption r => .redemption r.norm
  | .ranges m => .ranges { m with start := nullable m.start }
  | .keys m => .keys { m with start := nullable m.start }
  | .redeem buffer => .redeem (nullable buffer)
  | .ask buffer => .ask (nullable buffer)
  | .hello proof => .hello (nullable proof)
  | value => value

-- The parts of a decision

/-- A decision's fields are read back as the decision. -/
theorem body_back {α : Type} {codec : Codec α} {valid : α → Prop} {norm : α → α}
    (restores : codec.Restores valid norm) {value : α} (ok : valid value) (made : α → Body)
    : (codec.decode (codec.encode value)).map (Prod.map made id)
      = some (made (norm value), []) := by
  rw [restores.decode_whole ok]
  rfl

/-- A decision's place in `DECISION_TYPES` is a small number. -/
theorem encodeBodyUpTo_place (c : Primitives) (known : Nat) (body : Body)
    : Safe (encodeBodyUpTo c known body).1 := by
  have small : (encodeBodyUpTo c known body).1 ≤ 16 := by
    cases body <;> simp [encodeBodyUpTo, encodeBody]
  exact lt_of_le_of_lt small (by decide)

theorem encodeBodyUpTo_added (c : Primitives) (body : Body)
    : encodeBodyUpTo c body.added body = encodeBody c body ∧ body.upTo body.added = body := by
  cases body with
  | moderate d =>
      simp [encodeBodyUpTo, encodeBody, moderate, Codec.iso, Codec.pair, Body.added, Body.upTo]
  | settingsSet d =>
      simp [encodeBodyUpTo, encodeBody, settingsSet, Codec.iso, Codec.pair, Body.added, Body.upTo]
  | _ => exact ⟨rfl, rfl⟩

theorem encodeUpTo_added (c : Primitives) (value : Value)
    : value.encodeUpTo c value.added = value.encode c ∧ value.upTo value.added = value := by
  cases value with
  | header h => simp [Value.encodeUpTo, Value.encode, Value.added, Value.upTo, encodeHeader]
  | decision d =>
      obtain ⟨bytes, body⟩ := encodeBodyUpTo_added c d.body
      simp only [Value.encodeUpTo, Value.encode, Value.added, Value.upTo, bytes, body]
      exact ⟨rfl, trivial⟩
  | summary m => simp [Value.encodeUpTo, Value.encode, Value.added, Value.upTo, encodeSummary]
  | _ => exact ⟨rfl, rfl⟩

section Formats

variable {c : Primitives} (documented : Documented c)

include documented

theorem exact_array {α : Type} {item : Codec α} {valid : α → Prop}
    (restores : item.Restores valid id)
    : (c.array item).Restores (Each valid) id := by
  simpa only [List.map_id_fun] using documented.array restores

theorem exact_optional {α : Type} {codec : Codec α} {valid : α → Prop}
    (restores : codec.Restores valid id)
    : (Codec.optional c.bool codec).Restores (Maybe valid) id := by
  simpa only [Option.map_id] using documented.bool.optional restores

theorem exact_trailing {α : Type} {codec : Codec α} {valid : α → Prop}
    (restores : codec.Restores valid id)
    : (Codec.trailing c.bool c.bool_wide codec).Restores (Maybe valid) id := by
  have made : (Codec.trailing c.bool c.bool_wide codec).Restores (Maybe valid) (Option.map id) :=
    documented.bool.trailing restores
  simpa only [Option.map_id] using made

theorem recordId_restores : (recordId c).Restores RecordId.Valid id :=
  (documented.fixed32.pair documented.uint).iso _ _ _ (fun _ => rfl)

theorem cutEntry_restores : (cutEntry c).Restores CutEntry.Valid id :=
  (documented.fixed32.pair documented.uint).iso _ _ _ (fun _ => rfl)

theorem writeLimit_restores : (writeLimit c).Restores WriteLimit.Valid id :=
  (documented.uint.pair documented.uint).iso _ _ _ (fun _ => rfl)

theorem listedLog_restores : (listedLog c).Restores ListedLog.Valid id :=
  (documented.fixed32.pair documented.fixed32).iso _ _ _ (fun _ => rfl)

theorem spaceInit_restores
    : (spaceInit c).Restores (fun d => (Body.spaceInit d).Valid)
        (fun d => { d with proof := nullable d.proof }) :=
  (documented.string.pair ((exact_optional documented documented.fixed32).pair
    (documented.bool.pair (documented.string.pair (documented.uint.pair
      documented.buffer))))).iso _ _ _ (fun _ => rfl)
    |>.of fun _ ⟨name, parent, policy, version, proof⟩ =>
      ⟨name, parent, trivial, policy, version, proof⟩

theorem memberRemove_restores
    : (memberRemove c).Restores (fun d => (Body.memberRemove d).Valid) id :=
  (documented.fixed32.pair (exact_array documented (cutEntry_restores documented))).iso _ _ _
    (fun _ => rfl)

theorem roleDefine_restores : (roleDefine c).Restores (fun d => (Body.roleDefine d).Valid) id :=
  (documented.string.pair (exact_array documented documented.string)).iso _ _ _ (fun _ => rfl)

theorem roleSet_restores : (roleSet c).Restores (fun d => (Body.roleSet d).Valid) id :=
  (documented.fixed32.pair (documented.string.pair
    (exact_array documented (cutEntry_restores documented)))).iso _ _ _ (fun _ => rfl)

theorem moderate_restores
    : (moderate c).Restores (fun d => (Body.moderate d).Valid)
        (fun d => { d with target := nullable d.target }) :=
  (documented.string.pair (documented.buffer.pair (documented.string.pair
    ((exact_array documented (cutEntry_restores documented)).pair
      (exact_trailing documented documented.string))))).iso _ _ _ (fun _ => rfl)

theorem keyRotate_restores : (keyRotate c).Restores (fun d => (Body.keyRotate d).Valid) id :=
  (documented.uint.pair documented.fixed32).iso _ _ _ (fun _ => rfl)

theorem subspaceCreate_restores
    : (subspaceCreate c).Restores (fun d => (Body.subspaceCreate d).Valid) id :=
  (documented.fixed32.pair (documented.string.pair (documented.bool.pair
    (exact_array documented documented.string)))).iso _ _ _ (fun _ => rfl)
    |>.of fun _ ⟨key, name, roles⟩ => ⟨key, name, trivial, roles⟩

theorem settingsSet_restores
    : (settingsSet c).Restores (fun d => (Body.settingsSet d).Valid) id :=
  ((exact_optional documented documented.string).pair
    ((exact_optional documented (writeLimit_restores documented)).pair
      ((exact_trailing documented (exact_array documented documented.string)).pair
        ((exact_trailing documented documented.string).pair
          ((exact_trailing documented (exact_array documented documented.string)).pair
            (exact_trailing documented documented.bool)))))).iso _ _ _ (fun _ => rfl)
    |>.of fun _ ⟨policy, limit, rules, history, helpers⟩ =>
      ⟨policy, limit, rules, history, helpers, fun _ _ => trivial⟩

theorem writerAdd_restores
    : (writerAdd c).Restores (fun d => (Body.writerAdd d).Valid)
        (fun d => { d with proof := nullable d.proof }) :=
  (documented.fixed32.pair documented.buffer).iso _ _ _ (fun _ => rfl)

theorem deviceRemove_restores
    : (deviceRemove c).Restores (fun d => (Body.deviceRemove d).Valid)
        (fun d => { d with cut := nullable d.cut, proof := nullable d.proof }) :=
  (documented.fixed32.pair (documented.buffer.pair documented.buffer)).iso _ _ _ (fun _ => rfl)

theorem scopedDecision_restores
    : (scopedDecision c).Restores (fun d => (Body.scoped d).Valid)
        (fun d => { d with decision := nullable d.decision }) :=
  (documented.fixed32.pair documented.buffer).iso _ _ _ (fun _ => rfl)

theorem typesSet_restores : (typesSet c).Restores (fun d => (Body.typesSet d).Valid) id :=
  (documented.uint.pair documented.string).iso _ _ _ (fun _ => rfl)

theorem decodeBody_restores (body : Body) (valid : body.Valid)
    : decodeBody c (encodeBody c body).1 (encodeBody c body).2 = some (body.norm, []) :=
  match body, valid with
  | .spaceInit _, valid => body_back (spaceInit_restores documented) valid _
  | .memberAdd _, valid => body_back documented.fixed32 valid _
  | .memberRemove _, valid => body_back (memberRemove_restores documented) valid _
  | .roleDefine _, valid => body_back (roleDefine_restores documented) valid _
  | .roleSet _, valid => body_back (roleSet_restores documented) valid _
  | .moderate _, valid => body_back (moderate_restores documented) valid _
  | .inviteCreate _, valid => body_back documented.buffer valid _
  | .inviteRevoke _, valid => body_back documented.buffer valid _
  | .inviteRedeem _, valid => body_back documented.buffer valid _
  | .keyRotate _, valid => body_back (keyRotate_restores documented) valid _
  | .subspaceCreate _, valid => body_back (subspaceCreate_restores documented) valid _
  | .settingsSet _, valid => body_back (settingsSet_restores documented) valid _
  | .writerAdd _, valid => body_back (writerAdd_restores documented) valid _
  | .deviceRemove _, valid => body_back (deviceRemove_restores documented) valid _
  | .scoped _, valid => body_back (scopedDecision_restores documented) valid _
  | .logsList _, valid =>
      body_back (exact_array documented (listedLog_restores documented)) valid _
  | .typesSet _, valid => body_back (typesSet_restores documented) valid _

-- Decisions of an older version

/-- A `moderate` decision is read without `drop` where no bytes are left for it. -/
theorem moderate_upTo (known : Nat) (d : Moderate) (valid : (Body.moderate d).Valid)
    : decodeBody c (encodeBodyUpTo c known (.moderate d)).1
        (encodeBodyUpTo c known (.moderate d)).2
      = some (((Body.moderate d).upTo known).norm, []) := by
  obtain ⟨action, target, reason, cut, drop⟩ := valid
  have cuts := exact_array documented (cutEntry_restores documented)
  have drop := (exact_trailing documented documented.string).decode_encode drop
  simp only [encodeBodyUpTo, decodeBody, moderate, Codec.iso, documented.string.pair_decode action,
    documented.buffer.pair_decode target, documented.string.pair_decode reason,
    cuts.pair_decode cut, optTrailingString]
  cases known with
  | zero =>
      rfl
  | succ known =>
      simp only [List.take_succ_cons, List.take_nil, List.flatten_cons, List.flatten_nil, drop]
      simp [Body.upTo, Body.norm]

/-- A `settings/set` decision is read without the fields at its end that are not there. -/
theorem settingsSet_upTo (known : Nat) (d : SettingsSet) (valid : (Body.settingsSet d).Valid)
    : decodeBody c (encodeBodyUpTo c known (.settingsSet d)).1
        (encodeBodyUpTo c known (.settingsSet d)).2
      = some (((Body.settingsSet d).upTo known).norm, []) := by
  obtain ⟨policy, limit, rules, history, helpers⟩ := valid
  have lists := exact_trailing documented (exact_array documented documented.string)
  have texts := exact_trailing documented documented.string
  have flags := exact_trailing documented documented.bool
  have known_ : Maybe (fun _ => True) d.pub := fun _ _ => trivial
  have pub := flags.decode_encode known_
  simp only [encodeBodyUpTo, decodeBody, settingsSet, Codec.iso,
    (exact_optional documented documented.string).pair_decode policy, optString, optWriteLimit,
    (exact_optional documented (writeLimit_restores documented)).pair_decode limit,
    optTrailingStrings, optTrailingString, optTrailingBool]
  obtain _ | _ | _ | _ | known := known
  · rfl
  · simp only [List.take_succ_cons, List.take_zero, List.flatten_cons, List.flatten_nil,
      lists.pair_decode rules]
    rfl
  · simp only [List.take_succ_cons, List.take_zero, List.flatten_cons, List.flatten_nil,
      lists.pair_decode rules, texts.pair_decode history]
    rfl
  · simp only [List.take_succ_cons, List.take_zero, List.flatten_cons, List.flatten_nil,
      lists.pair_decode rules, texts.pair_decode history, lists.pair_decode helpers]
    rfl
  · simp only [List.take_succ_cons, List.take_nil, List.flatten_cons, List.flatten_nil,
      lists.pair_decode rules, texts.pair_decode history, lists.pair_decode helpers, pub]
    simp [Body.upTo, Body.norm]

/-- What a version wrote of a decision is read as the decision as far as that version knew it. -/
theorem decodeBody_upTo (known : Nat) (body : Body) (valid : body.Valid)
    : decodeBody c (encodeBodyUpTo c known body).1 (encodeBodyUpTo c known body).2
      = some ((body.upTo known).norm, []) := by
  cases body with
  | moderate d => exact moderate_upTo documented known d valid
  | settingsSet d => exact settingsSet_upTo documented known d valid
  | _ => exact decodeBody_restores documented _ valid

theorem decision_upTo (known : Nat) {d : Decision} (valid : d.Valid)
    : (decision c).read (c.uint.encode (encodeBodyUpTo c known d.body).1 ++
        (c.uint.encode d.stamp ++ (encodeBodyUpTo c known d.body).2))
      = some { d with body := (d.body.upTo known).norm } := by
  have place := documented.uint.decode_encode
    (encodeBodyUpTo_place c known d.body)
  have stamp := documented.uint.decode_encode valid.1
  have body := decodeBody_upTo documented known d.body valid.2
  simp [Codec.read, decision, place, stamp, body]

theorem decision_back {d : Decision} (valid : d.Valid)
    : (decision c).read ((decision c).encode d) = some d.norm := by
  have back := decision_upTo documented d.body.added valid
  obtain ⟨bytes, body⟩ := encodeBodyUpTo_added c d.body
  rw [bytes, body] at back
  exact back

/-- An encoded decision is not empty, so it is not taken for `null` where another holds it. -/
theorem decision_filled (d : Decision) : (decision c).encode d ≠ [] := by
  intro empty
  exact documented.wide _ (List.append_eq_nil_iff.mp empty).1

-- Invites and messages

theorem invite_restores : (invite c).Restores Invite.Valid Invite.norm :=
  ((documented.fixed32.pair (documented.buffer.pair (documented.string.pair
    (documented.uint.pair (documented.uint.pair
      ((exact_array documented documented.fixed32).pair documented.fixed32)))))).pair
    documented.buffer).iso _ _ _ (fun _ => rfl)
    |>.of fun _ ⟨space, id, role, uses, expires, subspaces, maker, proof⟩ =>
      ⟨⟨space, id, role, uses, expires, subspaces, maker⟩, proof⟩

theorem redemption_restores : (redemption c).Restores Redemption.Valid Redemption.norm :=
  ((invite_restores documented).pair (documented.fixed32.pair
    (documented.fixed32.pair documented.buffer))).iso _ _ _ (fun _ => rfl)

theorem rangePart_restores : (rangePart c).Restores RangePart.Valid id :=
  (documented.uint.pair documented.fixed32).iso _ _ _ (fun _ => rfl)

theorem ranges_restores
    : (ranges c).Restores RangesMessage.Valid (fun m => { m with start := nullable m.start }) :=
  (documented.buffer.pair (documented.uint.pair
    (exact_array documented (rangePart_restores documented)))).iso _ _ _ (fun _ => rfl)

theorem keys_restores
    : (keys c).Restores KeysMessage.Valid (fun m => { m with start := nullable m.start }) :=
  (documented.buffer.pair (documented.uint.pair (documented.uint.pair
    ((exact_array documented documented.fixed32).pair
      (exact_array documented documented.uint))))).iso _ _ _ (fun _ => rfl)

theorem entry_restores : (entry c).Restores ActivityEntry.Valid id :=
  (documented.fixed32.pair (documented.uint.pair documented.uint)).iso _ _ _ (fun _ => rfl)

/-- A period is read back from the number after it, and `Infinity` from 0. -/
theorem since_restores : (since c).Restores (fun from_ => Safe (encodeSince from_)) id := by
  intro from_ valid
  exact documented.uint (encodeSince from_) valid

theorem list_restores : (list c).Restores ActivityList.Valid id :=
  ((since_restores documented).pair ((exact_array documented (entry_restores documented)).pair
    documented.bool)).iso _ _ _ (fun _ => rfl)
    |>.of fun _ ⟨since, entries⟩ => ⟨since, entries, trivial⟩

theorem summary_upTo (known : Nat) {m : Summary} (valid : (Value.summary m).Valid c)
    : ∃ bytes, (Value.summary m).encodeUpTo c known = some bytes ∧
        decodeSummary c bytes = some { m with records := if 1 ≤ known then m.records else 0 } := by
  refine ⟨_, rfl, ?_⟩
  obtain ⟨count, digest, records⟩ := valid
  have fields : ∀ rest,
      (summaryFields c).decode ((summaryFields c).encode (m.count, m.digest) ++ rest)
      = some ((m.count, m.digest), rest) :=
    (documented.uint.pair documented.fixed32).decode_encode ⟨count, digest⟩
  have records := documented.uint.decode_whole records
  have wide := documented.wide m.records
  match known with
  | 0 =>
      simp only [decodeSummary, List.take_zero, List.flatten_nil, fields]
      rfl
  | known + 1 =>
      simp [decodeSummary, fields, records, wide]

theorem header_upTo (known : Nat) {h : Header} (valid : h.Valid)
    : ∃ bytes, (Value.header h).encodeUpTo c known = some bytes ∧
        decodeHeader c bytes
          = some { h with admitted := if 1 ≤ known then h.admitted else none }.norm := by
  refine ⟨_, rfl, ?_⟩
  match known with
  | 0 =>
      have plain : { h with admitted := none }.Valid :=
        ⟨valid.version, valid.space, valid.decisions, valid.proof, nofun⟩
      exact decodeHeader_encodeHeader documented plain
  | known + 1 =>
      have back := decodeHeader_encodeHeader documented valid
      simp only [encodeHeader] at back
      simpa using back

/-- What a version wrote of a value is read as the value as far as that version knew it. -/
theorem decode_encodeUpTo (known : Nat) (value : Value) (valid : value.Valid c)
    : ∃ bytes, value.encodeUpTo c known = some bytes ∧
        decode c value.kind bytes = some (value.upTo known).norm := by
  cases value with
  | recordId id =>
      have back := (recordId_restores documented).read_encode valid
      exact ⟨_, rfl, congrArg (Option.map Value.recordId) back⟩
  | header h =>
      obtain ⟨bytes, written, back⟩ := header_upTo documented known valid
      exact ⟨bytes, written, congrArg (Option.map Value.header) back⟩
  | record r =>
      obtain ⟨bytes, written, back⟩ := decodeRecord_encodeRecord documented valid
      exact ⟨bytes, written, congrArg (Option.map Value.record) back⟩
  | decision d =>
      exact ⟨_, rfl, congrArg (Option.map Value.decision) (decision_upTo documented known valid)⟩
  | invite inv =>
      have back := (invite_restores documented).read_encode valid
      exact ⟨_, rfl, congrArg (Option.map Value.invite) back⟩
  | redemption r =>
      have back := (redemption_restores documented).read_encode valid
      exact ⟨_, rfl, congrArg (Option.map Value.redemption) back⟩
  | summary m =>
      obtain ⟨bytes, written, back⟩ := summary_upTo documented known (m := m) valid
      exact ⟨bytes, written, congrArg (Option.map Value.summary) back⟩
  | ranges m =>
      have back := (ranges_restores documented).read_encode valid
      exact ⟨_, rfl, congrArg (Option.map Value.ranges) back⟩
  | keys m =>
      have back := (keys_restores documented).read_encode valid
      exact ⟨_, rfl, congrArg (Option.map Value.keys) back⟩
  | logKey log =>
      exact ⟨_, rfl, congrArg (Option.map Value.logKey) (documented.fixed32.read_encode valid)⟩
  | redeem buffer =>
      exact ⟨_, rfl, congrArg (Option.map Value.redeem) (documented.buffer.read_encode valid)⟩
  | ask buffer =>
      exact ⟨_, rfl, congrArg (Option.map Value.ask) (documented.buffer.read_encode valid)⟩
  | hello proof =>
      exact ⟨_, rfl, congrArg (Option.map Value.hello) (documented.buffer.read_encode valid)⟩
  | entry e =>
      have back := (entry_restores documented).read_encode valid
      exact ⟨_, rfl, congrArg (Option.map Value.entry) back⟩
  | want since =>
      exact ⟨_, rfl, congrArg (Option.map Value.want) (documented.uint.read_encode valid)⟩
  | list m =>
      have back := (list_restores documented).read_encode valid
      exact ⟨_, rfl, congrArg (Option.map Value.list) back⟩

end Formats

/-- Every value encoded is read back, an empty buffer as `null`. What a version wrote that knew the
first few of the fields added at the end is read as the value with the later ones `null` (0 for a
summary's records). And a decision a `scoped` one holds is read from it as it was encoded.
-/
theorem values_read_back (c : Primitives) (documented : Documented c) (value : Value)
    (valid : value.Valid c)
    : (∃ bytes, value.encode c = some bytes ∧ decode c value.kind bytes = some value.norm) ∧
      (∀ known, ∃ bytes, value.encodeUpTo c known = some bytes ∧
        decode c value.kind bytes = some (value.upTo known).norm) ∧
      (∀ stamp space inner, Decision.Valid inner →
        value = .decision ⟨stamp, .scoped ⟨space, some ((decision c).encode inner)⟩⟩ →
        value.norm = value ∧
          readBuffer (decision c) (some ((decision c).encode inner)) = some inner.norm) := by
  refine ⟨?_, fun known => decode_encodeUpTo documented known value valid, ?_⟩
  · have back := decode_encodeUpTo documented value.added value valid
    obtain ⟨bytes, whole⟩ := encodeUpTo_added c value
    rw [bytes, whole] at back
    exact back
  · rintro stamp space inner held rfl
    have kept : nullable (some ((decision c).encode inner)) = some ((decision c).encode inner) := by
      have filled := decision_filled documented inner
      cases bytes : (decision c).encode inner with
      | nil => exact absurd bytes filled
      | cons byte bytes => rfl
    refine ⟨?_, decision_back documented held⟩
    simp only [Value.norm, Decision.norm, Body.norm, kept]

/-- A decision of a garden's sub-space, kept in the garden's decision log. -/
def notedInGarden (inner : Decision) : Value :=
  .decision ⟨7, .scoped ⟨List.replicate 32 1, some ((decision compactNull).encode inner)⟩⟩

/-- A settings change of a sub-space, which an older version wrote without the helpers. -/
def settingsOfBeds : Decision :=
  ⟨7, .settingsSet ⟨some "open", none, some [], some "all", some [], none⟩⟩

/-- In the documented format, a sub-space's settings are read back from the decision that holds
them, and without the helpers from the bytes of a version that did not know them.
-/
theorem values_read_back_beds
    : (∃ bytes, (notedInGarden settingsOfBeds).encode compactNull = some bytes ∧
        decode compactNull .decision bytes = some (notedInGarden settingsOfBeds)) ∧
      readBuffer (decision compactNull) (some ((decision compactNull).encode settingsOfBeds))
        = some settingsOfBeds ∧
      ∃ bytes, (Value.decision settingsOfBeds).encodeUpTo compactNull 2 = some bytes ∧
        decode compactNull .decision bytes
          = some (.decision ⟨7, .settingsSet ⟨some "open", none, some [], some "all", none, none⟩⟩) := by
  have beds : settingsOfBeds.Valid := by
    simp [Decision.Valid, Body.Valid, settingsOfBeds, Safe, Maybe, Text, Each, MAX_ITEMS]
    decide
  have noted : (notedInGarden settingsOfBeds).Valid compactNull := by
    simp [Value.Valid, notedInGarden, Decision.Valid, Body.Valid, Safe, Fixed32, Buffered]
    decide
  obtain ⟨⟨bytes, written, back⟩, -, held⟩ :=
    values_read_back compactNull compactNull_documented (notedInGarden settingsOfBeds) noted
  obtain ⟨whole, read⟩ := held 7 (List.replicate 32 1) settingsOfBeds beds rfl
  rw [whole] at back
  obtain ⟨-, older, -⟩ :=
    values_read_back compactNull compactNull_documented (.decision settingsOfBeds) beds
  exact ⟨⟨bytes, written, back⟩, read, older 2⟩

end Hypergraph.Encodings
