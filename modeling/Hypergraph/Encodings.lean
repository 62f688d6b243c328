import Hypergraph.Lib.CompactEncoding

/-! What goes on the network (`lib/encodings.js`): decisions, invites and record ids, each
put together from the primitives of `compact-encoding`. Text in hex is kept as the bytes it
spells.
-/

namespace Hypergraph

open Wire

/-- A key: an identity, a device, a writer, a space or a log. -/
abbrev Key := Bytes

/-- What a `buffer` field decodes to: `null` when it is empty. -/
abbrev Buffer := Option Bytes

namespace Encodings

/-- A record's id: its log's key and the block number. -/
structure RecordId where
  log : Key
  seq : Nat
  deriving DecidableEq, Repr

structure CutEntry where
  log : Key
  length : Nat
  deriving DecidableEq, Repr

structure WriteLimit where
  records : Nat
  periodMs : Nat
  deriving DecidableEq, Repr

structure ListedLog where
  space : Key
  log : Key
  deriving DecidableEq, Repr

-- The fields of each decision, after its type and stamp

structure SpaceInit where
  name : String
  parent : Option Key
  priv : Bool
  policy : String
  version : Nat
  proof : Buffer
  deriving DecidableEq, Repr

structure MemberRemove where
  identity : Key
  cut : List CutEntry
  deriving DecidableEq, Repr

structure RoleDefine where
  name : String
  permissions : List String
  deriving DecidableEq, Repr

structure RoleSet where
  identity : Key
  role : String
  cut : List CutEntry
  deriving DecidableEq, Repr

structure Moderate where
  action : String
  target : Buffer
  reason : String
  cut : List CutEntry
  drop : Option String
  deriving DecidableEq, Repr

structure KeyRotate where
  epoch : Nat
  commit : Key
  deriving DecidableEq, Repr

structure SubspaceCreate where
  key : Key
  name : String
  priv : Bool
  writeRoles : List String
  deriving DecidableEq, Repr

structure SettingsSet where
  policy : Option String
  writeLimit : Option WriteLimit
  rules : Option (List String)
  history : Option String
  helpers : Option (List String)
  pub : Option Bool
  deriving DecidableEq, Repr

structure WriterAdd where
  key : Key
  proof : Buffer
  deriving DecidableEq, Repr

structure DeviceRemove where
  device : Key
  cut : Buffer
  proof : Buffer
  deriving DecidableEq, Repr

structure Scoped where
  space : Key
  decision : Buffer
  deriving DecidableEq, Repr

structure TypesSet where
  version : Nat
  types : String
  deriving DecidableEq, Repr

/-- A decision's type with its fields, in the order of `DECISION_TYPES`. -/
inductive Body
  | spaceInit (d : SpaceInit)
  | memberAdd (identity : Key)
  | memberRemove (d : MemberRemove)
  | roleDefine (d : RoleDefine)
  | roleSet (d : RoleSet)
  | moderate (d : Moderate)
  | inviteCreate (invite : Buffer)
  | inviteRevoke (invite : Buffer)
  | inviteRedeem (redemption : Buffer)
  | keyRotate (d : KeyRotate)
  | subspaceCreate (d : SubspaceCreate)
  | settingsSet (d : SettingsSet)
  | writerAdd (d : WriterAdd)
  | deviceRemove (d : DeviceRemove)
  | scoped (d : Scoped)
  | logsList (logs : List ListedLog)
  | typesSet (d : TypesSet)
  deriving DecidableEq, Repr

/-- The name of a decision's type. -/
def Body.type : Body → String
  | .spaceInit _ => "space/init"
  | .memberAdd _ => "member/add"
  | .memberRemove _ => "member/remove"
  | .roleDefine _ => "role/define"
  | .roleSet _ => "role/set"
  | .moderate _ => "moderate"
  | .inviteCreate _ => "invite/create"
  | .inviteRevoke _ => "invite/revoke"
  | .inviteRedeem _ => "invite/redeem"
  | .keyRotate _ => "key/rotate"
  | .subspaceCreate _ => "subspace/create"
  | .settingsSet _ => "settings/set"
  | .writerAdd _ => "writer/add"
  | .deviceRemove _ => "device/remove"
  | .scoped _ => "scoped"
  | .logsList _ => "logs/list"
  | .typesSet _ => "types/set"

structure Decision where
  stamp : Nat
  body : Body
  deriving DecidableEq, Repr

-- Invites and their redemptions

structure Invite where
  space : Key
  id : Buffer
  role : String
  uses : Nat
  expires : Nat
  subspaces : List Key
  maker : Key
  proof : Buffer
  deriving DecidableEq, Repr

structure Redemption where
  invite : Invite
  identity : Key
  writer : Key
  proof : Buffer
  deriving DecidableEq, Repr

-- Their formats

variable (c : Primitives)

def recordId : Codec RecordId :=
  (c.fixed32.pair c.uint).iso (fun (log, seq) => ⟨log, seq⟩) (fun id => (id.log, id.seq))
    (fun _ => rfl)

def cutEntry : Codec CutEntry :=
  (c.fixed32.pair c.uint).iso (fun (log, length) => ⟨log, length⟩)
    (fun entry => (entry.log, entry.length)) (fun _ => rfl)

def writeLimit : Codec WriteLimit :=
  (c.uint.pair c.uint).iso (fun (records, periodMs) => ⟨records, periodMs⟩)
    (fun limit => (limit.records, limit.periodMs)) (fun _ => rfl)

def listedLog : Codec ListedLog :=
  (c.fixed32.pair c.fixed32).iso (fun (space, log) => ⟨space, log⟩)
    (fun listed => (listed.space, listed.log)) (fun _ => rfl)

def optFixed32 : Codec (Option Key) := .optional c.bool c.fixed32

def optString : Codec (Option String) := .optional c.bool c.string

def optWriteLimit : Codec (Option WriteLimit) := .optional c.bool (writeLimit c)

def optTrailingStrings : Codec (Option (List String)) :=
  .trailing c.bool c.bool_wide (c.array c.string)

def optTrailingString : Codec (Option String) := .trailing c.bool c.bool_wide c.string

def optTrailingBool : Codec (Option Bool) := .trailing c.bool c.bool_wide c.bool

def spaceInit : Codec SpaceInit :=
  (c.string.pair ((optFixed32 c).pair
      (c.bool.pair (c.string.pair (c.uint.pair c.buffer))))).iso
    (fun (name, parent, priv, policy, version, proof) =>
      ⟨name, parent, priv, policy, version, proof⟩)
    (fun d => (d.name, d.parent, d.priv, d.policy, d.version, d.proof)) (fun _ => rfl)

def memberRemove : Codec MemberRemove :=
  (c.fixed32.pair (c.array (cutEntry c))).iso (fun (identity, cut) => ⟨identity, cut⟩)
    (fun d => (d.identity, d.cut)) (fun _ => rfl)

def roleDefine : Codec RoleDefine :=
  (c.string.pair (c.array c.string)).iso (fun (name, permissions) => ⟨name, permissions⟩)
    (fun d => (d.name, d.permissions)) (fun _ => rfl)

def roleSet : Codec RoleSet :=
  (c.fixed32.pair (c.string.pair (c.array (cutEntry c)))).iso
    (fun (identity, role, cut) => ⟨identity, role, cut⟩)
    (fun d => (d.identity, d.role, d.cut)) (fun _ => rfl)

def moderate : Codec Moderate :=
  (c.string.pair (c.buffer.pair (c.string.pair ((c.array (cutEntry c)).pair
      (optTrailingString c))))).iso
    (fun (action, target, reason, cut, drop) => ⟨action, target, reason, cut, drop⟩)
    (fun d => (d.action, d.target, d.reason, d.cut, d.drop)) (fun _ => rfl)

def keyRotate : Codec KeyRotate :=
  (c.uint.pair c.fixed32).iso (fun (epoch, commit) => ⟨epoch, commit⟩)
    (fun d => (d.epoch, d.commit)) (fun _ => rfl)

def subspaceCreate : Codec SubspaceCreate :=
  (c.fixed32.pair (c.string.pair (c.bool.pair (c.array c.string)))).iso
    (fun (key, name, priv, writeRoles) => ⟨key, name, priv, writeRoles⟩)
    (fun d => (d.key, d.name, d.priv, d.writeRoles)) (fun _ => rfl)

def settingsSet : Codec SettingsSet :=
  ((optString c).pair ((optWriteLimit c).pair ((optTrailingStrings c).pair
      ((optTrailingString c).pair ((optTrailingStrings c).pair (optTrailingBool c)))))).iso
    (fun (policy, writeLimit, rules, history, helpers, pub) =>
      ⟨policy, writeLimit, rules, history, helpers, pub⟩)
    (fun d => (d.policy, d.writeLimit, d.rules, d.history, d.helpers, d.pub)) (fun _ => rfl)

def writerAdd : Codec WriterAdd :=
  (c.fixed32.pair c.buffer).iso (fun (key, proof) => ⟨key, proof⟩)
    (fun d => (d.key, d.proof)) (fun _ => rfl)

def deviceRemove : Codec DeviceRemove :=
  (c.fixed32.pair (c.buffer.pair c.buffer)).iso
    (fun (device, cut, proof) => ⟨device, cut, proof⟩)
    (fun d => (d.device, d.cut, d.proof)) (fun _ => rfl)

def scopedDecision : Codec Scoped :=
  (c.fixed32.pair c.buffer).iso (fun (space, decision) => ⟨space, decision⟩)
    (fun d => (d.space, d.decision)) (fun _ => rfl)

def typesSet : Codec TypesSet :=
  (c.uint.pair c.string).iso (fun (version, types) => ⟨version, types⟩)
    (fun d => (d.version, d.types)) (fun _ => rfl)

/-- A decision's place in `DECISION_TYPES` and its encoded fields. -/
def encodeBody : Body → Nat × Bytes
  | .spaceInit d => (0, (spaceInit c).encode d)
  | .memberAdd identity => (1, c.fixed32.encode identity)
  | .memberRemove d => (2, (memberRemove c).encode d)
  | .roleDefine d => (3, (roleDefine c).encode d)
  | .roleSet d => (4, (roleSet c).encode d)
  | .moderate d => (5, (moderate c).encode d)
  | .inviteCreate invite => (6, c.buffer.encode invite)
  | .inviteRevoke invite => (7, c.buffer.encode invite)
  | .inviteRedeem redemption => (8, c.buffer.encode redemption)
  | .keyRotate d => (9, (keyRotate c).encode d)
  | .subspaceCreate d => (10, (subspaceCreate c).encode d)
  | .settingsSet d => (11, (settingsSet c).encode d)
  | .writerAdd d => (12, (writerAdd c).encode d)
  | .deviceRemove d => (13, (deviceRemove c).encode d)
  | .scoped d => (14, (scopedDecision c).encode d)
  | .logsList logs => (15, (c.array (listedLog c)).encode logs)
  | .typesSet d => (16, (typesSet c).encode d)

/-- The fields of the decision type at a place in `DECISION_TYPES`; none past its end. -/
def decodeBody : Nat → Bytes → Option (Body × Bytes)
  | 0, bytes => ((spaceInit c).decode bytes).map (Prod.map .spaceInit id)
  | 1, bytes => (c.fixed32.decode bytes).map (Prod.map .memberAdd id)
  | 2, bytes => ((memberRemove c).decode bytes).map (Prod.map .memberRemove id)
  | 3, bytes => ((roleDefine c).decode bytes).map (Prod.map .roleDefine id)
  | 4, bytes => ((roleSet c).decode bytes).map (Prod.map .roleSet id)
  | 5, bytes => ((moderate c).decode bytes).map (Prod.map .moderate id)
  | 6, bytes => (c.buffer.decode bytes).map (Prod.map .inviteCreate id)
  | 7, bytes => (c.buffer.decode bytes).map (Prod.map .inviteRevoke id)
  | 8, bytes => (c.buffer.decode bytes).map (Prod.map .inviteRedeem id)
  | 9, bytes => ((keyRotate c).decode bytes).map (Prod.map .keyRotate id)
  | 10, bytes => ((subspaceCreate c).decode bytes).map (Prod.map .subspaceCreate id)
  | 11, bytes => ((settingsSet c).decode bytes).map (Prod.map .settingsSet id)
  | 12, bytes => ((writerAdd c).decode bytes).map (Prod.map .writerAdd id)
  | 13, bytes => ((deviceRemove c).decode bytes).map (Prod.map .deviceRemove id)
  | 14, bytes => ((scopedDecision c).decode bytes).map (Prod.map .scoped id)
  | 15, bytes => ((c.array (listedLog c)).decode bytes).map (Prod.map .logsList id)
  | 16, bytes => ((typesSet c).decode bytes).map (Prod.map .typesSet id)
  | _, _ => none

def bodyFits : Body → Prop
  | .spaceInit d => (spaceInit c).Fits d
  | .memberAdd identity => c.fixed32.Fits identity
  | .memberRemove d => (memberRemove c).Fits d
  | .roleDefine d => (roleDefine c).Fits d
  | .roleSet d => (roleSet c).Fits d
  | .moderate d => (moderate c).Fits d
  | .inviteCreate invite => c.buffer.Fits invite
  | .inviteRevoke invite => c.buffer.Fits invite
  | .inviteRedeem redemption => c.buffer.Fits redemption
  | .keyRotate d => (keyRotate c).Fits d
  | .subspaceCreate d => (subspaceCreate c).Fits d
  | .settingsSet d => (settingsSet c).Fits d
  | .writerAdd d => (writerAdd c).Fits d
  | .deviceRemove d => (deviceRemove c).Fits d
  | .scoped d => (scopedDecision c).Fits d
  | .logsList logs => (c.array (listedLog c)).Fits logs
  | .typesSet d => (typesSet c).Fits d

/-- A decision's fields are read back under its own type, by the law of their format. -/
theorem decodeBody_encodeBody (body : Body) (rest : Bytes) (fits : bodyFits c body)
    : decodeBody c (encodeBody c body).1 ((encodeBody c body).2 ++ rest)
      = some (body, rest) := by
  cases body <;>
    simp only [encodeBody, decodeBody, Codec.decode_encode _ _ _ fits, Option.map_some,
      Prod.map_apply, id_eq]

def decision : Codec Decision where
  encode d :=
    c.uint.encode (encodeBody c d.body).1 ++ (c.uint.encode d.stamp ++ (encodeBody c d.body).2)
  decode bytes := do
    let (type, rest) ← c.uint.decode bytes
    let (stamp, rest) ← c.uint.decode rest
    let (body, rest) ← decodeBody c type rest
    return (⟨stamp, body⟩, rest)
  Fits d := c.uint.Fits (encodeBody c d.body).1 ∧ c.uint.Fits d.stamp ∧ bodyFits c d.body
  decode_encode d rest fits := by
    simp [List.append_assoc, c.uint.decode_encode _ _ fits.1,
      c.uint.decode_encode _ _ fits.2.1, decodeBody_encodeBody c d.body rest fits.2.2]

/-- What an invite's signature covers of it: all of it but the signature. -/
def inviteBody : Codec (Key × Buffer × String × Nat × Nat × List Key × Key) :=
  c.fixed32.pair (c.buffer.pair (c.string.pair (c.uint.pair (c.uint.pair
    ((c.array c.fixed32).pair c.fixed32)))))

def Invite.body (inv : Invite) : Key × Buffer × String × Nat × Nat × List Key × Key :=
  (inv.space, inv.id, inv.role, inv.uses, inv.expires, inv.subspaces, inv.maker)

def invite : Codec Invite :=
  ((inviteBody c).pair c.buffer).iso
    (fun ((space, id, role, uses, expires, subspaces, maker), proof) =>
      ⟨space, id, role, uses, expires, subspaces, maker, proof⟩)
    (fun inv => (inv.body, inv.proof)) (fun _ => rfl)

def redemption : Codec Redemption :=
  ((invite c).pair (c.fixed32.pair (c.fixed32.pair c.buffer))).iso
    (fun (invite, identity, writer, proof) => ⟨invite, identity, writer, proof⟩)
    (fun r => (r.invite, r.identity, r.writer, r.proof)) (fun _ => rfl)

/-- A field's bytes read as one value; `null` throws, which every caller catches. -/
def readBuffer {α : Type} (codec : Codec α) (buffer : Buffer) : Option α :=
  buffer.bind codec.read

end Encodings

end Hypergraph
