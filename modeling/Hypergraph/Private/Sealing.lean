import Hypergraph.Fields.Later
import Hypergraph.Indexer.Gate
import Hypergraph.Private.KeyLinks

/-! Records sealed with an epoch's key (`payload`, `envelope`, `sealRecord` and `openRecord` of
`lib/private/crypto.js`), and how a block of a private space is checked (`checkRecord` in
`lib/gate.js`, `#unseal` in `lib/space.js`), in bytes: what a box holds is whatever who has the key
put into it.
-/

namespace Hypergraph.Private

open Wire Js Encodings Fields Indexer

-- What is sealed

section Formats

variable (c : Primitives)

/-- A record's fields and links, as they are sealed. -/
structure Payload where
  fields : Bytes
  links : List Buffer
  deriving DecidableEq, Repr

def payload (content : Payload) : Bytes :=
  c.buffer.encode (some content.fields) ++ (c.array c.buffer).encode content.links

/-- No fields are read as `null`, which stands for none. -/
def readPayload (bytes : Bytes) : Option Payload := do
  let (fields, rest) ← c.buffer.decode bytes
  let (links, _) ← (c.array c.buffer).decode rest
  return ⟨fields.getD [], links⟩

def commitBytes : Nat := 8

/-- `commit`: the first bytes of the key's commitment, which key it is. -/
structure Envelope where
  epoch : Nat
  commit : Bytes
  nonce : Bytes
  box : Buffer
  deriving DecidableEq, Repr

def envelope (env : Envelope) : Bytes :=
  c.uint.encode env.epoch ++ (env.commit ++ (env.nonce ++ c.buffer.encode env.box))

def readEnvelope (bytes : Bytes) : Option Envelope := do
  let (epoch, rest) ← c.uint.decode bytes
  let (commit, rest) ← readBytes commitBytes rest
  let (nonce, rest) ← readBytes nonceBytes rest
  let (box, _) ← c.buffer.decode rest
  return ⟨epoch, commit, nonce, box⟩

/-- What a box is bound to: the space, and the block it is written in. -/
def recordAD (s : Sodium) (space log : Bytes) (seq epoch : Nat) : Bytes :=
  s.hash (utf8 "hypergraph/record\x00" ++ space ++ log
    ++ utf8 ("\x00" ++ toString seq ++ "\x00" ++ toString epoch))

/-- A record's fields and links sealed with an epoch's key: the bytes that take the place of its
fields.
-/
def sealRecord (s : Sodium) (nonce key : Bytes) (epoch : Nat) (ad : Bytes) (content : Payload)
    : Option Bytes :=
  if key.length ≠ keyBytes then none
  else some (envelope c
    ⟨epoch, shortCommit (commitOf s key), nonce, some (s.encrypt key nonce ad (payload c content))⟩)

/-- The epoch and the key's commitment, in short form, that a sealed record's bytes name. -/
def sealedWith (sealed : Bytes) : Option (Nat × Bytes) :=
  (readEnvelope c sealed).map fun env => (env.epoch, env.commit)

/-- What a sealed record holds, if its key, what it is bound to and its box are right. -/
def openRecord (s : Sodium) (key ad sealed : Bytes) : Option Payload := do
  let env ← readEnvelope c sealed
  let box ← env.box
  if box.length < tagBytes then none
  else readPayload c (← s.decrypt key env.nonce ad box)

end Formats

-- Fields whose links may be missing

section Decoding

variable (p : Packages)

/-- `c.decode` of a field: a link of no bytes is `null`, and none a field may point at. -/
def decodeField (kind : Kind) (bytes : Bytes) (links : List Buffer) : Option FieldValue :=
  if kind = .link then do
    let place ← p.uint.read bytes
    let id ← (links[place]?).join
    return .link (p.z32 id)
  else decodeValue p kind bytes

def readEntry (fields : FieldList) (links : List Buffer) (out : Values) (entry : FieldEntry)
    : Option Values :=
  match fields.numbered entry.1 with
  | none => some out
  | some (name, kind) =>
      (decodeField p kind entry.2 links).map fun value => Function.update out name (some value)

def decodeIn (fields : FieldList) (links : List Buffer) : Nat → Bytes → Values → Option Values
  | _, [], out => some out
  | 0, _ :: _, _ => none
  | rounds + 1, bytes, out => do
      let (entry, _, rest) ← nextEntry p bytes
      let out ← readEntry p fields links out entry
      decodeIn fields links rounds rest out

def decode (fields : FieldList) (bytes : Bytes) (links : List Buffer) : Option Values :=
  decodeIn p fields links bytes.length bytes fun _ => none

section Present

variable {p} {fields : FieldList} {links : List Bytes}

theorem readEntry_present {out : Values} {entry : FieldEntry}
    : readEntry p fields (links.map some) out entry = Fields.readEntry p fields links out entry := by
  have present (place : Nat) : ((links.map some)[place]?).join = links[place]? := by
    rw [List.getElem?_map]
    cases links[place]? <;> rfl
  unfold readEntry Fields.readEntry
  cases fields.numbered entry.1 with
  | none => rfl
  | some field =>
      dsimp only
      unfold decodeField Fields.decodeField
      simp only [present]

/-- Where no link is missing, a record's fields are read as a version's are; induction on the rounds. -/
theorem decode_present {bytes : Bytes}
    : decode p fields bytes (links.map some) = Fields.decode p fields ⟨bytes, links⟩ := by
  have each (rounds : Nat) : ∀ bytes out,
      decodeIn p fields (links.map some) rounds bytes out = Fields.decodeIn p fields links rounds bytes out := by
    induction rounds with
    | zero => exact fun bytes out => by cases bytes <;> rfl
    | succ rounds ih =>
        intro bytes out
        cases bytes with
        | nil => rfl
        | cons byte rest =>
            unfold decodeIn Fields.decodeIn
            simp only [readEntry_present, ih]
  exact each ..

end Present

end Decoding

-- Opening and checking

/-- A record as it counts. `unreadable`: a put written in the clear in a private space. -/
structure Opened extends Record where
  unreadable : Bool
  deriving DecidableEq

/-- What `#unseal` gives: nothing while its key isn't here, `false` where it must not count. -/
inductive Unsealed
  | locked
  | refused
  | opened (record : Opened)
  deriving DecidableEq

/-- The keys a device holds of a space, by the short form of their commitment. -/
structure Holder where
  space : Key
  /-- Is the space private? -/
  priv : Bool
  history : String
  epochKeys : Dict Bytes Bytes
  epochOf : Dict Bytes Nat

/-- A history hidden from this device: sealed before the first key it got. -/
def Holder.hidden (h : Holder) (epoch : Nat) : Bool :=
  h.history = "hidden" && (h.epochOf.entries.map Prod.snd).min?.any fun first => epoch < first

/-- Why a block isn't taken; `locked` where its key may still come. -/
structure Refusal where
  reason : String
  locked : Bool := false
  deriving DecidableEq, Repr

section Checking

variable (p : Packages) (s : Sodium)

/-- `#unseal` of a record in a log's block. -/
def Holder.unseal (h : Holder) (log : Key) (seq : Nat) (record : Record) : Unsealed :=
  if !h.priv || Space.PLAIN.contains record.type || record.kind = .delete then
    if record.sealed then .refused else .opened { record with unreadable := false }
  else if !record.sealed then
    if record.kind = .put then
      .opened { record with fields := [], links := [], unreadable := true }
    else .refused
  else
    match sealedWith p.toPrimitives record.fields with
    | none => .refused
    | some (epoch, commit) =>
        match h.epochKeys.get? commit with
        | none => if h.hidden epoch then .refused else .locked
        | some key =>
            match openRecord p.toPrimitives s key (recordAD s h.space log seq epoch) record.fields with
            | none => .refused
            | some content => .opened
                { record with
                  fields := content.fields
                  links := content.links
                  sealed := false
                  unreadable := false }

/-- `types.decode` of a type declared: none where it throws. -/
def decodeTyped (decl : TypeDecl) (fields : Bytes) (links : List Buffer) : Option Values :=
  (Space.fieldList decl).bind fun list => decode p list fields links

/-- `checkRecord`, with what opens a record if there is any: the record as it counts and its values, which it
has none of if its type isn't known or it can't be read.
-/
def checkRecord (bytes : Bytes) (types : Types) (open_ : Option (Record → Unsealed))
    : Except Refusal (Opened × Option Values) :=
  match decodeRecord p.toPrimitives bytes with
  | none => .error { reason := "malformed" }
  | some record =>
      if decide (record.kind = .put) = record.target.isSome then
        .error { reason := "target on a put, or none on a change" }
      else
        match open_.elim (.opened { record with unreadable := false }) (· record) with
        | .locked => .error { reason := "locked", locked := true }
        | .refused => .error { reason := "does not open" }
        | .opened opened =>
            if opened.unreadable then .ok (opened, none)
            else
              match types.types.get? opened.type with
              | none => .ok (opened, none)
              | some decl =>
                  if opened.kind = .delete then .ok (opened, some fun _ => none)
                  else
                    match decodeTyped p decl opened.fields opened.links with
                    | none => .error { reason := "fields do not decode" }
                    | some values => .ok (opened, some values)

/-- A block of a space's log, as its readers check it. -/
def Holder.check (h : Holder) (types : Types) (log : Key) (seq : Nat) (bytes : Bytes)
    : Except Refusal (Opened × Option Values) :=
  checkRecord p bytes types (some (h.unseal p s log seq))

end Checking

-- Checked as in the clear

/-- Does a link decode as a record id? -/
def IsRecordId (c : Primitives) (link : Buffer) : Prop := (readBuffer (recordId c) link).isSome = true

section Alike

variable (p : Packages) (s : Sodium) (h : Holder) (types : Types) (log : Key) (seq : Nat)

/-- What `checkRecord` asks of an opened record, its links apart. -/
def takes (record : Opened) : Bool :=
  decide (record.kind = .put) ≠ record.target.isSome
    && match types.types.get? record.type with
      | none => true
      | some decl =>
          record.kind = .delete || (decodeTyped p decl record.fields record.links).isSome

/-- A block holds a sealed record, and opens. -/
def Opens (bytes : Bytes) (opened : Opened) : Prop :=
  ∃ record, decodeRecord p.toPrimitives bytes = some record ∧ record.sealed = true
    ∧ h.unseal p s log seq record = .opened opened

/-- A sealed record's block is taken just where a block that holds it in the clear is, in a space
that isn't private, and a record taken has record ids as links.
-/
structure AsInClear (bytes : Bytes) : Prop where
  alike
    : ∀ opened, Opens p s h log seq bytes opened
        → ∀ clear, clear.length ≤ MAX_RECORD → readRecord p.toPrimitives clear = some opened.toRecord
          → ((h.check p s types log seq bytes).isOk = true
              ↔ (({ h with priv := false } : Holder).check p s types log seq clear).isOk = true)
  links
    : ∀ record values, h.check p s types log seq bytes = .ok (record, values)
        → ∀ link ∈ record.links, IsRecordId p.toPrimitives link

end Alike

section Checked

variable {p : Packages} {s : Sodium} {h : Holder} {types : Types} {log : Key} {seq : Nat}
  {bytes : Bytes} {record : Record} {opened : Opened}

/-- What opens is as it was written, or a put written in the clear where it mustn't be, or a sealed
record with what its box holds.
-/
theorem unseal_eq_opened (opens : h.unseal p s log seq record = .opened opened)
    : record.sealed = false ∧ opened = { record with unreadable := false }
      ∨ record.sealed = false ∧ opened.links = [] ∧ opened.unreadable = true
      ∨ record.sealed = true ∧ ∃ (content : Payload), opened =
          { record with
            fields := content.fields
            links := content.links
            sealed := false
            unreadable := false } := by
  unfold Holder.unseal at opens
  split at opens
  · split at opens
    · cases opens
    · rename_i clear
      cases opens
      exact .inl ⟨by simpa using clear, rfl⟩
  · split at opens
    · rename_i clear
      split at opens
      · cases opens
        exact .inr (.inl ⟨by simpa using clear, rfl, rfl⟩)
      · cases opens
    · rename_i boxed
      split at opens
      · cases opens
      · split at opens
        · split at opens <;> cases opens
        · split at opens
          · cases opens
          · rename_i content _
            cases opens
            exact .inr (.inr ⟨by simpa using boxed, content, rfl⟩)

/-- A block that decodes is no longer than may be, and its target and links are record ids. -/
theorem decodeRecord_eq_some
    : decodeRecord p.toPrimitives bytes = some record
      ↔ bytes.length ≤ MAX_RECORD ∧ readRecord p.toPrimitives bytes = some record
        ∧ (record.target.isSome = true → IsRecordId p.toPrimitives record.target)
        ∧ ∀ link ∈ record.links, IsRecordId p.toPrimitives link := by
  unfold decodeRecord
  simp only [IsRecordId, ← Option.isNone_eq_false_iff]
  split
  · rename_i short
    cases read : readRecord p.toPrimitives bytes with
    | none => simp
    | some found =>
        simp only [Option.bind_eq_bind, Option.bind_some]
        split_ifs with target links
        · constructor
          · exact nofun
          · rintro ⟨_, same, id, _⟩
            cases same
            rw [id target.1] at target
            cases target.2
        · constructor
          · exact nofun
          · rintro ⟨_, same, _, ids⟩
            cases same
            obtain ⟨link, mem, none_⟩ := List.any_eq_true.mp links
            rw [ids link mem] at none_
            cases none_
        · constructor
          · intro same
            cases same
            refine ⟨short, rfl, fun is => ?_, fun link mem => ?_⟩
            · exact Bool.eq_false_iff.mpr fun none_ => target ⟨is, none_⟩
            · exact Bool.eq_false_iff.mpr fun none_ => links (List.any_eq_true.mpr ⟨link, mem, none_⟩)
          · exact fun all => all.2.1
  · rename_i long
    simp [long]

/-- A block that opens, and doesn't stay unreadable, is taken just where its record is. -/
theorem check_isOk (decoded : decodeRecord p.toPrimitives bytes = some record)
    (opens : h.unseal p s log seq record = .opened opened) (readable : opened.unreadable = false)
    (target : opened.target = record.target) (kind : opened.kind = record.kind)
    : (h.check p s types log seq bytes).isOk = takes p types opened := by
  unfold Holder.check checkRecord takes
  simp only [decoded, Option.elim, opens, readable, target, kind]
  by_cases put : decide (record.kind = .put) = record.target.isSome
  · rw [if_pos put]
    simp [put, Except.isOk, Except.toBool]
  · have apart : decide (decide (record.kind = .put) ≠ record.target.isSome) = true :=
      decide_eq_true put
    rw [if_neg put, apart, Bool.true_and]
    cases types.types.get? opened.type with
    | none => rfl
    | some decl =>
        dsimp only
        by_cases delete : record.kind = .delete
        · rw [if_pos delete, delete]
          rfl
        · rw [if_neg delete, decide_eq_false delete, Bool.false_or]
          cases decodeTyped p decl opened.fields opened.links <;> rfl

/-- What is taken is what opened. -/
theorem opened_of_ok {values : Option Values} (taken : h.check p s types log seq bytes = .ok (opened, values))
    : ∃ record, decodeRecord p.toPrimitives bytes = some record
        ∧ h.unseal p s log seq record = .opened opened := by
  unfold Holder.check checkRecord at taken
  cases decoded : decodeRecord p.toPrimitives bytes with
  | none =>
      rw [decoded] at taken
      cases taken
  | some record =>
      refine ⟨record, rfl, ?_⟩
      simp only [decoded, Option.elim] at taken
      split at taken
      · cases taken
      · split at taken
        · cases taken
        · cases taken
        · rename_i found opens
          rw [opens]
          split at taken
          · cases taken
            rfl
          · split at taken
            · cases taken
              rfl
            · split at taken
              · cases taken
                rfl
              · split at taken <;> cases taken
                rfl

theorem unseal_clear (clear : opened.sealed = false) (readable : opened.unreadable = false)
    : ({ h with priv := false } : Holder).unseal p s log seq opened.toRecord = .opened opened := by
  obtain ⟨record, unreadable⟩ := opened
  cases readable
  unfold Holder.unseal
  simp only [Bool.not_false, Bool.true_or, if_true]
  rw [if_neg (by rw [clear]; decide)]

/-- A sealed record is checked as it would be in the clear just where every link in its box is a
record id, or it isn't taken anyway, for its target or its fields.
-/
theorem asInClear_iff
    : AsInClear p s h types log seq bytes
      ↔ ∀ opened, Opens p s h log seq bytes opened → takes p types opened = true
          → ∀ link ∈ opened.links, IsRecordId p.toPrimitives link := by
  -- a sealed record that opens is taken just where the rest of it is
  have taken {opened : Opened} (opens : Opens p s h log seq bytes opened)
      : (h.check p s types log seq bytes).isOk = takes p types opened
        ∧ opened.sealed = false ∧ opened.unreadable = false
        ∧ (opened.target.isSome = true → IsRecordId p.toPrimitives opened.target) := by
    obtain ⟨record, decoded, boxed, opens⟩ := opens
    rcases unseal_eq_opened opens with ⟨clear, _⟩ | ⟨clear, _⟩ | ⟨_, content, rfl⟩
    · rw [clear] at boxed
      cases boxed
    · rw [clear] at boxed
      cases boxed
    · exact ⟨check_isOk decoded opens rfl rfl rfl, rfl, rfl, (decodeRecord_eq_some.mp decoded).2.2.1⟩
  constructor
  · intro whole opened opens takes_
    have ok := (taken opens).1.trans takes_
    cases result : h.check p s types log seq bytes with
    | error refusal =>
        rw [result] at ok
        cases ok
    | ok found =>
        obtain ⟨found, values⟩ := found
        obtain ⟨record, decoded, opens'⟩ := opened_of_ok result
        obtain ⟨record', decoded', _, opens⟩ := opens
        cases decoded.symm.trans decoded'
        cases opens.symm.trans opens'
        exact whole.links _ _ result
  · intro ids
    constructor
    · intro opened opens clear short read
      obtain ⟨ok, clearly, readable, target⟩ := taken opens
      have opens' := @unseal_clear p s h log seq opened clearly readable
      rw [ok]
      cases decoded : decodeRecord p.toPrimitives clear with
      | none =>
          -- a block malformed for its links alone holds nothing that is taken sealed
          have refused : ¬ takes p types opened = true := by
            intro takes_
            have whole := decodeRecord_eq_some.mpr ⟨short, read, target, ids opened opens takes_⟩
            rw [decoded] at whole
            cases whole
          have malformed : (({ h with priv := false } : Holder).check p s types log seq clear).isOk
              = false := by
            unfold Holder.check checkRecord
            rw [decoded]
            rfl
          rw [malformed]
          simpa using refused
      | some record =>
          cases (decodeRecord_eq_some.mp decoded).2.1.symm.trans read
          rw [check_isOk decoded opens' readable rfl rfl]
    · intro found values result
      obtain ⟨record, decoded, opens⟩ := opened_of_ok result
      rcases unseal_eq_opened opens with ⟨_, rfl⟩ | ⟨_, none_, _⟩ | ⟨boxed, _⟩
      · exact (decodeRecord_eq_some.mp decoded).2.2.2
      · rw [none_]
        exact nofun
      · have opens' : Opens p s h log seq bytes found := ⟨record, decoded, boxed, opens⟩
        refine ids found opens' ?_
        rw [← (taken opens').1, result]
        rfl

end Checked

-- A link that is no record id

def ballotTypes : Dict String Declaration :=
  .ofList [("vote", { fields := .ofList [("on", "link")], onePerMember := true })]

/-- A member of a private space, who holds its only key. -/
def keyHolder : Holder where
  space := [1]
  priv := true
  history := "visible"
  epochKeys := .ofList [(shortCommit Forged.newKey, Forged.newKey)]
  epochOf := .ofList [(shortCommit Forged.newKey, 0)]

/-- A vote on what is no record's id. -/
def strayVote : Payload := ⟨[1, 1, 0], [some [9, 9, 9]]⟩

def strayOpened : Opened :=
  ⟨⟨.put, "vote", 5, none, false, strayVote.links, strayVote.fields⟩, false⟩

/-- The vote as a member who holds the key seals it. -/
def straySealed : Bytes :=
  (do
    let sealed ← sealRecord compact Forged.sodium (List.replicate nonceBytes 0) Forged.newKey 0
      (recordAD Forged.sodium keyHolder.space [3] 1 0) strayVote
    encodeRecord compact ⟨.put, "vote", 5, none, true, [], sealed⟩).getD []

def strayClear : Bytes := (encodeRecord compact strayOpened.toRecord).getD []

/-- What a block taken votes on. -/
def votesOn (result : Except Refusal (Opened × Option Values)) : Option Str :=
  match result with
  | .ok (_, some values) =>
      match values "on" with
      | some (.link text) => some text
      | _ => none
  | _ => none

def voting : Types := (Types.new ballotTypes).toOption.getD ⟨.empty⟩

/-- The sealed block is taken with the stray link, the one in the clear isn't. -/
theorem stray_seen
    : (keyHolder.check compactPackages Forged.sodium voting [3] 1 straySealed).toOption.map Prod.fst
        = some strayOpened
      ∧ (votesOn (keyHolder.check compactPackages Forged.sodium voting [3] 1 straySealed)).any
        (fun text => (idFromString compactPackages text).isNone) = true
      ∧ (({ keyHolder with priv := false } : Holder).check compactPackages Forged.sodium voting [3] 1
        strayClear).isOk = false
      ∧ strayClear.length ≤ MAX_RECORD
      ∧ readRecord compact strayClear = some strayOpened.toRecord
      ∧ (readBuffer (recordId compact) (some [9, 9, 9])).isSome = false := by
  decide +kernel

/-- A member who holds the key seals a vote on what is no record's id: it is taken, where in the clear
it is refused, and the id it votes on is none the index could use.
-/
theorem stray_link_taken
    : (∃ values text,
        keyHolder.check compactPackages Forged.sodium voting [3] 1 straySealed
            = .ok (strayOpened, some values)
          ∧ values "on" = some (.link text) ∧ idFromString compactPackages text = none)
      ∧ (strayClear.length ≤ MAX_RECORD
        ∧ readRecord compact strayClear = some strayOpened.toRecord
        ∧ (({ keyHolder with priv := false } : Holder).check compactPackages Forged.sodium voting [3] 1
          strayClear).isOk = false)
      ∧ ¬ AsInClear compactPackages Forged.sodium keyHolder voting [3] 1 straySealed := by
  obtain ⟨opened, stray, refused, short, read, noId⟩ := stray_seen
  have takes_ : ∃ values text,
      keyHolder.check compactPackages Forged.sodium voting [3] 1 straySealed
          = .ok (strayOpened, some values)
        ∧ values "on" = some (.link text) ∧ idFromString compactPackages text = none := by
    unfold votesOn at stray
    cases result : keyHolder.check compactPackages Forged.sodium voting [3] 1 straySealed with
    | error refusal =>
        rw [result] at opened
        cases opened
    | ok taken =>
        obtain ⟨found, values⟩ := taken
        rw [result] at opened stray
        cases opened
        cases values with
        | none => cases stray
        | some values =>
            cases on : values "on" with
            | none =>
                simp only [on] at stray
                cases stray
            | some value =>
                simp only [on] at stray
                cases value with
                | link text => exact ⟨values, text, rfl, on, by simpa using stray⟩
                | _ => cases stray
  refine ⟨takes_, ⟨short, read, refused⟩, fun whole => ?_⟩
  obtain ⟨values, _, result, _⟩ := takes_
  have id := whole.links strayOpened (some values) result (some [9, 9, 9]) (by decide)
  exact absurd (id.symm.trans noId) (by decide)

end Hypergraph.Private
