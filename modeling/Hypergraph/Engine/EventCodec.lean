import Hypergraph.Engine.Events

/-! Which events of the first engine come back from their bytes: all but changes of writers with a
signature and without an author or a time.
-/

namespace Hypergraph.Engine

open Wire

namespace Events

variable {Number : Type} {p : Primitives} {float64 : Codec Number}

-- What is read of what is written

section Read

variable {bytes rest : Bytes} {event read : Event Number} {signature : Option String}
  {text : String} {number time : Nat}

theorem read_uint (fits : p.uint.Fits number)
    : p.uint.decode (p.uint.encode number ++ rest) = some (number, rest) :=
  p.uint.decode_encode number rest fits

theorem read_string (fits : p.string.Fits text)
    : p.string.decode (p.string.encode text ++ rest) = some (text, rest) :=
  p.string.decode_encode text rest fits

theorem read_signed (documented : Documented p) (hex : IsHex signature)
    : readSignature p (signed p signature ++ rest) = some (required signature, rest) := by
  have back (bytes : Bytes) (small : bytes.length < 2 ^ 53) :=
    p.buffer.decode_encode (some bytes) rest (documented.buffer_fits bytes small)
  cases told : required signature with
  | none => simp [readSignature, signed, told, back [] (by decide)]
  | some text =>
      obtain ⟨bytes, filled, small, rfl⟩ := hex text told
      have long : 0 < bytes.length := List.length_pos_iff.mpr filled
      simp [readSignature, signed, told, fromHex_toHex, back bytes small, long]

theorem read_signed_end (documented : Documented p) (hex : IsHex signature)
    : readSignature p (signed p signature) = some (required signature, []) := by
  have read : readSignature p (signed p signature ++ []) = _ := read_signed documented hex
  rwa [List.append_nil] at read

theorem comesBack_iff_of_read (is : decode p float64 bytes = some (.event read))
    : ComesBack p float64 bytes event ↔ read.normal = event.normal := by
  simp [ComesBack, decodeEvent, is]

theorem required_required (text : Option String) : required (required text) = required text := by
  simp [required, Option.filter_filter]

theorem required_getD (text : Option String) : required (some (text.getD "")) = required text := by
  cases text with
  | none => simp [required]
  | some text => rfl

theorem required_eq {text : Option String} {told : String} (is : required text = some told)
    : required (some told) = some told := by
  rw [← is, required_required] 

/-- What is read of an event is what is read of its fields. -/
theorem decode_encodeBefore (documented : Documented p) (written : Written p float64 event)
    (fields : Nat)
    : decode p float64 (encodeBefore p float64 fields event)
      = decodeBody p float64 (code event.body) (event.timestamp.getD 0)
          (fixed p event.timestamp event.body
            ++ ((trailing p float64 event.timestamp event.body).take fields).flatten) := by
  have type : p.uint.Fits (code event.body) := by
    refine documented.uint _ (lt_of_le_of_lt (b := 19) ?_ (by decide))
    cases event.body with
    | tag op => cases op <;> simp [code]
    | writer op => cases op <;> simp [code]
    | _ => simp [code]
  have time : p.uint.Fits (event.timestamp.getD 0) := by
    cases told : event.timestamp with
    | none => exact documented.uint 0 (by decide)
    | some timestamp => exact written.numbers timestamp (by simp [numbers, told])
  simp only [decode, encodeBefore, List.append_assoc, read_uint type, read_uint time,
    Option.bind_eq_bind, Option.bind_some]

/-- The same of an event without optional fields after the others. -/
theorem decode_encodeBefore_fixed (documented : Documented p) (written : Written p float64 event)
    (fields : Nat) (all : trailing p float64 event.timestamp event.body = [])
    : decode p float64 (encodeBefore p float64 fields event)
      = decodeBody p float64 (code event.body) (event.timestamp.getD 0)
          (fixed p event.timestamp event.body) := by
  rw [decode_encodeBefore documented written, all, List.take_nil, List.flatten_nil, List.append_nil]

theorem small (documented : Documented p) {number : Nat} (le : number ≤ 1) : p.uint.Fits number :=
  documented.uint number (lt_of_le_of_lt le (by decide))

theorem fits_getD (documented : Documented p) {text : Option String}
    (fits : ∀ told, text = some told → p.string.Fits told)
    : p.string.Fits (text.getD "") := by
  cases text with
  | none => exact documented.empty
  | some text => exact fits text rfl

-- `simp` reads what was written, field by field.
attribute [local simp] fixed trailing code List.append_assoc read_uint read_string orEmpty
  Codec.decode_encode_nil

-- What `simp` is told of the texts and numbers written.
attribute [local simp] Events.texts Events.numbers signatures List.forall_mem_append

/-! Events with a place for a signature. -/

theorem decodeBody_relationDelete (documented : Documented p)
    {source target relationType author : String} {createdAt : Nat}
    (is : event.body = .relationDelete source target relationType author createdAt signature)
    (written : Written p float64 event) (time : Nat)
    : decodeBody p float64 5 time (fixed p event.timestamp event.body)
      = some (.event ⟨some time,
          .relationDelete source target relationType author createdAt (required signature)⟩) := by
  have texts := written.texts
  have numbers := written.numbers
  have hex := written.signatures signature (by simp [is])
  simp [is] at texts numbers
  simp [is, decodeBody, readRelationDelete, texts, numbers, read_signed_end documented hex]

theorem decodeBody_tag (documented : Documented p) {op : TagOp} {entityId tag author : String}
    (is : event.body = .tag op entityId tag author signature)
    (written : Written p float64 event) (time : Nat)
    : decodeBody p float64 (code event.body) time (fixed p event.timestamp event.body)
      = some (.event ⟨some time, .tag op entityId tag author (required signature)⟩) := by
  have texts := written.texts
  have hex := written.signatures signature (by simp [is])
  simp [is] at texts
  cases op <;> simp [is, decodeBody, readTag, texts, read_signed_end documented hex]

theorem decodeBody_moderationAction (documented : Documented p) {version : Nat}
    {action target author : String} {reason context : Option String}
    (is : event.body = .moderationAction version action target reason context author signature)
    (written : Written p float64 event) (time : Nat)
    : decodeBody p float64 11 time (fixed p event.timestamp event.body)
      = some (.event ⟨event.timestamp, .moderationAction version action target
          (required reason) (required context) author (required signature)⟩) := by
  obtain ⟨versioned, timed⟩ := written.action is
  obtain ⟨timestamp, timed⟩ := Option.isSome_iff_exists.mp timed
  have texts := written.texts
  have numbers := written.numbers
  have hex := written.signatures signature (by simp [is])
  simp [is, timed] at texts numbers
  have reason_ := fits_getD documented fun told is => texts.2.2.2 told (.inl is)
  have context_ := fits_getD documented fun told is => texts.2.2.2 told (.inr is)
  simp [is, timed, versioned, decodeBody, readModeration, texts, numbers, reason_, context_,
    read_signed_end documented hex, required_getD]

theorem decodeBody_contextWriter (documented : Documented p) {key author : String}
    {member : Option String}
    (is : event.body = .contextWriter key member author signature)
    (written : Written p float64 event) (time : Nat)
    : decodeBody p float64 15 time (fixed p event.timestamp event.body)
      = some (.event ⟨some time,
          .contextWriter key (some (member.getD "")) author (required signature)⟩) := by
  have texts := written.texts
  have hex := written.signatures signature (by simp [is])
  simp [is] at texts
  have member_ := fits_getD documented texts.2.2
  simp [is, decodeBody, readContextWriter, texts, member_, read_signed_end documented hex]

theorem decodeBody_contextRole (documented : Documented p) {member author : String}
    {role : Option String}
    (is : event.body = .contextRole member role author signature)
    (written : Written p float64 event) (time : Nat)
    : decodeBody p float64 16 time (fixed p event.timestamp event.body)
      = some (.event ⟨some time,
          .contextRole member (some (role.getD "")) author (required signature)⟩) := by
  have texts := written.texts
  have hex := written.signatures signature (by simp [is])
  simp [is] at texts
  have role_ := fits_getD documented texts.2.2
  simp [is, decodeBody, readContextRole, texts, role_, read_signed_end documented hex]

theorem decodeBody_contextInvite (documented : Documented p) {inviteKey author : String}
    {role : Option String} {uses : Nat} {request : Option ScopeRequest}
    (is : event.body = .contextInvite inviteKey role uses author signature request)
    (written : Written p float64 event) (fields time : Nat) (absent : AbsentFrom fields event.body)
    : decodeBody p float64 18 time (fixed p event.timestamp event.body
        ++ ((trailing p float64 event.timestamp event.body).take fields).flatten)
      = some (.event ⟨some time, .contextInvite inviteKey (some (role.getD "")) uses author
          (required signature) request⟩) := by
  have texts := written.texts
  have numbers := written.numbers
  have hex := written.signatures signature (by simp [is])
  simp [is] at texts numbers
  have role_ := fits_getD documented fun told is => texts.2.2 told (.inl is)
  rw [is] at absent
  simp [is, decodeBody, readInvite, texts, numbers, role_, read_signed documented hex]
  cases request with
  | none => cases fields <;> simp
  | some request =>
      obtain ⟨scope, scopeBase, roleBase⟩ := request
      have named : scope ≠ "" := written.request is
      cases fields with
      | zero => cases absent rfl
      | succ fields =>
          simp at texts
          simp [named, documented.string_wide, texts]

theorem decodeBody_contextRedeem (documented : Documented p) {inviteKey member key : String}
    {memberSignature encryptionKey : Option String}
    (is : event.body
      = .contextRedeem inviteKey member key signature memberSignature encryptionKey)
    (written : Written p float64 event) (fields time : Nat) (absent : AbsentFrom fields event.body)
    : decodeBody p float64 19 time (fixed p event.timestamp event.body
        ++ ((trailing p float64 event.timestamp event.body).take fields).flatten)
      = some (.event ⟨some time, .contextRedeem inviteKey member key
          (required signature) (required memberSignature) (required encryptionKey)⟩) := by
  have texts := written.texts
  have hex := written.signatures signature (by simp [is])
  have memberHex := written.signatures memberSignature (by simp [is])
  simp [is] at texts
  rw [is] at absent
  simp [is, decodeBody, readRedeem, texts, read_signed documented hex,
    read_signed documented memberHex]
  cases key : required encryptionKey with
  | none => cases fields <;> simp
  | some text =>
      obtain ⟨rfl, _⟩ := Registry.required_eq_some.mp key
      cases fields with
      | zero => cases (absent rfl).symm.trans key
      | succ fields =>
          simp at texts
          simp [documented.string_wide, texts]

theorem decodeBody_relationCreate (documented : Documented p)
    {source target relationType author : String} {value : Option Number} {data : Option String}
    (is : event.body = .relationCreate source target relationType author signature value data)
    (written : Written p float64 event) (fields time : Nat) (absent : AbsentFrom fields event.body)
    : decodeBody p float64 4 time (fixed p event.timestamp event.body
        ++ ((trailing p float64 event.timestamp event.body).take fields).flatten)
      = some (.event ⟨some time,
          .relationCreate source target relationType author (required signature) value data⟩) := by
  have texts := written.texts
  have hex := written.signatures signature (by simp [is])
  have zero : p.uint.Fits 0 := small documented (by decide)
  have one : p.uint.Fits 1 := small documented (by decide)
  have wide := documented.uint_wide
  simp [is] at texts
  rw [is] at absent
  simp [is, decodeBody, readRelation, texts, read_signed documented hex]
  rcases fields with _ | _ | fields
  · obtain rfl := absent.1 rfl
    obtain rfl := absent.2 (by decide)
    simp
  · obtain rfl := absent.2 (by decide)
    cases value with
    | none => simp [wide, zero]
    | some value => simp [wide, one, written.value is]
  · cases value with
    | none =>
        cases data with
        | none => simp [wide, zero]
        | some data => simp [wide, zero, one, texts]
    | some value =>
        have back := fun rest => float64.decode_encode value rest (written.value is)
        cases data with
        | none => simp [wide, one, written.value is]
        | some data => simp [wide, one, back, texts]

/-! Of a change of writers. -/

theorem readWriter_author (filled : bytes ≠ []) (is : p.string.decode bytes = some (text, rest))
    : (readWriter p time bytes).1 = some text := by
  simp only [readWriter, if_neg filled, is]
  split
  · rfl
  · split
    · rfl
    · split
      · rfl
      · split <;> rfl

variable (time) in
/-- A number that stands for no author is read as none, and nothing after it is, or as some. -/
theorem readWriter_unauthored (documented : Documented p) (fits : p.uint.Fits number)
    (positive : number ≠ 0) (rest : Bytes)
    : readWriter p time (p.uint.encode number ++ rest) = (none, time, none)
      ∨ number ≤ rest.length
        ∧ (required (readWriter p time (p.uint.encode number ++ rest)).1).isSome := by
  have filled : p.uint.encode number ++ rest ≠ [] := by simp [documented.uint_wide]
  cases is : p.string.decode (p.uint.encode number ++ rest) with
  | none => exact .inl (by simp [readWriter, documented.uint_wide, is])
  | some result =>
      obtain ⟨text, after⟩ := result
      obtain ⟨length, behind, told, enough, empty⟩ := documented.string _ _ _ is
      obtain ⟨rfl, rfl⟩ := Prod.mk.inj (Option.some.inj ((read_uint fits).symm.trans told))
      refine .inr ⟨enough, ?_⟩
      have named : text ≠ "" := fun is => positive (empty is)
      rw [readWriter_author filled is, Registry.required_eq_some.mpr ⟨rfl, named⟩]
      rfl

/-- A number that stands after the author is read as the time. -/
theorem readWriter_time (documented : Documented p) (told : p.string.Fits text)
    (fits : p.uint.Fits number) (rest : Bytes)
    : (readWriter p time (p.string.encode text ++ (p.uint.encode number ++ rest))).2.1
      = number := by
  simp only [readWriter, List.append_eq_nil_iff, documented.string_wide, documented.uint_wide,
    false_and, if_false, read_string told, read_uint fits]
  split
  · rfl
  · split <;> rfl

/-- The bytes of a signature. -/
theorem buffer_signature (documented : Documented p) (hex : IsHex signature)
    (told : required signature = some text)
    : ∃ length rest, p.uint.Fits length ∧ length ≠ 0
      ∧ p.buffer.encode (some (fromHex text)) = p.uint.encode length ++ rest := by
  obtain ⟨bytes, filled, small, rfl⟩ := hex text told
  refine ⟨bytes.length, bytes, documented.uint _ small, ?_, ?_⟩
  · simpa using filled
  · rw [fromHex_toHex, documented.buffer bytes small]

theorem readSignature_buffer (documented : Documented p) (hex : IsHex signature)
    (told : required signature = some text)
    : readSignature p (p.buffer.encode (some (fromHex text))) = some (some text, []) := by
  have read := read_signed_end documented hex
  rwa [signed, told] at read

theorem readWriter_nil : readWriter p time [] = (none, time, none) := by simp [readWriter]

theorem readWriter_number (documented : Documented p) (fits : p.uint.Fits number)
    (positive : number ≠ 0)
    : readWriter p time (p.uint.encode number) = (none, time, none) := by
  rcases readWriter_unauthored time documented fits positive [] with ended | ⟨enough, _⟩
  · simpa using ended
  · exact absurd (Nat.le_zero.mp enough) positive

theorem readWriter_text (documented : Documented p) (told : p.string.Fits text)
    : readWriter p time (p.string.encode text) = (some text, time, none) := by
  simp [readWriter, documented.string_wide, told]

theorem readWriter_text_number (documented : Documented p) (told : p.string.Fits text)
    (fits : p.uint.Fits number)
    : readWriter p time (p.string.encode text ++ p.uint.encode number)
      = (some text, number, none) := by
  simp [readWriter, documented.string_wide, documented.uint_wide, told, fits]

theorem readWriter_signed (documented : Documented p) (told : p.string.Fits text)
    (fits : p.uint.Fits number) (hex : IsHex signature) {sig : String}
    (is : required signature = some sig)
    : readWriter p time (p.string.encode text
        ++ (p.uint.encode number ++ p.buffer.encode (some (fromHex sig))))
      = (some text, number, some sig) := by
  obtain ⟨length, rest, _, _, split⟩ := buffer_signature documented hex is
  have wide : p.buffer.encode (some (fromHex sig)) ≠ [] := by simp [split, documented.uint_wide]
  simp [readWriter, documented.string_wide, documented.uint_wide, told, fits, wide,
    readSignature_buffer documented hex is]

theorem getD_given (timestamp : Option Nat) : timestamp.getD 0 = (given timestamp).getD 0 := by
  cases timestamp with
  | none => rfl
  | some time =>
      by_cases zero : time = 0 <;> simp [given, Option.filter, zero]

theorem given_eq_some {timestamp : Option Nat}
    : given timestamp = some time ↔ timestamp = some time ∧ time ≠ 0 := by
  simp [given, Option.filter_eq_some_iff]

/-- What is read of a change of writers is the same if and only if one with a signature has an
author and a time.
-/
theorem readWriter_iff (documented : Documented p) {op : WriterOp} {key : String}
    {author : Option String}
    (is : event.body = .writer op key author signature) (written : Written p float64 event)
    (fields : Nat) (absent : AbsentFrom fields event.body)
    {read : Option String × Nat × Option String}
    (reads : readWriter p (event.timestamp.getD 0)
      ((trailing p float64 event.timestamp event.body).take fields).flatten = read)
    : required read.1 = required author ∧ read.2.1 = event.timestamp.getD 0
        ∧ required read.2.2 = required signature
      ↔ complete event = true := by
  have texts := written.texts
  have numbers := written.numbers
  have hex := written.writer is
  have none_ : required none = none := rfl
  simp [is] at texts numbers
  rw [is] at absent
  have time_ := getD_given event.timestamp
  have stampFits {time : Nat} (some_ : given event.timestamp = some time)
      : p.uint.Fits time ∧ time ≠ 0 := by
    obtain ⟨stamp, positive⟩ := given_eq_some.mp some_
    exact ⟨numbers time stamp, positive⟩
  have authorFits {text : String} (named : required author = some text)
      : p.string.Fits text ∧ required (some text) = some text := by
    obtain ⟨told, _⟩ := Registry.required_eq_some.mp named
    exact ⟨texts.2 text told, told ▸ named⟩
  subst reads
  cases told : required signature with
  | none =>
      -- Without a signature each field is read, or what is read of it ends the reading.
      have fine : complete event = true := by simp [complete, is, told]
      rw [iff_true_right fine]
      cases named : required author with
      | none =>
          cases stamp : given event.timestamp with
          | none => rcases fields with _ | _ | _ | fields <;>
              simp [is, told, named, stamp, readWriter_nil, none_]
          | some time =>
              obtain ⟨fits, positive⟩ := stampFits stamp
              rcases fields with _ | _ | _ | fields <;>
                simp [is, told, named, stamp, readWriter_nil,
                  readWriter_number documented fits positive, none_]
      | some text =>
          obtain ⟨textFits, same⟩ := authorFits named
          cases stamp : given event.timestamp with
          | none =>
              rcases fields with _ | _ | _ | fields
              · cases (absent.1 rfl).symm.trans named
              all_goals
                simp [is, told, named, stamp, readWriter_text documented textFits, none_, same]
          | some time =>
              obtain ⟨fits, positive⟩ := stampFits stamp
              rw [stamp] at time_
              rcases fields with _ | _ | _ | fields
              · cases (absent.1 rfl).symm.trans named
              all_goals simp [is, told, named, stamp, readWriter_text documented textFits,
                readWriter_text_number documented textFits fits, none_, same, time_]
  | some sig =>
      -- With one, all the fields there are have been written.
      have all : 2 < fields := by
        by_contra few
        cases (absent.2 (by omega)).symm.trans told
      obtain ⟨fields, rfl⟩ := Nat.exists_eq_add_of_le' all
      have signed := required_eq told
      obtain ⟨length, rest, lengthFits, filled, split⟩ := buffer_signature documented hex told
      cases named : required author with
      | none =>
          have unfit : complete event ≠ true := by simp [complete, is, told, named]
          obtain ⟨number, rest, fits, positive, bytes⟩ : ∃ number rest,
              p.uint.Fits number ∧ number ≠ 0 ∧ ((trailing p float64 event.timestamp event.body).take (fields + 3)).flatten
                = p.uint.encode number ++ rest := by
            cases stamp : given event.timestamp with
            | none =>
                exact ⟨length, rest, lengthFits, filled, by simp [is, named, stamp, told, split]⟩
            | some time =>
                obtain ⟨fits, positive⟩ := stampFits stamp
                exact ⟨time, _, fits, positive, by simp [is, named, stamp, told]; rfl⟩
          refine iff_of_false (fun ⟨sameAuthor, _, sameSignature⟩ => ?_) unfit
          rw [bytes] at sameAuthor sameSignature
          rcases readWriter_unauthored (event.timestamp.getD 0) documented fits positive rest with
            ended | ⟨_, authored⟩
          · rw [ended] at sameSignature
            cases sameSignature
          · rw [sameAuthor] at authored
            cases authored
      | some text =>
          obtain ⟨textFits, same⟩ := authorFits named
          cases stamp : given event.timestamp with
          | none =>
              have unfit : complete event ≠ true := by simp [complete, is, told, named, stamp]
              rw [stamp] at time_
              refine iff_of_false (fun ⟨_, sameTime, _⟩ => filled ?_) unfit
              have bytes
                  : ((trailing p float64 event.timestamp event.body).take (fields + 3)).flatten
                    = p.string.encode text ++ (p.uint.encode length ++ rest) := by
                simp [is, named, stamp, told, split]
              rw [bytes, readWriter_time documented textFits lengthFits, time_] at sameTime
              exact sameTime
          | some time =>
              obtain ⟨fits, positive⟩ := stampFits stamp
              rw [stamp] at time_
              simp [is, complete, told, named, stamp,
                readWriter_signed documented textFits fits hex told, same, time_, signed]

/-! The rest are read always. -/

theorem decodeBody_contentAppend (documented : Documented p) {entityId contentType body : String}
    {encrypted : Option Encrypted}
    (is : event.body = .contentAppend entityId contentType body encrypted)
    (written : Written p float64 event) (fields time : Nat) (absent : AbsentFrom fields event.body)
    : decodeBody p float64 3 time (fixed p event.timestamp event.body
        ++ ((trailing p float64 event.timestamp event.body).take fields).flatten)
      = some (.event ⟨some time, .contentAppend entityId contentType body encrypted⟩) := by
  have texts := written.texts
  have numbers := written.numbers
  have zero : p.uint.Fits 0 := small documented (by decide)
  have one : p.uint.Fits 1 := small documented (by decide)
  simp [is] at texts numbers
  rw [is] at absent
  cases fields with
  | zero =>
      obtain rfl := absent rfl
      simp [is, decodeBody, readContent, texts]
  | succ fields =>
      cases encrypted with
      | none => simp [is, decodeBody, readContent, texts, documented.uint_wide, zero]
      | some encrypted =>
          simp [is, decodeBody, readContent, texts, numbers, documented.uint_wide, one]

theorem decodeBody_contextInit (documented : Documented p) {version : Nat}
    {rules owner : Option String} {layout : Option Nat}
    (is : event.body = .contextInit version rules owner layout)
    (written : Written p float64 event) (fields time : Nat) (absent : AbsentFrom fields event.body)
    : decodeBody p float64 14 time (fixed p event.timestamp event.body
        ++ ((trailing p float64 event.timestamp event.body).take fields).flatten)
      = some (.event ⟨some time,
          .contextInit version (some (rules.getD "")) (required owner) layout⟩) := by
  have texts := written.texts
  have numbers := written.numbers
  simp [is] at texts numbers
  have rules_ := fits_getD documented fun told is => texts told (.inl is)
  have owner_ := fits_getD documented fun told is => texts told (.inr is)
  have none_ : required none = none := rfl
  rw [is] at absent
  rcases fields with _ | _ | fields
  · obtain none_ := absent.1 rfl
    obtain rfl := absent.2 (by decide)
    simp [is, decodeBody, readInit, rules_, numbers, none_]
  · obtain rfl := absent.2 (by decide)
    cases owner with
    | none => simp [is, decodeBody, readInit, rules_, numbers, none_]
    | some owner =>
        simp [is, decodeBody, readInit, rules_, numbers, documented.string_wide, texts]
  · cases layout with
    | none =>
        cases owner with
        | none => simp [is, decodeBody, readInit, rules_, numbers, none_]
        | some owner =>
            simp [is, decodeBody, readInit, rules_, numbers, documented.string_wide, texts]
    | some layout =>
        simp [is, decodeBody, readInit, rules_, numbers, owner_, documented.string_wide,
          documented.uint_wide, required_getD]

theorem decodeBody_writer {op : WriterOp} {key : String} {author : Option String}
    (is : event.body = .writer op key author signature) (written : Written p float64 event)
    (fields : Nat) {read : Option String × Nat × Option String}
    (reads : readWriter p (event.timestamp.getD 0)
      ((trailing p float64 event.timestamp event.body).take fields).flatten = read)
    : decodeBody p float64 (code event.body) (event.timestamp.getD 0)
        (fixed p event.timestamp event.body
          ++ ((trailing p float64 event.timestamp event.body).take fields).flatten)
      = some (.event ⟨some read.2.1, .writer op key read.1 read.2.2⟩) := by
  have texts := written.texts
  simp [is] at texts
  rw [is] at reads
  subst reads
  cases op <;> simp [is, decodeBody, readWriterChange, texts]

/-- An event as it was written then comes back if and only if it is complete. -/
theorem comesBack_iff (documented : Documented p) (written : Written p float64 event) (fields : Nat)
    (absent : AbsentFrom fields event.body)
    : ComesBack p float64 (encodeBefore p float64 fields event) event ↔ complete event = true := by
  have is := decode_encodeBefore documented written fields
  have alone := decode_encodeBefore_fixed documented written fields
  have texts := written.texts
  have numbers := written.numbers
  obtain ⟨timestamp, body⟩ := event
  cases body with
  | entityCreate id entityType author | entityTombstone id author | message text username author =>
      simp at texts
      rw [comesBack_iff_of_read ((alone rfl).trans (by simp [decodeBody, texts]; rfl))]
      simp [Event.normal, complete]
  | contentAppend entityId contentType body encrypted =>
      have read := decodeBody_contentAppend documented rfl written fields (timestamp.getD 0) absent
      rw [comesBack_iff_of_read (is.trans read)]
      simp [Event.normal, complete]
  | relationCreate source target relationType author signature value data =>
      have read := decodeBody_relationCreate documented rfl written fields (timestamp.getD 0) absent
      rw [comesBack_iff_of_read (is.trans read)]
      simp [Event.normal, complete, required_required]
  | relationDelete source target relationType author createdAt signature =>
      have read := decodeBody_relationDelete documented rfl written (timestamp.getD 0)
      rw [comesBack_iff_of_read ((alone rfl).trans read)]
      simp [Event.normal, complete, required_required]
  | tag op entityId tag author signature =>
      have read := decodeBody_tag documented rfl written (timestamp.getD 0)
      rw [comesBack_iff_of_read ((alone rfl).trans read)]
      simp [Event.normal, complete, required_required]
  | identityUpdate author username bio =>
      simp at texts
      have bio_ := fits_getD documented texts.2.2
      rw [comesBack_iff_of_read ((alone rfl).trans (by simp [decodeBody, texts, bio_]; rfl))]
      simp [Event.normal, complete, required_getD, required_required]
  | writer op key author signature =>
      rw [comesBack_iff_of_read (is.trans (decodeBody_writer rfl written fields rfl)),
        ← readWriter_iff documented rfl written fields absent rfl]
      simp [Event.normal]
      tauto
  | moderationAction version action target reason context author signature =>
      obtain ⟨_, timed⟩ := written.action rfl
      have read := decodeBody_moderationAction documented rfl written (timestamp.getD 0)
      rw [comesBack_iff_of_read ((alone rfl).trans read)]
      simp [Event.normal, complete, required_required]
  | contextInit version rules owner layout =>
      have read := decodeBody_contextInit documented rfl written fields (timestamp.getD 0) absent
      rw [comesBack_iff_of_read (is.trans read)]
      simp [Event.normal, complete, required_getD, required_required]
  | contextWriter key member author signature =>
      have read := decodeBody_contextWriter documented rfl written (timestamp.getD 0)
      rw [comesBack_iff_of_read ((alone rfl).trans read)]
      simp [Event.normal, complete, required_required, required_getD]
  | contextRole member role author signature =>
      have read := decodeBody_contextRole documented rfl written (timestamp.getD 0)
      rw [comesBack_iff_of_read ((alone rfl).trans read)]
      simp [Event.normal, complete, required_required, required_getD]
  | contextUpgrade version owner =>
      simp at texts numbers
      rw [comesBack_iff_of_read ((alone rfl).trans (by simp [decodeBody, texts, numbers]; rfl))]
      simp [Event.normal, complete]
  | contextInvite inviteKey role uses author signature request =>
      have read := decodeBody_contextInvite documented rfl written fields (timestamp.getD 0) absent
      rw [comesBack_iff_of_read (is.trans read)]
      simp [Event.normal, complete, required_required, required_getD]
  | contextRedeem inviteKey member key signature memberSignature encryptionKey =>
      have read := decodeBody_contextRedeem documented rfl written fields (timestamp.getD 0) absent
      rw [comesBack_iff_of_read (is.trans read)]
      simp [Event.normal, complete, required_required]

theorem encodeBefore_three (event : Event Number)
    : encodeBefore p float64 3 event = encodeEvent p float64 event := by
  have few : (trailing p float64 event.timestamp event.body).length ≤ 3 := by
    cases event.body <;> simp
  rw [encodeBefore, encodeEvent, List.take_of_length_le few]

/-- **Events come back.** An event, as it is written or as it was before some of its optional
fields, is read as the same, up to what is empty, if and only if, where it changes writers with a
signature, it has an author and a time.
-/
theorem decodeEvent_encodeEvent_iff (documented : Documented p) (written : Written p float64 event)
    : (ComesBack p float64 (encodeEvent p float64 event) event ↔ complete event = true)
      ∧ ∀ fields, AbsentFrom fields event.body →
        (ComesBack p float64 (encodeBefore p float64 fields event) event ↔ complete event = true)
        := by
  refine ⟨?_, comesBack_iff documented written⟩
  rw [← encodeBefore_three]
  refine comesBack_iff documented written 3 ?_
  cases event.body <;> simp [AbsentFrom]

end Read

-- The package's own encodings

theorem documented_compact : Documented compact where
  uint _ small := small
  uint_wide number := by
    simp only [compact, compactUint]
    split_ifs <;> simp
  string_wide text := by
    simp only [compact, compactString, compactUint]
    split_ifs <;> simp
  empty := by simp [compact, compactString]
  string bytes text rest is := by
    simp only [compact, compactString, Option.bind_eq_bind, Option.bind_eq_some_iff] at is
    obtain ⟨⟨length, after⟩, told, ⟨taken, _⟩, split, value, valid, made⟩ := is
    refine ⟨length, after, told, ?_⟩
    simp only [readBytes, Option.ite_none_right_eq_some, Option.some.injEq, Prod.mk.injEq] at split
    obtain ⟨enough, rfl, rfl⟩ := split
    refine ⟨enough, fun empty => ?_⟩
    simp only [String.fromUTF8?, Option.dite_none_right_eq_some, Option.some.injEq] at valid
    obtain ⟨_, is⟩ := valid
    obtain ⟨rfl, _⟩ := Prod.mk.inj (Option.some.inj made)
    have bytes : (⟨(List.take length after).toArray⟩ : ByteArray) = ⟨#[]⟩ :=
      congrArg String.toByteArray (is.trans empty)
    have none := congrArg (fun bytes => bytes.data.size) bytes
    simpa [enough] using none
  buffer _ _ := rfl
  buffer_fits bytes small := ⟨fun empty => congrArg some empty, small⟩

/-- A relation with data and without a value, and its signature. -/
def related (signature : Option String) : Event UInt64 where
  timestamp := some 1
  body := .relationCreate "d" "f" "contains" "a" signature none (some "x")

/-- A writer added, by no one. -/
def added (signature : Option String) : Event UInt64 where
  timestamp := some 1
  body := .writer .rolesAddWriter "k" none signature

theorem isHex_none : IsHex none := by
  intro text told
  cases told

theorem isHex_byte : IsHex (some "ab") := by
  intro text told
  obtain ⟨is, _⟩ := Registry.required_eq_some.mp told
  exact ⟨[0xab], by decide, by decide, by rw [← Option.some.inj is]; decide⟩

theorem written_related {signature : Option String} (hex : IsHex signature)
    : Written compact compactFloat64 (related signature) where
  texts := by
    simp only [related, Events.texts, compact, compactString]
    decide
  numbers := by simp [related, Events.numbers, compact, compactUint]
  signatures := by simpa [related, signatures] using hex
  value is := by cases is
  writer is := by cases is
  action is := by cases is
  request is := by cases is

theorem written_added {signature : Option String} (hex : IsHex signature)
    : Written compact compactFloat64 (added signature) where
  texts := by
    simp only [added, Events.texts, compact, compactString]
    decide
  numbers := by simp [added, Events.numbers, compact, compactUint]
  signatures := by simp [added, signatures]
  value is := by cases is
  writer is := by
    cases is
    exact hex
  action is := by cases is
  request is := by cases is

/-- Of a writer added by no one, with a signature, something else is read. -/
theorem unauthored_is_lost
    : ¬ComesBack compact compactFloat64 (encodeEvent compact compactFloat64 (added (some "ab")))
        (added (some "ab")) := by
  rw [← encodeBefore_three, comesBack_iff documented_compact (written_added isHex_byte)]
  · decide
  · simp [added, AbsentFrom]

/-- A relation comes back, with its signature and without one. -/
theorem decodeEvent_encodeEvent_related
    : ComesBack compact compactFloat64 (encodeEvent compact compactFloat64 (related (some "ab")))
        (related (some "ab"))
      ∧ ComesBack compact compactFloat64 (encodeEvent compact compactFloat64 (related none))
        (related none) :=
  ⟨(decodeEvent_encodeEvent_iff documented_compact (written_related isHex_byte)).1.mpr rfl,
    (decodeEvent_encodeEvent_iff documented_compact (written_related isHex_none)).1.mpr rfl⟩

end Events

end Hypergraph.Engine
