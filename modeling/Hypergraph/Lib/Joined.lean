import Mathlib.Algebra.GroupWithZero.Nat
import Mathlib.Data.List.Infix

/-! Texts joined by a character, as keys of a store that are read by how they start: where no part
has the character in it, the parts are told from the text.
-/

variable {α : Type} {sep : α}

/-- Parts with a character between them. -/
def joined (sep : α) : List (List α) → List α
  | [] => []
  | [part] => part
  | part :: rest => part ++ sep :: joined sep rest

namespace Joined

@[simp]
theorem joined_single (part : List α) : joined sep [part] = part := rfl

theorem joined_cons {part : List α} {rest : List (List α)} (more : rest ≠ [])
    : joined sep (part :: rest) = part ++ sep :: joined sep rest := by
  cases rest with
  | nil => exact absurd rfl more
  | cons next rest => rfl

/-- Where one text is cut in two ways, the cuts are the same, or one part has the other's cut in it. -/
theorem cut_cases {first rest first' rest' : List α} (same : first ++ sep :: rest = first' ++ sep :: rest')
    : first = first' ∧ rest = rest' ∨ (∃ more, first' = first ++ sep :: more ∧ rest = more ++ sep :: rest')
      ∨ ∃ more, first = first' ++ sep :: more ∧ rest' = more ++ sep :: rest := by
  rcases List.append_eq_append_iff.mp same with ⟨more, is, is'⟩ | ⟨more, is, is'⟩
  · cases more with
    | nil => exact .inl (by simpa [is, eq_comm] using is')
    | cons c more =>
        rw [List.cons_append, List.cons.injEq] at is'
        exact .inr (.inl ⟨more, is'.1 ▸ is, is'.2⟩)
  · cases more with
    | nil => exact .inl (by simpa [is, eq_comm] using is')
    | cons c more =>
        rw [List.cons_append, List.cons.injEq] at is'
        exact .inr (.inr ⟨more, is'.1 ▸ is, is'.2⟩)

/-- A text is cut at the first character of its kind. -/
theorem cut_inj {first rest first' rest' : List α} (same : first ++ sep :: rest = first' ++ sep :: rest')
    (left : sep ∉ first) (right : sep ∉ first')
    : first = first' ∧ rest = rest' := by
  rcases cut_cases same with both | ⟨more, is, _⟩ | ⟨more, is, _⟩
  · exact both
  · exact absurd (by rw [is]; simp) right
  · exact absurd (by rw [is]; simp) left

/-- Two texts joined by a character that neither of two others has. -/
theorem append_cons_inj {first rest first' rest' : List α} (same : first ++ sep :: rest = first' ++ sep :: rest')
    (left : sep ∉ first') (right : sep ∉ rest')
    : first = first' ∧ rest = rest' := by
  rcases cut_cases same with both | ⟨more, is, _⟩ | ⟨more, _, is⟩
  · exact both
  · exact absurd (by rw [is]; simp) left
  · exact absurd (by rw [is]; simp) right

/-- A text that starts with some parts is of these and others. -/
theorem append_of_joined {parts all : List (List α)} {rest : List α} (some_ : parts ≠ [])
    (free : ∀ part ∈ parts, sep ∉ part) (free' : ∀ part ∈ all, sep ∉ part)
    (same : joined sep parts ++ sep :: rest = joined sep all)
    : ∃ more, more ≠ [] ∧ all = parts ++ more ∧ rest = joined sep more := by
  induction parts generalizing all with
  | nil => exact absurd rfl some_
  | cons part parts ih =>
      match all, free', same with
      | [], _, same => cases parts <;> simp [joined] at same
      | [only], free', same =>
          refine absurd ?_ (free' only (.head _))
          rw [joined_single] at same
          rw [← same]
          simp
      | first :: next :: more, free', same =>
          rw [joined_cons (List.cons_ne_nil _ _)] at same
          cases parts with
          | nil =>
              obtain ⟨rfl, rfl⟩ := cut_inj same (free part (.head _)) (free' first (.head _))
              exact ⟨next :: more, List.cons_ne_nil _ _, rfl, rfl⟩
          | cons second parts =>
              rw [joined_cons (List.cons_ne_nil _ _), List.append_assoc, List.cons_append] at same
              obtain ⟨rfl, later⟩ := cut_inj same (free part (.head _)) (free' first (.head _))
              obtain ⟨rest', filled, is, told⟩ := ih (List.cons_ne_nil _ _)
                (fun part mem => free part (.tail _ mem))
                (fun part mem => free' part (.tail _ mem)) later
              exact ⟨rest', filled, by rw [is]; rfl, told⟩

theorem joined_append {parts more : List (List α)} (some_ : parts ≠ []) (filled : more ≠ [])
    : joined sep (parts ++ more) = joined sep parts ++ sep :: joined sep more := by
  induction parts with
  | nil => exact absurd rfl some_
  | cons part parts ih =>
      cases parts with
      | nil => exact joined_cons filled
      | cons next parts =>
          rw [List.cons_append, joined_cons (by simp), ih (List.cons_ne_nil _ _),
            joined_cons (List.cons_ne_nil _ _), List.append_assoc, List.cons_append]

/-- Parts without the character are told apart. -/
theorem joined_inj {parts parts' : List (List α)} (some_ : parts ≠ []) (some_' : parts' ≠ [])
    (free : ∀ part ∈ parts, sep ∉ part) (free' : ∀ part ∈ parts', sep ∉ part)
    (same : joined sep parts = joined sep parts')
    : parts = parts' := by
  -- Another part, the same in both, makes the one a start of the other.
  have long : joined sep parts ++ sep :: [] = joined sep (parts' ++ [[]]) := by
    rw [joined_append some_' (List.cons_ne_nil _ _), same, joined_single]
  obtain ⟨more, filled, is, told⟩ := append_of_joined some_ free (by simpa [or_imp, forall_and] using free') long
  cases more with
  | nil => exact absurd rfl filled
  | cons next more =>
      cases more with
      | nil =>
          rw [joined_single] at told
          rw [← told] at is
          exact (List.append_cancel_right is).symm
      | cons second more =>
          rw [joined_cons (List.cons_ne_nil _ _)] at told
          cases next <;> cases told

theorem count_joined [DecidableEq α] {parts : List (List α)} (some_ : parts ≠ [])
    : (joined sep parts).count sep + 1 = (parts.map (List.count sep)).sum + parts.length := by
  induction parts with
  | nil => exact absurd rfl some_
  | cons part parts ih =>
      cases parts with
      | nil => simp
      | cons next parts =>
          have rest := ih (List.cons_ne_nil _ _)
          rw [joined_cons (List.cons_ne_nil _ _), List.count_append, List.count_cons_self, List.map_cons, List.sum_cons,
            List.length_cons]
          omega

/-- Parts without the character are told from any others that are as many. -/
theorem joined_inj_of_length {parts parts' : List (List α)} (length : parts.length = parts'.length)
    (free : ∀ part ∈ parts', sep ∉ part) (same : joined sep parts = joined sep parts')
    : parts = parts' := by
  classical
  rcases eq_or_ne parts [] with rfl | some_
  · exact (List.eq_nil_of_length_eq_zero length.symm).symm
  have some_' : parts' ≠ [] := fun none_ => some_ (List.eq_nil_of_length_eq_zero (by rw [length, none_]; rfl))
  have counted := @count_joined _ sep _ _ some_
  have counted' := @count_joined _ sep _ _ some_'
  have none_ : (parts'.map (List.count sep)).sum = 0 := by
    rw [List.sum_eq_zero_iff_forall_eq_nat]
    simpa [List.count_eq_zero] using free
  rw [same] at counted
  have none' : (parts.map (List.count sep)).sum = 0 := by omega
  rw [List.sum_eq_zero_iff_forall_eq_nat] at none'
  exact joined_inj some_ some_' (by simpa [List.count_eq_zero] using none') free same

/-- A text that starts as parts do, with the character after these, is of these and one more. -/
theorem joined_append_nil {parts : List (List α)} {rest : List α} (some_ : parts ≠ [])
    : joined sep (parts ++ [[]]) ++ rest = joined sep (parts ++ [rest]) := by
  rw [joined_append some_ (List.cons_ne_nil _ _), joined_append some_ (List.cons_ne_nil _ _), List.append_assoc]
  rfl

-- Ranges

/-- `{ gte: start, lt: start + '\uffff' }`, in the order of the texts' bytes, which is that of their
characters.
-/
def inRange (start text : List Char) : Bool := ¬ text < start && text < start ++ ['\uffff']

theorem inRange_iff {start text : List Char}
    : inRange start text = true
      ↔ ∃ rest, text = start ++ rest ∧ rest.head?.all (· < '\uffff') = true := by
  simp only [inRange, Bool.and_eq_true, decide_eq_true_eq]
  induction start generalizing text with
  | nil =>
      cases text with
      | nil => simp
      | cons c text => simp [List.cons_lt_cons_iff]
  | cons s start ih =>
      cases text with
      | nil => simp
      | cons c text =>
          have step : (¬ c :: text < s :: start ∧ c :: text < s :: start ++ ['\uffff'])
              ↔ c = s ∧ ¬ text < start ∧ text < start ++ ['\uffff'] := by
            rw [List.cons_append, List.cons_lt_cons_iff, List.cons_lt_cons_iff]
            constructor
            · rintro ⟨not, above | ⟨rfl, lt⟩⟩
              · exact absurd (.inl above) not
              · exact ⟨rfl, fun below => not (.inr ⟨rfl, below⟩), lt⟩
            · rintro ⟨rfl, not, lt⟩
              refine ⟨?_, .inr ⟨rfl, lt⟩⟩
              rintro (below | ⟨_, below⟩)
              · exact Char.lt_irrefl _ below
              · exact not below
          rw [step, ih]
          constructor
          · rintro ⟨rfl, rest, rfl, small⟩
            exact ⟨rest, rfl, small⟩
          · rintro ⟨rest, same, small⟩
            obtain ⟨rfl, rfl⟩ := List.cons.inj same
            exact ⟨rfl, rest, rfl, small⟩

/-- A name whose own texts, with what goes on with them, another name's text is read among: the name starts
the other one, or it goes on as the other's text does.
-/
def Clashes (name other tail : List Char) : Prop :=
  (∃ rest, other = name ++ ':' :: rest ∧ (rest ++ ':' :: tail).head?.all (· < '\uffff') = true)
  ∨ ∃ more rest, name = other ++ ':' :: more ∧ tail = more ++ ':' :: rest
      ∧ rest.head?.all (· < '\uffff') = true

theorem not_clashes_self {name tail : List Char} : ¬ Clashes name name tail := by
  rintro (⟨rest, same, _⟩ | ⟨more, rest, same, _⟩)
  · have length := congrArg List.length same
    simp at length
  · have length := congrArg List.length same
    simp at length

/-- What a read of a name's texts finds: its own, and those it clashes with. -/
theorem inRange_name_iff {start name other tail : List Char}
    : inRange (start ++ (name ++ [':'])) (start ++ (other ++ ':' :: tail)) = true
      ↔ name = other ∧ tail.head?.all (· < '\uffff') = true ∨ Clashes name other tail := by
  rw [inRange_iff]
  constructor
  · rintro ⟨rest, same, low⟩
    rw [List.append_assoc, List.append_cancel_left_eq, List.append_assoc, List.singleton_append]
      at same
    rcases cut_cases same with ⟨rfl, rfl⟩ | ⟨more, is, rfl⟩ | ⟨more, is, is'⟩
    · exact .inl ⟨rfl, low⟩
    · exact .inr (.inr ⟨more, rest, is, rfl, low⟩)
    · exact .inr (.inl ⟨more, is, is' ▸ low⟩)
  · rintro (⟨rfl, low⟩ | ⟨rest, rfl, low⟩ | ⟨more, rest, rfl, rfl, low⟩)
    · exact ⟨tail, by simp, low⟩
    · exact ⟨rest ++ ':' :: tail, by simp, low⟩
    · exact ⟨rest, by simp, low⟩

end Joined
