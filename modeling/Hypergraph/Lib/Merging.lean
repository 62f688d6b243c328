import Hypergraph.Lib.Dict

/-! Dictionaries that take turns: each turn sets its own values, but where the value there
outranks its own. When do such turns come to an end?
-/

namespace Js.Dict

variable {κ α : Type} [DecidableEq κ] (rank : α → Nat)

/-- One entry of a turn. -/
def mergeEntry (dict : Dict κ α) (entry : κ × α) : Dict κ α :=
  match dict.get? entry.1 with
  | none => dict.put entry.1 entry.2
  | some old => if rank old ≤ rank entry.2 then dict.put entry.1 entry.2 else dict

/-- A turn: `own` over what is there, where it does not outrank it. -/
def merge (own dict : Dict κ α) : Dict κ α := own.entries.foldl (mergeEntry rank) dict

/-- Which value stays of the one there and one's own. -/
def outranked (old : Option α) (value : α) : α :=
  match old with
  | none => value
  | some old => if rank old ≤ rank value then value else old

variable {rank}

section Outranked

variable {there : Option α} {value : α}

theorem outranked_of_low (low : ∀ old, there = some old → rank old ≤ rank value)
    : outranked rank there value = value := by
  cases there with
  | none => rfl
  | some old => exact if_pos (low old rfl)

theorem le_outranked : rank value ≤ rank (outranked rank there value) := by
  cases there with
  | none => exact Nat.le_refl _
  | some old =>
      unfold outranked
      dsimp only
      split <;> omega

theorem le_outranked_old {old : α} : rank old ≤ rank (outranked rank (some old) value) := by
  unfold outranked
  dsimp only
  split <;> omega

theorem outranked_eq (low : rank (outranked rank there value) ≤ rank value)
    : outranked rank there value = value := by
  refine outranked_of_low fun old same => ?_
  rw [same] at low
  exact Nat.le_trans le_outranked_old low

end Outranked

theorem get?_mergeEntry {dict : Dict κ α} {entry : κ × α} {key : κ}
    : (mergeEntry rank dict entry).get? key
      = if key = entry.1 then some (outranked rank (dict.get? entry.1) entry.2)
        else dict.get? key := by
  unfold mergeEntry outranked
  split
  · simp
  · rename_i old found
    split
    · simp
    · split
      · rename_i here
        rw [here, found]
      · rfl

theorem keys_mergeEntry {dict : Dict κ α} {entry : κ × α} (known : entry.1 ∈ dict.keys)
    : (mergeEntry rank dict entry).keys = dict.keys := by
  unfold mergeEntry
  split
  · rw [keys_put, if_pos known]
  · split
    · rw [keys_put, if_pos known]
    · rfl

/-- What a turn's entries leave under each key; induction on the entries. -/
theorem get?_foldl_mergeEntry {entries : List (κ × α)} (unique : (entries.map Prod.fst).Nodup)
    {dict : Dict κ α} {key : κ}
    : (entries.foldl (mergeEntry rank) dict).get? key
      = match entries.lookup key with
        | none => dict.get? key
        | some value => some (outranked rank (dict.get? key) value) := by
  induction entries generalizing dict with
  | nil => rfl
  | cons first rest ih =>
      obtain ⟨k, value⟩ := first
      rw [List.map_cons, List.nodup_cons] at unique
      rw [List.foldl_cons, ih unique.2, get?_mergeEntry]
      by_cases here : key = k
      · subst here
        have once : rest.lookup key = none := by
          have fresh := unique.1
          rwa [mem_keys_lookup, Option.not_isSome_iff_eq_none] at fresh
        simp [once]
      · have apart : (key == k) = false := by simpa using here
        simp only [if_neg here, List.lookup_cons, apart]

section Turns

variable {own first second dict : Dict κ α} {key : κ}

theorem get?_merge
    : (merge rank own dict).get? key
      = match own.get? key with
        | none => dict.get? key
        | some value => some (outranked rank (dict.get? key) value) :=
  get?_foldl_mergeEntry own.unique

/-- A turn over keys that are all there lists them as before; induction on the entries. -/
theorem keys_merge (known : ∀ key ∈ own.keys, key ∈ dict.keys)
    : (merge rank own dict).keys = dict.keys := by
  unfold merge keys at *
  generalize own.entries = entries at known
  induction entries generalizing dict with
  | nil => rfl
  | cons entry rest ih =>
      have here : (mergeEntry rank dict entry).keys = dict.keys :=
        keys_mergeEntry (known entry.1 (by simp))
      rw [List.foldl_cons, ih fun key listed => ?_]
      · exact here
      · change key ∈ (mergeEntry rank dict entry).keys
        rw [here]
        exact known key (List.mem_cons_of_mem _ listed)

/-- Nothing is left for a turn to change: each of its values is there, or outranked. -/
theorem merge_eq_self_iff
    : merge rank own dict = dict
      ↔ ∀ key value, own.get? key = some value
        → ∃ old, dict.get? key = some old ∧ (rank old ≤ rank value → value = old) := by
  constructor
  · intro same key value mine
    have kept : (merge rank own dict).get? key = some (outranked rank (dict.get? key) value) := by
      rw [get?_merge, mine]
    rw [same] at kept
    exact ⟨_, kept, fun low => (outranked_eq low).symm⟩
  · intro settled
    have known (key : κ) (listed : key ∈ own.keys) : key ∈ dict.keys := by
      obtain ⟨value, mine⟩ := Option.isSome_iff_exists.mp (mem_keys_iff.mp listed)
      obtain ⟨old, there, _⟩ := settled key value mine
      exact mem_keys_iff.mpr (by simp [there])
    refine ext_get (keys_merge known) fun key => ?_
    rw [get?_merge]
    cases mine : own.get? key with
    | none => rfl
    | some value =>
        obtain ⟨old, there, same⟩ := settled key value mine
        rw [there]
        unfold outranked
        dsimp only
        split
        · rename_i low
          rw [same low]
        · rfl

variable (rank own) in
theorem rank_le_merge {old : α} (there : dict.get? key = some old)
    : ∃ value, (merge rank own dict).get? key = some value ∧ rank old ≤ rank value := by
  rw [get?_merge]
  cases own.get? key with
  | none => exact ⟨old, there, Nat.le_refl _⟩
  | some value =>
      rw [there]
      exact ⟨_, rfl, le_outranked_old⟩

-- Two in turns

variable (rank) in
/-- Where both have a value of one rank, and nothing there outranks it, it is the same value. -/
def Agree (first second dict : Dict κ α) : Prop :=
  ∀ key one two, first.get? key = some one → second.get? key = some two → rank one = rank two
    → (∀ old, dict.get? key = some old → rank old ≤ rank one) → one = two

theorem Agree.symm (agree : Agree rank first second dict) : Agree rank second first dict :=
  fun key one two mine theirs same high =>
    (agree key two one theirs mine same.symm fun old there => same ▸ high old there).symm

theorem Agree.merge (agree : Agree rank first second dict)
    : Agree rank first second (merge rank own dict) := by
  intro key one two mine theirs same high
  refine agree key one two mine theirs same fun old there => ?_
  obtain ⟨value, now, higher⟩ := rank_le_merge rank own there
  exact Nat.le_trans higher (high value now)

/-- After one's turn and the other's, the first has nothing left to change, where both agree
and nowhere else.
-/
theorem merge_merge_iff
    : merge rank first (merge rank second (merge rank first dict))
        = merge rank second (merge rank first dict)
      ↔ Agree rank first second dict := by
  rw [merge_eq_self_iff]
  constructor
  · intro settled key one two mine theirs same high
    obtain ⟨old, there, equal⟩ := settled key one mine
    have first' : outranked rank (dict.get? key) one = one := outranked_of_low high
    have second' : outranked rank (some one) two = two :=
      outranked_of_low fun old here => Option.some.inj here ▸ Nat.le_of_eq same
    rw [get?_merge, theirs, get?_merge, mine] at there
    dsimp only at there
    rw [first', second', Option.some_inj] at there
    rw [← there] at equal
    exact equal (Nat.le_of_eq same.symm)
  · intro agree key one mine
    rw [get?_merge, get?_merge, mine]
    dsimp only
    cases theirs : second.get? key with
    | none => exact ⟨_, rfl, fun low => (outranked_eq low).symm⟩
    | some two =>
        refine ⟨_, rfl, fun low => ?_⟩
        -- The second's value is kept only where it is of the same rank as the first's.
        have first' := outranked_eq (Nat.le_trans le_outranked_old low)
        rw [first'] at low ⊢
        have low' := Nat.le_trans le_outranked low
        by_cases replaced : rank one ≤ rank two
        · have second' : outranked rank (some one) two = two := if_pos replaced
          rw [second']
          refine agree key one two mine theirs (by omega) fun old there => ?_
          rw [there] at first'
          rw [← first']
          exact le_outranked_old
        · exact (if_neg replaced).symm

theorem merge_merge_self : merge rank own (merge rank own dict) = merge rank own dict := by
  rw [merge_eq_self_iff]
  intro key value mine
  rw [get?_merge, mine]
  exact ⟨_, rfl, fun low => (outranked_eq low).symm⟩

-- Any number of turns

variable [DecidableEq α]

variable (rank) in
/-- How many of the turns change anything. -/
def changes (dict : Dict κ α) : List (Dict κ α) → Nat
  | [] => 0
  | own :: rest =>
      (if merge rank own dict = dict then 0 else 1) + changes (merge rank own dict) rest

variable (rank) in
/-- How many of the two have anything left to change. -/
def unsettled (first second dict : Dict κ α) : Nat :=
  (if merge rank first dict = dict then 0 else 1) + (if merge rank second dict = dict then 0 else 1)

/-- One's turn settles one, and unsettles no one who agrees. -/
theorem unsettled_merge (agree : Agree rank first second dict)
    : (if merge rank first dict = dict then 0 else 1)
        + unsettled rank first second (merge rank first dict)
      ≤ unsettled rank first second dict := by
  have still : merge rank second dict = dict
      → merge rank second (merge rank first dict) = merge rank first dict := by
    intro settled
    have after := merge_merge_iff.mpr agree.symm
    rwa [settled] at after
  unfold unsettled
  rw [merge_merge_self]
  simp only [if_true]
  by_cases settled : merge rank second dict = dict
  · have mine : (if merge rank second dict = dict then 0 else 1) = 0 := if_pos settled
    have next : (if merge rank second (merge rank first dict) = merge rank first dict
      then 0 else 1) = 0 := if_pos (still settled)
    omega
  · rw [if_neg settled]
    split <;> split <;> omega

/-- Who agree take at most one turn each that changes anything; induction on the turns. -/
theorem changes_le (agree : Agree rank first second dict) (turns : List (Dict κ α))
    (between : ∀ own ∈ turns, own = first ∨ own = second)
    : changes rank dict turns ≤ unsettled rank first second dict := by
  induction turns generalizing dict with
  | nil => exact Nat.zero_le _
  | cons own rest ih =>
      have agree' : Agree rank first second (merge rank own dict) := agree.merge
      have later := ih agree' fun other listed => between other (List.mem_cons_of_mem _ listed)
      rcases between own List.mem_cons_self with rfl | rfl
      · exact Nat.le_trans (Nat.add_le_add_left later _) (unsettled_merge agree)
      · have step := unsettled_merge agree.symm
        unfold unsettled at step later ⊢
        unfold changes
        omega

/-- Two turns after the other. -/
def alternate (first second : Dict κ α) : Nat → List (Dict κ α)
  | 0 => []
  | n + 1 => first :: alternate second first n

/-- With two values of one rank under a key, each turn changes it again; induction on the
number of turns.
-/
theorem changes_alternate {one two : α} (mine : first.get? key = some one)
    (theirs : second.get? key = some two) (same : rank one = rank two) (apart : one ≠ two)
    {dict : Dict κ α} (there : dict.get? key = some two) (n : Nat)
    : n ≤ changes rank dict (alternate first second n) := by
  induction n generalizing first second one two dict with
  | zero => exact Nat.zero_le _
  | succ n ih =>
      have now : (merge rank first dict).get? key = some one := by
        rw [get?_merge, mine, there]
        exact congrArg some (if_pos (Nat.le_of_eq same.symm))
      have moved : merge rank first dict ≠ dict := by
        intro settled
        rw [settled, there, Option.some_inj] at now
        exact apart now.symm
      have later := ih theirs mine same.symm apart.symm now
      unfold alternate changes
      rw [if_neg moved]
      omega

/-- Turns of two come to an end, however they are taken, where the two agree and only there. -/
theorem changes_bounded_iff
    : (∃ most, ∀ turns : List (Dict κ α), (∀ own ∈ turns, own = first ∨ own = second)
        → changes rank dict turns ≤ most)
      ↔ Agree rank first second dict := by
  constructor
  · rintro ⟨most, bounded⟩ key one two mine theirs same high
    by_contra apart
    have opened : (merge rank first dict).get? key = some one := by
      rw [get?_merge, mine]
      cases before : dict.get? key with
      | none => rfl
      | some old => exact congrArg some (if_pos (high old before))
    have between (n : Nat) : ∀ own ∈ alternate second first n, own = second ∨ own = first := by
      have general (n : Nat) (first second : Dict κ α)
          : ∀ own ∈ alternate first second n, own = first ∨ own = second := by
        induction n generalizing first second with
        | zero => simp [alternate]
        | succ n ih =>
            intro own listed
            rcases List.mem_cons.mp listed with rfl | later
            · exact .inl rfl
            · exact (ih second first own later).symm
      exact general n second first
    have few := bounded (first :: alternate second first (most + 1)) ?_
    · have many : most + 1
          ≤ changes rank (merge rank first dict) (alternate second first (most + 1)) :=
        changes_alternate theirs mine same.symm (Ne.symm apart) opened (most + 1)
      unfold changes at few
      omega
    · intro own listed
      rcases List.mem_cons.mp listed with rfl | later
      · exact .inl rfl
      · exact (between _ own later).symm
  · intro agree
    exact ⟨_, fun turns between => changes_le agree turns between⟩

end Turns

end Js.Dict
