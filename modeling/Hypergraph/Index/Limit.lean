import Hypergraph.Encodings
import Mathlib.Data.Finset.Max
import Mathlib.Order.Interval.Finset.Nat

/-! The write limit of an open space (`lib/limit.js`, and where the indexer judges a batch by
it): which blocks of a log count, by the stamps its author wrote in them. A block is compared
with the one `records` places before it, whatever that one is stamped.
-/

namespace Hypergraph.Index

open Encodings

/-- What is known of a block: its stamp, that it was wiped, or nothing yet. -/
inductive Known
  | stamp (stamp : Nat)
  | wiped
  | missing
  deriving DecidableEq, Repr

inductive Verdict
  | ok
  | over_
  /-- A block the judgment needs isn't here yet. -/
  | wait
  deriving DecidableEq, Repr

/-- The loop of `judge`, over the blocks from `i` on, as many as given. -/
def judgeFrom (stamp periodMs : Nat) (at_ : Nat → Known) (i : Nat) : Nat → Verdict
  | 0 => .over_
  | left + 1 =>
      match at_ i with
      | .missing => .wait
      | .wiped => judgeFrom stamp periodMs at_ (i + 1) left
      | .stamp s => if (stamp : Int) - s ≥ periodMs then .ok else .over_

def judge (seq stamp : Nat) (limit : Option WriteLimit) (at_ : Nat → Known) : Verdict :=
  match limit with
  | none => .ok
  | some limit =>
      if seq ≤ limit.records then .ok
      else judgeFrom stamp limit.periodMs at_ (seq - limit.records) limit.records

/-- A record block: its stamp, and is it of a kind the limit never refuses (a delete, a grant,
a key link, a device's removal)?
-/
structure Block where
  stamp : Nat
  unlimited : Bool
  deriving DecidableEq, Repr

/-- What the indexer knows of a block (`#stampAt`): from the batch, from a block over the limit
before, from the log, or that its author wiped it.
-/
def stampAt (stamps overStamps held : Nat → Option Known) (wipedByAuthor : Nat → Bool) (k : Nat)
    : Known :=
  match (stamps k).or (overStamps k) with
  | some known => known
  | none =>
      match held k with
      | some known => known
      | none => if wipedByAuthor k then .wiped else .missing

/-- A batch judged: what is indexed, what waits as a hole, and what is over the limit. -/
structure Limited where
  batch : List (Nat × Block)
  holes : List Nat
  overs : List Nat

/-- A batch under the write limit, from its last block to its first (`#run`). -/
def limited (limit : Option WriteLimit) (at_ : Nat → Known) : List (Nat × Block) → Limited
  | [] => ⟨[], [], []⟩
  | (seq, block) :: rest =>
      let later := limited limit at_ rest
      if limit.isNone || seq = 0 || block.unlimited then
        { later with batch := (seq, block) :: later.batch }
      else
        match judge seq block.stamp limit at_ with
        | .ok => { later with batch := (seq, block) :: later.batch }
        | .wait => { later with holes := later.holes ++ [seq] }
        | .over_ => { later with overs := later.overs ++ [seq] }

/-- A batch that is judged, and what the indexer has of the log's blocks by then. -/
structure Judging where
  batch : List (Nat × Block)
  stamps : Nat → Option Known
  overStamps : Nat → Option Known
  held : Nat → Option Known
  wipedByAuthor : Nat → Bool

def Judging.at_ (judging : Judging) : Nat → Known :=
  stampAt judging.stamps judging.overStamps judging.held judging.wipedByAuthor

def Judging.kept (judging : Judging) (limit : WriteLimit) : List (Nat × Block) :=
  (limited (some limit) judging.at_ judging.batch).batch

-- A log held whole

/-- A log's blocks from its header (block 0) on, all held and none wiped. -/
abbrev HeldLog := List Block

section Held

variable (log : HeldLog) (limit : WriteLimit)

def HeldLog.at_ (log : HeldLog) (k : Nat) : Known :=
  match log[k]? with
  | some block => .stamp block.stamp
  | none => .missing

/-- A record that the limit may refuse, and that `judge` answers `ok` for. -/
def Counted (seq : Nat) : Prop :=
  1 ≤ seq ∧ ∃ block, log[seq]? = some block ∧ block.unlimited = false
    ∧ judge seq block.stamp (some limit) log.at_ = .ok

/-- Stamped a period or more after the block `records` places before it. -/
def Spaced (seq : Nat) (block : Block) : Prop :=
  seq - limit.records < seq ∧ ∃ earlier, log[seq - limit.records]? = some earlier
    ∧ earlier.stamp + limit.periodMs ≤ block.stamp

/-- One of the log's first records, or a record spaced. -/
def Starts (seq : Nat) : Prop :=
  1 ≤ seq ∧ ∃ block, log[seq]? = some block ∧ block.unlimited = false
    ∧ (seq ≤ limit.records ∨ Spaced log limit seq block)

/-- Any two of these blocks are stamped less than a period apart. -/
def OnePeriod (seqs : Finset Nat) : Prop :=
  ∀ a ∈ seqs, ∀ b ∈ seqs, ∀ first second, log[a]? = some first → log[b]? = some second
    → second.stamp < first.stamp + limit.periodMs

/-- No more records than the limit's count within any period. -/
def WithinLimit : Prop :=
  ∀ seqs : Finset Nat, (∀ seq ∈ seqs, Counted log limit seq) → OnePeriod log limit seqs
    → seqs.card ≤ limit.records

/-- A period is written into again: `seq` is spaced, by a block the author stamped back, and
shares a period with `records` records before it, one of them from before that block and
stamped after it.
-/
structure Refills (seq : Nat) (others : Finset Nat) : Prop where
  spaced : ∃ block, log[seq]? = some block ∧ block.unlimited = false
    ∧ Spaced log limit seq block
  starts : ∀ other ∈ others, other < seq ∧ Starts log limit other
  full : others.card = limit.records
  period : OnePeriod log limit (insert seq others)
  back : ∃ other ∈ others, ∃ before earlier, other < seq - limit.records
    ∧ log[other]? = some before ∧ log[seq - limit.records]? = some earlier
    ∧ earlier.stamp < before.stamp

variable {log limit}

/-- Of a log held whole, `judge` counts its first records and those spaced. -/
theorem judge_held {seq : Nat} {block : Block} (held : log[seq]? = some block)
    : judge seq block.stamp (some limit) log.at_ = .ok
      ↔ seq ≤ limit.records ∨ Spaced log limit seq block := by
  obtain ⟨short, _⟩ := List.getElem?_eq_some_iff.mp held
  unfold judge Spaced
  dsimp only
  split
  · rename_i first
    exact ⟨fun _ => .inl first, fun _ => rfl⟩
  · rename_i later
    cases records : limit.records with
    | zero => simp [judgeFrom, records] at later ⊢; omega
    | succ n =>
        have before : seq - (n + 1) < log.length := by omega
        have entry : log[seq - (n + 1)]? = some log[seq - (n + 1)] :=
          List.getElem?_eq_getElem before
        simp only [judgeFrom, HeldLog.at_, entry, Option.some_inj, exists_eq_left']
        have compare : (block.stamp : Int) - log[seq - (n + 1)].stamp ≥ limit.periodMs
            ↔ log[seq - (n + 1)].stamp + limit.periodMs ≤ block.stamp := by omega
        have fresh : seq - (n + 1) < seq := by omega
        split
        · rename_i far
          exact ⟨fun _ => .inr ⟨fresh, compare.mp far⟩, fun _ => rfl⟩
        · rename_i near
          refine ⟨fun impossible => (nomatch impossible), ?_⟩
          rintro (first | ⟨_, far⟩)
          · exact absurd first (records ▸ later)
          · exact absurd (compare.mpr far) near

theorem counted_iff_starts {seq : Nat} : Counted log limit seq ↔ Starts log limit seq := by
  refine and_congr_right fun _ => exists_congr fun block => ?_
  refine and_congr_right fun held => and_congr_right fun _ => ?_
  exact judge_held held

/-- A batch keeps its header, what the limit never refuses, and what `judge` answers `ok` for;
induction on the batch.
-/
theorem mem_limited {at_ : Nat → Known} {batch : List (Nat × Block)} {seq : Nat} {block : Block}
    : (seq, block) ∈ (limited (some limit) at_ batch).batch
      ↔ (seq, block) ∈ batch
        ∧ (seq = 0 ∨ block.unlimited = true ∨ judge seq block.stamp (some limit) at_ = .ok) := by
  induction batch with
  | nil => simp [limited]
  | cons first rest ih =>
      obtain ⟨seq', block'⟩ := first
      simp only [limited, Option.isNone_some, Bool.false_or, List.mem_cons, Prod.mk.injEq]
      split
      · rename_i free
        simp only [List.mem_cons, Prod.mk.injEq, ih]
        constructor
        · rintro (⟨rfl, rfl⟩ | ⟨later, ok⟩)
          · simp only [Bool.or_eq_true, decide_eq_true_eq] at free
            exact ⟨.inl ⟨rfl, rfl⟩, free.imp_right .inl⟩
          · exact ⟨.inr later, ok⟩
        · rintro ⟨(here | later), ok⟩
          · exact .inl here
          · exact .inr ⟨later, ok⟩
      · rename_i limits
        simp only [Bool.or_eq_true, decide_eq_true_eq, not_or] at limits
        have dropped (apart : judge seq' block'.stamp (some limit) at_ ≠ .ok)
            : (seq, block) ∈ (limited (some limit) at_ rest).batch
              ↔ ((seq = seq' ∧ block = block') ∨ (seq, block) ∈ rest)
                ∧ (seq = 0 ∨ block.unlimited = true
                  ∨ judge seq block.stamp (some limit) at_ = .ok) := by
          rw [ih]
          refine ⟨fun ⟨later, ok⟩ => ⟨.inr later, ok⟩, ?_⟩
          rintro ⟨(⟨rfl, rfl⟩ | later), ok⟩
          · rcases ok with zero | free | ok
            · exact absurd zero limits.1
            · exact absurd free limits.2
            · exact absurd ok apart
          · exact ⟨later, ok⟩
        split
        · rename_i ok
          simp only [List.mem_cons, Prod.mk.injEq, ih]
          constructor
          · rintro (⟨rfl, rfl⟩ | ⟨later, judged⟩)
            · exact ⟨.inl ⟨rfl, rfl⟩, .inr (.inr ok)⟩
            · exact ⟨.inr later, judged⟩
          · rintro ⟨(here | later), judged⟩
            · exact .inl here
            · exact .inr ⟨later, judged⟩
        · rename_i wait
          exact dropped (by simp [wait])
        · rename_i late
          exact dropped (by simp [late])

/-- What `judge` lets in with some of the blocks here, it lets in with all of them; induction on the
blocks it has left.
-/
theorem judgeFrom_ok_of_some {some_ all : Nat → Known} (knows : ∀ k, some_ k = all k ∨ some_ k = .missing)
    {stamp periodMs i left : Nat} (ok : judgeFrom stamp periodMs some_ i left = .ok)
    : judgeFrom stamp periodMs all i left = .ok := by
  induction left generalizing i with
  | zero => cases ok
  | succ left ih =>
      unfold judgeFrom at ok ⊢
      rcases knows i with same | missing
      · rw [same] at ok
        cases known : all i with
        | stamp s => simpa only [known] using ok
        | wiped =>
            rw [known] at ok
            exact ih ok
        | missing => simp [known] at ok
      · simp [missing] at ok

/-- A record kept counts, whatever was known of its log by then. -/
theorem Judging.counted {judging : Judging}
    (knows : ∀ k, judging.at_ k = log.at_ k ∨ judging.at_ k = .missing)
    (looked : ∀ entry ∈ judging.batch, log[entry.1]? = some entry.2) {seq : Nat} {block : Block}
    (record : 1 ≤ seq) (refusable : block.unlimited = false) (kept : (seq, block) ∈ judging.kept limit)
    : Counted log limit seq := by
  obtain ⟨there, zero | free | ok⟩ := mem_limited.mp kept
  · omega
  · rw [refusable] at free
    cases free
  · refine ⟨record, block, looked _ there, refusable, ?_⟩
    unfold judge at ok ⊢
    dsimp only at ok ⊢
    split at ok
    · rename_i first
      rw [if_pos first]
    · rename_i later
      rw [if_neg later]
      exact judgeFrom_ok_of_some knows ok

/-- Where more records than the limit's count in one period, the last of them refills it. -/
theorem refills_of_over {seqs : Finset Nat} (counted : ∀ seq ∈ seqs, Counted log limit seq)
    (period : OnePeriod log limit seqs) (crowded : limit.records < seqs.card)
    : ∃ seq others, Refills log limit seq others := by
  obtain ⟨some_, within, size⟩ := Finset.exists_subset_card_eq crowded
  have nonempty : some_.Nonempty := Finset.card_pos.mp (by omega)
  obtain ⟨last, member, greatest⟩ : ∃ last ∈ some_, ∀ other ∈ some_, other ≤ last :=
    ⟨some_.max' nonempty, some_.max'_mem nonempty, fun other => some_.le_max' other⟩
  have starts (seq : Nat) (here : seq ∈ some_) : Starts log limit seq :=
    counted_iff_starts.mp (counted seq (within here))
  have earlier (seq : Nat) (here : seq ∈ some_.erase last) : seq < last := by
    obtain ⟨other, here⟩ := Finset.mem_erase.mp here
    exact lt_of_le_of_ne (greatest seq here) other
  have full : (some_.erase last).card = limit.records := by
    rw [Finset.card_erase_of_mem member, size, Nat.succ_sub_one]
  have whole : insert last (some_.erase last) = some_ := Finset.insert_erase member
  -- The last of them is past the first records: there are `records` others before it.
  have late : limit.records < last := by
    have inside : some_.erase last ⊆ Finset.Ico 1 last := fun seq here =>
      Finset.mem_Ico.mpr ⟨(starts seq (Finset.mem_of_mem_erase here)).1, earlier seq here⟩
    have few := Finset.card_le_card inside
    rw [full, Nat.card_Ico] at few
    have first := (starts last member).1
    omega
  obtain ⟨_, block, held, limited, spaced⟩ := starts last member
  have spaced := spaced.resolve_left (by omega)
  obtain ⟨fresh, compared, there, far⟩ := spaced
  -- So not all of those are among the last `records`: the first of these is the one compared.
  obtain ⟨other, here, before⟩ : ∃ other ∈ some_.erase last, other < last - limit.records := by
    by_contra none
    have inside : some_.erase last ⊆ Finset.Ico (last - limit.records) last := fun seq here =>
      Finset.mem_Ico.mpr ⟨not_lt.mp fun before => none ⟨seq, here, before⟩, earlier seq here⟩
    have same : some_.erase last = Finset.Ico (last - limit.records) last := by
      refine Finset.eq_of_subset_of_card_le inside ?_
      rw [full, Nat.card_Ico]
      omega
    have met : last - limit.records ∈ some_.erase last := by
      rw [same]
      exact Finset.mem_Ico.mpr ⟨le_refl _, fresh⟩
    have close := period _ (within (Finset.mem_of_mem_erase met)) _ (within member) _ _ there held
    omega
  obtain ⟨_, block', held', _⟩ := starts other (Finset.mem_of_mem_erase here)
  have close := period _ (within (Finset.mem_of_mem_erase here)) _ (within member) _ _ held' held
  refine ⟨last, some_.erase last, ⟨block, held, limited, fresh, compared, there, far⟩, ?_, full, ?_,
    other, here, block', compared, before, held', there, by omega⟩
  · exact fun seq here => ⟨earlier seq here, starts seq (Finset.mem_of_mem_erase here)⟩
  · rw [whole]
    exact fun a first b second => period a (within first) b (within second)

/-- The limit holds of a log just when no period is written into again after its author
stamped a block back.
-/
theorem withinLimit_iff
    : WithinLimit log limit ↔ ¬∃ seq others, Refills log limit seq others := by
  constructor
  · rintro holds ⟨seq, others, refills⟩
    have fresh : seq ∉ others := fun here => lt_irrefl seq (refills.starts seq here).1
    have few := holds (insert seq others) ?_ refills.period
    · rw [Finset.card_insert_of_notMem fresh, refills.full] at few
      omega
    · intro other here
      rw [counted_iff_starts]
      rcases Finset.mem_insert.mp here with rfl | here
      · obtain ⟨block, held, limited, spaced⟩ := refills.spaced
        have before := spaced.1
        exact ⟨by omega, block, held, limited, .inr spaced⟩
      · exact (refills.starts other here).2
  · intro none seqs counted period
    by_contra crowded
    exact none (refills_of_over counted period (not_le.mp crowded))

/-- An author whose stamps never go back keeps within the limit. -/
theorem withinLimit_of_sorted
    (sorted : ∀ (a b : Nat) (first second : Block), a < b → log[a]? = some first → log[b]? = some second
      → first.stamp ≤ second.stamp)
    : WithinLimit log limit := by
  intro seqs counted period
  by_contra crowded
  obtain ⟨seq, others, refills⟩ := refills_of_over counted period (not_le.mp crowded)
  obtain ⟨other, _, before, earlier, apart, held, there, back⟩ := refills.back
  have forward := sorted _ _ _ _ apart held there
  omega

/-- Of an author whose stamps never go back and who wiped nothing, runs over any batches keep no more
records than the limit's within any period, whichever blocks are known at each; whatever the limit never
refuses is kept besides.
-/
theorem kept_within_limit
    (sorted : ∀ (a b : Nat) (first second : Block), a < b → log[a]? = some first → log[b]? = some second
      → first.stamp ≤ second.stamp)
    {judgings : List Judging}
    (looked : ∀ judging ∈ judgings, ∀ entry ∈ judging.batch, log[entry.1]? = some entry.2)
    (knows : ∀ judging ∈ judgings, ∀ k, judging.at_ k = log.at_ k ∨ judging.at_ k = .missing)
    {seqs : Finset Nat}
    (kept : ∀ seq ∈ seqs, 1 ≤ seq ∧ ∃ block, block.unlimited = false
      ∧ ∃ judging ∈ judgings, (seq, block) ∈ judging.kept limit)
    (period : OnePeriod log limit seqs)
    : seqs.card ≤ limit.records := by
  refine withinLimit_of_sorted sorted seqs (fun seq mem => ?_) period
  obtain ⟨record, block, refusable, judging, listed, kept⟩ := kept seq mem
  exact judging.counted (knows judging listed) (looked judging listed) record refusable kept

/-- Of two records an hour, the third waits for the first; the second is judged with nothing here. -/
theorem kept_within_limit_hour
    : ({1, 2} : Finset Nat).card ≤ (⟨2, 3600000⟩ : WriteLimit).records := by
  let log : HeldLog := [⟨0, false⟩, ⟨7200000, false⟩, ⟨7200001, false⟩, ⟨7200002, false⟩]
  let limit : WriteLimit := ⟨2, 3600000⟩
  let judged (seq stamp : Nat) (here : Bool) : Judging :=
    ⟨[(seq, ⟨stamp, false⟩)], fun _ => none, fun _ => none,
      fun k => if here then some (log.at_ k) else none, fun _ => false⟩
  have sorted (a b : Nat) (first second : Block) (lt : a < b) (is : log[a]? = some first)
      (is' : log[b]? = some second)
      : first.stamp ≤ second.stamp := by
    have pairs : log.Pairwise fun first second => first.stamp ≤ second.stamp := by decide
    obtain ⟨bound, rfl⟩ := List.getElem?_eq_some_iff.mp is
    obtain ⟨bound', rfl⟩ := List.getElem?_eq_some_iff.mp is'
    exact List.pairwise_iff_getElem.mp pairs a b bound bound' lt
  have knows (seq stamp : Nat) (here : Bool) (k : Nat)
      : (judged seq stamp here).at_ k = log.at_ k ∨ (judged seq stamp here).at_ k = .missing := by
    cases here with
    | true => exact .inl rfl
    | false => exact .inr rfl
  refine @kept_within_limit log limit sorted
    [judged 3 7200002 false, judged 2 7200001 false, judged 1 7200000 true, judged 3 7200002 true]
    (by decide) ?_ {1, 2} ?_ ?_
  · intro judging listed
    simp only [List.mem_cons, List.not_mem_nil, or_false] at listed
    rcases listed with rfl | rfl | rfl | rfl <;> exact knows _ _ _
  · intro seq mem
    rcases Finset.mem_insert.mp mem with rfl | mem
    · exact ⟨by decide, ⟨7200000, false⟩, rfl, judged 1 7200000 true, by simp, by decide⟩
    · obtain rfl := Finset.mem_singleton.mp mem
      exact ⟨by decide, ⟨7200001, false⟩, rfl, judged 2 7200001 false, by simp, by decide⟩
  · intro a memA b memB first second is is'
    simp only [Finset.mem_insert, Finset.mem_singleton] at memA memB
    rcases memA with rfl | rfl <;> rcases memB with rfl | rfl <;> cases is <;> cases is' <;> decide

end Held

/-- Two records an hour, three stamped alike: the author stamps two others back in between. -/
theorem withinLimit_back
    : ¬WithinLimit [⟨0, false⟩, ⟨7200000, false⟩, ⟨7200000, false⟩, ⟨0, false⟩, ⟨0, false⟩,
        ⟨7200000, false⟩] ⟨2, 3600000⟩ := by
  intro holds
  have few := holds {1, 2, 5} ?_ ?_
  · exact absurd few (by decide)
  · intro seq here
    simp only [Finset.mem_insert, Finset.mem_singleton] at here
    rcases here with rfl | rfl | rfl
    · exact ⟨by decide, _, rfl, rfl, by decide⟩
    · exact ⟨by decide, _, rfl, rfl, by decide⟩
    · exact ⟨by decide, _, rfl, rfl, by decide⟩
  · intro a first b second one two held held'
    simp only [Finset.mem_insert, Finset.mem_singleton] at first second
    have stamped (k : Nat) (block : Block) (here : k = 1 ∨ k = 2 ∨ k = 5)
        (held : ([⟨0, false⟩, ⟨7200000, false⟩, ⟨7200000, false⟩, ⟨0, false⟩, ⟨0, false⟩,
          ⟨7200000, false⟩] : HeldLog)[k]? = some block)
        : block.stamp = 7200000 := by
      rcases here with rfl | rfl | rfl
      · cases held; rfl
      · cases held; rfl
      · cases held; rfl
    rw [stamped a one first held, stamped b two second held']
    decide

end Hypergraph.Index
