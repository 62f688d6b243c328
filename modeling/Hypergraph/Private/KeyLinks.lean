import Hypergraph.Identity
import Hypergraph.Decisions.View
import Hypergraph.Lib.Dict
import Hypergraph.Lib.Mapping
import Hypergraph.Lib.Passes
import Mathlib.Data.List.Sort

/-! The keys of a private space's epochs, and the links by which who holds a newer key opens an
older one: `lib/private/crypto.js` and `grants.js` for what links need, and `#links`,
`#followLinks` and `#link` of `lib/space.js`.
-/

namespace Hypergraph.Private

open Wire Js Encodings Decisions

/-- The sodium functions in use. -/
structure Sodium where
  /-- `crypto_generichash`. -/
  hash : Bytes → Bytes
  /-- A message sealed with a key, a nonce and additional data. -/
  encrypt : Bytes → Bytes → Bytes → Bytes → Bytes
  decrypt : Bytes → Bytes → Bytes → Bytes → Option Bytes

def nonceBytes : Nat := 24

def tagBytes : Nat := 16

def keyBytes : Nat := 32

/-- What the decision log records for an epoch: the commitment of its key. -/
def commitOf (s : Sodium) (key : Bytes) : Bytes := s.hash (utf8 "hypergraph/epoch\x00" ++ key)

/-- The short form of a commitment, its first bytes (in hex). -/
def shortCommit (commit : Bytes) : Bytes := commit.take 8

def linkAD (s : Sodium) (space commit : Bytes) : Bytes :=
  s.hash (utf8 "hypergraph/key-link\x00" ++ space ++ commit)

/-- An older epoch's key sealed with a newer one; sodium throws for a key of another length. -/
def sealKey (s : Sodium) (nonce withKey key ad : Bytes) : Option Bytes :=
  if withKey.length ≠ keyBytes then none else some (nonce ++ s.encrypt withKey nonce ad key)

/-- The key, or nothing if it doesn't open. -/
def openKey (s : Sodium) (withKey : Bytes) (sealed : Buffer) (ad : Bytes) : Option Bytes :=
  match sealed with
  | none => none
  | some sealed =>
      if sealed.length ≠ nonceBytes + keyBytes + tagBytes then none
      else s.decrypt withKey (sealed.take nonceBytes) ad (sealed.drop nonceBytes)

/-- Did the decision log record this commitment for this epoch, be it one that lost a race? -/
def known (keys : Epochs) (epoch : Nat) (commit : Bytes) : Bool :=
  keys.commits.lookup epoch = some commit || keys.others.lookup commit = some epoch

/-- The commitment of the current epoch, once there is one. -/
def currentCommit (keys : Epochs) : Option Bytes :=
  if keys.current < 0 then none else keys.commits.lookup keys.current.toNat

-- Links

/-- The values of a `hg/key-link` record, each absent if the record lacks it. -/
structure LinkValues where
  from_ : Buffer
  to_ : Buffer
  epoch : Option Nat
  sealed : Buffer
  deriving DecidableEq, Repr

/-- A link in the space, whose ends are commitments in short form. -/
structure KeyLink where
  from_ : Bytes
  to_ : Bytes
  epoch : Nat
  commit : Bytes
  sealed : Buffer
  deriving DecidableEq, Repr

def maxSafeInteger : Nat := 2 ^ 53 - 1

def keyLink (values : LinkValues) : Option KeyLink := do
  let from_ ← values.from_
  let to_ ← values.to_
  let epoch ← values.epoch
  if to_.length = 32 ∧ epoch ≤ maxSafeInteger then
    some ⟨shortCommit from_, shortCommit to_, epoch, to_, values.sealed⟩
  else none

/-- The key links in the index, of the records that decode. -/
def keyLinks (index : List LinkValues) : List KeyLink := index.filterMap keyLink

/-- The keys a device holds, by their commitment's short form, with their epoch. -/
abbrev Ring := Bytes → Option (Bytes × Nat)

def Ring.keep (ring : Ring) (short key : Bytes) (epoch : Nat) : Ring :=
  fun other => if other = short then some (key, epoch) else ring other

def Ring.empty : Ring := fun _ => none

section Follow

variable (s : Sodium) (space : Bytes) (keys : Epochs)

/-- What a link opens: from a later epoch only, and only a recorded commitment. -/
def followLink (ring : Ring) (link : KeyLink) : Option Ring :=
  match ring link.from_ with
  | none => none
  | some (by_, epoch) =>
      if (ring link.to_).isSome || !(link.epoch < epoch : Bool)
          || !known keys link.epoch link.commit then
        none
      else
        match openKey s by_ link.sealed (linkAD s space link.commit) with
        | none => none
        | some key =>
            if commitOf s key ≠ link.commit then none
            else some (ring.keep link.to_ key link.epoch)

/-- The older keys the held ones unlock are opened, until no link opens another. -/
def followLinks (index : List LinkValues) (ring : Ring) : Option Ring :=
  passes (followLink s space keys) (keyLinks index) ((keyLinks index).length + 1) ring

/-- What the linker believes a link leads to. -/
def reachLink (reach : List Bytes) (link : KeyLink) : Option (List Bytes) :=
  if reach.contains link.from_ && !reach.contains link.to_ then some (link.to_ :: reach) else none

/-- The recorded commitments with their epochs. -/
def commitEpochs : Dict Bytes Nat :=
  let epochs := (keys.commits.map Prod.fst).eraseDups.insertionSort (· ≤ ·)
  let own := epochs.filterMap fun epoch =>
    (keys.commits.lookup epoch).map fun commit => (commit, epoch)
  keys.others.reverse.foldl (fun dict entry => dict.put entry.1 entry.2) (.ofList own)

/-- The keys held that the linker believes the current one doesn't unlock yet. -/
def unlinked (ring : Ring) (reach : List Bytes) : List (Bytes × Nat × Bytes) :=
  (commitEpochs keys).entries.filterMap fun (commit, epoch) =>
    match ring (shortCommit commit) with
    | none => none
    | some (key, _) =>
        if (epoch : Int) ≥ keys.current || reach.contains (shortCommit commit) then none
        else some (commit, epoch, key)

/-- The links `#link` adds, from the current key to each key of an earlier epoch held that it
does not believe unlocked, or `none` where sealing throws.
-/
def link (nonce : Bytes → Bytes) (ring : Ring) (index : List LinkValues)
    : Option (List LinkValues) :=
  match currentCommit keys with
  | none => some []
  | some now =>
      match ring (shortCommit now) with
      | none => some []
      | some (by_, _) =>
          let reach := (passes reachLink (keyLinks index) ((keyLinks index).length + 1)
            [shortCommit now]).getD []
          (unlinked keys ring reach).mapM fun (commit, epoch, key) => do
            let sealed ← sealKey s (nonce commit) by_ key (linkAD s space commit)
            return ⟨some now, some commit, some epoch, some sealed⟩

end Follow

-- What is taken for granted

/-- Sealing as documented: a box opens with its key, nonce and additional data, and holds as
many bytes as were sealed, and a tag.
-/
structure Sodium.Lawful (s : Sodium) : Prop where
  opens : ∀ key nonce ad plain, key.length = keyBytes → nonce.length = nonceBytes
    → s.decrypt key nonce ad (s.encrypt key nonce ad plain) = some plain
  grown : ∀ key nonce ad plain, (s.encrypt key nonce ad plain).length = plain.length + tagBytes
  shrunk : ∀ key nonce ad box plain, s.decrypt key nonce ad box = some plain
    → plain.length + tagBytes = box.length

/-- Recorded commitments are hashes with short forms apart, and epochs are numbers that count
exactly. (One commitment may be recorded for several epochs.)
-/
structure Apart (keys : Epochs) : Prop where
  sized : ∀ epoch commit, known keys epoch commit = true
    → commit.length = 32 ∧ epoch ≤ maxSafeInteger
  short : ∀ epoch epoch' commit commit', known keys epoch commit = true
    → known keys epoch' commit' = true → shortCommit commit = shortCommit commit'
    → commit = commit'

/-- Every key a device holds is kept under the short form of its commitment, which the decision
log recorded for its epoch.
-/
def Ring.Recorded (s : Sodium) (keys : Epochs) (ring : Ring) : Prop :=
  ∀ short key epoch, ring short = some (key, epoch)
    → short = shortCommit (commitOf s key) ∧ known keys epoch (commitOf s key) = true

section Recorded

variable {s : Sodium} {space : Bytes} {keys : Epochs} {ring ring' : Ring}

/-- What a link that opened something did. -/
theorem of_followLink {link : KeyLink} (opened : followLink s space keys ring link = some ring')
    : ∃ by_ epoch key, ring link.from_ = some (by_, epoch) ∧ ring link.to_ = none
        ∧ link.epoch < epoch ∧ known keys link.epoch link.commit = true
        ∧ openKey s by_ link.sealed (linkAD s space link.commit) = some key
        ∧ commitOf s key = link.commit ∧ ring' = ring.keep link.to_ key link.epoch := by
  unfold followLink at opened
  split at opened
  · cases opened
  · rename_i by_ epoch holds
    split at opened
    · cases opened
    · rename_i passes
      simp only [Bool.or_eq_true, Bool.not_eq_true', not_or, Bool.not_eq_true,
        Bool.not_eq_false, decide_eq_true_eq, Option.isSome_eq_false_iff,
        Option.isNone_iff_eq_none] at passes
      split at opened
      · cases opened
      · rename_i key opens
        split at opened
        · cases opened
        · rename_i same
          exact ⟨by_, epoch, key, holds, passes.1.1, passes.1.2, passes.2, opens,
            not_not.mp same, (Option.some.inj opened).symm⟩

theorem to_of_mem {index : List LinkValues} {link : KeyLink} (listed : link ∈ keyLinks index)
    : link.to_ = shortCommit link.commit := by
  obtain ⟨values, _, given⟩ := List.mem_filterMap.mp listed
  unfold keyLink at given
  simp only [Option.bind_eq_bind, Option.bind_eq_some_iff] at given
  obtain ⟨from_, _, to_, _, epoch, _, given⟩ := given
  split at given
  · cases given
    rfl
  · cases given

-- What following links comes to

/-- A list that satisfies less keeps less of itself. -/
theorem length_filter_lt {α : Type} {list : List α} {fewer more : α → Bool} {item : α}
    (below : ∀ item, fewer item = true → more item = true) (listed : item ∈ list)
    (kept : more item = true) (dropped : fewer item = false)
    : (list.filter fewer).length < (list.filter more).length := by
  have twice : list.filter fewer = (list.filter more).filter fewer := by
    rw [List.filter_filter]
    apply List.filter_congr
    intro other _
    cases holds : fewer other with
    | false => rfl
    | true => simp [below other holds]
  rw [twice]
  apply List.length_filter_lt_length_iff_exists.mpr
  exact ⟨item, List.mem_filter.mpr ⟨listed, kept⟩, by simp [dropped]⟩

theorem followLinks_ends (s : Sodium) (space : Bytes) (keys : Epochs) (index : List LinkValues)
    (ring : Ring)
    : ∃ result, followLinks s space keys index ring = some result := by
  refine passes_ends (fun ring => ((keyLinks index).filter fun link =>
    (ring link.to_).isNone).length) ?_ (Nat.lt_succ_of_le (List.length_filter_le _ _))
  intro ring link ring' listed opened
  obtain ⟨by_, epoch, key, _, absent, _, _, _, _, rfl⟩ := of_followLink opened
  apply length_filter_lt _ listed
  · simp [absent]
  · simp [Ring.keep]
  · intro other missing
    simp only [Ring.keep, Option.isNone_iff_eq_none] at missing ⊢
    split at missing
    · cases missing
    · exact missing

theorem of_keep {short short' key key' : Bytes} {epoch epoch' : Nat}
    (found : ring.keep short key epoch short' = some (key', epoch'))
    : ring short' = some (key', epoch') ∨ (short' = short ∧ key' = key ∧ epoch' = epoch) := by
  unfold Ring.keep at found
  split at found
  · rename_i here
    cases found
    exact .inr ⟨here, rfl, rfl⟩
  · exact .inl found

/-- A key that was not held is kept beside those that were. -/
theorem keep_of_held {short short' key key' : Bytes} {epoch epoch' : Nat}
    (absent : ring short = none) (held : ring short' = some (key', epoch'))
    : ring.keep short key epoch short' = some (key', epoch') := by
  unfold Ring.keep
  split
  · rename_i here
    rw [here, absent] at held
    cases held
  · exact held

-- What the linker believes

/-- What the links lead to by their ends alone, whoever wrote them. -/
inductive Leads (links : List KeyLink) (now : Bytes) : Bytes → Prop
  | here : Leads links now now
  | next (link : KeyLink) (listed : link ∈ links) (from_ : Leads links now link.from_)
    : Leads links now link.to_

theorem of_reachLink {reach reach' : List Bytes} {link : KeyLink}
    (stepped : reachLink reach link = some reach')
    : link.from_ ∈ reach ∧ link.to_ ∉ reach ∧ reach' = link.to_ :: reach := by
  unfold reachLink at stepped
  split at stepped
  · rename_i both
    simp only [Bool.and_eq_true, List.contains_iff_mem, Bool.not_eq_true',
      ← Bool.not_eq_true] at both
    exact ⟨both.1, both.2, (Option.some.inj stepped).symm⟩
  · cases stepped

/-- The linker's own passes end, with what the links lead to. -/
theorem mem_reach (index : List LinkValues) (now short : Bytes)
    : short ∈ (passes reachLink (keyLinks index) ((keyLinks index).length + 1) [now]).getD []
        ↔ Leads (keyLinks index) now short := by
  obtain ⟨reach, ends⟩ : ∃ reach,
      passes reachLink (keyLinks index) ((keyLinks index).length + 1) [now] = some reach := by
    refine passes_ends (fun reach => ((keyLinks index).filter fun link =>
      !reach.contains link.to_).length) ?_ (Nat.lt_succ_of_le (List.length_filter_le _ _))
    intro reach link reach' listed stepped
    obtain ⟨_, absent, rfl⟩ := of_reachLink stepped
    apply length_filter_lt _ listed
    · simpa using absent
    · simp
    · intro other missing
      simp only [List.contains_cons, Bool.not_or, Bool.and_eq_true] at missing
      exact missing.2
  rw [ends, Option.getD_some]
  constructor
  · apply passes_keeps (fun reach => ∀ short ∈ reach, Leads (keyLinks index) now short)
      _ _ ends short
    · intro reach link reach' listed sound stepped
      obtain ⟨from_, _, rfl⟩ := of_reachLink stepped
      exact List.forall_mem_cons.mpr ⟨.next link listed (sound _ from_), sound⟩
    · intro short listed
      rw [List.mem_singleton.mp listed]
      exact .here
  · intro leads
    induction leads with
    | here =>
        refine passes_keeps (fun reach => now ∈ reach) ?_ (List.mem_singleton_self now) ends
        intro reach link reach' _ kept stepped
        obtain ⟨_, _, rfl⟩ := of_reachLink stepped
        exact List.mem_cons_of_mem _ kept
    | next link listed _ held =>
        have closed := passes_closed ends link listed
        unfold reachLink at closed
        simpa [held] using closed

/-- Whichever equality a lookup goes by. -/
theorem lookup_instances {κ α : Type} [decides : DecidableEq κ] [equals : BEq κ] [LawfulBEq κ]
    (entries : List (κ × α)) (key : κ)
    : @List.lookup κ α instBEqOfDecidableEq key entries = entries.lookup key := by
  have same : @instBEqOfDecidableEq κ decides = equals := lawful_beq_subsingleton _ _
  rw [same]

/-- The epoch the linker goes by for a commitment is one the decision log recorded. -/
theorem known_of_commitEpochs {commit : Bytes} {epoch : Nat}
    (found : (commitEpochs keys).get? commit = some epoch)
    : known keys epoch commit = true := by
  let epochs := (keys.commits.map Prod.fst).eraseDups.insertionSort (· ≤ ·)
  let own := epochs.filterMap fun epoch =>
    (keys.commits.lookup epoch).map fun commit => (commit, epoch)
  have entry : (commitEpochs keys).get? commit
      = (keys.others.lookup commit <|> own.reverse.lookup commit) := by
    unfold commitEpochs
    rw [Dict.get?_foldl_put, List.reverse_reverse, Dict.ofList, Dict.get?_foldl_put]
    rw [lookup_instances, lookup_instances]
    have nothing : (Dict.empty : Dict Bytes Nat).get? commit = none := rfl
    rw [nothing]
    cases keys.others.lookup commit with
    | some epoch => rfl
    | none => simp [own, epochs]
  unfold known
  rw [entry] at found
  cases other : keys.others.lookup commit with
  | some epoch' =>
      rw [other] at found
      cases found
      simp
  | none =>
      rw [other, ← lookup_instances] at found
      have listed := List.mem_reverse.mp (Dict.mem_of_lookup found)
      obtain ⟨epoch', _, given⟩ := List.mem_filterMap.mp listed
      obtain ⟨commit', recorded, same⟩ := Option.map_eq_some_iff.mp given
      cases same
      simp [recorded]

/-- What the linker links: keys held of recorded commitments, of earlier epochs, that it does not
believe the current key leads to.
-/
theorem mem_unlinked {reach : List Bytes} {commit key : Bytes} {epoch : Nat}
    : (commit, epoch, key) ∈ unlinked keys ring reach
        ↔ (commitEpochs keys).get? commit = some epoch
          ∧ (∃ of_, ring (shortCommit commit) = some (key, of_))
          ∧ (epoch : Int) < keys.current ∧ shortCommit commit ∉ reach := by
  unfold unlinked
  simp only [List.mem_filterMap, Prod.exists, Dict.mem_entries_iff]
  constructor
  · rintro ⟨commit', epoch', commit'', given⟩
    split at given
    · cases given
    · rename_i key' of_ found
      split at given
      · cases given
      · rename_i passes
        cases given
        simp only [Bool.or_eq_true, decide_eq_true_eq, List.contains_iff_mem, not_or] at passes
        exact ⟨commit'', ⟨_, found⟩, by omega, passes.2⟩
  · rintro ⟨commit', ⟨of_, found⟩, earlier, unreached⟩
    refine ⟨commit, epoch, commit', ?_⟩
    rw [found]
    dsimp only
    rw [if_neg]
    simp only [Bool.or_eq_true, decide_eq_true_eq, List.contains_iff_mem, not_or]
    exact ⟨by omega, unreached⟩

/-- What opens when sealed is as long as a key. -/
theorem length_of_sealed (lawful : s.Lawful) {nonce by_ key ad sealed : Bytes}
    (fresh : nonce.length = nonceBytes) (made : sealKey s nonce by_ key ad = some sealed)
    (opens : (openKey s by_ (some sealed) ad).isSome)
    : key.length = keyBytes := by
  unfold sealKey at made
  split at made
  · cases made
  · cases made
    have length := lawful.grown by_ nonce ad key
    simp only [openKey, List.length_append, fresh, length] at opens
    split at opens
    · cases opens
    · omega

/-- What is sealed opens, if it is as long as a key. -/
theorem openKey_sealKey (lawful : s.Lawful) {nonce by_ key ad sealed : Bytes}
    (fresh : nonce.length = nonceBytes) (made : sealKey s nonce by_ key ad = some sealed)
    (sized : key.length = keyBytes)
    : openKey s by_ (some sealed) ad = some key := by
  unfold sealKey at made
  split at made
  · cases made
  · rename_i withKey
    cases made
    have length := lawful.grown by_ nonce ad key
    unfold openKey
    dsimp only
    rw [if_neg]
    · rw [← fresh, List.take_left, List.drop_left]
      exact lawful.opens _ _ _ _ (not_not.mp withKey) fresh
    · rw [List.length_append, fresh, length, sized]
      omega

/-- A key that the links added open with the current one: held, as long as a key, of a commitment
last recorded for an earlier epoch, and no links lead to it.
-/
structure AtOnce (keys : Epochs) (index : List LinkValues) (ring : Ring) (now commit key : Bytes)
    (epoch : Nat) : Prop where
  last : (commitEpochs keys).get? commit = some epoch
  held : ∃ of_, ring (shortCommit commit) = some (key, of_)
  earlier : (epoch : Int) < keys.current
  unled : ¬Leads (keyLinks index) (shortCommit now) (shortCommit commit)
  sized : key.length = keyBytes

/-- The links added: the current key with each key that is not believed unlocked. -/
theorem mem_link {nonce : Bytes → Bytes} {index added : List LinkValues}
    {now by_ : Bytes} {last : Nat} (current : currentCommit keys = some now)
    (holds : ring (shortCommit now) = some (by_, last))
    (linked : link s space keys nonce ring index = some added) {values : LinkValues}
    : values ∈ added ↔ ∃ commit epoch key sealed, (commitEpochs keys).get? commit = some epoch
        ∧ (∃ of_, ring (shortCommit commit) = some (key, of_))
        ∧ (epoch : Int) < keys.current
        ∧ ¬ Leads (keyLinks index) (shortCommit now) (shortCommit commit)
        ∧ sealKey s (nonce commit) by_ key (linkAD s space commit) = some sealed
        ∧ values = ⟨some now, some commit, some epoch, some sealed⟩ := by
  unfold link at linked
  rw [current] at linked
  dsimp only at linked
  rw [holds] at linked
  rw [Mapping.mem_of_mapM linked]
  simp only [Prod.exists, mem_unlinked, mem_reach, Option.bind_eq_bind,
    Option.bind_eq_some_iff, Option.pure_def, Option.some.injEq]
  constructor
  · rintro ⟨commit, epoch, key, ⟨recorded, held, earlier, unreached⟩, sealed, made, rfl⟩
    exact ⟨commit, epoch, key, sealed, recorded, held, earlier, unreached, made, rfl⟩
  · rintro ⟨commit, epoch, key, sealed, recorded, held, earlier, unreached, made, rfl⟩
    exact ⟨commit, epoch, key, ⟨recorded, held, earlier, unreached⟩, sealed, made, rfl⟩

/-- Each key that is to open at once gets its link. -/
theorem linked_of_atOnce {nonce : Bytes → Bytes}
    {index added : List LinkValues} {now by_ : Bytes} {last : Nat}
    (current : currentCommit keys = some now) (holds : ring (shortCommit now) = some (by_, last))
    (linked : link s space keys nonce ring index = some added) {commit key : Bytes}
    {epoch : Nat} (free : AtOnce keys index ring now commit key epoch)
    : ∃ sealed, sealKey s (nonce commit) by_ key (linkAD s space commit) = some sealed
        ∧ ⟨some now, some commit, some epoch, some sealed⟩ ∈ added := by
  have ran := linked
  unfold link at ran
  rw [current] at ran
  dsimp only at ran
  rw [holds] at ran
  have believed := (mem_reach index (shortCommit now) (shortCommit commit)).not.mpr free.unled
  obtain ⟨values, made⟩ := Mapping.exists_of_mapM ran
    (mem_unlinked.mpr ⟨free.last, free.held, free.earlier, believed⟩)
  simp only [Option.bind_eq_bind, Option.bind_eq_some_iff, Option.pure_def,
    Option.some.injEq] at made
  obtain ⟨sealed, made, _⟩ := made
  exact ⟨sealed, made, (mem_link current holds linked).mpr
    ⟨commit, epoch, key, sealed, free.last, free.held, free.earlier, free.unled, made, rfl⟩⟩

-- What the linked history unlocks

/-- Having linked, a device's earlier keys open for whoever starts with the current key and
follows the links.
-/
def LearnsAll (s : Sodium) (space : Bytes) (keys : Epochs) (index added : List LinkValues)
    (ring : Ring) (now by_ : Bytes) : Prop :=
  ∀ index', (∀ values, values ∈ index' ↔ values ∈ index ∨ values ∈ added)
    → ∃ result, followLinks s space keys index'
        (Ring.empty.keep (shortCommit now) by_ keys.current.toNat) = some result
      ∧ ∀ short key epoch, ring short = some (key, epoch) → (epoch : Int) < keys.current
        → ∃ of_, result short = some (key, of_)

/-- Whatever links there are, following them ends, and what it learns was recorded for its epoch
and opened by a key of a later one.
-/
def OnlyRecorded (s : Sodium) (space : Bytes) (keys : Epochs) : Prop :=
  ∀ index ring, Ring.Recorded s keys ring
    → ∃ result, followLinks s space keys index ring = some result
      ∧ ∀ short key epoch, result short = some (key, epoch)
        → ring short = some (key, epoch)
          ∨ (known keys epoch (commitOf s key) = true
            ∧ ∃ link ∈ keyLinks index, ∃ by_ later, result link.from_ = some (by_, later)
              ∧ epoch < later
              ∧ openKey s by_ link.sealed (linkAD s space (commitOf s key)) = some key)

/-- A commitment recorded for this epoch and no other. -/
def OnlyFor (keys : Epochs) (epoch : Nat) (commit : Bytes) : Prop :=
  ∀ epoch', known keys epoch' commit = true ↔ epoch' = epoch

/-- The keys of two rotations that raced never open each other, by whatever link. -/
def RacesApart (s : Sodium) (space : Bytes) (keys : Epochs) : Prop :=
  ∀ index ring, Ring.Recorded s keys ring → ∀ link ∈ keyLinks index, ∀ epoch commit commit',
    OnlyFor keys epoch commit → OnlyFor keys epoch commit' → link.from_ = shortCommit commit
    → link.to_ = shortCommit commit' → followLink s space keys ring link = none

/-- What comes to be held, starting with the current key, as keys are opened one after another in
any order: those that open at once, and what a link found in the index opens.
-/
inductive Unlocked (s : Sodium) (space : Bytes) (keys : Epochs) (index : List LinkValues)
    (ring : Ring) (now by_ : Bytes) : Ring → Prop
  | current
    : Unlocked s space keys index ring now by_
        (Ring.empty.keep (shortCommit now) by_ keys.current.toNat)
  | atOnce {held : Ring} {commit key : Bytes} {epoch : Nat}
      (before : Unlocked s space keys index ring now by_ held)
      (free : AtOnce keys index ring now commit key epoch)
      (absent : held (shortCommit commit) = none)
    : Unlocked s space keys index ring now by_ (held.keep (shortCommit commit) key epoch)
  | link {held next : Ring} (link : KeyLink) (listed : link ∈ keyLinks index)
      (before : Unlocked s space keys index ring now by_ held)
      (opened : followLink s space keys held link = some next)
    : Unlocked s space keys index ring now by_ next

/-- The links found in the index are what they seem: in whichever order keys are opened, once
nothing more opens each earlier key held is open.
-/
def LinksTrue (s : Sodium) (space : Bytes) (keys : Epochs) (index : List LinkValues)
    (ring : Ring) (now by_ : Bytes) : Prop :=
  ∀ held, Unlocked s space keys index ring now by_ held
    → (∀ link ∈ keyLinks index, followLink s space keys held link = none)
    → (∀ commit key epoch, AtOnce keys index ring now commit key epoch
      → (held (shortCommit commit)).isSome)
    → ∀ short key epoch, ring short = some (key, epoch) → (epoch : Int) < keys.current
      → ∃ of_, held short = some (key, of_)

theorem onlyRecorded (s : Sodium) (space : Bytes) (keys : Epochs) : OnlyRecorded s space keys := by
  intro index ring recorded
  obtain ⟨result, followed⟩ := followLinks_ends s space keys index ring
  refine ⟨result, followed, ?_⟩
  refine passes_keeps (fun ring' : Ring => ∀ short key epoch, ring' short = some (key, epoch)
    → ring short = some (key, epoch)
      ∨ (known keys epoch (commitOf s key) = true
        ∧ ∃ link ∈ keyLinks index, ∃ by_ later, ring' link.from_ = some (by_, later)
          ∧ epoch < later
          ∧ openKey s by_ link.sealed (linkAD s space (commitOf s key)) = some key)) ?_
    (fun short key epoch held => .inl held) followed
  intro state link next listed sound opened short key epoch found
  obtain ⟨by_, later, key', holds, absent, lower, commit, opens, same, rfl⟩ :=
    of_followLink opened
  rcases of_keep found with held | ⟨rfl, rfl, rfl⟩
  · rcases sound short key epoch held with given | ⟨commit', link', listed', by', later', holds',
      opens'⟩
    · exact .inl given
    · exact .inr ⟨commit', link', listed', by', later', keep_of_held absent holds', opens'⟩
  · rw [← same] at commit opens
    exact .inr ⟨commit, link, listed, by_, later, keep_of_held absent holds, lower, opens⟩

/-- A key that a link opens is of an earlier epoch than the one it opens with. -/
theorem racesApart (apart : Apart keys) : RacesApart s space keys := by
  intro index ring recorded link listed epoch commit commit' only only' from_ to_
  by_contra some_
  obtain ⟨next, opened⟩ := Option.ne_none_iff_exists'.mp some_
  obtain ⟨by_, later, key, holds, _, lower, known', _, _, _⟩ := of_followLink opened
  obtain ⟨short, recorded'⟩ := recorded _ _ _ holds
  have own := apart.short _ _ _ _ ((only epoch).mpr rfl) recorded' (from_.symm.trans short)
  have other := apart.short _ _ _ _ ((only' epoch).mpr rfl) known'
    (to_.symm.trans (to_of_mem listed))
  have of_later := (only later).mp (own ▸ recorded')
  have of_link := (only' link.epoch).mp (other ▸ known')
  omega

theorem mem_keyLinks {index : List LinkValues} {link : KeyLink}
    : link ∈ keyLinks index ↔ ∃ values ∈ index, keyLink values = some link :=
  List.mem_filterMap

/-- A link that was added, as it is read. -/
theorem keyLink_added (apart : Apart keys) {now commit sealed : Bytes} {epoch : Nat}
    (recorded : known keys epoch commit = true)
    : keyLink ⟨some now, some commit, some epoch, some sealed⟩
        = some ⟨shortCommit now, shortCommit commit, epoch, commit, some sealed⟩ := by
  obtain ⟨length, safe⟩ := apart.sized _ _ recorded
  simp [keyLink, length, safe]

section Linked

variable {nonce : Bytes → Bytes} {index added index' : List LinkValues} {now by_ : Bytes}
  {last : Nat}

theorem unlocked_current {held : Ring} (so : Unlocked s space keys index ring now by_ held)
    : held (shortCommit now) = some (by_, keys.current.toNat) := by
  induction so with
  | current => simp [Ring.keep]
  | atOnce before free absent ih => exact keep_of_held absent ih
  | link link listed before opened ih =>
      obtain ⟨_, _, _, _, absent, _, _, _, _, rfl⟩ := of_followLink opened
      exact keep_of_held absent ih

section Added

variable (lawful : s.Lawful) (apart : Apart keys) (recorded : ring.Recorded s keys)
  (current : currentCommit keys = some now)
  (fresh : ∀ commit, (nonce commit).length = nonceBytes)
  (holds : ring (shortCommit now) = some (by_, last))
  (linked : link s space keys nonce ring index = some added)
  (all : ∀ values, values ∈ index' ↔ values ∈ index ∨ values ∈ added)

include lawful apart current fresh holds linked

/-- A link that was added opens what is to open at once. -/
theorem atOnce_of_added {held next : Ring}
    (so : Unlocked s space keys index ring now by_ held) {values : LinkValues} {link : KeyLink}
    (new : values ∈ added) (given : keyLink values = some link)
    (opened : followLink s space keys held link = some next)
    : ∃ commit key epoch, AtOnce keys index ring now commit key epoch
        ∧ held (shortCommit commit) = none ∧ next = held.keep (shortCommit commit) key epoch := by
  obtain ⟨commit, epoch, key, sealed, final, has, earlier, unreached, made, rfl⟩ :=
    (mem_link current holds linked).mp new
  rw [keyLink_added apart (known_of_commitEpochs final)] at given
  cases given
  obtain ⟨with_, _, key', has', absent, _, _, opens, _, rfl⟩ := of_followLink opened
  cases (unlocked_current so).symm.trans has'
  have sized := length_of_sealed lawful (fresh commit) made (by rw [opens]; rfl)
  cases opens.symm.trans (openKey_sealKey lawful (fresh commit) made sized)
  exact ⟨commit, key, epoch, ⟨final, has, earlier, unreached, sized⟩, absent, rfl⟩

include recorded all

/-- What is to open at once, a link among those there are then opens. -/
theorem follow_of_atOnce {held : Ring} (so : Unlocked s space keys index ring now by_ held)
    {commit key : Bytes} {epoch : Nat} (free : AtOnce keys index ring now commit key epoch)
    (absent : held (shortCommit commit) = none)
    : ∃ link ∈ keyLinks index',
        followLink s space keys held link = some (held.keep (shortCommit commit) key epoch) := by
  have commit_ := known_of_commitEpochs free.last
  obtain ⟨of_, has⟩ := free.held
  obtain ⟨short, commit'⟩ := recorded _ _ _ has
  have same := apart.short _ _ _ _ commit_ commit' short
  obtain ⟨sealed, made, listed⟩ := linked_of_atOnce current holds linked free
  have there := mem_keyLinks.mpr ⟨_, (all _).mpr (.inr listed), keyLink_added apart commit_⟩
  have opens := openKey_sealKey lawful (fresh _) made free.sized
  have earlier := Int.lt_toNat.mpr free.earlier
  refine ⟨_, there, ?_⟩
  simp [followLink, unlocked_current so, absent, earlier, commit_, opens, same.symm]

/-- Opening keys is following the links there are then, in some order. -/
theorem unlocked_iff {held : Ring}
    : Unlocked s space keys index ring now by_ held
      ↔ Steps (followLink s space keys) (keyLinks index')
          (Ring.empty.keep (shortCommit now) by_ keys.current.toNat) held := by
  constructor
  · intro so
    induction so with
    | current => exact .start
    | atOnce before free absent ih =>
        obtain ⟨link, listed, opened⟩ := follow_of_atOnce lawful apart recorded current fresh holds
          linked all before free absent
        exact .next ih link listed opened
    | link link listed before opened ih =>
        obtain ⟨values, found, given⟩ := mem_keyLinks.mp listed
        exact .next ih link (mem_keyLinks.mpr ⟨values, (all values).mpr (.inl found), given⟩) opened
  · intro steps
    induction steps with
    | start => exact .current
    | next before link listed opened ih =>
        obtain ⟨values, found, given⟩ := mem_keyLinks.mp listed
        rcases (all values).mp found with there | new
        · exact .link link (mem_keyLinks.mpr ⟨values, there, given⟩) ih opened
        · obtain ⟨commit, key, epoch, free, absent, rfl⟩ := atOnce_of_added lawful apart current
            fresh holds linked ih new given opened
          exact .atOnce ih free absent

/-- Nothing more opens just where no link there is then opens anything. -/
theorem closed_iff {held : Ring} (so : Unlocked s space keys index ring now by_ held)
    : (∀ link ∈ keyLinks index', followLink s space keys held link = none)
      ↔ (∀ link ∈ keyLinks index, followLink s space keys held link = none)
        ∧ ∀ commit key epoch, AtOnce keys index ring now commit key epoch
          → (held (shortCommit commit)).isSome := by
  constructor
  · refine fun closed => ⟨fun link listed => ?_, fun commit key epoch free => ?_⟩
    · obtain ⟨values, found, given⟩ := mem_keyLinks.mp listed
      exact closed link (mem_keyLinks.mpr ⟨values, (all values).mpr (.inl found), given⟩)
    · by_contra absent
      obtain ⟨link, listed, opened⟩ := follow_of_atOnce lawful apart recorded current fresh holds
        linked all so free (Option.not_isSome_iff_eq_none.mp absent)
      rw [closed link listed] at opened
      cases opened
  · rintro ⟨closed, free⟩ link listed
    obtain ⟨values, found, given⟩ := mem_keyLinks.mp listed
    rcases (all values).mp found with there | new
    · exact closed link (mem_keyLinks.mpr ⟨values, there, given⟩)
    · by_contra some_
      obtain ⟨next, opened⟩ := Option.ne_none_iff_exists'.mp some_
      obtain ⟨commit, key, epoch, once, absent, _⟩ := atOnce_of_added lawful apart current
        fresh holds linked so new given opened
      have there := free commit key epoch once
      rw [absent] at there
      cases there

end Added

/-- Links, in any order, are those of records. -/
theorem exists_records {index : List LinkValues} {order : List KeyLink}
    (among : ∀ link ∈ order, link ∈ keyLinks index)
    : ∃ records : List LinkValues, (∀ values ∈ records, values ∈ index)
        ∧ keyLinks records = order := by
  induction order with
  | nil => exact ⟨[], nofun, rfl⟩
  | cons link rest ih =>
      obtain ⟨records, from_, same⟩ := ih fun link listed => among link (List.mem_cons_of_mem _ listed)
      obtain ⟨values, found, given⟩ := mem_keyLinks.mp (among link List.mem_cons_self)
      refine ⟨values :: records, List.forall_mem_cons.mpr ⟨found, from_⟩, ?_⟩
      rw [keyLinks, List.filterMap_cons, given]
      exact congrArg (link :: ·) same

end Linked

end Recorded

-- A link that opens nothing

namespace Forged

/-- Sealing that leaves what is sealed in the clear, with the key's first bytes as the tag. -/
def tag (key : Bytes) : Bytes := (key ++ List.replicate tagBytes 0).take tagBytes

def sodium : Sodium where
  hash bytes := if bytes.length = 49 then bytes.drop 17 else List.replicate 32 0
  encrypt key _ _ plain := tag key ++ plain
  decrypt key _ _ box := if box.take tagBytes = tag key then some (box.drop tagBytes) else none

def oldKey : Bytes := List.replicate 32 1

def newKey : Bytes := List.replicate 32 2

def keys : Epochs where
  current := 1
  commits := [(0, oldKey), (1, newKey)]

def ring : Ring :=
  (Ring.empty.keep (shortCommit oldKey) oldKey 0).keep (shortCommit newKey) newKey 1

/-- From the current key to the one before, with nothing sealed in it. -/
def index : List LinkValues := [⟨some newKey, some oldKey, some 0, some [0]⟩]

theorem length_tag (key : Bytes) : (tag key).length = tagBytes := by
  simp [tag, tagBytes]

theorem sodium_lawful : sodium.Lawful where
  opens key nonce ad plain _ _ := by
    simp [sodium, ← length_tag key]
  grown key nonce ad plain := by
    simp [sodium, length_tag, Nat.add_comm]
  shrunk key nonce ad box plain opened := by
    simp only [sodium] at opened
    split at opened
    · rename_i tagged
      cases opened
      have length := congrArg List.length tagged
      rw [length_tag, List.length_take] at length
      rw [List.length_drop]
      omega
    · cases opened

theorem of_known {epoch : Nat} {commit : Bytes} (recorded : known keys epoch commit = true)
    : (epoch = 0 ∧ commit = oldKey) ∨ (epoch = 1 ∧ commit = newKey) := by
  match epoch with
  | 0 =>
      left
      simpa [known, keys, List.lookup_cons, eq_comm] using recorded
  | 1 =>
      right
      simpa [known, keys, List.lookup_cons, eq_comm] using recorded
  | epoch + 2 => simp [known, keys, List.lookup_cons] at recorded

theorem keys_apart : Apart keys where
  sized epoch commit recorded := by
    rcases of_known recorded with ⟨rfl, rfl⟩ | ⟨rfl, rfl⟩
    all_goals decide
  short epoch epoch' commit commit' recorded recorded' same := by
    rcases of_known recorded with ⟨rfl, rfl⟩ | ⟨rfl, rfl⟩
    all_goals rcases of_known recorded' with ⟨rfl, rfl⟩ | ⟨rfl, rfl⟩
    all_goals revert same
    all_goals decide

theorem ring_recorded : ring.Recorded sodium keys := by
  intro short key epoch held
  rcases of_keep held with before | ⟨rfl, rfl, rfl⟩
  · rcases of_keep before with none_ | ⟨rfl, rfl, rfl⟩
    · cases none_
    · exact ⟨by decide +kernel, by decide +kernel⟩
  · exact ⟨by decide +kernel, by decide +kernel⟩

end Forged

open Forged in
/-- What opens where there are no links is what the linking device holds. -/
theorem held_of_unlocked {held : Ring} (so : Unlocked sodium [] keys [] ring newKey newKey held)
    {short key : Bytes} {epoch : Nat} (found : held short = some (key, epoch))
    : ∃ of_, ring short = some (key, of_) := by
  induction so generalizing short key epoch with
  | current =>
      rcases of_keep found with none_ | ⟨rfl, rfl, rfl⟩
      · cases none_
      · exact ⟨1, by decide⟩
  | atOnce before free absent ih =>
      rcases of_keep found with before | ⟨rfl, rfl, rfl⟩
      · exact ih before
      · exact free.held
  | link link listed before opened ih => cases listed

end Hypergraph.Private
