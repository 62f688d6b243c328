import Hypergraph.Identity
import Hypergraph.Channels.Listings

/-! What a reader takes from keepers' rosters (`#entriesFrom` of `src/v2/index.js`), each entry signed
by its author: whose entry counts where an author signed several, and whether that depends on the order
keepers were opened in.
-/

namespace Hypergraph.Channels.Unions

open Wire Js Encodings Pages

-- Signed entries

/-- The functions of Node's crypto and of hypercore-crypto in use. -/
structure Crypto where
  /-- `sha256`. -/
  hash : Bytes → Bytes
  /-- Is it a signature of the message by the key? It throws on ones of other sizes. -/
  verify : Bytes → Bytes → Key → Option Bool

/-- What a roster has under a segment and an author. -/
structure Value where
  log : Key
  start : Nat
  sig : Bytes
  deriving DecidableEq, Repr

structure Raw extends Value where
  author : Key
  deriving DecidableEq, Repr

def Raw.entry (e : Raw) : Entry := ⟨e.author, e.log, e.start⟩

section Signed

variable (crypto : Crypto) (communityKey : Key) (channelId : String) (segment : Int)

def rosterSignable (log : Key) (start : Nat) : Bytes :=
  crypto.hash (utf8 "hg-v2-roster\x00" ++ communityKey ++ utf8 (channelId ++ "\x00")
    ++ utf8 (toString segment ++ "\x00" ++ toString start ++ "\x00") ++ log)

/-- Whether a roster entry is genuinely the author's. -/
def verifyEntry (e : Raw) : Bool :=
  (crypto.verify (rosterSignable crypto communityKey channelId segment e.log e.start) e.sig
    e.author).getD false

-- The union of rosters

/-- What a roster has of a segment: its keys are a segment and an author each. -/
structure Reading where
  entries : List Raw
  once : (entries.map Raw.author).Nodup

/-- A keeper's roster, and what is read of it for the segment, unless that throws. -/
abbrev Opened := Key × Option Reading

/-- The union of these rosters' entries for a segment: signature checked, lowest start per author.
`keeper`: read one keeper's.
-/
def entriesFrom (keeper : Option Key) (rosters : List Opened) : List Entry :=
  let byAuthor := rosters.foldl
    (fun byAuthor opened =>
      if keeper.any (· ≠ opened.1) then byAuthor
      else
        match opened.2 with
        | none => byAuthor
        | some reading =>
            reading.entries.foldl
              (fun byAuthor e =>
                if verifyEntry crypto communityKey channelId segment e then lower byAuthor e.entry
                else byAuthor)
              byAuthor)
    .empty
  byAuthor.entries.map Prod.snd

/-- The entries of a roster that count: those of a keeper asked for, with their authors' signatures. -/
def counted (keeper : Option Key) (opened : Opened) : List Entry :=
  if keeper.any (· ≠ opened.1) then []
  else
    match opened.2 with
    | none => []
    | some reading =>
        (reading.entries.filter (verifyEntry crypto communityKey channelId segment)).map Raw.entry

/-- No author signed entries for two logs that both start at the lowest of its starts. -/
def Agree (keeper : Option Key) (rosters : List Opened) : Prop :=
  ∀ e other,
    Least.Lowest Entry.author Entry.start
      (rosters.map (counted crypto communityKey channelId segment keeper)) e →
    Least.Lowest Entry.author Entry.start
      (rosters.map (counted crypto communityKey channelId segment keeper)) other →
    e.author = other.author → e.log = other.log

variable {crypto communityKey channelId segment} {keeper : Option Key} {rosters order : List Opened}
  {opened : Opened} {e : Entry}

theorem foldl_counted (reading : Reading) (byAuthor : Dict Key Entry)
    : reading.entries.foldl
        (fun byAuthor e =>
          if verifyEntry crypto communityKey channelId segment e then lower byAuthor e.entry
          else byAuthor)
        byAuthor
      = Least.gather Entry.author Entry.start byAuthor
          ((reading.entries.filter (verifyEntry crypto communityKey channelId segment)).map
            Raw.entry) := by
  rw [Least.gather, List.foldl_map, List.foldl_filter, lower_eq]

/-- Rosters are read as one list of the entries that count; induction on the rosters. -/
theorem entriesFrom_eq
    : entriesFrom crypto communityKey channelId segment keeper rosters
      = (Least.gather Entry.author Entry.start .empty
          (rosters.map (counted crypto communityKey channelId segment keeper)).flatten).entries.map
          Prod.snd := by
  unfold entriesFrom
  dsimp only
  congr 2
  generalize Dict.empty = byAuthor
  induction rosters generalizing byAuthor with
  | nil => rfl
  | cons opened rest ih =>
      rw [List.foldl_cons, ih, List.map_cons, List.flatten_cons, Least.gather_append]
      congr 1
      unfold counted
      split
      · rfl
      · split
        · rfl
        · exact foldl_counted _ _

theorem mem_entriesFrom
    : e ∈ entriesFrom crypto communityKey channelId segment keeper rosters
      ↔ (Least.gather Entry.author Entry.start .empty
          (rosters.map (counted crypto communityKey channelId segment keeper)).flatten).get? e.author
        = some e := by
  rw [entriesFrom_eq, List.mem_map]
  constructor
  · rintro ⟨⟨author, entry⟩, mem, rfl⟩
    have found := Dict.mem_entries_iff.mp mem
    have own := (Least.of_gather_empty found).2
    exact own ▸ found
  · exact fun found => ⟨(e.author, e), Dict.mem_entries_iff.mpr found, rfl⟩

theorem nodup_counted
    : ((counted crypto communityKey channelId segment keeper opened).map Entry.author).Nodup := by
  unfold counted
  split
  · exact List.nodup_nil
  · split
    · exact List.nodup_nil
    · rename_i reading _
      rw [List.map_map]
      exact (List.filter_sublist.map Raw.author).nodup reading.once

/-- An entry counted is of a roster read, under its author's signature for the channel and segment. -/
theorem of_mem_counted (mem : e ∈ counted crypto communityKey channelId segment keeper opened)
    : ∃ reading, opened.2 = some reading ∧ ∃ raw ∈ reading.entries,
        verifyEntry crypto communityKey channelId segment raw = true ∧ raw.entry = e := by
  unfold counted at mem
  split at mem
  · cases mem
  · split at mem
    · cases mem
    · rename_i reading is
      obtain ⟨raw, there, same⟩ := List.mem_map.mp mem
      obtain ⟨held, verified⟩ := List.mem_filter.mp there
      exact ⟨reading, is, raw, held, verified, same⟩

theorem verified_of_mem
    (mem : e ∈ entriesFrom crypto communityKey channelId segment keeper rosters)
    : ∃ opened ∈ rosters, ∃ reading, opened.2 = some reading ∧ ∃ raw ∈ reading.entries,
        verifyEntry crypto communityKey channelId segment raw = true ∧ raw.entry = e := by
  have there := (Least.of_gather_empty (mem_entriesFrom.mp mem)).1
  obtain ⟨list, listed, held⟩ := List.mem_flatten.mp there
  obtain ⟨opened, among, rfl⟩ := List.mem_map.mp listed
  exact ⟨opened, among, of_mem_counted held⟩

/-- One more roster keeps every author, at its start or a lower one. -/
theorem added_lowers (perm : order.Perm (opened :: rosters))
    (mem : e ∈ entriesFrom crypto communityKey channelId segment keeper rosters)
    : ∃ kept ∈ entriesFrom crypto communityKey channelId segment keeper order,
        kept.author = e.author ∧ kept.start ≤ e.start := by
  have there := (Least.of_gather_empty (mem_entriesFrom.mp mem)).1
  have listed : e ∈ (order.map (counted crypto communityKey channelId segment keeper)).flatten := by
    rw [(perm.map _).flatten.mem_iff, List.map_cons, List.flatten_cons]
    exact List.mem_append_right _ there
  obtain ⟨kept, found, below⟩ := Least.gather_mem Entry.author Entry.start .empty listed
  have own := (Least.of_gather_empty found).2
  exact ⟨kept, mem_entriesFrom.mpr (own ▸ found), own.symm, below⟩

/-- Where authors agree, each order of the rosters gives the same entries. -/
theorem unordered_of_agree (agree : Agree crypto communityKey channelId segment keeper rosters)
    (perm : order.Perm rosters)
    : e ∈ entriesFrom crypto communityKey channelId segment keeper order
      ↔ e ∈ entriesFrom crypto communityKey channelId segment keeper rosters := by
  have one
      : Least.Agree Entry.author Entry.start
          (rosters.map (counted crypto communityKey channelId segment keeper)) := by
    intro first second low low' same
    have log := agree first second low low' same
    have start := le_antisymm (low.le second low'.mem same.symm) (low'.le first low.mem same)
    cases first
    cases second
    cases same
    cases log
    cases start
    rfl
  rw [mem_entriesFrom, mem_entriesFrom, Least.agree_perm one (perm.map _)]

/-- A lowest entry is what the order gives that has its roster first. -/
theorem mem_of_first
    (low : Least.Lowest Entry.author Entry.start
      (rosters.map (counted crypto communityKey channelId segment keeper)) e)
    : ∃ order, order.Perm rosters
        ∧ e ∈ entriesFrom crypto communityKey channelId segment keeper order := by
  obtain ⟨list, listed, held⟩ := List.mem_flatten.mp low.mem
  obtain ⟨opened, among, rfl⟩ := List.mem_map.mp listed
  obtain ⟨before, after, rfl⟩ := List.append_of_mem among
  have perm : (opened :: (before ++ after)).Perm (before ++ opened :: after) :=
    List.perm_middle.symm
  refine ⟨opened :: (before ++ after), perm, mem_entriesFrom.mpr ?_⟩
  exact Least.get?_of_first nodup_counted held ((Least.lowest_perm (perm.map _)).mpr low)

theorem agree_of_unordered
    (unordered
      : ∀ order, order.Perm rosters → ∀ e,
          e ∈ entriesFrom crypto communityKey channelId segment keeper order
          ↔ e ∈ entriesFrom crypto communityKey channelId segment keeper rosters)
    : Agree crypto communityKey channelId segment keeper rosters := by
  intro e other low low' same
  obtain ⟨order, perm, mem⟩ := mem_of_first low
  obtain ⟨order', perm', mem'⟩ := mem_of_first low'
  have found := mem_entriesFrom.mp ((unordered order perm e).mp mem)
  rw [same, mem_entriesFrom.mp ((unordered order' perm' other).mp mem')] at found
  exact congrArg Entry.log (Option.some.inj found).symm

/-- Each entry verifies and one more roster raises no start; the entries are those of every order of the
rosters where no author signed entries for two logs at the lowest of its starts, and only there.
-/
theorem unordered_iff_agree (rosters : List Opened)
    : ((∀ order, order.Perm rosters → ∀ e,
          e ∈ entriesFrom crypto communityKey channelId segment keeper order
          ↔ e ∈ entriesFrom crypto communityKey channelId segment keeper rosters)
        ∧ (∀ e ∈ entriesFrom crypto communityKey channelId segment keeper rosters,
            ∃ opened ∈ rosters, ∃ reading, opened.2 = some reading ∧ ∃ raw ∈ reading.entries,
              verifyEntry crypto communityKey channelId segment raw = true ∧ raw.entry = e)
        ∧ ∀ opened order, order.Perm (opened :: rosters) →
            ∀ e ∈ entriesFrom crypto communityKey channelId segment keeper rosters,
              ∃ kept ∈ entriesFrom crypto communityKey channelId segment keeper order,
                kept.author = e.author ∧ kept.start ≤ e.start)
      ↔ Agree crypto communityKey channelId segment keeper rosters := by
  constructor
  · rintro ⟨unordered, -, -⟩
    exact agree_of_unordered unordered
  · intro agree
    refine ⟨fun order perm e => unordered_of_agree agree perm, fun e mem => verified_of_mem mem, ?_⟩
    exact fun opened order perm e mem => added_lowers perm mem

end Signed

-- An author of two logs

namespace Example

/-- A signature is the message and the key. -/
def crypto : Crypto := ⟨id, fun message sig author => some (sig = message ++ author)⟩

/-- An author's entry for a log, from its start, with its signature. -/
def signed (log : Key) : Raw := ⟨⟨log, 0, rosterSignable crypto [1] "general" 7 log 0 ++ [2]⟩, [2]⟩

/-- A keeper's roster that has the entry. -/
def kept (keeper log : Key) : Opened := (keeper, some ⟨[signed log], List.nodup_singleton _⟩)

theorem counted_kept (keeper log : Key)
    : counted crypto [1] "general" 7 none (kept keeper log) = [⟨[2], log, 0⟩] := by
  have verified : verifyEntry crypto [1] "general" 7 (signed log) = true := by
    simp [verifyEntry, signed, crypto]
  have only : [signed log].filter (verifyEntry crypto [1] "general" 7) = [signed log] :=
    List.filter_eq_self.mpr fun e mem => List.mem_singleton.mp mem ▸ verified
  rw [counted, if_neg (by simp), kept]
  dsimp only
  rw [only]
  rfl

end Example

open Example in
/-- Of entries for two logs, signed at one start, the one counts whose keeper was opened first. -/
theorem unordered_fails
    : ¬ ∀ (crypto : Crypto) communityKey channelId segment keeper (rosters order : List Opened),
        order.Perm rosters → ∀ e,
          e ∈ entriesFrom crypto communityKey channelId segment keeper order
          ↔ e ∈ entriesFrom crypto communityKey channelId segment keeper rosters := by
  intro all
  have agree := agree_of_unordered
    fun order => all crypto [1] "general" 7 none [kept [3] [5], kept [4] [6]] order
  have low (log : Key) (mem : log = [5] ∨ log = [6])
      : Least.Lowest Entry.author Entry.start
          ([kept [3] [5], kept [4] [6]].map (counted crypto [1] "general" 7 none))
          ⟨[2], log, 0⟩ := by
    refine ⟨?_, fun _ _ _ => Nat.zero_le _⟩
    simpa [counted_kept] using mem
  exact absurd (agree _ _ (low [5] (.inl rfl)) (low [6] (.inr rfl)) rfl) (by decide)

end Hypergraph.Channels.Unions
