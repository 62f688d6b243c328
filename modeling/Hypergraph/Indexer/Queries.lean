import Hypergraph.Indexer.Latest
import Hypergraph.Lib.Pages

/-! Reads of the index, page by page (`Query` and `taggedRows` in `lib/index/query.js`, with `_linkCounts`,
`_shaped` and `#content` of `lib/space.js`): whichever index a read goes by, and however its pages are
cut, it comes to the records that pass its filters, the newest first. Pages of no records are left out.
-/

namespace Hypergraph.Indexer

open Wire Encodings Fields Js Hypergraph.Types

-- Places

/-- Index keys end with the stamp and the id, whose bytes are in this order. -/
abbrev Place := ℕ ×ₗ (List ℕ ×ₗ (List ℕ ×ₗ ℕ))

def placeOf (stamp : Nat) (id : RecordId) : Place :=
  toLex (stamp, toLex (id.log.map UInt8.toNat,
    toLex ((compactUint.encode id.seq).map UInt8.toNat, id.seq)))

def Row.place (row : Row) : Place := placeOf row.stamp row.id

/-- The rows of an index, read in reverse. -/
def Index.newest (index : Index) : List Row :=
  Newest.sort Row.place (index.records.toList.map Prod.snd)

-- Links that count

/-- `types.linkAllowed`. -/
def linkAllowed (decl : TypeDecl) (field targetType : String) : Bool :=
  (decl.links.get? field).all fun allowed => allowed.contains targetType

/-- Does a record point at one of a type through a link that counts? `none`: its fields matter, and
aren't here.
-/
def linkCounts (space : Space) (type : String) (values : Option Values) (target : RecordId)
    (targetType : Option String)
    : Option Bool :=
  match targetType, space.typeOf type with
  | some targetType, some decl =>
      let fields := (decl.fields.filter fun field => field.2 = .link).map Prod.fst
      let allowing := fields.filter fun field => linkAllowed decl field targetType
      if allowing.length = fields.length then some true
      else
        values.map fun values =>
          let via := fields.filter fun field => space.linkOf (values field) = some target
          via.isEmpty || via.any fun field => allowing.contains field
  | _, _ => some true

/-- A read: its filters, all of which hold of what it finds. -/
structure Query where
  type : String
  /-- `where`: values by field. -/
  filter : Option (List (String × Option FieldValue)) := none
  author : Option Key := none
  device : Option Key := none
  tagged : Option Units := none
  target : Option RecordId := none
  from_ : Nat := 0
  /-- `none`: `Infinity`. -/
  to_ : Option Nat := none

/-- What is to be held for an answer to be complete. -/
inductive Need
  | own
  | since (stamp : Nat)
  /-- The whole space. -/
  | all

structure Page where
  items : List Row
  partial_ : Bool
  need : Need

def unknownType (name : String) : HypergraphError :=
  ⟨"INVALID_TYPE", "Unknown type \"" ++ name
    ++ "\": declare it in Hypergraph.open(dir, \x7b types \x7d), or in one space with space.declareTypes()"⟩

section Reads

/-- What a read sees: the space, its decisions and its index; of which dropped records the content comes
by the read's deadline; whether the space's types are still to arrive; and the reader's device.
-/
structure Reader where
  space : Space
  state : Deciding
  index : Index
  comes : RecordId → Bool
  typesPending : Bool
  me : Key

variable (r : Reader)

/-- A row with its content (`#content`), if it was dropped. -/
def Reader.content (row : Row) : Option Row :=
  if row.flags.dropped then
    if r.comes row.id then
      (r.space.putFields row.id).map fun fields =>
        { row with fields, flags := { row.flags with dropped := false, read := true } }
    else none
  else some row

/-- `_linkCounts`. -/
def Reader.linkCounts (row : Row) (target : RecordId) : Option Bool × Row :=
  let targetType := r.index.records[target]?.map Row.type
  let decode (row : Row) := r.space.decode row.type row.fields row.links
  match Indexer.linkCounts r.space row.type (if row.flags.dropped then none else decode row) target
      targetType with
  | some ok => (some ok, row)
  | none =>
      match r.content row with
      | none => (none, row)
      | some full => (Indexer.linkCounts r.space full.type (decode full) target targetType, full)

namespace Query

variable (q : Query)

/-- The key of `where`'s values, of an index the type declares. -/
def filterKey (decl : TypeDecl) : Checked (Option Units) :=
  match q.filter with
  | none => return none
  | some fields => do
      let names := fields.map Prod.fst
      throwIf (!decl.index.any fun index => ",".intercalate index = ",".intercalate names)
        ⟨"INVALID_TYPE", q.type ++ " declares no index on " ++ ", ".intercalate names
          ++ ": add index: [[" ++ ", ".intercalate (names.map fun name => "'" ++ name ++ "'")
          ++ ", 'stamp']]"⟩
      throwIf (fields.all fun field => field.2.isNone)
        ⟨"INVALID_RECORD", "where() needs a value for " ++ " or ".intercalate names
          ++ ": records with no value there aren't in the index"⟩
      return some (Units.ofText (",".intercalate names) ++ [0]
        ++ [0].intercalate (fields.map fun field => field.2.elim [] r.space.string))

/-- The filters that the loop checks on each row, `after` apart. -/
def matches_ (ix : Option Units) (row : Row) : Bool :=
  row.type = q.type && !(row.flags.hidden || row.flags.superseded)
    && mayPut r.space r.state row
    && q.from_ ≤ row.stamp && q.to_.all (row.stamp < ·)
    && q.device.all (row.device = ·) && q.author.all (row.author = ·)
    && q.target.all row.links.contains
    && ix.all row.ix.contains && (q.tagged.map tagKey).all row.ix.contains

/-- The rows under the start of the keys read, in the index that the filters pick. -/
def under (ix : Option Units) (row : Row) : Bool :=
  match ix.or (q.tagged.map tagKey), q.target, q.author with
  | some key, _, _ => row.type = q.type && row.ix.contains key
  | none, some target, _ => row.type = q.type && row.links.contains target
  | none, none, some author => row.author = author
  | none, none, none => row.type = q.type

/-- The highest stamp to read; `none`: `Infinity`. -/
def top (after : Option Place) : Option ℤ :=
  match after.map fun after => ((ofLex after).1 : ℤ), q.to_.map fun to_ => (to_ : ℤ) - 1 with
  | none, top => top
  | top, none => top
  | some first, some second => some (min first second)

def inRange (ix : Option Units) (after : Option Place) (row : Row) : Bool :=
  q.under ix row && (q.from_ = 0 || q.from_ ≤ row.stamp)
    && (q.top after).all fun top => (row.stamp : ℤ) ≤ max 0 top

def judge (row : Row) : Option Bool × Row :=
  match q.target with
  | none => (some true, row)
  | some target => r.linkCounts row target

/-- The loop over the rows read, until there are `n`. -/
def collect (passes : Row → Bool) (n : Nat) : List Row → List Row → Bool → List Row × Bool
  | [], items, partial_ => (items, partial_)
  | row :: rest, items, partial_ =>
      if ¬ passes row then collect passes n rest items partial_
      else
        let (ok, row) := q.judge r row
        if ok ≠ some true then collect passes n rest items (partial_ || ok.isNone)
        else if (items ++ [row]).length = n then (items ++ [row], partial_)
        else collect passes n rest (items ++ [row]) partial_

/-- One page (`#run`), of the records after a place. -/
def run (n : ℕ+) (after : Option Place) : Checked Page :=
  match r.space.typeOf q.type with
  | none => if r.typesPending then return ⟨[], true, .all⟩ else throw (unknownType q.type)
  | some decl => do
      let ix ← q.filterKey r decl
      if (q.top after).any (· < (q.from_ : ℤ)) then return ⟨[], false, .since q.from_⟩
      else
        let passes row := q.matches_ r ix row
          && !after.any fun after =>
            decide (row.stamp = (ofLex after).1 ∧ (ofLex after).2 ≤ (ofLex row.place).2)
        let (items, partial_) := q.collect r passes n (r.index.newest.filter (q.inRange ix after)) [] false
        let shaped := items.filterMap r.content
        let need :=
          if q.device = some r.me then .own
          else if items.length = n then .since (max q.from_ (items.getLast?.elim 0 Row.stamp))
          else .since q.from_
        return ⟨shaped, partial_ || shaped.length < items.length, need⟩

/-- A row that counts, with its content where that was needed. -/
def judged (row : Row) : Option Row :=
  if (q.judge r row).1 = some true then some (q.judge r row).2 else none

/-- What a read is of: every record that passes its filters, the newest first. -/
def all (ix : Option Units) : List Row :=
  (r.index.newest.filter (q.matches_ r ix)).filterMap (q.judged r)

end Query

/-- The app's types. -/
def Reader.names : List String :=
  (r.space.types.types.entries.map Prod.fst).filter fun name => !ownPrefix name

/-- Records of any of the app's types with a tag, the newest first. -/
def taggedRows (tag : Units) (n : ℕ+) (after : Option Place) : Checked Page := do
  let lists ← r.names.mapM fun name => ({ type := name, tagged := some tag } : Query).run r n after
  let items := (Newest.sort Row.place (lists.flatMap Page.items)).take n
  return ⟨items, lists.any Page.partial_,
    .since (if items.length = n then items.getLast?.elim 0 Row.stamp else 0)⟩

end Reads

-- In order

section Order

variable {space : Space} {index : Index} {row other : Row}

theorem id_of_place (same : row.place = other.place) : row.id = other.id := by
  have same := congrArg (fun place => (ofLex place).2) same
  have log := List.map_injective_iff.mpr (fun _ _ => UInt8.toNat_inj.mp) (congrArg (fun id => (ofLex id).1) same)
  have seq : row.id.seq = other.id.seq := congrArg (fun id => (ofLex (ofLex id).2).2) same
  cases is : row.id
  cases is' : other.id
  simp_all

theorem sorted_newest (sound : index.Sound space)
    : index.newest.Pairwise fun row other => other.place < row.place := by
  have apart : (index.records.toList.map Prod.snd).Pairwise fun row other => row.place ≠ other.place := by
    refine List.pairwise_map.mpr (Std.ExtTreeMap.distinct_keys_toList.imp_of_mem ?_)
    rintro ⟨id, row⟩ ⟨id', row'⟩ mem mem' apart same
    have at_ := Std.ExtTreeMap.mem_toList_iff_getElem?_eq_some.mp mem
    have at_' := Std.ExtTreeMap.mem_toList_iff_getElem?_eq_some.mp mem'
    refine apart (Std.LawfulEqOrd.compare_eq_iff_eq.mpr ?_)
    exact (sound.ofBlock id row at_).id_eq.symm.trans
      ((id_of_place same).trans (sound.ofBlock id' row' at_').id_eq)
  have listed : index.newest.Perm (index.records.toList.map Prod.snd) := Newest.perm_sort _
  have apart := (listed.pairwise_iff Ne.symm).mpr apart
  exact (Newest.pairwise_sort _).and apart |>.imp fun ⟨le, ne⟩ => lt_of_le_of_ne le ne.symm

end Order

section Pages

variable {r : Reader} {q : Query} {ix : Option Units} {n : ℕ+} {after : Option Place} {row : Row}

theorem place_content {full : Row} (is : r.content row = some full) : full.place = row.place := by
  unfold Reader.content at is
  split_ifs at is
  · obtain ⟨fields, _, rfl⟩ := Option.map_eq_some_iff.mp is
    rfl
  · cases is
    rfl

theorem place_judge : (q.judge r row).2.place = row.place := by
  unfold Query.judge Reader.linkCounts
  split
  · rfl
  · dsimp only
    split
    · rfl
    · split
      · rfl
      · rename_i is
        exact place_content is

theorem place_judged {full : Row} (is : q.judged r row = some full) : full.place = row.place := by
  unfold Query.judged at is
  split_ifs at is
  cases is
  exact place_judge

/-- The loop stops at the first `n` of what counts of the rows that pass. -/
theorem collect_eq {passes : Row → Bool} {rows items : List Row} {partial_ : Bool}
    (fewer : items.length < n)
    : (q.collect r passes n rows items partial_).1
      = (items ++ (rows.filter passes).filterMap (q.judged r)).take n := by
  induction rows generalizing items partial_ with
  | nil => simp [Query.collect, List.take_of_length_le fewer.le]
  | cons row rest ih =>
      unfold Query.collect
      by_cases pass : passes row
      · rw [if_neg (not_not.mpr pass), List.filter_cons_of_pos pass]
        dsimp only
        by_cases ok : (q.judge r row).1 = some true
        · have here : q.judged r row = some (q.judge r row).2 := if_pos ok
          have whole : items ++ (q.judge r row).2 :: (rest.filter passes).filterMap (q.judged r)
              = items ++ [(q.judge r row).2] ++ (rest.filter passes).filterMap (q.judged r) := by
            simp
          rw [if_neg (not_not.mpr ok), List.filterMap_cons_some here, whole]
          split
          · rename_i full
            rw [List.take_left' full]
          · rename_i more
            refine ih (lt_of_le_of_ne ?_ more)
            rw [List.length_append]
            exact fewer
        · have none_ : q.judged r row = none := if_neg ok
          rw [if_pos ok, List.filterMap_cons_none none_]
          exact ih fewer
      · rw [if_pos pass, List.filter_cons_of_neg pass]
        exact ih fewer

/-- What is below a place in what counts is what counts of the rows below it. -/
theorem below_judged {rows : List Row}
    : Pages.below Row.place after (rows.filterMap (q.judged r))
      = (Pages.below Row.place after rows).filterMap (q.judged r) := by
  induction rows with
  | nil => rfl
  | cons row rest ih =>
      unfold Pages.below at ih ⊢
      cases is : q.judged r row with
      | none =>
          rw [List.filterMap_cons_none is, ih, List.filter_cons]
          split
          · rw [List.filterMap_cons_none is]
          · rfl
      | some full =>
          rw [List.filterMap_cons_some is, List.filter_cons, List.filter_cons, place_judged is, ih]
          split
          · rw [List.filterMap_cons_some is]
          · rfl

theorem under_of_matches (found : q.matches_ r ix row = true) : q.under ix row = true := by
  simp only [Query.matches_, Bool.and_eq_true, decide_eq_true_eq] at found
  obtain ⟨⟨⟨⟨⟨⟨⟨⟨⟨type, _⟩, _⟩, _⟩, _⟩, _⟩, author⟩, target⟩, key⟩, tag⟩ := found
  unfold Query.under
  split
  · rename_i is
    rcases Option.or_eq_some_iff.mp is with is | ⟨_, is⟩
    · simpa [type, is] using key
    · simpa [type, is] using tag
  · rename_i is
    simpa [type, is] using target
  · rename_i is
    simpa [is] using author
  · simpa using type

/-- The rows read that the loop lets pass are those that match, below the place. -/
theorem read_iff
    : (q.inRange ix after row && (q.matches_ r ix row
        && !after.any fun after =>
          decide (row.stamp = (ofLex after).1 ∧ (ofLex after).2 ≤ (ofLex row.place).2)))
      = (q.matches_ r ix row && after.all fun after => decide (row.place < after)) := by
  by_cases found : q.matches_ r ix row
  swap
  · simp [found]
  have under := under_of_matches found
  simp only [found, Query.inRange, under, Bool.true_and]
  simp only [Query.matches_, Bool.and_eq_true, decide_eq_true_eq] at found
  obtain ⟨⟨⟨⟨⟨⟨⟨⟨⟨_, _⟩, _⟩, from_⟩, until_⟩, _⟩, _⟩, _⟩, _⟩, _⟩ := found
  rw [Bool.eq_iff_iff]
  unfold Query.top
  cases after with
  | none =>
      cases is : q.to_ with
      | none => simp [from_]
      | some to_ =>
          simp only [is, Option.all_some, decide_eq_true_eq] at until_
          simp [from_]
          omega
  | some after =>
      have lower : row.place < after ↔ row.stamp < (ofLex after).1
          ∨ row.stamp = (ofLex after).1 ∧ (ofLex row.place).2 < (ofLex after).2 := Prod.Lex.lt_iff
      by_cases beyond : (ofLex after).2 ≤ (ofLex row.place).2
      · have not_ := not_lt.mpr beyond
        cases is : q.to_ with
        | none =>
            simp [from_, lower, beyond, not_]
            omega
        | some to_ =>
            simp only [is, Option.all_some, decide_eq_true_eq] at until_
            simp [from_, lower, beyond, not_]
            omega
      · have before := not_le.mp beyond
        cases is : q.to_ with
        | none =>
            simp [from_, lower, before]
            omega
        | some to_ =>
            simp only [is, Option.all_some, decide_eq_true_eq] at until_
            simp [from_, lower, before]
            omega

/-- No row that matches is below a place from before `since`. -/
theorem none_below (early : (q.top after).any (· < (q.from_ : ℤ)) = true)
    : Pages.below Row.place after (q.all r ix) = [] := by
  have read (row : Row) : (after.all (row.place < ·) && q.matches_ r ix row) = false := by
    by_contra found
    simp only [Bool.not_eq_false, Bool.and_eq_true, Query.matches_, decide_eq_true_eq] at found
    obtain ⟨lower, ⟨⟨⟨⟨⟨⟨_, from_⟩, until_⟩, _⟩, _⟩, _⟩, _⟩, _⟩ := found
    unfold Query.top at early
    cases is : q.to_ <;> cases after with
    | none => simp [is] at early until_ <;> omega
    | some after =>
        have upTo : row.stamp ≤ (ofLex after).1 := by
          rcases Prod.Lex.lt_iff.mp (of_decide_eq_true lower) with less | ⟨same, _⟩
          · exact less.le
          · exact same.le
        simp [is] at early until_
        omega
  unfold Query.all
  rw [below_judged, Pages.below, List.filter_filter]
  simp [read]

/-- A page is of the first that count after a place, those whose content is here or comes. -/
theorem run_items {decl : TypeDecl} (declared : r.space.typeOf q.type = some decl)
    (asked : q.filterKey r decl = .ok ix)
    : ∃ page, q.run r n after = .ok page
      ∧ page.items = ((Pages.below Row.place after (q.all r ix)).take n).filterMap r.content := by
  unfold Query.run
  rw [declared]
  dsimp only
  rw [asked]
  split
  · rename_i early
    exact ⟨_, rfl, by rw [none_below early]; simp⟩
  · refine ⟨_, rfl, ?_⟩
    dsimp only
    rw [collect_eq (by simp), List.nil_append, List.filter_filter]
    unfold Query.all
    rw [below_judged, Pages.below, List.filter_filter]
    congr 3
    refine List.filter_congr fun row _ => ?_
    rw [Bool.and_comm, read_iff, Bool.and_comm]

theorem sorted_all (sound : r.index.Sound r.space)
    : (q.all r ix).Pairwise fun row other => other.place < row.place := by
  refine ((sorted_newest sound).filter _).filterMap _ fun row other above full is full' is' => ?_
  rw [place_judged is, place_judged is']
  exact above

/-- Whatever runs the index went through, its rows are of the blocks they are named after. -/
theorem sound_of_run {space : Space} {allowed : Index → Event → Prop} {index : Index}
    (run : Run space allowed index)
    : index.Sound space :=
  (@run_keeps space (fun _ _ => True) index allowed (fun _ => True)
    (fun _ event _ => by cases event <;> simp [Spares]) (fun _ => trivial)
    (fun _ _ _ _ _ => trivial) run).1

/-- What a page shows. -/
def itemsOf (page : Checked Page) : List Row := page.toOption.elim [] Page.items

/-- The notes and the tags looked at after two of the votes. -/
def votesTagged : Index :=
  [4, 5, 6, 7, 8].foldl
    (fun index seq => index.step voteSpace (.look (.of (votersAt 4)) ⟨Decisions.keyOf 3, seq⟩ false)) votedBack

theorem votesTagged_run : Run voteSpace (fun _ _ => True) votesTagged :=
  List.foldlRecOn _ _ (.step _ (.step _ (.start _) trivial) trivial) fun _ run _ _ => .step _ run trivial

/-- A member reads what was voted. -/
def voteReader : Reader where
  space := voteSpace
  state := .of (votersAt 5)
  index := votesTagged
  comes _ := false
  typesPending := false
  me := Decisions.keyOf 13

end Pages

-- Tagged records of every type

section Tagged

variable {r : Reader} {n : ℕ+} {after : Option Place}

/-- The records with a tag, each of which a read of its type finds, the newest first. -/
def Reader.tagged (r : Reader) (tag : Units) : List Row :=
  r.index.newest.filter fun row =>
    row.type ∈ r.names && ({ type := row.type, tagged := some tag } : Query).matches_ r none row

theorem all_tagged {name : String} {tag : Units} (listed : name ∈ r.names)
    : ({ type := name, tagged := some tag } : Query).all r none
      = (r.tagged tag).filter fun row => row.type = name := by
  unfold Query.all Reader.tagged
  rw [List.filter_filter, show Query.judged r { type := name, tagged := some tag } = some from rfl,
    List.filterMap_some]
  refine List.filter_congr fun row _ => ?_
  by_cases same : row.type = name
  · subst same
    simp [listed]
  · simp [same, Query.matches_]

theorem sort_sorted {rows : List Row} (sorted : rows.Pairwise fun row other => other.place < row.place)
    : Newest.sort Row.place rows = rows :=
  (sorted.imp fun above => above.le).insertionSort_eq

/-- Merging a page of each type gives a page of them all: what is left out of its type's page comes
after as many of it as there are in a page.
-/
theorem take_merged {names : List String} (unique : names.Nodup) {rows : List Row}
    (sorted : rows.Pairwise fun row other => other.place < row.place)
    (listed : ∀ row ∈ rows, row.type ∈ names)
    : (Newest.sort Row.place (names.flatMap fun name => (rows.filter fun row => row.type = name).take n)).take n
      = rows.take n := by
  have nodup : rows.Nodup := sorted.imp fun above same => (same ▸ above).ne rfl
  have apart : Newest.Apart Row.place rows := by
    have places : (rows.map Row.place).Nodup := List.pairwise_map.mpr (sorted.imp fun above => above.ne')
    exact fun row other mem mem' same => List.inj_on_of_nodup_map places mem mem' same
  have of_part {name : String} {row : Row}
      (mem : row ∈ (rows.filter fun row => row.type = name).take n)
      : row ∈ rows ∧ row.type = name := by
    simpa using List.mem_of_mem_take mem
  conv_rhs => rw [← sort_sorted sorted]
  refine Newest.take_sort_of_part apart nodup ?_ ?_ fun row mem out => ?_
  · refine List.nodup_flatMap.mpr ⟨fun name _ => (nodup.filter _).take, unique.imp fun other row mem mem' => ?_⟩
    exact other ((of_part mem).2.symm.trans (of_part mem').2)
  · intro row mem
    obtain ⟨name, _, mem⟩ := List.mem_flatMap.mp mem
    exact (of_part mem).1
  · have part : ((rows.filter fun other => other.type = row.type).take n).Sublist
        (names.flatMap fun name => (rows.filter fun row => row.type = name).take n) :=
      List.sublist_flatten_of_mem (List.mem_map.mpr ⟨row.type, listed row mem, rfl⟩)
    refine le_trans ?_ part.countP_le
    have own : row ∈ rows.filter fun other => other.type = row.type := by simp [mem]
    have out : row ∉ (rows.filter fun other => other.type = row.type).take n :=
      fun here => out (part.subset here)
    have typed := sorted.filter fun other => other.type = row.type
    generalize rows.filter (fun other => other.type = row.type) = own_ at own out typed
    rw [← List.take_append_drop n own_] at own typed
    have later := (List.mem_append.mp own).resolve_left out
    have above (other : Row) (mem : other ∈ own_.take n) : row.place < other.place :=
      (List.pairwise_append.mp typed).2.2 other mem row later
    have long := List.length_pos_of_mem later
    rw [List.length_drop] at long
    rw [List.countP_eq_length.mpr fun other mem => decide_eq_true (above other mem),
      List.length_take_of_le (by omega)]

/-- A page of tagged records is of the first with the tag after a place. -/
theorem taggedRows_items (sound : r.index.Sound r.space)
    (whole : ∀ row ∈ r.index.newest, row.flags.dropped = false) (tag : Units)
    : itemsOf (taggedRows r tag n after) = (Pages.below Row.place after (r.tagged tag)).take n := by
  have sorted := ((sorted_newest sound).filter fun row =>
    row.type ∈ r.names && ({ type := row.type, tagged := some tag } : Query).matches_ r none row)
  have here (row : Row) (mem : row ∈ r.tagged tag) : r.content row = some row := by
    rw [Reader.content, whole row (List.mem_filter.mp mem).1]
    rfl
  have unique : r.names.Nodup := r.space.types.types.unique.filter _
  -- each type's page
  have page (name : String) (mem : name ∈ r.names)
      : ∃ page, ({ type := name, tagged := some tag } : Query).run r n after = .ok page
        ∧ page.items
          = ((Pages.below Row.place after (r.tagged tag)).filter fun row => row.type = name).take n := by
    have declared : (r.space.typeOf name).isSome :=
      Dict.mem_keys_lookup.mp (List.mem_filter.mp mem).1
    obtain ⟨decl, is⟩ := Option.isSome_iff_exists.mp declared
    obtain ⟨page, ran, items⟩ := @run_items r { type := name, tagged := some tag } none n after decl is rfl
    refine ⟨page, ran, ?_⟩
    rw [items, all_tagged mem, Pages.below, List.filter_comm, ← Pages.below]
    refine (List.filterMap_congr fun row mem => ?_).trans List.filterMap_some
    exact here row (List.mem_filter.mp (List.mem_filter.mp (List.mem_of_mem_take mem)).1).1
  let value (name : String) : Page :=
    (({ type := name, tagged := some tag } : Query).run r n after).toOption.getD ⟨[], false, .all⟩
  have each (name : String) (mem : name ∈ r.names)
      : ({ type := name, tagged := some tag } : Query).run r n after = pure (value name)
        ∧ (value name).items
          = ((Pages.below Row.place after (r.tagged tag)).filter fun row => row.type = name).take n := by
    obtain ⟨page, ran, items⟩ := page name mem
    refine ⟨?_, ?_⟩
    all_goals simp only [value, ran]
    · rfl
    · exact items
  unfold taggedRows
  rw [Mapping.mapM_of_pure fun name mem => (each name mem).1]
  change (Newest.sort Row.place ((r.names.map value).flatMap Page.items)).take n = _
  rw [List.flatMap_map, List.flatMap_congr fun name mem => (each name mem).2]
  refine take_merged unique (sorted.filter _) fun row mem => ?_
  have mem := (List.mem_filter.mp (List.mem_filter.mp mem).1).2
  rw [Bool.and_eq_true, decide_eq_true_eq] at mem
  exact mem.1

end Tagged

end Hypergraph.Indexer
