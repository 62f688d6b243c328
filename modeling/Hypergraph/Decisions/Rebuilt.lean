import Hypergraph.Decisions.Scoping
import Hypergraph.Decisions.Standings

/-! A state kept in place and one made again (`lib/decisions/log.js`, `readChanges` and `_read`):
applying the entries that differ, in any order and whatever is read in between, leaves the state
the later view's entries make.
-/

namespace Hypergraph.Decisions.Readers

open Wire Js Encodings

-- Entries and changes

/-- A view's entries, as `createReadStream` gives them, in some order. -/
def Entries (v : View) (entries : List (Text × Value)) : Prop :=
  ∀ key value, (key, value) ∈ entries
    ↔ ∃ scope name, key = keyText scope name ∧ v.entry scope name = some value

/-- The entries two views differ in, as `createDiffStream` gives them, in some order: with the
later view's value, or deleted.
-/
def Changes (v w : View) (changes : List (Text × Option Value)) : Prop :=
  ∀ key value, (key, value) ∈ changes
    ↔ ∃ scope name, key = keyText scope name ∧ v.entry scope name ≠ w.entry scope name
      ∧ w.entry scope name = value

/-- A state goes on to another: the changes are applied one after the other, and between them
sub-spaces' states and the types are asked for. A `sub` that throws leaves the state as it was:
nothing is kept of a sub-space whose parent there is none of.
-/
inductive State.Becomes : State → List (Text × Option Value) → State → Prop
  | done (s : State) : Becomes s [] s
  | change {s t : State} (key : Text) (value : Option Value) {rest : List (Text × Option Value)}
      (later : Becomes (s.apply key value) rest t)
    : Becomes s ((key, value) :: rest) t
  | asked {s between t : State} {key : Text} {found : Option Standing}
      {rest : List (Text × Option Value)} (gives : s.Gives key found between)
      (later : Becomes between rest t)
    : Becomes s rest t
  | typed {s t : State} {rest : List (Text × Option Value)} (later : Becomes s.types.2 rest t)
    : Becomes s rest t

-- On the way

/-- A state between two: each entry is the one before or the one after, the states made before
are right, and the types read before are those of their version after.
-/
structure Between (before after given : Scope → Name → Option Value) (s : State) : Prop where
  keeps : s.Keeps given
  either : ∀ scope name, given scope name = before scope name ∨ given scope name = after scope name
  fresh : s.Fresh
  parsed : ∀ version text, s.parsed = some (version, text)
    → after none (.typesAt version) = some (.declaration text)

/-- Versions of the types that were declared before are declared the same after. -/
def StillDeclared (before after : Scope → Name → Option Value) : Prop :=
  ∀ version value, before none (.typesAt version) = some value
    → after none (.typesAt version) = some value

section Way

variable {before after given : Scope → Name → Option Value} {s t : State}

theorem State.Keeps.alike (keeps : s.Keeps given) (alike : s.Alike t) : t.Keeps given := by
  constructor
  · rw [alike.maps]
    exact keeps.top
  · intro k long
    rw [alike.scoped_]
    exact keeps.under k long
  · intro place none_
    rw [alike.scoped_]
    exact keeps.only place none_

/-- One change. -/
theorem Between.apply (between : Between before after given s) {scope : Scope} (wide : Wide scope)
    (name : Name)
    : Between before after (withEntry given scope name (after scope name))
        (s.apply (keyText scope name) (after scope name)) := by
  constructor
  · exact between.keeps.apply wide name (after scope name)
  · intro other name'
    by_cases same : other = scope
    · subst same
      by_cases named : name' = name
      · subst named
        exact .inr (by simp [withEntry])
      · simpa [withEntry, named] using between.either other name'
    · simpa [withEntry, same] using between.either other name'
  · intro key made found
    rw [State.Keeps.apply_keyText s wide] at found
    cases scope <;> cases found
  · rw [State.Keeps.apply_keyText s wide]
    cases scope <;> exact between.parsed

theorem Between.asked (between : Between before after given s) {key : Text}
    {found : Option Standing} (gives : s.Gives key found t)
    : Between before after given t := by
  obtain ⟨fuel, ran⟩ := gives
  obtain ⟨alike, fresh, parsed, _⟩ := sub_made between.fresh ran
  exact ⟨between.keeps.alike alike, between.either, fresh, by rw [parsed]; exact between.parsed⟩

theorem Between.typed (between : Between before after given s) (still : StillDeclared before after)
    : Between before after given s.types.2 := by
  have declared {version : Nat} {text : String} (found : s.maps.typeVersions version = some text)
      : after none (.typesAt version) = some (.declaration text) := by
    rw [between.keeps.top.typeVersions] at found
    have entry : given none (.typesAt version) = some (.declaration text) := by
      obtain ⟨value, is, text_⟩ := Option.bind_eq_some_iff.mp found
      cases value <;> cases text_
      exact is
    rcases between.either none (.typesAt version) with first | later
    · exact still version _ (first.symm.trans entry)
    · exact later.symm.trans entry
  have put {text : String} (found : s.maps.typeVersions s.maps.typesVersion = some text)
      : Between before after given { s with parsed := some (s.maps.typesVersion, text) } := by
    refine ⟨between.keeps.alike ⟨rfl, fun _ => rfl⟩, between.either, ?_, ?_⟩
    · intro key made cached
      exact (between.fresh key made cached).alike ⟨rfl, fun _ => rfl⟩
    · intro version text' is
      cases is
      exact declared found
  unfold State.types
  split
  · exact between
  · rename_i text latest
    have found := (Option.filter_eq_some_iff.mp latest).1
    split
    · split
      · exact between
      · exact put found
    · exact put found

/-- Every change is an entry's, with its value after. -/
def ChangesTo (after : Scope → Name → Option Value) (changes : List (Text × Option Value)) : Prop :=
  ∀ key value, (key, value) ∈ changes
    → ∃ scope name, Wide scope ∧ key = keyText scope name ∧ after scope name = value

/-- All the changes: each entry is as it was, or changed to the one after; induction on the
changes and what is read between them.
-/
theorem Between.becomes {changes : List (Text × Option Value)}
    (between : Between before after given s) (still : StillDeclared before after)
    (told : ChangesTo after changes) (becomes : s.Becomes changes t)
    : ∃ given', Between before after given' t
      ∧ ∀ scope name, Wide scope → given' scope name = after scope name
        ∨ given' scope name = given scope name
          ∧ (keyText scope name, after scope name) ∉ changes := by
  induction becomes generalizing given with
  | done s => exact ⟨given, between, fun scope name _ => .inr ⟨rfl, by simp⟩⟩
  | change key value later ih =>
      obtain ⟨scope, name, wide, rfl, rfl⟩ := told key value List.mem_cons_self
      obtain ⟨given', between', came⟩ := ih (between.apply wide name)
        fun key value member => told key value (List.mem_cons_of_mem _ member)
      refine ⟨given', between', fun other name' wide' => ?_⟩
      rcases came other name' wide' with new | ⟨old, untold⟩
      · exact .inl new
      · by_cases same : keyText other name' = keyText scope name
        · obtain ⟨rfl, rfl⟩ := keyText_injective wide' wide same
          exact .inl (old.trans (by simp [withEntry]))
        · refine .inr ⟨old.trans ?_, by simp [same, untold]⟩
          by_cases here : other = scope
          · subst here
            have different : name' ≠ name := fun is => same (by rw [is])
            simp [withEntry, different]
          · simp [withEntry, here]
  | asked gives later ih => exact ih (between.asked gives) told
  | typed later ih => exact ih (between.typed still) told

/-- Where all that differs is changed, the state keeps what is after. -/
theorem Between.ends {changes : List (Text × Option Value)}
    (between : Between before after before s) (still : StillDeclared before after)
    (told : ChangesTo after changes) (becomes : s.Becomes changes t)
    (all : ∀ scope name, Wide scope → before scope name ≠ after scope name
      → (keyText scope name, after scope name) ∈ changes)
    (narrow : ∀ scope name, ¬ Wide scope → before scope name = after scope name)
    : Between before after after t := by
  obtain ⟨given, there, came⟩ := between.becomes still told becomes
  have same : given = after := by
    funext scope name
    by_cases wide : Wide scope
    · rcases came scope name wide with new | ⟨old, untold⟩
      · exact new
      · by_cases differs : before scope name = after scope name
        · exact old.trans differs
        · exact absurd (all scope name wide differs) untold
    · rcases there.either scope name with first | later
      · exact first.trans (narrow scope name wide)
      · exact later
  rwa [same] at there

/-- The types read are those of the latest version, whether parsed before or not. -/
theorem Between.types_eq (between : Between before after after s)
    : s.types.1 = (s.maps.typeVersions s.maps.typesVersion).filter (· ≠ "") := by
  unfold State.types
  split
  · rename_i latest
    exact latest.symm
  · rename_i text latest
    rw [latest]
    split
    · rename_i version made is
      split
      · rename_i current
        have declared := between.parsed version made is
        have found := (Option.filter_eq_some_iff.mp latest).1
        rw [between.keeps.top.typeVersions, ← current] at found
        simp only [declared, Option.bind_some, asDeclaration] at found
        exact found
      · rfl
    · rfl

end Way

-- Declared types

/-- No version above the latest is declared. -/
def UpToLatest (v : View) : Prop := ∀ version, v.types.getD 0 < version → v.typesAt version = none

section Declared

variable {env : Env} {v w : View} {node : Node}

/-- A node keeps what types are declared, or declares the version after the latest. -/
theorem declares_of_step (step : NodeStep env v node w) (sound : v.Sound)
    : (w.types = v.types ∧ w.typesAt = v.typesAt)
      ∨ ∃ types text, nextTypes env v types = some text ∧ w.types = some (v.types.getD 0 + 1)
        ∧ ∀ version, w.typesAt version
          = if version = v.types.getD 0 + 1 then some text else v.typesAt version := by
  rcases step.noted sound with same | ⟨d, writer, chain, u, counts, known, here, noted, same⟩
  · exact .inl ⟨same.types, same.typesAt⟩
  · rw [same.types, same.typesAt]
    generalize d.decision.body = body at noted
    cases noted with
    | typed types next text declared =>
        rw [← next]
        exact .inr ⟨types.types, text, declared, rfl, fun _ => rfl⟩
    | moderated | redeemed | revoked | listed | rotated => exact .inl ⟨rfl, rfl⟩

theorem UpToLatest.step (upTo : UpToLatest v) (step : NodeStep env v node w) (sound : v.Sound)
    : UpToLatest w ∧ ∀ version text, v.typesAt version = some text → w.typesAt version = some text := by
  rcases declares_of_step step sound with ⟨types, typesAt⟩ | ⟨_, text, -, types, typesAt⟩
  · unfold UpToLatest
    rw [types, typesAt]
    exact ⟨upTo, fun _ _ found => found⟩
  · constructor
    · intro version later
      rw [types, Option.getD_some] at later
      rw [typesAt, if_neg (by omega)]
      exact upTo version (by omega)
    · intro version text' found
      have declared : version ≠ v.types.getD 0 + 1 := by
        intro new
        rw [upTo version (by omega)] at found
        cases found
      rw [typesAt, if_neg declared]
      exact found

theorem upToLatest (reached : Reachable env v) : UpToLatest v := by
  obtain ⟨nodes, ran⟩ := reached
  exact (applyNodes_keeps UpToLatest (fun v node w sound upTo step => (upTo.step step sound).1)
    .empty (fun _ _ => rfl) ran).2

theorem stillDeclared {nodes : List Node} (reached : Reachable env v)
    (ran : applyNodes env nodes v = .ok w)
    : StillDeclared v.entry w.entry := by
  have kept := (applyNodes_keeps (fun u => UpToLatest u ∧ ∀ version text,
    v.typesAt version = some text → u.typesAt version = some text)
    (fun u node u' sound so step => by
      obtain ⟨upTo, still⟩ := so
      obtain ⟨upTo', still'⟩ := upTo.step step sound
      exact ⟨upTo', fun version text found => still' version text (still version text found)⟩)
    reached.sound ⟨upToLatest reached, fun _ _ found => found⟩ ran).2.2
  intro version value found
  simp only [View.entry, Option.isSome_none, Bool.false_eq_true, if_false,
    Option.map_eq_some_iff] at found ⊢
  obtain ⟨text, declared, same⟩ := found
  exact ⟨text, kept version text declared, same⟩

end Declared

-- Views

section Views

variable {env : Env} {v w : View} {s t : State}

theorem entry_narrow (housed : v.Housed) {scope : Scope} (narrow : ¬ Wide scope) (name : Name)
    : v.entry scope name = none := by
  cases scope with
  | none => exact absurd (fun k is => by cases is) narrow
  | some k =>
      have unknown : v.subspace k = none := by
        by_contra recorded
        refine narrow fun k' is => ?_
        cases is
        exact housed.long k (Option.isSome_iff_ne_none.mpr recorded)
      have blank := housed.blank k unknown
      cases name with
      | settings => simp [View.entry, blank.metaOf]
      | member id => simp [View.entry, blank.member]
      | banned id => simp [View.entry, blank.banned]
      | cut id => simp [View.entry, blank.cut]
      | admitted id => simp [View.entry, blank.admits]
      | editcut id => simp [View.entry, blank.editcut]
      | mod target => simp [View.entry, blank.mod]
      | redeemed invite id => simp [View.entry, blank.redeemed]
      | uses invite => simp [View.entry, blank.uses]
      | revoked invite => simp [View.entry, blank.revoked]
      | epochs => simp [View.entry, blank.epochs]
      | _ => rfl

theorem ofEntries_becomes (entries : List (Text × Value)) (s : State)
    : s.Becomes (entries.map fun (key, value) => (key, some value))
        (entries.foldl (fun s (key, value) => s.apply key (some value)) s) := by
  induction entries generalizing s with
  | nil => exact .done s
  | cons entry rest ih => exact .change entry.1 (some entry.2) (ih _)

theorem ofEntries_between (housed : v.Housed) {entries : List (Text × Value)}
    (has : Entries v entries)
    : Between (fun _ _ => none) v.entry v.entry (State.ofEntries entries) := by
  have start : Between (fun _ _ => none) v.entry (fun _ _ => none) {} :=
    ⟨.empty, fun _ _ => .inl rfl, fun _ _ found => (by cases found),
      fun _ _ found => (by cases found)⟩
  have wide {scope : Scope} {name : Name} (found : v.entry scope name ≠ none) : Wide scope := by
    by_contra narrow
    exact found (entry_narrow housed narrow name)
  refine start.ends (fun _ _ found => (by cases found)) ?_ (ofEntries_becomes entries {}) ?_ ?_
  · intro key value member
    obtain ⟨⟨key', value'⟩, among, same⟩ := List.mem_map.mp member
    cases same
    obtain ⟨scope, name, is, found⟩ := (has key value').mp among
    exact ⟨scope, name, wide (by rw [found]; simp), is, found⟩
  · intro scope name _ differs
    obtain ⟨value, found⟩ := Option.ne_none_iff_exists'.mp differs.symm
    exact List.mem_map.mpr ⟨(keyText scope name, value), (has _ _).mpr ⟨scope, name, rfl, found⟩,
      by rw [found]⟩
  · intro scope name narrow
    rw [entry_narrow housed narrow name]

/-- The states of sub-spaces two states give are the same where their entries are. -/
theorem gives_alike {key : Text} {found other : Option Standing} {s' t' : State} (fresh : s.Fresh)
    (fresh' : t.Fresh) (alike : s.Alike t) (gives : s.Gives key found s')
    (gives' : t.Gives key other t')
    : found = other := by
  obtain ⟨_, ran⟩ := gives
  obtain ⟨_, ran'⟩ := gives'
  have first := (sub_made fresh ran).2.2.2
  have second := (sub_made fresh' ran').2.2.2
  cases found with
  | none =>
      cases other with
      | none => rfl
      | some made =>
          have known : t.maps.subspaces key = none := by rw [alike.maps]; exact first
          cases second with
          | top found _ => rw [known] at found; cases found
          | under found _ _ => rw [known] at found; cases found
  | some made =>
      cases other with
      | none =>
          have known : s.maps.subspaces key = none := by rw [← alike.maps]; exact second
          cases first with
          | top found _ => rw [known] at found; cases found
          | under found _ _ => rw [known] at found; cases found
      | some made' => rw [(Made.alike first alike).unique second]

/-- The same answers to every question: the space's own are read of its maps, its types are the
same, and any sub-space's state is found to be the same one.
-/
structure SameAnswers (s t : State) : Prop where
  own : Standing.state s.maps = Standing.state t.maps
  types : s.types.1 = t.types.1
  sub : ∀ key, ∃ found, (∃ after, s.Gives key found after) ∧ ∃ after, t.Gives key found after
  only : ∀ key first second after after', s.Gives key first after → t.Gives key second after'
    → first = second

/-- A state kept in place is the state made again: whatever decisions lead from one view to
another, in whatever order the entries that differ are applied and whatever is read in between.
-/
theorem kept_eq_rebuilt {nodes : List Node} (reached : Reachable env v) (fixed : FixedKeys env.c)
    (ran : applyNodes env nodes v = .ok w) {entries entries' : List (Text × Value)}
    {changes : List (Text × Option Value)} (had : Entries v entries) (has : Entries w entries')
    (differ : Changes v w changes) (kept : (State.ofEntries entries).Becomes changes t)
    : SameAnswers t (State.ofEntries entries') := by
  have later := reached.later ran
  have housed := reached.housed fixed
  have housed' := later.housed fixed
  have start := ofEntries_between housed had
  have made := ofEntries_between housed' has
  have wide {scope : Scope} {name : Name} (differs : v.entry scope name ≠ w.entry scope name)
      : Wide scope := by
    by_contra narrow
    exact differs (by rw [entry_narrow housed narrow, entry_narrow housed' narrow])
  have still := stillDeclared reached ran
  have ended : Between v.entry w.entry w.entry t := by
    have first : Between v.entry w.entry v.entry (State.ofEntries entries) :=
      ⟨start.keeps, fun _ _ => .inl rfl, start.fresh,
        fun version text found => still version _ (start.parsed version text found)⟩
    refine first.ends still ?_ kept (fun scope name _ differs => ?_) (fun scope name narrow => ?_)
    · intro key value member
      obtain ⟨scope, name, is, differs, same⟩ := (differ key value).mp member
      exact ⟨scope, name, wide differs, is, same⟩
    · exact (differ _ _).mpr ⟨scope, name, rfl, differs, rfl⟩
    · rw [entry_narrow housed narrow, entry_narrow housed' narrow]
  have alike : t.Alike (State.ofEntries entries') :=
    ⟨made.keeps.maps_eq ended.keeps, fun place => made.keeps.scoped_eq ended.keeps place⟩
  refine ⟨by rw [alike.maps], ?_, fun key => ?_, fun key first second after after' gives gives' =>
    gives_alike ended.fresh made.fresh alike gives gives'⟩
  · rw [ended.types_eq, made.types_eq, alike.maps]
  · obtain ⟨found, after, gives, _⟩ := sub_ends ended.keeps later.sound.tree ended.fresh key
    obtain ⟨found', after', gives', _⟩ := sub_ends made.keeps later.sound.tree made.fresh key
    cases gives_alike ended.fresh made.fresh alike gives gives'
    exact ⟨found, ⟨after, gives⟩, after', gives'⟩

end Views

-- A space with one sub-space

def ownerFirst : Node := sent (keyOf 1) 1 (initial (keyOf 1) (keyOf 10) (keyOf 11))

def garden : SubspaceCreate := { key := keyOf 5, name := "garden", priv := false, writeRoles := [] }

def gardenMade : Node := sent (keyOf 1) 2 (.subspaceCreate garden)

/-- What the owner's first decision enters. -/
def ownerEntries : List (Name × Value) :=
  [(.settings, .settings {
      name := some "space"
      owner := some (keyOf 10)
      policy := some "auto"
      version := some 1
      stamp := some 1 }),
    (.member (keyOf 10), .member { role := "owner", by_ := keyOf 10, stamp := 1 }),
    (.writer (keyOf 1), .writer ⟨keyOf 10, some (keyOf 11), true⟩),
    (.writers (keyOf 10), .writers [keyOf 1])]

/-- What the sub-space's creation enters. -/
def gardenEntries : List (Name × Value) :=
  [(.subspace (keyOf 5), .subspace ⟨"garden", false, [], none, keyOf 10, 2⟩),
    (.subspaces, .subspaces [keyOf 5])]

/-- The owner's space, entry by entry. -/
theorem owner_begins
    : ∃ v, applyNodes (idealEnv (keyOf 1)) [ownerFirst] View.empty = .ok v
      ∧ ∀ scope name value, v.entry scope name = some value
        ↔ scope = none ∧ (name, value) ∈ ownerEntries := by
  have reads : readNode compact ownerFirst.value
      = some ⟨⟨1, initial (keyOf 1) (keyOf 10) (keyOf 11)⟩, none, false⟩ := by
    decide +kernel
  have facts : ((applyNode (idealEnv (keyOf 1)) View.empty ownerFirst).toOption.bind fun v =>
      v.writer (keyOf 1)) = some ⟨keyOf 10, some (keyOf 11), true⟩ := by
    decide +kernel
  obtain ⟨v, ran, writer⟩ := Option.bind_eq_some_iff.mp facts
  refine ⟨v, applyNodes_single.trans (ok_of_toOption ran), ?_⟩
  cases applyNode_step .empty (ok_of_toOption ran) with
  | unread bad => cases writer
  | read d reads' applied came did w frame =>
      cases Option.some.inj (reads.symm.trans reads')
      have entered : v.entry = applied.view.entry := by rw [frame]; rfl
      cases did with
      | skipped =>
          rw [frame] at writer
          cases writer
      | decided other => exact absurd rfl (other _)
      | begun init body info unbegun w same =>
          cases body
          rw [frame, same] at writer
          have known : info = ⟨keyOf 10, keyOf 11⟩ := by
            simp [Effect.begin, ownerFirst, sent] at writer
            cases info
            simp_all
          rw [entered, same, known]
          intro scope name value
          cases name
          all_goals
            simp [View.entry, Effect.begin, View.empty, ownerEntries, ownerFirst, sent]
            try grind

/-- The owner's space with its sub-space, entry by entry. -/
theorem garden_grows
    : ∃ v w, applyNodes (idealEnv (keyOf 1)) [ownerFirst] View.empty = .ok v
      ∧ (∀ scope name value, v.entry scope name = some value
        ↔ scope = none ∧ (name, value) ∈ ownerEntries)
      ∧ applyNodes (idealEnv (keyOf 1)) [gardenMade] v = .ok w
      ∧ ∀ scope name value, w.entry scope name = some value
        ↔ scope = none ∧ (name, value) ∈ ownerEntries ++ gardenEntries := by
  obtain ⟨v, began, had⟩ := owner_begins
  have reads : readNode compact gardenMade.value
      = some ⟨⟨2, .subspaceCreate garden⟩, none, false⟩ := by
    decide +kernel
  have facts : ((applyNodes (idealEnv (keyOf 1)) [ownerFirst] View.empty).toOption.bind fun v =>
      (applyNode (idealEnv (keyOf 1)) v gardenMade).toOption.bind fun w =>
        w.subspace (keyOf 5)) = some ⟨"garden", false, [], none, keyOf 10, 2⟩ := by
    decide +kernel
  obtain ⟨u, again, rest⟩ := Option.bind_eq_some_iff.mp facts
  obtain ⟨w, ran, made⟩ := Option.bind_eq_some_iff.mp rest
  cases Except.ok.inj (began.symm.trans (ok_of_toOption again))
  have sound : v.Sound := Reachable.sound ⟨_, began⟩
  have unlisted : v.subspaces = none := by
    by_contra some_
    obtain ⟨keys, listed⟩ := Option.ne_none_iff_exists'.mp some_
    have entry := (had none .subspaces (.subspaces keys)).mp (by simp [View.entry, listed])
    simp [ownerEntries] at entry
  refine ⟨v, w, began, had, applyNodes_single.trans (ok_of_toOption ran), ?_⟩
  cases applyNode_step sound (ok_of_toOption ran) with
  | unread bad => cases reads.symm.trans bad
  | read d reads' applied came did w frame =>
      cases Option.some.inj (reads.symm.trans reads')
      have entered : w.entry = applied.view.entry := by rw [frame]; rfl
      have none_ : v.subspace (keyOf 5) = none := by
        by_contra some_
        obtain ⟨info, found⟩ := Option.ne_none_iff_exists'.mp some_
        have entry := (had none (.subspace (keyOf 5)) (.subspace info)).mp
          (by simp [View.entry, found])
        simp [ownerEntries] at entry
      have kept : applied.view.subspace (keyOf 5) = w.subspace (keyOf 5) := by rw [frame]
      cases did with
      | skipped => cases (none_.symm.trans kept).trans made
      | begun init body => cases body
      | decided other writer known chain here applied outcome =>
          rcases outcome.tree (v := { view := v }) sound with same | ⟨d, body, _, same⟩
          · rw [same.subspace, none_] at kept
            cases kept.trans made
          · cases body
            have info : applied.view.subspace (keyOf 5) = _ := kept.trans made
            rw [same] at info
            intro scope name value
            rw [entered, same]
            have before := had scope name value
            cases name
            all_goals
              simp [View.entry, Effect.subspaceCreate, garden, unlisted, ownerEntries,
                gardenEntries] at info before ⊢
              try grind

/-- The entries of the top space, under their keys. -/
def topEntries (list : List (Name × Value)) : List (Text × Value) :=
  list.map fun (name, value) => (keyText none name, value)

theorem entries_of_list {v : View} {list : List (Name × Value)}
    (has : ∀ scope name value, v.entry scope name = some value ↔ scope = none ∧ (name, value) ∈ list)
    : Entries v (topEntries list) := by
  intro key value
  constructor
  · intro member
    obtain ⟨⟨name, value'⟩, among, same⟩ := List.mem_map.mp member
    cases same
    exact ⟨none, name, rfl, (has none name value).mpr ⟨rfl, among⟩⟩
  · intro entry
    obtain ⟨scope, name, rfl, found⟩ := entry
    obtain ⟨rfl, among⟩ := (has scope name value).mp found
    exact List.mem_map.mpr ⟨(name, value), among, rfl⟩

theorem garden_recorded {w : View}
    (has : ∀ scope name value, w.entry scope name = some value
      ↔ scope = none ∧ (name, value) ∈ ownerEntries ++ gardenEntries)
    : (w.subspace (keyOf 5)).isSome := by
  have entry := (has none (.subspace (keyOf 5))
    (.subspace ⟨"garden", false, [], none, keyOf 10, 2⟩)).mpr ⟨rfl, by simp [gardenEntries]⟩
  simp only [View.entry, Option.isSome_none, Bool.false_eq_true, if_false,
    Option.map_eq_some_iff] at entry
  obtain ⟨info, found, _⟩ := entry
  rw [found]
  rfl

/-- The sub-space's own entries are what its creation changes. -/
theorem garden_changes {v w : View}
    (had : ∀ scope name value, v.entry scope name = some value
      ↔ scope = none ∧ (name, value) ∈ ownerEntries)
    (has : ∀ scope name value, w.entry scope name = some value
      ↔ scope = none ∧ (name, value) ∈ ownerEntries ++ gardenEntries)
    : Changes v w ((topEntries gardenEntries).map fun (key, value) => (key, some value)) := by
  have added {name : Name} {value : Value} (member : (name, value) ∈ gardenEntries)
      : v.entry none name = none ∧ w.entry none name = some value := by
    refine ⟨?_, (has none name value).mpr ⟨rfl, List.mem_append_right _ member⟩⟩
    by_contra some_
    obtain ⟨value', found⟩ := Option.ne_none_iff_exists'.mp some_
    have among := ((had none name value').mp found).2
    simp only [gardenEntries, ownerEntries, List.mem_cons, Prod.mk.injEq, List.not_mem_nil]
      at member among
    grind
  intro key value
  constructor
  · intro member
    obtain ⟨⟨key', value'⟩, listed, same⟩ := List.mem_map.mp member
    cases same
    obtain ⟨⟨name, value''⟩, among, same⟩ := List.mem_map.mp listed
    cases same
    obtain ⟨before, after⟩ := added among
    exact ⟨none, name, rfl, by rw [before, after]; simp, after⟩
  · intro changed
    obtain ⟨scope, name, rfl, differs, rfl⟩ := changed
    cases after : w.entry scope name with
    | none =>
        refine absurd ?_ differs
        rw [after]
        by_contra some_
        obtain ⟨value, found⟩ := Option.ne_none_iff_exists'.mp some_
        obtain ⟨rfl, among⟩ := (had scope name value).mp found
        rw [(has none name value).mpr ⟨rfl, List.mem_append_left _ among⟩] at after
        cases after
    | some value =>
        obtain ⟨rfl, among⟩ := (has scope name value).mp after
        rcases List.mem_append.mp among with owner | made
        · rw [(had none name value).mpr ⟨rfl, owner⟩, after] at differs
          exact absurd rfl differs
        · exact List.mem_map.mpr ⟨(keyText none name, value),
            List.mem_map.mpr ⟨(name, value), made, rfl⟩, rfl⟩

/-- Witness: a state of the owner's space is kept while the sub-space is made, its types read
between the entries that differ.
-/
theorem kept_eq_rebuilt_garden
    : ∃ t, ((State.ofEntries (topEntries ownerEntries)).Becomes
        ((topEntries gardenEntries).map fun (key, value) => (key, some value)) t)
      ∧ SameAnswers t (.ofEntries (topEntries (ownerEntries ++ gardenEntries))) := by
  obtain ⟨v, w, began, had, grown, has⟩ := garden_grows
  have becomes := State.Becomes.change (s := Readers.State.ofEntries (topEntries ownerEntries))
    (keyText none (.subspace (keyOf 5))) (some (.subspace ⟨"garden", false, [], none, keyOf 10, 2⟩))
    (.typed (.change (keyText none .subspaces) (some (.subspaces [keyOf 5])) (.done _)))
  exact ⟨_, becomes, kept_eq_rebuilt ⟨_, began⟩ fixedKeys_compact grown (entries_of_list had)
    (entries_of_list has) (garden_changes had has) becomes⟩

end Hypergraph.Decisions.Readers
