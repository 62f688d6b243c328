import Hypergraph.Decisions.Rebuilt
import Hypergraph.Logs.Recheck

/-! What changed keys of the decisions' view touch (`touched` of `lib/decisions/state.js`), key by
key, and why looking only there is enough: what it leaves out stands as it did.
-/

namespace Hypergraph.Logs

open Wire Js Encodings Decisions Readers

-- `touched`

/-- The families of one identity's entries. -/
def IDS : List Text := ["member:", "banned:", "cut:", "admit:", "editcut:"].map String.toList

/-- The families that decide nothing of who may write. -/
def QUIET : List Text :=
  ["redeemed:", "uses:", "revoked:", "writer:", "writers:", "gone:"].map String.toList

/-- What changed keys touch: identities and moderated records (in hex), listed logs, `all`, and
whether the space's types changed.
-/
structure Moved where
  all : Bool
  ids : List Text
  mods : List Text
  listed : List Text
  types : Bool
  deriving DecidableEq, Repr

/-- What a key without its scope's prefix adds. -/
def touchOwn (out : Moved) (key : Text) : Moved :=
  let family := key.take (colonAt key)
  let rest := key.drop (colonAt key)
  if family ∈ IDS then { out with ids := rest :: out.ids }
  else if family = "mod:".toList then { out with mods := rest :: out.mods }
  else if family = "listed:".toList then { out with listed := rest :: out.listed }
  else if family ∉ QUIET ∧ key ≠ "epochs".toList then { out with all := true }
  else out

/-- One key more. -/
def touchKey (out : Moved) (key : Text) : Moved :=
  touchOwn (if key = "types".toList then { out with types := true } else out)
    (if startsWith key "sub:" then key.drop 69 else key)

/-- `touched`: `none` is a full read. -/
def touched (keys : Option (List Text)) : Moved :=
  (keys.getD []).foldl touchKey
    { all := keys.isNone, ids := [], mods := [], listed := [], types := keys.isNone }

/-- What a recheck of the logs looks at of it. -/
def Moved.logs (out : Moved) : Touched := ⟨out.all, out.ids.map hexBytes⟩

/-- A ban in a sub-space touches the one banned. -/
example
    : touched (some [keyText (some (List.replicate 32 5)) (.banned [7])])
      = { all := false, ids := ["07".toList], mods := [], listed := [], types := false } := by
  decide +kernel

-- Each name's key

section Keys

variable {out : Moved} {scope : Scope} {name : Name} {id : Key}

/-- What the key of a name adds, but for the types. -/
def Name.touch (out : Moved) : Name → Moved
  | .member id | .banned id | .cut id | .admitted id | .editcut id =>
      { out with ids := hex id :: out.ids }
  | .mod target => { out with mods := hex target :: out.mods }
  | .listed log => { out with listed := hex log :: out.listed }
  | .redeemed _ _ | .uses _ | .revoked _ | .epochs | .writer _ | .writers _ | .gone _ _ => out
  | .settings | .role _ | .subspaces | .subspace _ | .types | .typesAt _ =>
      { out with all := true }

theorem unscoped (wide : Wide scope) (name : Name)
    : (if startsWith (keyText scope name) "sub:" then (keyText scope name).drop 69
        else keyText scope name) = name.text := by
  cases scope with
  | none =>
      have own : startsWith (keyText none name) "sub:" = false := not_scoped name
      rw [own]
      rfl
  | some k => exact (keyText_parts wide name).2

/-- A key is split after its family's colon, if it has one. -/
theorem split_text (name : Name)
    : name.text.take (colonAt name.text)
        = (if name.start.toList.getLast? = some ':' then name.start.toList else [])
      ∧ name.text.drop (colonAt name.text)
        = (if name.start.toList.getLast? = some ':' then name.rest else name.text) := by
  rw [name.text_eq]
  cases name
  all_goals simp [colonAt, List.findIdx?_cons, Name.start, Name.rest]

theorem touchOwn_text (out : Moved) (name : Name) : touchOwn out name.text = Name.touch out name := by
  have quiet : name.text ≠ "epochs".toList ↔ name ≠ .epochs :=
    not_congr ⟨fun same => @Name.text_injective _ .epochs same, fun same => same ▸ rfl⟩
  simp only [touchOwn, split_text, quiet]
  cases name
  all_goals simp [Name.start, Name.rest, Name.touch, IDS, QUIET]

-- All the keys

/-- What is told of a name. -/
def Name.Told (out : Moved) : Name → Prop
  | .member id | .banned id | .cut id | .admitted id | .editcut id => hex id ∈ out.ids
  | .mod target => hex target ∈ out.mods
  | .listed log => hex log ∈ out.listed
  | .redeemed _ _ | .uses _ | .revoked _ | .epochs | .writer _ | .writers _ | .gone _ _ => True
  | .settings | .role _ | .subspaces | .subspace _ | .types | .typesAt _ => out.all = true

theorem Told.touch (out : Moved) (name : Name) : Name.Told (Name.touch out name) name := by
  cases name
  all_goals simp [Name.Told, Name.touch]

/-- What the one tells, the other tells. -/
structure Moved.Within (out more : Moved) : Prop where
  all : out.all = true → more.all = true
  types : out.types = true → more.types = true
  ids : ∀ id ∈ out.ids, id ∈ more.ids
  mods : ∀ target ∈ out.mods, target ∈ more.mods
  listed : ∀ log ∈ out.listed, log ∈ more.listed

theorem Moved.Within.refl (out : Moved) : out.Within out :=
  ⟨id, id, fun _ => id, fun _ => id, fun _ => id⟩

theorem Moved.Within.trans {first second third : Moved} (before : first.Within second)
    (after : second.Within third)
    : first.Within third where
  all := after.all ∘ before.all
  types := after.types ∘ before.types
  ids id among := after.ids id (before.ids id among)
  mods target among := after.mods target (before.mods target among)
  listed log among := after.listed log (before.listed log among)

theorem Told.mono {more : Moved} (within : out.Within more) (told : Name.Told out name)
    : Name.Told more name := by
  cases name
  all_goals
    first
      | exact trivial
      | exact within.all told
      | exact within.ids _ told
      | exact within.mods _ told
      | exact within.listed _ told

theorem within_touchOwn (out : Moved) (key : Text) : out.Within (touchOwn out key) := by
  unfold touchOwn
  dsimp only
  split
  · exact { Moved.Within.refl out with ids := fun _ => List.mem_cons_of_mem _ }
  split
  · exact { Moved.Within.refl out with mods := fun _ => List.mem_cons_of_mem _ }
  split
  · exact { Moved.Within.refl out with listed := fun _ => List.mem_cons_of_mem _ }
  split
  · exact { Moved.Within.refl out with all := fun _ => rfl }
  · exact .refl out

theorem within_touchKey (out : Moved) (key : Text) : out.Within (touchKey out key) := by
  refine .trans ?_ (within_touchOwn _ _)
  split
  · exact { Moved.Within.refl out with types := fun _ => rfl }
  · exact .refl out

/-- Induction on the keys. -/
theorem within_foldl (keys : List Text) (out : Moved) : out.Within (keys.foldl touchKey out) := by
  induction keys generalizing out with
  | nil => exact .refl out
  | cons key rest ih => exact (within_touchKey out key).trans (ih _)

/-- Each name whose key is among those changed is told of; induction on the keys. -/
theorem told_foldl (wide : Wide scope) {keys : List Text} (listed : keyText scope name ∈ keys)
    : Name.Told (keys.foldl touchKey out) name := by
  induction keys generalizing out with
  | nil => cases listed
  | cons key rest ih =>
      rcases List.mem_cons.mp listed with rfl | later
      · refine Told.mono (within_foldl rest _) ?_
        unfold touchKey
        rw [unscoped wide name, touchOwn_text]
        exact Told.touch _ name
      · exact ih later

end Keys

-- What is left out stands

/-- The record's moderation in the scope (`moderation`). -/
def moderation (v : View) (scope : Scope) (target : Key) : Moderation :=
  (v.mod scope target).getD {}

/-- An identity has the rights in a scope it had before, and its logs count as far. -/
structure SameRights (id : Key) (v : View) (chain : List Key) (w : View) (chain' : List Key)
    : Prop where
  roleOf : State.roleOf w chain' id = State.roleOf v chain id
  canWrite : State.canWrite w chain' id = State.canWrite v chain id
  admission : State.admission w chain' id = State.admission v chain id
  limitOf : ∀ log, State.limitOf w chain' id log = State.limitOf v chain id log
  isCut : ∀ log, State.isCut w chain' id log = State.isCut v chain id log
  mustAdmit : ∀ log, State.mustAdmit w chain' id log = State.mustAdmit v chain id log
  editLimit : ∀ permission log,
    State.editLimit w chain' id permission log = State.editLimit v chain id permission log

section Views

variable {env : Env} {v w : View} {id : Key} {changes : List (Text × Option Value)}

theorem SameFor.roleOf (same : SameFor id v w) (chain : List Key)
    : State.roleOf w chain id = State.roleOf v chain id := by
  unfold State.roleOf
  rw [same.memberIn, same.pubIn, same.bannedIn]

theorem SameFor.can (same : SameFor id v w) (chain : List Key) (permission : String)
    : State.can w chain id permission = State.can v chain id permission := by
  have custom : w.custom = v.custom := by
    unfold View.custom
    rw [same.role]
  unfold State.can
  rw [same.roleOf, custom]

/-- Induction on the chain, from the space up. -/
theorem editcutIn (same : ∀ scope, w.editcut scope id = v.editcut scope id) (chain : List Key)
    : State.editcut w chain id = State.editcut v chain id := by
  induction chain with
  | nil => exact same none
  | cons s up ih =>
      unfold State.editcut
      rw [same, ih]

theorem SameFor.rights (same : SameFor id v w)
    (edits : ∀ scope, w.editcut scope id = v.editcut scope id) (chain : List Key)
    : SameRights id v chain w chain where
  roleOf := same.roleOf chain
  canWrite := same.canWrite chain
  admission := same.admitsIn chain
  limitOf log := by
    unfold State.limitOf State.cutAt
    rw [same.cutIn, same.canWrite]
  isCut log := by
    unfold State.isCut State.cutAt
    rw [same.cutIn]
  mustAdmit log := by
    unfold State.mustAdmit State.isCut State.cutAt
    rw [same.memberIn, same.pubIn, same.cutIn]
  editLimit permission log := by
    unfold State.editLimit State.editCutAt
    rw [editcutIn edits, same.can]

/-- What the keys that differ touch. -/
def moved (changes : List (Text × Option Value)) : Moved := touched (some (changes.map Prod.fst))

section Told

variable (housed : v.Housed) (housed' : w.Housed) (differ : Changes v w changes)

include housed housed' differ

theorem entry_of_untold {name : Name} (untold : ¬ Name.Told (moved changes) name) (scope : Scope)
    : w.entry scope name = v.entry scope name := by
  by_contra differs
  have wide : Wide scope := by
    by_contra narrow
    exact differs (by rw [entry_narrow housed narrow, entry_narrow housed' narrow])
  have listed : (keyText scope name, w.entry scope name) ∈ changes :=
    (differ _ _).mpr ⟨scope, name, rfl, fun same => differs same.symm, rfl⟩
  exact untold (told_foldl wide (List.mem_map_of_mem listed))

/-- Where not all is touched, the settings, roles and sub-spaces are as they were. -/
theorem shared_of_partial (partial_ : (moved changes).all = false)
    : w.metaOf = v.metaOf ∧ w.role = v.role ∧ w.subspace = v.subspace := by
  have untold {name : Name} (broad : Name.Told (moved changes) name ↔ (moved changes).all = true)
      : ∀ scope, w.entry scope name = v.entry scope name :=
    entry_of_untold housed housed' differ (by rw [broad, partial_]; decide)
  refine ⟨funext fun scope => ?_, funext fun name => ?_, funext fun key => ?_⟩
  · have same := @untold .settings Iff.rfl scope
    exact Option.map_injective (fun _ _ is => Value.settings.inj is) same
  · have same := @untold (.role name) Iff.rfl none
    exact Option.map_injective (fun _ _ is => Value.role.inj is) same
  · have same := @untold (.subspace key) Iff.rfl none
    exact Option.map_injective (fun _ _ is => Value.subspace.inj is) same

/-- An identity not told of keeps its entries. -/
theorem own_of_untold (untold : hex id ∉ (moved changes).ids) (scope : Scope)
    : w.member scope id = v.member scope id ∧ w.banned scope id = v.banned scope id
      ∧ w.cut scope id = v.cut scope id ∧ w.admits scope id = v.admits scope id
      ∧ w.editcut scope id = v.editcut scope id := by
  have same {name : Name} (own : Name.Told (moved changes) name ↔ hex id ∈ (moved changes).ids)
      : w.entry scope name = v.entry scope name :=
    entry_of_untold housed housed' differ (mt own.mp untold) scope
  exact ⟨Option.map_injective (fun _ _ is => Value.member.inj is) (@same (.member id) Iff.rfl),
    Option.map_injective (fun _ _ is => Value.banned.inj is) (@same (.banned id) Iff.rfl),
    Option.map_injective (fun _ _ is => Value.cut.inj is) (@same (.cut id) Iff.rfl),
    Option.map_injective (fun _ _ is => Value.admitted.inj is) (@same (.admitted id) Iff.rfl),
    Option.map_injective (fun _ _ is => Value.editcut.inj is) (@same (.editcut id) Iff.rfl)⟩

theorem moderation_of_untold {target : Key} (untold : hex target ∉ (moved changes).mods)
    (scope : Scope)
    : moderation w scope target = moderation v scope target := by
  have same : w.entry scope (.mod target) = v.entry scope (.mod target) :=
    @entry_of_untold v w changes housed housed' differ (.mod target) untold scope
  unfold moderation
  rw [Option.map_injective (fun _ _ is => Value.mod.inj is) same]

/-- Who is not told of, where not all is touched, has its entries as they were. -/
theorem sameFor_of_untold (partial_ : (moved changes).all = false)
    (untold : hex id ∉ (moved changes).ids)
    : SameFor id v w := by
  obtain ⟨metaOf, role, subspace⟩ := shared_of_partial housed housed' differ partial_
  have own := own_of_untold housed housed' differ untold
  exact ⟨metaOf, role, subspace, fun s => (own s).1, fun s => (own s).2.1,
    fun s => (own s).2.2.1, fun s => (own s).2.2.2.1⟩

/-- And so has, in each scope, its rights. -/
theorem rights_of_untold {scope : Scope} {chain chain' : List Key} (path : IsChain v scope chain)
    (path' : IsChain w scope chain') (partial_ : (moved changes).all = false)
    (untold : hex id ∉ (moved changes).ids)
    : SameRights id v chain w chain' := by
  have same := sameFor_of_untold housed housed' differ partial_ untold
  have own := own_of_untold housed housed' differ untold
  rw [path'.unique (path.congr same.subspace)]
  exact same.rights (fun s => (own s).2.2.2.2) chain

/-- The keys tell of a change of the space's standing. -/
theorem changed_of_changes {scope : Scope} {chain chain' : List Key} (path : IsChain v scope chain)
    (path' : IsChain w scope chain') (partial_ : (moved changes).all = false)
    (removals : Key → Key → List Lengths)
    : Changed (moved changes).logs ⟨v, chain, removals⟩ ⟨w, chain', removals⟩ := by
  obtain ⟨metaOf, role, subspace⟩ := shared_of_partial housed housed' differ partial_
  refine ⟨path'.unique (path.congr subspace), .inr ⟨metaOf, role, subspace, rfl⟩, ?_⟩
  intro id untouched scope
  have untold : hex id ∉ (moved changes).ids := by
    intro listed
    have named : id ∈ (moved changes).logs.ids :=
      List.mem_map.mpr ⟨hex id, listed, hexBytes_hexChars id⟩
    have looked : (moved changes).logs.touches id = true := by
      simp [Touched.touches, named]
    rw [looked] at untouched
    cases untouched
  obtain ⟨member, banned, cut, admits, _⟩ := own_of_untold housed housed' differ untold scope
  exact ⟨member, banned, cut, admits⟩

end Told

end Views

-- Rechecks

section Rechecks

variable {who : Key → Option Who} {dir : Directory} {key : Key} {before after : Standing}
  {only : Touched}

/-- Every log is looked at (`recheck` with `null`, or `all`). -/
def everyLog : Touched := ⟨true, []⟩

theorem fetch_logs (dir : Directory) (key : Key) (urgent : Bool)
    : (dir.fetch key urgent).logs = dir.logs := by
  unfold Directory.fetch
  split
  · rfl
  split
  · rfl
  split
  · split
    · rfl
    · rfl
  · rfl

theorem consider_logs (dir : Directory) (key : Key) (standing : Standing) (urgent : Bool)
    : (dir.consider key who standing urgent).logs = dir.logs := by
  unfold Directory.consider
  split
  · rfl
  split
  · rfl
  split
  · split
    · exact fetch_logs dir key urgent
    · rfl
  · exact fetch_logs dir key urgent

/-- Considering logs changes none that is held; induction on the logs. -/
theorem foldl_consider_logs (keys : List Key) (standing : Standing) (dir : Directory)
    : (keys.foldl (fun dir key => dir.consider key who standing false) dir).logs = dir.logs := by
  induction keys generalizing dir with
  | nil => rfl
  | cons key rest ih => exact (ih _).trans (consider_logs dir key standing false)

/-- What a recheck does about a held log. -/
theorem recheck_logs (dir : Directory) (standing : Standing) (only : Touched) (key : Key)
    : (dir.recheck who standing only).logs key
      = (dir.logs key).map fun held =>
          if Directory.touches who only key then
            Directory.recheckHeld held (Directory.limitOf who standing key)
          else held := by
  unfold Directory.recheck
  dsimp only
  rw [foldl_consider_logs]

/-- How far the directory is to keep a log. -/
def Directory.goalOf (dir : Directory) (key : Key) : Option ℕ∞ := (dir.logs key).map Held.goal

/-- Looking at every log would change nothing about this one. -/
def Directory.UpToDate (dir : Directory) (who : Key → Option Who) (standing : Standing) (key : Key)
    : Prop :=
  (dir.recheck who standing everyLog).goalOf key = dir.goalOf key

theorem goal_recheckHeld_twice (held : Held) (limit : ℕ∞)
    : (Directory.recheckHeld (Directory.recheckHeld held limit) limit).goal
      = (Directory.recheckHeld held limit).goal := by
  rcases recheckHeld_cases held limit with same | asked
  · rw [same, same]
  · rw [asked, goal_asked]
    rcases recheckHeld_cases { held with asked := held.asked ++ [limit] } limit with same | more
    · rw [same, goal_asked]
    · rw [more, goal_asked]

section Looked

variable (looked : ∀ key, Directory.touches who only key = Directory.touches who everyLog key
  ∨ Directory.limitOf who after key = Directory.limitOf who before key)

include looked

/-- Looking only at the logs whose limits changed keeps each as looking at all of them would, if
nothing was left to do before.
-/
theorem goalOf_recheck (settled : dir.UpToDate who before key)
    : (dir.recheck who after only).goalOf key = (dir.recheck who after everyLog).goalOf key := by
  unfold Directory.UpToDate Directory.goalOf at settled
  unfold Directory.goalOf
  rw [recheck_logs] at settled
  rw [recheck_logs, recheck_logs]
  cases found : dir.logs key with
  | none => rfl
  | some held =>
      rw [found] at settled
      have settled := Option.some.inj settled
      rcases looked key with same | same
      · rw [same]
      · rw [← same] at settled
        cases touched : Directory.touches who only key with
        | true =>
            have all : Directory.touches who everyLog key = true := by
              unfold Directory.touches at touched ⊢
              cases header : who key with
              | none =>
                  rw [header] at touched
                  cases touched
              | some author => rfl
            rw [all]
        | false => exact congrArg some settled.symm

theorem upToDate_recheck (settled : dir.UpToDate who before key)
    : (dir.recheck who after only).UpToDate who after key := by
  have same := goalOf_recheck looked settled
  unfold Directory.UpToDate
  unfold Directory.goalOf at same ⊢
  rw [recheck_logs] at same ⊢
  rw [recheck_logs] at same ⊢
  cases found : dir.logs key with
  | none => rfl
  | some held =>
      rw [found] at same
      have same := Option.some.inj same
      apply congrArg some
      cases all : Directory.touches who everyLog key with
      | false => rfl
      | true =>
          cases touched : Directory.touches who only key with
          | true => exact goal_recheckHeld_twice held _
          | false =>
              rw [all, touched] at same
              exact same.symm

theorem due_recheck (listed : key ∈ dir.due who after everyLog)
    : key ∈ dir.due who after only ∨ key ∈ dir.due who before everyLog := by
  obtain ⟨waits, both⟩ := List.mem_filter.mp listed
  rcases looked key with same | same
  · left
    exact List.mem_filter.mpr ⟨waits, same ▸ both⟩
  · right
    exact List.mem_filter.mpr ⟨waits, same ▸ both⟩

end Looked

end Rechecks

-- Looking only where a decision touched

section Enough

variable {env : Env} {v w : View} {nodes : List Node} {changes : List (Text × Option Value)}
  {scope : Scope} {chain chain' : List Key}

/-- A log a recheck leaves out has the limit it had. -/
theorem looked_of_changes (housed : v.Housed) (housed' : w.Housed) (differ : Changes v w changes)
    (path : IsChain v scope chain) (path' : IsChain w scope chain')
    (removals : Key → Key → List Lengths) (who : Key → Option Who) (key : Key)
    : Directory.touches who (moved changes).logs key = Directory.touches who everyLog key
      ∨ Directory.limitOf who ⟨w, chain', removals⟩ key
        = Directory.limitOf who ⟨v, chain, removals⟩ key := by
  cases all : (moved changes).all with
  | true =>
      left
      unfold Directory.touches Touched.touches Moved.logs
      rw [all]
      rfl
  | false =>
      have changed := changed_of_changes housed housed' differ path path' all removals
      rcases changed.touches_or_same who key with touched | same
      · left
        rw [touched]
        unfold Directory.touches at touched ⊢
        cases header : who key with
        | none =>
            rw [header] at touched
            cases touched
        | some author => rfl
      · exact .inr same

/-- Looking only where keys touched is enough, in a scope: whose rights there changed is named,
unless all is, and so is each record whose moderation did; and a recheck of only the logs of those
named keeps every log that was as far as it should be as far as one of all of them would, and asks
for every waiting log that has come to count.
-/
structure Enough (out : Moved) (scope : Scope) (v : View) (chain : List Key) (w : View)
    (chain' : List Key)
    : Prop where
  rights : ∀ id, ¬ SameRights id v chain w chain' → out.all = true ∨ hex id ∈ out.ids
  moderation
    : ∀ target, moderation w scope target ≠ moderation v scope target
      → out.all = true ∨ hex target ∈ out.mods
  logs
    : ∀ (who : Key → Option Who) (removals : Key → Key → List Lengths) (dir : Directory) (key : Key),
      dir.UpToDate who ⟨v, chain, removals⟩ key
      → (dir.recheck who ⟨w, chain', removals⟩ out.logs).goalOf key
          = (dir.recheck who ⟨w, chain', removals⟩ everyLog).goalOf key
        ∧ (dir.recheck who ⟨w, chain', removals⟩ out.logs).UpToDate who ⟨w, chain', removals⟩ key
  due
    : ∀ (who : Key → Option Who) (removals : Key → Key → List Lengths) (dir : Directory),
      ∀ key ∈ dir.due who ⟨w, chain', removals⟩ everyLog,
        key ∈ dir.due who ⟨w, chain', removals⟩ out.logs
          ∨ key ∈ dir.due who ⟨v, chain, removals⟩ everyLog

/-- Looking only where further decisions touched is enough, in every scope. -/
theorem touched_enough (reached : Reachable env v) (fixed : FixedKeys env.c)
    (ran : applyNodes env nodes v = .ok w) (differ : Changes v w changes)
    (path : IsChain v scope chain) (path' : IsChain w scope chain')
    : Enough (touched (some (changes.map Prod.fst))) scope v chain w chain' := by
  have housed := reached.housed fixed
  have housed' := (reached.later ran).housed fixed
  have looked (removals : Key → Key → List Lengths) (who : Key → Option Who) :=
    looked_of_changes housed housed' differ path path' removals who
  constructor
  case rights =>
    intro id changed
    by_contra left_
    obtain ⟨partial_, untold⟩ := not_or.mp left_
    exact changed (rights_of_untold housed housed' differ path path'
      (Bool.eq_false_iff.mpr partial_) untold)
  case moderation =>
    intro target differs
    by_contra left_
    exact differs (moderation_of_untold housed housed' differ (not_or.mp left_).2 scope)
  case logs =>
    intro who removals dir key settled
    exact ⟨goalOf_recheck (looked removals who) settled, upToDate_recheck (looked removals who) settled⟩
  case due =>
    intro who removals dir key listed
    exact due_recheck (looked removals who) listed

/-- Witness: the owner's space, as its sub-space is made. -/
theorem touched_enough_garden
    : ∃ v w, Reachable (idealEnv (keyOf 1)) v ∧ v.subspace (keyOf 5) = none
      ∧ (w.subspace (keyOf 5)).isSome
      ∧ Enough (touched (some ((topEntries gardenEntries).map Prod.fst))) none v [] w [] := by
  obtain ⟨v, w, began, had, grown, has⟩ := garden_grows
  have reached : Reachable (idealEnv (keyOf 1)) v := ⟨_, began⟩
  have enough := touched_enough reached fixedKeys_compact grown (garden_changes had has) .top .top
  rw [List.map_map] at enough
  refine ⟨v, w, reached, ?_, garden_recorded has, enough⟩
  by_contra some_
  obtain ⟨info, found⟩ := Option.ne_none_iff_exists'.mp some_
  have entry := (had none (.subspace (keyOf 5)) (.subspace info)).mp (by simp [View.entry, found])
  simp [ownerEntries] at entry

end Enough

end Hypergraph.Logs
