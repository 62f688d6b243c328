import Hypergraph.Decisions.Sound
import Hypergraph.Lib.Mapping

/-! What the helpers of a decision do to the view, where none of their loops runs on and no
role they check is one that throws. Each is given as a plain function of the view.
-/

namespace Hypergraph.Decisions

open Js Encodings

-- Where someone writes

theorem filterMapM_ok {α β : Type} (list : List α) (step : α → Run (Option β))
    (pureStep : α → Option β) (agrees : ∀ item ∈ list, step item = .ok (pureStep item))
    : list.filterMapM step = .ok (list.filterMap pureStep) := by
  have loop (seen : List β) : List.filterMapM.loop step list seen
      = .ok (seen.reverse ++ list.filterMap pureStep) := by
    induction list generalizing seen with
    | nil => simp [List.filterMapM.loop]
    | cons first rest ih =>
        have next := ih (fun item member => agrees item (List.mem_cons_of_mem _ member))
        simp only [List.filterMapM.loop, agrees first (by simp), ok_bind]
        cases kept : pureStep first with
        | none => simp [next, kept]
        | some value => simp [next, kept]
  simp [List.filterMapM, loop]

/-- Folding by a step that does not throw on what the steps before it keep. -/
theorem foldlM_ok {α σ : Type} (keeps : σ → Prop) (list : List α) (step : σ → α → Run σ)
    (pureStep : σ → α → σ)
    (agrees : ∀ state item, item ∈ list → keeps state
      → step state item = .ok (pureStep state item) ∧ keeps (pureStep state item))
    (state : σ) (start : keeps state)
    : list.foldlM step state = .ok (list.foldl pureStep state)
      ∧ keeps (list.foldl pureStep state) := by
  induction list generalizing state with
  | nil => exact ⟨rfl, start⟩
  | cons first rest ih =>
      obtain ⟨here, kept⟩ := agrees state first (by simp) start
      have next := ih (fun state item member =>
        agrees state item (List.mem_cons_of_mem _ member)) _ kept
      simpa [List.foldlM_cons, here] using next

/-- An identity's recorded role in the top space and in each sub-space. -/
def rolesAt (v : View) (id : Key) : List (Option String) :=
  State.recordedRole v [] id
    :: (subspacesOf v).filterMap fun s =>
        (chainAt v s.key).map fun chain => State.recordedRole v chain id

/-- May the identity decide or moderate anywhere? -/
def writesAny (v : View) (id : Key) : Bool :=
  (rolesAt v id).any fun role => decides role v.custom

/-- The custom roles known once `writesAnywhere` has looked through some roles. -/
def loadedBy (v : View) : List (Option String) → Custom → Custom
  | [], custom => custom
  | role :: rest, custom =>
      if truthy role && decides role v.custom then loadRole v custom role
      else loadedBy v rest (if truthy role then loadRole v custom role else custom)

theorem recordedRole_recorded {v : View} {scope : Scope} {chain : List Key}
    (path : IsChain v scope chain) (topBan : v.TopBan) (id : Key)
    : roleIn v chain id = .ok (State.recordedRole v chain id) :=
  roleIn_eq topBan path.recorded id

theorem rolesOf_eq {v : View} (tree : v.Tree) (topBan : v.TopBan) (id : Key)
    : rolesOf v id = .ok (rolesAt v id) := by
  unfold rolesOf rolesAt
  rw [recordedRole_recorded .top topBan]
  rw [filterMapM_ok _ _ fun s =>
    (chainAt v s.key).map fun chain => State.recordedRole v chain id]
  · rfl
  · intro s _
    rw [tree.chainOf_eq]
    cases found : chainAt v s.key with
    | none => rfl
    | some chain =>
        simp [recordedRole_recorded (tree.chainAt_iff.mp found) topBan]

theorem plain_rolesAt {v : View} (plain : v.PlainRoles) (id : Key)
    : ∀ role ∈ rolesAt v id, Plain role := by
  intro role member
  rcases List.mem_cons.mp member with rfl | below
  · exact plain.recordedRole [] id
  · obtain ⟨s, _, same⟩ := List.mem_filterMap.mp below
    obtain ⟨chain, _, rfl⟩ := Option.map_eq_some_iff.mp same
    exact plain.recordedRole chain id

theorem decides_of_not_truthy {role : Option String} (empty : truthy role = false)
    (custom : Custom)
    : decides role custom = false := by
  cases role with
  | none => rfl
  | some name =>
      have same : name = "" := by simpa [truthy] using empty
      subst same
      rfl

/-- The loop finds a role that writes just when there is one; induction on the roles. -/
theorem writesLoop_eq {v : View} {custom : Custom} (within : Within custom v)
    {list : List (Option String)} (plain : ∀ role ∈ list, Plain role)
    : writesLoop v list custom
      = .ok (list.any fun role => decides role v.custom, loadedBy v list custom) := by
  induction list generalizing custom with
  | nil => rfl
  | cons role rest ih =>
      have later (role : Option String) (member : role ∈ rest) : Plain role :=
        plain role (List.mem_cons_of_mem _ member)
      cases empty : truthy role with
      | false =>
          simp [writesLoop, loadedBy, empty, ih within later,
            decides_of_not_truthy empty]
      | true =>
          have loaded := within_loadRole within role
          have check := mayWrite_eq (plain role (by simp)) (knows_loadRole within role)
          simp only [writesLoop, empty, Bool.not_true, Bool.false_eq_true, if_false, check,
            ok_bind, loadedBy, Bool.true_and, List.any_cons]
          cases decides role v.custom with
          | true => rfl
          | false => simp [ih loaded later]

theorem writesAnywhere_eq {v : View} (tree : v.Tree) (topBan : v.TopBan)
    (plain : v.PlainRoles) {custom : Custom} (within : Within custom v) (id : Key)
    : writesAnywhere v id custom
      = .ok (writesAny v id, loadedBy v (rolesAt v id) custom) := by
  unfold writesAnywhere
  rw [rolesOf_eq tree topBan]
  exact writesLoop_eq within (plain_rolesAt plain id)

theorem within_loadedBy {v : View} {custom : Custom} (within : Within custom v)
    (list : List (Option String))
    : Within (loadedBy v list custom) v := by
  induction list generalizing custom with
  | nil => exact within
  | cons role rest ih =>
      unfold loadedBy
      split
      · exact within_loadRole within role
      · split
        · exact ih (within_loadRole within role)
        · exact ih within

theorem Knows.loadedBy {v : View} {custom : Custom} {role : Option String}
    (known : Knows custom v role) (within : Within custom v) (list : List (Option String))
    : Knows (loadedBy v list custom) v role := by
  induction list generalizing custom with
  | nil => exact known
  | cons first rest ih =>
      unfold Decisions.loadedBy
      split
      · exact known.loadRole within first
      · split
        · exact ih (known.loadRole within first) (within_loadRole within first)
        · exact ih known within

/-- The first role looked at is known afterwards. -/
theorem knows_loadedBy_head {v : View} {custom : Custom} (within : Within custom v)
    (role : Option String) (rest : List (Option String))
    : Knows (loadedBy v (role :: rest) custom) v role := by
  cases empty : truthy role with
  | true =>
      have here := knows_loadRole within role
      unfold Decisions.loadedBy
      split
      · exact here
      · exact here.loadedBy (within_loadRole within role) rest
  | false =>
      cases role with
      | none => rfl
      | some name =>
          have same : name = "" := by simpa [truthy] using empty
          simp [Knows, permissionsOf, same]

/-- Writing somewhere is deciding or moderating on some chain. -/
theorem writesAny_iff {v : View} (tree : v.Tree) {id : Key}
    : writesAny v id = true
      ↔ ∃ scope chain, IsChain v scope chain
        ∧ decides (State.recordedRole v chain id) v.custom = true := by
  unfold writesAny rolesAt
  simp only [List.any_cons, Bool.or_eq_true, List.any_eq_true, List.mem_filterMap]
  constructor
  · rintro (top | ⟨role, ⟨s, _, found⟩, writes⟩)
    · exact ⟨none, [], .top, top⟩
    · obtain ⟨chain, path, rfl⟩ := Option.map_eq_some_iff.mp found
      exact ⟨some s.key, chain, tree.chainAt_iff.mp path, writes⟩
  · rintro ⟨scope, chain, path, writes⟩
    cases scope with
    | none =>
        cases path
        exact .inl writes
    | some s =>
        refine .inr ⟨_, ?_, writes⟩
        have recorded : (v.subspace s).isSome := path.recorded s (by
          have head := path.head?
          exact List.mem_of_mem_head? (by simp [head]))
        obtain ⟨info, found⟩ := Option.isSome_iff_exists.mp recorded
        refine ⟨⟨s, info.parent, info.priv⟩, ?_, ?_⟩
        · exact List.mem_filterMap.mpr ⟨s, tree.listed s recorded, by simp [found]⟩
        · simp [tree.chainAt_iff.mpr path]

-- Frames

/-- Only writer keys differ. -/
def View.OnlyWriters (v w : View) : Prop :=
  w = { v with writer := w.writer, writers := w.writers }

/-- Only cuts, and the codes that let someone back in after one, differ. -/
def View.OnlyCuts (v w : View) : Prop :=
  w = { v with cut := w.cut, admits := w.admits, editcut := w.editcut }

section Frames

variable {u v w : View}

theorem View.OnlyWriters.trans (first : u.OnlyWriters v) (second : v.OnlyWriters w)
    : u.OnlyWriters w := by
  unfold View.OnlyWriters at *
  rw [second, first]

theorem View.OnlyCuts.trans (first : u.OnlyCuts v) (second : v.OnlyCuts w)
    : u.OnlyCuts w := by
  unfold View.OnlyCuts at *
  rw [second, first]

/-- A fold of steps that each stay within a frame stays within it; induction on the list. -/
theorem foldl_frame {α : Type} (frame : View → View → Prop) (start : ∀ v, frame v v)
    (trans : ∀ u v w, frame u v → frame v w → frame u w)
    (step : Counting → α → Counting) (within : ∀ v item, frame v.view (step v item).view)
    (list : List α) (v : Counting)
    : frame v.view (list.foldl step v).view := by
  induction list generalizing v with
  | nil => exact start v.view
  | cons first rest ih => exact trans _ _ _ (within v first) (ih _)

end Frames

-- `settle`

namespace Effect

/-- A writer key's entry, settling the order or not. -/
def mark (v : Counting) (key : Key) (indexer : Bool) : Counting :=
  v.write (·.setWriter key ((v.view.writer key).map fun w => { w with indexer := indexer }))

/-- An identity's first key that settles the order. -/
def settler (v : View) (id : Key) : Option Key :=
  (writersOf v id).find? fun key => (v.writer key).any Writer.indexer

/-- All keys of an identity go. -/
def forgetAll (env : Env) (v : Counting) (id : Key) : Counting :=
  (writersOf v.view id).foldl (fun v key => removeFromBase env (forget v id key) key) v

def settle (env : Env) (v : Counting) (id : Key) : Counting :=
  if !writesAny v.view id then forgetAll env v id
  else if holds (State.recordedRole v.view [] id) "decide" v.view.custom then
    match settler v.view id, writersOf v.view id with
    | none, key :: _ => (mark v key true).call (.addWriter key true)
    | _, _ => v
  else
    match settler v.view id with
    | none => v
    | some key =>
        let v := mark v key false
        if env.removeable v.host key then v.call (.addWriter key false) else v

end Effect

theorem settle_eq (env : Env) {v : Counting} (ready : v.view.Ready) {custom : Custom}
    (within : Within custom v.view) (id : Key)
    : settle env v id custom
      = .ok (Effect.settle env v id, loadedBy v.view (rolesAt v.view id) custom) := by
  have known : Knows (loadedBy v.view (rolesAt v.view id) custom) v.view
      (State.recordedRole v.view [] id) := knows_loadedBy_head within _ _
  have role := can_eq (ready.plain.recordedRole [] id) known "decide"
  have entries : ∃ entry : Key → Writer,
      ∀ key ∈ writersOf v.view id, v.view.writer key = some (entry key) :=
    ⟨fun key => (v.view.writer key).getD ⟨id, none, false⟩, fun key listed => by
      obtain ⟨w, found, _⟩ := ready.keys.known listed
      simp [found]⟩
  obtain ⟨entry, entries⟩ := entries
  unfold settle Effect.settle
  simp only [writesAnywhere_eq ready.tree ready.topBan ready.plain within, ok_bind]
  cases writesAny v.view id with
  | false => rfl
  | true =>
      simp only [Bool.not_true, Bool.false_eq_true, if_false,
        recordedRole_recorded .top ready.topBan, ok_bind, role]
      rw [@Mapping.mapM_of_pure _ _ Run _ _ _ _ fun key => (key, entry key)]
      · have found : ((writersOf v.view id).map fun key => (key, entry key)).find?
              (fun entry => entry.2.indexer)
            = (Effect.settler v.view id).map fun key => (key, entry key) := by
          have general (list : List Key)
              (known : ∀ key ∈ list, v.view.writer key = some (entry key))
              : (list.map fun key => (key, entry key)).find? (fun entry => entry.2.indexer)
                = (list.find? fun key => (v.view.writer key).any Writer.indexer).map
                    fun key => (key, entry key) := by
            induction list with
            | nil => rfl
            | cons first rest ih =>
                have next := ih fun key member => known key (List.mem_cons_of_mem _ member)
                simp only [List.map_cons, List.find?_cons, known first (by simp),
                  Option.any_some]
                cases (entry first).indexer with
                | true => rfl
                | false => exact next
          exact general _ entries
        simp only [pure_eq_ok, ok_bind, found]
        cases decide : holds (State.recordedRole v.view [] id) "decide" v.view.custom with
        | true =>
            cases first : Effect.settler v.view id with
            | some key => simp
            | none =>
                cases list : writersOf v.view id with
                | nil => simp
                | cons key rest =>
                    have here := entries key (by simp [list])
                    simp [Effect.mark, here]
        | false =>
            cases first : Effect.settler v.view id with
            | none => simp
            | some key =>
                have here := entries key (List.mem_of_find?_eq_some first)
                simp only [Option.map_some, Bool.false_eq_true, if_false, Effect.mark, here]
                split <;> rfl
      · intro key listed
        simp [entries key listed]

-- Writer keys only

section Writers

variable (env : Env) (v : Counting) (id key : Key)

theorem addKey_frame (device : Option Key)
    : v.view.OnlyWriters (addKey v id key device).2.view := by
  unfold addKey
  split
  · rfl
  · split <;> rfl

theorem forget_frame : v.view.OnlyWriters (forget v id key).view := rfl

@[simp]
theorem removeFromBase_view : (removeFromBase env v key).view = v.view := by
  unfold removeFromBase
  split <;> rfl

theorem forgetAll_frame : v.view.OnlyWriters (Effect.forgetAll env v id).view := by
  refine foldl_frame View.OnlyWriters (fun _ => rfl) (fun _ _ _ => .trans) _ ?_ _ v
  intro v key
  rw [removeFromBase_view]
  exact forget_frame v id key

theorem settle_frame : v.view.OnlyWriters (Effect.settle env v id).view := by
  unfold Effect.settle
  split
  · exact forgetAll_frame env v id
  · split
    · split <;> rfl
    · split
      · rfl
      · dsimp only
        split <;> rfl

end Writers

-- Cuts only

/-- Whoever may post again and was cut is let back in by a decision with a code. -/
def Effect.admitBack (v : Counting) (scope : Scope) (id : Key) (role : String)
    (code : Option Key)
    : Counting :=
  match code with
  | none => v
  | some code =>
      if holds (some role) "post" v.view.custom && (v.view.cut scope id).isSome
          && (v.view.admits scope id).isNone then
        v.write (·.setAdmit scope id (some code))
      else v

theorem admit_eq {v : Counting} {role : String} {custom : Custom}
    (plain : role ∉ objectPrototype) (known : Knows custom v.view (some role))
    (scope : Scope) (id : Key) (code : Option Key)
    : admitBack v scope id role custom code = .ok (Effect.admitBack v scope id role code) := by
  unfold admitBack Effect.admitBack
  cases code with
  | none => rfl
  | some code =>
      simp only [can_eq (by simpa using plain) known, ok_bind]
      cases holds (some role) "post" v.view.custom with
      | false => simp
      | true =>
          cases v.view.cut scope id <;> cases v.view.admits scope id <;> simp

/-- Scopes strictly below another. -/
def belowScopes (v : View) (scope : Scope) : List Scope :=
  ((subspacesOf v).filter fun s => belowAt v s.key scope).map (some ·.key)

/-- One scope of `dropAll`. -/
def Effect.dropIn (scope : Scope) (id : Key) (entries : List CutEntry) (stamp : Nat)
    (v : Counting) (s : Scope)
    : Counting :=
  let zero (logs : List Key) : Lengths := logs.map fun log => (log, 0)
  let node := v.view.cut s id
  let logs := zero (entries.map (·.log) ++ (node.elim [] (·.logs)).map Prod.fst)
  let v :=
    if s = scope || node.isSome then v.write (·.setCut s id (some ⟨logs, stamp⟩)) else v
  match v.view.editcut s id with
  | none => v
  | some edits =>
      let perms := edits.map fun (p, logs) => (p, zero (logs.map Prod.fst))
      v.write (·.setEditcut s id (some perms))

def Effect.dropAll (v : Counting) (scope : Scope) (id : Key) (entries : List CutEntry)
    (stamp : Nat)
    : Counting :=
  ((scope :: belowScopes v.view scope).foldl (Effect.dropIn scope id entries stamp) v).write
    (·.setAdmit scope id none)

theorem dropAll_eq {v : Counting} (tree : v.view.Tree) (scope : Scope) (id : Key)
    (entries : List CutEntry) (stamp : Nat)
    : dropAll v scope id entries stamp
      = .ok (Effect.dropAll v scope id entries stamp) := by
  have keys := filterM_ok (subspacesOf v.view) (fun s => below (subspacesOf v.view) s.key scope)
    (fun s => belowAt v.view s.key scope) (fun s _ => below_eq tree s.key scope)
  simp only [dropAll, keys, ok_bind]
  rfl

section Cuts

variable (v : Counting) (scope : Scope) (id : Key) (entries : List CutEntry) (stamp : Nat)

theorem admit_frame (role : String) (code : Option Key)
    : v.view.OnlyCuts (Effect.admitBack v scope id role code).view := by
  unfold Effect.admitBack
  split
  · rfl
  · split <;> rfl

theorem recordCut_frame : v.view.OnlyCuts (recordCut v scope id entries stamp).view := rfl

theorem recordEditCuts_frame (lost : List String)
    : v.view.OnlyCuts (recordEditCuts v scope id lost entries).view := by
  unfold recordEditCuts
  split <;> rfl

theorem dropIn_frame (s : Scope)
    : v.view.OnlyCuts (Effect.dropIn scope id entries stamp v s).view := by
  unfold Effect.dropIn
  dsimp only
  split <;> split <;> rfl

theorem dropAll_frame
    : v.view.OnlyCuts (Effect.dropAll v scope id entries stamp).view := by
  have scopes := foldl_frame View.OnlyCuts (fun _ => rfl) (fun _ _ _ => .trans) _
    (fun v s => dropIn_frame v scope id entries stamp s)
    (scope :: belowScopes v.view scope) v
  exact scopes.trans rfl

end Cuts

-- Member entries

/-- The view with an identity's own entries gone in every sub-space below a scope. -/
def View.dropped (v : View) (scope : Scope) (id : Key) : View :=
  { v with member := fun s i =>
      if i = id ∧ s.any (fun key => belowAt v key scope) then none else v.member s i }

/-- Only member entries differ. -/
def View.OnlyMembers (v w : View) : Prop := w = { v with member := w.member }

theorem View.OnlyMembers.trans {u v w : View} (first : u.OnlyMembers v)
    (second : v.OnlyMembers w)
    : u.OnlyMembers w := by
  unfold View.OnlyMembers at *
  rw [second, first]

/-- One sub-space of `dropBelow`. -/
def Effect.dropOne (scope : Scope) (id : Key) (v : Counting) (s : SubInfo) : Counting :=
  if belowAt v.view s.key scope && (v.view.member (some s.key) id).isSome then
    v.write (·.setMember (some s.key) id none)
  else v

section Drop

variable (scope : Scope) (id : Key)

theorem dropOne_frame (v : Counting) (s : SubInfo)
    : v.view.OnlyMembers (Effect.dropOne scope id v s).view := by
  unfold Effect.dropOne
  split <;> rfl

theorem dropOne_member (v : Counting) (s : SubInfo) (at_ : Scope) (i : Key)
    : (Effect.dropOne scope id v s).view.member at_ i
      = if i = id ∧ at_ = some s.key ∧ belowAt v.view s.key scope = true then none
        else v.view.member at_ i := by
  unfold Effect.dropOne
  cases down : belowAt v.view s.key scope with
  | false => simp
  | true =>
      cases entry : v.view.member (some s.key) id with
      | none =>
          simp only [Option.isSome_none, Bool.and_false, Bool.false_eq_true, if_false]
          split
          · rename_i here
            obtain ⟨rfl, rfl, _⟩ := here
            exact entry
          · rfl
      | some m => simp [and_comm]

/-- The entries below the scope of the sub-spaces looked at are gone; induction on those. -/
theorem foldl_dropOne_member (list : List SubInfo) (v : Counting) (at_ : Scope) (i : Key)
    : (list.foldl (Effect.dropOne scope id) v).view.member at_ i
      = if i = id ∧ ∃ s ∈ list, at_ = some s.key ∧ belowAt v.view s.key scope = true then none
        else v.view.member at_ i := by
  induction list generalizing v with
  | nil => simp
  | cons first rest ih =>
      have frame := dropOne_frame scope id v first
      have same (key : Key) : belowAt (Effect.dropOne scope id v first).view key scope
          = belowAt v.view key scope := by
        refine belowAt_congr ?_ ?_ key scope
        · rw [frame]
        · rw [frame]
      simp only [List.foldl_cons, ih, same, dropOne_member]
      by_cases later : i = id ∧ ∃ s ∈ rest, at_ = some s.key ∧ belowAt v.view s.key scope = true
      · obtain ⟨rfl, s, member, here, down⟩ := later
        rw [if_pos ⟨rfl, s, member, here, down⟩,
          if_pos ⟨rfl, s, List.mem_cons_of_mem _ member, here, down⟩]
      · rw [if_neg later]
        by_cases now : i = id ∧ at_ = some first.key ∧ belowAt v.view first.key scope = true
        · rw [if_pos now, if_pos ⟨now.1, first, List.mem_cons_self, now.2⟩]
        · rw [if_neg now, if_neg]
          rintro ⟨theirs, s, member, here⟩
          rcases List.mem_cons.mp member with rfl | member
          · exact now ⟨theirs, here⟩
          · exact later ⟨theirs, s, member, here⟩

theorem listed_of_belowAt {v : View} (tree : v.Tree) {key : Key}
    (down : belowAt v key scope = true)
    : ∃ s ∈ subspacesOf v, s.key = key := by
  obtain ⟨up, path, _⟩ := (belowAt_iff tree).mp down
  have recorded := path.recorded key (by simp)
  obtain ⟨info, found⟩ := Option.isSome_iff_exists.mp recorded
  exact ⟨⟨key, info.parent, info.priv⟩,
    List.mem_filterMap.mpr ⟨key, tree.listed key recorded, by simp [found]⟩, rfl⟩

def Effect.dropBelow (v : Counting) : Counting :=
  (subspacesOf v.view).foldl (Effect.dropOne scope id) v

theorem dropBelow_eq {v : Counting} (tree : v.view.Tree)
    : dropBelow v scope id = .ok (Effect.dropBelow scope id v) := by
  have fold := foldlM_ok (fun w : Counting => v.view.OnlyMembers w.view) (subspacesOf v.view)
    (fun (w : Counting) (s : SubInfo) => (do
      if !(← below (subspacesOf v.view) s.key scope) then return w
      if (w.view.member (some s.key) id).isSome then
        return w.write (·.setMember (some s.key) id none)
      return w : Run Counting)) (Effect.dropOne scope id) (by
        intro w s _ frame
        refine ⟨?_, frame.trans (dropOne_frame scope id w s)⟩
        have same : belowAt w.view s.key scope = belowAt v.view s.key scope := by
          refine belowAt_congr ?_ ?_ s.key scope
          · rw [frame]
          · rw [frame]
        simp only [below_eq tree, ok_bind, Effect.dropOne, same]
        cases belowAt v.view s.key scope with
        | false => rfl
        | true => cases (w.view.member (some s.key) id).isSome <;> rfl)
    v rfl
  exact fold.1

theorem dropBelow_view {v : Counting} (tree : v.view.Tree)
    : (Effect.dropBelow scope id v).view = v.view.dropped scope id := by
  have frame : v.view.OnlyMembers (Effect.dropBelow scope id v).view :=
    foldl_frame View.OnlyMembers (fun _ => rfl) (fun _ _ _ => .trans) _
      (dropOne_frame scope id) _ v
  rw [frame]
  congr 1
  funext at_ i
  rw [Effect.dropBelow, foldl_dropOne_member]
  congr 1
  refine propext (and_congr_right fun _ => ?_)
  constructor
  · rintro ⟨s, _, rfl, down⟩
    simpa using down
  · intro down
    obtain ⟨key, rfl, here⟩ := (Option.any_eq_true _ _).mp down
    obtain ⟨s, listed, rfl⟩ := listed_of_belowAt scope tree here
    exact ⟨s, listed, rfl, here⟩

end Drop

end Hypergraph.Decisions
