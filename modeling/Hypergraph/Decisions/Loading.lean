import Hypergraph.Decisions.Scopes

/-! Custom roles are read as needed, so a branch judges with part of the view's. The roles it
loaded it knows as the view has them, and its checks then agree with the view's.
-/

namespace Hypergraph.Decisions

open Js Encodings

/-- Everything loaded is as the view has it. -/
def Within (custom : Custom) (v : View) : Prop :=
  ∀ name permissions, custom name = some permissions → v.custom name = some permissions

/-- What is loaded gives a role the permissions the view does. -/
def Knows (custom : Custom) (v : View) (role : Option String) : Prop :=
  permissionsOf role custom = permissionsOf role v.custom

section Checks

variable {a b : Custom} {role other : Option String}

theorem listOf_congr (same : permissionsOf role a = permissionsOf role b)
    : listOf role a = listOf role b := by
  simp only [listOf, same]

theorem holds_congr (same : permissionsOf role a = permissionsOf role b) (permission : String)
    : holds role permission a = holds role permission b := by
  simp only [holds, listOf_congr same]

theorem grants_congr (same : permissionsOf role a = permissionsOf role b)
    (permissions : List String)
    : grants role permissions a = grants role permissions b := by
  simp only [grants, listOf_congr same]

theorem assigns_congr {name : String} (same : permissionsOf role a = permissionsOf role b)
    (given : permissionsOf (some name) a = permissionsOf (some name) b)
    : assigns role other name a = assigns role other name b := by
  simp only [assigns, holds_congr same, given, listOf_congr given, grants_congr same]

theorem invites_congr {name : String} (same : permissionsOf role a = permissionsOf role b)
    (given : permissionsOf (some name) a = permissionsOf (some name) b)
    : invites role name a = invites role name b := by
  simp only [invites, holds_congr same, given, listOf_congr given, grants_congr same]

theorem removes_congr (same : permissionsOf role a = permissionsOf role b)
    (permission : String)
    : removes role other permission a = removes role other permission b := by
  simp only [removes, holds_congr same]

end Checks

-- Loading

section Load

variable {v : View} {custom : Custom}

theorem within_none : Within (fun _ => none) v := by
  intro name permissions found
  cases found

theorem within_loadRole (within : Within custom v) (role : Option String)
    : Within (loadRole v custom role) v := by
  cases role with
  | none => exact within
  | some name =>
      simp only [loadRole]
      split
      · exact within
      · cases found : v.role name with
        | none => exact within
        | some entry =>
            intro n permissions same
            by_cases here : n = name
            · subst here
              simpa [View.custom, found] using same
            · exact within n permissions (by simpa [here] using same)

theorem within_load (within : Within custom v) (names : List (Option String))
    : Within (load v custom names) v := by
  induction names generalizing custom with
  | nil => exact within
  | cons role rest ih => exact ih (within_loadRole within role)

/-- A role just loaded is known: it was loaded before, is built in, or is read now. -/
theorem knows_loadRole (within : Within custom v) (role : Option String)
    : Knows (loadRole v custom role) v role := by
  cases role with
  | none => rfl
  | some name =>
      by_cases empty : name = ""
      · simp [Knows, permissionsOf, empty]
      · cases builtIn : lookup roles name with
        | own list => simp [Knows, permissionsOf, builtIn]
        | inherited => simp [Knows, permissionsOf, builtIn]
        | undefined =>
            cases loaded : custom name with
            | some permissions =>
                have inView := within name permissions loaded
                simp [Knows, permissionsOf, loadRole, empty, builtIn, loaded, inView]
            | none =>
                cases found : v.role name with
                | none =>
                    simp [Knows, permissionsOf, loadRole, empty, builtIn, loaded, found,
                      View.custom]
                | some entry =>
                    simp [Knows, permissionsOf, loadRole, empty, builtIn, loaded, found,
                      View.custom]

theorem Knows.loadRole {other : Option String} (known : Knows custom v other)
    (within : Within custom v) (role : Option String)
    : Knows (loadRole v custom role) v other := by
  by_cases same : other = role
  · exact same ▸ knows_loadRole within role
  · refine Eq.trans ?_ known
    cases role with
    | none => rfl
    | some name =>
        simp only [Decisions.loadRole]
        split
        · rfl
        · cases v.role name with
          | none => rfl
          | some entry =>
              cases other with
              | none => rfl
              | some n =>
                  have different : n ≠ name := fun h => same (congrArg some h)
                  simp only [permissionsOf, different, if_false]

theorem Knows.load {other : Option String} (known : Knows custom v other)
    (within : Within custom v) (names : List (Option String))
    : Knows (load v custom names) v other := by
  induction names generalizing custom with
  | nil => exact known
  | cons role rest ih => exact ih (known.loadRole within role) (within_loadRole within role)

theorem knows_load (within : Within custom v) {names : List (Option String)}
    {role : Option String} (member : role ∈ names)
    : Knows (load v custom names) v role := by
  induction names generalizing custom with
  | nil => cases member
  | cons first rest ih =>
      rcases List.mem_cons.mp member with rfl | later
      · exact (knows_loadRole within role).load (within_loadRole within role) rest
      · exact ih (within_loadRole within first) later

theorem Within.congr {w : View} (within : Within custom v) (same : w.role = v.role)
    : Within custom w := by
  intro name permissions found
  have here := within name permissions found
  simpa only [View.custom, same] using here

theorem custom_congr {w : View} (same : w.role = v.role) : w.custom = v.custom := by
  unfold View.custom
  rw [same]

theorem Knows.congr {w : View} {role : Option String} (known : Knows custom v role)
    (same : w.role = v.role)
    : Knows custom w role := by
  unfold Knows
  rw [custom_congr same]
  exact known

end Load

-- Checks on plain, loaded roles

section Plain

variable {v : View} {custom : Custom} {role : Option String}

theorem can_eq (plain : Plain role) (known : Knows custom v role) (permission : String)
    : can role permission custom = .ok (holds role permission v.custom) := by
  rw [can_plain plain, holds_congr known]

theorem mayAssign_eq {current : Option String} {name : String} (plain : Plain role)
    (given : name ∉ objectPrototype) (known : Knows custom v role)
    (knownGiven : Knows custom v (some name))
    : mayAssign role current name custom = .ok (assigns role current name v.custom) := by
  rw [mayAssign_plain plain given, assigns_congr known knownGiven]

theorem mayInvite_eq {name : String} (plain : Plain role) (given : name ∉ objectPrototype)
    (known : Knows custom v role) (knownGiven : Knows custom v (some name))
    : mayInvite role name custom = .ok (invites role name v.custom) := by
  rw [mayInvite_plain plain given, invites_congr known knownGiven]

theorem mayRemove_eq {target : Option String} (plain : Plain role)
    (known : Knows custom v role) (permission : String)
    : mayRemove role target permission custom
      = .ok (removes role target permission v.custom) := by
  rw [mayRemove_plain target plain, removes_congr known]

/-- May a role write decisions? -/
def decides (role : Option String) (custom : Custom) : Bool :=
  holds role "decide" custom || holds role "moderate" custom

theorem mayWrite_plain (plain : Plain role)
    : mayWrite role custom = .ok (decides role custom) := by
  unfold mayWrite decides
  rw [can_plain plain, can_plain plain]
  cases holds role "decide" custom <;> rfl

theorem decides_congr {a b : Custom} (same : permissionsOf role a = permissionsOf role b)
    : decides role a = decides role b := by
  simp only [decides, holds_congr same]

theorem mayWrite_eq (plain : Plain role) (known : Knows custom v role)
    : mayWrite role custom = .ok (decides role v.custom) := by
  rw [mayWrite_plain plain, decides_congr known]

theorem losesPost_eq {before after : Option String} (plain : Plain before)
    (plainAfter : Plain after) (known : Knows custom v before)
    (knownAfter : Knows custom v after)
    : losesPost before after custom
      = .ok (holds before "post" v.custom && !holds after "post" v.custom) := by
  unfold losesPost
  simp only [can_eq plain known, can_eq plainAfter knownAfter, ok_bind, pure_eq_ok]
  cases holds before "post" v.custom <;> rfl

/-- The permissions a change takes away, but `post`. -/
def lost (before after : Option String) (custom : Custom) : List String :=
  (listOf before custom).filter fun p => p ≠ "post" && !(listOf after custom).contains p

/-- Filtering by a check that does not throw is filtering purely; induction on the list. -/
theorem filterM_ok {α : Type} (list : List α) (check : α → Run Bool) (pureCheck : α → Bool)
    (agrees : ∀ item ∈ list, check item = .ok (pureCheck item))
    : list.filterM check = .ok (list.filter pureCheck) := by
  have loop (seen : List α) : List.filterAuxM check list seen
      = .ok ((list.filter pureCheck).reverse ++ seen) := by
    induction list generalizing seen with
    | nil => rfl
    | cons first rest ih =>
        have next := ih (fun item member => agrees item (List.mem_cons_of_mem _ member))
        simp only [List.filterAuxM, agrees first (by simp), ok_bind]
        cases keep : pureCheck first with
        | true => simp [next, keep]
        | false => simp [next, keep]
  simp [List.filterM, loop]

theorem lostPermissions_eq {before after : Option String} (plain : Plain before)
    (plainAfter : Plain after) (known : Knows custom v before)
    (knownAfter : Knows custom v after)
    : lostPermissions before after custom = .ok (lost before after v.custom) := by
  unfold lostPermissions lost
  rw [← listOf_congr known, ← listOf_congr knownAfter]
  have table := permissionsOf_plain plain custom
  cases found : permissionsOf before custom with
  | inherited => exact absurd found table
  | undefined => simp [listOf, found]
  | own list =>
      have same : listOf before custom = list := by simp [listOf, found]
      rw [same]
      refine filterM_ok list _ _ (fun p _ => ?_)
      rw [includes_plain plainAfter]
      by_cases post : p = "post" <;> simp [post]

end Plain

end Hypergraph.Decisions
