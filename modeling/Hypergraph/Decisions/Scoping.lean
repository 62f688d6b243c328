import Hypergraph.Decisions.Notes
import Hypergraph.Decisions.Tree

/-! Where a scope's own entries stand: only those of sub-spaces that are recorded have any, so
every scoped entry of a view is under a sub-space's key.
-/

namespace Hypergraph.Decisions

open Wire Js Encodings Invites

-- One scope's entries

/-- A scope's own entries are the same. -/
structure SameAt (scope : Scope) (v w : View) : Prop where
  metaOf : w.metaOf scope = v.metaOf scope
  member : w.member scope = v.member scope
  banned : w.banned scope = v.banned scope
  cut : w.cut scope = v.cut scope
  admits : w.admits scope = v.admits scope
  editcut : w.editcut scope = v.editcut scope
  mod : w.mod scope = v.mod scope
  redeemed : w.redeemed scope = v.redeemed scope
  uses : w.uses scope = v.uses scope
  revoked : w.revoked scope = v.revoked scope
  epochs : w.epochs scope = v.epochs scope

/-- A scope has no entries of its own. -/
structure BlankAt (v : View) (scope : Scope) : Prop where
  metaOf : v.metaOf scope = none
  member : ∀ id, v.member scope id = none
  banned : ∀ id, v.banned scope id = none
  cut : ∀ id, v.cut scope id = none
  admits : ∀ id, v.admits scope id = none
  editcut : ∀ id, v.editcut scope id = none
  mod : ∀ target, v.mod scope target = none
  redeemed : ∀ inviteId id, v.redeemed scope inviteId id = none
  uses : ∀ inviteId, v.uses scope inviteId = none
  revoked : ∀ inviteId, v.revoked scope inviteId = none
  epochs : v.epochs scope = none

namespace SameAt

variable {u v w : View} {scope other : Scope} {id : Key}

@[refl]
theorem refl (scope : Scope) (v : View) : SameAt scope v v :=
  ⟨rfl, rfl, rfl, rfl, rfl, rfl, rfl, rfl, rfl, rfl, rfl⟩

theorem trans (first : SameAt scope u v) (second : SameAt scope v w) : SameAt scope u w where
  metaOf := second.metaOf.trans first.metaOf
  member := second.member.trans first.member
  banned := second.banned.trans first.banned
  cut := second.cut.trans first.cut
  admits := second.admits.trans first.admits
  editcut := second.editcut.trans first.editcut
  mod := second.mod.trans first.mod
  redeemed := second.redeemed.trans first.redeemed
  uses := second.uses.trans first.uses
  revoked := second.revoked.trans first.revoked
  epochs := second.epochs.trans first.epochs

theorem blank (same : SameAt scope v w) (blank : BlankAt v scope) : BlankAt w scope where
  metaOf := same.metaOf.trans blank.metaOf
  member id := (congrFun same.member id).trans (blank.member id)
  banned id := (congrFun same.banned id).trans (blank.banned id)
  cut id := (congrFun same.cut id).trans (blank.cut id)
  admits id := (congrFun same.admits id).trans (blank.admits id)
  editcut id := (congrFun same.editcut id).trans (blank.editcut id)
  mod target := (congrFun same.mod target).trans (blank.mod target)
  redeemed inviteId id :=
    (congrFun (congrFun same.redeemed inviteId) id).trans (blank.redeemed inviteId id)
  uses inviteId := (congrFun same.uses inviteId).trans (blank.uses inviteId)
  revoked inviteId := (congrFun same.revoked inviteId).trans (blank.revoked inviteId)
  epochs := same.epochs.trans blank.epochs

theorem onlyWriters (frame : v.OnlyWriters w) : SameAt scope v w := by
  constructor <;> rw [frame]

theorem onlyListed (frame : v.OnlyListed w) : SameAt scope v w := by
  constructor <;> rw [frame]

theorem setMember (apart : scope ≠ other) (entry : Option Member)
    : SameAt scope v (v.setMember other id entry) :=
  { SameAt.refl scope v with
    member := by
      funext i
      simp [apart] }

theorem setBanned (apart : scope ≠ other) (entry : Option Ban)
    : SameAt scope v (v.setBanned other id entry) :=
  { SameAt.refl scope v with
    banned := by
      funext i
      simp [apart] }

theorem setCut (apart : scope ≠ other) (entry : Option Cut)
    : SameAt scope v (v.setCut other id entry) :=
  { SameAt.refl scope v with
    cut := by
      funext i
      simp [apart] }

theorem setAdmit (apart : scope ≠ other) (entry : Option Key)
    : SameAt scope v (v.setAdmit other id entry) :=
  { SameAt.refl scope v with
    admits := by
      funext i
      simp [apart] }

theorem setEditcut (apart : scope ≠ other) (entry : Option Perms)
    : SameAt scope v (v.setEditcut other id entry) :=
  { SameAt.refl scope v with
    editcut := by
      funext i
      simp [apart] }

/-- A redemption is noted in one scope. -/
theorem noteRedeemed (apart : scope ≠ other) {inviteId : Key} {entry : Option Redeemed}
    {uses : Option Nat}
    : SameAt scope v ((v.setRedeemed other id inviteId entry).setUses other inviteId uses) :=
  { SameAt.refl scope v with
    redeemed := by
      funext k i
      simp [apart]
    uses := by
      funext k
      simp [apart] }

theorem write {v : Counting} {change : View → View} (same : SameAt scope v.view (change v.view))
    : SameAt scope v.view (v.write change).view :=
  same

end SameAt

-- Effects elsewhere

section Effects

variable {v : Counting} {scope other : Scope} {id : Key} {entries : List CutEntry} {stamp : Nat}

theorem admitBack_sameAt (apart : scope ≠ other) (role : String) (code : Option Key)
    : SameAt scope v.view (Effect.admitBack v other id role code).view := by
  unfold Effect.admitBack
  split
  · rfl
  · split
    · exact .setAdmit apart _
    · rfl

theorem recordCut_sameAt (apart : scope ≠ other)
    : SameAt scope v.view (recordCut v other id entries stamp).view :=
  (SameAt.setCut apart _).trans (.setAdmit apart _)

theorem recordEditCuts_sameAt (apart : scope ≠ other) (lost : List String)
    : SameAt scope v.view (recordEditCuts v other id lost entries).view := by
  unfold recordEditCuts
  split
  · rfl
  · exact .setEditcut apart _

theorem dropIn_sameAt (apart : scope ≠ other) (top : Scope)
    : SameAt scope v.view (Effect.dropIn top id entries stamp v other).view := by
  have cut : SameAt scope v.view (if other = top || (v.view.cut other id).isSome then
      v.write (·.setCut other id (some ⟨(entries.map (·.log)
        ++ ((v.view.cut other id).elim [] (·.logs)).map Prod.fst).map fun log => (log, 0), stamp⟩))
      else v).view := by
    split
    · exact .setCut apart _
    · rfl
  unfold Effect.dropIn
  dsimp only
  split
  · exact cut
  · exact cut.trans (.setEditcut apart _)

/-- What drops an identity's logs in a scope and below leaves a scope that is neither. -/
theorem dropAll_sameAt {top : Scope} (apart : scope ≠ top)
    (outside : scope ∉ belowScopes v.view top)
    : SameAt scope v.view (Effect.dropAll v top id entries stamp).view := by
  have each (list : List Scope) (away : ∀ s ∈ list, scope ≠ s) (u : Counting)
      : SameAt scope u.view (list.foldl (Effect.dropIn top id entries stamp) u).view := by
    induction list generalizing u with
    | nil => rfl
    | cons s rest ih =>
        exact (dropIn_sameAt (away s List.mem_cons_self) top).trans
          (ih (fun s member => away s (List.mem_cons_of_mem _ member)) _)
  refine (each _ ?_ v).trans (.setAdmit apart none)
  intro s member same
  rcases List.mem_cons.mp member with here | below
  · exact apart (same.trans here)
  · exact outside (same ▸ below)

end Effects

theorem not_mem_belowScopes {v : View} {k : Key} (unknown : v.subspace k = none) (top : Scope)
    : some k ∉ belowScopes v top := by
  intro member
  simp only [belowScopes, List.mem_map, List.mem_filter, subspacesOf, List.mem_filterMap,
    Option.map_eq_some_iff] at member
  obtain ⟨info, ⟨⟨key, _, entry, found, rfl⟩, _⟩, same⟩ := member
  cases same
  rw [unknown] at found
  cases found

-- One decision

section Steps

variable {env : Env} {v w : View} {k : Key}

theorem enter_sameAt {x : Context} {scope : Scope} (apart : scope ≠ x.scope) (r : Redemption)
    (device : Key) (v : Counting)
    : SameAt scope v.view (Effect.enter env x r device v).1.view := by
  unfold Effect.enter Effect.arrive
  split
  · exact (((SameAt.write (.setMember apart _)).trans (admitBack_sameAt apart _ _)).trans
      (.onlyWriters (addMemberKey_frame _ _ _ _))).trans (.onlyWriters (settle_frame env _ _))
  · rfl

theorem enter_subspace {x : Context} (r : Redemption) (device : Key) (v : Counting)
    : (Effect.enter env x r device v).1.view.subspace = v.view.subspace := by
  unfold Effect.enter
  split
  · obtain ⟨u, cuts, writers⟩ := arrive_frame (x := x) r device v
    simp only
    rw [settle_frame env, writers, cuts]
    rfl
  · rfl

/-- A key's entries are the same, and it is no sub-space's. -/
structure Away (k : Key) (v w : View) : Prop where
  same : SameAt (some k) v w
  absent : w.subspace k = none

section Away

variable {v u : Counting} {x : Context} {id : Key} {entries : List CutEntry}

theorem Away.recordCut (away : Away k v.view u.view) (apart : (some k : Scope) ≠ x.scope)
    : Away k v.view (recordCut u x.scope id entries x.stamp).view :=
  ⟨away.same.trans (recordCut_sameAt apart), away.absent⟩

theorem Away.cutIf (away : Away k v.view u.view) (apart : (some k : Scope) ≠ x.scope) (loses : Bool)
    : Away k v.view (if loses then Decisions.recordCut u x.scope id entries x.stamp else u).view := by
  cases loses with
  | false => exact away
  | true => exact away.recordCut apart

theorem Away.editCuts (away : Away k v.view u.view) (apart : (some k : Scope) ≠ x.scope)
    (lost : List String)
    : Away k v.view (recordEditCuts u x.scope id lost entries).view := by
  refine ⟨away.same.trans (recordEditCuts_sameAt apart lost), ?_⟩
  rw [recordEditCuts_frame]
  exact away.absent

theorem Away.dropAll (away : Away k v.view u.view) (apart : (some k : Scope) ≠ x.scope)
    : Away k v.view (Effect.dropAll u x.scope id entries x.stamp).view := by
  refine ⟨away.same.trans (dropAll_sameAt apart (not_mem_belowScopes away.absent x.scope)), ?_⟩
  rw [dropAll_frame]
  exact away.absent

theorem ban_sameAt (env : Env) (apart : (some k : Scope) ≠ x.scope)
    (unknown : v.view.subspace k = none) (d : Moderate)
    : SameAt (some k) v.view (Effect.ban env x id d v).view := by
  have banned (ban : Ban) : Away k v.view (v.write (·.setBanned x.scope id (some ban))).view :=
    ⟨.write (.setBanned apart _), unknown⟩
  have removed (ban : Ban) : Away k v.view ((v.write (·.setBanned x.scope id (some ban))).write
      (·.setMember x.scope id none)).view :=
    ⟨(banned ban).same.trans (.setMember apart none), unknown⟩
  have dropIf {u : Counting} (away : Away k v.view u.view)
      : Away k v.view (if d.drop = some "all" then
          Effect.dropAll u x.scope id d.cut x.stamp else u).view := by
    split
    · exact away.dropAll apart
    · exact away
  have settled {u : Counting} (away : Away k v.view u.view)
      : SameAt (some k) v.view (Effect.settle env u id).view :=
    away.same.trans (.onlyWriters (settle_frame env u id))
  apply settled
  apply dropIf
  split
  · split
    · exact (banned _).recordCut apart
    · exact banned _
  · exact ((removed _).cutIf apart _).editCuts apart _

end Away

/-- Sub-spaces an invite lists get entries only where they are recorded. -/
theorem routes_sameAt {x : Context} (inv : Invite) (id : Key) (custom : Custom)
    (list : List Key) (v : Counting) (unknown : v.view.subspace k = none)
    : SameAt (some k) v.view (list.foldl (Effect.route x inv id custom) v).view := by
  refine (foldl_keeps (fun u : Counting => SameAt (some k) v.view u.view
    ∧ u.view.subspace k = none) _ (fun u key kept => ?_) list v ⟨.refl _ v.view, unknown⟩).1
  obtain ⟨same, absent⟩ := kept
  unfold Effect.route
  split
  · exact ⟨same, absent⟩
  · rename_i chain found
    split
    · exact ⟨same, absent⟩
    · split
      · exact ⟨same, absent⟩
      · split
        · exact ⟨same, absent⟩
        · have apart : (some k : Scope) ≠ some key := by
            intro is
            cases is
            have unfound : chainAt u.view k = none := by
              simp [chainAt, chainOf, chainFrom, absent]
            rw [unfound] at found
            cases found
          refine ⟨(same.trans (.write (.setMember apart _))).trans
            (admitBack_sameAt apart _ _), ?_⟩
          have frame := admit_frame (u.write (·.setMember (some key) id
            (some { role := inv.role, by_ := inv.maker, stamp := x.stamp }))) (some key) id
            inv.role x.code
          rw [frame]
          exact absent

theorem Noted.sameAt {x : Context} {body : Body} {u : View} {scope : Scope}
    (noted : Noted env x v body u) (apart : scope ≠ x.scope)
    : SameAt scope v u := by
  have same := SameAt.refl scope v
  cases noted with
  | moderated d target entry =>
      refine { same with mod := ?_ }
      funext i
      simp [apart]
  | redeemed redemption r device inviteId found =>
      exact .noteRedeemed apart
  | revoked invite inv inviteId found named fresh =>
      refine { same with revoked := ?_ }
      funext inviteId
      simp [apart]
  | typed d next text => exact { same with }
  | listed logs held => exact { same with }
  | rotated d decides priv next rotates =>
      refine { same with epochs := ?_ }
      simp [apart]

theorem Outcome.sameAt {x : Context} {body : Body} {w : Counting}
    (outcome : Outcome env x { view := v } body w) (sound : v.Sound) (fits : x.Fits v)
    (ran : applyBody env x body { view := v } = .ok w) (unknown : v.subspace k = none)
    : SameAt (some k) v w.view := by
  have apart : (some k : Scope) ≠ x.scope := by
    intro same
    have recorded := fits.recorded (v := { view := v }) same.symm
    rw [unknown] at recorded
    cases recorded
  have here : Away k v v := ⟨.refl _ v, unknown⟩
  cases outcome with
  | skipped => rfl
  | memberAdd id top decides absent free =>
      have below : (some k : Scope) ≠ none := by simp
      exact (SameAt.write (v := { view := v }) (.setMember below _)).trans
        (admitBack_sameAt apart _ _)
  | memberRemove d present removes own =>
      have dropped : SameAt (some k) (v.setMember x.scope d.identity none) (Effect.dropBelow x.scope
          d.identity (Counting.write { view := v } (·.setMember x.scope d.identity none))).view := by
        have tree : (v.setMember x.scope d.identity none).Tree := sound.tree.congr rfl rfl
        rw [dropBelow_view x.scope d.identity
          (v := Counting.write { view := v } (·.setMember x.scope d.identity none)) tree]
        have away : belowAt (v.setMember x.scope d.identity none) k x.scope = false := by
          simp [belowAt, chainAt, chainOf, chainFrom, unknown]
        refine { SameAt.refl (some k) (v.setMember x.scope d.identity none) with member := ?_ }
        funext i
        simp [View.dropped, away]
      have removed : SameAt (some k) v (v.setMember x.scope d.identity none) := .setMember apart none
      have away : Away k v _ := ⟨removed.trans dropped, by
        rw [dropBelow_view x.scope d.identity
          (v := Counting.write { view := v } (·.setMember x.scope d.identity none))
          (sound.tree.congr rfl rfl)]
        exact unknown⟩
      exact ((away.cutIf (v := { view := v }) apart _).editCuts apart _).same.trans
        (.onlyWriters (settle_frame env _ _))
  | roleDefine d defines => exact ⟨rfl, rfl, rfl, rfl, rfl, rfl, rfl, rfl, rfl, rfl, rfl⟩
  | roleSet d plain free assigned =>
      let given := Counting.write { view := v }
        (·.setMember x.scope d.identity (some (Effect.nextMember x d v)))
      have set : SameAt (some k) v given.view := .setMember apart _
      have away : Away k v (Effect.admitBack given x.scope d.identity d.role x.code).view := by
        refine ⟨set.trans (admitBack_sameAt apart d.role x.code), ?_⟩
        rw [admit_frame]
        exact unknown
      exact (((away.cutIf (v := { view := v }) apart _).editCuts apart _).same.trans
        (.onlyWriters (addMemberKey_frame _ _ _ _))).trans (.onlyWriters (settle_frame env _ _))
  | ban d id action target moderates bans =>
      exact ban_sameAt env (v := { view := v }) apart unknown d
  | dropAll d id action target banned all => exact (here.dropAll (v := { view := v }) (u := { view := v }) apart).same
  | unban d id action target banned => exact .setBanned apart none
  | redeem redemption r device inviteId found still =>
      have entered : SameAt (some k) v (Effect.enter env x r device { view := v }).1.view :=
        enter_sameAt apart r device { view := v }
      have absent : (Effect.enter env x r device { view := v }).1.view.subspace k = none := by
        rw [enter_subspace]
        exact unknown
      have routed := entered.trans (routes_sameAt (x := x) r.invite r.identity
        (Effect.enter env x r device { view := v }).2 r.invite.subspaces _ absent)
      exact routed.trans (.noteRedeemed apart)
  | revoke invite inv inviteId found named fresh =>
      have noted : Noted env x v _ _ := .revoked invite inv inviteId found named fresh
      exact noted.sameAt apart
  | writerAdd d info top writes =>
      have added : SameAt (some k) v
          (addKey { view := v } info.identity d.key (some info.device)).2.view :=
        .onlyWriters (addKey_frame _ _ _ _)
      unfold Effect.writerAdd
      split
      · exact added.trans (.onlyWriters (settle_frame env _ _))
      · rfl
  | settings d next w kept same =>
      rw [same]
      refine { SameAt.refl (some k) v with metaOf := ?_ }
      simp [apart]
  | subspaceCreate d decides new w same =>
      rw [same]
      exact ⟨rfl, rfl, rfl, rfl, rfl, rfl, rfl, rfl, rfl, rfl, rfl⟩
  | deviceRemove d id top =>
      have gone : SameAt (some k) v (v.setGone id d.device (some ⟨x.author, x.stamp⟩)) :=
        ⟨rfl, rfl, rfl, rfl, rfl, rfl, rfl, rfl, rfl, rfl, rfl⟩
      rw [deviceRemove_view]
      exact (gone.trans (.onlyWriters (deviceGone_frame (x := x) (v := { view := v }) id
        d.device))).trans (.onlyWriters (settle_frame env _ _))
  | notes body w kind frame =>
      have along {u : View} (at_ : SameAt (some k) v u) (same : SameNotes u w.view)
          : SameAt (some k) v w.view := {
        metaOf := by rw [frame]
        member := by rw [frame]
        banned := by rw [frame]
        cut := by rw [frame]
        admits := by rw [frame]
        editcut := by rw [frame]
        mod := (congrFun same.mod _).trans at_.mod
        redeemed := (congrFun same.redeemed _).trans at_.redeemed
        uses := (congrFun same.uses _).trans at_.uses
        revoked := (congrFun same.revoked _).trans at_.revoked
        epochs := (congrFun same.epochs _).trans at_.epochs }
      rcases (Outcome.notes body w kind frame).noted sound fits ran with
        same | ⟨_, u, noted, same⟩
      · exact along (.refl _ v) same
      · exact along (noted.sameAt apart) same

end Steps

-- Every run

/-- The documented width of `fixed32`: what it reads has 32 bytes. -/
def FixedKeys (c : Primitives) : Prop :=
  ∀ bytes key rest, c.fixed32.decode bytes = some (key, rest) → key.length = 32

theorem fixedKeys_compact : FixedKeys compact := by
  intro bytes key rest read
  simp only [compact, compactFixed32, readBytes, Option.ite_none_right_eq_some,
    Option.some.injEq, Prod.mk.injEq] at read
  obtain ⟨enough, rfl, _⟩ := read
  simp [enough]

/-- A scoped entry stands under a sub-space's key, of 32 bytes. -/
structure View.Housed (v : View) : Prop where
  blank : ∀ k, v.subspace k = none → BlankAt v (some k)
  long : ∀ k, (v.subspace k).isSome → k.length = 32

section Runs

variable {env : Env} {v w : View} {node : Node}

/-- The key of a sub-space to be created has 32 bytes. -/
theorem key_of_subspaceCreate (fixed : FixedKeys env.c) {d : Incoming} {created : SubspaceCreate}
    (reads : readNode env.c node.value = some d)
    (body : d.decision.body = .subspaceCreate created)
    : created.key.length = 32 := by
  obtain ⟨type, bytes, rest, fields⟩ := readNode_body reads
  rw [body] at fields
  unfold decodeBody at fields
  split at fields
  all_goals
    simp only [Option.map_eq_some_iff, Prod.map, Prod.mk.injEq, reduceCtorEq, false_and,
      and_false, exists_false, id_eq, Prod.exists] at fields
  obtain ⟨made, left, read, same, _⟩ := fields
  cases same
  have keyed : (subspaceCreate env.c).Yields (·.key.length = 32) :=
    (Codec.Yields.pair fixed (Codec.yields_true _)).iso fun _ has => has.1
  exact keyed _ _ _ read

theorem NodeStep.housed (step : NodeStep env v node w) (sound : v.Sound) (fixed : FixedKeys env.c)
    (housed : v.Housed)
    : w.Housed := by
  constructor
  · intro k unknown
    have before : v.subspace k = none := by
      cases found : v.subspace k with
      | none => rfl
      | some info =>
          rw [step.spaces sound found] at unknown
          cases unknown
    refine SameAt.blank ?_ (housed.blank k before)
    cases step with
    | unread bad => rfl
    | read d reads applied came did w frame =>
        cases did with
        | skipped => exact .onlyListed frame
        | begun init body info unbegun applied same =>
            have begins : SameAt (some k) v
                (Effect.begin d.decision.stamp init node.from_ info v) := by
              refine { SameAt.refl (some k) v with metaOf := ?_, member := ?_ }
              · simp [Effect.begin]
              · funext id
                simp [Effect.begin]
            exact begins.trans (same ▸ SameAt.onlyListed frame)
        | decided other writer known chain here applied outcome =>
            have fits := contextAt_fits (chainHere_path sound.tree here) writer d.decision.stamp
              (env.codeOf node)
            have ran := applyBody_of_came sound came other known here
            exact (outcome.sameAt sound fits ran before).trans (.onlyListed frame)
  · intro k recorded
    rcases step.tree sound with same | ⟨d, created, x, reads, body, _, _, same⟩
    · rw [same.subspace] at recorded
      exact housed.long k recorded
    · rw [same.subspace] at recorded
      by_cases new : k = created.key
      · rw [new]
        exact key_of_subspaceCreate fixed reads body
      · refine housed.long k ?_
        simpa [Effect.subspaceCreate, new] using recorded

theorem Reachable.housed (reached : Reachable env v) (fixed : FixedKeys env.c) : v.Housed := by
  obtain ⟨nodes, ran⟩ := reached
  refine (applyNodes_keeps View.Housed (fun v node w sound housed step =>
    step.housed sound fixed housed) .empty ⟨fun k _ => ?_, fun k recorded => ?_⟩ ran).2
  · constructor <;> intros <;> rfl
  · cases recorded

end Runs

end Hypergraph.Decisions
