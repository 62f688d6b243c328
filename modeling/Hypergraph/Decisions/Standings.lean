import Hypergraph.Decisions.Keeping
import Hypergraph.Decisions.Scopes

/-! A sub-space's state made on first use: what `sub` answers is told by the state's maps alone,
whatever was asked before, and for a sub-space whose chain ends it ends too.
-/

namespace Hypergraph.Decisions.Readers

open Wire Js Encodings

-- What is made

/-- The state made of a sub-space's entries and its parent's. -/
inductive Made (s : State) : Text → Standing → Prop
  | top {key : Text} {info : Subspace} (found : s.maps.subspaces key = some info)
      (none_ : info.parent = none)
    : Made s key (s.subState key info (.state s.maps))
  | under {key : Text} {info : Subspace} {up : Key} {above : Standing}
      (found : s.maps.subspaces key = some info) (parent : info.parent = some up)
      (made : Made s (hex up) above)
    : Made s key (s.subState key info above)

/-- What a state says of a sub-space: nothing of a key that is none's. -/
def State.Says (s : State) (key : Text) : Option Standing → Prop
  | none => s.maps.subspaces key = none
  | some made => Made s key made

/-- Two states with the same entries: the same maps, of every scope. -/
structure State.Alike (s t : State) : Prop where
  maps : t.maps = s.maps
  scoped_ : ∀ place, (t.scoped_ place).getD {} = (s.scoped_ place).getD {}

/-- Every state made before is what would be made now. -/
def State.Fresh (s : State) : Prop := ∀ key made, s.subs key = some made → Made s key made

section Making

variable {s t u : State} {key : Text} {made other : Standing}

@[refl]
theorem State.Alike.refl (s : State) : s.Alike s := ⟨rfl, fun _ => rfl⟩

theorem State.Alike.subState (alike : s.Alike t) (key : Text) (info : Subspace)
    (parent : Standing)
    : t.subState key info parent = s.subState key info parent := by
  simp only [State.subState, alike.maps, alike.scoped_]

theorem Made.alike (made_ : Made s key made) (alike : s.Alike t) : Made t key made := by
  induction made_ with
  | top found none_ =>
      rw [← alike.subState, ← alike.maps]
      exact .top (by rwa [alike.maps]) none_
  | under found parent _ ih =>
      rw [← alike.subState]
      exact .under (by rwa [alike.maps]) parent ih

theorem Made.unique (first : Made s key made) (second : Made s key other) : made = other := by
  induction first generalizing other with
  | top found none_ =>
      cases second with
      | top found' _ => rw [Option.some.inj (found.symm.trans found')]
      | under found' parent _ =>
          cases Option.some.inj (found.symm.trans found')
          rw [none_] at parent
          cases parent
  | under found parent _ ih =>
      cases second with
      | top found' none_ =>
          cases Option.some.inj (found.symm.trans found')
          rw [none_] at parent
          cases parent
      | under found' parent' above' =>
          cases Option.some.inj (found.symm.trans found')
          cases Option.some.inj (parent.symm.trans parent')
          rw [ih above']

theorem State.Fresh.add (fresh : s.Fresh) (made_ : Made s key made)
    : ({ s with subs := Function.update s.subs key (some made) } : State).Fresh := by
  intro place cached found
  by_cases same : place = key
  · subst same
    simp only [Function.update_self, Option.some.injEq] at found
    subst found
    exact made_.alike ⟨rfl, fun _ => rfl⟩
  · simp only [Function.update_of_ne same] at found
    exact (fresh place cached found).alike ⟨rfl, fun _ => rfl⟩

-- `sub`

/-- What `sub` gives, where it ends, is what is made; all it changes is what was made before. -/
theorem sub_made {fuel : Nat} {found : Option Standing} (fresh : s.Fresh)
    (ran : State.sub fuel s key = .ok (found, t))
    : s.Alike t ∧ t.Fresh ∧ t.parsed = s.parsed ∧ s.Says key found := by
  induction fuel generalizing s t key found with
  | zero =>
      unfold State.sub at ran
      cases known : s.maps.subspaces key with
      | none =>
          simp only [known, pure_eq_ok, Except.ok.injEq, Prod.mk.injEq] at ran
          obtain ⟨rfl, rfl⟩ := ran
          exact ⟨.refl s, fresh, rfl, known⟩
      | some info =>
          cases cached : s.subs key with
          | none => simp [known, cached] at ran
          | some made =>
              simp only [known, cached, pure_eq_ok, Except.ok.injEq, Prod.mk.injEq] at ran
              obtain ⟨rfl, rfl⟩ := ran
              exact ⟨.refl s, fresh, rfl, fresh key made cached⟩
  | succ fuel ih =>
      unfold State.sub at ran
      cases known : s.maps.subspaces key with
      | none =>
          simp only [known, pure_eq_ok, Except.ok.injEq, Prod.mk.injEq] at ran
          obtain ⟨rfl, rfl⟩ := ran
          exact ⟨.refl s, fresh, rfl, known⟩
      | some info =>
          cases cached : s.subs key with
          | some made =>
              simp only [known, cached, pure_eq_ok, Except.ok.injEq, Prod.mk.injEq] at ran
              obtain ⟨rfl, rfl⟩ := ran
              exact ⟨.refl s, fresh, rfl, fresh key made cached⟩
          | none =>
              cases parent : info.parent with
              | none =>
                  simp only [known, cached, parent, pure_eq_ok, ok_bind, Except.ok.injEq,
                    Prod.mk.injEq] at ran
                  obtain ⟨rfl, rfl⟩ := ran
                  have made := Made.top known parent
                  exact ⟨⟨rfl, fun _ => rfl⟩, fresh.add made, rfl, made⟩
              | some up =>
                  simp only [known, cached, parent, pure_eq_ok] at ran
                  cases asked : State.sub fuel s (hex up) with
                  | error e => simp [asked] at ran
                  | ok answer =>
                      obtain ⟨found', s'⟩ := answer
                      obtain ⟨alike, fresh', parsed, is⟩ := ih fresh asked
                      cases found' with
                      | none => simp [asked] at ran
                      | some above =>
                          simp only [asked, ok_bind, Except.ok.injEq, Prod.mk.injEq] at ran
                          obtain ⟨rfl, rfl⟩ := ran
                          simp only [alike.subState]
                          have made : Made s key (s.subState key info above) :=
                            .under known parent is
                          exact ⟨⟨alike.maps, alike.scoped_⟩, fresh'.add (made.alike alike),
                            parsed, made⟩

/-- What can be made `sub` gives, with fuel for its chain. -/
theorem sub_of_made (fresh : s.Fresh) (made_ : Made s key made)
    : ∃ fuel t, State.sub fuel s key = .ok (some made, t) := by
  induction made_ with
  | @top key info found none_ =>
      cases cached : s.subs key with
      | some before =>
          have same := (fresh key before cached).unique (.top found none_)
          exact ⟨0, s, by simp [State.sub, found, cached, same]⟩
      | none =>
          let made := s.subState key info (.state s.maps)
          refine ⟨1, { s with subs := Function.update s.subs key (some made) }, ?_⟩
          simp only [State.sub, found, cached, none_, pure_eq_ok, ok_bind, made]
  | @under key info up above found parent made_ ih =>
      cases cached : s.subs key with
      | some before =>
          have same := (fresh key before cached).unique (.under found parent made_)
          exact ⟨0, s, by simp [State.sub, found, cached, same]⟩
      | none =>
          obtain ⟨fuel, t, asked⟩ := ih
          have alike := (sub_made fresh asked).1
          let made := s.subState key info above
          refine ⟨fuel + 1, { t with subs := Function.update t.subs key (some made) }, ?_⟩
          simp only [State.sub, found, cached, parent, asked, pure_eq_ok, ok_bind, alike.subState,
            made]

end Making

-- A view's scopes

/-- The state of a scope, the top one's own. -/
def Stands (s : State) : Scope → Standing → Prop
  | none, standing => standing = .state s.maps
  | some k, standing => Made s (hex k) standing

section Views

variable {s : State} {v : View} {scope : Scope} {chain : List Key} {standing : Standing}

theorem Stands.made {info : Subspace} {k : Key} (stands : Stands s info.parent standing)
    (found : s.maps.subspaces (hex k) = some info)
    : Made s (hex k) (s.subState (hex k) info standing) := by
  cases parent : info.parent with
  | none =>
      rw [parent] at stands
      cases stands
      exact .top found parent
  | some up =>
      rw [parent] at stands
      exact .under found parent stands

theorem subspaces_hex (keeps : State.Keeps s v.entry) (k : Key)
    : s.maps.subspaces (hex k) = v.subspace k := by
  rw [keeps.top.subspaces.under]
  simp only [View.entry, Option.isSome_none, Bool.false_eq_true, if_false]
  cases v.subspace k <;> rfl

/-- Every scope whose chain ends has a state. -/
theorem exists_stands (keeps : State.Keeps s v.entry) (path : IsChain v scope chain)
    : ∃ standing, Stands s scope standing := by
  induction path with
  | top => exact ⟨.state s.maps, rfl⟩
  | @sub k up info found above fresh ih =>
      obtain ⟨standing, stands⟩ := ih
      exact ⟨_, stands.made (by rw [subspaces_hex keeps, found])⟩

/-- A key that names a sub-space of the state is the text of one of the view. -/
theorem recorded_of_subspaces (keeps : State.Keeps s v.entry) {key : Text} {info : Subspace}
    (found : s.maps.subspaces key = some info)
    : ∃ k, key = hex k ∧ v.subspace k = some info := by
  by_cases named : ∃ k, hex k = key
  · obtain ⟨k, rfl⟩ := named
    exact ⟨k, rfl, by rw [← subspaces_hex keeps, found]⟩
  · have none_ := keeps.top.subspaces.only key fun k same => named ⟨k, same⟩
    rw [none_] at found
    cases found

/-- Asking a state for any key ends: with nothing for a key that is no sub-space's, else with
what is made of that one.
-/
theorem sub_ends (keeps : State.Keeps s v.entry) (tree : v.Tree) (fresh : s.Fresh) (key : Text)
    : ∃ found after, s.Gives key found after ∧ s.Says key found := by
  cases known : s.maps.subspaces key with
  | none =>
      refine ⟨none, s, ⟨0, ?_⟩, known⟩
      simp [State.sub, known]
  | some info =>
      obtain ⟨k, rfl, found⟩ := recorded_of_subspaces keeps known
      obtain ⟨chain, path⟩ := tree.chain k (by rw [found]; rfl)
      obtain ⟨standing, made⟩ := exists_stands keeps path
      obtain ⟨fuel, after, asked⟩ := sub_of_made fresh made
      exact ⟨some standing, after, ⟨fuel, asked⟩, made⟩

-- What a scope's state answers

/-- A state answers, one identity at a time, what the view says along a chain. -/
structure Reads (v : View) (chain : List Key) (standing : Standing) : Prop where
  banned : ∀ id, standing.bannedAt (hex id) = Decisions.State.banned v chain id
  member : ∀ id, standing.memberAt (hex id) = (Decisions.State.member v chain id).map kept
  cut : ∀ id, standing.cutOf (hex id) = Decisions.State.cut v chain id
  admits : ∀ id, standing.admitOf (hex id) = Decisions.State.admits v chain id
  editcut : ∀ id, standing.editcutOf (hex id) = Decisions.State.editcut v chain id
  begun : standing.metaOf.isSome = (v.metaOf none).isSome
  pub : standing.pub = Decisions.State.pub v chain
  custom : standing.custom = v.custom

/-- One scope's own entries, read back. -/
structure OwnReads (v : View) (scope : Scope) (own : Maps) : Prop where
  banned : ∀ id, own.banned (hex id) = v.banned scope id
  member : ∀ id, own.members (hex id) = (v.member scope id).map kept
  cut : ∀ id, own.cuts (hex id) = (v.cut scope id).map Cut.logs
  admits : ∀ id, own.admits (hex id) = v.admits scope id
  editcut : ∀ id, own.editcuts (hex id) = v.editcut scope id
  settings : own.metaOf = v.metaOf scope

theorem ownReads {own : Maps} (keeps : Keeps own (v.entry scope)) : OwnReads v scope own where
  banned id := by
    rw [keeps.banned.under]
    cases entry : v.banned scope id <;> simp [View.entry, entry, asBan]
  member id := by
    rw [keeps.members.under]
    cases entry : v.member scope id <;> simp [View.entry, entry, asMember]
  cut id := by
    rw [keeps.cuts.under]
    cases entry : v.cut scope id <;> simp [View.entry, entry, asLogs]
  admits id := by
    rw [keeps.admits.under]
    cases entry : v.admits scope id <;> simp [View.entry, entry, asCode]
  editcut id := by
    rw [keeps.editcuts.under]
    cases entry : v.editcut scope id <;> simp [View.entry, entry, asPerms]
  settings := by
    rw [keeps.metaOf]
    cases entry : v.metaOf scope <;> simp [View.entry, entry, asMeta]

theorem roles_read (keeps : State.Keeps s v.entry) (name : String)
    : s.maps.roles name.toList = v.custom name := by
  rw [keeps.top.roles.under]
  cases entry : v.role name <;> simp [View.entry, entry, asPermissions, View.custom]

theorem OwnReads.reads_top {maps : Maps} (own : OwnReads v none maps)
    (roles : ∀ name : String, maps.roles name.toList = v.custom name)
    : Reads v [] (.state maps) where
  banned id := by
    simp [Standing.bannedAt, own.banned, Decisions.State.banned, bannedIn, scopesOf]
  member id := by
    simp [Standing.memberAt, own.member, Decisions.State.member]
  cut id := by
    simp [Standing.cutOf, own.cut, Decisions.State.cut]
  admits id := by
    simp [Standing.admitOf, own.admits, Decisions.State.admits]
  editcut id := by
    simp [Standing.editcutOf, own.editcut, Decisions.State.editcut]
  begun := by
    simp [Standing.metaOf, own.settings]
  pub := by
    simp [Standing.pub, Standing.metaOf, own.settings, Decisions.State.pub]
  custom := funext roles

theorem isSome_metaOf_subState (s : State) (key : Text) (info : Subspace) (up : Standing)
    : (s.subState key info up).metaOf.isSome = up.metaOf.isSome :=
  Option.isSome_map

theorem pub_subState (s : State) (key : Text) (info : Subspace) (up : Standing)
    : (s.subState key info up).pub
      = (up.metaOf.isSome && ((s.scoped_ key).getD {}).metaOf.any Meta.pub) := by
  change (up.metaOf.map _).any Meta.pub = _
  cases up.metaOf with
  | none => rfl
  | some above => cases ((s.scoped_ key).getD {}).metaOf <;> rfl

/-- A sub-space's state reads on from its parent's, as its chain goes on from its parent's. -/
theorem OwnReads.reads_sub {info : Subspace} {k : Key} {up : Standing}
    (own : OwnReads v (some k) ((s.scoped_ (hex k)).getD {})) (found : v.subspace k = some info)
    (roles : ∀ name : String, s.maps.roles name.toList = v.custom name) (above : Reads v chain up)
    : Reads v (k :: chain) (s.subState (hex k) info up) := by
  have banned (id : Key) : (s.subState (hex k) info up).bannedAt (hex id)
      = Decisions.State.banned v (k :: chain) id := by
    unfold State.subState
    simp [Standing.bannedAt, own.banned, above.banned, Decisions.State.banned, bannedIn]
  constructor
  · exact banned
  · intro id
    have out := banned id
    unfold State.subState at out ⊢
    unfold Standing.memberAt Decisions.State.member
    rw [out, own.member, above.member]
    split
    · rfl
    · cases v.member (some k) id with
      | some member => rfl
      | none =>
          cases Decisions.State.member v chain id with
          | none => rfl
          | some member =>
              simp only [Option.map_none, Option.map_some, Option.filter_some, kept,
                Decisions.State.priv, found, Option.any_some]
              split <;> rfl
  · intro id
    unfold State.subState Standing.cutOf Decisions.State.cut
    rw [own.cut, above.cut]
    cases v.cut (some k) id <;> rfl
  · intro id
    unfold State.subState Standing.admitOf Decisions.State.admits
    rw [own.admits, above.admits]
  · intro id
    unfold State.subState Standing.editcutOf Decisions.State.editcut
    rw [own.editcut, above.editcut]
    cases v.editcut (some k) id <;> rfl
  · rw [isSome_metaOf_subState, above.begun]
  · rw [pub_subState, above.begun, own.settings]
    rfl
  · exact funext roles

/-- The state of a scope answers what the view says along the scope's chain; induction on the
chain.
-/
theorem Stands.reads (stands : Stands s scope standing) (keeps : State.Keeps s v.entry)
    (long : ∀ k, (v.subspace k).isSome → k.length = 32) (path : IsChain v scope chain)
    : Reads v chain standing := by
  induction path generalizing standing with
  | top =>
      cases stands
      exact (ownReads keeps.top).reads_top (roles_read keeps)
  | @sub k up info found above fresh ih =>
      obtain ⟨parent, is⟩ := exists_stands keeps above
      cases Made.unique stands (is.made (by rw [subspaces_hex keeps, found]))
      have own := ownReads (keeps.under k (long k (by rw [found]; rfl)))
      exact own.reads_sub found (roles_read keeps) (ih is)

-- Rights

namespace Reads

variable (reads : Reads v chain standing)

include reads

theorem roleOf (id : Key) : standing.roleOf id = Decisions.State.roleOf v chain id := by
  unfold Standing.roleOf Decisions.State.roleOf
  rw [reads.member, reads.pub, reads.banned]
  cases Decisions.State.member v chain id <;> rfl

theorem can (id : Key) (permission : String)
    : standing.can id permission = Decisions.State.can v chain id permission := by
  unfold Standing.can Decisions.State.can
  rw [reads.roleOf, reads.custom]

theorem isCut (id log : Key) : standing.isCut id log = Decisions.State.isCut v chain id log := by
  unfold Standing.isCut
  rw [reads.cut]
  rfl

theorem mustAdmit (id log : Key)
    : standing.mustAdmit id log = Decisions.State.mustAdmit v chain id log := by
  unfold Standing.mustAdmit Decisions.State.mustAdmit
  rw [reads.member, reads.pub, reads.cut, reads.isCut, Option.isNone_map]

theorem admission (id : Key) : standing.admission id = Decisions.State.admission v chain id :=
  reads.admits id

theorem editLimit (id : Key) (permission : String) (log : Key)
    : standing.editLimit id permission log
      = Decisions.State.editLimit v chain id permission log := by
  unfold Standing.editLimit Decisions.State.editLimit Decisions.State.editCutAt
  rw [reads.editcut]
  generalize ((Decisions.State.editcut v chain id).bind fun perms =>
    (perms.lookup permission).bind fun logs => logs.lookup log) = named
  cases named with
  | some length => rfl
  | none => simp only [reads.can]

end Reads

/-- Who may write: in a sub-space, whom its roles let. -/
theorem Stands.canWrite (stands : Stands s scope standing) (keeps : State.Keeps s v.entry)
    (long : ∀ k, (v.subspace k).isSome → k.length = 32) (path : IsChain v scope chain) (id : Key)
    : standing.canWrite id = Decisions.State.canWrite v chain id := by
  have reads := stands.reads keeps long path
  unfold Standing.canWrite Decisions.State.canWrite
  rw [reads.can, reads.roleOf]
  cases path with
  | top =>
      cases stands
      rfl
  | @sub k up info found above fresh =>
      obtain ⟨parent, is⟩ := exists_stands keeps above
      cases Made.unique stands (is.made (by rw [subspaces_hex keeps, found]))
      simp [State.subState, found]

/-- How much of a log counts. -/
theorem Stands.limitOf (stands : Stands s scope standing) (keeps : State.Keeps s v.entry)
    (long : ∀ k, (v.subspace k).isSome → k.length = 32) (path : IsChain v scope chain)
    (id log : Key)
    : standing.limitOf id log = Decisions.State.limitOf v chain id log := by
  unfold Standing.limitOf Decisions.State.limitOf Decisions.State.cutAt
  rw [(stands.reads keeps long path).cut]
  generalize ((Decisions.State.cut v chain id).bind fun logs => logs.lookup log) = named
  cases named with
  | some length => rfl
  | none => simp only [stands.canWrite keeps long path]

end Views

end Hypergraph.Decisions.Readers
