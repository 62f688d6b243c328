import Hypergraph.Lib.Dict
import Hypergraph.Engine.Events

/-! A batch of writes (`src/batch.js`, and what `flush` makes of it in `src/hypergraph.js`): the
events of the user core and of each context, and that these are the events of the single writes, one
after the other.
-/

namespace Hypergraph.Engine

namespace Bulk

open Events (Body Encrypted Event)

variable {Number : Type}

-- Operations

/-- An entity by its id, or an `EntityRef` by its position in the batch. -/
inductive Target where
  | entity (id : String)
  | ref (position : Nat)
  deriving DecidableEq

def Target.isRef : Target → Bool
  | .entity _ => false
  | .ref _ => true

/-- One recorded operation; a context by its key in hex. -/
inductive Op (Number : Type) where
  | put (type : String)
  | content (target : Target) (content contentType : String) (scope : Option String)
  | relate (source target : Target) (relationType : String) (value : Option Number)
      (data : Option String) (context : String)

/-- Whether an operation writes to the user core. -/
def Op.inCore : Op Number → Bool
  | .relate .. => false
  | _ => true

/-- The current key of a scope. -/
structure ScopeKey where
  scope : String
  epoch : Nat
  key : Wire.Bytes

/-- What writing reads of a graph: its user core's key and whether it can be written, the device's
key, which entities are there, which scope keys and contexts there are, and how content is encrypted
and relations are signed.
-/
structure Graph (Number : Type) where
  author : String
  writable : Bool
  device : String
  node : String → Bool
  scopeKey : String → Except String ScopeKey
  context : String → Except String Unit
  encrypt : ScopeKey → String → String → String
  sign : Body Number → String → Nat → String

/-- The time at which an operation's event is made, and the nonce of its content. -/
structure Stamp where
  time : Nat
  nonce : String

-- Events

variable (g : Graph Number)

/-- The id of the entity that a block of the user core creates. -/
def Graph.entityId (type : String) (seq : Nat) : String :=
  type ++ "/" ++ g.author ++ "/" ++ toString seq

def Graph.entityCreateEvent (type : String) (stamp : Stamp) : Event Number :=
  ⟨some stamp.time, .entityCreate "" type g.author⟩

def Graph.contentEvent (entityId content contentType : String) (key : Option ScopeKey)
    (stamp : Stamp)
    : Event Number :=
  ⟨some stamp.time, match key with
    | some key => .contentAppend entityId contentType (g.encrypt key content stamp.nonce)
        (some ⟨key.scope, key.epoch, stamp.nonce⟩)
    | none => .contentAppend entityId contentType content none⟩

def Graph.relationEvent (source target relationType : String) (value : Option Number)
    (data : Option String) (context : String) (stamp : Stamp)
    : Event Number :=
  let body signature := .relationCreate source target relationType g.device signature value data
  ⟨some stamp.time, body (some (g.sign (body none) context stamp.time))⟩

/-- The id of an entity, of the refs' ids so far. -/
def Target.idIn (ids : Nat → Option String) : Target → Except String String
  | .entity id => .ok id
  | .ref position =>
      match ids position with
      | some id => .ok id
      | none => .error "EntityRef not flushed yet: its id is assigned by batch.flush()"

-- One after the other

/-- What single writes leave: the user core, each context, and the ids of their entities. -/
structure Done (Number : Type) where
  core : List (Event Number)
  contexts : String → List (Event Number)
  ids : Nat → Option String

variable (stamp : Nat → Stamp)

/-- `put`, `putContent` or `relate`, with the operation's place for a ref. -/
def writeOne (done : Done Number) : Op Number × Nat → Except String (Done Number)
  | (.put type, p) =>
      if g.writable then
        .ok { done with
          core := done.core ++ [g.entityCreateEvent type (stamp p)]
          ids := Function.update done.ids p (some (g.entityId type done.core.length)) }
      else .error "User core is read-only"
  | (.content target content contentType scope, p) => do
      if !g.writable then throw "User core is read-only"
      let id ← target.idIn done.ids
      -- what was put before is indexed
      if !(g.node id || target.isRef) then throw "Entity not found"
      let key ← (required scope).mapM g.scopeKey
      return { done with
        core := done.core ++ [g.contentEvent id content contentType key (stamp p)] }
  | (.relate source target relationType value data context, p) => do
      g.context context
      let source ← source.idIn done.ids
      let target ← target.idIn done.ids
      let event := g.relationEvent source target relationType value data context (stamp p)
      return { done with
        contexts := Function.update done.contexts context (done.contexts context ++ [event]) }

/-- All of them, to a user core that holds some events already. -/
def oneByOne (core : List (Event Number)) (ops : List (Op Number)) : Except String (Done Number) :=
  ops.zipIdx.foldlM (writeOne g stamp) { core, contexts := fun _ => [], ids := fun _ => none }

-- In a batch

/-- `created.has(target)`, or a node of the view. -/
def checkTarget (created : List Nat) : Target → Except String Unit
  | .ref position =>
      if position ∈ created then .ok ()
      else .error "An EntityRef must be put() earlier in the batch than where it is used"
  | .entity id => if g.node id then .ok () else .error "Entity not found"

/-- An end of a relation: any text, or a ref created before. -/
def checkEnd (created : List Nat) : Target → Except String Unit
  | .ref position =>
      if position ∈ created then .ok ()
      else .error "An EntityRef must be put() earlier in the batch than where it is used"
  | .entity _ => .ok ()

/-- One operation checked, of the refs created before it. -/
def checkOne (created : List Nat) : Op Number × Nat → Except String (List Nat)
  | (.put _, p) => .ok (p :: created)
  | (.content target _ _ scope, _) => do
      checkTarget g created target
      let _ ← (required scope).mapM g.scopeKey
      return created
  | (.relate source target _ _ _ context, _) => do
      checkEnd created source
      checkEnd created target
      g.context context
      return created

/-- What is checked before anything is written. -/
def validate (ops : List (Op Number)) : Except String (List Nat) := do
  if ops.any Op.inCore && !g.writable then throw "User core is read-only"
  ops.zipIdx.foldlM (checkOne g) []

/-- The events of the user core, and the refs' ids. -/
structure Built (Number : Type) where
  events : List (Event Number)
  ids : Nat → Option String

def buildOne (length : Nat) (built : Built Number)
    : Op Number × Nat → Except String (Built Number)
  | (.put type, p) =>
      .ok ⟨built.events ++ [g.entityCreateEvent type (stamp p)],
        Function.update built.ids p (some (g.entityId type (length + built.events.length)))⟩
  | (.content target content contentType scope, p) => do
      let id ← target.idIn built.ids
      -- resolved when it was checked
      let key := (required scope).bind fun scope => (g.scopeKey scope).toOption
      return { built with
        events := built.events ++ [g.contentEvent id content contentType key (stamp p)] }
  | (.relate .., _) => .ok built

/-- The block at which the first of them lands is known. -/
def build (length : Nat) (ops : List (Op Number)) : Except String (Built Number) :=
  ops.zipIdx.foldlM (buildOne g stamp length) ⟨[], fun _ => none⟩

def relateOne (ids : Nat → Option String) (byContext : Js.Dict String (List (Event Number)))
    : Op Number × Nat → Except String (Js.Dict String (List (Event Number)))
  | (.relate source target relationType value data context, p) => do
      let source ← source.idIn ids
      let target ← target.idIn ids
      let event := g.relationEvent source target relationType value data context (stamp p)
      return byContext.put context ((byContext.get? context).getD [] ++ [event])
  | _ => .ok byContext

/-- The events of each context, by context. -/
def relations (ids : Nat → Option String) (ops : List (Op Number))
    : Except String (Js.Dict String (List (Event Number))) :=
  ops.zipIdx.foldlM (relateOne g stamp ids) .empty

-- The same events

variable {g} {stamp} {core : List (Event Number)} {ops : List (Op Number)} {op : Op Number}
  {created created' : List Nat} {ids ids' : Nat → Option String} {target : Target} {id : String}

/-- Ids that keep what others have. -/
def Extends (ids ids' : Nat → Option String) : Prop := ∀ p id, ids p = some id → ids' p = some id

theorem idIn_ref {p : Nat} : (Target.ref p).idIn ids = .ok id ↔ ids p = some id := by
  simp only [Target.idIn]
  cases ids p <;> simp

theorem idIn_of_extends (extends_ : Extends ids ids') (is : target.idIn ids = .ok id)
    : target.idIn ids' = .ok id := by
  cases target with
  | entity => exact is
  | ref p => exact idIn_ref.mpr (extends_ p id (idIn_ref.mp is))

theorem foldlM_concat {σ : Type} {f : σ → Op Number × Nat → Except String σ} {s : σ}
    : (ops ++ [op]).zipIdx.foldlM f s = ops.zipIdx.foldlM f s >>= (f · (op, ops.length)) := by
  rw [List.zipIdx_append, List.foldlM_append]
  refine bind_congr fun s => ?_
  rw [Nat.zero_add, List.zipIdx_cons, List.zipIdx_nil, List.foldlM_cons]
  exact bind_pure _

theorem bind_eq_ok {α β : Type} {first : Except String α} {next : α → Except String β}
    {result : β}
    : (first >>= next) = .ok result ↔ ∃ value, first = .ok value ∧ next value = .ok result := by
  cases first with
  | error err => exact ⟨fun same => (nomatch same), fun ⟨_, same, _⟩ => (nomatch same)⟩
  | ok value =>
      exact ⟨fun same => ⟨value, rfl, same⟩, fun ⟨_, same, rest⟩ => Except.ok.inj same ▸ rest⟩

variable (g) (stamp) in
/-- The first operations of a checked batch: made in the batch and one after the other. -/
structure Alike (core : List (Event Number)) (created : List Nat) (built : Built Number)
    (done : Done Number) (ops : List (Op Number))
    : Prop where
  build : build g stamp core.length ops = .ok built
  oneByOne : oneByOne g stamp core ops = .ok done
  core : done.core = core ++ built.events
  ids : done.ids = built.ids
  created : ∀ p ∈ created, (built.ids p).isSome
  later : ∀ p, ops.length ≤ p → built.ids p = none
  contexts : ∀ ids', Extends built.ids ids'
    → ∃ byContext, relations g stamp ids' ops = .ok byContext
      ∧ ∀ name, done.contexts name = (byContext.get? name).getD []

variable {before : List Nat} {built : Built Number} {done : Done Number}

theorem Alike.put {type : String}
    (alike : Alike g stamp core before built done ops) (writable : g.writable)
    : ∃ built done, Alike g stamp core (ops.length :: before) built done
        (ops ++ [.put type]) := by
  have length : done.core.length = core.length + built.events.length := by
    rw [alike.core, List.length_append]
  have other (p : Nat) (ne : p ≠ ops.length) (id : Option String)
      : Function.update built.ids ops.length id p = built.ids p :=
    Function.update_of_ne ne _ _
  refine ⟨⟨built.events ++ [g.entityCreateEvent type (stamp ops.length)],
      Function.update built.ids ops.length
        (some (g.entityId type (core.length + built.events.length)))⟩,
    { done with
      core := done.core ++ [g.entityCreateEvent type (stamp ops.length)]
      ids := Function.update done.ids ops.length (some (g.entityId type done.core.length)) },
    ?_, ?_, ?_, ?_, ?_, ?_, ?_⟩
  · rw [Bulk.build, foldlM_concat, ← Bulk.build, alike.build]
    rfl
  · rw [Bulk.oneByOne, foldlM_concat, ← Bulk.oneByOne, alike.oneByOne]
    exact if_pos writable
  · rw [alike.core, List.append_assoc]
  · rw [alike.ids, length]
  · intro p mem
    rcases List.mem_cons.mp mem with rfl | mem
    · simp
    · by_cases here : p = ops.length
      · simp [here]
      · exact (congrArg Option.isSome (other p here _)).trans (alike.created p mem)
  · intro p le
    rw [List.length_append, List.length_singleton] at le
    exact (other p (by omega) _).trans (alike.later p (by omega))
  · intro ids' extends_
    obtain ⟨byContext, made, same⟩ := alike.contexts ids' fun p id is => extends_ p id (by
      have before : p ≠ ops.length := by
        rintro rfl
        rw [alike.later _ (Nat.le_refl _)] at is
        cases is
      exact (other p before _).trans is)
    refine ⟨byContext, ?_, same⟩
    rw [relations, foldlM_concat, ← relations, made]
    rfl

theorem Alike.content {content contentType : String} {scope : Option String}
    (alike : Alike g stamp core before built done ops) (writable : g.writable)
    (checked : checkOne g before (.content target content contentType scope, ops.length)
      = .ok created)
    : ∃ built done, Alike g stamp core created built done
        (ops ++ [.content target content contentType scope]) := by
  obtain ⟨_, there, checked⟩ := bind_eq_ok.mp checked
  obtain ⟨key, resolved, checked⟩ := bind_eq_ok.mp checked
  cases checked
  have resolved' : ((required scope).bind fun scope => (g.scopeKey scope).toOption) = key := by
    cases is : required scope with
    | none =>
        rw [is] at resolved
        cases resolved
        rfl
    | some scope =>
        rw [is] at resolved
        obtain ⟨key', found, made⟩ := bind_eq_ok.mp resolved
        cases made
        rw [Option.bind_some, found]
        rfl
  obtain ⟨id, is, found⟩ : ∃ id, target.idIn built.ids = .ok id
      ∧ (g.node id || target.isRef) = true := by
    cases target with
    | entity id =>
        refine ⟨id, rfl, ?_⟩
        simp only [checkTarget] at there
        split at there
        · rename_i node
          rw [node]
          rfl
        · cases there
    | ref p =>
        simp only [checkTarget] at there
        split at there
        · rename_i mem
          obtain ⟨id, is⟩ := Option.isSome_iff_exists.mp (alike.created p mem)
          exact ⟨id, idIn_ref.mpr is, Bool.or_true _⟩
        · cases there
  refine ⟨⟨built.events ++ [g.contentEvent id content contentType key (stamp ops.length)],
      built.ids⟩,
    { done with
      core := done.core ++ [g.contentEvent id content contentType key (stamp ops.length)] },
    ?_, ?_, ?_, alike.ids, alike.created, ?_, ?_⟩
  · rw [Bulk.build, foldlM_concat, ← Bulk.build, alike.build]
    refine bind_eq_ok.mpr ⟨_, rfl, bind_eq_ok.mpr ⟨id, is, ?_⟩⟩
    rw [resolved']
    rfl
  · rw [Bulk.oneByOne, foldlM_concat, ← Bulk.oneByOne, alike.oneByOne]
    refine bind_eq_ok.mpr ⟨_, rfl, ?_⟩
    refine (if_neg (by simp [writable])).trans ?_
    refine bind_eq_ok.mpr ⟨id, alike.ids ▸ is, (if_neg (by simp [found])).trans ?_⟩
    exact bind_eq_ok.mpr ⟨key, resolved, rfl⟩
  · rw [alike.core, List.append_assoc]
  · intro p le
    rw [List.length_append, List.length_singleton] at le
    exact alike.later p (by omega)
  · intro ids' extends_
    obtain ⟨byContext, made, same⟩ := alike.contexts ids' extends_
    refine ⟨byContext, ?_, same⟩
    rw [relations, foldlM_concat, ← relations, made]
    rfl

theorem Alike.exists_end (alike : Alike g stamp core before built done ops)
    {checked : Unit} (there : checkEnd before target = .ok checked)
    : ∃ id, target.idIn built.ids = .ok id := by
  cases target with
  | entity id => exact ⟨id, rfl⟩
  | ref p =>
      simp only [checkEnd] at there
      split at there
      · rename_i mem
        obtain ⟨id, is⟩ := Option.isSome_iff_exists.mp (alike.created p mem)
        exact ⟨id, idIn_ref.mpr is⟩
      · cases there

theorem Alike.relate {source : Target} {relationType context : String} {value : Option Number}
    {data : Option String}
    (alike : Alike g stamp core before built done ops)
    (checked : checkOne g before (.relate source target relationType value data context, ops.length)
      = .ok created)
    : ∃ built done, Alike g stamp core created built done
        (ops ++ [.relate source target relationType value data context]) := by
  obtain ⟨_, thereS, checked⟩ := bind_eq_ok.mp checked
  obtain ⟨_, thereT, checked⟩ := bind_eq_ok.mp checked
  obtain ⟨_, opens, checked⟩ := bind_eq_ok.mp checked
  cases checked
  obtain ⟨sourceId, isS⟩ := alike.exists_end thereS
  obtain ⟨targetId, isT⟩ := alike.exists_end thereT
  refine ⟨built, { done with
      contexts := Function.update done.contexts context (done.contexts context
        ++ [g.relationEvent sourceId targetId relationType value data context (stamp ops.length)]) },
    ?_, ?_, alike.core, alike.ids, alike.created, ?_, ?_⟩
  · rw [Bulk.build, foldlM_concat, ← Bulk.build, alike.build]
    rfl
  · rw [Bulk.oneByOne, foldlM_concat, ← Bulk.oneByOne, alike.oneByOne]
    refine bind_eq_ok.mpr ⟨_, rfl, ?_⟩
    simp only [writeOne, alike.ids, opens, isS, isT]
    rfl
  · intro p le
    rw [List.length_append, List.length_singleton] at le
    exact alike.later p (by omega)
  · intro ids' extends_
    obtain ⟨byContext, made, same⟩ := alike.contexts ids' extends_
    refine ⟨byContext.put context ((byContext.get? context).getD []
      ++ [g.relationEvent sourceId targetId relationType value data context (stamp ops.length)]),
      ?_, fun name => ?_⟩
    · rw [relations, foldlM_concat, ← relations, made]
      refine bind_eq_ok.mpr ⟨_, rfl, ?_⟩
      simp only [relateOne, idIn_of_extends extends_ isS, idIn_of_extends extends_ isT]
      rfl
    · by_cases here : name = context
      · subst here
        simp [Js.Dict.get?_put, same]
      · simp [Js.Dict.get?_put, same, here]

/-- Operation by operation, what was checked is what is there. -/
theorem exists_alike (writable : ops.any Op.inCore → g.writable)
    (checked : ops.zipIdx.foldlM (checkOne g) [] = .ok created)
    : ∃ built done, Alike g stamp core created built done ops := by
  induction ops using List.reverseRecOn generalizing created with
  | nil =>
      cases checked
      refine ⟨⟨[], fun _ => none⟩, ⟨core, fun _ => [], fun _ => none⟩, rfl, rfl, by simp, rfl,
        by simp, fun _ _ => rfl, fun ids' _ => ⟨.empty, rfl, fun _ => rfl⟩⟩
  | append_singleton ops op ih =>
      rw [foldlM_concat, bind_eq_ok] at checked
      obtain ⟨before, checked, checkedOne⟩ := checked
      obtain ⟨built, done, alike⟩ :=
        ih (fun any => writable (by rw [List.any_append, any]; rfl)) checked
      have inCore (is : op.inCore) : g.writable := writable (by simp [is])
      cases op with
      | put type =>
          cases checkedOne
          exact alike.put (inCore rfl)
      | content => exact alike.content (inCore rfl) checkedOne
      | relate => exact alike.relate checkedOne

/-- An id names the block of its entity, and there is an event for each operation in the user core. -/
theorem build_places {length : Nat} (made : build g stamp length ops = .ok built)
    : (built.events ≠ [] ↔ ops.any Op.inCore)
      ∧ ∀ p type, ops[p]? = some (.put type)
        → ∃ k, built.ids p = some (g.entityId type (length + k))
          ∧ built.events[k]? = some (g.entityCreateEvent type (stamp p)) := by
  induction ops using List.reverseRecOn generalizing built with
  | nil =>
      cases made
      simp
  | append_singleton ops op ih =>
      rw [build, foldlM_concat, ← build, bind_eq_ok] at made
      obtain ⟨before, made, madeOne⟩ := made
      obtain ⟨some_, places⟩ := ih made
      have earlier (p : Nat) (op' : Op Number) (is : (ops ++ [op])[p]? = some op')
          : ops[p]? = some op' ∧ p < ops.length ∨ p = ops.length ∧ op = op' := by
        rw [List.getElem?_append] at is
        split at is
        · rename_i lt
          exact .inl ⟨is, lt⟩
        · have zero : p - ops.length = 0 := by
            have := (List.getElem?_eq_some_iff.mp is).1
            rw [List.length_singleton] at this
            omega
          rw [zero] at is
          exact .inr ⟨by omega, Option.some.inj is⟩
      have grown {event : Event Number} {k : Nat} {event' : Event Number}
          (there : before.events[k]? = some event')
          : (before.events ++ [event])[k]? = some event' := by
        rw [List.getElem?_append_left (List.getElem?_eq_some_iff.mp there).1, there]
      cases op with
      | put type =>
          cases madeOne
          refine ⟨by simp [Op.inCore], fun p type' is => ?_⟩
          rcases earlier p _ is with ⟨is, lt⟩ | ⟨rfl, same⟩
          · obtain ⟨k, id, there⟩ := places p type' is
            exact ⟨k, (Function.update_of_ne (Nat.ne_of_lt lt) _ _).trans id, grown there⟩
          · cases same
            exact ⟨before.events.length, Function.update_self .., by simp⟩
      | content =>
          obtain ⟨id, _, madeOne⟩ := bind_eq_ok.mp madeOne
          cases madeOne
          refine ⟨by simp [Op.inCore], fun p type' is => ?_⟩
          rcases earlier p _ is with ⟨is, _⟩ | ⟨_, same⟩
          · obtain ⟨k, id, there⟩ := places p type' is
            exact ⟨k, id, grown there⟩
          · cases same
      | relate =>
          cases madeOne
          refine ⟨by simpa [Op.inCore] using some_, fun p type' is => ?_⟩
          rcases earlier p _ is with ⟨is, _⟩ | ⟨_, same⟩
          · exact places p type' is
          · cases same

/-- A context that is named has events. -/
theorem relations_ne_nil {byContext : Js.Dict String (List (Event Number))}
    (made : relations g stamp ids ops = .ok byContext) {name : String} {events : List (Event Number)}
    (is : byContext.get? name = some events)
    : events ≠ [] := by
  induction ops using List.reverseRecOn generalizing byContext events with
  | nil =>
      cases made
      cases is
  | append_singleton ops op ih =>
      rw [relations, foldlM_concat, ← relations, bind_eq_ok] at made
      obtain ⟨before, made, madeOne⟩ := made
      cases op with
      | put | content =>
          cases madeOne
          exact ih made is
      | relate source target relationType value data context =>
          obtain ⟨_, _, madeOne⟩ := bind_eq_ok.mp madeOne
          obtain ⟨_, _, madeOne⟩ := bind_eq_ok.mp madeOne
          cases madeOne
          rw [Js.Dict.get?_put] at is
          split at is
          · cases is
            simp
          · exact ih made is

/-- The events of a checked batch are those of the single writes, one after the other. -/
theorem writes_alike (core : List (Event Number)) (checked : validate g ops = .ok created)
    : ∃ built byContext done, build g stamp core.length ops = .ok built
      ∧ relations g stamp built.ids ops = .ok byContext
      ∧ oneByOne g stamp core ops = .ok done
      ∧ done.core = core ++ built.events ∧ done.ids = built.ids
      ∧ ∀ name, done.contexts name = (byContext.get? name).getD [] := by
  have writable : ops.any Op.inCore → g.writable := by
    intro any
    by_contra not
    rw [validate, any, Bool.eq_false_iff.mpr not, if_pos (by rfl)] at checked
    cases checked
  have checked : ops.zipIdx.foldlM (checkOne g) [] = .ok created := by
    unfold validate at checked
    split at checked
    · cases checked
    · exact checked
  obtain ⟨built, done, (alike : Alike g stamp core created built done ops)⟩ :=
    exists_alike writable checked
  obtain ⟨byContext, made, same⟩ := alike.contexts built.ids fun _ _ is => is
  exact ⟨built, byContext, done, alike.build, made, alike.oneByOne, alike.core, alike.ids, same⟩

end Bulk

end Hypergraph.Engine
