import Hypergraph.Lib.Joined
import Hypergraph.Lib.Runs
import Hypergraph.Engine.Governance

/-! A context's writers and its members' roles stay in step: each writer is of one member at most,
and indexes just when the member's role says so.
-/

namespace Hypergraph.Engine

open Js Wire

namespace Governance

variable {W : Type} (peer : Peer W) (s : Governance W)

-- Texts

/-- A writer's key as it is written in hex. -/
def IsKey (text : String) : Prop := text = toHex (fromHex text)

def NoColon (text : String) : Prop := ':' ∉ text.toList

instance : DecidablePred NoColon := fun text => inferInstanceAs (Decidable (':' ∉ text.toList))

theorem isKey_toHex (key : Key) : IsKey (toHex key) := by rw [IsKey, fromHex_toHex]

theorem IsKey.hexValue {text : String} (is : IsKey text) {c : Char} (mem : c ∈ text.toList)
    : (Wire.hexValue c).isSome := by
  rw [is, toHex, String.toList_ofList] at mem
  exact hexValue_of_mem mem

theorem IsKey.noColon {text : String} (is : IsKey text) : NoColon text := fun mem =>
  absurd (is.hexValue mem) (by decide)

theorem toList_joined (member text : String)
    : (member ++ ":" ++ text).toList = member.toList ++ ':' :: text.toList := by
  simp

/-- A member and a key joined by a colon are told apart. -/
theorem joined_inj {member member' text text' : String}
    (same : member ++ ":" ++ text = member' ++ ":" ++ text') (member_ : NoColon member')
    (text_ : NoColon text')
    : member = member' ∧ text = text' := by
  have chars := congrArg String.toList same
  rw [toList_joined, toList_joined] at chars
  obtain ⟨left, right⟩ := Joined.append_cons_inj chars member_ text_
  exact ⟨String.toList_inj.mp left, String.toList_inj.mp right⟩

-- Linked writers

/-- The view's two ways to say whose a writer is agree, and those index whose members may. -/
structure Kept : Prop where
  keys : ∀ (text : String) member, s.memberOf[text]? = some member → IsKey text ∧ NoColon member
  entries : ∀ name : String, name ∈ s.linked
    ↔ ∃ (text : String) (member : String), s.memberOf[text]? = some member
      ∧ name = member ++ ":" ++ text
  flags : ∀ (text : String) member, s.memberOf[text]? = some member →
    (peer.autobase.indexes s.writers (fromHex text) = some true ↔ canIn s.roles member "context.index" = true)
  others : ∀ key, s.memberOf[toHex key]? = none →
    peer.autobase.indexes s.writers key ≠ some true

variable {peer s}

theorem lt_of_hexValue {c : Char} (is : (Wire.hexValue c).isSome) : c < '\uffff' := by
  have below {top : Char} (le : c ≤ top) (lt : top.toNat < '\uffff'.toNat) : c < '\uffff' :=
    Nat.lt_of_le_of_lt (show c.toNat ≤ top.toNat from le) lt
  by_cases digit : '0' ≤ c ∧ c ≤ '9'
  · exact below digit.2 (by decide)
  by_cases lower : 'a' ≤ c ∧ c ≤ 'f'
  · exact below lower.2 (by decide)
  by_cases upper : 'A' ≤ c ∧ c ≤ 'F'
  · exact below upper.2 (by decide)
  · simp [Wire.hexValue, digit, lower, upper] at is

theorem Kept.mem_writersOf (kept : Kept peer s) {member : String} {key : Key}
    : key ∈ s.writersOf member
      ↔ ∃ text : String, s.memberOf[text]? = some member ∧ fromHex text = key := by
  have small {text : String} (is : IsKey text) : text.toList.head?.all (· < '\uffff') = true := by
    cases chars : text.toList with
    | nil => rfl
    | cons c rest =>
        have mem : c ∈ text.toList := by simp [chars]
        simpa using lt_of_hexValue (is.hexValue mem)
  simp only [writersOf, List.mem_filterMap, Std.ExtTreeMap.mem_keys]
  constructor
  · rintro ⟨name, listed, read⟩
    obtain ⟨text, member', linked, rfl⟩ := (kept.entries name).mp listed
    obtain ⟨is, member_⟩ := kept.keys text member' linked
    rw [Option.ite_none_right_eq_some] at read
    obtain ⟨start, read⟩ := read
    obtain ⟨rest, split⟩ := List.isPrefixOf_iff_prefix.mp start
    rw [toList_joined, List.append_assoc, List.singleton_append] at split
    obtain ⟨same, rfl⟩ := Joined.append_cons_inj split member_ is.noColon
    obtain rfl := String.toList_inj.mp same
    refine ⟨text, linked, ?_⟩
    rw [toList_joined] at read
    simpa [small is, fromHex] using read
  · rintro ⟨text, linked, rfl⟩
    obtain ⟨is, member_⟩ := kept.keys text member linked
    refine ⟨member ++ ":" ++ text, (kept.entries _).mpr ⟨text, member, linked, rfl⟩, ?_⟩
    rw [toList_joined]
    simp [small is, fromHex]

-- What keeps them in step

theorem IsKey.eq_of_fromHex {text text' : String} (is : IsKey text) (is' : IsKey text')
    (same : fromHex text = fromHex text')
    : text = text' := by
  rw [is, is', same]

theorem getElem?_insert {α : Type} (table : Table String α) (key name : String) (value : α)
    : (table.insert key value)[name]? = if name = key then some value else table[name]? := by
  rw [Std.ExtTreeMap.getElem?_insert]
  by_cases same : name = key
  · simp [same]
  · have apart : key ≠ name := fun is => same is.symm
    simp [same, apart]

/-- A writer linked, that is of no other member, and made to index just as the member may. -/
theorem Kept.link {s' : Governance W} (kept : Kept peer s) {key member : String} (is : IsKey key)
    (member_ : NoColon member) (own : ∀ other, s.memberOf[key]? = some other → other = member)
    (memberOf : s'.memberOf = s.memberOf.insert key member)
    (linked : s'.linked = s.linked.insert (member ++ ":" ++ key) ())
    (flag
      : peer.autobase.indexes s'.writers (fromHex key)
        = some (canIn s'.roles member "context.index"))
    (writers
      : ∀ other, other ≠ fromHex key
          → peer.autobase.indexes s'.writers other = peer.autobase.indexes s.writers other)
    (rights
      : ∀ (text : String) other, text ≠ key → s.memberOf[text]? = some other
          → canIn s'.roles other "context.index" = canIn s.roles other "context.index")
    : Kept peer s' := by
  have at_ (text : String) : s'.memberOf[text]? = if text = key then some member else s.memberOf[text]? := by
    rw [memberOf, getElem?_insert]
  refine ⟨?_, ?_, ?_, ?_⟩
  · intro text other linked
    rw [at_] at linked
    split at linked
    · rename_i here
      obtain rfl := Option.some.inj linked
      exact ⟨here ▸ is, member_⟩
    · exact kept.keys text other linked
  · intro name
    rw [linked, Std.ExtTreeMap.mem_insert, Std.LawfulEqCmp.compare_eq_iff_eq, kept.entries]
    constructor
    · rintro (rfl | ⟨text, other, linked, rfl⟩)
      · exact ⟨key, member, by rw [at_, if_pos rfl], rfl⟩
      · refine ⟨text, other, ?_, rfl⟩
        rw [at_]
        split
        · rename_i here
          rw [own other (here ▸ linked)]
        · exact linked
    · rintro ⟨text, other, linked, rfl⟩
      rw [at_] at linked
      split at linked
      · rename_i here
        obtain rfl := Option.some.inj linked
        exact .inl (by rw [here])
      · exact .inr ⟨text, other, linked, rfl⟩
  · intro text other linked
    rw [at_] at linked
    split at linked
    · rename_i here
      obtain rfl := Option.some.inj linked
      rw [here, flag, Option.some_inj]
    · rename_i apart
      have key_ := (kept.keys text other linked).1
      rw [writers _ fun same => apart (key_.eq_of_fromHex is same), kept.flags text other linked,
        rights text other apart linked]
  · intro other unlinked
    rw [at_] at unlinked
    split at unlinked
    · cases unlinked
    · rename_i apart
      have other_ : other ≠ fromHex key := by
        rintro rfl
        exact apart is.symm
      rw [writers other other_]
      exact kept.others other unlinked

variable (s) in
/-- A key is of no member who may index. -/
def Aside (key : Key) : Prop :=
  ∀ member, s.memberOf[toHex key]? = some member → canIn s.roles member "context.index" = false

/-- A writer that is of no member who may index, added without indexing or taken out. -/
theorem Kept.aside {s' : Governance W} (kept : Kept peer s) {key : Key} (aside : Aside s key) (roles : s'.roles = s.roles)
    (memberOf : s'.memberOf = s.memberOf) (linked : s'.linked = s.linked)
    (flag : peer.autobase.indexes s'.writers key ≠ some true)
    (writers
      : ∀ other, other ≠ key
          → peer.autobase.indexes s'.writers other = peer.autobase.indexes s.writers other)
    : Kept peer s' := by
  refine ⟨?_, ?_, ?_, ?_⟩
  · rw [memberOf]
    exact kept.keys
  · rw [memberOf, linked]
    exact kept.entries
  · intro text member linked
    rw [memberOf] at linked
    rw [roles]
    by_cases here : fromHex text = key
    · have idle := aside member (here ▸ (kept.keys text member linked).1 ▸ linked)
      rw [here, idle]
      exact ⟨fun index => absurd index flag, fun may => absurd may Bool.false_ne_true⟩
    · rw [writers _ here]
      exact kept.flags text member linked
  · intro other unlinked
    by_cases here : other = key
    · rw [here]
      exact flag
    · rw [writers other here]
      exact kept.others other (memberOf ▸ unlinked)

theorem indexes_foldl_addWriter (regular : peer.autobase.Regular) (keys : List Key)
    (indexer : Bool) (other : Key)
    : peer.autobase.indexes (keys.foldl (fun s key => s.addWriter peer key indexer) s).writers other
      = if other ∈ keys then some indexer else peer.autobase.indexes s.writers other := by
  induction keys generalizing s with
  | nil => simp
  | cons key rest ih =>
      rw [List.foldl_cons, ih, addWriter, regular.add]
      by_cases later : other ∈ rest
      · simp [later]
      · simp [later]

/-- A role changed: the member's writers index as the role says, all others as before. -/
theorem Kept.role (regular : peer.autobase.Regular) (kept : Kept peer s) {table : Registry}
    (roles : s.roles = some table) {member role : String}
    : Kept peer
      ((if table.can member "context.index" = (assign table member role).can member "context.index"
          then [] else s.writersOf member).foldl
        (fun s key => s.addWriter peer key ((assign table member role).can member "context.index"))
        { s with roles := some (assign table member role) }) := by
  have others (text other : String) (linked : s.memberOf[text]? = some other) (apart : other ≠ member)
      : fromHex text ∉ s.writersOf member := by
    intro mem
    obtain ⟨text', linked', same⟩ := kept.mem_writersOf.mp mem
    have here := (kept.keys text' member linked').1.eq_of_fromHex (kept.keys text other linked).1 same
    rw [here, linked] at linked'
    exact apart (Option.some.inj linked')
  have indexes (other : Key) := indexes_foldl_addWriter regular
    (if table.can member "context.index" = (assign table member role).can member "context.index"
      then [] else s.writersOf member)
    ((assign table member role).can member "context.index") other
    (s := { s with roles := some (assign table member role) })
  obtain ⟨writers, after⟩ := foldl_addWriter _ _
  rw [after] at indexes ⊢
  refine ⟨kept.keys, kept.entries, ?_, ?_⟩
  · intro text other linked
    have flag := kept.flags text other linked
    rw [indexes]
    rw [roles] at flag
    by_cases here : other = member
    · subst here
      split
      · rename_i same
        simpa only [canIn, ← same, List.not_mem_nil, if_false] using flag
      · have mem : fromHex text ∈ s.writersOf other := kept.mem_writersOf.mpr ⟨text, linked, rfl⟩
        simp [mem, canIn]
    · have apart := others text other linked here
      have rights : (assign table member role).can other "context.index"
          = table.can other "context.index" :=
        Registry.can_congr rfl (lookup_assign_of_ne here)
      rw [if_neg (by split <;> simp [apart])]
      simpa [canIn, rights] using flag
  · intro key unlinked
    have apart : key ∉ s.writersOf member := by
      intro mem
      obtain ⟨text, linked, rfl⟩ := kept.mem_writersOf.mp mem
      rw [← (kept.keys text member linked).1, linked] at unlinked
      cases unlinked
    rw [indexes, if_neg (by split <;> simp [apart])]
    exact kept.others key unlinked

/-- What a node that isn't turned away may do: a member's writer is linked by an event the member signs,
in hex and for good; a redemption lets a member index that has no other writer, or changes nothing of
whether it may; a role changes whether a member indexes none of whose writers was taken out; and no other
event names a writer whose member may index. A removal isn't lost.
-/
def Orderly (peer : Peer W) (s : Governance W) (node : Node) : Prop :=
  match node.event with
  | .contextWriter key member author timestamp signature =>
      node.optimistic = false →
        verifies peer (.writer key member peer.contextKey author timestamp) author signature = true →
        (peer.closed = true → canIn s.roles author "context.write" = true) →
          if member = "" then Aside s (fromHex key)
          else author = member ∧ IsKey key ∧ NoColon member ∧ ∀ other, s.memberOf[key]? = some other → other = member
  | .contextRedeem inviteKey member key timestamp signature memberSignature encryptionKey =>
      key = toHex node.from_ →
        redeems peer inviteKey member key timestamp signature memberSignature encryptionKey = true →
        ∀ inv table, s.invites[inviteKey]? = some inv → ¬ (inv.revoked = true ∨ inv.uses ≤ inv.used) →
          s.roles = some table →
            NoColon member ∧ (∀ other, s.memberOf[key]? = some other → other = member)
              ∧ ((∀ text : String, s.memberOf[text]? = some member → text = key)
                ∨ (given table member inv.role).can member "context.index"
                  = table.can member "context.index")
  | .contextRole member role author timestamp signature =>
      node.optimistic = false →
        verifies peer (.role member role peer.contextKey author timestamp) author signature = true →
        mayAssign s.roles author member role = true →
        ∀ next, applyRoleEvent s.roles (roleEvent member role) = some next →
          canIn s.roles member "context.index" ≠ next.can member "context.index" →
          ∀ key ∈ s.writersOf member, peer.autobase.indexes s.writers key ≠ none
  | .addWriter key => node.optimistic = false → peer.closed = false → Aside s (fromHex key)
  | .rolesAddWriter key author timestamp signature =>
      node.optimistic = false → s.mayChange peer "roles/addWriter" key author timestamp signature = true →
        Aside s (fromHex key)
  | .rolesRemoveWriter key author timestamp signature =>
      node.optimistic = false → s.mayChange peer "roles/removeWriter" key author timestamp signature = true →
        ∀ writers, peer.autobase.removeWriter s.writers (fromHex key) = some writers →
          Aside s (fromHex key) ∧ peer.autobase.indexes writers (fromHex key) = none
  | .contextInvite _ _ _ _ _ _ _ => True

/-- Every orderly node keeps them in step. -/
theorem Kept.made (regular : peer.autobase.Regular) (kept : Kept peer s) (has : HasTable s)
    {node : Node} {s' : Governance W} (orderly : Orderly peer s node) (made : Made peer s node s')
    : Kept peer s' := by
  have added {key : String} (aside : Aside s (fromHex key)) : Kept peer (s.addWriter peer (fromHex key) false) := by
    refine kept.aside aside rfl rfl rfl ?_ fun other apart => ?_
    · simp [addWriter, regular.add]
    · simp [addWriter, regular.add, apart]
  cases made with
  | nothing => exact kept
  | @linked key member author _ _ event _ signed may named plain =>
      simp only [Orderly, event] at orderly
      have own := orderly plain signed may
      rw [if_neg named] at own
      obtain ⟨_, is, member_, own⟩ := own
      refine kept.link is member_ own rfl rfl ?_ (fun other apart => ?_) fun _ _ _ _ => rfl
      · simp [addWriter, linkWriter, regular.add]
      · simp [addWriter, linkWriter, regular.add, apart]
  | @unlinked key author _ _ event signed may plain =>
      simp only [Orderly, event] at orderly
      exact added (by simpa using orderly plain signed may)
  | @role member role author _ _ table next event named roles may made =>
      obtain ⟨table', roles', version⟩ := has
      obtain rfl := Option.some.inj (roles.symm.trans roles')
      rw [applyRoleEvent_roleEvent version named] at made
      obtain rfl := Option.some.inj made
      exact kept.role regular roles
  | invite => exact ⟨kept.keys, kept.entries, kept.flags, kept.others⟩
  | @redeem inviteKey member key _ _ _ encryptionKey inv table event own_ named at_ signed roles left =>
      simp only [Orderly, event] at orderly
      obtain ⟨member_, own, alone⟩ := orderly own_ signed inv table at_ left roles
      have is : IsKey key := own_ ▸ isKey_toHex node.from_
      have from_ : fromHex key = node.from_ := by rw [own_, fromHex_toHex]
      refine kept.link is member_ own (memberOf_redeemed ..) (linked_redeemed ..) ?_
        (fun other apart => ?_) fun text other apart linked => ?_
      · rw [writers_redeemed, roles_redeemed, from_, regular.add, if_pos rfl]
        rfl
      · rw [from_] at apart
        rw [writers_redeemed, regular.add, if_neg apart]
        split
        · exact regular.ack _ _ _ apart
        · rfl
      · rw [roles_redeemed, roles]
        by_cases here : other = member
        · subst here
          rcases alone with single | same
          · exact absurd (single text linked) apart
          · exact same
        · exact Registry.can_congr roles_given (lookup_given_of_ne here)
  | @opened key event open_ plain =>
      simp only [Orderly, event] at orderly
      exact added (orderly plain open_)
  | @added key author timestamp signature event may plain =>
      simp only [Orderly, event] at orderly
      exact added (orderly plain may)
  | @removed key author timestamp signature writers event may removed plain =>
      simp only [Orderly, event] at orderly
      obtain ⟨aside, out⟩ := orderly plain may writers removed
      refine kept.aside aside rfl rfl rfl ?_ (regular.remove _ _ _ removed).1
      rw [out]
      exact nofun

-- Where a context starts

variable {owner : String} {bootstrapKey : Key}

/-- A context of version 3 created, or made of an older one: the creator's writer alone indexes. -/
inductive Starts (peer : Peer W) (owner : String) (bootstrapKey : Key) : Governance W → Prop
  | created {writers : W}
    : (∀ key, peer.autobase.indexes writers key = if key = bootstrapKey then some true else none)
      → Starts peer owner bootstrapKey (start owner bootstrapKey writers)
  | upgraded {indexers : List Key} {writers : W}
    : peer.autobase.indexes writers bootstrapKey = some true
      → (∀ key, peer.autobase.indexes writers key = some true → key ∈ indexers)
      → Starts peer owner bootstrapKey (upgraded peer owner bootstrapKey indexers writers)

theorem can_defaultRoleTable (named : owner ≠ "") {action : String} (action_ : action ≠ "")
    : (defaultRoleTable owner).can owner action = true := by
  simp [defaultRoleTable, initRegistry, Registry.can, Registry.roleName, Registry.permits, Js.lookup,
    Listed.truthy, Listed.text, named, action_]

theorem kept_start (named : owner ≠ "") (owner_ : NoColon owner) {writers : W}
    (flag : peer.autobase.indexes writers bootstrapKey = some true)
    (alone : ∀ key, key ≠ bootstrapKey → peer.autobase.indexes writers key ≠ some true)
    : Kept peer (start owner bootstrapKey writers) := by
  have at_ (text : String) : (start owner bootstrapKey writers).memberOf[text]?
      = if text = toHex bootstrapKey then some owner else none := by
    rw [start, linkWriter, getElem?_insert]
    simp
  refine ⟨?_, ?_, ?_, ?_⟩
  · intro text member linked
    rw [at_, Option.ite_none_right_eq_some] at linked
    obtain ⟨rfl, is⟩ := linked
    obtain rfl := Option.some.inj is
    exact ⟨isKey_toHex _, owner_⟩
  · intro name
    simp only [at_, Option.ite_none_right_eq_some, Option.some.injEq]
    rw [start, linkWriter, Std.ExtTreeMap.mem_insert, Std.LawfulEqCmp.compare_eq_iff_eq]
    constructor
    · rintro (rfl | none_)
      · exact ⟨_, _, ⟨rfl, rfl⟩, rfl⟩
      · simp at none_
    · rintro ⟨_, _, ⟨rfl, rfl⟩, rfl⟩
      exact .inl rfl
  · intro text member linked
    rw [at_, Option.ite_none_right_eq_some] at linked
    obtain ⟨rfl, is⟩ := linked
    obtain rfl := Option.some.inj is
    rw [fromHex_toHex]
    have may := can_defaultRoleTable named (show "context.index" ≠ "" by decide)
    simpa [start, linkWriter, canIn, may] using flag
  · intro key unlinked
    refine alone key ?_
    rintro rfl
    simp [at_] at unlinked

variable (owner bootstrapKey) in
theorem upgraded_eq (regular : peer.autobase.Regular) (indexers : List Key) (writers : W)
    : ∃ writers', upgraded peer owner bootstrapKey indexers writers = start owner bootstrapKey writers'
      ∧ ∀ key, peer.autobase.indexes writers' key
        = if key ∈ indexers ∧ key ≠ bootstrapKey then some false
          else peer.autobase.indexes writers key := by
  rw [upgraded]
  induction indexers generalizing writers with
  | nil => exact ⟨writers, rfl, by simp⟩
  | cons first rest ih =>
      by_cases own : first = bootstrapKey
      · obtain ⟨writers', is, flags⟩ := ih writers
        refine ⟨writers', by simpa [own] using is, fun key => ?_⟩
        rw [flags]
        by_cases here : key = bootstrapKey
        · simp [here]
        · have apart : key ≠ first := own ▸ here
          simp [here, apart]
      · obtain ⟨writers', is, flags⟩ := ih (peer.autobase.addWriter writers first false)
        refine ⟨writers', by rw [List.foldl_cons, if_neg own]; exact is, fun key => ?_⟩
        rw [flags, regular.add]
        by_cases here : key = first
        · simp [here, own]
        · simp [here]

theorem Starts.kept (starts : Starts peer owner bootstrapKey s) (regular : peer.autobase.Regular)
    (named : owner ≠ "") (owner_ : NoColon owner)
    : Kept peer s := by
  cases starts with
  | created flags =>
      refine kept_start named owner_ (by simp [flags]) fun key apart => ?_
      simp [flags, apart]
  | @upgraded indexers writers flag listed =>
      obtain ⟨writers', is, flags⟩ := upgraded_eq owner bootstrapKey regular indexers writers
      rw [is]
      refine kept_start named owner_ (by simp [flags, flag]) fun key apart => ?_
      rw [flags]
      by_cases mem : key ∈ indexers
      · simp [mem, apart]
      · rw [if_neg fun both => mem both.1]
        exact fun indexes => mem (listed key indexes)

theorem Starts.hasTable (starts : Starts peer owner bootstrapKey s)
    (regular : peer.autobase.Regular)
    : HasTable s := by
  cases starts with
  | created => exact hasTable_start ..
  | @upgraded indexers writers =>
      obtain ⟨writers', is, _⟩ := upgraded_eq owner bootstrapKey regular indexers writers
      rw [is]
      exact hasTable_start ..

-- Runs

/-- A node that a member signed, and that links a writer to them. -/
def Links (peer : Peer W) (key : Key) (member : String) (node : Node) : Prop :=
  (∃ timestamp signature, node.event = .contextWriter (toHex key) member member timestamp signature
      ∧ verifies peer (.writer (toHex key) member peer.contextKey member timestamp) member signature = true)
    ∨ ∃ inviteKey timestamp signature memberSignature encryptionKey,
      node.event
        = .contextRedeem inviteKey member (toHex key) timestamp signature memberSignature encryptionKey
      ∧ redeems peer inviteKey member (toHex key) timestamp signature memberSignature encryptionKey = true

/-- A node names a key as one to write, or is the redemption of that writer. -/
def Adds (key : Key) (node : Node) : Prop :=
  match node.event with
  | .contextWriter text _ _ _ _ | .addWriter text | .rolesAddWriter text _ _ _ => fromHex text = key
  | .contextRedeem _ _ _ _ _ _ _ => node.from_ = key
  | .contextRole _ _ _ _ _ | .contextInvite _ _ _ _ _ _ _ | .rolesRemoveWriter _ _ _ _ => False

/-- A node takes a key out. -/
def TakesOut (peer : Peer W) (key : Key) (s : Governance W) (node : Node) : Prop :=
  ∃ text author timestamp signature, node.event = .rolesRemoveWriter text author timestamp signature
    ∧ node.optimistic = false ∧ fromHex text = key
    ∧ s.mayChange peer "roles/removeWriter" text author timestamp signature = true
    ∧ (peer.autobase.removeWriter s.writers key).isSome

/-- A writer is linked where it was already, or by an orderly node. -/
theorem Made.links {node : Node} {s' : Governance W} (made : Made peer s node s') {key : Key}
    {member : String} (orderly : Orderly peer s node) (now : s'.memberOf[toHex key]? = some member)
    : s.memberOf[toHex key]? = some member ∨ Links peer key member node := by
  cases made with
  | @linked text other author _ _ event _ signed may named plain =>
      simp only [Orderly, event] at orderly
      have own := orderly plain signed may
      rw [if_neg named] at own
      obtain ⟨rfl, _⟩ := own
      have at_ : (s.memberOf.insert text author)[toHex key]? = some member := now
      rw [getElem?_insert] at at_
      split at at_
      · rename_i here
        obtain rfl := Option.some.inj at_
        subst here
        exact .inr (.inl ⟨_, _, event, signed⟩)
      · exact .inl at_
  | role =>
      obtain ⟨writers, after⟩ := foldl_addWriter _ _
      rw [after] at now
      exact .inl now
  | @redeem inviteKey other text _ _ _ encryptionKey inv table event own _ _ signed _ =>
      rw [memberOf_redeemed, getElem?_insert] at now
      split at now
      · rename_i here
        obtain rfl := Option.some.inj now
        subst here
        exact .inr (.inr ⟨_, _, _, _, _, event, signed⟩)
      · exact .inl now
  | nothing | unlinked | invite | opened | added | removed => exact .inl now

/-- A key that is no writer stays none where no node adds it. -/
theorem out_made {key : Key} (out : peer.autobase.indexes s.writers key = none)
    (regular : peer.autobase.Regular) {node : Node} {s' : Governance W} (orderly : Orderly peer s node)
    (made : Made peer s node s') (adds : ¬ Adds key node)
    : peer.autobase.indexes s'.writers key = none := by
  have added {text : String} (apart : fromHex text ≠ key) (indexer : Bool)
      : peer.autobase.indexes (peer.autobase.addWriter s.writers (fromHex text) indexer) key = none := by
    rw [regular.add, if_neg (Ne.symm apart)]
    exact out
  cases made with
  | nothing => exact out
  | invite => exact out
  | @linked text member author _ _ event => exact added (by simpa [Adds, event] using adds) _
  | @unlinked text author _ _ event => exact added (by simpa [Adds, event] using adds) false
  | @opened text event => exact added (by simpa [Adds, event] using adds) false
  | @added text author _ _ event => exact added (by simpa [Adds, event] using adds) false
  | @role member role author _ _ table next event named roles may made signed plain =>
      simp only [Orderly, event] at orderly
      rw [indexes_foldl_addWriter regular, if_neg]
      · exact out
      · split
        · exact List.not_mem_nil
        · exact fun mem => orderly plain signed may next (by rw [roles]; exact made)
            (by rwa [roles]) key mem out
  | @redeem inviteKey member text _ _ _ encryptionKey inv table event own =>
      have apart : node.from_ ≠ key := by simpa [Adds, event] using adds
      rw [writers_redeemed, regular.add, if_neg (Ne.symm apart)]
      split
      · rw [regular.ack _ _ _ (Ne.symm apart)]
        exact out
      · exact out
  | @removed text author _ _ writers event _ removed =>
      obtain ⟨others, self⟩ := regular.remove _ _ _ removed
      by_cases here : key = fromHex text
      · subst here
        exact self.elim id fun same => same.trans out
      · exact (others key here).trans out

theorem out_of_takesOut {key : Key} {node : Node} (orderly : Orderly peer s node)
    (takes : TakesOut peer key s node)
    : peer.autobase.indexes (s.apply peer node).writers key = none := by
  obtain ⟨text, author, timestamp, signature, event, plain, rfl, may, removes⟩ := takes
  obtain ⟨writers, removed⟩ := Option.isSome_iff_exists.mp removes
  simp only [Orderly, event] at orderly
  have after : s.apply peer node = { s with writers } := by
    simp [Governance.apply, event, plain, may, removed]
  rw [after]
  exact (orderly plain may writers removed).2

/-- In step, in a run from a context's start: of which member a writer is, who indexes, who linked
whom, and who is out.
-/
structure InStep (peer : Peer W) (owner : String) (bootstrapKey : Key) (s : Governance W)
    (log : List Node) : Prop where
  /-- A writer's member is named where no other entry than its own says whose the writer is. -/
  members : ∀ (key : Key) (member : String), (s.run peer log).memberOf[toHex key]? = some member
    ↔ (member ++ ":" ++ toHex key) ∈ (s.run peer log).linked
      ∧ ∀ other : String, (other ++ ":" ++ toHex key) ∈ (s.run peer log).linked → other = member
  /-- A writer indexes just when it is of a member who may. -/
  indexers : ∀ key : Key, peer.autobase.indexes (s.run peer log).writers key = some true
    ↔ ∃ member : String, (s.run peer log).memberOf[toHex key]? = some member
      ∧ canIn (s.run peer log).roles member "context.index" = true
  /-- A writer was linked by the context's start, or by an event its member signed. -/
  links : ∀ (key : Key) (member : String), (s.run peer log).memberOf[toHex key]? = some member →
    (key = bootstrapKey ∧ member = owner)
      ∨ ∃ node ∈ log, Links peer key member node
  /-- A writer taken out is none until an event adds it. -/
  out : ∀ (key : Key) (before : List Node) (node : Node) (after : List Node),
    log = before ++ node :: after → TakesOut peer key (s.run peer before) node →
      (∀ later ∈ after, ¬ Adds key later) →
        peer.autobase.indexes (s.run peer log).writers key = none

theorem Kept.members (kept : Kept peer s) (key : Key) (member : String)
    : s.memberOf[toHex key]? = some member
      ↔ (member ++ ":" ++ toHex key) ∈ s.linked
        ∧ ∀ other : String, (other ++ ":" ++ toHex key) ∈ s.linked → other = member := by
  have only {other : String} (listed : (other ++ ":" ++ toHex key) ∈ s.linked)
      : s.memberOf[toHex key]? = some other := by
    obtain ⟨text, member', linked, same⟩ := (kept.entries _).mp listed
    obtain ⟨is, member_⟩ := kept.keys text member' linked
    obtain ⟨rfl, rfl⟩ := joined_inj same member_ is.noColon
    exact linked
  constructor
  · intro linked
    refine ⟨(kept.entries _).mpr ⟨_, _, linked, rfl⟩, fun other listed => ?_⟩
    exact Option.some.inj ((only listed).symm.trans linked)
  · rintro ⟨listed, _⟩
    exact only listed

theorem Kept.indexers (kept : Kept peer s) (key : Key)
    : peer.autobase.indexes s.writers key = some true
      ↔ ∃ member : String, s.memberOf[toHex key]? = some member
        ∧ canIn s.roles member "context.index" = true := by
  constructor
  · intro flag
    cases linked : s.memberOf[toHex key]? with
    | none => exact absurd flag (kept.others key linked)
    | some member =>
        have is := kept.flags _ member linked
        rw [fromHex_toHex] at is
        exact ⟨member, rfl, is.mp flag⟩
  · rintro ⟨member, linked, may⟩
    have is := kept.flags _ member linked
    rw [fromHex_toHex] at is
    exact is.mpr may

/-- At the start only the creator's writer is linked, to the owner. -/
theorem Starts.memberOf (starts : Starts peer owner bootstrapKey s)
    (regular : peer.autobase.Regular) {key : Key} {member : String}
    (linked : s.memberOf[toHex key]? = some member)
    : key = bootstrapKey ∧ member = owner := by
  have only (writers : W)
      (linked : (start owner bootstrapKey writers).memberOf[toHex key]? = some member)
      : key = bootstrapKey ∧ member = owner := by
    rw [start, linkWriter, getElem?_insert] at linked
    split at linked
    · rename_i here
      exact ⟨toHex_injective here, (Option.some.inj linked).symm⟩
    · simp at linked
  cases starts with
  | created => exact only _ linked
  | @upgraded indexers writers =>
      obtain ⟨writers', is, _⟩ := upgraded_eq owner bootstrapKey regular indexers writers
      exact only writers' (is ▸ linked)

/-- The owner makes someone an admin, who links a writer of theirs; another key is added and taken out. -/
def appointed : List Node :=
  [⟨.contextRole (someone 2) "admin" (someone 1) 1 (some (someone 1)), List.replicate 32 3, false⟩,
    ⟨.contextWriter (toHex [4]) (someone 2) (someone 2) 2 (some (someone 2)), List.replicate 32 3, false⟩,
    ⟨.rolesAddWriter (toHex [5]) (some (someone 1)) 3 (some (someone 1)), List.replicate 32 3, false⟩,
    ⟨.rolesRemoveWriter (toHex [5]) (some (someone 1)) 4 (some (someone 1)), List.replicate 32 3, false⟩]

theorem starts_inList (peer : Peer (List (Key × Bool))) (flags : peer.autobase.indexes = Autobase.inList.indexes)
    : Starts peer (someone 1) [3] (start (someone 1) [3] [([3], true)]) :=
  .created fun key => by
    rw [flags]
    by_cases here : key = [3]
    · simp [Autobase.inList, here]
    · have apart : (key == ([3] : Key)) = false := by simpa using here
      simp [Autobase.inList, List.lookup_cons, apart, here]

/-- A closed context's peer that loses removals, as of writers that never wrote. -/
def losingPeer : Peer (List (Key × Bool)) :=
  { closedPeer with autobase := { Autobase.inList with removeWriter := fun writers _ => some writers } }

end Governance

end Hypergraph.Engine
