import Mathlib.Data.List.TakeWhile
import Hypergraph.Lib.Nested
import Hypergraph.Lib.Digits
import Hypergraph.Lib.Joined
import Hypergraph.Control.Calm

/-! What a device keeps in memory of a control log's view (`Control._read`), read of the text keys the
view is kept by: when it says what the view says.
-/

namespace Hypergraph.Control

open Wire Js Engine
open Governance (someone)

variable {W Number : Type}

-- Reading

/-- `const [first, second] = text.split(':')`, of a text that has a `:`. -/
def firstTwo (text : String) : String × String :=
  let rest := (text.toList.dropWhile (· ≠ ':')).drop 1
  (String.ofList (text.toList.takeWhile (· ≠ ':')), String.ofList (rest.takeWhile (· ≠ ':')))

/-- A table's rows as the properties of an object; `none`: one is named `__proto__`, and is none. -/
def properties {α : Type} (table : Table String α) : Option (Table String α) :=
  if "__proto__" ∈ table then none else some table

/-- `state`. -/
structure Memory (Number : Type) where
  community : Option (Meta Number)
  roles : Table String (RoleRecord Number)
  channels : Table String (ChannelRecord Number)
  bans : Table String (Ban Number)
  hides : Table String (Hide Number)
  /-- By channel: who keeps it, with the key of their roster. -/
  keepers : Table String (List (String × String))
  /-- By channel and epoch. -/
  epochs : Nested (EpochRecord Number)
  /-- By channel and member. -/
  revoked : Nested (Noted Number)
  redeemed : Table String (Redeemed Number)
  invitesRevoked : Table String (Noted Number)
  uses : Table String Nat

/-- `Control._read`; `none`: it throws, or writes where every object reads. -/
def read (view : View Number) : Option (Memory Number) := do
  let roles ← properties view.roles
  let channels ← properties view.channels
  let bans ← properties view.bans
  let hides ← properties view.hides
  let keepers ← Nested.pushed firstTwo view.keepers.toList
  let epochs ← Nested.assigned firstTwo view.epochs.toList
  let revoked ← Nested.assigned firstTwo view.revoked.toList
  let redeemed ← properties view.redeemed
  let invitesRevoked ← properties view.invitesRevoked
  let uses ← properties view.uses
  some { community := view.community, roles, channels, bans, hides, keepers, epochs, revoked,
         redeemed, invitesRevoked, uses }

/-- A memory says what a view says: of each member, channel, invite and message the view's record, and of
each channel its epochs, its revoked members and its keepers.
-/
structure Agrees (view : View Number) (memory : Memory Number) : Prop where
  community : memory.community = view.community
  roles : memory.roles = view.roles
  channels : memory.channels = view.channels
  bans : memory.bans = view.bans
  hides : memory.hides = view.hides
  redeemed : memory.redeemed = view.redeemed
  invitesRevoked : memory.invitesRevoked = view.invitesRevoked
  uses : memory.uses = view.uses
  epochs : ∀ (channel : String) (epoch : Nat), memory.epochs.get2 channel (toString epoch)
    = view.epochs[channel ++ ":" ++ toString epoch]?
  revoked : ∀ channel member, memory.revoked.get2 channel member
    = view.revoked[channel ++ ":" ++ member]?
  keepers : ∀ channel keeper,
    ((memory.keepers[channel]?.getD []).filter (·.1 = keeper)).map Prod.snd
      = view.keepers[channel ++ ":" ++ keeper]?.toList

-- Keys of two parts

/-- A key of two parts without a `:`, the first no name that every object has. -/
def OfTwo (key : String) : Prop :=
  ∃ first second, key = first ++ ":" ++ second ∧ ':' ∉ first.toList ∧ ':' ∉ second.toList
    ∧ first ∉ objectPrototype

/-- A view whose names a memory can be read of: no member or channel is `__proto__`, and the channels
with epochs, revocations or keepers, and who is revoked or a keeper there, are named without a `:` and not
as what every object has.
-/
structure Plain (view : View Number) : Prop where
  roles : "__proto__" ∉ view.roles
  channels : "__proto__" ∉ view.channels
  bans : "__proto__" ∉ view.bans
  epochs : ∀ key ∈ view.epochs, OfTwo key
  revoked : ∀ key ∈ view.revoked, OfTwo key ∧ (firstTwo key).2 ≠ "__proto__"
  keepers : ∀ key ∈ view.keepers, OfTwo key

theorem toList_pair (first second : String)
    : (first ++ ":" ++ second).toList = first.toList ++ ':' :: second.toList := by
  simp [String.toList_append]

theorem firstTwo_of_free {first second : String} (free : ':' ∉ first.toList) (free' : ':' ∉ second.toList)
    : firstTwo (first ++ ":" ++ second) = (first, second) := by
  have apart {text : String} (free : ':' ∉ text.toList) : ∀ c ∈ text.toList, decide (c ≠ ':') = true :=
    fun c mem => decide_eq_true fun is => free (is ▸ mem)
  simp only [firstTwo, toList_pair, Prod.mk.injEq]
  constructor
  · rw [List.takeWhile_append_of_pos (apart free), List.takeWhile_cons_of_neg (by simp),
      List.append_nil, String.ofList_toList]
  · rw [List.dropWhile_append_of_pos (apart free), List.dropWhile_cons_of_neg (by simp),
      List.drop_succ_cons, List.drop_zero, List.takeWhile_eq_self_iff.mpr (apart free'),
      String.ofList_toList]

theorem colon_not_mem_firstTwo (text : String)
    : ':' ∉ (firstTwo text).1.toList ∧ ':' ∉ (firstTwo text).2.toList := by
  simp only [firstTwo, String.toList_ofList]
  constructor <;> intro mem <;> simpa using List.mem_takeWhile_imp mem

/-- Two parts put together are told apart where one of the two is without a `:` on each side. -/
theorem pair_inj {first second first' second' : String}
    (same : first ++ ":" ++ second = first' ++ ":" ++ second') (free : ':' ∉ first'.toList)
    (free' : ':' ∉ second'.toList)
    : first = first' ∧ second = second' := by
  have lists := congrArg String.toList same
  rw [toList_pair, toList_pair] at lists
  obtain ⟨left, right⟩ := Joined.append_cons_inj lists free free'
  exact ⟨String.toList_injective left, String.toList_injective right⟩

theorem OfTwo.firstTwo_eq_iff {key first second : String} (two : OfTwo key)
    : firstTwo key = (first, second) ↔ key = first ++ ":" ++ second := by
  obtain ⟨first', second', rfl, free, free', _⟩ := two
  rw [firstTwo_of_free free free', Prod.mk.injEq]
  constructor
  · rintro ⟨rfl, rfl⟩
    rfl
  · intro same
    obtain ⟨rfl, rfl⟩ := pair_inj same.symm free free'
    exact ⟨rfl, rfl⟩

theorem toString_ne_proto (n : Nat) : toString n ≠ "__proto__" := by
  intro same
  have mem : '_' ∈ (toString n).toList := by
    rw [same]
    decide
  rw [Nat.toString_eq_ofList_toDigits, String.toList_ofList] at mem
  exact Nat.underscore_not_in_toDigits mem

theorem firstKey (channel : String) : channel ++ ":0" = channel ++ ":" ++ toString 0 := by
  rw [String.append_assoc]
  rfl

/-- Keys of an epoch are told apart by their channel and number, whatever the channel is called. -/
theorem epochKey_inj {channel channel' : String} {n n' : Nat}
    (same : channel ++ ":" ++ toString n = channel' ++ ":" ++ toString n')
    : channel = channel' ∧ n = n' := by
  have lists := congrArg String.toList same
  rw [toList_pair, toList_pair] at lists
  -- Cut at the last `:`, as a number has none.
  have reversed := congrArg List.reverse lists
  simp only [List.reverse_append, List.reverse_cons, List.append_assoc, List.singleton_append] at reversed
  obtain ⟨right, left⟩ := Joined.cut_inj reversed
    (fun mem => Digits.colon_not_mem_toString n (List.mem_reverse.mp mem))
    (fun mem => Digits.colon_not_mem_toString n' (List.mem_reverse.mp mem))
  exact ⟨String.toList_injective (List.reverse_injective left),
    Digits.toString_injective (String.toList_injective (List.reverse_injective right))⟩

-- Tables of such keys

section Tables

variable {α : Type} {table : Table String α}

/-- Of rows with keys of their own, those with a key are the one row that has it. -/
theorem filter_key_of_mem {rows : List (String × α)} {row : String × α}
    (distinct : rows.Pairwise fun left right => left.1 ≠ right.1) (mem : row ∈ rows)
    : (rows.filter fun other => other.1 = row.1) = [row] := by
  induction rows with
  | nil => cases mem
  | cons first rest ih =>
      rw [List.pairwise_cons] at distinct
      rcases List.mem_cons.mp mem with rfl | later
      · rw [List.filter_cons_of_pos (by simp), List.filter_eq_nil_iff.mpr]
        intro other mem same
        exact distinct.1 other mem (of_decide_eq_true same).symm
      · rw [List.filter_cons_of_neg (by simpa using distinct.1 row later), ih distinct.2 later]

theorem filter_toList_key (key : String)
    : (table.toList.filter fun row => row.1 = key) = (table[key]?.map fun row => (key, row)).toList := by
  have rows (row : String × α) : row ∈ table.toList ↔ table[row.1]? = some row.2 :=
    Std.ExtTreeMap.mem_toList_iff_getElem?_eq_some
  cases at_ : table[key]? with
  | none =>
      rw [Option.map_none, Option.toList_none, List.filter_eq_nil_iff]
      intro row mem same
      rw [rows, of_decide_eq_true same, at_] at mem
      cases mem
  | some row =>
      have distinct : table.toList.Pairwise fun left right => left.1 ≠ right.1 :=
        (Std.ExtTreeMap.distinct_keys_toList (t := table)).imp fun apart same => by simp [same] at apart
      exact filter_key_of_mem distinct ((rows (key, row)).mpr at_)

variable (table) in
theorem mem_of_mem_toList {row : String × α} (mem : row ∈ table.toList) : row.1 ∈ table := by
  rw [Std.ExtTreeMap.mem_iff_isSome_getElem?, Std.ExtTreeMap.mem_toList_iff_getElem?_eq_some.mp mem]
  rfl

/-- Rows whose keys are of two parts are all assigned, each to its place. -/
theorem get2_of_two (two : ∀ key ∈ table, OfTwo key) {nested : Nested α}
    (made : Nested.assigned firstTwo table.toList = some nested) (first second : String)
    : nested.get2 first second = table[first ++ ":" ++ second]? := by
  rw [Nested.get2_assigned made]
  have same : (table.toList.filter fun row => firstTwo row.1 = (first, second))
      = table.toList.filter fun row => row.1 = first ++ ":" ++ second :=
    List.filter_congr fun row mem => decide_eq_decide.mpr
      (two row.1 (mem_of_mem_toList table mem)).firstTwo_eq_iff
  rw [same, filter_toList_key]
  cases table[first ++ ":" ++ second]? <;> rfl

/-- What is found under two names is a row's, of a key with these parts. -/
theorem row_of_get2 {nested : Nested α} (made : Nested.assigned firstTwo table.toList = some nested)
    {first second : String} {value : α} (is : nested.get2 first second = some value)
    : ':' ∉ first.toList ∧ ':' ∉ second.toList ∧ first ∉ objectPrototype ∧ second ≠ "__proto__" := by
  rw [Nested.get2_assigned made] at is
  obtain ⟨row, last, _⟩ := Option.map_eq_some_iff.mp is
  have mem := List.mem_of_getLast? last
  rw [List.mem_filter, decide_eq_true_eq] at mem
  have free := colon_not_mem_firstTwo row.1
  have fine := Nested.isSome_assigned.mp (Option.isSome_iff_exists.mpr ⟨nested, made⟩) row mem.1
  rw [mem.2] at free fine
  exact ⟨free.1, free.2, fine.1, fine.2⟩

/-- So with rows pushed to lists. -/
theorem pushed_of_two (two : ∀ key ∈ table, OfTwo key) {lists : Table String (List (String × α))}
    (made : Nested.pushed firstTwo table.toList = some lists) (first second : String)
    : ((lists[first]?.getD []).filter (·.1 = second)).map Prod.snd
      = table[first ++ ":" ++ second]?.toList := by
  rw [Nested.getD_pushed made, List.filter_map, List.filter_filter, List.map_map]
  have same : (table.toList.filter fun row =>
        decide ((firstTwo row.1).1 = first)
          && ((fun item : String × α => decide (item.1 = second)) ∘ fun row : String × α =>
            ((firstTwo row.1).2, row.2)) row)
      = table.toList.filter fun row => row.1 = first ++ ":" ++ second := by
    refine List.filter_congr fun row mem => ?_
    rw [Function.comp, ← Bool.decide_and]
    refine decide_eq_decide.mpr ?_
    rw [← (two row.1 (mem_of_mem_toList table mem)).firstTwo_eq_iff, Prod.ext_iff]
  rw [show (fun row : String × α => _ && _) = _ from funext fun _ => Bool.and_comm _ _] at same
  rw [same, filter_toList_key]
  cases table[first ++ ":" ++ second]? <;> rfl

/-- A row that was pushed. -/
theorem row_of_pushed {lists : Table String (List (String × α))}
    (made : Nested.pushed firstTwo table.toList = some lists) (first second : String)
    (is : ((lists[first]?.getD []).filter (·.1 = second)) ≠ [])
    : ':' ∉ first.toList ∧ ':' ∉ second.toList ∧ first ∉ objectPrototype := by
  obtain ⟨item, mem⟩ := List.exists_mem_of_ne_nil _ is
  rw [Nested.getD_pushed made, List.mem_filter, List.mem_map, decide_eq_true_eq] at mem
  obtain ⟨⟨row, mem, rfl⟩, rfl⟩ := mem
  rw [List.mem_filter, decide_eq_true_eq] at mem
  obtain ⟨mem, rfl⟩ := mem
  have free := colon_not_mem_firstTwo row.1
  exact ⟨free.1, free.2,
    Nested.isSome_pushed.mp (Option.isSome_iff_exists.mpr ⟨lists, made⟩) row mem⟩

end Tables

-- What is so of every view a log leads to

/-- How the keys of a view are made, and that a channel has no epoch ahead of its own. -/
structure Shaped (s : State W Number) : Prop where
  epochs : ∀ key ∈ s.view.epochs, ∃ channel found private_ n, key = channel ++ ":" ++ toString n
    ∧ s.privateChannel channel = some (found, private_) ∧ n ≤ private_.epoch
  revoked : ∀ key ∈ s.view.revoked, ∃ channel member, key = channel ++ ":" ++ member
  keepers : ∀ key ∈ s.view.keepers, ∃ channel keeper, key = channel ++ ":" ++ keeper
  hides : "__proto__" ∉ s.view.hides
  redeemed : "__proto__" ∉ s.view.redeemed
  uses : "__proto__" ∉ s.view.uses
  invitesRevoked : "__proto__" ∉ s.view.invitesRevoked

section Steps

variable {peer : Peer W Number} {s s' : State W Number} {node : Node Number}

theorem proto_ne_pair {first second : String} : first ++ ":" ++ second ≠ "__proto__" := by
  intro same
  have mem : ':' ∈ (first ++ ":" ++ second).toList := by
    rw [toList_pair]
    exact List.mem_append_right _ (.head _)
  rw [same] at mem
  revert mem
  decide

theorem proto_ne_toHex {bytes : Bytes} : toHex bytes ≠ "__proto__" := by
  intro same
  have mem : '_' ∈ (toHex bytes).toList := by
    rw [same]
    decide
  rw [toHex, String.toList_ofList] at mem
  have digit := hexValue_of_mem mem
  revert digit
  decide

theorem not_mem_insert {α : Type} {table : Table String α} {key other : String} {row : α}
    (out : other ∉ table) (apart : key ≠ other)
    : other ∉ table.insert key row := by
  simp [Std.ExtTreeMap.mem_insert, out, apart]

theorem getElem?_insert_of_ne {α : Type} {table : Table String α} {key other : String} {row : α}
    (apart : key ≠ other)
    : (table.insert key row)[other]? = table[other]? := by
  rw [Std.ExtTreeMap.getElem?_insert, if_neg (by rwa [Std.compare_eq_iff_eq])]

theorem privateChannel_congr (channels : s'.view.channels = s.view.channels) (channel : String)
    : s'.privateChannel channel = s.privateChannel channel := by
  rw [State.privateChannel, State.privateChannel, channels]

/-- A step that leaves a view's channels and epochs, and writes no key that is no pair. -/
theorem Shaped.congr (shaped : Shaped s) (channels : s'.view.channels = s.view.channels)
    (epochs : s'.view.epochs = s.view.epochs)
    (revoked : ∀ key ∈ s'.view.revoked, key ∈ s.view.revoked
      ∨ ∃ channel member, key = channel ++ ":" ++ member)
    (keepers : ∀ key ∈ s'.view.keepers, key ∈ s.view.keepers
      ∨ ∃ channel keeper, key = channel ++ ":" ++ keeper)
    (hides : "__proto__" ∉ s'.view.hides) (redeemed : "__proto__" ∉ s'.view.redeemed)
    (uses : "__proto__" ∉ s'.view.uses) (invitesRevoked : "__proto__" ∉ s'.view.invitesRevoked)
    : Shaped s' := by
  refine ⟨?_, fun key mem => (revoked key mem).elim (shaped.revoked key) id,
    fun key mem => (keepers key mem).elim (shaped.keepers key) id, hides, redeemed, uses, invitesRevoked⟩
  rw [epochs]
  intro key mem
  obtain ⟨channel, found, private_, n, is, at_, le⟩ := shaped.epochs key mem
  exact ⟨channel, found, private_, n, is, (privateChannel_congr channels channel).trans at_, le⟩

theorem Shaped.step (shaped : Shaped s) (step : Step peer s node s') : Shaped s' := by
  have same {α : Type} {table : Table String α} {is : String → Prop} (key : String) (mem : key ∈ table)
      : key ∈ table ∨ is key := .inl mem
  cases step with
  | removeRole =>
      refine shaped.congr ?_ ?_ ?_ ?_ ?_ ?_ ?_ ?_ <;> rw [view_removeRole]
      · exact same
      · exact same
      · exact shaped.hides
      · exact shaped.redeemed
      · exact shaped.uses
      · exact shaped.invitesRevoked
  | @channel author id name fields commit _ _ new =>
      have old {channel : String} {found : ChannelRecord Number} {private_ : PrivateChannel}
          (is : s.privateChannel channel = some (found, private_))
          : (s.putChannel peer author fields id name commit).privateChannel channel
            = some (found, private_) := by
        obtain ⟨at_, has⟩ := privateChannel_eq_some.mp is
        have apart : id ≠ channel := by
          rintro rfl
          rw [new] at at_
          cases at_
        refine privateChannel_eq_some.mpr ⟨?_, has⟩
        simpa [State.putChannel, Std.ExtTreeMap.getElem?_insert, apart] using at_
      refine ⟨?_, shaped.revoked, ?_, shaped.hides, shaped.redeemed, shaped.uses, shaped.invitesRevoked⟩
      · intro key mem
        have kept (mem : key ∈ s.view.epochs) := shaped.epochs key mem
        cases commit with
        | none =>
            obtain ⟨channel, found, private_, n, is, at_, le⟩ := kept mem
            exact ⟨channel, found, private_, n, is, old at_, le⟩
        | some commit =>
            rcases Std.ExtTreeMap.mem_insert.mp mem with is | mem
            · refine ⟨id, _, _, 0, (Std.LawfulEqCmp.eq_of_compare is).symm.trans (firstKey id),
                privateChannel_eq_some.mpr ⟨Std.ExtTreeMap.getElem?_insert_self, rfl⟩, Nat.le_refl _⟩
            · obtain ⟨channel, found, private_, n, is, at_, le⟩ := kept mem
              exact ⟨channel, found, private_, n, is, old at_, le⟩
      · intro key mem
        simp only [State.putChannel] at mem
        split at mem
        · rcases Std.ExtTreeMap.mem_insert.mp mem with is | mem
          · exact ⟨id, author, (Std.LawfulEqCmp.eq_of_compare is).symm⟩
          · exact shaped.keepers key mem
        · exact shaped.keepers key mem
  | @epoch author channel found private_ epoch _ _ is =>
      refine ⟨fun key mem => ?_, shaped.revoked, shaped.keepers, shaped.hides, shaped.redeemed, shaped.uses,
        shaped.invitesRevoked⟩
      have now : (s.putEpoch channel found private_ epoch).privateChannel channel
          = some ({ found with private_ := some { private_ with epoch := private_.epoch + 1 } },
            { private_ with epoch := private_.epoch + 1 }) :=
        privateChannel_eq_some.mpr ⟨Std.ExtTreeMap.getElem?_insert_self, rfl⟩
      rcases Std.ExtTreeMap.mem_insert.mp mem with same | mem
      · exact ⟨channel, _, _, _, (Std.LawfulEqCmp.eq_of_compare same).symm, now, Nat.le_refl _⟩
      · obtain ⟨channel', found', private', n, key_, at_, le⟩ := shaped.epochs key mem
        by_cases same : channel = channel'
        · subst same
          obtain ⟨rfl, rfl⟩ := Prod.mk.inj (Option.some.inj (is.symm.trans at_))
          exact ⟨channel, _, _, n, key_, now, Nat.le_succ_of_le le⟩
        · refine ⟨channel', found', private', n, key_, ?_, le⟩
          obtain ⟨at_, has⟩ := privateChannel_eq_some.mp at_
          refine privateChannel_eq_some.mpr ⟨?_, has⟩
          simpa [State.putEpoch, Std.ExtTreeMap.getElem?_insert, same] using at_
  | redeem _ _ _ _ gives =>
      cases gives <;>
        exact shaped.congr rfl rfl same same shaped.hides
          (not_mem_insert shaped.redeemed proto_ne_pair) (not_mem_insert shaped.uses proto_ne_toHex)
          shaped.invitesRevoked
  | revokeInvite =>
      exact shaped.congr rfl rfl same same shaped.hides shaped.redeemed shaped.uses
        (not_mem_insert shaped.invitesRevoked proto_ne_toHex)
  | @revoke author channel member noted =>
      refine shaped.congr rfl rfl (fun key mem => ?_) same shaped.hides shaped.redeemed shaped.uses
        shaped.invitesRevoked
      cases noted with
      | none => exact .inl (Std.ExtTreeMap.mem_of_mem_erase mem)
      | some noted =>
          rcases Std.ExtTreeMap.mem_insert.mp mem with is | mem
          · exact .inr ⟨channel, member, (Std.LawfulEqCmp.eq_of_compare is).symm⟩
          · exact .inl mem
  | hide =>
      exact shaped.congr rfl rfl same same (not_mem_insert shaped.hides proto_ne_pair) shaped.redeemed
        shaped.uses shaped.invitesRevoked
  | @keeper author channel =>
      refine shaped.congr rfl rfl same (fun key mem => ?_) shaped.hides shaped.redeemed shaped.uses
        shaped.invitesRevoked
      rcases Std.ExtTreeMap.mem_insert.mp mem with is | mem
      · exact .inr ⟨channel, author, (Std.LawfulEqCmp.eq_of_compare is).symm⟩
      · exact .inl mem
  | _ =>
      exact shaped.congr rfl rfl same same shaped.hides shaped.redeemed shaped.uses
        shaped.invitesRevoked

/-- An epoch's commitment, once recorded, is kept. -/
theorem Shaped.epochs_step (shaped : Shaped s) (step : Step peer s node s') {key : String}
    {epoch : EpochRecord Number} (at_ : s.view.epochs[key]? = some epoch)
    : s'.view.epochs[key]? = some epoch := by
  have mem : key ∈ s.view.epochs := by
    rw [Std.ExtTreeMap.mem_iff_isSome_getElem?, at_]
    rfl
  obtain ⟨channel, found, private_, n, rfl, is, le⟩ := shaped.epochs key mem
  cases step with
  | removeRole =>
      rw [view_removeRole]
      exact at_
  | @channel author id name fields commit _ _ new =>
      cases commit with
      | none => exact at_
      | some commit =>
          have apart : id ++ ":0" ≠ channel ++ ":" ++ toString n := by
            intro same
            rw [firstKey] at same
            obtain ⟨rfl, _⟩ := epochKey_inj same
            rw [(privateChannel_eq_some.mp is).1] at new
            cases new
          exact (getElem?_insert_of_ne apart).trans at_
  | @epoch author channel' found' private' epoch _ _ is' =>
      have apart : channel' ++ ":" ++ toString (private'.epoch + 1) ≠ channel ++ ":" ++ toString n := by
        intro same
        obtain ⟨rfl, rfl⟩ := epochKey_inj same
        obtain ⟨rfl, rfl⟩ := Prod.mk.inj (Option.some.inj (is.symm.trans is'))
        omega
      exact (getElem?_insert_of_ne apart).trans at_
  | redeem _ _ _ _ gives => cases gives <;> exact at_
  | _ => exact at_

end Steps

-- Memory and view

section Agreement

variable {peer : Peer W Number} {s : State W Number}

theorem properties_eq_some {α : Type} {table own : Table String α}
    : properties table = some own ↔ "__proto__" ∉ table ∧ own = table := by
  rw [properties, Option.ite_none_left_eq_some, Option.some.injEq, eq_comm]

/-- The view of a log is read to a memory that agrees with it just where its names are plain. -/
theorem Shaped.agrees_iff (shaped : Shaped s)
    : (∃ memory, read s.view = some memory ∧ Agrees s.view memory) ↔ Plain s.view := by
  constructor
  · rintro ⟨memory, is, agrees⟩
    simp only [read, Option.bind_eq_bind, Option.bind_eq_some_iff, properties_eq_some,
      Option.some.injEq] at is
    obtain ⟨_, ⟨roles, rfl⟩, _, ⟨channels, rfl⟩, _, ⟨bans, rfl⟩, _, _, keepers, keepers_, epochs, epochs_,
      revoked, revoked_, _, _, _, _, _, _, rfl⟩ := is
    refine ⟨roles, channels, bans, fun key mem => ?_, fun key mem => ?_, fun key mem => ?_⟩
    · obtain ⟨channel, _, _, n, rfl, _⟩ := shaped.epochs key mem
      obtain ⟨epoch, at_⟩ := Option.isSome_iff_exists.mp (Std.ExtTreeMap.mem_iff_isSome_getElem?.mp mem)
      obtain ⟨free, free', named, _⟩ := row_of_get2 epochs_ ((agrees.epochs channel n).trans at_)
      exact ⟨channel, _, rfl, free, free', named⟩
    · obtain ⟨channel, member, rfl⟩ := shaped.revoked key mem
      obtain ⟨noted, at_⟩ := Option.isSome_iff_exists.mp (Std.ExtTreeMap.mem_iff_isSome_getElem?.mp mem)
      obtain ⟨free, free', named, proto⟩ := row_of_get2 revoked_ ((agrees.revoked channel member).trans at_)
      refine ⟨⟨channel, member, rfl, free, free', named⟩, ?_⟩
      rwa [firstTwo_of_free free free']
    · obtain ⟨channel, keeper, rfl⟩ := shaped.keepers key mem
      obtain ⟨rosterKey, at_⟩ := Option.isSome_iff_exists.mp (Std.ExtTreeMap.mem_iff_isSome_getElem?.mp mem)
      obtain ⟨free, free', named⟩ := row_of_pushed keepers_ channel keeper fun none_ => by
        have agree := agrees.keepers channel keeper
        rw [none_, at_] at agree
        cases agree
      exact ⟨channel, keeper, rfl, free, free', named⟩
  · intro plain
    have first_ {key : String} (two : OfTwo key) : (firstTwo key).1 ∉ objectPrototype := by
      obtain ⟨first, second, rfl, free, free', named⟩ := two
      rwa [firstTwo_of_free free free']
    obtain ⟨keepers, keepers_⟩ := Option.isSome_iff_exists.mp (Nested.isSome_pushed.mpr
      fun row mem => first_ (plain.keepers row.1 (mem_of_mem_toList s.view.keepers mem)))
    obtain ⟨epochs, epochs_⟩ := Option.isSome_iff_exists.mp (Nested.isSome_assigned.mpr
      fun row mem => ⟨first_ (plain.epochs row.1 (mem_of_mem_toList s.view.epochs mem)), by
        have mem := mem_of_mem_toList s.view.epochs mem
        obtain ⟨channel, _, _, n, is, _⟩ := shaped.epochs row.1 mem
        rw [(plain.epochs row.1 mem).firstTwo_eq_iff.mpr is]
        exact toString_ne_proto n⟩)
    obtain ⟨revoked, revoked_⟩ := Option.isSome_iff_exists.mp (Nested.isSome_assigned.mpr
      fun row mem =>
        have both := plain.revoked row.1 (mem_of_mem_toList s.view.revoked mem)
        ⟨first_ both.1, both.2⟩)
    refine ⟨{ s.view with keepers, epochs, revoked }, ?_, rfl, rfl, rfl, rfl, rfl, rfl, rfl, rfl, ?_, ?_, ?_⟩
    · simp only [read, keepers_, epochs_, revoked_, properties, plain.roles, plain.channels, plain.bans,
        shaped.hides, shaped.redeemed, shaped.invitesRevoked, shaped.uses, if_false,
        Option.bind_eq_bind, Option.bind_some]
    · exact fun channel n => get2_of_two plain.epochs epochs_ channel _
    · exact get2_of_two (fun key mem => (plain.revoked key mem).1) revoked_
    · exact pushed_of_two plain.keepers keepers_

end Agreement

/-- In every state that a log leads to: the memory read of the view agrees with it just where its names
are plain, and the commitment recorded for an epoch of a channel, which is the first, stays.
-/
theorem read_agrees {peer : Peer W Number} {writers : W} {log : List (Node Number)} {s : State W Number}
    (reached : State.run peer { writers } log = some s)
    : ((∃ memory, read s.view = some memory ∧ Agrees s.view memory) ↔ Plain s.view)
      ∧ ∀ later s', s.run peer later = some s'
        → ∀ (channel : String) (n : Nat) (epoch : EpochRecord Number),
          s.view.epochs[channel ++ ":" ++ toString n]? = some epoch
          → s'.view.epochs[channel ++ ":" ++ toString n]? = some epoch := by
  have shaped : Shaped s :=
    Runs.foldlM_keeps Shaped (fun _ _ _ shaped applied => shaped.step (step_of_apply applied))
      ⟨by simp, by simp, by simp, by simp, by simp, by simp, by simp⟩ reached
  refine ⟨shaped.agrees_iff, fun later s' ran channel n epoch at_ => ?_⟩
  refine (Runs.foldlM_keeps
    (fun s : State W Number => Shaped s ∧ s.view.epochs[channel ++ ":" ++ toString n]? = some epoch)
    (fun _ _ _ both applied => ?_) ⟨shaped, at_⟩ ran).2
  exact ⟨both.1.step (step_of_apply applied), both.1.epochs_step (step_of_apply applied) both.2⟩

/-- The owner creates a private channel, or takes one an epoch up, with a commitment. -/
def creates (id : String) (commit : UInt8) : Node Nat :=
  signedBy (someone 1) "channel"
    [("id", .string id), ("private", .bool true), ("commit", .string (someone commit))] 0

def rotates (channel : String) (epoch : Nat) (commit : UInt8) : Node Nat :=
  signedBy (someone 1) "rotate"
    [("channel", .string channel), ("epoch", .number epoch), ("commit", .string (someone commit))] 0

/-- A private channel rotated once, with a keeper and someone revoked. -/
theorem read_agrees_rotated
    : ∃ s, State.run listPeer { writers := [(List.replicate 32 0, true)] }
          [founding, creates "x" 7, rotates "x" 1 8,
            signedBy (someone 1) "revoke" [("channel", .string "x"), ("member", .string (someone 2))] 0,
            signedBy (someone 1) "keeper" [("channel", .string "x"), ("rosterKey", .string (someone 3))] 0]
        = some s
      ∧ (s.view.epochs.size, s.view.revoked.size, s.view.keepers.size) = (2, 1, 1)
      ∧ ((∃ memory, read s.view = some memory ∧ Agrees s.view memory) ↔ Plain s.view) := by
  have ran : (State.run listPeer { writers := [(List.replicate 32 0, true)] }
      [founding, creates "x" 7, rotates "x" 1 8,
        signedBy (someone 1) "revoke" [("channel", .string "x"), ("member", .string (someone 2))] 0,
        signedBy (someone 1) "keeper" [("channel", .string "x"), ("rosterKey", .string (someone 3))] 0]).any
      (fun s => (s.view.epochs.size, s.view.revoked.size, s.view.keepers.size) = (2, 1, 1)) = true := by
    decide +kernel
  obtain ⟨s, is, sizes⟩ := (Option.any_eq_true _ _).mp ran
  exact ⟨s, is, of_decide_eq_true sizes, (read_agrees is).1⟩

/-- Of a channel `x` an epoch 1 is recorded, and its commitment read is another one: that of epoch 0 of the
channel `x:1` that is created afterwards.
-/
theorem commitment_of_another
    : ∃ s, State.run listPeer { writers := [(List.replicate 32 0, true)] }
          [founding, creates "x" 7, rotates "x" 1 8, creates "x:1" 9] = some s
        ∧ ¬ ∃ memory, read s.view = some memory ∧ Agrees s.view memory := by
  have ran : (State.run listPeer { writers := [(List.replicate 32 0, true)] }
      [founding, creates "x" 7, rotates "x" 1 8, creates "x:1" 9]).any (fun s =>
        (s.view.epochs["x" ++ ":" ++ toString 1]?).map EpochRecord.commit = some (someone 8)
          ∧ (read s.view).all fun memory =>
            (memory.epochs.get2 "x" (toString 1)).map EpochRecord.commit = some (someone 9)) = true := by
    decide +kernel
  obtain ⟨s, is, has⟩ := (Option.any_eq_true _ _).mp ran
  obtain ⟨recorded, all⟩ := of_decide_eq_true has
  refine ⟨s, is, ?_⟩
  rintro ⟨memory, read_, agrees⟩
  rw [read_, Option.all_some, decide_eq_true_eq, agrees.epochs, recorded] at all
  revert all
  decide +kernel

end Hypergraph.Control
