import Hypergraph.Declaring

/-! Two apps that take turns opening a space and recording their types over its: when they come
to an end. `over_` takes an app's own type wherever it has as many fields, whatever else differs.
-/

namespace Hypergraph.Types

open Js

def fieldCount (t : StoredType) : Nat := t.fields.length

/-- The source's loop is a turn, ranked by the number of fields. -/
theorem over_eq_merge (app : Types) (s : Stored)
    : app.over_ s = Dict.merge fieldCount app.describe s := by
  unfold over_ Dict.merge
  congr 1
  funext out entry
  unfold Dict.mergeEntry
  cases out.get? entry.1 <;> rfl

/-- How many of the openings record anything: where the app's types over the space's differ from
the space's.
-/
def recordings (s : Stored) : List Types → Nat
  | [] => 0
  | app :: rest => (if app.over_ s = s then 0 else 1) + recordings (app.over_ s) rest

/-- Two apps that never keep replacing each other's types: the first has nothing to add after
the second, and however they take turns only finitely many openings record anything.
-/
structure Settles (a b : Types) (s : Stored) : Prop where
  twice : a.over_ (b.over_ (a.over_ s)) = b.over_ (a.over_ s)
  bounded : ∃ most, ∀ turns : List Types, (∀ app ∈ turns, app = a ∨ app = b)
    → recordings s turns ≤ most

/-- A type both apps declare with equally many fields, no fewer than the space's, they describe
alike.
-/
def DescribeAlike (a b : Types) (s : Stored) : Prop :=
  ∀ name x y, a.describe.get? name = some x → b.describe.get? name = some y
    → x.fields.length = y.fields.length
    → (∀ old, s.get? name = some old → old.fields.length ≤ x.fields.length) → x = y

theorem recordings_eq (s : Stored) (turns : List Types)
    : recordings s turns = Dict.changes fieldCount s (turns.map describe) := by
  induction turns generalizing s with
  | nil => rfl
  | cons app rest ih => simp only [recordings, Dict.changes, List.map_cons, ih, over_eq_merge]

/-- Two apps' recording comes to an end just where they describe alike what they declare with
equally many fields.
-/
theorem settles_iff (a b : Types) (s : Stored) : Settles a b s ↔ DescribeAlike a b s := by
  have twice : Dict.merge fieldCount a.describe
      (Dict.merge fieldCount b.describe (Dict.merge fieldCount a.describe s))
        = Dict.merge fieldCount b.describe (Dict.merge fieldCount a.describe s)
      ↔ Dict.Agree fieldCount a.describe b.describe s := Dict.merge_merge_iff
  simp only [← over_eq_merge] at twice
  constructor
  · intro settles
    exact twice.mp settles.twice
  · intro alike
    have agree : Dict.Agree fieldCount a.describe b.describe s := alike
    refine ⟨twice.mpr agree, ?_⟩
    obtain ⟨most, bounded⟩ := Dict.changes_bounded_iff.mpr agree
    refine ⟨most, fun turns between => ?_⟩
    rw [recordings_eq]
    refine bounded _ fun own listed => ?_
    obtain ⟨app, turn, rfl⟩ := List.mem_map.mp listed
    rcases between app turn with rfl | rfl
    · exact .inl rfl
    · exact .inr rfl

-- What compatible types of as many fields differ in

/-- A field that is accepted is the one at its place, of its kind. -/
theorem field_of_accepted {name field kind : String} {old : StoredType} {now : TypeDecl} {i : Nat}
    (accepted : checkField name old now ((field, kind), i) = .ok ())
    : (now.fields[i]?).map (fun f => (f.1, f.2.name)) = some (field, kind) := by
  simp only [checkField, throwIf_bind, throwIf_eq_ok, decide_eq_false_iff_not, ne_eq,
    not_not] at accepted
  obtain ⟨moved, changed, _⟩ := accepted
  cases there : now.fields[i]? with
  | none =>
      rw [there] at moved
      cases moved
  | some f =>
      rw [there] at moved changed
      rw [Option.map_some, Option.some_inj] at moved ⊢
      rw [moved]
      exact congrArg _ changed

/-- A declaration that accepts another's with as many fields describes the type alike but for
its indexes, and for the types its links may point at, listed in another order.
-/
theorem describeType_eq_iff {name : String} {x y : TypeDecl}
    (accepts : checkType name (describeType x) y = .ok ())
    (same : x.fields.length = y.fields.length)
    : describeType x = describeType y ↔ x.index = y.index ∧ x.links = y.links := by
  unfold checkType at accepts
  cases checked : (describeType x).fields.zipIdx.forM (checkField name (describeType x) y) with
  | error thrown =>
      rw [checked] at accepts
      cases accepts
  | ok _ =>
      rw [checked] at accepts
      change (throwIf _ _ >>= _) = _ at accepts
      simp only [throwIf_bind, throwIf_eq_ok, decide_eq_false_iff_not, ne_eq, not_not] at accepts
      obtain ⟨once, _, editable, put⟩ := accepts
      have fields : (describeType x).fields = (describeType y).fields := by
        refine List.ext_getElem? fun i => ?_
        cases here : (describeType x).fields[i]? with
        | none =>
            have late := List.getElem?_eq_none_iff.mp here
            refine (List.getElem?_eq_none_iff.mpr ?_).symm
            simp only [describeType, List.length_map] at late ⊢
            omega
        | some f =>
            have listed : (f, i) ∈ (describeType x).fields.zipIdx :=
              List.mem_zipIdx_iff_getElem?.mpr here
            have there := field_of_accepted (forM_eq_ok.mp checked (f, i) listed)
            simpa [describeType, List.getElem?_map] using there.symm
      constructor
      · intro alike
        have index := congrArg StoredType.index alike
        exact ⟨Option.some.inj index, congrArg StoredType.links alike⟩
      · rintro ⟨index, links⟩
        unfold describeType at fields once editable put ⊢
        rw [StoredType.mk.injEq]
        exact ⟨fields, links, once, editable, congrArg some put, congrArg some index⟩

theorem describe_get? {types : Types} {name : String} {stored : StoredType}
    : types.describe.get? name = some stored
      ↔ isBuiltin name = false ∧ ∃ t, types.types.get? name = some t ∧ describeType t = stored := by
  unfold describe
  rw [Dict.get?_map, Dict.get?_filter]
  cases isBuiltin name <;> simp

/-- Apps of which one accepts the other's types describe alike what is to be recorded in turn unless
they differ there in an index, or in how they list the types a link may point at.
-/
theorem describeAlike_iff {a b : Types} {s : Stored}
    (accepts : a.checkCompatible (some b.describe) = .ok ())
    : DescribeAlike a b s
      ↔ ∀ name x y, isBuiltin name = false → a.types.get? name = some x → b.types.get? name = some y
        → x.fields.length = y.fields.length
        → (∀ old, s.get? name = some old → old.fields.length ≤ x.fields.length)
        → x.index = y.index ∧ x.links = y.links := by
  have each {name : String} {x y : TypeDecl} (own : isBuiltin name = false)
      (is : a.types.get? name = some x) (is' : b.types.get? name = some y)
      (same : x.fields.length = y.fields.length)
      : describeType x = describeType y ↔ x.index = y.index ∧ x.links = y.links := by
    have listed := Dict.mem_entries_iff.mpr (describe_get?.mpr ⟨own, y, is', rfl⟩)
    have checked := forM_eq_ok.mp accepts _ listed
    dsimp only at checked
    rw [is] at checked
    rw [eq_comm, describeType_eq_iff checked same.symm, eq_comm, @eq_comm _ y.links]
  have wide (t : TypeDecl) : (describeType t).fields.length = t.fields.length := List.length_map ..
  constructor
  · intro alike name x y own is is' same known
    refine (each own is is' same).mp ?_
    refine alike name _ _ (describe_get?.mpr ⟨own, x, is, rfl⟩) (describe_get?.mpr ⟨own, y, is', rfl⟩) ?_ ?_
    · rw [wide, wide, same]
    · simpa only [wide] using known
  · intro alike name x' y' is is' same known
    obtain ⟨own, x, there, rfl⟩ := describe_get?.mp is
    obtain ⟨_, y, there', rfl⟩ := describe_get?.mp is'
    simp only [wide] at same known
    exact (each own there there' same).mpr (alike name x y own there there' same known)

-- Two apps that never settle

/-- The types an app declares, where they are sound. -/
def declared (declarations : Dict String Declaration) : Types :=
  match new declarations with
  | .ok types => types
  | .error _ => ⟨.empty⟩

/-- An app whose posts have a title. -/
def plainApp : Types :=
  declared (.ofList [("post", { fields := .ofList [("title", "string")] })])

/-- Its next version, which lists them by it. -/
def indexedApp : Types :=
  declared (.ofList [("post", {
    fields := .ofList [("title", "string")]
    index := [["title"]] })])

/-- Two versions of an app that differ in an index accept each other's types, and the types
recorded; each time they open the space, each records its own again.
-/
theorem index_never_settles
    : plainApp.checkCompatible (some indexedApp.describe) = .ok ()
      ∧ indexedApp.checkCompatible (some plainApp.describe) = .ok ()
      ∧ plainApp.recordTypes (some indexedApp.describe) = some plainApp.describe
      ∧ indexedApp.recordTypes (some plainApp.describe) = some indexedApp.describe
      ∧ setTypes (some indexedApp.describe) plainApp.describe = some plainApp.describe
      ∧ setTypes (some plainApp.describe) indexedApp.describe = some indexedApp.describe
      ∧ ¬Settles plainApp indexedApp plainApp.describe := by
  refine ⟨?_, ?_, ?_, ?_, ?_, ?_, ?_⟩
  · decide +kernel
  · decide +kernel
  · decide +kernel
  · decide +kernel
  · decide +kernel
  · decide +kernel
  · intro settles
    have differ : plainApp.over_ (indexedApp.over_ (plainApp.over_ plainApp.describe))
        ≠ indexedApp.over_ (plainApp.over_ plainApp.describe) := by
      decide +kernel
    exact differ settles.twice

/-- The next version accepts the first one's types; what they describe alike is seen by the index. -/
theorem describeAlike_iff_indexed
    : DescribeAlike indexedApp plainApp plainApp.describe
      ↔ ∀ name x y, isBuiltin name = false → indexedApp.types.get? name = some x
        → plainApp.types.get? name = some y → x.fields.length = y.fields.length
        → (∀ old, plainApp.describe.get? name = some old → old.fields.length ≤ x.fields.length)
        → x.index = y.index ∧ x.links = y.links :=
  describeAlike_iff (by decide +kernel)

end Hypergraph.Types
