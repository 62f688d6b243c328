import Hypergraph.Lib.Hex
import Hypergraph.Lib.Joined
import Hypergraph.Decisions.View

/-! The view's keys as texts, and the values under them: what `createReadStream` and
`createDiffStream` give of it. A scope's own entries stand under its prefix, `sub:<key>:`.
-/

namespace Hypergraph.Decisions

open Wire Js Encodings

/-- A text, character by character. -/
abbrev Text := List Char

/-- The bytes in hex. -/
def hex (bytes : Bytes) : Text :=
  bytes.flatMap fun byte => [Nat.digitChar (byte.toNat / 16), Nat.digitChar (byte.toNat % 16)]

/-- What an entry of the view is about. The first ones a sub-space has too, the others only the
top space.
-/
inductive Name
  | settings
  | member (id : Key)
  | banned (id : Key)
  | cut (id : Key)
  | admitted (id : Key)
  | editcut (id : Key)
  | mod (target : Key)
  | redeemed (invite id : Key)
  | uses (invite : Key)
  | revoked (invite : Key)
  | epochs
  | writer (key : Key)
  | writers (id : Key)
  | gone (id device : Key)
  | role (name : String)
  | subspaces
  | subspace (key : Key)
  | types
  | typesAt (version : Nat)
  | listed (log : Key)
  deriving DecidableEq

/-- A value of the view, by what it is of. -/
inductive Value
  | settings (entry : Meta)
  | member (entry : Member)
  | banned (entry : Ban)
  | cut (entry : Cut)
  | admitted (code : Key)
  | editcut (perms : Perms)
  | mod (entry : Moderation)
  | redeemed (entry : Redeemed)
  | uses (count : Nat)
  | revoked (entry : Recorded)
  | epochs (entry : Epochs)
  | writer (entry : Writer)
  | writers (keys : List Key)
  | gone (entry : Recorded)
  | role (entry : CustomRole)
  | subspaces (keys : List Key)
  | subspace (entry : Subspace)
  | types (version : Nat)
  | declaration (text : String)
  | listed (space : Key)
  deriving DecidableEq

/-- A key without its scope's prefix. -/
def Name.text : Name → Text
  | .settings => "meta".toList
  | .member id => "member:".toList ++ hex id
  | .banned id => "banned:".toList ++ hex id
  | .cut id => "cut:".toList ++ hex id
  | .admitted id => "admit:".toList ++ hex id
  | .editcut id => "editcut:".toList ++ hex id
  | .mod target => "mod:".toList ++ hex target
  | .redeemed invite id => "redeemed:".toList ++ hex invite ++ ':' :: hex id
  | .uses invite => "uses:".toList ++ hex invite
  | .revoked invite => "revoked:".toList ++ hex invite
  | .epochs => "epochs".toList
  | .writer key => "writer:".toList ++ hex key
  | .writers id => "writers:".toList ++ hex id
  | .gone id device => "gone:".toList ++ hex id ++ ':' :: hex device
  | .role name => "role:".toList ++ name.toList
  | .subspaces => "subspaces".toList
  | .subspace key => "subspace:".toList ++ hex key
  | .types => "types".toList
  | .typesAt version => "types:".toList ++ Nat.toDigits 10 version
  | .listed log => "listed:".toList ++ hex log

/-- The key of a scope's entry (`K`). -/
def keyText (scope : Scope) (name : Name) : Text :=
  match scope with
  | none => name.text
  | some s => "sub:".toList ++ hex s ++ ':' :: name.text

/-- What the view holds of a scope. -/
def View.entry (v : View) (scope : Scope) : Name → Option Value
  | .settings => (v.metaOf scope).map .settings
  | .member id => (v.member scope id).map .member
  | .banned id => (v.banned scope id).map .banned
  | .cut id => (v.cut scope id).map .cut
  | .admitted id => (v.admits scope id).map .admitted
  | .editcut id => (v.editcut scope id).map .editcut
  | .mod target => (v.mod scope target).map .mod
  | .redeemed invite id => (v.redeemed scope invite id).map .redeemed
  | .uses invite => (v.uses scope invite).map .uses
  | .revoked invite => (v.revoked scope invite).map .revoked
  | .epochs => (v.epochs scope).map .epochs
  | .writer key => if scope.isSome then none else (v.writer key).map .writer
  | .writers id => if scope.isSome then none else (v.writers id).map .writers
  | .gone id device => if scope.isSome then none else (v.gone id device).map .gone
  | .role name => if scope.isSome then none else (v.role name).map .role
  | .subspaces => if scope.isSome then none else v.subspaces.map .subspaces
  | .subspace key => if scope.isSome then none else (v.subspace key).map .subspace
  | .types => if scope.isSome then none else v.types.map .types
  | .typesAt version => if scope.isSome then none else (v.typesAt version).map .declaration
  | .listed log => if scope.isSome then none else (v.listed log).map .listed

-- Hex

theorem length_hex (bytes : Bytes) : (hex bytes).length = 2 * bytes.length := by
  induction bytes with
  | nil => rfl
  | cons byte rest ih =>
      simp only [hex, List.flatMap_cons, List.length_append, List.length_cons, List.length_nil]
      simp only [hex] at ih
      omega

theorem hex_injective : Function.Injective hex := hexChars_injective

theorem colon_not_mem_hex (bytes : Bytes) : ':' ∉ hex bytes := by
  intro mem
  exact absurd (hexValue_of_mem mem) (by decide)

theorem hexPair_injective
    : Function.Injective fun pair : Key × Key => hex pair.1 ++ ':' :: hex pair.2 := by
  intro ⟨a, b⟩ ⟨c, d⟩ same
  obtain ⟨left, right⟩ := Joined.append_cons_inj same (colon_not_mem_hex c) (colon_not_mem_hex d)
  exact Prod.ext (hex_injective left) (hex_injective right)

theorem hexPair_eq {a b c d : Key} (same : hex a ++ ':' :: hex b = hex c ++ ':' :: hex d)
    : (a, b) = (c, d) :=
  @hexPair_injective (a, b) (c, d) same

theorem toList_injective : Function.Injective String.toList := by
  intro first second same
  exact String.toList_inj.mp same

theorem digits_injective : Function.Injective (Nat.toDigits 10) := by
  intro first second same
  rw [← Nat.ofDigitChars_ten_toDigits (n := first), same, Nat.ofDigitChars_ten_toDigits]

-- Keys told apart

/-- How the keys of an entry's kind start. -/
def Name.start : Name → String
  | .settings => "meta"
  | .member _ => "member:"
  | .banned _ => "banned:"
  | .cut _ => "cut:"
  | .admitted _ => "admit:"
  | .editcut _ => "editcut:"
  | .mod _ => "mod:"
  | .redeemed _ _ => "redeemed:"
  | .uses _ => "uses:"
  | .revoked _ => "revoked:"
  | .epochs => "epochs"
  | .writer _ => "writer:"
  | .writers _ => "writers:"
  | .gone _ _ => "gone:"
  | .role _ => "role:"
  | .subspaces => "subspaces"
  | .subspace _ => "subspace:"
  | .types => "types"
  | .typesAt _ => "types:"
  | .listed _ => "listed:"

/-- What of an entry's key tells it from others of its kind. -/
def Name.rest : Name → Text
  | .settings | .epochs | .subspaces | .types => []
  | .member id | .banned id | .cut id | .admitted id | .editcut id | .writers id => hex id
  | .mod target => hex target
  | .redeemed invite id => hex invite ++ ':' :: hex id
  | .uses invite | .revoked invite => hex invite
  | .writer key | .subspace key => hex key
  | .gone id device => hex id ++ ':' :: hex device
  | .role name => name.toList
  | .typesAt version => Nat.toDigits 10 version
  | .listed log => hex log

theorem Name.text_eq (name : Name) : name.text = name.start.toList ++ name.rest := by
  cases name <;> first | rfl | exact List.append_assoc _ _ _

/-- All the starts. -/
def starts : List String :=
  ["meta", "member:", "banned:", "cut:", "admit:", "editcut:", "mod:", "redeemed:", "uses:",
    "revoked:", "epochs", "writer:", "writers:", "gone:", "role:", "subspaces", "subspace:",
    "types", "types:", "listed:"]

theorem Name.start_mem (name : Name) : name.start ∈ starts := by
  cases name <;> simp [Name.start, starts]

/-- No start begins with another, but the one of the types' versions with `types`. -/
theorem starts_apart
    : ∀ s ∈ starts, ∀ t ∈ starts, s.toList.isPrefixOf t.toList
      → s = t ∨ s = "types" ∧ t = "types:" := by
  decide +kernel

theorem Name.eq_of_start {a b : Name} (start : a.start = b.start) (rest : a.rest = b.rest)
    : a = b := by
  cases a <;> cases b
  all_goals
    first
      | (simp [Name.start] at start; done)
      | rfl
      | exact congrArg _ (hex_injective rest)
      | exact congrArg _ (toList_injective rest)
      | exact congrArg _ (digits_injective rest)
      | exact congrArg (fun pair => Name.redeemed pair.1 pair.2) (hexPair_eq rest)
      | exact congrArg (fun pair => Name.gone pair.1 pair.2) (hexPair_eq rest)

theorem Name.text_injective : Function.Injective Name.text := by
  have starts_eq {a b : Name} (within : a.start.toList <+: b.start.toList) (same : a.text = b.text)
      : a.start = b.start := by
    have prefixed := List.isPrefixOf_iff_prefix.mpr within
    rcases starts_apart a.start a.start_mem b.start b.start_mem prefixed with is | ⟨first, second⟩
    · exact is
    · have bare : a.rest = [] := by
        cases a <;> first | rfl | simp [Name.start] at first
      have longer := congrArg List.length same
      rw [a.text_eq, b.text_eq, first, second, bare] at longer
      simp at longer
  intro a b same
  have texts : a.start.toList ++ a.rest = b.start.toList ++ b.rest := by
    rw [← a.text_eq, ← b.text_eq, same]
  have start : a.start = b.start := by
    rcases List.prefix_or_prefix_of_prefix ⟨a.rest, texts⟩ ⟨b.rest, rfl⟩ with within | within
    · exact starts_eq within same
    · exact (starts_eq within same.symm).symm
  rw [start] at texts
  exact Name.eq_of_start start (List.append_cancel_left texts)

end Hypergraph.Decisions
