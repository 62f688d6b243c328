import Hypergraph.Decisions.Apply
import Mathlib.Data.ENat.Basic

/-! A space's state as the view holds it, and a sub-space's as it counts
(`lib/decisions/state.js`, `State` and `SubState`). `State` reads the view's entries;
`SubState` works one identity's entries out from its parent's and its own. Both are given
here by the view and the chain of sub-spaces, nearest first: `[]` is `State`.

Roles recorded in a view are plain, so what `can` computes there is `holds`.
-/

namespace Hypergraph.Decisions

open Js Encodings

/-- The custom roles a view defines (`state.roles`). -/
def View.custom (v : View) : Custom := fun name => (v.role name).map CustomRole.permissions

/-- The lower length of each log two objects name (`lowest`). -/
def lowest (a b : Lengths) : Lengths :=
  spread a (b.map fun (log, length) => (log, (a.lookup log).elim length (min length)))

namespace State

variable (v : View)

def priv (s : Key) : Bool := (v.subspace s).any Subspace.priv

/-- `_banned`: banned in the scope or anywhere above. -/
def banned (chain : List Key) (id : Key) : Bool := bannedIn v chain id

/-- `_member`. -/
def member : List Key → Key → Option Member
  | [], id => v.member none id
  | s :: up, id =>
      if banned v (s :: up) id then none
      else
        match v.member (some s) id with
        | some m => some m
        | none =>
            (member up id).filter fun m =>
              !priv v s || m.role = "owner" || m.role = "admin"

/-- `_cut`: the union of the scope's own and the ones above, the lowest length per log. -/
def cut : List Key → Key → Option Lengths
  | [], id => (v.cut none id).map Cut.logs
  | s :: up, id =>
      match v.cut (some s) id with
      | some mine => some (lowest ((cut up id).getD []) mine.logs)
      | none => cut up id

/-- `_admit`. -/
def admits : List Key → Key → Option Key
  | [], id => v.admits none id
  | s :: up, id => (v.admits (some s) id).or (admits up id)

/-- `_editcut`. -/
def editcut : List Key → Key → Option Perms
  | [], id => v.editcut none id
  | s :: up, id =>
      match v.editcut (some s) id with
      | some mine =>
          let above := (editcut up id).getD []
          some (spread above (mine.map fun (p, logs) =>
            (p, lowest ((above.lookup p).getD []) logs)))
      | none => editcut up id

/-- `public`: the scope's own setting. -/
def pub : List Key → Bool
  | [] => (v.metaOf none).any Meta.pub
  | s :: _ => (v.metaOf none).isSome && (v.metaOf (some s)).any Meta.pub

/-- The recorded role; in a public scope anyone else not banned is a member. -/
def roleOf (chain : List Key) (id : Key) : Option String :=
  match member v chain id with
  | some m => some m.role
  | none => if pub v chain && !banned v chain id then some "member" else none

def can (chain : List Key) (id : Key) (permission : String) : Bool :=
  holds (roleOf v chain id) permission v.custom

/-- May this identity write records there now? In a sub-space its role must also be one
that `writeRoles` lets write; the owner and admins always may.
-/
def canWrite (chain : List Key) (id : Key) : Bool :=
  can v chain id "post"
    && match chain with
      | [] => true
      | s :: _ =>
          let only := ((v.subspace s).map Subspace.writeRoles).getD []
          let role := roleOf v chain id
          only = [] || role = some "owner" || role = some "admin"
            || role.any only.contains

/-- The length a cut names for a log, if one does. -/
def cutAt (chain : List Key) (id log : Key) : Option Nat :=
  (cut v chain id).bind fun logs => logs.lookup log

/-- How much of an identity's device log counts: a cut, once recorded for a log, stays its
limit; otherwise everything (`⊤`) if the identity may write, nothing if not.
-/
def limitOf (chain : List Key) (id log : Key) : ℕ∞ :=
  match cutAt v chain id log with
  | some length => length
  | none => if canWrite v chain id then ⊤ else 0

def editCutAt (chain : List Key) (id : Key) (permission : String) (log : Key) : Option Nat :=
  (editcut v chain id).bind fun perms =>
    (perms.lookup permission).bind fun logs => logs.lookup log

/-- The same for one permission: the cut recorded when the identity lost it. -/
def editLimit (chain : List Key) (id : Key) (permission : String) (log : Key) : ℕ∞ :=
  match editCutAt v chain id permission log with
  | some length => length
  | none => if can v chain id permission then ⊤ else 0

def isCut (chain : List Key) (id log : Key) : Bool := (cutAt v chain id log).isSome

/-- Must this log of `id` carry its admission code? Yes for someone cut before, in a log no
cut names; not for a public scope's fallback members.
-/
def mustAdmit (chain : List Key) (id log : Key) : Bool :=
  if (member v chain id).isNone && pub v chain then false
  else (cut v chain id).isSome && !isCut v chain id log

def admission (chain : List Key) (id : Key) : Option Key := admits v chain id

/-- May this identity's devices write decisions? -/
def writes (chain : List Key) (id : Key) : Bool :=
  can v chain id "decide" || can v chain id "moderate"

end State

/-- Looking a log up in the lower of two objects. -/
@[simp]
theorem lookup_lowest (a b : Lengths) (log : Key)
    : (lowest a b).lookup log
      = (b.lookup log).elim (a.lookup log)
          (fun length => some ((a.lookup log).elim length (min length))) := by
  have mapped (b : Lengths)
      : (b.map fun (log, length) => (log, (a.lookup log).elim length (min length))).lookup log
        = (b.lookup log).map (fun length => (a.lookup log).elim length (min length)) := by
    induction b with
    | nil => rfl
    | cons entry rest ih =>
        obtain ⟨key, length⟩ := entry
        by_cases same : log = key
        · subst same
          simp
        · have different : (log == key) = false := by simpa using same
          simp [List.lookup_cons, different, ih]
  rw [lowest, lookup_spread, mapped]
  cases b.lookup log <;> simp

end Hypergraph.Decisions
