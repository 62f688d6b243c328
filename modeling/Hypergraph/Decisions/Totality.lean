import Hypergraph.Decisions.Ideal

/-! When the log is applied to its end: when no node of it throws at its point. -/

namespace Hypergraph.Decisions

open Wire Js Encodings Invites

/-- No node throws at the view the nodes before it lead to. -/
def Harmless (env : Env) (v : View) (nodes : List Node) : Prop :=
  EachNode env (fun w node => nodeThrows env w node = false) v nodes

/-- The log is applied to its end just when each node is harmless at its point; induction on
the nodes, each step by what its branch and its listing do.
-/
theorem applyNodes_ends_harmless {env : Env} {v : View} (reached : Reachable env v)
    (nodes : List Node)
    : Ends (applyNodes env nodes v) ↔ Harmless env v nodes := by
  have sound := reached.sound
  clear reached
  induction nodes generalizing v with
  | nil =>
      refine ⟨fun _ before node after w split _ => ?_, fun _ => ⟨v, rfl⟩⟩
      exact absurd split.symm (by simp)
  | cons node rest ih =>
      rw [applyNodes_cons]
      cases throws : nodeThrows env v node with
      | true =>
          obtain ⟨thrown, same⟩ := (applyNode_ends env sound node).1 throws
          rw [same]
          refine iff_of_false (not_ends_error thrown) fun harmless => ?_
          have quiet : nodeThrows env v node = false := harmless [] node rest v rfl rfl
          rw [throws] at quiet
          cases quiet
      | false =>
          obtain ⟨w, same, step⟩ := (applyNode_ends env sound node).2 throws
          rw [Harmless, eachNode_cons same, same, ok_bind]
          exact (ih (step.sound sound)).trans (by simp [throws, Harmless])

-- With a package that reads no buffer as `null`

section Filled

variable {c : Primitives} {env : Env} {v : View} {x : Context}

/-- No buffer is read as `null`: an empty one is an empty buffer. -/
def Filled (c : Primitives) : Prop := c.buffer.Yields fun buffer => buffer.isSome

/-- The fields that a branch or the listing uses as bytes are there. -/
def bodyFilled : Body → Prop
  | .moderate d => d.target.isSome
  | .deviceRemove d => d.cut.isSome
  | _ => True

theorem decodeBody_filled (filled : Filled c) {type : Nat} {bytes rest : Bytes} {body : Body}
    (read : decodeBody c type bytes = some (body, rest))
    : bodyFilled body := by
  have moderated : (moderate c).Yields (·.target.isSome) :=
    ((Codec.yields_true _).pair (Codec.Yields.pair filled (Codec.yields_true _))).iso
      fun _ has => has.2.1
  have removed : (deviceRemove c).Yields (·.cut.isSome) :=
    ((Codec.yields_true _).pair (Codec.Yields.pair filled (Codec.yields_true _))).iso
      fun _ has => has.2.1
  unfold decodeBody at read
  split at read
  all_goals
    first
    | cases read
    | obtain ⟨⟨d, left⟩, decoded, same⟩ := Option.map_eq_some_iff.mp read
      cases same
      first
      | trivial
      | exact moderated _ _ _ decoded
      | exact removed _ _ _ decoded

theorem invite_identified (filled : Filled c) : (invite c).Yields (·.id.isSome) :=
  (((Codec.yields_true _).pair (Codec.Yields.pair filled (Codec.yields_true _))).pair
    (Codec.yields_true _)).iso fun _ has => has.1.2.1

theorem redemption_identified (filled : Filled c) : (redemption c).Yields (·.invite.id.isSome) :=
  ((invite_identified filled).pair (Codec.yields_true _)).iso fun _ has => has.1

/-- Would a branch throw by a role named like a property of `Object.prototype`? -/
def roleThrows (env : Env) (v : View) (x : Context) : Body → Bool
  | .roleSet d => roleSetThrows v x d
  | .inviteRedeem redemption => holds x.authorRole "decide" v.custom
      && (readBuffer (Encodings.redemption env.c) redemption).any fun r =>
        r.invite.id.any (redeemRoleThrows env v x r)
  | _ => false

theorem bodyThrows_filled (filled : Filled env.c) {body : Body} (held : bodyFilled body)
    : bodyThrows env v x body = roleThrows env v x body := by
  cases body with
  | moderate d =>
      obtain ⟨target, found⟩ := Option.isSome_iff_exists.mp held
      simp [bodyThrows, roleThrows, found]
  | deviceRemove d =>
      obtain ⟨cut, found⟩ := Option.isSome_iff_exists.mp held
      simp [bodyThrows, roleThrows, deviceThrows, found]
  | inviteRevoke buffer =>
      cases found : revocable env v x buffer with
      | none => simp [bodyThrows, roleThrows, revokeThrows, found]
      | some inv =>
          have read := found
          simp only [revocable, Option.bind_eq_bind, Option.bind_eq_some_iff, readBuffer] at read
          obtain ⟨told, ⟨bytes, _, decoded⟩, same⟩ := read
          split at same
          · cases same
            obtain ⟨id, named⟩ :=
              Option.isSome_iff_exists.mp ((invite_identified filled).of_read decoded)
            simp [bodyThrows, roleThrows, revokeThrows, found, named]
          · cases same
  | inviteRedeem buffer =>
      simp only [bodyThrows, roleThrows, redeemThrows]
      cases found : readBuffer (Encodings.redemption env.c) buffer with
      | none => rfl
      | some r =>
          obtain ⟨bytes, _, decoded⟩ := Option.bind_eq_some_iff.mp found
          obtain ⟨id, named⟩ :=
            Option.isSome_iff_exists.mp ((redemption_identified filled).of_read decoded)
          simp [named]
  | _ => rfl

/-- Would a node throw, by a role named like a property of `Object.prototype`? -/
def nodeRoleThrows (env : Env) (v : View) (node : Node) : Bool :=
  (readNode env.c node.value).any fun d =>
    (v.writer node.from_).any fun writer =>
      (chainHere v d).any fun chain =>
        roleThrows env v (contextAt v chain writer d.decision.stamp (env.codeOf node))
          d.decision.body

theorem nodeThrows_filled (filled : Filled env.c) (node : Node)
    : nodeThrows env v node = nodeRoleThrows env v node := by
  unfold nodeThrows nodeRoleThrows applyThrows
  cases reads : readNode env.c node.value with
  | none => rfl
  | some d =>
      obtain ⟨type, bytes, rest, read⟩ := readNode_body reads
      have held := decodeBody_filled filled read
      have shown : shownThrows d.decision.body = false := by
        cases body : d.decision.body with
        | moderate told =>
            rw [body] at held
            obtain ⟨target, found⟩ := Option.isSome_iff_exists.mp held
            simp [shownThrows, found]
        | _ => rfl
      simp only [Option.any_some, shown, Bool.or_false, bodyThrows_filled filled held]

/-- With such a package the log is applied to its end just when no node at its point gives a role
named like a property of `Object.prototype`, or redeems an invite to one, where that is looked at.
-/
theorem applyNodes_ends_iff (filled : Filled env.c) (reached : Reachable env v)
    (nodes : List Node)
    : Ends (applyNodes env nodes v)
      ↔ EachNode env (fun w node => nodeRoleThrows env w node = false) v nodes := by
  simp only [applyNodes_ends_harmless reached, Harmless, nodeThrows_filled filled]

end Filled

theorem filled_compact : Filled compact := by
  intro bytes buffer rest read
  simp only [compact, compactBuffer, Option.bind_eq_bind, Option.bind_eq_some_iff] at read
  obtain ⟨_, _, ⟨value, _⟩, _, same⟩ := read
  cases same
  split <;> rfl

def ownerBegins : Node := sent (keyOf 1) 1 (initial (keyOf 1) (keyOf 10) (keyOf 11))

/-- A ban with an empty target. -/
def nobodyBanned : Node := sent (keyOf 1) 2 (.moderate ⟨"ban", some [], "", [], none⟩)

/-- Witness: the owner begins the space, and their ban of nobody is passed over. -/
theorem applyNodes_ends_begin
    : Ends (applyNodes (idealEnv (keyOf 1)) [ownerBegins, nobodyBanned] View.empty) := by
  refine (applyNodes_ends_iff filled_compact ⟨[], rfl⟩ _).mpr fun before node after w split came => ?_
  rcases before with - | ⟨first, - | ⟨second, before⟩⟩
  · cases split
    cases came
    decide +kernel
  · cases split
    have quiet : (applyNodes (idealEnv (keyOf 1)) [ownerBegins] View.empty).toOption.all (fun w =>
          !nodeRoleThrows (idealEnv (keyOf 1)) w nobodyBanned) = true := by
      decide +kernel
    rw [came] at quiet
    simpa [Except.toOption] using quiet
  · simp at split

/-- The owner gives someone a role named `constructor`. -/
theorem applyNodes_throws
    : Reachable (idealEnv (keyOf 1)) View.empty
      ∧ ¬Ends (applyNodes (idealEnv (keyOf 1))
          [ownerBegins, sent (keyOf 1) 2 (.roleSet ⟨keyOf 20, "constructor", []⟩)] View.empty) := by
  refine ⟨⟨[], rfl⟩, ?_⟩
  rintro ⟨w, ran⟩
  have fails : (applyNodes (idealEnv (keyOf 1))
      [ownerBegins, sent (keyOf 1) 2 (.roleSet ⟨keyOf 20, "constructor", []⟩)] View.empty).toOption.isSome
        = false := by
    decide +kernel
  rw [ran] at fails
  cases fails

end Hypergraph.Decisions
