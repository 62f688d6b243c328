import Hypergraph.Decisions.Ledger

/-! What the log notes down beside rights and keys: moderation, invites, the keys of private
scopes, types and listed logs. A decision of one kind writes one of these, every other leaves
them all.
-/

namespace Hypergraph.Decisions

open Wire Js Encodings Invites

-- What each kind notes

/-- The keys of a private scope after a rotation, if it is noted: the next key, or another one
for an epoch there is a key for already.
-/
def nextEpochs (epochs : Epochs) (d : KeyRotate) : Option Epochs :=
  if (d.epoch : Int) = epochs.current + 1 then
    some { epochs with current := d.epoch, commits := (d.epoch, d.commit) :: epochs.commits }
  else if (d.epoch : Int) ≤ epochs.current && epochs.commits.lookup d.epoch ≠ some d.commit
      && (epochs.others.lookup d.commit).getD 0 = 0 then
    some { epochs with others := (d.commit, d.epoch) :: epochs.others }
  else none

/-- Is the scope private? -/
def View.privateAt (v : View) : Scope → Bool
  | none => (v.metaOf none).any Meta.priv
  | some s => State.priv v s

/-- The text recorded for the next types, checked against the latest version's if there is one. -/
def nextTypes (env : Env) (v : View) (types : String) : Option String :=
  if v.types.getD 0 = 0 then env.declared types none
  else (v.typesAt (v.types.getD 0)).bind fun current => env.declared types (some current)

/-- What a decision that counts notes down, by its kind. -/
inductive Noted (env : Env) (x : Context) (v : View) : Body → View → Prop
  | moderated (d : Moderate) (target : Key) (entry : Moderation)
    : Noted env x v (.moderate d) (v.setMod x.scope target (some entry))
  | redeemed (redemption : Buffer) (r : Redemption) (device inviteId : Key)
      (found : accepted env v x redemption = some (r, device, inviteId))
    : Noted env x v (.inviteRedeem redemption)
        ((v.setRedeemed x.scope r.identity inviteId (some ⟨x.stamp, x.author⟩)).setUses x.scope
          inviteId (some ((v.uses x.scope inviteId).getD 0 + 1)))
  | revoked (invite : Buffer) (inv : Invite) (inviteId : Key)
      (found : revocable env v x invite = some inv) (named : inv.id = some inviteId)
      (fresh : v.revoked x.scope inviteId = none)
    : Noted env x v (.inviteRevoke invite)
        (v.setRevoked x.scope inviteId (some ⟨x.author, x.stamp⟩))
  | typed (d : TypesSet) (next : d.version = v.types.getD 0 + 1) (text : String)
      (declared : nextTypes env v d.types = some text)
    : Noted env x v (.typesSet d) ((v.setTypesAt d.version (some text)).setTypes (some d.version))
  | listed (logs : List ListedLog) (held : Key → Option Key)
    : Noted env x v (.logsList logs) { v with listed := held }
  | rotated (d : KeyRotate) (decides : decides x.authorRole v.custom = true)
      (priv : v.privateAt x.scope = true) (next : Epochs)
      (rotates : nextEpochs ((v.epochs x.scope).getD {}) d = some next)
    : Noted env x v (.keyRotate d) (v.setEpochs x.scope (some next))

section Kinds

variable {env : Env} {x : Context} {v w : Counting}

theorem applyRecordAction_noted (d : Moderate)
    : applyRecordAction env x d v = v
      ∨ ∃ target entry, applyRecordAction env x d v
        = v.write (·.setMod x.scope target (some entry)) := by
  unfold applyRecordAction
  split
  · exact .inl rfl
  · rename_i target _
    split
    · exact .inl rfl
    · dsimp only
      split
      · exact .inl rfl
      · exact .inr ⟨target, _, rfl⟩

theorem applyTypes_noted (sound : v.view.Sound) (fits : x.Fits v.view) {d : TypesSet}
    (ran : applyTypes env x d v = .ok w)
    : w = v ∨ d.version = v.view.types.getD 0 + 1 ∧ ∃ text,
        nextTypes env v.view d.types = some text
        ∧ w = (v.write (·.setTypesAt d.version (some text))).write (·.setTypes (some d.version)) := by
  unfold applyTypes at ran
  simp only [fits.can sound, ok_bind, pure_eq_ok] at ran
  cases sub : x.scope.isSome with
  | true =>
      simp only [sub, if_true, Except.ok.injEq] at ran
      exact .inl ran.symm
  | false =>
  cases writes : holds x.authorRole "decide" v.view.custom with
  | false =>
      simp only [sub, writes, Bool.false_eq_true, if_false, Bool.not_false, if_true,
        Except.ok.injEq] at ran
      exact .inl ran.symm
  | true =>
      simp only [sub, writes, Bool.false_eq_true, if_false, Bool.not_true] at ran
      split at ran
      · exact .inl (Except.ok.inj ran).symm
      · split at ran
        · exact .inl (Except.ok.inj ran).symm
        · rename_i next
          split at ran
          · exact .inl (Except.ok.inj ran).symm
          · rename_i text declared
            exact .inr ⟨not_not.mp next, text, declared, (Except.ok.inj ran).symm⟩

theorem applyLogsList_noted (sound : v.view.Sound) (fits : x.Fits v.view)
    {logs : List ListedLog} (ran : applyLogsList x logs v = .ok w)
    : w = v ∨ v.writes < w.writes ∧ ∃ held, w.view = { v.view with listed := held } := by
  unfold applyLogsList at ran
  simp only [fits.mayWrite sound, ok_bind, pure_eq_ok] at ran
  cases sub : x.scope.isSome with
  | true =>
      simp only [sub, if_true, Except.ok.injEq] at ran
      exact .inl ran.symm
  | false =>
  cases writes : decides x.authorRole v.view.custom with
  | false =>
      simp only [sub, writes, Bool.false_eq_true, if_false, Bool.not_false, if_true,
        Except.ok.injEq] at ran
      exact .inl ran.symm
  | true =>
      simp only [sub, writes, Bool.false_eq_true, if_false, Bool.not_true,
        Except.ok.injEq] at ran
      subst ran
      refine foldl_keeps (fun u : Counting => u = v ∨ v.writes < u.writes
        ∧ ∃ held, u.view = { v.view with listed := held }) _ (fun u entry so => ?_) _ v (.inl rfl)
      split
      · exact so
      · rcases so with rfl | ⟨more, held, same⟩
        · exact .inr ⟨Nat.lt_succ_self _, _, rfl⟩
        · refine .inr ⟨Nat.lt_succ_of_lt more,
            (u.view.setListed entry.log (some entry.space)).listed, ?_⟩
          simp only [Counting.write_view, View.setListed]
          rw [same]

theorem applyKeyRotate_noted (sound : v.view.Sound) (fits : x.Fits v.view) {d : KeyRotate}
    (ran : applyKeyRotate x d v = .ok w)
    : w = v ∨ decides x.authorRole v.view.custom = true ∧ v.view.privateAt x.scope = true
      ∧ ∃ next, nextEpochs ((v.view.epochs x.scope).getD {}) d = some next
        ∧ w = v.write (·.setEpochs x.scope (some next)) := by
  have last {priv : Bool} (is : priv = v.view.privateAt x.scope)
      (ended : (if (!priv) = true then Except.ok v
        else match nextEpochs ((v.view.epochs x.scope).getD {}) d with
          | some next => .ok (v.write (·.setEpochs x.scope (some next)))
          | none => .ok v : Run Counting) = .ok w)
      : w = v ∨ v.view.privateAt x.scope = true
        ∧ ∃ next, nextEpochs ((v.view.epochs x.scope).getD {}) d = some next
          ∧ w = v.write (·.setEpochs x.scope (some next)) := by
    rw [← is]
    cases priv with
    | false => exact .inl (Except.ok.inj ended).symm
    | true =>
        simp only [Bool.not_true, Bool.false_eq_true, if_false] at ended
        split at ended
        · rename_i next found
          exact .inr ⟨rfl, next, found, (Except.ok.inj ended).symm⟩
        · exact .inl (Except.ok.inj ended).symm
  have same (priv : Bool) : (if (!priv) = true then Except.ok v
        else if (d.epoch : Int) = ((v.view.epochs x.scope).getD {}).current + 1 then
          .ok (v.write (·.setEpochs x.scope (some { (v.view.epochs x.scope).getD {} with
            current := d.epoch
            commits := (d.epoch, d.commit) :: ((v.view.epochs x.scope).getD {}).commits })))
        else if (d.epoch : Int) ≤ ((v.view.epochs x.scope).getD {}).current
            && ((v.view.epochs x.scope).getD {}).commits.lookup d.epoch ≠ some d.commit
            && (((v.view.epochs x.scope).getD {}).others.lookup d.commit).getD 0 = 0 then
          .ok (v.write (·.setEpochs x.scope (some { (v.view.epochs x.scope).getD {} with
            others := (d.commit, d.epoch) :: ((v.view.epochs x.scope).getD {}).others })))
        else .ok v : Run Counting)
      = (if (!priv) = true then Except.ok v
        else match nextEpochs ((v.view.epochs x.scope).getD {}) d with
          | some next => .ok (v.write (·.setEpochs x.scope (some next)))
          | none => .ok v : Run Counting) := by
    unfold nextEpochs
    cases priv with
    | false => rfl
    | true =>
        simp only [Bool.not_true, Bool.false_eq_true, if_false]
        split
        · rfl
        · split <;> rfl
  unfold applyKeyRotate at ran
  simp only [fits.mayWrite sound, ok_bind, pure_eq_ok] at ran
  cases writes : decides x.authorRole v.view.custom with
  | false =>
      simp only [writes, Bool.not_false, if_true, Except.ok.injEq] at ran
      exact .inl ran.symm
  | true =>
      refine Or.imp_right (fun rotated => ⟨rfl, rotated⟩) ?_
      simp only [writes, Bool.not_true, Bool.false_eq_true, if_false] at ran
      cases scope : x.scope with
      | none =>
          rw [scope] at ran
          cases entry : v.view.metaOf none with
          | none => simp [entry] at ran
          | some info =>
              simp only [entry] at ran
              rw [← scope] at ran ⊢
              refine @last info.priv ?_ ((same info.priv).symm.trans ran)
              rw [scope]
              simp [View.privateAt, entry]
      | some s =>
          rw [scope] at ran
          cases entry : v.view.subspace s with
          | none => simp [entry] at ran
          | some info =>
              simp only [entry] at ran
              rw [← scope] at ran ⊢
              refine @last info.priv ?_ ((same info.priv).symm.trans ran)
              rw [scope]
              simp [View.privateAt, State.priv, entry]

end Kinds

-- One decision, one node

section Steps

variable {env : Env} {v : View}

/-- A decision leaves the notes alone, or is one of the kinds that note something. -/
theorem Outcome.noted {x : Context} {body : Body} {w : Counting}
    (outcome : Outcome env x { view := v } body w) (sound : v.Sound) (fits : x.Fits v)
    (ran : applyBody env x body { view := v } = .ok w)
    : SameNotes v w.view
      ∨ 0 < w.writes ∧ ∃ u, Noted env x v body u ∧ SameNotes u w.view := by
  have written {u : View} (noted : Noted env x v body u) (counted : 0 < w.writes)
      (same : w.view = u)
      : SameNotes v w.view ∨ 0 < w.writes ∧ ∃ u, Noted env x v body u ∧ SameNotes u w.view :=
    .inr ⟨counted, u, noted, same ▸ .refl u⟩
  cases outcome with
  | skipped => exact .inl (.refl v)
  | memberAdd id top decides absent free =>
      exact .inl ((SameNotes.setMember _ _ _).trans (.onlyCuts (memberAdd_shape x _ id)))
  | memberRemove d present removes own =>
      obtain ⟨u, cuts, same⟩ := memberRemove_shape env x { view := v } sound.tree d
      have gone : SameNotes v ((v.setMember x.scope d.identity none).dropped x.scope d.identity) :=
        ⟨⟨rfl, rfl, rfl⟩, rfl, rfl, rfl, rfl, rfl⟩
      rw [same]
      exact .inl ((gone.trans (.onlyCuts cuts)).trans (.onlyWriters (settle_frame env u _)))
  | roleDefine d defines => exact .inl ⟨⟨rfl, rfl, rfl⟩, rfl, rfl, rfl, rfl, rfl⟩
  | roleSet d plain free assigned =>
      obtain ⟨u, writer, device, cuts, same⟩ := roleSet_shape env x { view := v } d
      rw [same]
      exact .inl ((((SameNotes.setMember _ _ _).trans (.onlyCuts cuts)).trans
        (.onlyWriters (addMemberKey_frame _ _ _ _))).trans (.onlyWriters (settle_frame env _ _)))
  | ban d id action target moderates bans =>
      obtain ⟨u, cuts, same⟩ := ban_shape env x { view := v } id d
      have out : SameNotes v (Effect.banned x id (Effect.banOf x d) v) := by
        unfold Effect.banned
        split <;> exact ⟨⟨rfl, rfl, rfl⟩, rfl, rfl, rfl, rfl, rfl⟩
      rw [same]
      exact .inl ((out.trans (.onlyCuts cuts)).trans (.onlyWriters (settle_frame env u _)))
  | dropAll d id action target banned all =>
      exact .inl (.onlyCuts (dropAll_frame { view := v } x.scope id d.cut x.stamp))
  | unban d id action target banned => exact .inl ⟨⟨rfl, rfl, rfl⟩, rfl, rfl, rfl, rfl, rfl⟩
  | redeem redemption r device inviteId found still =>
      exact .inr ⟨Nat.succ_pos _, _, .redeemed redemption r device inviteId found,
        redeem_notes env (v := { view := v }) r device inviteId⟩
  | revoke invite inv inviteId found named fresh =>
      exact written (.revoked invite inv inviteId found named fresh) Nat.one_pos rfl
  | writerAdd d info top writes =>
      have added : SameNotes v (addKey { view := v } info.identity d.key (some info.device)).2.view :=
        .onlyWriters (addKey_frame _ _ _ _)
      unfold Effect.writerAdd
      split
      · exact .inl (added.trans (.onlyWriters (settle_frame env _ _)))
      · exact .inl (.refl v)
  | settings d next w kept same =>
      rw [same]
      exact .inl ⟨⟨rfl, rfl, rfl⟩, rfl, rfl, rfl, rfl, rfl⟩
  | subspaceCreate d decides new w same =>
      rw [same]
      exact .inl ⟨⟨rfl, rfl, rfl⟩, rfl, rfl, rfl, rfl, rfl⟩
  | deviceRemove d id top =>
      have gone : SameNotes v (v.setGone id d.device (some ⟨x.author, x.stamp⟩)) :=
        ⟨⟨rfl, rfl, rfl⟩, rfl, rfl, rfl, rfl, rfl⟩
      rw [deviceRemove_view]
      exact .inl ((gone.trans (.onlyWriters (deviceGone_frame (x := x) (v := { view := v }) id
        d.device))).trans (.onlyWriters (settle_frame env _ _)))
  | notes body w kind frame =>
      cases body with
      | moderate d =>
          have equation := applyModerate_eq env (v := { view := v }) sound fits d
          simp only [noteKind, Bool.and_eq_true, decide_eq_true_eq] at kind
          simp only [applyBody, equation, kind.1, kind.2, if_false] at ran
          split at ran
          · rcases @applyRecordAction_noted env x { view := v } d with
              same | ⟨target, entry, same⟩
            · cases (Except.ok.inj ran).symm.trans same
              exact .inl (.refl v)
            · cases (Except.ok.inj ran).symm.trans same
              exact written (.moderated d target entry) Nat.one_pos rfl
          · cases Except.ok.inj ran
            exact .inl (.refl v)
      | typesSet d =>
          rcases applyTypes_noted (v := { view := v }) sound fits ran with rfl | ⟨next, text, declared, rfl⟩
          · exact .inl (.refl v)
          · exact written (.typed d next text declared) Nat.two_pos rfl
      | logsList logs =>
          rcases applyLogsList_noted (v := { view := v }) sound fits ran with
            rfl | ⟨counted, held, same⟩
          · exact .inl (.refl v)
          · exact written (.listed logs held) counted same
      | keyRotate d =>
          rcases applyKeyRotate_noted (v := { view := v }) sound fits ran with
            rfl | ⟨decides, priv, next, rotates, rfl⟩
          · exact .inl (.refl v)
          · exact written (.rotated d decides priv next rotates) Nat.one_pos rfl
      | _ => cases kind

/-- What a writer's decision came to is what the branch of its kind did. -/
theorem applyBody_of_came {node : Node} {d : Incoming} {applied : Counting} {writer : Writer}
    {chain : List Key} (sound : v.Sound) (came : applyIncoming env v node d = .ok applied)
    (other : ∀ init, d.decision.body ≠ .spaceInit init)
    (known : v.writer node.from_ = some writer) (here : chainHere v d = some chain)
    : applyBody env (contextAt v chain writer d.decision.stamp (env.codeOf node))
        d.decision.body { view := v } = .ok applied := by
  have path := chainHere_path sound.tree here
  unfold applyIncoming at came
  rw [chainFor_eq sound.tree, ok_bind, here] at came
  simpa only [applyOne_eq other, known, contextOf_contextAt sound.topBan path, ok_bind] using came

/-- What a node notes down: nothing, or what its decision does, which counts then. -/
theorem NodeStep.noted {node : Node} {w : View} (step : NodeStep env v node w) (sound : v.Sound)
    : SameNotes v w ∨ ∃ d writer chain u, Counts env v node d
        ∧ v.writer node.from_ = some writer ∧ chainHere v d = some chain
        ∧ Noted env (contextAt v chain writer d.decision.stamp (env.codeOf node)) v
          d.decision.body u
        ∧ SameNotes u w := by
  cases step with
  | unread bad => exact .inl (.refl v)
  | read d reads applied came did w frame =>
      cases did with
      | skipped => exact .inl (.onlyListed frame)
      | begun init body info unbegun applied same =>
          have begins : SameNotes v (Effect.begin d.decision.stamp init node.from_ info v) :=
            ⟨⟨rfl, rfl, rfl⟩, rfl, rfl, rfl, rfl, rfl⟩
          exact .inl (begins.trans (same ▸ .onlyListed frame))
      | decided other writer known chain here applied outcome =>
          have fits := contextAt_fits (chainHere_path sound.tree here) writer d.decision.stamp
            (env.codeOf node)
          have ran := applyBody_of_came sound came other known here
          rcases outcome.noted sound fits ran with same | ⟨counted, u, noted, same⟩
          · exact .inl (same.trans (.onlyListed frame))
          · exact .inr ⟨d, writer, chain, u, ⟨reads, applied, came, counted⟩, known, here, noted,
              same.trans (.onlyListed frame)⟩

end Steps

end Hypergraph.Decisions
