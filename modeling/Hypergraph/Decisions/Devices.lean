import Hypergraph.Decisions.Bans

/-! A removed device writes no decisions again: whichever way a writer key enters the view,
`addKey` asks first whether its device was removed.
-/

namespace Hypergraph.Decisions

open Wire Js Encodings Invites

/-- No writer key is one of a removed device, and none was removed before the space began. -/
structure View.Barred (v : View) : Prop where
  keys : ∀ id device, (v.gone id device).isSome → ∀ key w, v.writer key = some w
    → w.identity = id → w.device ≠ some device
  blank : v.metaOf none = none → ∀ id device, v.gone id device = none

/-- The removals are the same, and each writer key is an old one or of no removed device. -/
structure KeysAsked (v w : View) : Prop where
  gone : w.gone = v.gone
  keys : ∀ key n, w.writer key = some n
    → (∃ m, v.writer key = some m ∧ m.identity = n.identity ∧ m.device = n.device)
      ∨ ∀ device, n.device = some device → v.gone n.identity device = none

section Asked

variable {u v w : View}

theorem keysAsked_of_same (gone : w.gone = v.gone) (writer : w.writer = v.writer)
    : KeysAsked v w :=
  ⟨gone, fun _ n found => .inl ⟨n, writer ▸ found, rfl, rfl⟩⟩

theorem KeysAsked.trans (first : KeysAsked u v) (second : KeysAsked v w) : KeysAsked u w where
  gone := second.gone.trans first.gone
  keys _ n found := by
    rcases second.keys _ n found with ⟨m, there, identity, device⟩ | free
    · rcases first.keys _ m there with ⟨l, before, identity', device'⟩ | free
      · exact .inl ⟨l, before, identity'.trans identity, device'.trans device⟩
      · rw [identity, device] at free
        exact .inr free
    · rw [first.gone] at free
      exact .inr free

theorem View.Barred.asked (barred : v.Barred) (asked : KeysAsked v w)
    (begun : (w.metaOf none).isSome)
    : w.Barred where
  keys id device gone key n found theirs named := by
    rw [asked.gone] at gone
    rcases asked.keys key n found with ⟨m, before, identity, same⟩ | free
    · exact barred.keys id device gone key m before (identity.trans theirs) (same.trans named)
    · rw [← theirs, free device named] at gone
      cases gone
  blank unbegun := by
    rw [unbegun] at begun
    cases begun

theorem View.Barred.same (barred : v.Barred) (gone : w.gone = v.gone)
    (writer : w.writer = v.writer) (metaOf : w.metaOf = v.metaOf)
    : w.Barred where
  keys := by
    rw [gone, writer]
    exact barred.keys
  blank := by
    rw [gone, metaOf]
    exact barred.blank

end Asked

-- Writer keys

section Writers

variable (env : Env) (v : Counting)

theorem addKey_asked (id key : Key) (device : Option Key)
    : KeysAsked v.view (addKey v id key device).2.view := by
  have same : KeysAsked v.view v.view := keysAsked_of_same rfl rfl
  unfold addKey
  split
  · exact same
  · split
    · exact same
    · rename_i free
      refine ⟨rfl, fun k n found => ?_⟩
      simp only [Counting.call_view, Counting.write_view, View.setWriters_writer,
        View.setWriter_writer] at found
      split at found
      · -- The key added is of a device that was asked for.
        cases found
        refine .inr fun named isNamed => ?_
        cases isNamed
        simpa using free
      · exact .inl ⟨n, found, rfl, rfl⟩

theorem forget_asked (id key : Key) : KeysAsked v.view (forget v id key).view := by
  refine ⟨rfl, fun k n found => ?_⟩
  rw [forget_writer] at found
  split at found
  · cases found
  · exact .inl ⟨n, found, rfl, rfl⟩

theorem forgetAll_asked (id : Key) : KeysAsked v.view (Effect.forgetAll env v id).view := by
  refine foldl_keeps (fun w : Counting => KeysAsked v.view w.view) _ (fun w key asked => ?_) _ v
    (keysAsked_of_same rfl rfl)
  rw [removeFromBase_view]
  exact asked.trans (forget_asked w id key)

theorem mark_asked (key : Key) (indexer : Bool)
    : KeysAsked v.view (Effect.mark v key indexer).view := by
  refine ⟨rfl, fun k n found => ?_⟩
  rw [mark_writer] at found
  split at found
  · rename_i same
    subst same
    obtain ⟨m, there, rfl⟩ := Option.map_eq_some_iff.mp found
    exact .inl ⟨m, there, rfl, rfl⟩
  · exact .inl ⟨n, found, rfl, rfl⟩

theorem settle_asked (id : Key) : KeysAsked v.view (Effect.settle env v id).view := by
  have same : KeysAsked v.view v.view := keysAsked_of_same rfl rfl
  unfold Effect.settle
  split
  · exact forgetAll_asked env v id
  · split
    · split
      · exact mark_asked v _ true
      · exact same
    · split
      · exact same
      · dsimp only
        split <;> exact mark_asked v _ false

theorem addMemberKey_asked (id : Key) (role : String) (writer device : Option Key)
    : KeysAsked v.view (Effect.addMemberKey v id role writer device).view := by
  unfold Effect.addMemberKey
  split
  · exact keysAsked_of_same rfl rfl
  · split
    · exact addKey_asked v id _ device
    · exact keysAsked_of_same rfl rfl

end Writers

-- One decision

section Decision

variable {env : Env} {x : Context} {v w : Counting} {body : Body}

theorem KeysAsked.onlyCuts {u u' : View} (frame : u.OnlyCuts u') : KeysAsked u u' := by
  rw [frame]
  exact keysAsked_of_same rfl rfl

theorem admit_asked (v : Counting) (scope : Scope) (id : Key) (role : String)
    (code : Option Key)
    : KeysAsked v.view (Effect.admitBack v scope id role code).view :=
  .onlyCuts (admit_frame v scope id role code)

theorem arrive_asked (r : Redemption) (device : Key) (v : Counting)
    : KeysAsked v.view (Effect.arrive x r device v).view := by
  have given : KeysAsked v.view (v.write (·.setMember x.scope r.identity (some
      ⟨r.invite.role, r.invite.maker, x.stamp, some r.writer, some device⟩))).view :=
    keysAsked_of_same rfl rfl
  exact (given.trans (admit_asked _ _ _ _ _)).trans (addMemberKey_asked _ _ _ _ _)

theorem route_asked (inv : Invite) (id : Key) (custom : Custom) (v : Counting) (key : Key)
    : KeysAsked v.view (Effect.route x inv id custom v key).view := by
  have same : KeysAsked v.view v.view := keysAsked_of_same rfl rfl
  unfold Effect.route
  split
  · exact same
  · split
    · exact same
    · split
      · exact same
      · split
        · exact same
        · exact KeysAsked.trans (v := (v.write _).view) (keysAsked_of_same rfl rfl)
            (admit_asked _ _ _ _ _)

theorem redeem_asked (r : Redemption) (device inviteId : Key) (v : Counting)
    : KeysAsked v.view (Effect.redeem env x r device inviteId v).view := by
  have entered : KeysAsked v.view (Effect.enter env x r device v).1.view := by
    unfold Effect.enter
    split
    · exact (arrive_asked r device v).trans (settle_asked env _ r.identity)
    · exact keysAsked_of_same rfl rfl
  have routed := foldl_keeps (fun w : Counting => KeysAsked v.view w.view)
    (Effect.route x r.invite r.identity (Effect.enter env x r device v).2)
    (fun w key asked => asked.trans (route_asked _ _ _ w key)) r.invite.subspaces _ entered
  exact ⟨routed.gone, routed.keys⟩

theorem writerAdd_asked (info : Attested) (key : Key) (v : Counting)
    : KeysAsked v.view (Effect.writerAdd env info key v).view := by
  unfold Effect.writerAdd
  split
  · exact (addKey_asked v _ key _).trans (settle_asked env _ info.identity)
  · exact keysAsked_of_same rfl rfl

/-- Every decision but a device's removal asks before it gives a writer key. -/
theorem Outcome.asked (outcome : Outcome env x v body w) (sound : v.view.Sound)
    (other : ∀ d, body ≠ .deviceRemove d)
    : KeysAsked v.view w.view := by
  cases outcome with
  | memberAdd id =>
      have given : KeysAsked v.view (v.view.setMember none id
          (some { role := "member", by_ := x.author, stamp := x.stamp })) :=
        keysAsked_of_same rfl rfl
      exact given.trans (.onlyCuts (memberAdd_shape x v id))
  | memberRemove d =>
      obtain ⟨u, cuts, same⟩ := memberRemove_shape env x v sound.tree d
      have dropped : KeysAsked v.view ((v.view.setMember x.scope d.identity none).dropped x.scope
          d.identity) :=
        keysAsked_of_same rfl rfl
      rw [same]
      exact (dropped.trans (.onlyCuts cuts)).trans (settle_asked env u d.identity)
  | roleSet d =>
      obtain ⟨u, writer, device, cuts, same⟩ := roleSet_shape env x v d
      have given : KeysAsked v.view (v.view.setMember x.scope d.identity
          (some (Effect.nextMember x d v.view))) :=
        keysAsked_of_same rfl rfl
      rw [same]
      exact ((given.trans (.onlyCuts cuts)).trans
        (addMemberKey_asked u d.identity d.role writer device)).trans
        (settle_asked env _ d.identity)
  | ban d id =>
      obtain ⟨u, cuts, same⟩ := ban_shape env x v id d
      have banned : KeysAsked v.view (Effect.banned x id (Effect.banOf x d) v.view) := by
        unfold Effect.banned
        split <;> exact keysAsked_of_same rfl rfl
      rw [same]
      exact (banned.trans (.onlyCuts cuts)).trans (settle_asked env u id)
  | dropAll d id => exact .onlyCuts (dropAll_frame v x.scope id d.cut x.stamp)
  | redeem redemption r device inviteId => exact redeem_asked r device inviteId v
  | writerAdd d info => exact writerAdd_asked info d.key v
  | settings d next w kept same =>
      rw [same]
      exact keysAsked_of_same rfl rfl
  | subspaceCreate d decides new w same =>
      rw [same]
      exact keysAsked_of_same rfl rfl
  | deviceRemove d id => exact absurd rfl (other d)
  | notes body w kind frame =>
      rw [frame]
      exact keysAsked_of_same rfl rfl
  | _ => exact keysAsked_of_same rfl rfl

/-- A device removed leaves no writer key of its own. -/
theorem View.Barred.deviceRemove (barred : v.view.Barred) (sound : v.view.Sound)
    (begun : (v.view.metaOf none).isSome) (id device : Key)
    : (Effect.deviceRemove env x id device v).view.Barred := by
  obtain ⟨_, writer, _, _⟩ := deviceGone_spec (x := x) sound.keys id device
  have frame := deviceGone_frame (x := x) (v := v) id device
  have still : ((Effect.deviceGone x id device v).view.metaOf none).isSome := by
    rw [frame]
    exact begun
  have gone : (Effect.deviceGone x id device v).view.gone
      = (v.view.setGone id device (some ⟨x.author, x.stamp⟩)).gone := by
    rw [frame]
  have forgot : (Effect.deviceGone x id device v).view.Barred := by
    constructor
    · intro i k out key n found theirs isNamed
      rw [writer] at found
      split at found
      · cases found
      · rename_i kept
        rw [gone, View.setGone_gone] at out
        split at out
        · rename_i here
          obtain ⟨rfl, rfl⟩ := here
          refine kept (List.mem_filter.mpr ⟨theirs ▸ sound.keys.listed found, ?_⟩)
          simp [found, isNamed]
        · exact barred.keys i k out key n found theirs isNamed
    · intro unbegun
      rw [unbegun] at still
      cases still
  rw [deviceRemove_view]
  exact forgot.asked (settle_asked env _ id) ((settle_frame env _ id).begun still)

theorem Outcome.barred (outcome : Outcome env x v body w) (sound : v.view.Sound)
    (fits : x.Fits v.view) (begun : (v.view.metaOf none).isSome) (barred : v.view.Barred)
    : w.view.Barred := by
  by_cases removal : ∃ d, body = .deviceRemove d
  · obtain ⟨d, rfl⟩ := removal
    cases outcome with
    | skipped => exact barred
    | deviceRemove d id => exact barred.deviceRemove sound begun id d.device
    | notes body w kind => simp [noteKind] at kind
  · exact barred.asked (outcome.asked sound fun d same => removal ⟨d, same⟩)
      (outcome.begun sound fits begun)

end Decision

theorem NodeStep.barred {env : Env} {v w : View} {node : Node} (step : NodeStep env v node w)
    (sound : v.Sound) (barred : v.Barred)
    : w.Barred := by
  cases step with
  | unread bad => exact barred
  | read d reads applied came did w frame =>
      refine View.Barred.same (v := applied.view) ?_ (by rw [frame]) (by rw [frame])
        (by rw [frame])
      cases did with
      | skipped => exact barred
      | begun init body info unbegun w same =>
          rw [same]
          constructor
          · intro id device gone
            have none : v.gone id device = none := barred.blank unbegun id device
            change (v.gone id device).isSome at gone
            rw [none] at gone
            cases gone
          · simp [Effect.begin]
      | decided other writer known chain here w outcome =>
          exact outcome.barred (v := { view := v }) sound
            (contextAt_fits (chainHere_path sound.tree here) _ _ _)
            (sound.begun_of_writer known) barred

/-- A removed device's keys are gone from every view. -/
theorem Reachable.barred {env : Env} {v : View} (reached : Reachable env v) : v.Barred := by
  obtain ⟨nodes, ran⟩ := reached
  refine (applyNodes_keeps View.Barred (fun v node w sound barred step =>
    step.barred sound barred) .empty ⟨?_, fun _ _ _ => rfl⟩ ran).2
  intro id device gone
  simp [View.empty] at gone

-- Removed for good

/-- A removal stays noted. -/
theorem Outcome.gone {env : Env} {x : Context} {v w : Counting} {body : Body}
    (outcome : Outcome env x v body w) (sound : v.view.Sound) {id device : Key}
    (gone : (v.view.gone id device).isSome)
    : (w.view.gone id device).isSome := by
  by_cases removal : ∃ d, body = .deviceRemove d
  · obtain ⟨d, rfl⟩ := removal
    cases outcome with
    | skipped => exact gone
    | deviceRemove d other =>
        rw [deviceRemove_view, settle_frame, deviceGone_frame]
        rw [View.setGone_gone]
        split
        · rfl
        · exact gone
    | notes body w kind => simp [noteKind] at kind
  · rw [(outcome.asked sound fun d same => removal ⟨d, same⟩).gone]
    exact gone

theorem NodeStep.gone {env : Env} {v w : View} {node : Node} (step : NodeStep env v node w)
    (sound : v.Sound) {id device : Key} (gone : (v.gone id device).isSome)
    : (w.gone id device).isSome := by
  cases step with
  | unread bad => exact gone
  | read d reads applied came did w frame =>
      rw [frame]
      cases did with
      | skipped => exact gone
      | begun init body info unbegun w same =>
          rw [same]
          exact gone
      | decided other writer known chain here w outcome =>
          exact outcome.gone (v := { view := v }) sound gone

/-- A removal that counts is one the identity itself signed, and is noted. -/
theorem Counts.removes {env : Env} {v w : View} {node : Node} {d : Incoming}
    (counts : Counts env v node d) (sound : v.Sound) (ran : applyNode env v node = .ok w)
    {removal : DeviceRemove} (body : d.decision.body = .deviceRemove removal)
    : ∃ cut info, removal.cut = some cut
        ∧ Identity.verify env.keys removal.proof
            (nsRemove ++ env.space ++ removal.device ++ cut) = some info
        ∧ (w.gone info.identity removal.device).isSome := by
  obtain ⟨applied, came, writes, did, frame⟩ := counts.listed sound ran
  cases did with
  | skipped => cases writes
  | begun init body' =>
      rw [body] at body'
      cases body'
  | decided other writer known chain here applied outcome =>
      have path := chainHere_path sound.tree here
      have fits := contextAt_fits path writer d.decision.stamp (env.codeOf node)
      have did : applyDeviceRemove env
          (contextAt v chain writer d.decision.stamp (env.codeOf node)) removal { view := v }
          = .ok applied := by
        unfold applyIncoming at came
        rw [chainFor_eq sound.tree, ok_bind, here] at came
        simpa only [applyOne, body, known, contextOf_contextAt sound.topBan path, ok_bind,
          applyBody] using came
      have unchanged (same : ({ view := v } : Counting) = applied) : False := by
        rw [← same] at writes
        exact Nat.lt_irrefl 0 writes
      cases named : removal.cut with
      | none =>
          rcases (applyDeviceRemove_ends env (v := { view := v }) sound fits removal) with
            ⟨throws, ends⟩
          cases scope : (contextAt v chain writer d.decision.stamp (env.codeOf node)).scope with
          | none =>
              obtain ⟨thrown, same⟩ := throws (by simp [deviceThrows, scope, named])
              rw [same] at did
              cases did
          | some s =>
              unfold applyDeviceRemove at did
              rw [scope] at did
              exact (unchanged (Except.ok.inj did)).elim
      | some cut =>
          rw [applyDeviceRemove_eq (v := { view := v }) sound fits removal named] at did
          cases proved : Identity.verify env.keys removal.proof
              (nsRemove ++ env.space ++ removal.device ++ cut) with
          | none =>
              rw [proved] at did
              exact (unchanged (Except.ok.inj did)).elim
          | some info =>
              rw [proved] at did
              dsimp only at did
              split at did
              · refine ⟨cut, info, rfl, proved, ?_⟩
                rw [frame, ← Except.ok.inj did]
                rw [deviceRemove_view, settle_frame, deviceGone_frame]
                simp
              · exact (unchanged (Except.ok.inj did)).elim

/-- Once someone's device was removed, no writer key is theirs from that device, whatever is
decided since.
-/
theorem removed_for_good {env : Env} {v u w : View} {node : Node} {d : Incoming}
    {removal : DeviceRemove} {nodes : List Node} (reached : Reachable env v)
    (counts : Counts env v node d) (body : d.decision.body = .deviceRemove removal)
    (removes : applyNode env v node = .ok u) (ran : applyNodes env nodes u = .ok w)
    : ∃ cut info, removal.cut = some cut
        ∧ Identity.verify env.keys removal.proof
            (nsRemove ++ env.space ++ removal.device ++ cut) = some info
        ∧ ∀ key n, w.writer key = some n
          → ¬(n.identity = info.identity ∧ n.device = some removal.device) := by
  obtain ⟨cut, info, named, proved, gone⟩ := counts.removes reached.sound removes body
  have start := reached.node removes
  obtain ⟨_, still⟩ := applyNodes_keeps (fun w => (w.gone info.identity removal.device).isSome)
    (fun v node w sound gone step => step.gone sound gone) start.sound gone ran
  refine ⟨cut, info, named, proved, fun key n found same => ?_⟩
  exact (start.later ran).barred.keys _ _ still key n found same.1 same.2

/-- A key that a device of the owner's claims. -/
def claim (key : Key) : Body :=
  .writerAdd { key := key, proof := attest (keyOf 10) (keyOf 12) (writerSignable key (keyOf 1)) }

/-- The owner removes that device. -/
def removalOfDevice : DeviceRemove where
  device := keyOf 12
  cut := some [0]
  proof := attest (keyOf 10) (keyOf 10) (nsRemove ++ keyOf 1 ++ keyOf 12 ++ [0])

/-- Witness: a device that is removed and claims another key. -/
theorem removed_for_good_claim
    : ∃ v u w, applyNodes (idealEnv (keyOf 1))
          [sent (keyOf 1) 1 (initial (keyOf 1) (keyOf 10) (keyOf 11)),
            sent (keyOf 1) 2 (claim (keyOf 2))] View.empty = .ok v
      ∧ applyNode (idealEnv (keyOf 1)) v (sent (keyOf 1) 3 (.deviceRemove removalOfDevice)) = .ok u
      ∧ applyNodes (idealEnv (keyOf 1)) [sent (keyOf 1) 4 (claim (keyOf 3))] u = .ok w
      ∧ (v.writer (keyOf 2)).isSome
      ∧ ∀ key n, w.writer key = some n
        → ¬(n.identity = keyOf 10 ∧ n.device = some (keyOf 12)) := by
  have reads : readNode compact (sent (keyOf 1) 3 (.deviceRemove removalOfDevice)).value
      = some ⟨⟨3, .deviceRemove removalOfDevice⟩, none, false⟩ := by decide +kernel
  have facts : ((applyNodes (idealEnv (keyOf 1))
        [sent (keyOf 1) 1 (initial (keyOf 1) (keyOf 10) (keyOf 11)),
          sent (keyOf 1) 2 (claim (keyOf 2))] View.empty).toOption.bind fun v =>
      (applyIncoming (idealEnv (keyOf 1)) v (sent (keyOf 1) 3 (.deviceRemove removalOfDevice))
        ⟨⟨3, .deviceRemove removalOfDevice⟩, none, false⟩).toOption.bind fun a =>
      (applyNode (idealEnv (keyOf 1)) v
        (sent (keyOf 1) 3 (.deviceRemove removalOfDevice))).toOption.bind fun u =>
      (applyNodes (idealEnv (keyOf 1)) [sent (keyOf 1) 4 (claim (keyOf 3))] u).toOption.map
        fun _ => decide (0 < a.writes) && (v.writer (keyOf 2)).isSome) = some true := by
    decide +kernel
  simp only [Option.bind_eq_some_iff, Option.map_eq_some_iff, Bool.and_eq_true,
    decide_eq_true_eq] at facts
  obtain ⟨v, first, a, applied, u, second, w, third, counts, theirs⟩ := facts
  have start : Reachable (idealEnv (keyOf 1)) v := ⟨_, ok_of_toOption first⟩
  have counted : Counts (idealEnv (keyOf 1)) v
      (sent (keyOf 1) 3 (.deviceRemove removalOfDevice))
      ⟨⟨3, .deviceRemove removalOfDevice⟩, none, false⟩ :=
    ⟨reads, a, ok_of_toOption applied, counts⟩
  obtain ⟨cut, info, named, proved, gone⟩ := removed_for_good start counted rfl
    (ok_of_toOption second) (ok_of_toOption third)
  have proves : (Identity.verify idealKeys removalOfDevice.proof
      (nsRemove ++ keyOf 1 ++ keyOf 12 ++ [0])).map Attested.identity = some (keyOf 10) := by
    decide +kernel
  cases Option.some.inj named
  change Identity.verify idealKeys removalOfDevice.proof
    (nsRemove ++ keyOf 1 ++ keyOf 12 ++ [0]) = _ at proved
  rw [proved] at proves
  rw [Option.some.inj proves] at gone
  exact ⟨v, u, w, ok_of_toOption first, ok_of_toOption second, ok_of_toOption third, theirs,
    gone⟩

end Hypergraph.Decisions
