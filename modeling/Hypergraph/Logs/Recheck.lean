import Hypergraph.Logs.Fetching

/-! What a member keeps of the logs it was told of, once nothing is under way: each log whose
limit is above 1, with that limit, and no other; in every run that keeps clear of what the
directory forgets.
-/

namespace Hypergraph.Logs

open Js Encodings Decisions Directory

variable {who : Key → Option Who} {told : List Key} {m m' : Member} {key other : Key}

-- Which steps forget nothing

/-- A recheck still to run will look at the log. -/
def Member.Due (who : Key → Option Who) (m : Member) (key : Key) : Prop :=
  ∃ touched ∈ m.rechecks, touches who touched key = true

def Member.limitOf (who : Key → Option Who) (m : Member) (key : Key) : ℕ∞ :=
  Directory.limitOf who m.standing key

/-- The steps after which the directory still does what its limits say:
- a log is not turned away for want of a slot, nor gives up its place among the waiting, that
  counts;
- a log is kept with the limit it was let through with only if that is its limit still, or a
  recheck will look at it;
- the limit of a log that is refused, or forgotten, is not raised above 1;
- a recheck finds the fetches of the waiting logs that count over, and room for them all; and
  where it leaves a held log alone, it is to have its limit;
- a log is not dropped whose limit was raised since.
-/
def Fine (who : Key → Option Who) (m : Member) (told : List Key) : Event → Prop
  | .consider key urgent =>
      m.dir.logs key = none → key ∉ m.dir.pending → m.dir.fetching key = false
        → m.dir.Drops key urgent → m.limitOf who key ≤ 1
  | .judge _ =>
      ∀ old rest, m.dir.pending = old :: rest → MAX_PENDING ≤ m.dir.pending.length
        → ¬ m.dir.Pursued old → m.limitOf who old ≤ 1
  | .accept key limit => limit = m.limitOf who key ∨ m.Due who key
  | .decide standing _ =>
      ∀ key ∈ told, m.dir.LeftOut key → Directory.limitOf who standing key ≤ 1
  | .recheck touched =>
      let waiting := m.dir.due who m.standing touched
      (∀ key ∈ waiting, m.dir.Unasked key → m.dir.fetching key = false)
        ∧ waiting.countP (fun key => m.dir.Unasked key) ≤ m.dir.room
        ∧ ∀ key held, m.dir.logs key = some held → touches who touched key = true
          → recheckHeld held (m.limitOf who key) = held → held.goal = m.limitOf who key
  | .endCut key =>
      ∀ held limit rest, m.dir.logs key = some held → held.asked = limit :: rest → limit ≤ 1
        → m.limitOf who key ≤ 1
  | _ => True

-- What stands at all times

/-- A log a member was told of is fetched, or held with its limit to be, or waits, or counts for
nothing; a recheck may still have to look.
-/
def Member.Stands (who : Key → Option Who) (m : Member) (key : Key) : Prop :=
  m.dir.Pursued key
    ∨ (∃ held, m.dir.logs key = some held
      ∧ (held.goal = m.limitOf who key ∨ m.Due who key))
    ∨ (key ∈ m.dir.pending ∧ key ∉ m.dir.refused ∧ m.Due who key)
    ∨ (m.dir.logs key = none ∧ m.limitOf who key ≤ 1)

structure Member.Sound (who : Key → Option Who) (told : List Key) (m : Member) : Prop where
  dir : Directory.Sound told m.dir
  full : m.dir.Full
  stands : ∀ key ∈ told, m.Stands who key

theorem Member.Stands.grow {dir : Directory} (stands : m.Stands who key)
    (grows : Grows m.dir dir) : ({ m with dir := dir } : Member).Stands who key := by
  rcases stands with pursued | ⟨held, found, goal⟩ | ⟨waits, open_, due⟩ | ⟨missing, limit⟩
  · exact .inl (grows.pursued key pursued)
  · exact .inr (.inl ⟨held, grows.logs ▸ found, goal⟩)
  · exact .inr (.inr (.inl ⟨grows.pending ▸ waits, grows.refused ▸ open_, due⟩))
  · exact .inr (.inr (.inr ⟨grows.logs ▸ missing, limit⟩))

theorem sound_consider (sound : m.Sound who told) (urgent : Bool)
    (fine : Fine who m told (.consider key urgent))
    : ({ m with dir := m.dir.consider key who m.standing urgent } : Member).Sound who
        (key :: told) := by
  have wider := sound.dir.mono (List.subset_cons_self key told)
  obtain ⟨dir, full, grows, asked⟩ := consider_spec who m.standing wider
    sound.full List.mem_cons_self urgent
  refine ⟨dir, full, fun other listed => ?_⟩
  by_cases known : other ∈ told
  · exact (sound.stands other known).grow grows
  · obtain rfl : other = key := (List.mem_cons.mp listed).resolve_right known
    have unknown (here : m.dir.Knows other) : False := known (sound.dir.named other here)
    have missing : m.dir.logs other = none := by
      by_contra held
      exact unknown (.inl (Option.isSome_iff_ne_none.mpr held))
    have idle : m.dir.fetching other = false := by
      rw [← Bool.not_eq_true, fetching_iff]
      exact fun fetched => unknown (.inr (.inr (.inr (.inl fetched))))
    have unasked : other ∉ m.dir.pending := fun waits => unknown (.inr (.inl waits))
    rcases asked missing fun refused => unknown (.inr (.inr (.inl refused))) with
      pursued | fetching | ⟨waits, _⟩ | dropped
    · exact .inl pursued
    · rw [idle] at fetching
      cases fetching
    · exact absurd waits unasked
    · exact .inr (.inr (.inr ⟨grows.logs ▸ missing, fine missing unasked idle dropped⟩))

theorem sound_ended (sound : m.Sound who told) {fetch : Fetch} (listed : fetch ∈ m.dir.inflight)
    (ending : fetch.phase = .ending)
    : ({ m with dir := m.dir.ended fetch.key who m.standing } : Member).Sound who told := by
  obtain ⟨dir, full, logs, pending, refused, pursued⟩ :=
    nextFetch_spec who m.standing m.dir.queue.length
      (sound.dir.without fetch.key) (Nat.le_refl _)
  refine ⟨dir, full, fun key known => ?_⟩
  rcases sound.stands key known with here | ⟨held, found, goal⟩ | ⟨waits, open_, due⟩
    | ⟨missing, limit⟩
  · rcases pursued key (pursued_without sound.dir listed ending here) with still | ⟨missing, limit⟩
    · exact .inl still
    · exact .inr (.inr (.inr ⟨logs.symm ▸ missing, not_lt.mp limit⟩))
  · exact .inr (.inl ⟨held, logs.symm ▸ found, goal⟩)
  · exact .inr (.inr (.inl ⟨pending.symm ▸ waits, refused.symm ▸ open_, due⟩))
  · exact .inr (.inr (.inr ⟨logs.symm ▸ missing, limit⟩))

/-- A log stands as before where nothing of it changed but for the worse of what didn't count. -/
theorem Member.Stands.carry {dir : Directory} (stands : m.Stands who key)
    (logs : dir.logs key = m.dir.logs key)
    (pursued : m.dir.Pursued key → dir.Pursued key)
    (refused : key ∉ m.dir.refused → key ∉ dir.refused)
    (waits : key ∈ m.dir.pending → key ∈ dir.pending ∨ dir.Pursued key
      ∨ (dir.logs key = none ∧ m.limitOf who key ≤ 1))
    : ({ m with dir := dir } : Member).Stands who key := by
  rcases stands with here | ⟨held, found, goal⟩ | ⟨waiting, open_, due⟩ | ⟨missing, limit⟩
  · exact .inl (pursued here)
  · exact .inr (.inl ⟨held, logs.trans found, goal⟩)
  · rcases waits waiting with still | here | left
    · exact .inr (.inr (.inl ⟨still, refused open_, due⟩))
    · exact .inl here
    · exact .inr (.inr (.inr left))
  · exact .inr (.inr (.inr ⟨logs.trans missing, limit⟩))

theorem Directory.Sound.missing_of_waits {dir : Directory} (sound : Directory.Sound told dir)
    (waits : key ∈ dir.pending) : dir.logs key = none := by
  cases found : dir.logs key with
  | none => rfl
  | some held => exact absurd waits (sound.held key held found).2.1

section Judge

variable {fetch : Fetch} (sound : m.Sound who told) (listed : fetch ∈ m.dir.inflight)

include sound listed

theorem named_of_fetch : fetch.key ∈ told :=
  sound.dir.named fetch.key (.inr (.inr (.inr (.inl (List.mem_map_of_mem listed)))))

theorem sound_refused (live : fetch.phase ≠ .ending) (limit : m.limitOf who fetch.key ≤ 1)
    : ({ m with dir := (m.dir.refuse fetch.key).setPhase fetch.key .ending } : Member).Sound who
        told := by
  have pursued : m.dir.Pursued fetch.key := .inl ⟨fetch, listed, rfl, live⟩
  have missing := (sound.dir.fresh fetch.key pursued).1
  have ended := sound.dir.setPhase pursued .ending nofun
  have idle := not_pursued_ending sound.dir (List.mem_map_of_mem listed)
  refine ⟨ended.refuse (named_of_fetch sound listed) missing idle,
    sound.full.setPhase fetch.key .ending, fun key known => ?_⟩
  by_cases here : key = fetch.key
  · exact .inr (.inr (.inr ⟨here ▸ missing, here ▸ limit⟩))
  · refine (sound.stands key known).carry ?_ ?_ ?_ ?_
    · rfl
    · exact (pursued_setPhase here).mpr
    · exact fun open_ => List.mem_cons.not.mpr (not_or.mpr ⟨here, open_⟩)
    · exact .inl

theorem sound_waits (live : fetch.phase ≠ .ending) (limit : m.limitOf who fetch.key ≤ 1)
    (evicts : ∀ old rest, m.dir.pending = old :: rest → MAX_PENDING ≤ m.dir.pending.length
      → ¬ m.dir.Pursued old → m.limitOf who old ≤ 1)
    : ({ m with dir := (m.dir.wait fetch.key).setPhase fetch.key .ending } : Member).Sound who
        told := by
  have pursued : m.dir.Pursued fetch.key := .inl ⟨fetch, listed, rfl, live⟩
  have missing := (sound.dir.fresh fetch.key pursued).1
  have ended := sound.dir.setPhase pursued .ending nofun
  refine ⟨ended.wait (named_of_fetch sound listed) missing,
    sound.full.setPhase fetch.key .ending, fun key known => ?_⟩
  by_cases here : key = fetch.key
  · exact .inr (.inr (.inr ⟨here ▸ missing, here ▸ limit⟩))
  · refine (sound.stands key known).carry ?_ ?_ ?_ fun waits => ?_
    · rfl
    · exact (pursued_setPhase here).mpr
    · exact id
    by_cases crowded : MAX_PENDING ≤ m.dir.pending.length
    · cases oldest : m.dir.pending with
      | nil =>
          rw [oldest] at waits
          cases waits
      | cons old rest =>
          by_cases first : key = old
          · by_cases still : m.dir.Pursued key
            · exact .inr (.inl ((pursued_setPhase here).mpr still))
            · have none_ := sound.dir.missing_of_waits waits
              exact .inr (.inr ⟨none_, first ▸ evicts old rest oldest crowded (first ▸ still)⟩)
          · left
            apply mem_wait.mpr
            rw [if_pos crowded, oldest]
            rw [oldest] at waits
            exact .inr ((List.mem_cons.mp waits).resolve_left first)
    · left
      apply mem_wait.mpr
      rw [if_neg crowded]
      exact .inr waits

theorem sound_judge (asking : fetch.phase = .asking) (fine : Fine who m told (.judge fetch.key))
    : ({ m with dir := m.dir.judge fetch.key who m.standing } : Member).Sound who told := by
  have live : fetch.phase ≠ .ending := by
    rw [asking]
    nofun
  have known : m.limitOf who fetch.key
      = (who fetch.key).elim 0 fun author => m.standing.limitOf author fetch.key := rfl
  unfold Directory.judge
  cases header : who fetch.key with
  | none =>
      rw [header] at known
      exact sound_refused sound listed live (known.trans_le zero_le_one)
  | some author =>
      rw [header] at known
      dsimp only
      split
      · rename_i counts
        have pursued : m.dir.Pursued fetch.key := .inl ⟨fetch, listed, rfl, live⟩
        refine ⟨sound.dir.setPhase pursued _ ?_, sound.full.setPhase _ _, fun key told => ?_⟩
        · intro limit same
          cases same
          exact counts
        · refine (sound.stands key told).carry ?_ (fun before => ?_) id .inl
          · rfl
          by_cases here : key = fetch.key
          · refine .inl ⟨{ fetch with phase := .passed (m.standing.limitOf author fetch.key) },
              mem_setPhase.mpr ⟨fetch, listed, if_pos rfl⟩, here.symm, nofun⟩
          · exact (pursued_setPhase here).mpr before
      · rename_i nothing
        have limit : m.limitOf who fetch.key ≤ 1 := known.trans_le (not_lt.mp nothing)
        split
        · exact sound_waits sound listed live limit fine
        · exact sound_refused sound listed live limit

theorem sound_accept {limit : ℕ∞} (passed : fetch.phase = .passed limit)
    (fine : Fine who m told (.accept fetch.key limit))
    : ({ m with dir := (m.dir.accept fetch.key limit).setPhase fetch.key .ending } : Member).Sound
        who told := by
  have live : fetch.phase ≠ .ending := by
    rw [passed]
    nofun
  have pursued : m.dir.Pursued fetch.key := .inl ⟨fetch, listed, rfl, live⟩
  obtain ⟨missing, open_⟩ := sound.dir.fresh fetch.key pursued
  have ended := sound.dir.setPhase pursued .ending nofun
  have idle := not_pursued_ending sound.dir (List.mem_map_of_mem listed)
  have kept := ended.accept (named_of_fetch sound listed) missing open_ idle
    (sound.dir.passed fetch listed limit passed)
  have shape : m.dir.accept fetch.key limit
      = { m.dir with
          logs := fun other =>
            if other = fetch.key then some { limit := limit } else m.dir.logs other
          pending := m.dir.pending.erase fetch.key } := by
    unfold Directory.accept
    rw [if_neg]
    rw [missing]
    decide
  have swap : (m.dir.accept fetch.key limit).setPhase fetch.key .ending
      = (m.dir.setPhase fetch.key .ending).accept fetch.key limit := by
    unfold Directory.accept
    rw [if_neg (by rw [missing]; decide),
      if_neg (by rw [show (m.dir.setPhase fetch.key .ending).logs fetch.key = none from missing]; decide)]
    rfl
  refine ⟨swap ▸ kept, ?_, fun key known => ?_⟩
  · rw [shape]
    have full : Full { m.dir with
        logs := fun other =>
          if other = fetch.key then some { limit := limit } else m.dir.logs other
        pending := m.dir.pending.erase fetch.key } := sound.full
    exact full.setPhase fetch.key .ending
  · rw [shape]
    by_cases here : key = fetch.key
    · exact .inr (.inl ⟨{ limit := limit }, if_pos here, here ▸ fine⟩)
    · refine (sound.stands key known).carry ?_ ?_ ?_ ?_
      · exact if_neg here
      · exact fun before => (pursued_setPhase here).mpr before
      · exact id
      · exact fun waits => .inl ((List.mem_erase_of_ne here).mpr waits)

end Judge

-- Decisions, rechecks and cuts

/-- A change touches every log whose limit it changes. -/
theorem Changed.touches_or_same (who : Key → Option Who) {touched : Touched}
    {before after : Standing} (changed : Changed touched before after) (key : Key)
    : touches who touched key = true
      ∨ Directory.limitOf who after key = Directory.limitOf who before key := by
  unfold touches Directory.limitOf
  cases who key with
  | none => exact .inr rfl
  | some author =>
      cases met : touched.touches author.identity with
      | true => exact .inl met
      | false => exact .inr (changed.limitOf met key)

theorem sound_decide (sound : m.Sound who told) {standing : Standing} {touched : Touched}
    (changed : Changed touched m.standing standing)
    (fine : Fine who m told (.decide standing touched))
    : ({ m with standing := standing, rechecks := m.rechecks ++ [touched] } : Member).Sound who
        told := by
  refine ⟨sound.dir, sound.full, fun key known => ?_⟩
  have later : m.Due who key → ∃ touched' ∈ m.rechecks ++ [touched], touches who touched' key = true
      := fun ⟨touched', asked, here⟩ => ⟨touched', List.mem_append_left _ asked, here⟩
  rcases changed.touches_or_same who key with met | same
  · have due : ∃ touched' ∈ m.rechecks ++ [touched], touches who touched' key = true :=
      ⟨touched, List.mem_append_right _ (List.mem_singleton_self _), met⟩
    by_cases pursued : m.dir.Pursued key
    · exact .inl pursued
    · cases found : m.dir.logs key with
      | some held => exact .inr (.inl ⟨held, found, .inr due⟩)
      | none =>
          by_cases refused : key ∈ m.dir.refused
          · exact .inr (.inr (.inr ⟨found, fine key known ⟨found, .inl refused⟩⟩))
          · by_cases waits : key ∈ m.dir.pending
            · exact .inr (.inr (.inl ⟨waits, refused, due⟩))
            · exact .inr (.inr (.inr ⟨found, fine key known ⟨found, .inr ⟨waits, pursued⟩⟩⟩))
  · rcases sound.stands key known with here | ⟨held, found, goal⟩ | ⟨waits, open_, due⟩
      | ⟨missing, limit⟩
    · exact .inl here
    · exact .inr (.inl ⟨held, found, goal.imp (fun is_ => is_.trans same.symm) later⟩)
    · exact .inr (.inr (.inl ⟨waits, open_, later due⟩))
    · exact .inr (.inr (.inr ⟨missing, same.trans_le limit⟩))

/-- A held log a recheck looks at is left alone, or is to be cut to its limit. -/
theorem recheckHeld_cases (held : Held) (limit : ℕ∞)
    : recheckHeld held limit = held
      ∨ recheckHeld held limit = { held with asked := held.asked ++ [limit] } := by
  unfold recheckHeld
  split
  · exact .inr rfl
  · exact .inl rfl

theorem goal_asked (held : Held) (limit : ℕ∞)
    : ({ held with asked := held.asked ++ [limit] } : Held).goal = limit := by
  unfold Held.goal
  rw [List.getLast?_append, List.getLast?_singleton]
  rfl

theorem Held.Sound.recheckHeld {held : Held} (sound : held.Sound) (limit : ℕ∞)
    : (recheckHeld held limit).Sound := by
  rcases recheckHeld_cases held limit with same | same
  · rw [same]
    exact sound
  · rw [same]
    refine ⟨sound.idle, fun running => ?_⟩
    obtain ⟨rest, asked⟩ := sound.busy running
    exact ⟨rest ++ [limit], by simp [asked]⟩

/-- Held logs changed each for itself. -/
theorem Directory.Sound.mapLogs {dir : Directory} (sound : Directory.Sound told dir)
    (change : Key → Held → Held) (kept : ∀ key held, held.Sound → (change key held).Sound)
    : Directory.Sound told { dir with logs := fun key => (dir.logs key).map (change key) } where
  once := sound.once
  passed := sound.passed
  fresh key pursued := by
    obtain ⟨missing, open_⟩ := sound.fresh key pursued
    refine ⟨?_, open_⟩
    dsimp only
    rw [missing]
    rfl
  apart := sound.apart
  queued := sound.queued
  waits := sound.waits
  held key held found := by
    obtain ⟨before, there, rfl⟩ := Option.map_eq_some_iff.mp found
    obtain ⟨open_, waits, sound'⟩ := sound.held key before there
    exact ⟨open_, waits, kept key before sound'⟩
  named key known := by
    rcases known with held | rest
    · exact sound.named key (.inl (by simpa using held))
    · exact sound.named key (.inr rest)

theorem sound_recheck (sound : m.Sound who told) {touched : Touched}
    (fine : Fine who m told (.recheck touched))
    : ({ m with
          dir := m.dir.recheck who m.standing touched
          rechecks := m.rechecks.erase touched } : Member).Sound who told := by
  obtain ⟨ended, fits, left⟩ := fine
  have due (key : Key) (listed : key ∈ m.dir.due who m.standing touched)
      : key ∈ m.dir.pending ∧ 1 < m.limitOf who key := by
    obtain ⟨waits, both⟩ := List.mem_filter.mp listed
    exact ⟨waits, of_decide_eq_true (Bool.and_eq_true_iff.mp both).2⟩
  obtain ⟨dir, full, grows, asked⟩ := foldl_consider_spec who m.standing
    (m.dir.due who m.standing touched) sound.dir sound.full (sound.dir.waits.filter _)
    (fun key listed => ⟨sound.dir.named key (.inr (.inl (due key listed).1)),
      sound.dir.missing_of_waits (due key listed).1, (due key listed).2⟩)
    (fun key listed unasked => by
      rw [ended key listed unasked]
      decide)
    fits
  refine ⟨dir.mapLogs _ ?_, full, fun key known => ?_⟩
  · intro key held kept
    split
    · exact kept.recheckHeld _
    · exact kept
  have logs : (m.dir.recheck who m.standing touched).logs key
      = (m.dir.logs key).map fun held => if touches who touched key then
          recheckHeld held (m.limitOf who key) else held := by
    rw [← grows.logs]
    rfl
  have still (untouched : touches who touched key = false)
      : m.Due who key → ∃ touched' ∈ m.rechecks.erase touched, touches who touched' key = true := by
    rintro ⟨touched', listed, here⟩
    have different : touched' ≠ touched := by
      rintro rfl
      rw [untouched] at here
      cases here
    exact ⟨touched', (List.mem_erase_of_ne different).mpr listed, here⟩
  rcases sound.stands key known with here | ⟨held, found, goal⟩ | ⟨waits, open_, later⟩
    | ⟨missing, limit⟩
  · exact .inl (grows.pursued key here)
  · rw [found, Option.map_some] at logs
    refine .inr (.inl ⟨_, logs, ?_⟩)
    cases met : touches who touched key with
    | false => exact goal.imp_right (still met)
    | true =>
        left
        rw [if_pos rfl]
        rcases recheckHeld_cases held (m.limitOf who key) with same | same
        · rw [same]
          exact left key held found met same
        · rw [same]
          exact goal_asked held _
  · cases met : touches who touched key with
    | false => exact .inr (.inr (.inl ⟨grows.pending ▸ waits, grows.refused ▸ open_, still met later⟩))
    | true =>
        by_cases counts : 1 < m.limitOf who key
        · exact .inl (asked key (List.mem_filter.mpr ⟨waits, by simp [met]; exact counts⟩) open_)
        · refine .inr (.inr (.inr ⟨?_, not_lt.mp counts⟩))
          rw [logs, sound.dir.missing_of_waits waits]
          rfl
  · refine .inr (.inr (.inr ⟨?_, limit⟩))
    rw [logs, missing]
    rfl

section Cut

variable {held : Held} (sound : m.Sound who told) (found : m.dir.logs key = some held)

include sound found

theorem stands_held : held.goal = m.limitOf who key ∨ m.Due who key := by
  have known : key ∈ told := sound.dir.named key (.inl (by rw [found]; rfl))
  obtain ⟨open_, waits, _⟩ := sound.dir.held key held found
  rcases sound.stands key known with pursued | ⟨held', found', goal⟩ | ⟨waiting, _⟩ | ⟨missing, _⟩
  · rw [(sound.dir.fresh key pursued).1] at found
    cases found
  · rw [found'] at found
    cases found
    exact goal
  · exact absurd waiting waits
  · rw [missing] at found
    cases found

theorem sound_setHeld {after : Held} (kept : after.Sound) (goal : after.goal = held.goal)
    : ({ m with dir := m.dir.setHeld key after } : Member).Sound who told := by
  refine ⟨sound.dir.setHeld found kept, sound.full, fun other known => ?_⟩
  by_cases here : other = key
  · have stands := stands_held sound found
    rw [← goal, ← here] at stands
    exact .inr (.inl ⟨after, if_pos here, stands⟩)
  · refine (sound.stands other known).carry ?_ id id .inl
    exact if_neg here

theorem sound_cutDone {limit : ℕ∞} {rest : List ℕ∞} (idle : held.running = false)
    (asked : held.asked = limit :: rest) (done : held.cut = some limit ∧ held.limit ≤ limit)
    : ({ m with dir := m.dir.setHeld key { held with asked := rest } } : Member).Sound who told := by
  have kept := (sound.dir.held key held found).2.2
  apply sound_setHeld sound found
  · exact ⟨kept.idle, fun running => absurd (idle.symm.trans running) (by decide)⟩
  · have same := (kept.idle idle).2 limit done.1
    unfold Held.goal
    rw [asked, same]
    cases rest with
    | nil => rfl
    | cons next rest => rfl

theorem sound_startCut {limit : ℕ∞} {rest : List ℕ∞} (asked : held.asked = limit :: rest)
    : ({ m with
          dir := m.dir.setHeld key { held with limit := limit, running := true } } : Member).Sound
        who told := by
  apply sound_setHeld sound found
  · exact ⟨nofun, fun _ => ⟨rest, asked⟩⟩
  · unfold Held.goal
    rw [asked]
    rfl

theorem sound_endCut {limit : ℕ∞} {rest : List ℕ∞} (running : held.running = true)
    (asked : held.asked = limit :: rest) (counts : 1 < limit)
    : ({ m with
          dir := m.dir.setHeld key
            { held with cut := some limit, asked := rest, running := false } } : Member).Sound who
        told := by
  obtain ⟨rest', asked'⟩ := (sound.dir.held key held found).2.2.busy running
  have same : held.limit = limit := (List.cons.inj (asked'.symm.trans asked)).1
  apply sound_setHeld sound found
  · refine ⟨fun _ => ⟨same ▸ counts, fun cut is_ => ?_⟩, nofun⟩
    exact same.trans (Option.some.inj is_)
  · unfold Held.goal
    rw [asked, same]
    cases rest with
    | nil => rfl
    | cons next rest => rfl

theorem sound_drop {limit : ℕ∞} {rest : List ℕ∞} (asked : held.asked = limit :: rest)
    (nothing : limit ≤ 1) (fine : Fine who m told (.endCut key))
    : ({ m with dir := m.dir.drop key } : Member).Sound who told := by
  refine ⟨sound.dir.drop found, sound.full, fun other known => ?_⟩
  by_cases here : other = key
  · exact .inr (.inr (.inr ⟨if_pos here, here ▸ fine held limit rest found asked nothing⟩))
  · refine (sound.stands other known).carry ?_ id ?_ .inl
    · exact if_neg here
    · exact fun open_ => List.mem_cons.not.mpr (not_or.mpr ⟨here, open_⟩)

end Cut

-- Runs

theorem sound_step {event : Event} (sound : m.Sound who told) (fine : Fine who m told event)
    (steps : Step who m event m') : m'.Sound who (event.tells ++ told) := by
  cases steps with
  | consider key urgent => exact sound_consider sound urgent fine
  | judge fetch listed phase => exact sound_judge sound listed phase fine
  | accept fetch limit listed phase => exact sound_accept sound listed phase fine
  | ended fetch listed phase => exact sound_ended sound listed phase
  | decide standing touched changed => exact sound_decide sound changed fine
  | recheck touched asked => exact sound_recheck sound fine
  | cutDone key held limit rest found idle asked done =>
      exact sound_cutDone sound found idle asked done
  | startCut key held limit rest found idle asked new => exact sound_startCut sound found asked
  | endCut key held limit rest found running asked kept =>
      exact sound_endCut sound found running asked kept
  | drop key held limit rest found running asked nothing =>
      exact sound_drop sound found asked nothing fine

/-- Induction on the run. -/
theorem sound_run (run : Run who (Fine who) told m) : m.Sound who told := by
  induction run with
  | start standing => exact ⟨sound_empty, nofun, nofun⟩
  | step event _ fine steps ih => exact sound_step ih fine steps

/-- With nothing under way, what a member was told of is held where it counts, up to its limit,
and not held where it doesn't.
-/
theorem kept_of_settled (run : Run who (Fine who) told m) (settled : m.Settled)
    (listed : key ∈ told)
    : (m.dir.logs key).map Held.limit
        = (if 1 < m.limitOf who key then some (m.limitOf who key) else none)
      ∧ (1 < m.limitOf who key → key ∉ m.dir.refused ∧ key ∉ m.dir.pending) := by
  have sound := sound_run run
  have due : ¬ m.Due who key := by
    rintro ⟨touched, asked, _⟩
    rw [settled.rechecks] at asked
    cases asked
  rcases sound.stands key listed with pursued | ⟨held, found, goal⟩ | ⟨_, _, later⟩
    | ⟨missing, limit⟩
  · rcases pursued with ⟨fetch, there, _⟩ | queued
    · rw [settled.inflight] at there
      cases there
    · rw [settled.queue] at queued
      cases queued
  · have asked := settled.cuts key held found
    obtain ⟨open_, waits, kept⟩ := sound.dir.held key held found
    have is_ : held.limit = m.limitOf who key := by
      have goal := goal.resolve_right due
      unfold Held.goal at goal
      rw [asked] at goal
      exact goal
    have counts : 1 < m.limitOf who key := by
      rw [← is_]
      apply (kept.idle _).1
      cases running : held.running with
      | false => rfl
      | true =>
          obtain ⟨rest, some_⟩ := kept.busy running
          rw [asked] at some_
          cases some_
    refine ⟨?_, fun _ => ⟨open_, waits⟩⟩
    rw [found, Option.map_some, is_, if_pos counts]
  · exact absurd later due
  · refine ⟨?_, fun counts => absurd limit (not_le.mpr counts)⟩
    rw [missing, if_neg (not_lt.mpr limit)]
    rfl

/-- What two members keep of the logs both were told of depends on the decisions they came to,
not on how they came there.
-/
theorem same_logs_of_runs {told' : List Key} {mine yours : Member}
    (run : Run who (Fine who) told mine) (run' : Run who (Fine who) told' yours)
    (both : ∀ key, key ∈ told ↔ key ∈ told') (settled : mine.Settled) (settled' : yours.Settled)
    (same : mine.standing = yours.standing)
    : (∀ key, (mine.dir.logs key).map Held.limit = (yours.dir.logs key).map Held.limit)
      ∧ (∀ key held, mine.dir.logs key = some held → held.limit = mine.limitOf who key)
      ∧ ∀ key ∈ told, 1 < mine.limitOf who key
        → (mine.dir.logs key).isSome ∧ key ∉ mine.dir.refused ∧ key ∉ mine.dir.pending := by
  have limit (key : Key) : mine.limitOf who key = yours.limitOf who key := by
    unfold Member.limitOf
    rw [same]
  have untold {told : List Key} {m : Member} (run : Run who (Fine who) told m) {key : Key}
      (not_ : key ∉ told) : m.dir.logs key = none := by
    by_contra held
    exact not_ ((sound_run run).dir.named key (.inl (Option.isSome_iff_ne_none.mpr held)))
  refine ⟨fun key => ?_, fun key held found => ?_, fun key listed counts => ?_⟩
  · by_cases listed : key ∈ told
    · rw [(kept_of_settled run settled listed).1,
        (kept_of_settled run' settled' ((both key).mp listed)).1, limit]
    · rw [untold run listed, untold run' fun listed' => listed ((both key).mpr listed')]
  · by_cases listed : key ∈ told
    · obtain ⟨kept, _⟩ := kept_of_settled run settled listed
      rw [found, Option.map_some] at kept
      split at kept
      · exact Option.some.inj kept
      · cases kept
    · rw [untold run listed] at found
      cases found
  · obtain ⟨kept, free⟩ := kept_of_settled run settled listed
    refine ⟨?_, free counts⟩
    rw [if_pos counts] at kept
    rw [← Option.isSome_map, kept]
    rfl

-- A role taken and given back

/-- What is allowed more widely has the runs there were. -/
theorem Run.mono {allowed allowed' : Member → List Key → Event → Prop}
    (wider : ∀ m told event, allowed m told event → allowed' m told event)
    (run : Run who allowed told m) : Run who allowed' told m := by
  induction run with
  | start standing => exact .start standing
  | step event _ may steps ih => exact .step event ih (wider _ _ _ may) steps

/-- The one log is held. -/
def Directory.holding (key : Key) (held : Held) : Directory :=
  { empty with logs := fun other => if other = key then some held else none }

/-- The one log is refused. -/
def Directory.refusing (key : Key) : Directory := { empty with refused := [key] }

/-- With the one log's header being fetched. -/
def Directory.fetchingIt (dir : Directory) (key : Key) (phase : Phase) : Directory :=
  { dir with inflight := [⟨key, false, phase⟩] }

theorem recheck_holding (key : Key) (held : Held) (standing : Standing) (touched : Touched)
    : (holding key held).recheck who standing touched
      = holding key (if touches who touched key then
          recheckHeld held (Directory.limitOf who standing key) else held) := by
  have shape : (holding key held).recheck who standing touched
      = Directory.mk (fun other => (if other = key then some held else none).map fun held =>
            if touches who touched other then
              recheckHeld held (Directory.limitOf who standing other) else held) [] [] [] [] := rfl
  rw [shape]
  apply congrArg fun logs => Directory.mk logs [] [] [] []
  funext other
  by_cases here : other = key
  · rw [if_pos here, if_pos here, here]
    rfl
  · rw [if_neg here, if_neg here]
    rfl

theorem setHeld_holding (key : Key) (held held' : Held)
    : (holding key held).setHeld key held' = holding key held' := by
  have shape : (holding key held).setHeld key held' = Directory.mk (fun other =>
      if other = key then some held' else if other = key then some held else none) [] [] [] [] :=
    rfl
  rw [shape]
  apply congrArg fun logs => Directory.mk logs [] [] [] []
  funext other
  split
  · rfl
  · rfl

theorem drop_holding (key : Key) (held : Held) : (holding key held).drop key = refusing key := by
  have shape : (holding key held).drop key = Directory.mk (fun other =>
      if other = key then none else if other = key then some held else none) [] [key] [] [] := rfl
  rw [shape]
  apply congrArg fun logs => Directory.mk logs [] [key] [] []
  funext other
  split
  · rfl
  · rfl

section Back

variable {author : Who} {given taken : Standing} (header : who key = some author)
  (counts : 1 < given.limitOf author key)

include header counts

theorem run_holding
    : Run who (Fine who) [key] ⟨given, holding key { limit := given.limitOf author key }, []⟩ := by
  have asks : empty.consider key who given false = empty.fetchingIt key .asking := by
    simp [consider, Directory.fetch, empty, fetching, ordinary, fetchingIt, FETCHES]
  have passes : (empty.fetchingIt key .asking).judge key who given
      = empty.fetchingIt key (.passed (given.limitOf author key)) := by
    simp [judge, header, counts, setPhase, fetchingIt]
  have keeps : ((empty.fetchingIt key (.passed (given.limitOf author key))).accept key
      (given.limitOf author key)).setPhase key .ending
        = (holding key { limit := given.limitOf author key }).fetchingIt key .ending := by
    simp [Directory.accept, setPhase, fetchingIt, holding, empty]
  have ends : ((holding key { limit := given.limitOf author key }).fetchingIt key .ending).ended key who given
      = holding key { limit := given.limitOf author key } := by
    simp [Directory.ended, fetchingIt, holding, empty, nextFetch]
  have told : Run who (Fine who) [key] ⟨given, empty.fetchingIt key .asking, []⟩ := by
    have step := @Step.consider who ⟨given, empty, []⟩ key false
    rw [asks] at step
    refine .step _ (.start given) (fun _ _ _ dropped => ?_) step
    exact absurd dropped.2.2.1 (Nat.not_le_of_lt (Nat.succ_pos 15))
  have judged : Run who (Fine who) [key]
      ⟨given, empty.fetchingIt key (.passed (given.limitOf author key)), []⟩ := by
    have step := @Step.judge who ⟨given, empty.fetchingIt key .asking, []⟩
      ⟨key, false, .asking⟩ (List.mem_singleton_self _) rfl
    rw [passes] at step
    exact .step (.judge key) told (fun _ _ pending => by cases pending) step
  have accepted : Run who (Fine who) [key]
      ⟨given, (holding key { limit := given.limitOf author key }).fetchingIt key .ending, []⟩ := by
    have step := @Step.accept who
      ⟨given, empty.fetchingIt key (.passed (given.limitOf author key)), []⟩
      ⟨key, false, .passed (given.limitOf author key)⟩ _ (List.mem_singleton_self _) rfl
    rw [keeps] at step
    refine .step (.accept key _) judged (.inl ?_) step
    unfold Member.limitOf Directory.limitOf
    rw [header]
    rfl
  have step := @Step.ended who
    ⟨given, (holding key { limit := given.limitOf author key }).fetchingIt key .ending, []⟩
    ⟨key, false, .ending⟩ (List.mem_singleton_self _) rfl
  rw [ends] at step
  exact .step (.ended key) accepted trivial step

/-- Its author's role taken and given back, the log that was held is refused. -/
theorem run_refusing (nothing : taken.limitOf author key = 0)
    (changed : Changed ⟨true, []⟩ given taken) (changed' : Changed ⟨true, []⟩ taken given)
    : Run who (fun _ _ _ => True) [key] ⟨given, refusing key, []⟩ := by
  have touched : touches who ⟨true, []⟩ key = true := by
    unfold touches
    rw [header]
    rfl
  have limit : Directory.limitOf who taken key = 0 := by
    unfold Directory.limitOf
    rw [header]
    exact nothing
  have above : 0 < given.limitOf author key := lt_trans zero_lt_one counts
  have start : Run who (fun _ _ _ => True) [key]
      ⟨given, holding key { limit := given.limitOf author key }, []⟩ :=
    (run_holding header counts).mono fun _ _ _ _ => trivial
  have taken_ : Run who (fun _ _ _ => True) [key]
      ⟨taken, holding key { limit := given.limitOf author key }, [⟨true, []⟩]⟩ :=
    .step (.decide taken ⟨true, []⟩) start trivial (.decide _ taken _ changed)
  have asked : Run who (fun _ _ _ => True) [key]
      ⟨taken, holding key { limit := given.limitOf author key, asked := [0] }, []⟩ := by
    have step := @Step.recheck who
      ⟨taken, holding key { limit := given.limitOf author key }, [⟨true, []⟩]⟩ ⟨true, []⟩
      (List.mem_singleton_self _)
    rw [recheck_holding, if_pos touched, limit, recheckHeld, if_pos (.inl above)] at step
    exact .step (.recheck ⟨true, []⟩) taken_ trivial step
  have started : Run who (fun _ _ _ => True) [key]
      ⟨taken, holding key { limit := 0, asked := [0], running := true }, []⟩ := by
    have step := @Step.startCut who ⟨taken,
      holding key { limit := given.limitOf author key, asked := [0] }, []⟩ key _ 0 [] (if_pos rfl)
      rfl rfl (fun done => nomatch done.1)
    rw [setHeld_holding] at step
    exact .step (.startCut key) asked trivial step
  have dropped : Run who (fun _ _ _ => True) [key] ⟨taken, refusing key, []⟩ := by
    have step := @Step.drop who ⟨taken,
      holding key { limit := 0, asked := [0], running := true }, []⟩ key _ 0 [] (if_pos rfl)
      rfl rfl zero_le_one
    rw [drop_holding] at step
    exact .step (.endCut key) started trivial step
  have back : Run who (fun _ _ _ => True) [key] ⟨given, refusing key, [⟨true, []⟩]⟩ :=
    .step (.decide given ⟨true, []⟩) dropped trivial (.decide _ given _ changed')
  exact .step (.recheck ⟨true, []⟩) back trivial
    (.recheck ⟨given, refusing key, [⟨true, []⟩]⟩ _ (List.mem_singleton_self _))

end Back

/-- The space with a role for this identity, or none. -/
def standingOf (identity : Key) (role : Option String) : Standing where
  view := View.empty.setMember none identity
    (role.map fun role => { role := role, by_ := identity, stamp := 0 })
  chain := []
  removals _ _ := []

theorem changed_standingOf (identity : Key) (role role' : Option String)
    : Changed ⟨true, []⟩ (standingOf identity role) (standingOf identity role') where
  chain := rfl
  shared := .inl rfl
  own _ untouched := nomatch untouched

/-- The one log there is, by the one author. -/
def only (_ : Key) : Option Who := some ⟨[1], some [2], none⟩

theorem settled_refusing (standing : Standing) (key : Key)
    : (⟨standing, refusing key, []⟩ : Member).Settled :=
  ⟨rfl, rfl, rfl, nofun⟩

theorem settled_holding (standing : Standing) (key : Key) (limit : ℕ∞)
    : (⟨standing, holding key { limit := limit }, []⟩ : Member).Settled := by
  refine ⟨rfl, rfl, rfl, fun other held found => ?_⟩
  have found : (if other = key then some { limit := limit } else none) = some held := found
  split at found
  · cases found
    rfl
  · cases found

/-- Two members were told of the same log and came to the same decisions; the one whose decisions
took the author's role and gave it back refuses the log that the other holds.
-/
theorem role_back_refused
    : ∃ mine yours,
        Run only (fun _ _ _ => True) [[3]] mine ∧ Run only (fun _ _ _ => True) [[3]] yours
        ∧ mine.Settled ∧ yours.Settled ∧ mine.standing = yours.standing
        ∧ mine.limitOf only [3] = ⊤ ∧ [3] ∈ mine.dir.refused
        ∧ mine.dir.logs [3] = none ∧ (yours.dir.logs [3]).isSome := by
  have counts : 1 < (standingOf [1] (some "member")).limitOf ⟨[1], some [2], none⟩ [3] := by
    decide +kernel
  have header : only [3] = some ⟨[1], some [2], none⟩ := rfl
  have nothing : (standingOf [1] none).limitOf ⟨[1], some [2], none⟩ [3] = 0 := by decide +kernel
  have refuses := run_refusing header counts nothing
    (changed_standingOf [1] (some "member") none) (changed_standingOf [1] none (some "member"))
  have holds : Run only (fun _ _ _ => True) _ _ :=
    (run_holding header counts).mono fun _ _ _ _ => trivial
  refine ⟨_, _, refuses, holds, settled_refusing _ _, settled_holding _ _ _, rfl, ?_,
    List.mem_singleton_self _, rfl, rfl⟩
  decide +kernel

/-- One was told of it while its author was a member, who was made an admin since; the other once they
were one. Both hold it.
-/
theorem same_logs_of_runs_told
    : ∃ mine yours : Member, (mine.dir.logs [3]).isSome
        ∧ (∀ key, (mine.dir.logs key).map Held.limit = (yours.dir.logs key).map Held.limit)
        ∧ ∀ key ∈ [[3]], 1 < mine.limitOf only key
          → (mine.dir.logs key).isSome ∧ key ∉ mine.dir.refused ∧ key ∉ mine.dir.pending := by
  have header : only [3] = some ⟨[1], some [2], none⟩ := rfl
  have unlimited (role : String) (may : role = "member" ∨ role = "admin")
      : (standingOf [1] (some role)).limitOf ⟨[1], some [2], none⟩ [3] = ⊤ := by
    rcases may with rfl | rfl <;> decide +kernel
  have before := unlimited "member" (.inl rfl)
  have now := unlimited "admin" (.inr rfl)
  have yours := run_holding header (by rw [now]; exact ENat.one_lt_top)
  have held := run_holding header (by rw [before]; exact ENat.one_lt_top)
  rw [before] at held
  rw [now] at yours
  let admin := standingOf [1] (some "admin")
  have decided : Run only (Fine only) [[3]] ⟨admin, holding [3] { limit := ⊤ }, [⟨true, []⟩]⟩ := by
    refine .step (.decide admin ⟨true, []⟩) held (fun key listed left => ?_)
      (.decide _ admin _ (changed_standingOf [1] _ _))
    cases List.mem_singleton.mp listed
    cases left.1
  have kept : recheckHeld { limit := ⊤ } (Directory.limitOf only admin [3]) = { limit := ⊤ } := by
    rw [show Directory.limitOf only admin [3] = ⊤ from now]
    simp [recheckHeld]
  have mine : Run only (Fine only) [[3]] ⟨admin, holding [3] { limit := ⊤ }, []⟩ := by
    have step := @Step.recheck only ⟨admin, holding [3] { limit := ⊤ }, [⟨true, []⟩]⟩ ⟨true, []⟩
      (List.mem_singleton_self _)
    rw [recheck_holding, kept, ite_self] at step
    refine .step (.recheck ⟨true, []⟩) decided ⟨nofun, Nat.zero_le _, fun key held found _ _ => ?_⟩ step
    have found : (if key = [3] then some { limit := ⊤ } else none) = some held := found
    split at found
    · cases found
      exact now.symm
    · cases found
  obtain ⟨same, _, pursued⟩ := same_logs_of_runs mine yours (fun _ => Iff.rfl) (settled_holding _ _ _)
    (settled_holding _ _ _) rfl
  exact ⟨_, _, rfl, same, pursued⟩

end Hypergraph.Logs
