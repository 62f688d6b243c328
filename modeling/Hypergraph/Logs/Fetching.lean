import Hypergraph.Logs.Directory
import Mathlib.Data.List.Nodup

/-! What each operation of the directory does: no log is forgotten on the way from being told of to
being fetched, but where too many wait for a slot, or its last fetch is still ending.
-/

namespace Hypergraph.Logs

open Js Encodings Decisions

variable {who : Key → Option Who}

/-- The limit a held log is to have once its cuts are done. -/
def Held.goal (held : Held) : ℕ∞ := held.asked.getLast?.getD held.limit

/-- Something of a held log counts, and its limit is its cut's, unless a cut is under way, whose
limit it has already.
-/
structure Held.Sound (held : Held) : Prop where
  idle : held.running = false → 1 < held.limit ∧ ∀ cut, held.cut = some cut → held.limit = cut
  busy : held.running = true → ∃ rest, held.asked = held.limit :: rest

namespace Directory

variable {dir dir' : Directory} {key other : Key} {told : List Key}

/-- The log's header is being fetched, or is to be. -/
def Pursued (dir : Directory) (key : Key) : Prop :=
  (∃ fetch ∈ dir.inflight, fetch.key = key ∧ fetch.phase ≠ .ending) ∨ key ∈ dir.queue

/-- A log that would run or wait is neither: there is no slot, and too many wait. -/
def Drops (dir : Directory) (key : Key) (urgent : Bool) : Prop :=
  key ∉ dir.queue ∧ ¬ (urgent = true ∧ dir.urgent < FETCHES) ∧ FETCHES ≤ dir.ordinary
    ∧ MAX_QUEUE ≤ dir.queue.length

/-- The log is refused, or nothing of it is here. -/
def LeftOut (dir : Directory) (key : Key) : Prop :=
  dir.logs key = none ∧ (key ∈ dir.refused ∨ (key ∉ dir.pending ∧ ¬ dir.Pursued key))

/-- The directory has heard of the log. -/
def Knows (dir : Directory) (key : Key) : Prop :=
  (dir.logs key).isSome ∨ key ∈ dir.pending ∨ key ∈ dir.refused
    ∨ key ∈ dir.inflight.map Fetch.key ∨ key ∈ dir.queue

/-- What a directory is at all times: each log is fetched or waits for it once, and is then neither
held nor refused; held logs neither wait nor are refused.
-/
structure Sound (told : List Key) (dir : Directory) : Prop where
  once : (dir.inflight.map Fetch.key).Nodup
  passed : ∀ fetch ∈ dir.inflight, ∀ limit, fetch.phase = .passed limit → 1 < limit
  fresh : ∀ key, dir.Pursued key → dir.logs key = none ∧ key ∉ dir.refused
  apart : ∀ key ∈ dir.queue, key ∉ dir.inflight.map Fetch.key
  queued : dir.queue.Nodup
  waits : dir.pending.Nodup
  held
    : ∀ key held, dir.logs key = some held
      → key ∉ dir.refused ∧ key ∉ dir.pending ∧ held.Sound
  named : ∀ key, dir.Knows key → key ∈ told

/-- Logs wait for their fetch only while there is no slot. -/
def Full (dir : Directory) : Prop := dir.queue ≠ [] → FETCHES ≤ dir.ordinary

/-- More is fetched, and nothing else changed. -/
structure Grows (dir dir' : Directory) : Prop where
  logs : dir'.logs = dir.logs
  pending : dir'.pending = dir.pending
  refused : dir'.refused = dir.refused
  pursued : ∀ key, dir.Pursued key → dir'.Pursued key

theorem Grows.refl (dir : Directory) : Grows dir dir := ⟨rfl, rfl, rfl, fun _ => id⟩

theorem Grows.trans {dir'' : Directory} (first : Grows dir dir') (second : Grows dir' dir'')
    : Grows dir dir'' :=
  ⟨second.logs.trans first.logs, second.pending.trans first.pending,
    second.refused.trans first.refused, fun key here => second.pursued key (first.pursued key here)⟩

theorem sound_empty : Sound [] empty where
  once := List.nodup_nil
  passed _ listed := nomatch listed
  fresh key pursued := by
    rcases pursued with ⟨_, listed, _⟩ | listed
    · cases listed
    · cases listed
  apart _ listed := nomatch listed
  queued := List.nodup_nil
  waits := List.nodup_nil
  held _ _ found := nomatch found
  named key known := by simp [Knows, empty] at known

theorem Sound.mono {more : List Key} (sound : Sound told dir) (within : told ⊆ more)
    : Sound more dir :=
  { sound with named := fun key known => within (sound.named key known) }

-- Fetches

/-- The log's header is asked for. -/
def run (dir : Directory) (key : Key) (urgent : Bool) : Directory :=
  { dir with
    queue := dir.queue.erase key
    inflight := dir.inflight ++ [⟨key, urgent, .asking⟩] }

def enqueue (dir : Directory) (key : Key) : Directory := { dir with queue := dir.queue ++ [key] }

theorem run_grows (dir : Directory) (key : Key) (urgent : Bool) : Grows dir (dir.run key urgent) := by
  refine ⟨rfl, rfl, rfl, fun other pursued => ?_⟩
  rcases pursued with ⟨fetch, listed, named, phase⟩ | queued
  · exact .inl ⟨fetch, List.mem_append_left _ listed, named, phase⟩
  · by_cases here : other = key
    · exact .inl ⟨⟨key, urgent, .asking⟩, List.mem_append_right _ (List.mem_singleton_self _),
        here.symm, nofun⟩
    · exact .inr ((List.mem_erase_of_ne here).mpr queued)

theorem enqueue_grows (dir : Directory) (key : Key) : Grows dir (dir.enqueue key) := by
  refine ⟨rfl, rfl, rfl, fun other pursued => ?_⟩
  rcases pursued with active | queued
  · exact .inl active
  · exact .inr (List.mem_append_left _ queued)

theorem run_pursued (dir : Directory) (key : Key) (urgent : Bool)
    : (dir.run key urgent).Pursued key :=
  .inl ⟨⟨key, urgent, .asking⟩, List.mem_append_right _ (List.mem_singleton_self _), rfl, nofun⟩

theorem enqueue_pursued (dir : Directory) (key : Key) : (dir.enqueue key).Pursued key :=
  .inr (List.mem_append_right _ (List.mem_singleton_self _))

section Ask

variable (sound : Sound told dir) (listed : key ∈ told) (missing : dir.logs key = none)
  (open_ : key ∉ dir.refused) (idle : key ∉ dir.inflight.map Fetch.key)

include sound listed missing open_ idle

theorem Sound.run (urgent : Bool) : Sound told (dir.run key urgent) where
  once := by
    unfold Directory.run
    rw [List.map_append, List.nodup_append]
    refine ⟨sound.once, by simp, fun other there other' here same => ?_⟩
    rw [List.map_singleton, List.mem_singleton] at here
    rw [same, here] at there
    exact idle there
  passed fetch there limit phase := by
    rcases List.mem_append.mp there with before | new
    · exact sound.passed fetch before limit phase
    · rw [List.mem_singleton.mp new] at phase
      cases phase
  fresh other pursued := by
    rcases pursued with ⟨fetch, there, named, phase⟩ | queued
    · rcases List.mem_append.mp there with before | new
      · exact sound.fresh other (.inl ⟨fetch, before, named, phase⟩)
      · rw [List.mem_singleton.mp new] at named
        exact named ▸ ⟨missing, open_⟩
    · exact sound.fresh other (.inr (List.mem_of_mem_erase queued))
  apart other queued := by
    have apart := sound.apart other (List.mem_of_mem_erase queued)
    have different : other ≠ key := by
      rintro rfl
      exact sound.queued.not_mem_erase queued
    unfold Directory.run
    simp only [List.map_append, List.mem_append, List.map_singleton, List.mem_singleton, not_or]
    exact ⟨apart, different⟩
  queued := sound.queued.erase key
  waits := sound.waits
  held := sound.held
  named other known := by
    rcases known with held | waits | refused | fetched | queued
    · exact sound.named other (.inl held)
    · exact sound.named other (.inr (.inl waits))
    · exact sound.named other (.inr (.inr (.inl refused)))
    · unfold Directory.run at fetched
      rw [List.map_append, List.mem_append, List.map_singleton, List.mem_singleton] at fetched
      rcases fetched with before | rfl
      · exact sound.named other (.inr (.inr (.inr (.inl before))))
      · exact listed
    · exact sound.named other (.inr (.inr (.inr (.inr (List.mem_of_mem_erase queued)))))

theorem Sound.enqueue (new : key ∉ dir.queue) : Sound told (dir.enqueue key) where
  once := sound.once
  passed := sound.passed
  fresh other pursued := by
    rcases pursued with active | queued
    · exact sound.fresh other (.inl active)
    · rcases List.mem_append.mp queued with before | here
      · exact sound.fresh other (.inr before)
      · rw [List.mem_singleton.mp here]
        exact ⟨missing, open_⟩
  apart other queued := by
    rcases List.mem_append.mp queued with before | here
    · exact sound.apart other before
    · exact List.mem_singleton.mp here ▸ idle
  queued := by
    refine List.nodup_append.mpr ⟨sound.queued, by simp, ?_⟩
    intro other there other' here same
    rw [same, List.mem_singleton.mp here] at there
    exact new there
  waits := sound.waits
  held := sound.held
  named other known := by
    rcases known with held | waits | refused | fetched | queued
    · exact sound.named other (.inl held)
    · exact sound.named other (.inr (.inl waits))
    · exact sound.named other (.inr (.inr (.inl refused)))
    · exact sound.named other (.inr (.inr (.inr (.inl fetched))))
    · rcases List.mem_append.mp queued with before | here
      · exact sound.named other (.inr (.inr (.inr (.inr before))))
      · exact List.mem_singleton.mp here ▸ listed

end Ask

/-- What `#fetch` does: the log is fetched already or dropped, or it runs, or waits its turn. -/
theorem fetch_cases (key : Key) (full : dir.Full) (urgent : Bool)
    : (dir.fetch key urgent = dir ∧ (key ∈ dir.queue ∨ dir.Drops key urgent))
      ∨ (∃ u, dir.fetch key urgent = dir.run key u)
      ∨ (dir.fetch key urgent = dir.enqueue key ∧ key ∉ dir.queue ∧ FETCHES ≤ dir.ordinary) := by
  unfold fetch
  split
  · rename_i queued
    exact .inl ⟨rfl, .inl queued.1⟩
  · split
    · exact .inr (.inl ⟨true, rfl⟩)
    · rename_i waits
      split
      · rename_i slots
        by_cases here : key ∈ dir.queue
        · left
          refine ⟨?_, .inl here⟩
          rw [if_pos here]
          split <;> rfl
        · rw [if_neg here]
          split
          · rename_i crowded
            exact .inl ⟨rfl, .inr ⟨here, waits, slots, crowded⟩⟩
          · exact .inr (.inr ⟨rfl, here, slots⟩)
      · rename_i slots
        have empty : dir.queue = [] := by
          by_contra some_
          exact slots (full some_)
        refine .inr (.inl ⟨false, ?_⟩)
        unfold run
        rw [empty]
        rfl

theorem Full.fetch (full : dir.Full) (urgent : Bool) : (dir.fetch key urgent).Full := by
  rcases fetch_cases key full urgent with ⟨same, _⟩ | ⟨u, same⟩ | ⟨same, _, slots⟩
  · rw [same]
    exact full
  · rw [same]
    intro some_
    have before : dir.queue ≠ [] := by
      rintro none_
      unfold run at some_
      rw [none_] at some_
      exact some_ rfl
    unfold run ordinary
    rw [List.countP_append]
    exact Nat.le_add_right_of_le (full before)
  · rw [same]
    exact fun _ => slots

theorem fetch_spec (sound : Sound told dir) (full : dir.Full) (listed : key ∈ told)
    (missing : dir.logs key = none) (open_ : key ∉ dir.refused)
    (idle : key ∉ dir.inflight.map Fetch.key) (urgent : Bool)
    : Sound told (dir.fetch key urgent) ∧ Grows dir (dir.fetch key urgent)
      ∧ ((dir.fetch key urgent).Pursued key ∨ dir.Drops key urgent) := by
  rcases fetch_cases key full urgent with ⟨same, why⟩ | ⟨u, same⟩ | ⟨same, new, _⟩
  · rw [same]
    exact ⟨sound, .refl dir, why.imp_left .inr⟩
  · rw [same]
    exact ⟨sound.run listed missing open_ idle u, run_grows dir key u, .inl (run_pursued dir key u)⟩
  · rw [same]
    exact ⟨sound.enqueue listed missing open_ idle new, enqueue_grows dir key,
      .inl (enqueue_pursued dir key)⟩

theorem fetching_iff : dir.fetching key = true ↔ key ∈ dir.inflight.map Fetch.key := by
  exact List.contains_iff_mem

section Consider

variable {standing : Standing}

/-- Considering a log known to the members told: more is fetched; a log neither held nor refused is
then fetched, but where its last fetch is still ending, or it waits and doesn't count, or too many
wait.
-/
theorem consider_spec (who : Key → Option Who) (standing : Standing) (sound : Sound told dir)
    (full : dir.Full) (listed : key ∈ told) (urgent : Bool)
    : Sound told (dir.consider key who standing urgent)
      ∧ (dir.consider key who standing urgent).Full
      ∧ Grows dir (dir.consider key who standing urgent)
      ∧ (dir.logs key = none → key ∉ dir.refused
        → (dir.consider key who standing urgent).Pursued key ∨ dir.fetching key = true
          ∨ (key ∈ dir.pending ∧ ¬ 1 < limitOf who standing key) ∨ dir.Drops key urgent) := by
  unfold consider
  split
  · rename_i done
    refine ⟨sound, full, .refl dir, fun missing open_ => ?_⟩
    rcases done with held | refused
    · rw [missing] at held
      cases held
    · exact absurd refused open_
  · rename_i fresh
    obtain ⟨missing, open_⟩ := not_or.mp fresh
    have missing := Option.not_isSome_iff_eq_none.mp missing
    split
    · rename_i fetching
      exact ⟨sound, full, .refl dir, fun _ _ => .inr (.inl fetching)⟩
    · rename_i idle
      obtain ⟨sound', grows, pursued⟩ := fetch_spec sound full listed missing open_
        (fetching_iff.not.mp idle) urgent
      split
      · rename_i waits
        split
        · exact ⟨sound', full.fetch urgent, grows, fun _ _ => pursued.imp_right (.inr ∘ .inr)⟩
        · rename_i uncounted
          exact ⟨sound, full, .refl dir, fun _ _ => .inr (.inr (.inl ⟨waits, uncounted⟩))⟩
      · exact ⟨sound', full.fetch urgent, grows, fun _ _ => pursued.imp_right (.inr ∘ .inr)⟩

end Consider

-- The next fetches

/-- The first of the queue is taken from it. -/
def take (dir : Directory) (rest : List Key) : Directory := { dir with queue := rest }

theorem Sound.take {rest : List Key} (sound : Sound told dir) (queue : dir.queue = key :: rest)
    : Sound told (dir.take rest) where
  once := sound.once
  passed := sound.passed
  fresh other pursued := by
    rcases pursued with active | queued
    · exact sound.fresh other (.inl active)
    · exact sound.fresh other (.inr (queue ▸ List.mem_cons_of_mem _ queued))
  apart other queued := sound.apart other (queue ▸ List.mem_cons_of_mem _ queued)
  queued := (List.nodup_cons.mp (queue ▸ sound.queued)).2
  waits := sound.waits
  held := sound.held
  named other known := by
    rcases known with held | waits | refused | fetched | queued
    · exact sound.named other (.inl held)
    · exact sound.named other (.inr (.inl waits))
    · exact sound.named other (.inr (.inr (.inl refused)))
    · exact sound.named other (.inr (.inr (.inr (.inl fetched))))
    · exact sound.named other
        (.inr (.inr (.inr (.inr (queue ▸ List.mem_cons_of_mem _ queued)))))

/-- With a slot, the log taken runs, unless it waits and doesn't count. -/
theorem consider_taken (who : Key → Option Who) (standing : Standing) {rest : List Key}
    (sound : Sound told dir) (queue : dir.queue = key :: rest) (slots : dir.ordinary < FETCHES)
    : ((dir.take rest).consider key who standing false = dir.take rest
        ∧ ¬ 1 < limitOf who standing key)
      ∨ (dir.take rest).consider key who standing false = (dir.take rest).run key false := by
  have first : key ∈ dir.queue := queue ▸ List.mem_cons_self
  obtain ⟨missing, open_⟩ := sound.fresh key (.inr first)
  have idle : ¬ (dir.take rest).fetching key = true :=
    fetching_iff.not.mpr (sound.apart key first)
  have gone : key ∉ rest := (List.nodup_cons.mp (queue ▸ sound.queued)).1
  have runs : (dir.take rest).fetch key false = (dir.take rest).run key false := by
    have free : ¬ FETCHES ≤ (dir.take rest).ordinary := Nat.not_le_of_lt slots
    have same : (dir.take rest).queue.erase key = (dir.take rest).queue :=
      List.erase_of_not_mem gone
    unfold fetch Directory.run
    rw [if_neg fun both => gone both.1, if_neg fun both => (nomatch both.1), if_neg free, same]
  unfold consider
  rw [if_neg, if_neg idle, runs]
  · split
    · split
      · exact .inr rfl
      · rename_i uncounted
        exact .inl ⟨rfl, uncounted⟩
    · exact .inr rfl
  · rw [not_or, Option.not_isSome_iff_eq_none]
    exact ⟨missing, open_⟩

/-- A log taken from the queue is fetched at once, unless it waits and doesn't count; induction
on the fuel.
-/
theorem nextFetch_spec (who : Key → Option Who) (standing : Standing) (fuel : Nat) (sound : Sound told dir)
    (enough : dir.queue.length ≤ fuel)
    : Sound told (nextFetch who standing fuel dir)
      ∧ (nextFetch who standing fuel dir).Full
      ∧ (nextFetch who standing fuel dir).logs = dir.logs
      ∧ (nextFetch who standing fuel dir).pending = dir.pending
      ∧ (nextFetch who standing fuel dir).refused = dir.refused
      ∧ ∀ key, dir.Pursued key → (nextFetch who standing fuel dir).Pursued key
        ∨ (dir.logs key = none ∧ ¬ 1 < limitOf who standing key) := by
  induction fuel generalizing dir with
  | zero =>
      have empty : dir.queue = [] := List.eq_nil_of_length_eq_zero (Nat.le_zero.mp enough)
      exact ⟨sound, fun some_ => absurd empty some_, rfl, rfl, rfl, fun _ => .inl⟩
  | succ fuel ih =>
      unfold nextFetch
      split
      · rename_i empty
        exact ⟨sound, fun some_ => absurd empty some_, rfl, rfl, rfl, fun _ => .inl⟩
      · rename_i key rest queue
        split
        · rename_i slots
          have taken := sound.take queue
          have shorter : (dir.take rest).queue.length ≤ fuel := by
            have length := congrArg List.length queue
            rw [List.length_cons] at length
            change rest.length ≤ fuel
            omega
          have before (other : Key) (pursued : dir.Pursued other)
              : other = key ∨ (dir.take rest).Pursued other := by
            rcases pursued with active | queued
            · exact .inr (.inl active)
            · rw [queue] at queued
              exact (List.mem_cons.mp queued).imp_right .inr
          rcases consider_taken who standing sound queue slots with
            ⟨same, uncounted⟩ | same
          · rw [show ({ dir with queue := rest } : Directory) = dir.take rest from rfl, same]
            obtain ⟨sound', full, logs, pending, refused, pursued⟩ := ih taken shorter
            refine ⟨sound', full, logs, pending, refused, fun other here => ?_⟩
            rcases before other here with rfl | still
            · exact .inr ⟨(sound.fresh other here).1, uncounted⟩
            · exact pursued other still
          · have first : key ∈ dir.queue := queue ▸ List.mem_cons_self
            obtain ⟨missing, open_⟩ := sound.fresh key (.inr first)
            have run := taken.run (sound.named key (.inr (.inr (.inr (.inr first))))) missing open_
              (sound.apart key first) false
            have gone : key ∉ rest := (List.nodup_cons.mp (queue ▸ sound.queued)).1
            have still : ((dir.take rest).run key false).queue.length ≤ fuel := by
              change (rest.erase key).length ≤ fuel
              rw [List.erase_of_not_mem gone]
              exact shorter
            have grows := run_grows (dir.take rest) key false
            rw [show ({ dir with queue := rest } : Directory) = dir.take rest from rfl, same]
            obtain ⟨sound', full, logs, pending, refused, pursued⟩ := ih run still
            refine ⟨sound', full, logs, pending, refused, fun other here => ?_⟩
            rcases before other here with rfl | later
            · exact pursued other (run_pursued _ other false)
            · exact pursued other (grows.pursued other later)
        · rename_i slots
          exact ⟨sound, fun _ => Nat.le_of_not_lt slots, rfl, rfl, rfl, fun _ => .inl⟩

-- What a fetch comes to

theorem mem_setPhase {phase : Phase} {fetch : Fetch}
    : fetch ∈ (dir.setPhase key phase).inflight
      ↔ ∃ before ∈ dir.inflight,
        (if before.key = key then { before with phase := phase } else before) = fetch :=
  List.mem_map

theorem keys_setPhase (dir : Directory) (key : Key) (phase : Phase)
    : (dir.setPhase key phase).inflight.map Fetch.key = dir.inflight.map Fetch.key := by
  unfold setPhase
  rw [List.map_map]
  apply List.map_congr_left
  intro fetch _
  rw [Function.comp_apply]
  split <;> rfl

theorem ordinary_setPhase (dir : Directory) (key : Key) (phase : Phase)
    : (dir.setPhase key phase).ordinary = dir.ordinary := by
  unfold setPhase ordinary
  rw [List.countP_map]
  apply List.countP_congr
  intro fetch _
  rw [Function.comp_apply]
  split <;> rfl

theorem pursued_setPhase {phase : Phase} (different : other ≠ key)
    : (dir.setPhase key phase).Pursued other ↔ dir.Pursued other := by
  apply or_congr_left
  constructor
  · rintro ⟨fetch, listed, named, live⟩
    obtain ⟨before, there, same⟩ := mem_setPhase.mp listed
    split at same
    · rename_i here
      rw [← same] at named
      exact absurd (named.symm.trans here) different
    · exact ⟨before, there, same ▸ named, same ▸ live⟩
  · rintro ⟨fetch, listed, named, live⟩
    refine ⟨fetch, mem_setPhase.mpr ⟨fetch, listed, ?_⟩, named, live⟩
    rw [if_neg (named ▸ different)]

theorem pursued_of_setPhase {phase : Phase} (pursued : (dir.setPhase key phase).Pursued other)
    (listed : dir.Pursued key) : dir.Pursued other := by
  by_cases here : other = key
  · exact here ▸ listed
  · exact (pursued_setPhase here).mp pursued

theorem not_pursued_ending (sound : Sound told dir) (listed : key ∈ dir.inflight.map Fetch.key)
    : ¬ (dir.setPhase key .ending).Pursued key := by
  rintro (⟨fetch, there, named, live⟩ | queued)
  · obtain ⟨before, _, same⟩ := mem_setPhase.mp there
    split at same
    · exact live (same ▸ rfl)
    · rename_i apart
      exact apart (same ▸ named)
  · exact sound.apart key queued listed

theorem Sound.setPhase (sound : Sound told dir) (pursued : dir.Pursued key) (phase : Phase)
    (passes : ∀ limit, phase = .passed limit → 1 < limit)
    : Sound told (dir.setPhase key phase) where
  once := (keys_setPhase dir key phase).symm ▸ sound.once
  passed fetch listed limit is_ := by
    obtain ⟨before, there, same⟩ := mem_setPhase.mp listed
    split at same
    · exact passes limit ((congrArg Fetch.phase same).trans is_)
    · exact sound.passed before there limit (same ▸ is_)
  fresh other here := sound.fresh other (pursued_of_setPhase here pursued)
  apart other queued := (keys_setPhase dir key phase).symm ▸ sound.apart other queued
  queued := sound.queued
  waits := sound.waits
  held := sound.held
  named other known := by
    unfold Knows at known
    rw [keys_setPhase] at known
    exact sound.named other known

theorem Full.setPhase (full : dir.Full) (key : Key) (phase : Phase) : (dir.setPhase key phase).Full :=
  fun some_ => (ordinary_setPhase dir key phase).symm ▸ full some_

theorem Sound.refuse (sound : Sound told dir) (listed : key ∈ told) (missing : dir.logs key = none)
    (idle : ¬ dir.Pursued key)
    : Sound told (dir.refuse key) where
  once := sound.once
  passed := sound.passed
  fresh other pursued := by
    obtain ⟨none_, open_⟩ := sound.fresh other pursued
    refine ⟨none_, List.mem_cons.not.mpr (not_or.mpr ⟨?_, open_⟩)⟩
    rintro rfl
    exact idle pursued
  apart := sound.apart
  queued := sound.queued
  waits := sound.waits
  held other held found := by
    obtain ⟨open_, here⟩ := sound.held other held found
    refine ⟨List.mem_cons.not.mpr (not_or.mpr ⟨?_, open_⟩), here⟩
    rintro rfl
    have found : dir.logs other = some held := found
    rw [missing] at found
    cases found
  named other known := by
    rcases known with held | waits | refused | fetched | queued
    · exact sound.named other (.inl held)
    · exact sound.named other (.inr (.inl waits))
    · rcases List.mem_cons.mp refused with rfl | before
      · exact listed
      · exact sound.named other (.inr (.inr (.inl before)))
    · exact sound.named other (.inr (.inr (.inr (.inl fetched))))
    · exact sound.named other (.inr (.inr (.inr (.inr queued))))

theorem mem_wait : other ∈ (dir.wait key).pending ↔ other = key
    ∨ other ∈ if MAX_PENDING ≤ dir.pending.length then dir.pending.tail else dir.pending := by
  unfold wait
  dsimp only
  generalize (if MAX_PENDING ≤ dir.pending.length then dir.pending.tail else dir.pending) = waiting
  split
  · rename_i there
    constructor
    · exact .inr
    · rintro (rfl | waits)
      · exact there
      · exact waits
  · rw [List.mem_append, List.mem_singleton, or_comm]

theorem mem_of_kept
    (waits : other ∈ if MAX_PENDING ≤ dir.pending.length then dir.pending.tail else dir.pending)
    : other ∈ dir.pending := by
  split at waits
  · exact List.mem_of_mem_tail waits
  · exact waits

theorem Sound.wait (sound : Sound told dir) (listed : key ∈ told) (missing : dir.logs key = none)
    : Sound told (dir.wait key) where
  once := sound.once
  passed := sound.passed
  fresh := sound.fresh
  apart := sound.apart
  queued := sound.queued
  waits := by
    have kept : (if MAX_PENDING ≤ dir.pending.length then dir.pending.tail
        else dir.pending).Nodup := by
      split
      · exact sound.waits.tail
      · exact sound.waits
    unfold Directory.wait
    dsimp only
    generalize (if MAX_PENDING ≤ dir.pending.length then dir.pending.tail else dir.pending)
      = waiting at kept
    split
    · exact kept
    · rename_i new
      refine List.nodup_append.mpr ⟨kept, by simp, fun other there other' here same => ?_⟩
      rw [same, List.mem_singleton.mp here] at there
      exact new there
  held other held found := by
    obtain ⟨open_, there, kept⟩ := sound.held other held found
    refine ⟨open_, fun waits => ?_, kept⟩
    rcases mem_wait.mp waits with rfl | before
    · have found : dir.logs other = some held := found
      rw [missing] at found
      cases found
    · exact there (mem_of_kept before)
  named other known := by
    rcases known with held | waits | refused | fetched | queued
    · exact sound.named other (.inl held)
    · rcases mem_wait.mp waits with rfl | before
      · exact listed
      · exact sound.named other (.inr (.inl (mem_of_kept before)))
    · exact sound.named other (.inr (.inr (.inl refused)))
    · exact sound.named other (.inr (.inr (.inr (.inl fetched))))
    · exact sound.named other (.inr (.inr (.inr (.inr queued))))

theorem Sound.accept (sound : Sound told dir) (listed : key ∈ told) (missing : dir.logs key = none)
    (open_ : key ∉ dir.refused) (idle : ¬ dir.Pursued key) {limit : ℕ∞} (counts : 1 < limit)
    : Sound told (dir.accept key limit) := by
  have shape : dir.accept key limit
      = { dir with
          logs := fun other => if other = key then some { limit := limit } else dir.logs other
          pending := dir.pending.erase key } := by
    unfold Directory.accept
    rw [if_neg]
    rw [missing]
    decide
  rw [shape]
  refine ⟨sound.once, sound.passed, ?_, sound.apart, sound.queued, sound.waits.erase key, ?_, ?_⟩
  · intro other pursued
    have different : other ≠ key := by
      rintro rfl
      exact idle pursued
    exact ⟨(if_neg different).trans (sound.fresh other pursued).1, (sound.fresh other pursued).2⟩
  · intro other held found
    dsimp only at found
    split at found
    · rename_i here
      cases found
      rw [here]
      exact ⟨open_, sound.waits.not_mem_erase, ⟨fun _ => ⟨counts, nofun⟩, nofun⟩⟩
    · obtain ⟨open', there, kept⟩ := sound.held other held found
      exact ⟨open', fun waits => there (List.mem_of_mem_erase waits), kept⟩
  · intro other known
    rcases known with held | waits | refused | fetched | queued
    · dsimp only at held
      split at held
      · rename_i here
        exact here ▸ listed
      · exact sound.named other (.inl held)
    · exact sound.named other (.inr (.inl (List.mem_of_mem_erase waits)))
    · exact sound.named other (.inr (.inr (.inl refused)))
    · exact sound.named other (.inr (.inr (.inr (.inl fetched))))
    · exact sound.named other (.inr (.inr (.inr (.inr queued))))

theorem Sound.setHeld {before held : Held} (sound : Sound told dir)
    (found : dir.logs key = some before) (kept : held.Sound)
    : Sound told (dir.setHeld key held) where
  once := sound.once
  passed := sound.passed
  fresh other pursued := by
    have missing := (sound.fresh other pursued).1
    have different : other ≠ key := by
      rintro rfl
      rw [missing] at found
      cases found
    exact ⟨(if_neg different).trans missing, (sound.fresh other pursued).2⟩
  apart := sound.apart
  queued := sound.queued
  waits := sound.waits
  held other held' found' := by
    unfold Directory.setHeld at found'
    dsimp only at found'
    split at found'
    · rename_i here
      cases found'
      rw [here]
      exact ⟨(sound.held key before found).1, (sound.held key before found).2.1, kept⟩
    · exact sound.held other held' found'
  named other known := by
    rcases known with held | waits
    · unfold Directory.setHeld at held
      dsimp only at held
      split at held
      · rename_i here
        exact sound.named other (.inl (by rw [here, found]; rfl))
      · exact sound.named other (.inl held)
    · exact sound.named other (.inr waits)

theorem Sound.drop {held : Held} (sound : Sound told dir) (found : dir.logs key = some held)
    : Sound told (dir.drop key) where
  once := sound.once
  passed := sound.passed
  fresh other pursued := by
    obtain ⟨missing, open_⟩ := sound.fresh other pursued
    have different : other ≠ key := by
      rintro rfl
      rw [missing] at found
      cases found
    exact ⟨(if_neg different).trans missing, List.mem_cons.not.mpr (not_or.mpr ⟨different, open_⟩)⟩
  apart := sound.apart
  queued := sound.queued
  waits := sound.waits
  held other held' found' := by
    unfold Directory.drop at found'
    dsimp only at found'
    split at found'
    · cases found'
    · rename_i different
      obtain ⟨open_, there, kept⟩ := sound.held other held' found'
      exact ⟨List.mem_cons.not.mpr (not_or.mpr ⟨different, open_⟩), there, kept⟩
  named other known := by
    rcases known with held | waits | refused | rest
    · unfold Directory.drop at held
      dsimp only at held
      split at held
      · cases held
      · exact sound.named other (.inl held)
    · exact sound.named other (.inr (.inl waits))
    · rcases List.mem_cons.mp refused with rfl | before
      · exact sound.named other (.inl (by rw [found]; rfl))
      · exact sound.named other (.inr (.inr (.inl before)))
    · exact sound.named other (.inr (.inr (.inr rest)))

/-- The fetch of a log is taken off the list. -/
def without (dir : Directory) (key : Key) : Directory :=
  { dir with inflight := dir.inflight.filter fun fetch => fetch.key ≠ key }

theorem Sound.without (sound : Sound told dir) (key : Key) : Sound told (dir.without key) where
  once := sound.once.sublist (List.filter_sublist.map Fetch.key)
  passed fetch listed := sound.passed fetch (List.mem_filter.mp listed).1
  fresh other pursued := by
    rcases pursued with ⟨fetch, listed, named, live⟩ | queued
    · exact sound.fresh other (.inl ⟨fetch, (List.mem_filter.mp listed).1, named, live⟩)
    · exact sound.fresh other (.inr queued)
  apart other queued fetched :=
    sound.apart other queued ((List.filter_sublist.map Fetch.key).subset fetched)
  queued := sound.queued
  waits := sound.waits
  held := sound.held
  named other known := by
    rcases known with held | waits | refused | fetched | queued
    · exact sound.named other (.inl held)
    · exact sound.named other (.inr (.inl waits))
    · exact sound.named other (.inr (.inr (.inl refused)))
    · exact sound.named other
        (.inr (.inr (.inr (.inl ((List.filter_sublist.map Fetch.key).subset fetched)))))
    · exact sound.named other (.inr (.inr (.inr (.inr queued))))

/-- Where a fetch is ending, every log is pursued without it that was. -/
theorem pursued_without (sound : Sound told dir) {fetch : Fetch} (listed : fetch ∈ dir.inflight)
    (ending : fetch.phase = .ending) (pursued : dir.Pursued other)
    : (dir.without fetch.key).Pursued other := by
  rcases pursued with ⟨fetch', there, named, live⟩ | queued
  · refine .inl ⟨fetch', List.mem_filter.mpr ⟨there, ?_⟩, named, live⟩
    rw [decide_eq_true_eq]
    intro same
    have one := List.inj_on_of_nodup_map sound.once there listed same
    exact live (one ▸ ending)
  · exact .inr queued

-- Rechecks

instance (dir : Directory) (key : Key) : Decidable (dir.Pursued key) :=
  inferInstanceAs (Decidable (_ ∨ _))

/-- How many logs more can be fetched or wait for it. -/
def room (dir : Directory) : Nat :=
  (FETCHES - dir.ordinary) + (MAX_QUEUE - dir.queue.length)

/-- The log waits and counts, but nothing fetches it yet. -/
def Unasked (dir : Directory) (key : Key) : Prop := key ∉ dir.refused ∧ ¬ dir.Pursued key

instance (dir : Directory) (key : Key) : Decidable (dir.Unasked key) :=
  inferInstanceAs (Decidable (_ ∧ _))

section Recheck

variable {standing : Standing}

theorem consider_cases (who : Key → Option Who) (standing : Standing) (key : Key)
    (full : dir.Full)
    : dir.consider key who standing false = dir
      ∨ (∃ u, dir.consider key who standing false = dir.run key u)
      ∨ dir.consider key who standing false = dir.enqueue key := by
  have fetched : dir.fetch key false = dir ∨ (∃ u, dir.fetch key false = dir.run key u)
      ∨ dir.fetch key false = dir.enqueue key := by
    rcases fetch_cases key full false with ⟨same, _⟩ | runs | ⟨same, _⟩
    · exact .inl same
    · exact .inr (.inl runs)
    · exact .inr (.inr same)
  unfold consider
  split
  · exact .inl rfl
  · split
    · exact .inl rfl
    · split
      · split
        · exact fetched
        · exact .inl rfl
      · exact fetched

theorem room_consider (who : Key → Option Who) (standing : Standing) (key : Key)
    (full : dir.Full)
    : dir.room ≤ (dir.consider key who standing false).room + 1 := by
  rcases consider_cases who standing key full with
    same | ⟨u, same⟩ | same
  · rw [same]
    exact Nat.le_succ _
  · have fewer : (dir.queue.erase key).length ≤ dir.queue.length := List.length_erase_le
    have more : (dir.run key u).ordinary ≤ dir.ordinary + 1 := by
      unfold ordinary Directory.run
      rw [List.countP_append]
      exact Nat.add_le_add_left List.countP_le_length _
    rw [same]
    unfold room
    change _ ≤ FETCHES - (dir.run key u).ordinary
      + (MAX_QUEUE - (dir.queue.erase key).length) + 1
    omega
  · rw [same]
    unfold room
    change _ ≤ FETCHES - dir.ordinary + (MAX_QUEUE - (dir.queue ++ [key]).length) + 1
    rw [List.length_append, List.length_singleton]
    omega

theorem fetching_consider (full : dir.Full)
    (fetching : (dir.consider key who standing false).fetching other = true)
    : other = key ∨ dir.fetching other = true := by
  rcases consider_cases who standing key full with
    same | ⟨u, same⟩ | same
  · exact .inr (same ▸ fetching)
  · rw [same, fetching_iff] at fetching
    unfold Directory.run at fetching
    rw [List.map_append, List.mem_append, List.map_singleton, List.mem_singleton] at fetching
    rcases fetching with before | here
    · exact .inr (fetching_iff.mpr before)
    · exact .inl here
  · rw [same] at fetching
    exact .inr fetching

theorem consider_asked (asked : ¬ dir.Unasked key)
    : dir.consider key who standing false = dir := by
  unfold consider
  split
  · rfl
  · rename_i fresh
    have pursued : dir.Pursued key := by
      by_contra idle
      exact asked ⟨(not_or.mp fresh).2, idle⟩
    split
    · rfl
    · rename_i idle
      have queued : key ∈ dir.queue := by
        rcases pursued with ⟨fetch, listed, named, _⟩ | queued
        · exact absurd (fetching_iff.mpr (named ▸ List.mem_map_of_mem listed)) idle
        · exact queued
      have same : dir.fetch key false = dir := if_pos ⟨queued, rfl⟩
      rw [same, ite_self, ite_self]

/-- Waiting logs that count are fetched, each, as long as there is room and their last fetch is
over; induction on the logs.
-/
theorem foldl_consider_spec (who : Key → Option Who) (standing : Standing) (list : List Key) (sound : Sound told dir) (full : dir.Full)
    (unique : list.Nodup)
    (counts : ∀ key ∈ list, key ∈ told ∧ dir.logs key = none ∧ 1 < limitOf who standing key)
    (ended : ∀ key ∈ list, dir.Unasked key → ¬ dir.fetching key = true)
    (fits : list.countP (fun key => dir.Unasked key) ≤ dir.room)
    : let after := list.foldl (fun dir key => dir.consider key who standing false) dir
      Sound told after ∧ after.Full ∧ Grows dir after
        ∧ ∀ key ∈ list, key ∉ dir.refused → after.Pursued key := by
  induction list generalizing dir with
  | nil => exact ⟨sound, full, .refl dir, fun _ listed => (nomatch listed)⟩
  | cons key rest ih =>
      obtain ⟨new, unique⟩ := List.nodup_cons.mp unique
      obtain ⟨named, missing, limit⟩ := counts key List.mem_cons_self
      obtain ⟨sound', full', grows, asked⟩ :=
        consider_spec who standing sound full named false
      have unasked (other : Key)
          (still : (dir.consider key who standing false).Unasked other) : dir.Unasked other :=
        ⟨grows.refused ▸ still.1, fun pursued => still.2 (grows.pursued other pursued)⟩
      have fewer : rest.countP (fun key' => (dir.consider key who standing false).Unasked key')
          ≤ rest.countP (fun key => dir.Unasked key) :=
        List.countP_mono_left fun other _ still => by
          simpa using unasked other (by simpa using still)
      have later : rest.countP (fun key' => (dir.consider key who standing false).Unasked key')
          ≤ (dir.consider key who standing false).room := by
        by_cases here : dir.Unasked key
        · have spent := room_consider who standing key full
          rw [List.countP_cons, if_pos (by simpa using here)] at fits
          omega
        · rw [List.countP_cons, if_neg (by simpa using here)] at fits
          rw [consider_asked here]
          exact fits
      obtain ⟨sound'', full'', grows', pursued⟩ := ih sound' full' unique
        (fun other listed => grows.logs ▸ counts other (List.mem_cons_of_mem _ listed))
        (fun other listed still fetching => by
          rcases fetching_consider full fetching with rfl | before
          · exact new listed
          · exact ended other (List.mem_cons_of_mem _ listed) (unasked other still) before)
        later
      refine ⟨sound'', full'', grows.trans grows', fun other listed open_ => ?_⟩
      rcases List.mem_cons.mp listed with rfl | listed
      · apply grows'.pursued
        rcases asked missing open_ with done | fetching | uncounted | dropped
        · exact done
        · by_contra idle
          exact ended other List.mem_cons_self
            ⟨open_, fun before => idle (grows.pursued other before)⟩ fetching
        · exact absurd limit uncounted.2
        · obtain ⟨unqueued, _, slots, crowded⟩ := dropped
          by_contra idle
          have none_ : dir.room = 0 := by
            unfold room
            omega
          have here : dir.Unasked other := ⟨open_, fun before => idle (grows.pursued other before)⟩
          rw [List.countP_cons, if_pos (by simpa using here), none_] at fits
          omega
      · exact pursued other listed (grows.refused ▸ open_)

end Recheck

end Directory

end Hypergraph.Logs
