import Hypergraph.Lib.Runs
import Hypergraph.Channels.Unions

/-! What a keeper lists of the announcements that reach it (`acceptAnnouncement` and `#claim` of
`src/v2/index.js`, `Roster.put` of `src/v2/roster.js`). An announcement that checks out is claimed at
once and written in steps, with those of others in between: its roster is asked for the entry, written,
and then the author index, after it was read.
-/

namespace Hypergraph.Channels.Keeping

open Wire Js Encodings Unions

-- A keeper

/-- Where a keeper's rosters have an entry. -/
structure Place where
  channel : String
  segment : Nat
  author : Key
  deriving DecidableEq, Repr

/-- Whose entry it is in the author indexes. -/
def Place.owner (place : Place) : String × Key := (place.channel, place.author)

/-- An announcement: the entry of a place, as its author signed it. -/
structure Announcement where
  place : Place
  value : Value
  deriving DecidableEq, Repr

/-- What is so as an announcement comes in: the time, its channel's segments if there is such a channel,
whether the keeper keeps a roster of it that it can write, and whether its author is banned.
-/
structure Seen where
  now : Nat
  segmentMs : Option Nat
  kept : Bool
  banned : Bool

/-- What an announcement's writing waits for. -/
inductive Phase
  /-- `roster.has`. -/
  | checking
  /-- The roster's `put`. -/
  | writing
  /-- `authors.get`. -/
  | reading
  /-- `authors.put`. -/
  | indexing
  deriving DecidableEq, Repr

/-- An announcement being written, claimed in a set. -/
structure Task where
  announcement : Announcement
  claimed : Nat
  phase : Phase
  deriving DecidableEq, Repr

namespace Task

variable (t : Task)

def place : Place := t.announcement.place

def value : Value := t.announcement.value

/-- Its roster has it. -/
def wrote : Bool := t.phase = .reading || t.phase = .indexing

end Task

structure State where
  /-- `#listing`: the sets of claims, by channel and segment. -/
  listing : Dict (String × Nat) Nat := .empty
  /-- The authors in a set, and how many sets there have been. -/
  sets : Nat → List Key := fun _ => []
  made : Nat := 0
  tasks : List Task := []
  /-- What was put in the rosters, a block each. -/
  roster : List (Place × Value) := []
  /-- The author indexes: an author's entry, with its segment. -/
  authors : Dict (String × Key) (Nat × Value) := .empty
  /-- Whose announcements were answered `true`. -/
  answered : List Place := []

/-- What happens: an announcement comes in, or what a task waits for is done, or throws. -/
inductive Event
  | announce (seen : Seen) (ann : Announcement)
  | proceed (i : Nat)
  | fail (i : Nat)

namespace State

-- `below`: `Number(text) < limit`
variable (crypto : Crypto) (communityKey : Key) (below : String → (limit : Int) → Bool) (s : State)

/-- `roster.has`. -/
def Listed (place : Place) : Prop := place ∈ s.roster.map Prod.fst

instance (place : Place) : Decidable (s.Listed place) := inferInstanceAs (Decidable (_ ∈ _))

/-- A set of claims is forgotten as one of a channel is made: its segment is too old, as its name in the
channel has it.
-/
def forgotten (channel : String) (current : Int) (claims : String × Nat) : Bool :=
  match (claims.1 ++ ":" ++ toString claims.2).splitOn ":" with
  | ch :: seg :: _ => ch = channel && below seg (current - 1)
  | _ => false

/-- `#claim`: the set, after adding the author to it; `none` if it was there already. -/
def claim (current : Int) (place : Place) : Option (State × Nat) :=
  match s.listing.get? (place.channel, place.segment) with
  | some held =>
      if place.author ∈ s.sets held then none
      else
        some ({ s with sets := Function.update s.sets held (place.author :: s.sets held) }, held)
  | none =>
      let listing := s.listing.filter fun claims => !forgotten below place.channel current claims
      some ({ s with
        listing := listing.put (place.channel, place.segment) s.made
        sets := Function.update s.sets s.made [place.author]
        made := s.made + 1 }, s.made)

/-- The segment it is, if an announcement checks out. -/
def accepts (seen : Seen) (ann : Announcement) : Option Int :=
  match seen.segmentMs with
  | none => none
  | some segmentMs =>
      if ¬ seen.kept then none
      else
        let current := segmentOf seen.now segmentMs
        if ann.place.segment < current - 1 ∨ current + 1 < ann.place.segment then none
        else if seen.banned then none
        else if ¬ verifyEntry crypto communityKey ann.place.channel ann.place.segment
            ⟨ann.value, ann.place.author⟩ then none
        else some current

def answer (place : Place) : State := { s with answered := place :: s.answered }

/-- A task goes on to a phase. -/
def goTo (t : Task) (phase : Phase) : State := { s with tasks := { t with phase } :: s.tasks }

/-- `acceptAnnouncement`, up to its first await; one that doesn't check out is answered `false`. -/
def announce (seen : Seen) (ann : Announcement) : State :=
  match accepts crypto communityKey seen ann with
  | none => s
  | some current =>
      match s.claim below current ann.place with
      | none => s.answer ann.place
      | some (s, claimed) => { s with tasks := ⟨ann, claimed, .checking⟩ :: s.tasks }

/-- A task, taken out of those there are, once what it waits for is done. -/
def proceed (t : Task) : State :=
  match t.phase with
  | .checking => if s.Listed t.place then s.answer t.place else s.goTo t .writing
  | .writing => { s with roster := s.roster ++ [(t.place, t.value)] }.goTo t .reading
  | .reading =>
      if (s.authors.get? t.place.owner).all (·.1 ≤ t.place.segment) then s.goTo t .indexing
      else s.answer t.place
  | .indexing =>
      { s with authors := s.authors.put t.place.owner (t.place.segment, t.value) }.answer t.place

/-- And where it throws: the claim is given up. -/
def fail (t : Task) : State :=
  { s with sets :=
      Function.update s.sets t.claimed ((s.sets t.claimed).filter (· ≠ t.place.author)) }

def step : Event → State
  | .announce seen ann => s.announce crypto communityKey below seen ann
  | .proceed i =>
      match s.tasks[i]? with
      | none => s
      | some t => { s with tasks := s.tasks.eraseIdx i }.proceed t
  | .fail i =>
      match s.tasks[i]? with
      | none => s
      | some t => { s with tasks := s.tasks.eraseIdx i }.fail t

/-- One of the tasks goes on to write an author's index, with a segment as high. -/
def Coming (tasks : List Task) (owner : String × Key) (segment : Nat) : Prop :=
  ∃ t ∈ tasks, t.wrote = true ∧ t.place.owner = owner ∧ segment ≤ t.place.segment

instance (tasks : List Task) (owner : String × Key) (segment : Nat)
    : Decidable (Coming tasks owner segment) :=
  inferInstanceAs (Decidable (∃ t ∈ tasks, _))

/-- What happens in good order. An announcement that checks out doesn't come in while the roster is to be
written with one of its author and segment whose claim was forgotten. An author index isn't written below
what it names, and nothing throws after the roster was written, unless the index names a segment as high
or another task goes on to. And nothing throws before that where a copy was answered `true`.
-/
def orderly : Event → Bool
  | .announce seen ann =>
      (accepts crypto communityKey seen ann).all fun _ => s.tasks.all fun t =>
        t.wrote || t.place ≠ ann.place
          || (s.listing.get? (ann.place.channel, ann.place.segment)).any fun set =>
            ann.place.author ∈ s.sets set
  | .proceed i =>
      s.tasks[i]?.all fun t =>
        t.phase ≠ .indexing || (s.authors.get? t.place.owner).all fun known =>
          known.1 ≤ t.place.segment || Coming (s.tasks.eraseIdx i) t.place.owner known.1
  | .fail i =>
      s.tasks[i]?.all fun t =>
        if t.wrote then
          (s.authors.get? t.place.owner).any (t.place.segment ≤ ·.1)
            || Coming (s.tasks.eraseIdx i) t.place.owner t.place.segment
        else t.place ∉ s.answered || s.Listed t.place

end State

-- What stays so

section Kept

variable (crypto : Crypto) (communityKey : Key)

/-- The entry of a place is its author's own. -/
def Signed (place : Place) (value : Value) : Prop :=
  verifyEntry crypto communityKey place.channel place.segment ⟨value, place.author⟩ = true

/-- Whatever is claimed or answered `true` is listed or being written, by one task each; and an author
index names a listed entry of a segment as high as any, or a task goes on to it.
-/
structure Sound (s : State) : Prop where
  apart : s.tasks.Pairwise fun t t' => t.wrote = false → t'.wrote = false → t.place ≠ t'.place
  once : (s.roster.map Prod.fst).Nodup
  signed : ∀ e ∈ s.roster, Signed crypto communityKey e.1 e.2
  announced : ∀ t ∈ s.tasks, Signed crypto communityKey t.place t.value
  fresh : ∀ t ∈ s.tasks, t.phase = .writing → ¬ s.Listed t.place
  written : ∀ t ∈ s.tasks, t.wrote = true → (t.place, t.value) ∈ s.roster
  objects : ∀ claims set, s.listing.get? claims = some set → set < s.made
  own
    : ∀ claims claims' set,
        s.listing.get? claims = some set → s.listing.get? claims' = some set → claims = claims'
  claims
    : ∀ (place : Place) set,
        s.listing.get? (place.channel, place.segment) = some set → place.author ∈ s.sets set
        → s.Listed place ∨ ∃ t ∈ s.tasks, t.place = place ∧ t.claimed = set
  answered : ∀ place ∈ s.answered, s.Listed place ∨ ∃ t ∈ s.tasks, t.place = place
  named
    : ∀ owner known, s.authors.get? owner = some known
      → (⟨owner.1, known.1, owner.2⟩, known.2) ∈ s.roster
  top
    : ∀ e ∈ s.roster,
        State.Coming s.tasks e.1.owner e.1.segment
        ∨ ∃ known, s.authors.get? e.1.owner = some known ∧ e.1.segment ≤ known.1

variable {crypto communityKey} {s : State} {t : Task} {tasks : List Task} {place : Place}

theorem Sound.perm (sound : Sound crypto communityKey s) (perm : tasks.Perm s.tasks)
    : Sound crypto communityKey { s with tasks } where
  apart :=
    (perm.pairwise_iff fun apart before before' own => apart before' before own.symm).mpr sound.apart
  once := sound.once
  signed := sound.signed
  announced t mem := sound.announced t (perm.mem_iff.mp mem)
  fresh t mem := sound.fresh t (perm.mem_iff.mp mem)
  written t mem := sound.written t (perm.mem_iff.mp mem)
  objects := sound.objects
  own := sound.own
  claims place set at_ mem := (sound.claims place set at_ mem).imp id fun ⟨t, there, is⟩ =>
    ⟨t, perm.mem_iff.mpr there, is⟩
  answered place mem := (sound.answered place mem).imp id fun ⟨t, there, is⟩ =>
    ⟨t, perm.mem_iff.mpr there, is⟩
  named := sound.named
  top e mem := (sound.top e mem).imp (fun ⟨t, there, is⟩ => ⟨t, perm.mem_iff.mpr there, is⟩) id

theorem Sound.listed_of_wrote (sound : Sound crypto communityKey s) (mem : t ∈ s.tasks)
    (wrote : t.wrote = true)
    : s.Listed t.place :=
  List.mem_map_of_mem (f := Prod.fst) (sound.written t mem wrote)

theorem Sound.answer (sound : Sound crypto communityKey s)
    (due : s.Listed place ∨ ∃ t ∈ s.tasks, t.place = place)
    : Sound crypto communityKey (s.answer place) :=
  { sound with
    answered := fun other mem => by
      rcases List.mem_cons.mp mem with rfl | mem
      · exact due
      · exact sound.answered other mem }

/-- A task ends whose entry is listed, and that the author index or another task knows of if the task
wrote it.
-/
theorem Sound.finish (sound : Sound crypto communityKey { s with tasks := t :: tasks })
    (listed : s.Listed t.place)
    (known
      : t.wrote = true
        → State.Coming tasks t.place.owner t.place.segment
          ∨ ∃ known, s.authors.get? t.place.owner = some known ∧ t.place.segment ≤ known.1)
    : Sound crypto communityKey { s with tasks } where
  apart := (List.pairwise_cons.mp sound.apart).2
  once := sound.once
  signed := sound.signed
  announced t mem := sound.announced t (.tail _ mem)
  fresh t mem := sound.fresh t (.tail _ mem)
  written t mem := sound.written t (.tail _ mem)
  objects := sound.objects
  own := sound.own
  claims place set at_ mem := by
    rcases sound.claims place set at_ mem with there | ⟨other, there, rfl, is⟩
    · exact .inl there
    · rcases List.mem_cons.mp there with rfl | there
      · exact .inl listed
      · exact .inr ⟨other, there, rfl, is⟩
  answered place mem := by
    rcases sound.answered place mem with there | ⟨other, there, rfl⟩
    · exact .inl there
    · rcases List.mem_cons.mp there with rfl | there
      · exact .inl listed
      · exact .inr ⟨other, there, rfl⟩
  named := sound.named
  top e mem := by
    rcases sound.top e mem with ⟨other, there, wrote, own, above⟩ | there
    · rcases List.mem_cons.mp there with rfl | there
      · rcases known wrote with ⟨last, there, wrote, own', above'⟩ | ⟨known, is, above'⟩
        · exact .inl ⟨last, there, wrote, own'.trans own, above.trans above'⟩
        · exact .inr ⟨known, own ▸ is, above.trans above'⟩
      · exact .inl ⟨other, there, wrote, own, above⟩
    · exact .inr there

/-- A task goes on; to write its roster only where that doesn't list it. -/
theorem Sound.goTo {phase : Phase}
    (sound : Sound crypto communityKey { s with tasks := t :: tasks })
    (same : { t with phase }.wrote = t.wrote) (fresh : phase = .writing → ¬ s.Listed t.place)
    : Sound crypto communityKey ({ s with tasks }.goTo t phase) where
  apart := by
    have apart := List.pairwise_cons.mp sound.apart
    refine List.pairwise_cons.mpr ⟨fun other mem before => ?_, apart.2⟩
    rw [same] at before
    exact apart.1 other mem before
  once := sound.once
  signed := sound.signed
  announced other mem := by
    rcases List.mem_cons.mp mem with rfl | mem
    · exact sound.announced t (.head _)
    · exact sound.announced other (.tail _ mem)
  fresh other mem := by
    rcases List.mem_cons.mp mem with rfl | mem
    · exact fresh
    · exact sound.fresh other (.tail _ mem)
  written other mem := by
    rcases List.mem_cons.mp mem with rfl | mem
    · rw [same]
      exact sound.written t (.head _)
    · exact sound.written other (.tail _ mem)
  objects := sound.objects
  own := sound.own
  claims place set at_ mem := by
    refine (sound.claims place set at_ mem).imp id ?_
    rintro ⟨other, there, is⟩
    rcases List.mem_cons.mp there with rfl | there
    · exact ⟨_, .head _, is⟩
    · exact ⟨other, .tail _ there, is⟩
  answered place mem := by
    refine (sound.answered place mem).imp id ?_
    rintro ⟨other, there, is⟩
    rcases List.mem_cons.mp there with rfl | there
    · exact ⟨_, .head _, is⟩
    · exact ⟨other, .tail _ there, is⟩
  named := sound.named
  top e mem := by
    refine (sound.top e mem).imp ?_ id
    rintro ⟨other, there, wrote, above⟩
    rcases List.mem_cons.mp there with rfl | there
    · exact ⟨_, .head _, same.trans wrote, above⟩
    · exact ⟨other, .tail _ there, wrote, above⟩

theorem listed_append {roster : List (Place × Value)} {phase : Phase} (listed : s.Listed place)
    : ({ s with tasks, roster := s.roster ++ roster }.goTo t phase).Listed place := by
  rw [State.Listed, State.goTo, List.map_append]
  exact List.mem_append_left _ listed

theorem Sound.wrote (sound : Sound crypto communityKey { s with tasks := t :: tasks })
    (writing : t.phase = .writing)
    : Sound crypto communityKey
        ({ s with tasks, roster := s.roster ++ [(t.place, t.value)] }.goTo t .reading) where
  apart :=
    List.pairwise_cons.mpr ⟨fun _ _ before => (nomatch before), (List.pairwise_cons.mp sound.apart).2⟩
  once := by
    rw [State.goTo, List.map_append, List.map_singleton, List.nodup_append]
    refine ⟨sound.once, List.nodup_singleton _, fun place mem other is same => ?_⟩
    rw [List.mem_singleton] at is
    rw [same.trans is] at mem
    exact sound.fresh t (.head _) writing mem
  signed e mem := by
    rcases List.mem_append.mp mem with mem | mem
    · exact sound.signed e mem
    · rw [List.mem_singleton.mp mem]
      exact sound.announced t (.head _)
  announced other mem := by
    rcases List.mem_cons.mp mem with rfl | mem
    · exact sound.announced t (.head _)
    · exact sound.announced other (.tail _ mem)
  fresh other mem := by
    rcases List.mem_cons.mp mem with rfl | mem
    · exact fun none_ => by cases none_
    · intro phase listed
      rw [State.Listed, State.goTo, List.map_append, List.mem_append] at listed
      rcases listed with listed | own
      · exact sound.fresh other (.tail _ mem) phase listed
      · have apart := (List.pairwise_cons.mp sound.apart).1 other mem
        refine apart (by simp [Task.wrote, writing]) (by simp [Task.wrote, phase]) ?_
        exact (List.mem_singleton.mp own).symm
  written other mem wrote := by
    rcases List.mem_cons.mp mem with rfl | mem
    · exact List.mem_append_right _ (.head _)
    · exact List.mem_append_left _ (sound.written other (.tail _ mem) wrote)
  objects := sound.objects
  own := sound.own
  claims place set at_ mem := by
    rcases sound.claims place set at_ mem with listed | ⟨other, there, is⟩
    · exact .inl (listed_append listed)
    · rcases List.mem_cons.mp there with rfl | there
      · exact .inr ⟨_, .head _, is⟩
      · exact .inr ⟨other, .tail _ there, is⟩
  answered place mem := by
    rcases sound.answered place mem with listed | ⟨other, there, is⟩
    · exact .inl (listed_append listed)
    · rcases List.mem_cons.mp there with rfl | there
      · exact .inr ⟨_, .head _, is⟩
      · exact .inr ⟨other, .tail _ there, is⟩
  named owner known is := List.mem_append_left _ (sound.named owner known is)
  top e mem := by
    rcases List.mem_append.mp mem with mem | mem
    · rcases sound.top e mem with ⟨other, there, wrote, above⟩ | there
      · rcases List.mem_cons.mp there with rfl | there
        · exact absurd wrote (by simp [Task.wrote, writing])
        · exact .inl ⟨other, .tail _ there, wrote, above⟩
      · exact .inr there
    · rw [List.mem_singleton.mp mem]
      exact .inl ⟨_, .head _, rfl, rfl, le_refl _⟩

/-- A task writes the author index and ends, below nothing that it names and no other task goes on to. -/
theorem Sound.index (sound : Sound crypto communityKey { s with tasks := t :: tasks })
    (wrote : t.wrote = true)
    (rises
      : ∀ known, s.authors.get? t.place.owner = some known
        → known.1 ≤ t.place.segment ∨ State.Coming tasks t.place.owner known.1)
    : Sound crypto communityKey
        { s with tasks, authors := s.authors.put t.place.owner (t.place.segment, t.value) } := by
  have put (owner : String × Key)
      : (s.authors.put t.place.owner (t.place.segment, t.value)).get? owner
        = if owner = t.place.owner then some (t.place.segment, t.value) else s.authors.get? owner :=
    Dict.get?_put ..
  have indexed
      : Sound crypto communityKey { s with
          tasks := t :: tasks
          authors := s.authors.put t.place.owner (t.place.segment, t.value) } :=
    { sound with
      named := fun owner known is => by
        rw [put] at is
        split at is
        · rename_i own
          cases is
          rw [own]
          exact sound.written t (.head _) wrote
        · exact sound.named owner known is
      top := fun e there => by
        rcases sound.top e there with coming | ⟨known, is, above⟩
        · exact .inl coming
        by_cases own : e.1.owner = t.place.owner
        · rcases rises known (own ▸ is) with below | ⟨other, there, wrote, own', above'⟩
          · exact .inr ⟨_, (put _).trans (if_pos own), above.trans below⟩
          · exact .inl ⟨other, .tail _ there, wrote, own'.trans own.symm, above.trans above'⟩
        · exact .inr ⟨known, (put _).trans ((if_neg own).trans is), above⟩ }
  exact Sound.finish
    (s := { s with authors := s.authors.put t.place.owner (t.place.segment, t.value) })
    indexed (sound.listed_of_wrote (.head _) wrote)
    fun _ => .inr ⟨_, (put _).trans (if_pos rfl), le_refl _⟩

theorem Sound.unclaim (sound : Sound crypto communityKey s)
    : Sound crypto communityKey (s.fail t) :=
  { sound with
    claims := fun place set at_ mem => by
      refine sound.claims place set at_ ?_
      change place.author ∈ Function.update s.sets t.claimed _ set at mem
      rw [Function.update_apply] at mem
      split at mem
      · rename_i same
        rw [same]
        exact (List.mem_filter.mp mem).1
      · exact mem }

/-- A task ends before it wrote, and with it its claim, where no copy was answered `true`. -/
theorem Sound.abandon (sound : Sound crypto communityKey { s with tasks := t :: tasks })
    (before : t.wrote = false) (due : t.place ∈ s.answered → s.Listed t.place)
    : Sound crypto communityKey ({ s with tasks }.fail t) where
  apart := (List.pairwise_cons.mp sound.apart).2
  once := sound.once
  signed := sound.signed
  announced t mem := sound.announced t (.tail _ mem)
  fresh t mem := sound.fresh t (.tail _ mem)
  written t mem := sound.written t (.tail _ mem)
  objects := sound.objects
  own := sound.own
  claims place set at_ mem := by
    change place.author ∈ Function.update s.sets t.claimed _ set at mem
    rw [Function.update_apply] at mem
    by_cases same : set = t.claimed
    · rw [if_pos same, List.mem_filter, decide_eq_true_eq] at mem
      rcases sound.claims place set at_ (same ▸ mem.1) with there | ⟨other, there, rfl, is⟩
      · exact .inl there
      · rcases List.mem_cons.mp there with rfl | there
        · exact absurd rfl mem.2
        · exact .inr ⟨other, there, rfl, is⟩
    · rw [if_neg same] at mem
      rcases sound.claims place set at_ mem with there | ⟨other, there, rfl, is⟩
      · exact .inl there
      · rcases List.mem_cons.mp there with rfl | there
        · exact absurd is.symm same
        · exact .inr ⟨other, there, rfl, is⟩
  answered place mem := by
    rcases sound.answered place mem with there | ⟨other, there, rfl⟩
    · exact .inl there
    · rcases List.mem_cons.mp there with rfl | there
      · exact .inl (due mem)
      · exact .inr ⟨other, there, rfl⟩
  named := sound.named
  top e mem := by
    rcases sound.top e mem with ⟨other, there, wrote, above⟩ | there
    · rcases List.mem_cons.mp there with rfl | there
      · rw [before] at wrote
        cases wrote
      · exact .inl ⟨other, there, wrote, above⟩
    · exact .inr there

variable {below : String → Int → Bool} {seen : Seen} {ann : Announcement} {current : Int}
  {log : List Event}

/-- A task for a claim newly taken, where there is none of its place. -/
theorem Sound.start (sound : Sound crypto communityKey s) {claimed : Nat}
    {listing : Dict (String × Nat) Nat} {sets : Nat → List Key} {made : Nat}
    (apart : ∀ t ∈ s.tasks, t.wrote = false → t.place ≠ ann.place)
    (signed : Signed crypto communityKey ann.place ann.value)
    (objects : ∀ claims set, listing.get? claims = some set → set < made)
    (own
      : ∀ claims claims' set,
          listing.get? claims = some set → listing.get? claims' = some set → claims = claims')
    (claims
      : ∀ (place : Place) set,
          listing.get? (place.channel, place.segment) = some set → place.author ∈ sets set
          → place = ann.place ∧ set = claimed
            ∨ s.listing.get? (place.channel, place.segment) = some set ∧ place.author ∈ s.sets set)
    : Sound crypto communityKey
        { s with listing, sets, made, tasks := ⟨ann, claimed, .checking⟩ :: s.tasks } where
  apart :=
    List.pairwise_cons.mpr ⟨fun t mem _ before => (apart t mem before).symm, sound.apart⟩
  once := sound.once
  signed := sound.signed
  announced t mem := by
    rcases List.mem_cons.mp mem with rfl | mem
    · exact signed
    · exact sound.announced t mem
  fresh t mem := by
    rcases List.mem_cons.mp mem with rfl | mem
    · exact fun none_ => by cases none_
    · exact sound.fresh t mem
  written t mem := by
    rcases List.mem_cons.mp mem with rfl | mem
    · exact fun none_ => by cases none_
    · exact sound.written t mem
  objects := objects
  own := own
  claims place set at_ mem := by
    rcases claims place set at_ mem with ⟨rfl, rfl⟩ | ⟨at_, mem⟩
    · exact .inr ⟨_, .head _, rfl, rfl⟩
    · refine (sound.claims place set at_ mem).imp id ?_
      exact fun ⟨t, there, is⟩ => ⟨t, .tail _ there, is⟩
  answered place mem := (sound.answered place mem).imp id fun ⟨t, there, is⟩ =>
    ⟨t, .tail _ there, is⟩
  named := sound.named
  top e mem := (sound.top e mem).imp (fun ⟨t, there, is⟩ => ⟨t, .tail _ there, is⟩) id

/-- A claim newly taken, with a task for it, where no task of its place lost its claim. -/
theorem Sound.claim (sound : Sound crypto communityKey s) {next : State} {claimed : Nat}
    (is : s.claim below current ann.place = some (next, claimed))
    (held : ∀ t ∈ s.tasks, t.wrote = false → t.place = ann.place
      → (s.listing.get? (ann.place.channel, ann.place.segment)).any
          (fun set => ann.place.author ∈ s.sets set) = true)
    (signed : Signed crypto communityKey ann.place ann.value)
    : Sound crypto communityKey { next with tasks := ⟨ann, claimed, .checking⟩ :: next.tasks } := by
  rw [State.claim] at is
  split at is
  · rename_i set at_
    split at is
    · cases is
    · rename_i free
      cases is
      refine sound.start (fun t mem before own => ?_) signed sound.objects sound.own ?_
      · have claimed := held t mem before own
        rw [at_, Option.any_some, decide_eq_true_eq] at claimed
        exact free claimed
      · intro place set' here mem
        change place.author ∈ Function.update s.sets claimed _ set' at mem
        rw [Function.update_apply] at mem
        split at mem
        · rename_i same
          rw [same] at here ⊢
          rcases List.mem_cons.mp mem with author | mem
          · have key := sound.own _ _ claimed here at_
            rw [Prod.mk.injEq] at key
            refine .inl ⟨?_, rfl⟩
            cases place
            exact Place.mk.injEq .. ▸ ⟨key.1, key.2, author⟩
          · exact .inr ⟨here, mem⟩
        · exact .inr ⟨here, mem⟩
  · rename_i none_
    cases is
    have old {key : String × Nat} {set : Nat}
        (at_ : ((s.listing.filter fun claims =>
          !State.forgotten below ann.place.channel current claims).put
            (ann.place.channel, ann.place.segment) s.made).get? key = some set)
        : (key = (ann.place.channel, ann.place.segment) ∧ set = s.made)
          ∨ s.listing.get? key = some set := by
      rw [Dict.get?_put] at at_
      split at at_
      · rename_i same
        exact .inl ⟨same, (Option.some.inj at_).symm⟩
      · rw [Dict.get?_filter] at at_
        split at at_
        · exact .inr at_
        · cases at_
    refine sound.start (fun t mem before own => ?_) signed ?_ ?_ ?_
    · have claimed := held t mem before own
      rw [none_] at claimed
      cases claimed
    · intro key set at_
      rcases old at_ with ⟨_, rfl⟩ | at_
      · exact Nat.lt_succ_self _
      · exact Nat.lt_succ_of_lt (sound.objects key set at_)
    · intro key key' set at_ at_'
      rcases old at_ with ⟨rfl, rfl⟩ | at_
      · rcases old at_' with ⟨rfl, _⟩ | at_'
        · rfl
        · exact absurd (sound.objects key' _ at_') (lt_irrefl _)
      · rcases old at_' with ⟨_, rfl⟩ | at_'
        · exact absurd (sound.objects key _ at_) (lt_irrefl _)
        · exact sound.own key key' set at_ at_'
    · intro place set at_ mem
      change place.author ∈ Function.update s.sets s.made _ set at mem
      rw [Function.update_apply] at mem
      rcases old at_ with ⟨key, rfl⟩ | at_
      · rw [if_pos rfl, List.mem_singleton] at mem
        rw [Prod.mk.injEq] at key
        refine .inl ⟨?_, rfl⟩
        cases place
        exact Place.mk.injEq .. ▸ ⟨key.1, key.2, mem⟩
      · rw [if_neg (Nat.ne_of_lt (sound.objects _ set at_))] at mem
        exact .inr ⟨at_, mem⟩

theorem signed_of_accepts (accepted : State.accepts crypto communityKey seen ann = some current)
    : Signed crypto communityKey ann.place ann.value := by
  rw [State.accepts] at accepted
  split at accepted
  · cases accepted
  · rw [Option.ite_none_left_eq_some] at accepted
    obtain ⟨_, accepted⟩ := accepted
    simp only [Option.ite_none_left_eq_some, not_not] at accepted
    exact accepted.2.2.1

/-- An announcement comes in. -/
theorem Sound.announce (sound : Sound crypto communityKey s)
    (orderly : s.orderly crypto communityKey (.announce seen ann) = true)
    : Sound crypto communityKey (s.announce crypto communityKey below seen ann) := by
  rw [State.announce]
  cases accepted : State.accepts crypto communityKey seen ann with
  | none => exact sound
  | some current =>
      dsimp only
      cases is : s.claim below current ann.place with
      | none =>
          refine sound.answer ?_
          rw [State.claim] at is
          split at is
          · rename_i set at_
            split at is
            · rename_i mem
              exact (sound.claims ann.place set at_ mem).imp id fun ⟨t, there, own, _⟩ =>
                ⟨t, there, own⟩
            · cases is
          · cases is
      | some claimed =>
          refine sound.claim is (fun t mem before own => ?_) (signed_of_accepts accepted)
          rw [State.orderly, accepted] at orderly
          simpa [before, own] using List.all_eq_true.mp orderly t mem

theorem Sound.proceed (sound : Sound crypto communityKey { s with tasks := t :: tasks })
    (rises
      : t.phase = .indexing
        → ∀ known, s.authors.get? t.place.owner = some known
          → known.1 ≤ t.place.segment ∨ State.Coming tasks t.place.owner known.1)
    : Sound crypto communityKey ({ s with tasks }.proceed t) := by
  have listed (wrote : t.wrote = true) : s.Listed t.place := sound.listed_of_wrote (.head _) wrote
  unfold State.proceed
  cases phase : t.phase with
  | checking =>
      have before : t.wrote = false := by simp [Task.wrote, phase]
      dsimp only
      split
      · rename_i listed
        refine (sound.finish listed fun wrote => ?_).answer (.inl listed)
        rw [before] at wrote
        cases wrote
      · rename_i fresh
        exact sound.goTo (by rw [before]; rfl) fun _ => fresh
  | writing => exact sound.wrote phase
  | reading =>
      have wrote : t.wrote = true := by simp [Task.wrote, phase]
      dsimp only
      split
      · exact sound.goTo (by rw [wrote]; rfl) fun none_ => by cases none_
      · rename_i higher
        refine (sound.finish (listed wrote) fun _ => .inr ?_).answer (.inl (listed wrote))
        cases is : s.authors.get? t.place.owner with
        | none => simp [is] at higher
        | some known =>
            refine ⟨known, rfl, ?_⟩
            simp only [is, Option.all_some, decide_eq_true_eq] at higher
            omega
  | indexing =>
      have wrote : t.wrote = true := by simp [Task.wrote, phase]
      exact (sound.index wrote (rises phase)).answer (.inl (listed wrote))

theorem Sound.fail (sound : Sound crypto communityKey { s with tasks := t :: tasks })
    (known
      : t.wrote = true
        → State.Coming tasks t.place.owner t.place.segment
          ∨ ∃ known, s.authors.get? t.place.owner = some known ∧ t.place.segment ≤ known.1)
    (due : t.wrote = false → t.place ∈ s.answered → s.Listed t.place)
    : Sound crypto communityKey ({ s with tasks }.fail t) := by
  cases wrote : t.wrote with
  | true =>
      exact (sound.finish (sound.listed_of_wrote (.head _) wrote) known).unclaim
  | false => exact sound.abandon wrote (due wrote)

theorem Sound.step (sound : Sound crypto communityKey s) {e : Event}
    (orderly : s.orderly crypto communityKey e = true)
    : Sound crypto communityKey (s.step crypto communityKey below e) := by
  have taken {i : Nat} {t : Task} (at_ : s.tasks[i]? = some t)
      : Sound crypto communityKey { s with tasks := t :: s.tasks.eraseIdx i } := by
    obtain ⟨within, is⟩ := List.getElem?_eq_some_iff.mp at_
    exact sound.perm (is ▸ List.getElem_cons_eraseIdx_perm within)
  cases e with
  | announce seen ann => exact sound.announce orderly
  | proceed i =>
      rw [State.step]
      cases at_ : s.tasks[i]? with
      | none => exact sound
      | some t =>
          refine (taken at_).proceed fun phase known is => ?_
          simpa [State.orderly, at_, phase, is] using orderly
  | fail i =>
      rw [State.step]
      cases at_ : s.tasks[i]? with
      | none => exact sound
      | some t =>
          rw [State.orderly, at_, Option.all_some] at orderly
          refine (taken at_).fail (fun wrote => ?_) fun before mem => ?_
          · rw [if_pos wrote, Bool.or_eq_true, Option.any_eq_true, decide_eq_true_eq] at orderly
            refine orderly.symm.imp id ?_
            rintro ⟨known, is, above⟩
            exact ⟨known, is, of_decide_eq_true above⟩
          · simpa [before, mem] using orderly

theorem sound_empty : Sound crypto communityKey {} where
  apart := .nil
  once := .nil
  signed := fun _ mem => nomatch mem
  announced := fun _ mem => nomatch mem
  fresh := fun _ mem => nomatch mem
  written := fun _ mem => nomatch mem
  objects := fun _ _ at_ => nomatch at_
  own := fun _ _ _ at_ => nomatch at_
  claims := fun _ _ at_ => nomatch at_
  answered := fun _ mem => nomatch mem
  named := fun _ _ at_ => nomatch at_
  top := fun _ mem => nomatch mem

-- What a keeper lists

variable (crypto communityKey) in
/-- The rosters have one entry of an author and segment, written once and signed by the author, among
them whatever was answered `true`, and an author index names one of the highest segment listed; each
where nothing of it is being written.
-/
structure Exact (s : State) : Prop where
  once : (s.roster.map Prod.fst).Nodup
  signed : ∀ e ∈ s.roster, Signed crypto communityKey e.1 e.2
  listed : ∀ place ∈ s.answered, (∀ t ∈ s.tasks, t.place ≠ place) → s.Listed place
  highest
    : ∀ place, s.Listed place → (∀ t ∈ s.tasks, t.place.owner ≠ place.owner)
      → ∃ segment value,
          s.authors.get? place.owner = some (segment, value)
          ∧ (⟨place.channel, segment, place.author⟩, value) ∈ s.roster
          ∧ ∀ other, s.Listed other → other.owner = place.owner → other.segment ≤ segment

theorem Sound.exact (sound : Sound crypto communityKey s) : Exact crypto communityKey s where
  once := sound.once
  signed := sound.signed
  listed place mem ended := by
    refine (sound.answered place mem).resolve_right ?_
    rintro ⟨t, there, own⟩
    exact ended t there own
  highest place listed ended := by
    have top {other : Place} (listed : s.Listed other) (own : other.owner = place.owner)
        : ∃ known, s.authors.get? place.owner = some known ∧ other.segment ≤ known.1 := by
      obtain ⟨e, mem, rfl⟩ := List.mem_map.mp listed
      rw [← own]
      refine (sound.top e mem).resolve_left ?_
      rintro ⟨t, there, _, own', _⟩
      exact ended t there (own'.trans own)
    obtain ⟨⟨segment, value⟩, is, _⟩ := top listed rfl
    refine ⟨segment, value, is, sound.named _ _ is, fun other listed own => ?_⟩
    obtain ⟨known, is', below⟩ := top listed own
    rw [is] at is'
    cases is'
    exact below

/-- Whatever comes in, in whichever order it is written, as long as that is a good one. -/
theorem keeps_exactly
    (orderly
      : Runs.Each (State.step crypto communityKey below)
          (fun s e => s.orderly crypto communityKey e = true) {} log)
    : Exact crypto communityKey (log.foldl (State.step crypto communityKey below) {}) := by
  have sound : Sound crypto communityKey (log.foldl (State.step crypto communityKey below) {}) :=
    Runs.Each.keeps (fun _ _ sound orderly => sound.step orderly) sound_empty orderly
  exact sound.exact

end Kept

namespace Example

open Unions.Example

/-- `Number(text) < limit`, of whole numbers. -/
def below (text : String) (limit : Int) : Bool := text.toInt?.any (· < limit)

def seen : Seen := ⟨65, some 10, true, false⟩

/-- An author's entry of a segment. -/
def listing (segment : Nat) : Announcement :=
  ⟨⟨"general", segment, [2]⟩, [3], 0, rosterSignable crypto [1] "general" segment [3] 0 ++ [2]⟩

/-- An announcement and a copy, and one of the segment before when it was written. -/
def inTurn : List Event :=
  [.announce seen (listing 6), .announce seen (listing 6), .proceed 0, .proceed 0, .proceed 0,
    .proceed 0, .announce seen (listing 5), .proceed 0, .proceed 0, .proceed 0]

/-- Two announcements, both of which read the author index before either writes it. -/
def overlapping : List Event :=
  [.announce seen (listing 6), .announce seen (listing 5), .proceed 1, .proceed 0, .proceed 0,
    .proceed 1, .proceed 0, .proceed 0, .proceed 1, .proceed 0]

def run (log : List Event) : State := log.foldl (State.step crypto [1] below) {}

end Example

open Unions.Example Example in
theorem keeps_exactly_in_turn
    : (run inTurn).tasks = [] ∧ (run inTurn).Listed (listing 5).place
      ∧ Exact crypto [1] (run inTurn) :=
  ⟨by decide +kernel, by decide +kernel, keeps_exactly (by decide +kernel)⟩

open Unions.Example Example in
/-- The author index names the segment before, written last. -/
theorem overlapping_stale
    : ¬ ∀ (crypto : Crypto) communityKey below (log : List Event),
        Exact crypto communityKey (log.foldl (State.step crypto communityKey below) {}) := by
  intro all
  have exact : Exact crypto [1] (run overlapping) := all crypto [1] below overlapping
  have ended : (run overlapping).tasks = [] := by decide +kernel
  have listed : (run overlapping).Listed (listing 6).place := by decide +kernel
  obtain ⟨segment, value, is, _, highest⟩ := exact.highest _ listed (by simp [ended])
  have stale
      : (run overlapping).authors.get? (listing 6).place.owner = some (5, (listing 5).value) := by
    decide +kernel
  rw [stale] at is
  cases is
  exact absurd (highest _ listed rfl) (by decide)

end Hypergraph.Channels.Keeping
