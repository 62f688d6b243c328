import Hypergraph.Lib.Table

/-! Rows of a table in groups of which only the latest is to count, the others being marked: what
keeps it so as rows come, go and change.
-/

namespace Table

variable {κ α γ β : Type} [Ord κ] [Std.TransOrd κ] [LinearOrder β]

section Defined

variable (group : α → Option γ) (rank : α → β) (marked : α → Bool)

/-- A row of the group is at `key`. -/
def Among (table : Table κ α) (g : γ) (key : κ) (row : α) : Prop :=
  table[key]? = some row ∧ group row = some g

/-- If there are rows in the group, one that isn't marked ranks as high as any. -/
def LatestIn (table : Table κ α) (g : γ) : Prop :=
  ∀ key row, Among group table g key row
    → ∃ place top, Among group table g place top ∧ marked top = false
      ∧ ∀ key row, Among group table g key row → rank row ≤ rank top

/-- Of each group, the latest counts. -/
def Latest (table : Table κ α) : Prop := ∀ g, LatestIn group rank marked table g

/-- In the group, no two rows aren't marked. -/
def SingleIn (table : Table κ α) (g : γ) : Prop :=
  ∀ key row place other, Among group table g key row → marked row = false
    → Among group table g place other → marked other = false → key = place

def Single (table : Table κ α) : Prop := ∀ g, SingleIn group marked table g

end Defined

variable {group : α → Option γ} {rank : α → β} {marked : α → Bool} {table other : Table κ α} {g : γ}
  {key : κ} {row row' : α}

/-- Where each row is as before, but for what neither groups, ranks nor marks it, the latest still
counts.
-/
theorem LatestIn.congr (latest : LatestIn group rank marked table g)
    (same
      : ∀ key : κ, (other[key]?.map fun row => (group row, rank row, marked row))
        = table[key]?.map fun row => (group row, rank row, marked row))
    : LatestIn group rank marked other g := by
  have back {key : κ} {row : α} (among : Among group other g key row)
      : ∃ before, Among group table g key before ∧ rank before = rank row
        ∧ marked before = marked row := by
    obtain ⟨at_, grouped⟩ := among
    have is := same key
    rw [at_, Option.map_some] at is
    obtain ⟨before, there, alike⟩ := Option.map_eq_some_iff.mp is.symm
    obtain ⟨groups, ranks, marks⟩ : group before = group row ∧ rank before = rank row
        ∧ marked before = marked row := by simpa using alike
    exact ⟨before, ⟨there, groups.trans grouped⟩, ranks, marks⟩
  have forth {key : κ} {row : α} (among : Among group table g key row)
      : ∃ after, Among group other g key after ∧ rank after = rank row
        ∧ marked after = marked row := by
    obtain ⟨at_, grouped⟩ := among
    have is := same key
    rw [at_, Option.map_some] at is
    obtain ⟨after, there, alike⟩ := Option.map_eq_some_iff.mp is
    obtain ⟨groups, ranks, marks⟩ : group after = group row ∧ rank after = rank row
        ∧ marked after = marked row := by simpa using alike
    exact ⟨after, ⟨there, groups.trans grouped⟩, ranks, marks⟩
  intro key row among
  obtain ⟨before, was, _⟩ := back among
  obtain ⟨place, top, held, counts, highest⟩ := latest key before was
  obtain ⟨after, now, ranks, marks⟩ := forth held
  refine ⟨place, after, now, marks.trans counts, fun key row among => ?_⟩
  obtain ⟨before, was, rank_, _⟩ := back among
  rw [ranks, ← rank_]
  exact highest key before was

/-- Groups no row of which came, went or changed. -/
theorem LatestIn.of_rows (latest : LatestIn group rank marked table g)
    (same : ∀ key row, Among group other g key row ↔ Among group table g key row)
    : LatestIn group rank marked other g := by
  intro key row among
  obtain ⟨place, top, held, counts, highest⟩ := latest key row ((same key row).mp among)
  exact ⟨place, top, (same place top).mpr held, counts,
    fun key row among => highest key row ((same key row).mp among)⟩

/-- Where whatever isn't marked wasn't before. -/
theorem SingleIn.of_rows (single : SingleIn group marked table g)
    (same
      : ∀ key row, Among group other g key row → marked row = false
        → ∃ before, Among group table g key before ∧ marked before = false)
    : SingleIn group marked other g := by
  intro key row place found among counts among' counts'
  obtain ⟨before, was, counted⟩ := same key row among counts
  obtain ⟨before', was', counted'⟩ := same place found among' counts'
  exact single key before place before' was counted was' counted'

theorem SingleIn.of_place (key : κ)
    (only : ∀ place row, Among group other g place row → marked row = false → place = key)
    : SingleIn group marked other g :=
  fun place row place' row' among counts among' counts' =>
    (only place row among counts).trans (only place' row' among' counts').symm

variable [Std.LawfulEqOrd κ]

/-- A row goes that is marked, or alone in its group. -/
theorem LatestIn.erase (latest : LatestIn group rank marked table g) (at_ : table[key]? = some row)
    (spare
      : group row ≠ some g ∨ marked row = true
        ∨ ∀ place other, Among group table g place other → place = key)
    : LatestIn group rank marked (table.erase key) g := by
  have kept {place : κ} {found : α}
      : Among group (table.erase key) g place found
        ↔ Among group table g place found ∧ place ≠ key := by
    unfold Among
    rw [Std.ExtTreeMap.getElem?_erase]
    split
    · rename_i same
      have same := Std.LawfulEqOrd.eq_of_compare same
      simp [same]
    · rename_i apart
      have apart : place ≠ key := fun same => apart (by rw [same]; exact Std.ReflCmp.compare_self)
      simp [apart]
  intro place found among
  obtain ⟨was, apart⟩ := kept.mp among
  obtain ⟨top, highest, held, counts, ranks⟩ := latest place found was
  have stays : top ≠ key := by
    rintro rfl
    cases Option.some.inj (held.1.symm.trans at_)
    rcases spare with elsewhere | hidden | alone
    · exact elsewhere held.2
    · rw [hidden] at counts
      cases counts
    · exact apart (alone place found was)
  exact ⟨top, highest, kept.mpr ⟨held, stays⟩, counts, fun place found among =>
    ranks place found (kept.mp among).1⟩

end Table
