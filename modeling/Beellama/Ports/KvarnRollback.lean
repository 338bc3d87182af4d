import Beellama.Ports.Kvarn

/-!
# Rollbacks into the F16 stage

A suffix removal can reopen the group before the live one and still find its F16 rows.
`llama_kvarn_can_remove_range` looks at the current maximum position alone, so a second removal may
reach a group whose rows have been overwritten by the group two above.  `StageRun` runs one sequence;
`peak` is the highest group opened since a group was last opened.
-/

namespace Beellama.Ports

/-- One sequence and its stage. -/
structure StageRun where
  /-- live positions are `[0, len)`; cell and position agree -/
  len : Nat := 0
  /-- the cell that was last written to a stage row -/
  row : Nat → Option Nat := fun _ => none
  /-- the highest group opened since a group was last opened -/
  peak : Nat → Nat := fun _ => 0

namespace StageRun

/-- The stage row of a cell of one sequence. -/
def stageRow (cell : Nat) : Nat := kvarnStageRow kvarnNonSwaTailGroups cell

/-- The history after cell `c` was appended: the first cell of a group opens
it. -/
def openGroup (peak : Nat → Nat) (c g : Nat) : Nat :=
  if c % kvarnGroup = 0 then
    if g = c / kvarnGroup then g else max (peak g) (c / kvarnGroup)
  else peak g

/-- Write the next cell. -/
def append (s : StageRun) : StageRun :=
  { len := s.len + 1
    row := Function.update s.row (stageRow s.len) (some s.len)
    peak := openGroup s.peak s.len }

def posMax (s : StageRun) : Int := (s.len : Int) - 1

def accepts (s : StageRun) (p0 p1 : Int) : Bool :=
  kvarnCanRemoveRange s.posMax p0 p1 kvarnGroup

/-- A suffix removal leaves the positions below `p0`. -/
def remove (s : StageRun) (p0 : Int) : StageRun :=
  { s with len := min s.len (max p0 0).toNat }

/-- In-order appends and accepted suffix removals. -/
inductive Run : StageRun → Prop
  | init : Run {}
  | append {s : StageRun} : Run s → Run s.append
  | remove {s : StageRun} (p0 p1 : Int) : Run s → (p1 < 0 ∨ s.posMax < p1) →
      s.accepts p0 p1 = true → Run (s.remove p0)

/-- Every surviving cell of the incomplete live group finds its own row. -/
def LiveResident (s : StageRun) : Prop :=
  ∀ c < s.len, c / kvarnGroup = s.len / kvarnGroup → s.row (stageRow c) = some c

/-- Every cell of a group finds its own row. -/
def GroupResident (s : StageRun) (g : Nat) : Prop :=
  ∀ c, c / kvarnGroup = g → s.row (stageRow c) = some c

/-- What the rows of a sequence hold, by the history of its groups. -/
structure StageInv (s : StageRun) : Prop where
  /-- a live group was opened after every live group below it -/
  opened : ∀ g g', g ≤ g' → kvarnGroup * g' < s.len → g' ≤ s.peak g
  /-- the sink keeps its slot -/
  sink : ∀ c < s.len, c < kvarnGroup → s.row (stageRow c) = some c
  /-- a group keeps its rows until the group two above is opened -/
  kept : ∀ c < s.len, s.peak (c / kvarnGroup) ≤ c / kvarnGroup + 1 → s.row (stageRow c) = some c
  /-- and then it has lost its first row -/
  lost : ∀ g, 0 < g → kvarnGroup * g < s.len → g + 2 ≤ s.peak g →
    ∃ c, s.row (stageRow (kvarnGroup * g)) = some c ∧ g + 2 ≤ c / kvarnGroup

theorem stageRow_eq (c : Nat) :
    stageRow c = (if c / 128 = 0 then 0 else 1 + (c / 128 - 1) % 2) * 128 + c % 128 := rfl

/-- Two cells share a row when they have the same offset in groups an even
distance apart. -/
theorem stageRow_eq_iff {c d : Nat} (hLt : c < d) :
    stageRow c = stageRow d ↔
      c % 128 = d % 128 ∧ 0 < c / 128 ∧ (d / 128 - c / 128) % 2 = 0 := by
  rw [stageRow_eq, stageRow_eq]
  split <;> split <;> omega

theorem append_peak (s : StageRun) (g : Nat) :
    (s.len % 128 ≠ 0 ∧ s.append.peak g = s.peak g) ∨
      (s.len % 128 = 0 ∧ g = s.len / 128 ∧ s.append.peak g = g) ∨
      (s.len % 128 = 0 ∧ g ≠ s.len / 128 ∧ s.append.peak g = max (s.peak g) (s.len / 128)) := by
  change (s.len % kvarnGroup ≠ 0 ∧ openGroup s.peak s.len g = _) ∨
    (s.len % kvarnGroup = 0 ∧ g = s.len / kvarnGroup ∧ openGroup s.peak s.len g = _) ∨
    (s.len % kvarnGroup = 0 ∧ g ≠ s.len / kvarnGroup ∧ openGroup s.peak s.len g = _)
  unfold openGroup
  by_cases hMod : s.len % kvarnGroup = 0
  · by_cases hg : g = s.len / kvarnGroup
    · exact Or.inr (Or.inl ⟨hMod, hg, by rw [if_pos hMod, if_pos hg]⟩)
    · exact Or.inr (Or.inr ⟨hMod, hg, by rw [if_pos hMod, if_neg hg]; rfl⟩)
  · exact Or.inl ⟨hMod, by rw [if_neg hMod]⟩

theorem append_row (s : StageRun) (c : Nat) :
    s.append.row (stageRow c) =
      if stageRow c = stageRow s.len then some s.len else s.row (stageRow c) := by
  simp only [StageRun.append, Function.update_apply]

variable {s : StageRun}

theorem StageInv.append (h : StageInv s) : StageInv s.append := by
  have hLen : s.append.len = s.len + 1 := rfl
  -- every group below the new cell's has been followed by the one before it
  have hBelow : ∀ g, g < s.len / 128 → s.len / 128 - 1 ≤ s.peak g := by
    intro g hg
    refine h.opened g _ (by omega) ?_
    simp only [kvarnGroup]
    omega
  have hSame : ∀ g, g ≤ s.len / 128 → s.len % 128 ≠ 0 → s.len / 128 ≤ s.peak g := by
    intro g hg hMod
    refine h.opened g _ hg ?_
    simp only [kvarnGroup]
    omega
  constructor
  · intro g g' hLe hLive
    simp only [kvarnGroup] at hLive
    have hOld := h.opened g g' hLe
    simp only [kvarnGroup] at hOld
    rcases append_peak s g with ⟨hMod, hEq⟩ | ⟨hMod, hg, hEq⟩ | ⟨hMod, hg, hEq⟩ <;> omega
  · intro c hc hSink
    rw [append_row]
    simp only [kvarnGroup] at hSink
    by_cases hNew : c = s.len
    · simp [hNew]
    have hlt : c < s.len := by omega
    rw [if_neg, h.sink c hlt (by simpa [kvarnGroup] using hSink)]
    rw [stageRow_eq_iff hlt]
    omega
  · intro c hc hKept
    rw [append_row]
    rw [hLen] at hc
    simp only [kvarnGroup] at hKept
    by_cases hNew : c = s.len
    · simp [hNew]
    have hlt : c < s.len := by omega
    have hSame' := hSame (c / 128)
    rw [if_neg]
    · refine h.kept c hlt ?_
      simp only [kvarnGroup]
      rcases append_peak s (c / 128) with ⟨hMod, hEq⟩ | ⟨hMod, hg, hEq⟩ | ⟨hMod, hg, hEq⟩ <;>
        omega
    rw [stageRow_eq_iff hlt]
    rcases append_peak s (c / 128) with ⟨hMod, hEq⟩ | ⟨hMod, hg, hEq⟩ | ⟨hMod, hg, hEq⟩ <;>
      omega
  intro g hg hLive hLost
  rw [hLen] at hLive
  simp only [kvarnGroup] at hLive hLost ⊢
  rw [append_row]
  have hPeak := append_peak s g
  by_cases hNew : 128 * g = s.len
  · omega
  have hlt : 128 * g < s.len := by omega
  by_cases hHit : stageRow (128 * g) = stageRow s.len
  · rw [if_pos hHit]
    rw [stageRow_eq_iff hlt] at hHit
    exact ⟨s.len, rfl, by omega⟩
  rw [if_neg hHit]
  refine h.lost g hg (by simpa [kvarnGroup] using hlt) ?_
  have hBelow' := hBelow g
  rw [stageRow_eq_iff hlt] at hHit
  omega

theorem remove_peak (s : StageRun) (p0 : Int) : (s.remove p0).peak = s.peak := rfl

theorem StageInv.remove (h : StageInv s) (p0 : Int) : StageInv (s.remove p0) := by
  have hLen : (s.remove p0).len ≤ s.len := min_le_left _ _
  constructor
  · exact fun g g' hLe hLive => h.opened g g' hLe (lt_of_lt_of_le hLive hLen)
  · exact fun c hc => h.sink c (lt_of_lt_of_le hc hLen)
  · exact fun c hc => h.kept c (lt_of_lt_of_le hc hLen)
  · exact fun g hg hLive => h.lost g hg (lt_of_lt_of_le hLive hLen)

theorem Run.inv (h : Run s) : StageInv s := by
  induction h with
  | init =>
    constructor
    · intro g g' _ hLive
      exact absurd hLive (Nat.not_lt_zero _)
    · intro c hc
      exact absurd hc (Nat.not_lt_zero _)
    · intro c hc
      exact absurd hc (Nat.not_lt_zero _)
    · intro g _ hLive
      exact absurd hLive (Nat.not_lt_zero _)
  | append _ ih => exact ih.append
  | remove p0 p1 _ _ _ ih => exact ih.remove p0

/-- The live group is complete, or it is the sink, or no group two above it was
opened since it was opened.  The ring has two slots beside the sink, so that the second group
above an open one is the first whose rows fall on its rows. -/
def StageSafe (s : StageRun) : Prop :=
  s.len % kvarnGroup = 0 ∨ s.len < kvarnGroup ∨
    s.peak (s.len / kvarnGroup) ≤ s.len / kvarnGroup + 1

theorem StageInv.liveResident_iff (h : StageInv s) : s.LiveResident ↔ s.StageSafe := by
  unfold LiveResident StageSafe
  constructor
  · intro hResident
    by_contra hNot
    simp only [not_or, kvarnGroup] at hNot
    have hFirst : 128 * (s.len / 128) < s.len := by omega
    obtain ⟨c, hRow, hGroup⟩ := h.lost (s.len / 128) (by omega)
      (by simpa [kvarnGroup] using hFirst) (by omega)
    have hOwn := hResident (128 * (s.len / 128)) hFirst (by simp only [kvarnGroup]; omega)
    simp only [kvarnGroup] at hRow hGroup
    rw [hRow] at hOwn
    have hEq := Option.some.inj hOwn
    omega
  intro hSafe c hc hLive
  rcases hSafe with hMod | hSink | hPeak
  · simp only [kvarnGroup] at hMod hLive
    omega
  · exact h.sink c hc (lt_trans hc hSink)
  · exact h.kept c hc (by rw [hLive]; exact hPeak)

/-- Completing a group seals it from the rows it finds: they are all its own
exactly when the live cells still had theirs. -/
theorem append_groupResident_iff (hLast : (s.len + 1) % kvarnGroup = 0) :
    s.append.GroupResident (s.len / kvarnGroup) ↔ s.LiveResident := by
  simp only [kvarnGroup] at hLast
  unfold GroupResident LiveResident
  simp only [kvarnGroup]
  constructor
  · intro hGroup c hc hLive
    have hOwn := hGroup c hLive
    rw [append_row, if_neg] at hOwn
    · exact hOwn
    · rw [stageRow_eq_iff hc]
      omega
  intro hLive c hc
  rw [append_row]
  by_cases hNew : c = s.len
  · simp [hNew]
  have hlt : c < s.len := by omega
  rw [if_neg, hLive c hlt hc]
  rw [stageRow_eq_iff hlt]
  omega

/-- In every run of appends and accepted removals the surviving cells of the
incomplete live group have their own rows, and the append that completes the
group seals it from its own rows, exactly when no group two above it was opened
since it was last opened. -/
theorem Run.rollback_resident_iff {s : StageRun} (h : Run s) :
    (s.LiveResident ↔ s.StageSafe) ∧
      ((s.len + 1) % kvarnGroup = 0 →
        (s.append.GroupResident (s.len / kvarnGroup) ↔ s.StageSafe)) := by
  have hLive := h.inv.liveResident_iff
  exact ⟨hLive, fun hLast => (append_groupResident_iff hLast).trans hLive⟩

/-- `n` appends from the empty sequence. -/
def appends (n : Nat) : StageRun := StageRun.append^[n] {}

theorem appends_run (n : Nat) : Run (appends n) := by
  induction n with
  | zero => exact Run.init
  | succ n ih =>
    rw [appends, Function.iterate_succ_apply']
    exact ih.append

theorem appends_len (n : Nat) : (appends n).len = n := by
  induction n with
  | zero => rfl
  | succ n ih =>
    rw [appends, Function.iterate_succ_apply']
    exact congrArg (· + 1) ih

theorem appends_peak (n g : Nat) : (appends n).peak g ≤ (n - 1) / 128 := by
  induction n with
  | zero => exact Nat.le_refl 0
  | succ n ih =>
    have hPeak := append_peak (appends n) g
    rw [appends_len] at hPeak
    rw [appends, Function.iterate_succ_apply']
    change (appends n).append.peak g ≤ _
    omega

/-- Group one is sealed and group two has opened; a removal opens group one again. -/
theorem sealed_remove_resident :
    ((appends 257).remove 130).len = 130 ∧ ((appends 257).remove 130).LiveResident := by
  have hLen : ((appends 257).remove 130).len = 130 := by
    change min (appends 257).len 130 = 130
    rw [appends_len]
    rfl
  have hRun : Run ((appends 257).remove 130) := by
    refine (appends_run 257).remove 130 (-1) (Or.inl (by decide)) ?_
    unfold accepts posMax
    rw [appends_len]
    decide
  refine ⟨hLen, hRun.rollback_resident_iff.1.mpr ?_⟩
  have hPeak := appends_peak 257 1
  unfold StageSafe
  rw [hLen, remove_peak, show 130 / kvarnGroup = 1 from rfl]
  omega

/-- Group three has opened in the slot of group one. Two removals are accepted, and the first cell
left of group one has lost its row. -/
theorem two_rollbacks_lose_row :
    Run (((appends 385).remove 257).remove 130) ∧
      (((appends 385).remove 257).remove 130).len = 130 ∧
      ¬ (((appends 385).remove 257).remove 130).LiveResident := by
  have hLen₁ : ((appends 385).remove 257).len = 257 := by
    change min (appends 385).len 257 = 257
    rw [appends_len]
    rfl
  have hLen₂ : (((appends 385).remove 257).remove 130).len = 130 := by
    change min ((appends 385).remove 257).len 130 = 130
    rw [hLen₁]
    rfl
  have hRun₁ : Run ((appends 385).remove 257) := by
    refine (appends_run 385).remove 257 (-1) (Or.inl (by decide)) ?_
    unfold accepts posMax
    rw [appends_len]
    decide
  have hRun₂ : Run (((appends 385).remove 257).remove 130) := by
    refine hRun₁.remove 130 (-1) (Or.inl (by decide)) ?_
    unfold accepts posMax
    rw [hLen₁]
    decide
  refine ⟨hRun₂, hLen₂, ?_⟩
  have hPeak : 3 ≤ (((appends 385).remove 257).remove 130).peak 1 := by
    rw [remove_peak, remove_peak]
    exact (appends_run 385).inv.opened 1 3 (by decide) (by rw [appends_len]; decide)
  rw [hRun₂.inv.liveResident_iff]
  unfold StageSafe
  rw [hLen₂, show 130 / kvarnGroup = 1 from rfl]
  simp only [kvarnGroup]
  omega

end StageRun

end Beellama.Ports
