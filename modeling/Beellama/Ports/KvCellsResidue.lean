import Beellama.Ports.KvCellsIndex

/-!
# Emptied KV cells

Six methods of `llama_kv_cells` can empty a cell, and each resets the fields by hand.  All but one keep
every cell occupied or equal to a reset one; `pos_add` leaves the 2D extension of a cell that falls
below position zero, and the next `pos_set` on that cell exposes it.
-/

namespace Beellama.Ports.KvCells

open List

/-- Every empty cell is in its reset state: no sequence, shift zero and a zero
2D extension. -/
def NoResidue (c : KvCells) : Prop := ∀ i < c.size, (c.cell i).pos = -1 → c.cell i = {}

/-- A `pos_add` that drops a cell finds no extension there, an extension is only stored in an
occupied cell, and a division does not yield `-1`. -/
def LeavesNoResidue : Op → KvCells → Prop
  | .posAdd i d, c => 0 ≤ (c.cell i).pos + d ∨ (c.cell i).ext = {}
  | .extSet i e, c => (c.cell i).pos ≠ -1 ∨ e = {}
  | .posDiv i d, c => (c.cell i).pos.tdiv d ≠ -1
  | _, _ => True

theorem NoResidue.blank (n : Nat) : NoResidue { size := n } := fun _ _ _ => rfl

variable {c : KvCells} {i : Nat}

variable (h : NoResidue c)

include h

theorem NoResidue.overwrite {d : KvCells} {v : KvCell} (hSize : d.size = c.size)
    (hCell : d.cell = Function.update c.cell i v)
    (hClean : v.pos = -1 → v = {}) : NoResidue d := by
  intro j hj
  rw [hSize] at hj
  rw [hCell]
  by_cases hji : j = i
  · subst hji
    simpa using hClean
  · simpa [hji] using h j hj

theorem NoResidue.seqRm (i s : Nat) (hUsed : (c.cell i).pos ≠ -1) : NoResidue (c.seqRm i s).1 := by
  unfold KvCells.seqRm
  dsimp only
  split
  · exact h.overwrite (i := i) (v := {}) rfl (by simp [seqPosDec]) fun _ => rfl
  · exact h.overwrite rfl rfl fun hEmpty => absurd hEmpty hUsed

theorem NoResidue.seqKeep (s : Nat) (hi : i < c.size) : NoResidue (c.seqKeep i s).1 := by
  unfold KvCells.seqKeep
  split
  · rename_i hs
    refine h.overwrite (i := i) (v := { c.cell i with seq := {s} }) ?_ ?_ ?_
    · simp [seqPosInc]
    · simp [seqPosInc]
    intro hEmpty
    have hBlank := h i hi hEmpty
    rw [hBlank] at hs
    simp at hs
  split
  · exact h.overwrite (i := i) (v := {}) (by simp) (by simp) fun _ => rfl
  · exact h

/-- Every method other than the excluded steps keeps the table clean. -/
theorem NoResidue.step (op : Op) (hPre : op.Pre c)
    (hLeaves : LeavesNoResidue op c) : NoResidue (op.apply c) := by
  cases op with
  | resize n => exact NoResidue.blank n
  | reset => exact NoResidue.blank c.size
  | resetShift =>
    intro i hi hEmpty
    have hi : i < c.size := hi
    simp only [Op.apply, KvCells.resetShift, hi, if_true] at hEmpty ⊢
    rw [h i hi hEmpty]
  | posSet i p =>
    refine h.overwrite rfl rfl ?_
    intro hEmpty
    have hp : p = -1 := hEmpty
    rw [h i hPre.1 hPre.2.1, hp]
  | extSet i e =>
    refine h.overwrite rfl rfl ?_
    intro hEmpty
    rcases hLeaves with hUsed | hZero
    · exact absurd hEmpty hUsed
    · rw [h i hPre hEmpty, hZero]
  | seqAdd i s => exact h.overwrite rfl rfl fun hEmpty => absurd hEmpty hPre.2.1
  | seqRm i s => exact h.seqRm i s hPre.2.2.2
  | seqRmCell i s =>
    simp only [Op.apply, KvCells.seqRmCell]
    split
    · exact h
    rename_i hHas
    simp only [not_or] at hHas
    exact h.seqRm i s hHas.1
  | seqKeep i s => exact h.seqKeep s hPre.1
  | rm i =>
    exact h.overwrite (i := i) (v := {}) (by simp [Op.apply, KvCells.rm])
      (by simp [Op.apply, KvCells.rm]) fun _ => rfl
  | posAdd i d =>
    simp only [Op.apply, KvCells.posAdd, seqPosRm_cell]
    split
    · refine h.overwrite (i := i) (v := { c.cell i with pos := -1, shift := 0, seq := ∅ })
        (by simp) (by simp) ?_
      intro _
      rcases hLeaves with hNonneg | hZero
      · omega
      · simp only [hZero]
    refine h.overwrite (i := i)
      (v := { c.cell i with pos := (c.cell i).pos + d, shift := (c.cell i).shift + d })
      (by simp) (by simp) ?_
    intro hEmpty
    have hEmpty : (c.cell i).pos + d = -1 := hEmpty
    omega
  | posDiv i d =>
    simp only [Op.apply, KvCells.posDiv, seqPosRm_cell]
    exact h.overwrite (i := i)
      (v := { c.cell i with
        pos := (c.cell i).pos.tdiv d
        shift := (c.cell i).shift + ((c.cell i).pos - (c.cell i).pos.tdiv d) })
      (by simp) (by simp) fun hEmpty => absurd hEmpty hLeaves

variable {snap : KvCells}

omit h in
theorem IsSnapshot.noResidue (hSnap : IsSnapshot c snap)
    (h : NoResidue c) : NoResidue snap := by
  have hCp : ∀ idxs : List Nat, (∀ i ∈ idxs, i < c.size) → NoResidue (c.cpIdxs idxs) := by
    intro idxs hIdxs j hj hEmpty
    simp only [KvCells.cpIdxs, getElem?_eq_getElem hj] at hEmpty ⊢
    rw [h _ (hIdxs _ (getElem_mem hj)) hEmpty]
  rcases hSnap with rfl | ⟨i, n, hn, -, rfl⟩ | ⟨idxs, hIdxs, rfl⟩
  · exact h
  · apply hCp
    intro k hk
    have := mem_shifted_range hk
    omega
  · exact hCp idxs fun i hi => (hIdxs i hi).1

theorem NoResidue.setIdxs (idxs : List Nat)
    (hShift : ∀ i ∈ idxs, (c.cell i).shift = 0) (hSnap : NoResidue snap) :
    NoResidue (c.setIdxs idxs snap) := by
  -- `set` keeps the shift of every cell it writes, so the asserted zero
  -- shifts of the targets are carried through the loop
  suffices hFold : NoResidue (c.setIdxs idxs snap) ∧
      ∀ i ∈ idxs, ((c.setIdxs idxs snap).cell i).shift = 0 from hFold.1
  refine foldlRecOn
    (motive := fun d => NoResidue d ∧ ∀ i ∈ idxs, (d.cell i).shift = 0) _ _ ⟨h, hShift⟩ ?_
  rintro d ⟨hd, hdShift⟩ j hj
  have hj : j < snap.size := mem_range.mp hj
  split
  · rename_i idx hIdx
    have hMem : idx ∈ idxs := mem_of_getElem? hIdx
    constructor
    · refine hd.overwrite (by simp) (setOne_cell d idx _) ?_
      intro hEmpty
      rw [hdShift idx hMem, hSnap j hj hEmpty]
    intro i hi
    rw [setOne_cell]
    by_cases hEq : i = idx
    · subst hEq
      simpa using hdShift i hi
    · simpa [hEq] using hdShift i hi
  · exact ⟨hd, hdShift⟩

omit h

/-- In every run whose steps leave no residue, an empty cell has no sequence,
shift zero and a zero extension, and a `pos_set` on it exposes nothing. -/
theorem Reachable.empty_cells_clean {c : KvCells} (h : Reachable LeavesNoResidue c) :
    ∀ i < c.size, (c.cell i).pos = -1 →
      (c.cell i).seq = ∅ ∧ (c.cell i).shift = 0 ∧ (c.cell i).ext = {} ∧
        ∀ p, ((c.posSet i p).cell i).ext = {} := by
  have hClean : NoResidue c := by
    induction h with
    | new => exact NoResidue.blank 0
    | step op _ hPre hLeaves ih => exact ih.step op hPre hLeaves
    | set i _ _ hSnap _ hShift ihc iho =>
      apply ihc.setIdxs _ _ (hSnap.noResidue iho)
      intro k hk
      obtain ⟨j, hj, rfl⟩ := mem_map.mp hk
      exact hShift j (mem_range.mp hj)
    | setIdxs idxs _ _ hSnap _ hIdxs ihc iho =>
      exact ihc.setIdxs idxs (fun i hi => (hIdxs i hi).2) (hSnap.noResidue iho)
  intro i hi hEmpty
  have hBlank := hClean i hi hEmpty
  refine ⟨by rw [hBlank], by rw [hBlank], by rw [hBlank], ?_⟩
  simp [KvCells.posSet, hBlank]

/-- A cell with an extension that a removal emptied. -/
def recycledTable : KvCells :=
  ((((KvCells.resize {} 1).posSet 0 0).extSet 0 ⟨3, 4⟩).seqAdd 0 0).rm 0

/-- The removal took the extension along, and the next token finds none. -/
theorem recycledTable_clean :
    Reachable LeavesNoResidue recycledTable ∧ ((recycledTable.posSet 0 7).cell 0).ext = {} := by
  have hReach : Reachable LeavesNoResidue recycledTable :=
    .step (.rm 0)
      (.step (.seqAdd 0 0)
        (.step (.extSet 0 ⟨3, 4⟩)
          (.step (.posSet 0 0) (.step (.resize 1) .new trivial trivial) (by decide) trivial)
          (by decide) (.inl (by decide)))
        (by decide) trivial)
      (by decide) trivial
  have hSize : 0 < recycledTable.size := by
    simp [recycledTable, KvCells.rm, KvCells.seqAdd, seqPosInc, KvCells.extSet, KvCells.posSet,
      KvCells.resize]
  have hEmpty : (recycledTable.cell 0).pos = -1 := by simp [recycledTable, KvCells.rm]
  exact ⟨hReach, (hReach.empty_cells_clean 0 hSize hEmpty).2.2.2 7⟩

/-- The same cell emptied by `pos_add`. -/
def shiftedOutTable : KvCells :=
  (((((KvCells.resize {} 1).posSet 0 0).extSet 0 ⟨3, 4⟩).seqAdd 0 0).posAdd 0 (-1)).1

/-- It keeps its extension, and the next token placed there inherits it. -/
theorem posAdd_leaves_extension :
    Reachable (fun _ _ => True) shiftedOutTable ∧
      (shiftedOutTable.cell 0).pos = -1 ∧
      (shiftedOutTable.cell 0).ext = ⟨3, 4⟩ ∧
      ((shiftedOutTable.posSet 0 7).cell 0).ext = ⟨3, 4⟩ := by
  have hCell : shiftedOutTable.cell 0 = { ext := ⟨3, 4⟩ } := by
    simp [shiftedOutTable, KvCells.posAdd, KvCells.seqAdd, seqPosInc, KvCells.extSet,
      KvCells.posSet]
  refine ⟨?_, by rw [hCell], by rw [hCell], by simp [KvCells.posSet, hCell]⟩
  exact .step (.posAdd 0 (-1))
    (.step (.seqAdd 0 0)
      (.step (.extSet 0 ⟨3, 4⟩)
        (.step (.posSet 0 0) (.step (.resize 1) .new trivial trivial) (by decide) trivial)
        (by decide) trivial)
      (by decide) trivial)
    (by decide) trivial

end Beellama.Ports.KvCells
