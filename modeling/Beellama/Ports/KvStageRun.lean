import Beellama.Ports.KvStage

/-!
# Runs of a structured cache

Batches of one sequence each, accepted removals, self-contained restores and
the end of a batch, from the empty cache on.  A removal and a restore rebuild
the head of their sequence from its newest cell, so each of them is given what
this cell will be in terms of the state before it.
-/

namespace Beellama.Ports

open Beellama.Verified TailStore List Finset

namespace KvCache

/-! ## The newest cell of a sequence -/

/-- Among the cells `n` at positions `p` with `A n p`, the first one with the
largest position, when this is not negative. -/
structure Newest (A : Nat → Int → Prop) (n : Nat) (p : Int) : Prop where
  mem : A n p
  pos : 0 ≤ p
  newest : ∀ m q, A m q → q < p ∨ (q = p ∧ n ≤ m)

/-- The cells of a sequence with their positions. -/
def HeldCell (cells : KvCells) (s n : Nat) (p : Int) : Prop :=
  n < cells.size ∧ s ∈ (cells.cell n).seq ∧ (cells.cell n).pos = p

/-- What the scan knows after the first `k` cells. -/
theorem newestCell_scan (cells : KvCells) (s k : Nat) :
    let acc := (List.range k).foldl
      (fun (acc : Int × Option Nat) i =>
        if cells.seqHas i s ∧ acc.1 < cells.posGet i then (cells.posGet i, some i) else acc)
      (-1, none)
    (acc = (-1, none) ∧ ∀ m < k, s ∈ (cells.cell m).seq → (cells.cell m).pos ≤ -1) ∨
      ∃ n < k, acc = ((cells.cell n).pos, some n) ∧ s ∈ (cells.cell n).seq ∧
        0 ≤ (cells.cell n).pos ∧ ∀ m < k, s ∈ (cells.cell m).seq →
          (cells.cell m).pos < (cells.cell n).pos ∨
            ((cells.cell m).pos = (cells.cell n).pos ∧ n ≤ m) := by
  induction k with
  | zero => exact Or.inl ⟨rfl, fun m hm => absurd hm (Nat.not_lt_zero m)⟩
  | succ k ih =>
    rw [range_succ, foldl_append, foldl_cons]
    rcases ih with ⟨hAcc, hNone⟩ | ⟨n, hn, hAcc, hMem, hPos, hNewest⟩
    · rw [hAcc]
      by_cases hTake : cells.seqHas k s = true ∧ -1 < cells.posGet k
      · rw [if_pos hTake]
        have hMem : s ∈ (cells.cell k).seq := by simpa [KvCells.seqHas] using hTake.1
        have hLt : -1 < (cells.cell k).pos := hTake.2
        refine Or.inr ⟨k, Nat.lt_succ_self k, rfl, hMem, by omega, fun m hm hMemM => ?_⟩
        rcases Nat.lt_succ_iff_lt_or_eq.mp hm with hLess | rfl
        · have := hNone m hLess hMemM
          omega
        · exact Or.inr ⟨rfl, le_rfl⟩
      rw [if_neg hTake]
      refine Or.inl ⟨rfl, fun m hm hMemM => ?_⟩
      rcases Nat.lt_succ_iff_lt_or_eq.mp hm with hLess | rfl
      · exact hNone m hLess hMemM
      · by_contra hGt
        exact hTake ⟨by simpa [KvCells.seqHas] using hMemM, not_le.mp hGt⟩
    rw [hAcc]
    right
    by_cases hTake : cells.seqHas k s = true ∧ (cells.cell n).pos < cells.posGet k
    · rw [if_pos hTake]
      have hMemK : s ∈ (cells.cell k).seq := by simpa [KvCells.seqHas] using hTake.1
      have hLt : (cells.cell n).pos < (cells.cell k).pos := hTake.2
      refine ⟨k, Nat.lt_succ_self k, rfl, hMemK, by omega, fun m hm hMemM => ?_⟩
      rcases Nat.lt_succ_iff_lt_or_eq.mp hm with hLess | rfl
      · have := hNewest m hLess hMemM
        left
        omega
      · exact Or.inr ⟨rfl, le_rfl⟩
    rw [if_neg hTake]
    refine ⟨n, Nat.lt_succ_of_lt hn, rfl, hMem, hPos, fun m hm hMemM => ?_⟩
    rcases Nat.lt_succ_iff_lt_or_eq.mp hm with hLess | rfl
    · exact hNewest m hLess hMemM
    have hLe : (cells.cell m).pos ≤ (cells.cell n).pos := by
      by_contra hGt
      exact hTake ⟨by simpa [KvCells.seqHas] using hMemM, not_le.mp hGt⟩
    rcases lt_or_eq_of_le hLe with hLess | hEq
    · exact Or.inl hLess
    · exact Or.inr ⟨hEq, hn.le⟩

variable {cells : KvCells} {n : Nat}

theorem newestCell_newest {s : Nat} (h : newestCell cells s = some n) :
    ∃ p, Newest (HeldCell cells s) n p := by
  have hScan := newestCell_scan cells s cells.size
  unfold newestCell at h
  rcases hScan with ⟨hAcc, -⟩ | ⟨k, hk, hAcc, hMem, hPos, hNewest⟩
  · rw [hAcc] at h
    cases h
  rw [hAcc] at h
  cases h
  refine ⟨_, ⟨hk, hMem, rfl⟩, hPos, ?_⟩
  rintro m q ⟨hm, hMemM, rfl⟩
  exact hNewest m hm hMemM

/-- A rebuilt head is zero or stands behind the newest cell. -/
theorem rebuildAllocationHead_newest (c : KvCache) {s : Nat} (hGrouped : c.cfg.grouped = true)
    (hs : s < c.cfg.nSeqMax) :
    (c.rebuildAllocationHead s).allocationHeads s = 0 ∨
      ∃ n p, Newest (HeldCell (c.cells 0) s) n p ∧
        (c.rebuildAllocationHead s).allocationHeads s = n + 1 := by
  unfold rebuildAllocationHead
  rw [if_neg (by simp [hGrouped]; omega)]
  cases hNewest : newestCell (c.cells 0) s with
  | none =>
    left
    simp only [resetAllocationHead, if_neg (Nat.not_le.mpr hs)]
    exact Function.update_self _ _ _
  | some n =>
    right
    obtain ⟨p, hp⟩ := newestCell_newest hNewest
    exact ⟨n, p, hp, Function.update_self _ _ _⟩

variable {A B : Nat → Int → Prop}

theorem Newest.congr (h : ∀ n p, A n p ↔ B n p) {p : Int}
    (hA : Newest A n p) : Newest B n p :=
  ⟨(h n p).mp hA.mem, hA.pos, fun m q hB => hA.newest m q ((h m q).mpr hB)⟩

/-! ## Steps that rebuild one head -/

/-- The newest of the cells `A`, unless it is the last of its group, lies in a group whose slot
nobody else occupies. -/
def SlotFree (c : KvCache) (s : Nat) (A : Nat → Int → Prop) : Prop :=
  ∀ n p, Newest A n p → (n + 1) % c.cfg.allocationGroupSize ≠ 0 →
    ¬ SlotTaken c s (c.slotOf (n / c.cfg.allocationGroupSize))

section Rebuild

variable {cfg : CacheConfig} {c c' : KvCache} {s : Nat}

/-- A step of sequence `s` that leaves the cells and heads of the others alone
and rebuilds the head of `s`. -/
theorem Staged.rebuilt (h : Staged cfg c) (hGrouped : cfg.grouped = true)
    (hOwned : Owned cfg (c'.cells 0)) (hCfg : c'.cfg = c.cfg)
    (hOther : ∀ t ≠ s, ∀ i, t ∈ ((c.cells 0).cell i).seq → t ∈ ((c'.cells 0).cell i).seq)
    (hHeads : ∀ t ≠ s, c'.allocationHeads t = c.allocationHeads t)
    (hRebuilt : ∃ c₃ : KvCache, c' = c₃.rebuildAllocationHead s)
    (hFree : SlotFree c s (HeldCell (c'.cells 0) s)) : Staged cfg c' := by
  have hHead : s < cfg.nSeqMax → c'.allocationHeads s = 0 ∨
      ∃ n p, Newest (HeldCell (c'.cells 0) s) n p ∧ c'.allocationHeads s = n + 1 := by
    intro hs
    obtain ⟨c₃, rfl⟩ := hRebuilt
    have hStep := rebuildAllocationHead_step s c₃
    have hConfig : c₃.cfg = cfg := by rw [← hStep.cfg, hCfg, h.config]
    rw [hStep.cells]
    exact rebuildAllocationHead_newest c₃ (by rw [hConfig]; exact hGrouped)
      (by rw [hConfig]; exact hs)
  refine ⟨hOwned, hCfg.trans h.config, fun t ht => ?_, ?_⟩
  · by_cases hts : t = s
    · subst hts
      refine (hHead ht).imp id ?_
      rintro ⟨n, p, hNewest, hEq⟩
      rw [hEq]
      exact hNewest.mem.2.1
    · rw [hHeads t hts]
      exact (h.heads t ht).imp id (hOther t hts _)
  refine h.distinct.moved hCfg hHeads fun hs g hLive => ?_
  obtain ⟨hNonzero, hLiveMod, rfl⟩ := liveGroup_some hLive
  rw [h.config] at hs
  rcases hHead hs with hZero | ⟨n, p, hNewest, hEq⟩
  · exact absurd hZero hNonzero
  rw [hEq] at hLiveMod ⊢
  rw [hCfg] at hLiveMod ⊢
  exact hFree n p hNewest hLiveMod

end Rebuild

/-! ## Removals -/

/-- The cells of a sequence that the removal of the positions `[lo, hi)` leaves. -/
def KeptCell (cells : KvCells) (s : Nat) (lo hi : Int) (n : Nat) (p : Int) : Prop :=
  HeldCell cells s n p ∧ ¬ (cells.cell n).within lo hi

section Remove

variable {cfg : CacheConfig} {c c' : KvCache} {s : Nat} {lo hi : Int}

/-- A removal leaves a cell as it is or empties it. -/
theorem Owned.clearedCell (h : Owned cfg cells) (s : Nat) (lo hi : Int)
    (i : Nat) : KvCache.clearedCell s lo hi (cells.cell i) = cells.cell i ∨
      (s ∈ (cells.cell i).seq ∧ (KvCache.clearedCell s lo hi (cells.cell i)).pos = -1 ∧
        (KvCache.clearedCell s lo hi (cells.cell i)).seq = ∅) := by
  unfold KvCache.clearedCell
  split
  · rename_i hIn
    right
    rcases h.single i with ⟨-, hEmpty⟩ | ⟨-, t, hSeq⟩
    · rw [hEmpty] at hIn
      exact absurd hIn.2 (notMem_empty s)
    have hOnly : (cells.cell i).seq.erase s = ∅ := by
      have hMem := hIn.2
      rw [hSeq, Finset.mem_singleton] at hMem
      rw [hSeq, hMem]
      simp
    unfold KvCell.seqRm
    rw [if_pos hOnly]
    exact ⟨hIn.2, rfl, rfl⟩
  · exact Or.inl rfl

section

variable (h : Occupied (c.cells 0)) (hStream : c.cfg.seqToStream s = 0)
  (hCleared : Cleared s lo hi c c')

include h hStream hCleared

theorem Cleared.cell_eq (i : Nat) :
    (c'.cells 0).cell i = clearedCell s lo hi ((c.cells 0).cell i) := by
  have hCell := hCleared.cell i
  rw [hStream] at hCell
  rw [hCell]
  split
  · rfl
  rename_i hOut
  unfold clearedCell
  rw [if_neg]
  rintro ⟨-, hMem⟩
  exact hOut (h i s hMem).1

theorem Cleared.occupied : Occupied (c'.cells 0) := by
  intro i t ht
  have hSize := hCleared.size
  rw [hStream] at hSize
  rw [hCleared.cell_eq h hStream] at ht ⊢
  rw [hSize]
  unfold clearedCell at ht ⊢
  split at ht
  · unfold KvCell.seqRm at ht ⊢
    split at ht
    · exact absurd ht (notMem_empty t)
    rename_i hIn hLeft
    rw [if_pos hIn, if_neg hLeft]
    exact h i t (mem_of_mem_erase ht)
  rename_i hOut
  rw [if_neg hOut]
  exact h i t ht

omit h hStream hCleared in
theorem Owned.cleared (h : Owned cfg (c.cells 0)) (hStream : c.cfg.seqToStream s = 0)
    (hCleared : Cleared s lo hi c c') : Owned cfg (c'.cells 0) := by
  have hMember : ∀ i t, t ∈ ((c'.cells 0).cell i).seq → t ∈ ((c.cells 0).cell i).seq := by
    intro i t ht
    rw [hCleared.cell_eq h.occupied hStream] at ht
    rcases h.clearedCell s lo hi i with hSame | ⟨-, -, hEmpty⟩
    · rwa [hSame] at ht
    · rw [hEmpty] at ht
      exact absurd ht (notMem_empty t)
  refine ⟨?_, fun i t ht => h.inTable i t (hMember i t ht), fun i => ?_,
    fun i j t u hGroup ht hu => h.pure i j t u hGroup (hMember i t ht) (hMember j u hu)⟩
  · have hSize := hCleared.size
    rw [hStream] at hSize
    rw [hSize, h.size]
  rw [hCleared.cell_eq h.occupied hStream]
  rcases h.clearedCell s lo hi i with hSame | ⟨-, hPos, hEmpty⟩
  · rw [hSame]
    exact h.single i
  · exact Or.inl ⟨hPos, hEmpty⟩

theorem Cleared.held_iff (n : Nat) (p : Int) :
    HeldCell (c'.cells 0) s n p ↔ KeptCell (c.cells 0) s lo hi n p := by
  have hSize := hCleared.size
  rw [hStream] at hSize
  unfold KeptCell HeldCell
  rw [hSize, hCleared.cell_eq h hStream, clearedCell_self]
  constructor
  · rintro ⟨hn, ⟨hMem, hOut⟩, hPos⟩
    have hSame : clearedCell s lo hi ((c.cells 0).cell n) = (c.cells 0).cell n := by
      unfold clearedCell
      rw [if_neg fun hIn => hOut hIn.1]
    rw [hSame] at hPos
    exact ⟨⟨hn, hMem, hPos⟩, hOut⟩
  rintro ⟨⟨hn, hMem, hPos⟩, hOut⟩
  refine ⟨hn, ⟨hMem, hOut⟩, ?_⟩
  unfold clearedCell
  rw [if_neg fun hIn => hOut hIn.1]
  exact hPos

theorem Cleared.member_other {t : Nat} (ht : t ≠ s) (i : Nat) :
    t ∈ ((c'.cells 0).cell i).seq ↔ t ∈ ((c.cells 0).cell i).seq := by
  rw [hCleared.cell_eq h hStream]
  exact clearedCell_member ht _

end

theorem seqToStream_grouped (hGrouped : cfg.grouped = true) (s : Nat) : cfg.seqToStream s = 0 := by
  simp only [CacheConfig.grouped, decide_eq_true_eq] at hGrouped
  unfold CacheConfig.seqToStream
  rw [if_neg]
  omega

theorem SlotFree.congr (h : ∀ n p, B n p ↔ A n p)
    (hA : SlotFree c s A) : SlotFree c s B :=
  fun n p hB => hA n p (hB.congr h)

/-- A removal after which the newest cell of the sequence lies in a free slot
keeps the invariant. -/
theorem Staged.remove (h : Staged cfg c) (hGrouped : cfg.grouped = true) {p0 p1 : Int} {b : Bool}
    (hRun : seqRm s p0 p1 c = .ok b c')
    (hFree : SlotFree c s (KeptCell (c.cells 0) s (rangeLo p0) (rangeHi p1))) :
    Staged cfg c' := by
  rcases seqRm_run hRun with ⟨-, -, u, hRm⟩ | ⟨-, -, rfl⟩
  · have hStream : c.cfg.seqToStream s = 0 := by
      rw [h.config]
      exact seqToStream_grouped hGrouped s
    obtain ⟨hCleared, hRebuilt⟩ := seqRmUnchecked_cleared hRm
    exact h.rebuilt hGrouped (h.toOwned.cleared hStream hCleared) hCleared.cfg
      (fun t ht i => (hCleared.member_other h.occupied hStream ht i).mpr)
      hCleared.heads hRebuilt (hFree.congr (hCleared.held_iff h.occupied hStream))
  · exact h

end Remove

/-! ## The destination groups of a restore -/

variable {source g : Nat} {groupSize : Nat}

theorem pickGroup_spec {reserved : List Nat}
    (h : pickGroup cells groupSize reserved source = some g) :
    g < cells.size / groupSize ∧ g ∉ reserved ∧ groupEmpty cells groupSize g = true := by
  unfold pickGroup at h
  dsimp only at h
  split at h
  · rename_i g' hFound
    cases h
    have hMem := mem_of_find?_eq_some hFound
    have hTest := find?_some hFound
    simp only [Bool.and_eq_true, decide_eq_true_eq] at hTest
    exact ⟨List.mem_range.mp hMem, hTest.2⟩
  have hMem := mem_of_find?_eq_some h
  have hTest := find?_some h
  simp only [Bool.and_eq_true, decide_eq_true_eq] at hTest
  exact ⟨List.mem_range.mp hMem, hTest.2⟩

theorem pickGroups_spec {sources : List Nat}
    {groups res : List (Nat × Nat)} (h : pickGroups cells groupSize sources groups = some res)
    (hNodup : (groups.map Prod.snd).Nodup) :
    (res.map Prod.snd).Nodup ∧ ∃ new, res = groups ++ new ∧ new.map Prod.fst = sources ∧
      ∀ p ∈ new, p.2 < cells.size / groupSize ∧ groupEmpty cells groupSize p.2 = true := by
  induction sources generalizing groups with
  | nil =>
    cases h
    exact ⟨hNodup, [], by simp, rfl, by simp⟩
  | cons source sources ih =>
    unfold pickGroups at h
    split at h
    · cases h
    rename_i g hPick
    obtain ⟨hSize, hNew, hEmpty⟩ := pickGroup_spec hPick
    have hNodup' : ((groups ++ [(source, g)]).map Prod.snd).Nodup := by
      rw [map_append, nodup_append]
      refine ⟨hNodup, nodup_singleton g, ?_⟩
      rintro a ha b hb rfl
      have hEq : a = g := by simpa using hb
      exact hNew (hEq ▸ ha)
    obtain ⟨hAll, new, hRes, hFst, hSpec⟩ := ih h hNodup'
    refine ⟨hAll, (source, g) :: new, by rw [hRes]; simp, by simp [hFst], ?_⟩
    intro p hp
    rcases mem_cons.mp hp with rfl | hMem
    · exact ⟨hSize, hEmpty⟩
    · exact hSpec p hMem

/-- The group a saved cell goes to. -/
structure RemapGroup (cells : KvCells) (groupSize : Nat) (groups : List (Nat × Nat))
    (x : SavedCell) (g : Nat) : Prop where
  mem : (x.sourceCell / groupSize, g) ∈ groups
  size : g < cells.size / groupSize
  empty : groupEmpty cells groupSize g = true
  cell : remapCell groupSize groups x = g * groupSize + x.sourceCell % groupSize

variable {x : SavedCell}

theorem remapGroup_of_picked {saved : List SavedCell} {groups : List (Nat × Nat)}
    (hPicked : pickGroups cells groupSize (sourceGroups groupSize cells.size saved) [] =
      some groups)
    (hValid : sourceCellsValid cells.size saved = true) (hDivides : cells.size % groupSize = 0)
    (hx : x ∈ saved) : ∃ g, RemapGroup cells groupSize groups x g := by
  obtain ⟨-, new, hRes, hFst, hSpec⟩ := pickGroups_spec hPicked List.nodup_nil
  subst hRes
  simp only [sourceCellsValid, Bool.and_eq_true, List.all_eq_true, decide_eq_true_eq] at hValid
  have hLt := hValid.1 x hx
  have hSource : x.sourceCell / groupSize ∈ groups.map Prod.fst := by
    rw [hFst]
    simp only [sourceGroups, List.mem_filter, List.mem_range, List.any_eq_true, decide_eq_true_eq]
    refine ⟨?_, x, hx, rfl⟩
    have hMul := Nat.div_add_mod cells.size groupSize
    rw [hDivides, Nat.add_zero] at hMul
    refine Nat.div_lt_of_lt_mul ?_
    rwa [hMul]
  obtain ⟨p, hp, hKey⟩ := List.mem_map.mp hSource
  obtain ⟨g, hg⟩ : ∃ g, groups.lookup (x.sourceCell / groupSize) = some g := by
    rw [← Option.isSome_iff_exists, List.lookup_isSome_iff]
    exact ⟨p, hp, by simp [hKey]⟩
  have hMem : (x.sourceCell / groupSize, g) ∈ groups := by
    obtain ⟨before, after, hEq, -⟩ := List.lookup_eq_some_iff.mp hg
    rw [hEq]
    simp
  exact ⟨g, hMem, (hSpec _ hMem).1, (hSpec _ hMem).2, by rw [remapCell, hg]; rfl⟩

section Restore

variable {cfg : CacheConfig} {c c' : KvCache} {s : Nat} {mf : StateManifest}
  {groups : List (Nat × Nat)}

theorem RemapGroup.offset_lt (h : RemapGroup cells groupSize groups x g) :
    x.sourceCell % groupSize < groupSize := by
  have hPos : 0 < groupSize := by
    by_contra hZero
    have hSize := h.size
    rw [Nat.eq_zero_of_not_pos hZero, Nat.div_zero] at hSize
    exact Nat.not_lt_zero g hSize
  exact Nat.mod_lt _ hPos

theorem RemapGroup.group (h : RemapGroup cells groupSize groups x g) :
    remapCell groupSize groups x / groupSize = g := by
  have hOffset := h.offset_lt
  rw [h.cell, Nat.mul_comm, Nat.mul_add_div (by omega), Nat.div_eq_of_lt hOffset, Nat.add_zero]

theorem RemapGroup.inTable (h : RemapGroup cells groupSize groups x g) :
    remapCell groupSize groups x < cells.size := by
  have hOffset := h.offset_lt
  have hMul := Nat.mul_le_of_le_div _ _ _ (Nat.succ_le_of_lt h.size)
  rw [Nat.succ_mul] at hMul
  rw [h.cell]
  omega

variable {j : Nat}

theorem RemapGroup.notUsed (h : RemapGroup cells groupSize groups x g) (hj : j / groupSize = g) :
    (cells.cell j).pos = -1 := by
  have hOffset : j % groupSize < groupSize :=
    Nat.mod_lt _ (lt_of_le_of_lt (Nat.zero_le _) h.offset_lt)
  have hEmpty := h.empty
  have hCell := List.all_eq_true.mp hEmpty _ (List.mem_range.mpr hOffset)
  rw [← hj, Nat.mul_comm, Nat.div_add_mod] at hCell
  simpa [KvCells.isEmpty] using hCell

/-- The cells of the sequence once the saved ones are in place. -/
def RestoredCell (c : KvCache) (s : Nat) (mf : StateManifest) (groups : List (Nat × Nat))
    (n : Nat) (p : Int) : Prop :=
  KeptCell (c.cells 0) s 0 int32Max n p ∨
    ∃ x ∈ mf.savedCells, remapCell c.cfg.allocationGroupSize groups x = n ∧ x.pos = p

/-- The newest restored cell lies in a free slot.  The source groups are taken in ascending order
and are placed in the table without the sequence: a group stays where it was saved if that group is
empty and not yet given away, and else goes to the first group that is. -/
def RestoreClear (c : KvCache) (s : Nat) (mf : StateManifest) : Prop :=
  ∀ groups, pickGroups (sweep (rmBody s 0 int32Max) (c.cells 0)).1 c.cfg.allocationGroupSize
      (sourceGroups c.cfg.allocationGroupSize (c.cells 0).size mf.savedCells) [] = some groups →
    SlotFree c s (RestoredCell c s mf groups)

/-- The parts of a self-contained restore of a structured cache. -/
theorem Remapped.unified {c₁ c₂ : KvCache}
    (h : Remapped groupSize s mf groups c c₁ c₂) (hStream : c.cfg.seqToStream s = 0) :
    (c₁.cells 0).size = (c.cells 0).size ∧
      sourceCellsValid (c₁.cells 0).size mf.savedCells = true ∧
      pickGroups (c₁.cells 0) groupSize
        (sourceGroups groupSize (c₁.cells 0).size mf.savedCells) [] = some groups ∧
      PlacedCells mf.nPosPerEmbd 0 s false (remapCell groupSize groups) mf.savedCells c₁ c₂ := by
  have hPlaced := h.placed
  have hPicked := h.picked
  have hValid := h.valid
  have hTable := h.cleared.table
  have hSize := h.cleared.size
  rw [hStream] at hPlaced hPicked hValid hTable hSize
  rw [← hTable, ← hSize] at hPicked
  rw [← hSize] at hValid
  exact ⟨hSize, hValid, hPicked, hPlaced⟩

variable {c₁ c₂ : KvCache} {groupSize : Nat} (h : Occupied (c.cells 0))
  (hStream : c.cfg.seqToStream s = 0) (hDivides : (c.cells 0).size % groupSize = 0)
  (hRemapped : Remapped groupSize s mf groups c c₁ c₂)

include hStream hDivides hRemapped in
theorem Remapped.remapGroup (hx : x ∈ mf.savedCells) :
    ∃ g, RemapGroup (c₁.cells 0) groupSize groups x g := by
  obtain ⟨hSize, hValid, hPicked, -⟩ := hRemapped.unified hStream
  exact remapGroup_of_picked hPicked hValid (by rw [hSize]; exact hDivides) hx

include hStream hRemapped in
/-- A cell of the new table is an old one, or a saved one of `s`. -/
theorem Remapped.member_iff (i t : Nat) : t ∈ ((c₂.cells 0).cell i).seq ↔
    ((∃ x ∈ mf.savedCells, remapCell groupSize groups x = i) ∧ t = s) ∨
      t ∈ ((c₁.cells 0).cell i).seq := by
  obtain ⟨-, -, -, hPlaced⟩ := hRemapped.unified hStream
  rw [← List.mem_map]
  by_cases hi : i ∈ mf.savedCells.map (remapCell groupSize groups)
  · rw [hPlaced.seq i hi, mem_insert]
    simp [hi]
  · rw [hPlaced.others i hi]
    simp [hi]

include h hStream hDivides hRemapped

theorem Remapped.apart (hx : x ∈ mf.savedCells) {u : Nat}
    (hu : u ∈ ((c₁.cells 0).cell j).seq) :
    remapCell groupSize groups x / groupSize ≠ j / groupSize := by
  intro hEq
  obtain ⟨g, hg⟩ := hRemapped.remapGroup hStream hDivides hx
  rw [hg.group] at hEq
  exact (hRemapped.cleared.occupied h hStream j u hu).2 (hg.notUsed hEq.symm)

theorem Remapped.held_iff (n : Nat) (p : Int) :
    HeldCell (c₂.cells 0) s n p ↔ KeptCell (c.cells 0) s 0 int32Max n p ∨
      ∃ x ∈ mf.savedCells, remapCell groupSize groups x = n ∧ x.pos = p := by
  obtain ⟨-, -, -, hPlaced⟩ := hRemapped.unified hStream
  have hOccupied := hRemapped.cleared.occupied h hStream
  have hMember := hRemapped.member_iff hStream
  rw [← hRemapped.cleared.held_iff h hStream]
  constructor
  · rintro ⟨hn, hMem, hPos⟩
    rcases (hMember n s).mp hMem with ⟨⟨x, hx, rfl⟩, -⟩ | hOld
    · refine Or.inr ⟨x, hx, rfl, ?_⟩
      rw [← hPos, (hPlaced.fits x hx).1]
    · refine Or.inl ⟨(hOccupied n s hOld).1, hOld, ?_⟩
      rw [← (hPlaced.kept n (hOccupied n s hOld).2).1, hPos]
  rintro (⟨hn, hMem, hPos⟩ | ⟨x, hx, rfl, rfl⟩)
  · refine ⟨by rw [hPlaced.size]; exact hn, (hMember n s).mpr (Or.inr hMem), ?_⟩
    rw [(hPlaced.kept n (hOccupied n s hMem).2).1, hPos]
  obtain ⟨g, hg⟩ := hRemapped.remapGroup hStream hDivides hx
  exact ⟨by rw [hPlaced.size]; exact hg.inTable,
    (hMember _ s).mpr (Or.inl ⟨⟨x, hx, rfl⟩, rfl⟩), (hPlaced.fits x hx).1⟩

omit h hStream hDivides hRemapped

theorem Remapped.owned (h : Owned cfg (c.cells 0)) (hStream : c.cfg.seqToStream s = 0)
    (hRemapped : Remapped cfg.allocationGroupSize s mf groups c c₁ c₂) :
    Owned cfg (c₂.cells 0) := by
  obtain ⟨-, -, -, hPlaced⟩ := hRemapped.unified hStream
  have hOwned := h.cleared hStream hRemapped.cleared
  have hMember := hRemapped.member_iff hStream
  have hDivides : (c.cells 0).size % cfg.allocationGroupSize = 0 := by
    rw [h.size]
    exact cfg.groups.2.2
  refine ⟨by rw [hPlaced.size, hOwned.size], fun i t ht => ?_, fun i => ?_,
    fun i j t u hSame ht hu => ?_⟩
  · rcases (hMember i t).mp ht with ⟨⟨x, hx, rfl⟩, -⟩ | hOld
    · obtain ⟨g, hg⟩ := hRemapped.remapGroup hStream hDivides hx
      rw [← hOwned.size]
      exact hg.inTable
    · exact hOwned.inTable i t hOld
  · by_cases hi : i ∈ mf.savedCells.map (remapCell cfg.allocationGroupSize groups)
    · have hEmpty := hOwned.occupied.empty ((hPlaced.free rfl).2 i hi)
      obtain ⟨x, hx, rfl⟩ := mem_map.mp hi
      refine Or.inr ⟨?_, s, ?_⟩
      · rw [(hPlaced.fits x hx).1]
        exact x.used
      · rw [hPlaced.seq _ hi, hEmpty]
        rfl
    · rw [hPlaced.others i hi]
      exact hOwned.single i
  have hApart := fun x hx j u hu =>
    hRemapped.apart h.occupied hStream hDivides (x := x) hx (j := j) (u := u) hu
  rcases (hMember i t).mp ht with ⟨⟨x, hx, rfl⟩, rfl⟩ | hOldT
  · rcases (hMember j u).mp hu with ⟨-, rfl⟩ | hOldU
    · rfl
    · exact absurd hSame (hApart x hx j u hOldU)
  rcases (hMember j u).mp hu with ⟨⟨y, hy, rfl⟩, -⟩ | hOldU
  · exact absurd hSame.symm (hApart y hy i t hOldT)
  · exact hOwned.pure i j t u hSame hOldT hOldU

/-- A self-contained restore whose newest cell lies in a free slot keeps the
invariant. -/
theorem Staged.restore (h : Staged cfg c) (hGrouped : cfg.grouped = true)
    {restored : List (List Nat)}
    (hRun : stateV2Install cfg.allocationGroupSize s .selfContained mf c = .ok restored c')
    (hFree : RestoreClear c s mf) : Staged cfg c' := by
  have hStream : c.cfg.seqToStream s = 0 := by
    rw [h.config]
    exact seqToStream_grouped hGrouped s
  obtain ⟨groups, c₁, c₂, -, hRemapped, hCells, hCfg, hHeads, hRebuilt⟩ :=
    stateV2Install_remapped hRun
  have hPlaced := hRemapped.placed
  have hCleared := hRemapped.cleared
  have hPicked := hRemapped.picked
  rw [hStream, ← h.config] at hPicked
  refine h.rebuilt hGrouped ?_ (by rw [hCfg, hPlaced.cfg, hCleared.cfg]) ?_ ?_ hRebuilt ?_
  · rw [hCells]
    exact hRemapped.owned h.toOwned hStream
  · intro t ht i hMem
    rw [← hCleared.member_other h.occupied hStream ht i] at hMem
    rw [hCells]
    exact (hRemapped.member_iff hStream i t).mpr (Or.inr hMem)
  · intro t ht
    rw [hHeads t ht, hPlaced.heads, hCleared.heads t ht]
  rw [hCells]
  refine (hFree groups hPicked).congr fun n p => ?_
  rw [RestoredCell, h.config]
  exact hRemapped.held_iff h.occupied hStream (by rw [h.size]; exact cfg.groups.2.2) n p

end Restore

/-! ## What `find_slot` throws -/

section Errors

variable {c : KvCache} {u : Ubatch} {cont : Bool} {e : CacheError}

theorem groupSlots_error {toks : List UbatchToken} {st : GroupSearch}
    (h : groupSlots c toks st = .error e) : e ≠ .stageAlias := by
  induction toks generalizing st with
  | nil => cases h
  | cons tok toks ih =>
    unfold groupSlots at h
    split at h
    · cases h
      simp
    split at h
    · cases h
      simp
    split at h
    · cases h
    rename_i idx hIdx
    cases hRest : groupSlots c toks (reserveCell c.cfg st tok.seqId idx) with
    | error e' =>
      rw [hRest] at h
      cases h
      exact ih hRest
    | ok rest =>
      rw [hRest] at h
      cases h

variable {seqId : Nat}

theorem canUse_error {idx found : Nat}
    (h : canUse c.cfg cells u seqId idx found = .error e) : e ≠ .stageAlias := by
  unfold canUse at h
  split at h
  · split at h
    · cases h
      simp
    · cases h
  · cases h

variable {st : RingSearch}

theorem testCells_error (h : testCells c.cfg cells u cont seqId n st = .error e) :
    e ≠ .stageAlias := by
  induction n generalizing st with
  | zero => cases h
  | succ n ih =>
    unfold testCells at h
    cases hUse : canUse c.cfg cells u seqId st.head st.idxs.length with
    | error e' =>
      rw [hUse] at h
      cases h
      exact canUse_error hUse
    | ok usable =>
      rw [hUse] at h
      cases usable with
      | true => exact ih h
      | false =>
        cases cont with
        | true => cases h
        | false => exact ih h

variable {nTokens : Nat}

theorem searchSlots_error {steps : Nat}
    (h : searchSlots c.cfg cells u cont seqId nTokens steps st = .error e) :
    e ≠ .stageAlias := by
  induction steps generalizing st with
  | zero => cases h
  | succ steps ih =>
    unfold searchSlots at h
    dsimp only at h
    generalize (if cont = true then nTokens else 1) = nTest at h
    split at h
    · exact ih h
    cases hTest : testCells c.cfg cells u cont seqId nTest st with
    | error e' =>
      rw [hTest] at h
      cases h
      exact testCells_error hTest
    | ok st' =>
      rw [hTest] at h
      change (if st'.idxs.length = nTokens then _ else _) = _ at h
      generalize (if cont = true then { st' with idxs := [] } else st') = st'' at h
      split at h
      · cases h
      split at h
      · cases h
      · exact ih h

theorem ringRuns_error {s : Nat} {seqIds : List Nat}
    (h : ringRuns c u cont nTokens seqIds s = .error e) : e ≠ .stageAlias := by
  induction seqIds generalizing s with
  | nil => cases h
  | cons seqId seqIds ih =>
    unfold ringRuns at h
    split at h
    · cases h
      simp
    cases hSlots : ringSlots c u cont seqId nTokens with
    | error e' =>
      rw [hSlots] at h
      cases h
      unfold ringSlots at hSlots
      dsimp only at hSlots
      split at hSlots
      · cases hSlots
      · exact searchSlots_error hSlots
    | ok found =>
      rw [hSlots] at h
      cases found with
      | none => cases h
      | some idxs =>
        cases hRest : ringRuns c u cont nTokens seqIds (s + 1) with
        | error e' =>
          rw [hRest] at h
          cases h
          exact ih hRest
        | ok rest =>
          rw [hRest] at h
          cases h

/-- With the live groups in slots of their own no search of a batch throws. -/
theorem StageDistinct.findSlot_ne (h : StageDistinct c) (u : Ubatch) (cont : Bool) :
    c.findSlot u cont ≠ .error .stageAlias := by
  intro hFind
  unfold findSlot at hFind
  dsimp only at hFind
  split at hFind
  · cases hFind
  split at hFind
  · obtain ⟨st, hSearch, -⟩ := groupSearch_spec h
    rw [hSearch] at hFind
    change (groupSlots c u.tokens st >>= _) = _ at hFind
    cases hSlots : groupSlots c u.tokens st with
    | error e =>
      rw [hSlots] at hFind
      exact groupSlots_error hSlots (Except.error.inj hFind)
    | ok idxs =>
      rw [hSlots] at hFind
      cases hFind
  split at hFind
  · cases hRuns : ringRuns c u cont (u.tokens.length / u.seqIdUnq.length) u.seqIdUnq 0 with
    | error e =>
      rw [hRuns] at hFind
      exact ringRuns_error hRuns (Except.error.inj hFind)
    | ok runs =>
      rw [hRuns] at hFind
      cases hFind
  cases hRuns : ringRuns c u cont u.tokens.length (u.seqIdUnq.take 1) 0 with
  | error e =>
    rw [hRuns] at hFind
    exact ringRuns_error hRuns (Except.error.inj hFind)
  | ok runs =>
    rw [hRuns] at hFind
    cases hFind

end Errors

/-! ## Runs -/

/-- The operations on a structured cache. -/
inductive StageOp
  /-- `find_slot` and `apply_ubatch` of a batch of one sequence -/
  | decode (s : Nat) (u : Ubatch)
  | finishBatch (success payloadMayBeModified : Bool)
  | remove (s : Nat) (p0 p1 : Int)
  | restore (s : Nat) (mf : StateManifest)

/-- An operation that was accepted and returned. -/
inductive StageStep (groupSize : Nat) : StageOp → KvCache → KvCache → Prop
  | decode {s : Nat} {u : Ubatch} {sinfo : SlotInfo} {c c' : KvCache} (hBatch : SingleSeq u s)
      (hFind : c.findSlot u false = .ok sinfo) (hFound : sinfo ≠ [])
      (hApply : applyUbatch sinfo u c = .ok () c') : StageStep groupSize (.decode s u) c c'
  | finishBatch {success modified : Bool} {c c' : KvCache}
      (hRun : finishTailBatch success modified c = .ok () c') :
      StageStep groupSize (.finishBatch success modified) c c'
  | remove {s : Nat} {p0 p1 : Int} {c c' : KvCache}
      (hCan : kvarnCanRemoveRange (c.seqPosMax s) p0 p1 groupSize = true)
      (hRun : seqRm s p0 p1 c = .ok true c') : StageStep groupSize (.remove s p0 p1) c c'
  | restore {s : Nat} {mf : StateManifest} {restored : List (List Nat)} {c c' : KvCache}
      (hRun : stateV2Install groupSize s .selfContained mf c = .ok restored c') :
      StageStep groupSize (.restore s mf) c c'

/-- The states of the runs from the empty cache whose operations all meet `P`. -/
inductive StageRun (cfg : CacheConfig) (P : StageOp → KvCache → Prop) : KvCache → Prop
  | new : StageRun cfg P (new cfg)
  | step {op : StageOp} {c c' : KvCache} (hRun : StageRun cfg P c) (hOp : P op c)
      (hStep : StageStep cfg.allocationGroupSize op c c') : StageRun cfg P c'

/-- The operation leaves the head of its sequence in a group whose slot no live
group of another sequence occupies. -/
def StageOp.Fits (c : KvCache) : StageOp → Prop
  | .decode s _ => DecodeFits c s
  | .finishBatch _ _ => True
  | .remove s p0 p1 => SlotFree c s (KeptCell (c.cells 0) s (rangeLo p0) (rangeHi p1))
  | .restore s mf => RestoreClear c s mf

section Run

variable {cfg : CacheConfig} {c c' : KvCache}

theorem staged_new (cfg : CacheConfig) : Staged cfg (new cfg) := by
  refine ⟨⟨rfl, ?_, fun _ => Or.inl ⟨rfl, rfl⟩, ?_⟩, rfl, fun _ _ => Or.inl rfl, ?_⟩
  · intro i t ht
    exact absurd ht (notMem_empty t)
  · intro i j t u _ ht
    exact absurd ht (notMem_empty t)
  · intro t _ u _ _ g k hLive
    exact absurd rfl (liveGroup_some hLive).1

theorem SameTable.staged (h : SameTable c c') (hStaged : Staged cfg c) : Staged cfg c' := by
  refine ⟨by rw [h.cells]; exact hStaged.toOwned, h.cfg.trans hStaged.config, ?_, ?_⟩
  · rw [h.heads, h.cells]
    exact hStaged.heads
  · exact hStaged.distinct.moved h.cfg (fun t _ => congrFun h.heads t) (s := cfg.nSeqMax)
      fun hs => absurd hs (by rw [hStaged.config]; exact lt_irrefl _)

theorem finishTailBatch_same {success modified : Bool} {u : Unit}
    (h : finishTailBatch success modified c = .ok u c') : SameTable c c' := by
  obtain ⟨c₀, _, hGet, h⟩ := run_bind_inv h
  cases hGet
  split at h
  · obtain ⟨_, c₁, hFinish, h⟩ := run_bind_inv h
    cases h
    have hTail := onTail_same hFinish
    exact ⟨hTail.cfg, hTail.cells, hTail.heads⟩
  · cases h
    exact .refl _

theorem StageStep.staged {op : StageOp} (h : StageStep cfg.allocationGroupSize op c c')
    (hGrouped : cfg.grouped = true) (hFits : op.Fits c) (hStaged : Staged cfg c) :
    Staged cfg c' := by
  cases h with
  | decode hBatch hFind hFound hApply =>
    exact hStaged.decode hBatch hGrouped hFits hFind hFound hApply
  | finishBatch hRun => exact (finishTailBatch_same hRun).staged hStaged
  | remove hCan hRun => exact hStaged.remove hGrouped hRun hFits
  | restore hRun => exact hStaged.restore hGrouped hRun hFits

theorem StageRun.staged (h : StageRun cfg (fun op c => op.Fits c) c)
    (hGrouped : cfg.grouped = true) : Staged cfg c := by
  induction h with
  | new => exact staged_new cfg
  | step _ hOp hStep ih => exact hStep.staged hGrouped hOp ih

end Run

/-- In a run whose operations all fit, the live groups of distinct sequences
occupy distinct stage slots and no search throws the alias error. -/
theorem StageRun.slots_distinct {cfg : CacheConfig} {c : KvCache}
    (hGrouped : cfg.grouped = true) (h : StageRun cfg (fun op c => op.Fits c) c) :
    StageDistinct c ∧ ∀ u cont, c.findSlot u cont ≠ .error .stageAlias := by
  have hStaged := h.staged hGrouped
  exact ⟨hStaged.distinct, hStaged.distinct.findSlot_ne⟩

/-- Two sequences, six groups of 128 cells and four transient slots. -/
def stageConfig : CacheConfig where
  size := 768
  nSeqMax := 2
  unified := true
  allocationGroupSize := 128
  allocationStageGroups := 4
  seqsFit := CacheConfig.seqsFit_two
  groups := by decide
  tailSeqs := by simp

theorem posZero_used : (0 : Int) ≠ -1 := by decide

/-- The saved state of a sequence of one cell. -/
def oneCellState (source : Nat) : StateManifest where
  streams := [[{ pos := 0, sourceCell := source, used := posZero_used }]]

/-- Restore a sequence of one cell into the cache. -/
def oneCellRestore (s source : Nat) : InstallM (List (List Nat)) :=
  stateV2Install stageConfig.allocationGroupSize s .selfContained (oneCellState source)

theorem oneCellRestore_step {s : Nat} {c : KvCache}
    (h : returns (oneCellRestore s source) c = true) :
    StageStep stageConfig.allocationGroupSize (.restore s (oneCellState source)) c
      (finalState (oneCellRestore s source) c) := by
  obtain ⟨restored, hRun⟩ := run_of_returns h
  exact .restore hRun

set_option maxRecDepth 20000 in
theorem oneCellRestore_first : returns (oneCellRestore 0 128) (new stageConfig) = true := by
  decide +kernel

instance (c : KvCache) (s slot : Nat) : Decidable (SlotTaken c s slot) :=
  decidable_of_iff (∃ t < c.cfg.nSeqMax, t ≠ s ∧ (c.liveGroup t).map c.slotOf = some slot) (by
    simp only [SlotTaken, Option.map_eq_some_iff])

/-- The groups with cells of the sequence have slots that no live group of another one occupies. -/
def OwnSlots (c : KvCache) (s : Nat) : Prop :=
  ∀ n ∈ List.range (c.cells 0).size, s ∈ ((c.cells 0).cell n).seq →
    ¬ SlotTaken c s (c.slotOf (n / c.cfg.allocationGroupSize))
  deriving Decidable

theorem OwnSlots.decodeFits {c : KvCache} {s : Nat} (h : OwnSlots c s) : DecodeFits c s :=
  fun _ _ j hj hGroup _ hMem => hGroup ▸ h j (List.mem_range.mpr hj) hMem

theorem OwnSlots.slotFree {c : KvCache} {s : Nat} {lo hi : Int} (h : OwnSlots c s) :
    SlotFree c s (KeptCell (c.cells 0) s lo hi) := fun n _ hNewest _ =>
  h n (List.mem_range.mpr hNewest.mem.1.1) hNewest.mem.1.2.1

/-- Two sequences, six groups of two cells and four transient slots. -/
def twoCellGroups : CacheConfig where
  size := 12
  nSeqMax := 2
  unified := true
  allocationGroupSize := 2
  allocationStageGroups := 4
  seqsFit := CacheConfig.seqsFit_two
  groups := by decide
  tailSeqs := by simp

def batchOf (s : Nat) (positions : List Int) : Ubatch where
  tokens := positions.map fun pos => { pos, seqId := [s] }
  seqIdUnq := [s]

/-- Sequence 0 fills group 0 and opens group 1. -/
def oneLive : KvCache :=
  finalState (applyUbatch [⟨0, [0, 1, 2]⟩] (batchOf 0 [0, 1, 2])) (new twoCellGroups)

/-- Sequence 1 opens group 2: two groups are live. -/
def twoLive : KvCache := finalState (applyUbatch [⟨0, [4]⟩] (batchOf 1 [0])) oneLive

/-- Sequence 0 seals group 1. -/
def oneSealed : KvCache := finalState (applyUbatch [⟨0, [3]⟩] (batchOf 0 [3])) twoLive

/-- A removal opens group 1 again. -/
def reopened : KvCache := finalState (seqRm 0 3 (-1)) oneSealed

/-- Sequence 1 is restored into group 3. -/
def movedLive : KvCache :=
  finalState (stateV2Install 2 1 .selfContained (oneCellState 6)) reopened

theorem StageRun.decode {c : KvCache} {s : Nat} {positions : List Int} {idxs : List Nat}
    (h : StageRun twoCellGroups (fun op c => op.Fits c) c) (hOwn : OwnSlots c s)
    (hPos : ∀ p ∈ positions, 0 ≤ p)
    (hFind : c.findSlot (batchOf s positions) false = .ok [⟨0, idxs⟩])
    (hApply : returns (applyUbatch [⟨0, idxs⟩] (batchOf s positions)) c = true) :
    StageRun twoCellGroups (fun op c => op.Fits c)
      (finalState (applyUbatch [⟨0, idxs⟩] (batchOf s positions)) c) := by
  obtain ⟨_, hRun⟩ := run_of_returns hApply
  have hBatch : SingleSeq (batchOf s positions) s := by
    refine ⟨fun tok hTok => ?_, fun tok hTok => ?_⟩
    · obtain ⟨p, -, rfl⟩ := List.mem_map.mp hTok
      rfl
    · obtain ⟨p, hp, rfl⟩ := List.mem_map.mp hTok
      exact hPos p hp
  exact h.step (show StageOp.Fits c (.decode s (batchOf s positions)) from hOwn.decodeFits)
    (.decode hBatch hFind (List.cons_ne_nil _ _) hRun)

set_option maxRecDepth 20000 in
theorem movedLive_returns : returns (seqRm 0 3 (-1)) oneSealed = true ∧
    (match seqRm 0 3 (-1) oneSealed with
      | .ok removed _ => removed
      | .error _ _ => false) = true ∧
    kvarnCanRemoveRange (oneSealed.seqPosMax 0) 3 (-1) 2 = true ∧
    returns (stateV2Install 2 1 .selfContained (oneCellState 6)) reopened = true ∧
    pickGroups (sweep (rmBody 1 0 int32Max) (reopened.cells 0)).1 2
      (sourceGroups 2 (reopened.cells 0).size (oneCellState 6).savedCells) [] = some [(3, 3)] ∧
    movedLive.cfg.nSeqMax = 2 ∧ movedLive.liveGroup 0 = some 1 ∧ movedLive.liveGroup 1 = some 3 := by
  decide +kernel

set_option maxRecDepth 20000 in
theorem reopened_restore : RestoreClear reopened 1 (oneCellState 6) := by
  intro groups hPicked n p hNewest _
  have hGroups : groups = [(3, 3)] :=
    Option.some.inj (hPicked.symm.trans movedLive_returns.2.2.2.2.1)
  rcases hNewest.mem with ⟨⟨hn, hMem, -⟩, hOut⟩ | ⟨x, hx, hCell, -⟩
  · have hAll : ∀ n < (reopened.cells 0).size, 1 ∈ ((reopened.cells 0).cell n).seq →
        ((reopened.cells 0).cell n).within 0 int32Max := by decide +kernel
    exact absurd (hAll n hn hMem) hOut
  have hFree : ¬ SlotTaken reopened 1 (reopened.slotOf (6 / reopened.cfg.allocationGroupSize)) := by
    decide +kernel
  rw [List.mem_singleton.mp hx, hGroups] at hCell
  rw [← hCell]
  exact hFree

set_option maxRecDepth 20000 in
/-- A removal reopens a group and a restore moves another one; both live groups have slots of their own. -/
theorem movedLive_distinct : movedLive.liveGroup 0 = some 1 ∧ movedLive.liveGroup 1 = some 3 ∧
    movedLive.slotOf 1 ≠ movedLive.slotOf 3 := by
  obtain ⟨hRemove, hTrue, hCan, hRestore, -, hSeqs, hLive, hLive'⟩ := movedLive_returns
  have hTwo : StageRun twoCellGroups (fun op c => op.Fits c) twoLive :=
    (StageRun.decode .new (by decide +kernel) (by decide) (by decide +kernel)
      (by decide +kernel)).decode (by decide +kernel) (by decide) (by decide +kernel)
      (by decide +kernel)
  have hSealed : StageRun twoCellGroups (fun op c => op.Fits c) oneSealed :=
    hTwo.decode (by decide +kernel) (by decide) (by decide +kernel) (by decide +kernel)
  obtain ⟨removed, hRemove⟩ := run_of_returns hRemove
  obtain rfl : removed = true := by rwa [hRemove] at hTrue
  obtain ⟨restored, hRestore⟩ := run_of_returns hRestore
  have hFree : OwnSlots oneSealed 0 := by decide +kernel
  have hReopened : StageRun twoCellGroups (fun op c => op.Fits c) reopened :=
    hSealed.step (show StageOp.Fits _ (.remove 0 3 (-1)) from hFree.slotFree)
      (.remove hCan hRemove)
  have hMoved : StageRun twoCellGroups (fun op c => op.Fits c) movedLive :=
    hReopened.step (show StageOp.Fits _ (.restore 1 _) from reopened_restore) (.restore hRestore)
  have hDistinct := (StageRun.slots_distinct (by decide) hMoved).1
  exact ⟨hLive, hLive', hDistinct 0 (by rw [hSeqs]; decide) 1 (by rw [hSeqs]; decide) (by decide)
    1 3 hLive hLive'⟩

/-- Two restored sequences whose only groups, 1 and 5, share slot 1. -/
def aliasedCache : KvCache :=
  finalState (oneCellRestore 1 640) (finalState (oneCellRestore 0 128) (new stageConfig))

set_option maxRecDepth 20000 in
theorem oneCellRestore_second : returns (oneCellRestore 1 640)
    (finalState (oneCellRestore 0 128) (new stageConfig)) = true := by
  decide +kernel

set_option maxRecDepth 20000 in
theorem aliasedCache_values : aliasedCache.cfg.nSeqMax = 2 ∧ aliasedCache.slotOf 1 = 1 ∧
    aliasedCache.slotOf 5 = 1 ∧ aliasedCache.liveGroup 0 = some 1 ∧
    aliasedCache.liveGroup 1 = some 5 ∧
    aliasedCache.findSlot ⟨[{ pos := 1, seqId := [0] }], [0], false⟩ false =
      .error .stageAlias := by
  decide +kernel

/-- Two live groups share a slot after two accepted restores, and the next token finds it out. -/
theorem aliasedCache_aliased : StageRun stageConfig (fun _ _ => True) aliasedCache ∧
    ¬ StageDistinct aliasedCache ∧
    aliasedCache.findSlot ⟨[{ pos := 1, seqId := [0] }], [0], false⟩ false =
      .error .stageAlias := by
  obtain ⟨hSeqs, hSlot, hSlot', hLive, hLive', hFind⟩ := aliasedCache_values
  refine ⟨.step (.step .new trivial (oneCellRestore_step oneCellRestore_first)) trivial
    (oneCellRestore_step oneCellRestore_second), fun hDistinct => ?_, hFind⟩
  exact hDistinct 0 (by rw [hSeqs]; decide) 1 (by rw [hSeqs]; decide) (by decide) 1 5 hLive hLive'
    (hSlot.trans hSlot'.symm)

end KvCache

end Beellama.Ports
