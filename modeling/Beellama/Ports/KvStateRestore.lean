import Beellama.Ports.KvCacheCells
import Beellama.Ports.KvCacheSearch
import Beellama.Ports.KvTailCoherence
import Beellama.Ports.KvState

/-!
# Restoring one sequence beside the others

`state_v2_read_payload_and_install` never changes cells, positions and extensions of other sequences.
But it writes the saved generation into every destination cell, and neither the cell of a
reference-only partial state nor that of a tail record is compared first.  Where such a cell is
shared, the exact rows of the other sequences go stale.
-/

namespace Beellama.Ports

open Beellama.Verified TailStore List Option Function Finset KvCells

namespace KvCache

/-! ## Rows of the other sequences -/

/-- The exact rows of a sequence, by the cell they stand for. -/
def rows (c : KvCache) (q : Nat) : List TailIdentity :=
  match c.tail with
  | none => []
  | some t => (t.shownEntries q).map fun e => e.identity

/-- The row names a cell of its sequence in its current generation. -/
structure LiveRow (c : KvCache) (q : Nat) (row : TailIdentity) : Prop where
  member : q ∈ ((c.cells row.stream).cell row.cell).seq
  generation : c.generations row.stream row.cell = row.generation

/-- The step leaves cells and generations alone, and changes the tail and the
allocation head of the sequence `s` at most. -/
structure TailStep (s : Nat) (c c' : KvCache) : Prop where
  cfg : c'.cfg = c.cfg
  cells : c'.cells = c.cells
  heads : ∀ q ≠ s, c'.allocationHeads q = c.allocationHeads q
  generations : c'.generations = c.generations
  tail : c'.tail.isSome = c.tail.isSome
  rows : ∀ q ≠ s, c'.rows q = c.rows q

namespace TailStep

variable {s : Nat} {c c' c'' : KvCache}

theorem refl (s : Nat) (c : KvCache) : TailStep s c c :=
  ⟨rfl, rfl, fun _ _ => rfl, rfl, rfl, fun _ _ => rfl⟩

theorem trans (h : TailStep s c c') (h' : TailStep s c' c'') : TailStep s c c'' where
  cfg := h'.cfg.trans h.cfg
  cells := h'.cells.trans h.cells
  heads q hq := (h'.heads q hq).trans (h.heads q hq)
  generations := h'.generations.trans h.generations
  tail := h'.tail.trans h.tail
  rows q hq := (h'.rows q hq).trans (h.rows q hq)

theorem of_eq (hCfg : c'.cfg = c.cfg) (hCells : c'.cells = c.cells)
    (hHeads : ∀ q ≠ s, c'.allocationHeads q = c.allocationHeads q)
    (hGenerations : c'.generations = c.generations) (hTail : c'.tail = c.tail) :
    TailStep s c c' where
  cfg := hCfg
  cells := hCells
  heads := hHeads
  generations := hGenerations
  tail := by rw [hTail]
  rows q _ := by simp only [KvCache.rows, hTail]

end TailStep

/-- A method of the tail that shows the other sequences the rows they had. -/
def KeepsRows {α : Type} (s : Nat) (x : TailM α) : Prop :=
  ∀ t a t', x t = .ok a t' → ∀ q ≠ s,
    (t'.shownEntries q).map (fun e => e.identity) = (t.shownEntries q).map fun e => e.identity

variable {α : Type} {a : α} {c c' : KvCache} {s : Nat}

theorem onTail_step {skip : α} {x : TailM α} (hx : KeepsRows s x)
    (h : onTail skip x c = .ok a c') : TailStep s c c' := by
  cases ht : c.tail with
  | none =>
    rw [onTail_none ht] at h
    cases h
    exact .refl s c
  | some t =>
    rw [onTail_some ht] at h
    cases hRun : x t with
    | error e t' =>
      rw [hRun] at h
      cases h
    | ok b t' =>
      rw [hRun] at h
      cases h
      refine ⟨rfl, rfl, fun _ _ => rfl, rfl, by rw [ht]; rfl, fun q hq => ?_⟩
      simp only [KvCache.rows, ht]
      exact hx t _ t' hRun q hq

variable {t : TailStore}

theorem shownEntries_modSeq {s q : Nat} (f : SeqTail → SeqTail) (hq : q ≠ s) :
    (t.modSeq s f).shownEntries q = t.shownEntries q := by
  simp only [shownEntries, pendingInto, modSeq, update_of_ne hq]

variable {t' : TailStore} {q : Nat}

theorem shownEntries_congr (hPending : t'.pending = t.pending)
    (hSeqs : (t'.seqs q).entries = (t.seqs q).entries) :
    t'.shownEntries q = t.shownEntries q := by
  simp only [shownEntries, pendingInto, hPending, hSeqs]

variable {u : Unit}

theorem rebuildIndex_shown {r : Nat}
    (h : rebuildIndex r t = .ok u t') (q : Nat) : t'.shownEntries q = t.shownEntries q := by
  unfold rebuildIndex at h
  dsimp only at h
  split at h
  · cases h
    refine shownEntries_congr rfl ?_
    by_cases hq : q = r
    · subst hq
      simp [modSeq]
    · simp [modSeq, update_of_ne hq]
  · cases h

theorem seqRm_keepsRows (s : Nat) (p0 p1 : Int) : KeepsRows s (TailStore.seqRm s p0 p1) := by
  intro t a t' h q hq
  obtain ⟨t₀, t₁, hGet, h⟩ := run_bind_inv h
  cases hGet
  split at h
  · obtain ⟨_, t₂, hSet, h⟩ := run_bind_inv h
    cases hSet
    obtain ⟨_, t₃, hIndex, h⟩ := run_bind_inv h
    have hModify : t'.shownEntries q = t₃.shownEntries q := by
      cases h
      dsimp only
      split
      · exact shownEntries_modSeq _ hq
      · rfl
    rw [hModify, rebuildIndex_shown hIndex, Int.toNat_natCast, shownEntries_modSeq _ hq]
  · cases h
    rfl

theorem markDegraded_keepsRows (s flags : Nat) : KeepsRows s (markDegraded s flags) := by
  intro t a t' h q hq
  unfold markDegraded at h
  rw [if_neg (by omega)] at h
  split at h
  · split at h
    · split at h
      · rename_i p hPending hDst
        cases h
        have hOther : ¬ (p.dst : Int) = q := by omega
        simp [shownEntries, pendingInto, hPending, Option.filter, hOther]
      · cases h
        rw [Int.toNat_natCast, shownEntries_modSeq _ hq]
    · cases h
      rw [Int.toNat_natCast, shownEntries_modSeq _ hq]
  · cases h
    rfl

theorem map_identity_numberNodes (n : Nat) (l : List ExactEntry) :
    (numberNodes n l).map (fun e => e.identity) = l.map fun e => e.identity := by
  induction l generalizing n with
  | nil => rfl
  | cons e l ih => simp [numberNodes, ih]

/-- A copy shows its destination before it is committed. -/
theorem commitSeqCp_keepsRows (s : Nat) : KeepsRows s commitSeqCp := by
  intro t a t' h q _
  obtain ⟨t₀, t₁, hGet, h⟩ := run_bind_inv h
  cases hGet
  cases hPending : t.pending with
  | none =>
    rw [hPending] at h
    cases h
    rfl
  | some p =>
    rw [hPending] at h
    obtain ⟨_, t₂, hSet, h⟩ := run_bind_inv h
    obtain ⟨_, t₃, hIndex, h⟩ := run_bind_inv h
    cases h
    have hLast : (t₃.modSeq p.dst fun t =>
        { t with degradation := p.degradation, recovery := p.recovery }).shownEntries q =
        t₃.shownEntries q := by
      refine shownEntries_congr rfl ?_
      by_cases hq : q = p.dst
      · subst hq
        simp [modSeq]
      · simp [modSeq, update_of_ne hq]
    rw [hLast, rebuildIndex_shown hIndex]
    cases hSet
    by_cases hq : p.dst = q
    · subst hq
      simp [shownEntries, pendingInto, hPending, Option.filter, modSeq,
        map_identity_numberNodes]
    have hOther : ¬ (p.dst : Int) = q := by omega
    simp [shownEntries, pendingInto, hPending, Option.filter, hOther, modSeq,
      Function.update_of_ne (Ne.symm hq)]

theorem restore_keepsRows (s : Nat) (identity : TailIdentity) (position : Int)
    (ordinal localSlot : Nat) :
    KeepsRows s (TailStore.restore s identity position ordinal localSlot) := by
  intro t a t' h q hq
  unfold TailStore.restore at h
  split at h
  · cases h
  dsimp only at h
  split at h
  · cases h
  cases h
  refine congrArg _ (shownEntries_congr rfl ?_)
  simp [modSeq, update_of_ne hq]

theorem restoreProvenance_keepsRows (s : Nat) (provenance : List TailProvenance) :
    KeepsRows s (restoreProvenance provenance s) := by
  intro t a t' h q hq
  unfold restoreProvenance at h
  split at h
  · cases h
  rw [if_pos (by omega)] at h
  split at h
  · split at h
    · cases h
      rw [Int.toNat_natCast, shownEntries_modSeq _ hq]
    · cases h
  · cases h

theorem restoreWriteCursor_keepsRows (s cursor : Nat) :
    KeepsRows s (restoreWriteCursor s cursor) := by
  intro t a t' h q hq
  unfold restoreWriteCursor at h
  split at h
  · cases h
  · cases h
    rw [Int.toNat_natCast, shownEntries_modSeq _ hq]

/-! ## Clearing the sequence -/

theorem materialize_step (s : Nat) (h : materializePendingCopies c = .ok u c') :
    TailStep s c c' := by
  obtain ⟨c₀, c₁, hGet, h⟩ := run_bind_inv h
  cases hGet
  split at h
  · split at h
    · obtain ⟨_, c₂, hCommit, h⟩ := run_bind_inv h
      cases h
      exact (onTail_step (commitSeqCp_keepsRows s) hCommit).trans (.of_eq rfl rfl (fun _ _ => rfl) rfl rfl)
    · cases h
      exact .of_eq rfl rfl (fun _ _ => rfl) rfl rfl
  · cases h
    exact .refl s c

theorem markIfIncomplete_step (s : Nat) (h : markIfIncomplete s c = .ok u c') :
    TailStep s c c' := by
  unfold markIfIncomplete at h
  split at h
  · cases h
    exact .refl s c
  dsimp only at h
  split at h
  · exact onTail_step (markDegraded_keepsRows s degradedHistoricalOp) h
  · cases h
    exact .refl s c

theorem rebuildAllocationHead_step (s : Nat) (c : KvCache) :
    TailStep s c (c.rebuildAllocationHead s) := by
  have hSet : ∀ head, TailStep s c (c.setAllocationHead s head) := fun head =>
    .of_eq rfl rfl (fun q hq => update_of_ne hq _ _) rfl rfl
  unfold rebuildAllocationHead resetAllocationHead
  split
  · exact .refl s c
  split
  · split
    · exact .refl s c
    · exact hSet 0
  · exact hSet _

/-- A cell after the removal of the positions `[lo, hi)` of a sequence. -/
def clearedCell (s : Nat) (lo hi : Int) (v : KvCell) : KvCell :=
  if v.within lo hi ∧ s ∈ v.seq then v.seqRm s else v

/-- What `seq_rm` of the positions `[lo, hi)` leaves behind. -/
structure Cleared (s : Nat) (lo hi : Int) (c c' : KvCache) : Prop where
  cfg : c'.cfg = c.cfg
  heads : ∀ q ≠ s, c'.allocationHeads q = c.allocationHeads q
  generations : c'.generations = c.generations
  tail : c'.tail.isSome = c.tail.isSome
  rows : ∀ q ≠ s, c'.rows q = c.rows q
  streams : ∀ r ≠ c.cfg.seqToStream s, c'.cells r = c.cells r
  table : c'.cells (c.cfg.seqToStream s) =
    (sweep (rmBody s lo hi) (c.cells (c.cfg.seqToStream s))).1
  size : (c'.cells (c.cfg.seqToStream s)).size = (c.cells (c.cfg.seqToStream s)).size
  cell : ∀ i, (c'.cells (c.cfg.seqToStream s)).cell i =
    if i < (c.cells (c.cfg.seqToStream s)).size then
      clearedCell s lo hi ((c.cells (c.cfg.seqToStream s)).cell i)
    else (c.cells (c.cfg.seqToStream s)).cell i

variable {c c₁ c' : KvCache}

theorem TailStep.cleared {lo hi : Int} (h : TailStep s c c₁)
    (h' : Cleared s lo hi c₁ c') : Cleared s lo hi c c' where
  cfg := h'.cfg.trans h.cfg
  heads q hq := (h'.heads q hq).trans (h.heads q hq)
  generations := h'.generations.trans h.generations
  tail := h'.tail.trans h.tail
  rows q hq := (h'.rows q hq).trans (h.rows q hq)
  streams r hr := by
    rw [h'.streams r (by rw [h.cfg]; exact hr), h.cells]
  table := by
    have hTable := h'.table
    rwa [h.cfg, h.cells] at hTable
  size := by
    have hSize := h'.size
    rwa [h.cfg, h.cells] at hSize
  cell i := by
    have hCell := h'.cell i
    rwa [h.cfg, h.cells] at hCell

theorem Cleared.step {lo hi : Int} (h : Cleared s lo hi c c₁)
    (h' : TailStep s c₁ c') : Cleared s lo hi c c' where
  cfg := h'.cfg.trans h.cfg
  heads q hq := (h'.heads q hq).trans (h.heads q hq)
  generations := h'.generations.trans h.generations
  tail := h'.tail.trans h.tail
  rows q hq := (h'.rows q hq).trans (h.rows q hq)
  streams r hr := by rw [h'.cells, h.streams r hr]
  table := by rw [h'.cells, h.table]
  size := by rw [h'.cells, h.size]
  cell i := by rw [h'.cells, h.cell i]

theorem sweepStream_cleared (s : Nat) (lo hi : Int) (c : KvCache) :
    Cleared s lo hi c (sweepStream (rmBody s lo hi) (c.cfg.seqToStream s) c) := by
  obtain ⟨hSize, hCell⟩ := sweep_writes (rmBody_writes s lo hi) (c.cells (c.cfg.seqToStream s))
  refine ⟨rfl, fun _ _ => rfl, rfl, rfl, fun _ _ => rfl, fun r hr => ?_, ?_, ?_, fun i => ?_⟩
  · exact update_of_ne hr _ _
  · exact update_self _ _ _
  · change (update c.cells _ _ _).size = _
    rw [update_self, hSize]
  change (update c.cells _ _ _).cell i = _
  rw [update_self, hCell]
  rfl

variable {p0 p1 : Int}

theorem seqRmUnchecked_cleared (h : seqRmUnchecked s p0 p1 c = .ok u c') :
    Cleared s (rangeLo p0) (rangeHi p1) c c' ∧
      ∃ c₁ : KvCache, c' = c₁.rebuildAllocationHead s := by
  obtain ⟨_, c₁, hMaterialize, h⟩ := run_bind_inv h
  obtain ⟨c₂, _, hGet, h⟩ := run_bind_inv h
  cases hGet
  obtain ⟨_, c₂, hAssert, h⟩ := run_bind_inv h
  have hSame : c₂ = c₁ := by
    unfold ggmlAssert at hAssert
    split at hAssert
    · cases hAssert
      rfl
    · cases hAssert
  subst hSame
  obtain ⟨_, c₃, hTail, h⟩ := run_bind_inv h
  obtain ⟨_, c₄, hSweep, h⟩ := run_bind_inv h
  obtain ⟨_, c₅, hMark, h⟩ := run_bind_inv h
  cases h
  have hTailStep := onTail_step (seqRm_keepsRows s _ _) hTail
  have hStep := (materialize_step s hMaterialize).trans hTailStep
  have hCleared := sweepStream_cleared s (rangeLo p0) (rangeHi p1) c₃
  cases hSweep
  rw [← hTailStep.cfg] at hMark
  exact ⟨hStep.cleared ((hCleared.step (markIfIncomplete_step s hMark)).step
    (rebuildAllocationHead_step s c₅)), c₅, rfl⟩

variable {b : Bool}

theorem seqRm_run (h : seqRm s p0 p1 c = .ok b c') :
    (c.canSeqRm s p0 p1 = true ∧ b = true ∧ ∃ u, seqRmUnchecked s p0 p1 c = .ok u c') ∨
      (c.canSeqRm s p0 p1 = false ∧ b = false ∧ c' = c) := by
  obtain ⟨c₀, c₁, hGet, h⟩ := run_bind_inv h
  cases hGet
  split at h
  case isTrue hCan =>
    obtain ⟨u, c₂, hRun, h⟩ := run_bind_inv h
    cases h
    exact Or.inl ⟨hCan, rfl, u, hRun⟩
  case isFalse hCan =>
    cases h
    exact Or.inr ⟨by simpa using hCan, rfl, rfl⟩

theorem seqRm_cleared (h : seqRm s (-1) (-1) c = .ok b c') : Cleared s 0 int32Max c c' := by
  rcases seqRm_run h with ⟨-, -, u, hRun⟩ | ⟨hCan, -, -⟩
  · exact (seqRmUnchecked_cleared hRun).1
  have hTrue : c.canSeqRm s (-1) (-1) = true := by simp [canSeqRm]
  rw [hCan] at hTrue
  cases hTrue

/-! ## Placing the saved cells -/

theorem occupyCell_cell (nPosPerEmbd : Nat) (saved : SavedCell) (i : Nat) (cells : KvCells) :
    (occupyCell nPosPerEmbd saved i cells).size = cells.size ∧
      ∃ ext, (1 < nPosPerEmbd → ext = saved.ext) ∧
        (occupyCell nPosPerEmbd saved i cells).cell =
          Function.update cells.cell i { cells.cell i with pos := saved.pos, ext := ext } := by
  unfold occupyCell
  split
  · refine ⟨by simp, saved.ext, fun _ => rfl, ?_⟩
    rw [extSet_cell, posSet_cell, update_self, update_idem]
  rename_i hExt
  refine ⟨by simp, (cells.cell i).ext, fun h => absurd h hExt, ?_⟩
  rw [posSet_cell]

/-- What restoring one cell does. -/
structure PlacedCell (nPosPerEmbd stream s : Nat) (reuse : Bool) (saved : SavedCell) (i : Nat)
    (c c' : KvCache) : Prop where
  cfg : c'.cfg = c.cfg
  heads : c'.allocationHeads = c.allocationHeads
  tail : c'.tail = c.tail
  streams : ∀ r ≠ stream, c'.cells r = c.cells r
  size : (c'.cells stream).size = (c.cells stream).size
  others : ∀ j ≠ i, (c'.cells stream).cell j = (c.cells stream).cell j
  seq : ((c'.cells stream).cell i).seq = insert s ((c.cells stream).cell i).seq
  fits : saved.fits nPosPerEmbd ((c'.cells stream).cell i)
  kept : ((c.cells stream).cell i).pos ≠ -1 → reuse = true ∧
    ((c'.cells stream).cell i).pos = ((c.cells stream).cell i).pos ∧
    ((c'.cells stream).cell i).ext = ((c.cells stream).cell i).ext
  generationsOther : ∀ r j, r ≠ stream ∨ j ≠ i → c'.generations r j = c.generations r j
  generation : c.tail.isSome = true → c'.generations stream i = saved.generation

variable {nPosPerEmbd stream : Nat} {reuse : Bool} {cells : KvCells}

/-- Claiming a cell whose position and extension are already the saved ones. -/
theorem claimCell_placed {s i : Nat} {saved : SavedCell}
    {c c₁ : KvCache} (h₁ : c₁ = c.setCells stream cells)
    (hSize : cells.size = (c.cells stream).size)
    (hOthers : ∀ j ≠ i, cells.cell j = (c.cells stream).cell j)
    (hSeq : (cells.cell i).seq = ((c.cells stream).cell i).seq)
    (hFits : saved.fits nPosPerEmbd (cells.cell i))
    (hKept : ((c.cells stream).cell i).pos ≠ -1 → reuse = true ∧
      cells.cell i = (c.cells stream).cell i) :
    PlacedCell nPosPerEmbd stream s reuse saved i c
      (claimCell stream s i saved.generation c₁) := by
  subst h₁
  have hCells : (claimCell stream s i saved.generation (c.setCells stream cells)).cells =
      update c.cells stream (cells.seqAdd i s) := by
    unfold claimCell
    dsimp only
    split <;> simp [setGeneration, setCells]
  have hTable : (claimCell stream s i saved.generation (c.setCells stream cells)).cells stream =
      cells.seqAdd i s := by rw [hCells, update_self]
  have hCell := seqAdd_cell cells i s
  have hGenerations :
      (claimCell stream s i saved.generation (c.setCells stream cells)).generations =
        if c.tail.isSome then update c.generations stream
          (update (c.generations stream) i saved.generation) else c.generations := by
    unfold claimCell
    dsimp only
    split <;> rename_i hTail <;> simp_all [setGeneration, setCells]
  constructor
  · unfold claimCell
    dsimp only
    split <;> rfl
  · unfold claimCell
    dsimp only
    split <;> rfl
  · unfold claimCell
    dsimp only
    split <;> rfl
  · intro r hr
    rw [hCells, update_of_ne hr]
  · rw [hTable, seqAdd_size, hSize]
  · intro j hj
    rw [hTable, hCell, update_of_ne hj, hOthers j hj]
  · rw [hTable, hCell, update_self, ← hSeq]
  · rw [hTable, hCell, update_self]
    exact hFits
  · intro hUsed
    obtain ⟨hReuse, hEq⟩ := hKept hUsed
    rw [hTable, hCell, update_self, ← hEq]
    exact ⟨hReuse, rfl, rfl⟩
  · intro r j hOther
    rw [hGenerations]
    split
    · by_cases hr : r = stream
      · subst hr
        rw [update_self, update_of_ne (hOther.resolve_left (by simp))]
      · rw [update_of_ne hr]
    · rfl
  · intro hTail
    rw [hGenerations, if_pos hTail, update_self, update_self]

variable {dst : SavedCell → Nat}

theorem placeSaved_placed {saved : SavedCell} {i : Nat}
    (h : placeSaved nPosPerEmbd stream s reuse dst saved c = .ok i c') :
    i = dst saved ∧ PlacedCell nPosPerEmbd stream s reuse saved (dst saved) c c' := by
  obtain ⟨c₀, c₁, hGet, h⟩ := run_bind_inv h
  cases hGet
  dsimp only at h
  split at h
  · rename_i hEmpty
    cases h
    obtain ⟨hSize, ext, hExt, hCell⟩ :=
      occupyCell_cell nPosPerEmbd saved (dst saved) (c.cells stream)
    refine ⟨rfl, claimCell_placed rfl hSize (fun j hj => ?_) ?_ ?_ fun hUsed => ?_⟩
    · rw [hCell, update_of_ne hj]
    · rw [hCell, update_self]
    · rw [hCell, update_self]
      exact ⟨rfl, hExt⟩
    · simp [KvCells.isEmpty] at hEmpty
      exact absurd hEmpty hUsed
  split at h
  · cases h
  split at h
  · cases h
  rename_i hReuse hFits
  cases h
  have hSame : c = c.setCells stream (c.cells stream) := by simp [setCells]
  exact ⟨rfl, claimCell_placed hSame rfl (fun _ _ => rfl) rfl (not_not.mp hFits)
    fun _ => ⟨by simpa using hReuse, rfl⟩⟩

/-- What the loop over the saved cells does. -/
structure PlacedCells (nPosPerEmbd stream s : Nat) (reuse : Bool) (dst : SavedCell → Nat)
    (saved : List SavedCell) (c c' : KvCache) : Prop where
  cfg : c'.cfg = c.cfg
  heads : c'.allocationHeads = c.allocationHeads
  tail : c'.tail = c.tail
  streams : ∀ r ≠ stream, c'.cells r = c.cells r
  size : (c'.cells stream).size = (c.cells stream).size
  others : ∀ j ∉ saved.map dst, (c'.cells stream).cell j = (c.cells stream).cell j
  seq : ∀ j ∈ saved.map dst,
    ((c'.cells stream).cell j).seq = insert s ((c.cells stream).cell j).seq
  fits : ∀ x ∈ saved, x.fits nPosPerEmbd ((c'.cells stream).cell (dst x))
  kept : ∀ j, ((c.cells stream).cell j).pos ≠ -1 →
    ((c'.cells stream).cell j).pos = ((c.cells stream).cell j).pos ∧
    ((c'.cells stream).cell j).ext = ((c.cells stream).cell j).ext
  free : reuse = false → (saved.map dst).Nodup ∧
    ∀ j ∈ saved.map dst, ((c.cells stream).cell j).pos = -1
  generationsOther : ∀ r j, r ≠ stream ∨ j ∉ saved.map dst →
    c'.generations r j = c.generations r j
  generation : c.tail.isSome = true → (saved.map dst).Nodup → ∀ x ∈ saved,
    c'.generations stream (dst x) = x.generation

theorem PlacedCells.nil (c : KvCache) : PlacedCells nPosPerEmbd stream s reuse dst [] c c where
  cfg := rfl
  heads := rfl
  tail := rfl
  streams _ _ := rfl
  size := rfl
  others _ _ := rfl
  seq _ h := absurd h not_mem_nil
  fits _ h := absurd h not_mem_nil
  kept _ _ := ⟨rfl, rfl⟩
  free _ := ⟨nodup_nil, fun _ h => absurd h not_mem_nil⟩
  generationsOther _ _ _ := rfl
  generation _ _ _ h := absurd h not_mem_nil

variable {x : SavedCell}

theorem PlacedCell.cons {rest : List SavedCell}
    (h : PlacedCell nPosPerEmbd stream s reuse x (dst x) c c₁)
    (h' : PlacedCells nPosPerEmbd stream s reuse dst rest c₁ c') :
    PlacedCells nPosPerEmbd stream s reuse dst (x :: rest) c c' := by
  -- the first cell stays in use from here on
  have hUsed : ((c₁.cells stream).cell (dst x)).pos ≠ -1 := by
    rw [h.fits.1]
    exact x.used
  constructor
  · exact h'.cfg.trans h.cfg
  · exact h'.heads.trans h.heads
  · exact h'.tail.trans h.tail
  · intro r hr
    rw [h'.streams r hr, h.streams r hr]
  · exact h'.size.trans h.size
  · intro j hj
    rw [List.map_cons, List.mem_cons, not_or] at hj
    rw [h'.others j hj.2, h.others j hj.1]
  · intro j hj
    by_cases hx : j = dst x
    · subst hx
      by_cases hRest : dst x ∈ rest.map dst
      · rw [h'.seq _ hRest, h.seq, insert_idem]
      · rw [h'.others _ hRest, h.seq]
    have hRest : j ∈ rest.map dst := by
      rw [List.map_cons, List.mem_cons] at hj
      exact hj.resolve_left hx
    rw [h'.seq j hRest, h.others j hx]
  · intro y hy
    rcases mem_cons.mp hy with rfl | hRest
    · obtain ⟨hPos, hExt⟩ := h'.kept _ hUsed
      exact ⟨hPos.trans h.fits.1, fun hn => hExt.trans (h.fits.2 hn)⟩
    · exact h'.fits y hRest
  · intro j hj
    by_cases hx : j = dst x
    · subst hx
      obtain ⟨-, hPos, hExt⟩ := h.kept hj
      obtain ⟨hPos', hExt'⟩ := h'.kept _ hUsed
      exact ⟨hPos'.trans hPos, hExt'.trans hExt⟩
    have hSame := h.others j hx
    have hKept := h'.kept j (by rw [hSame]; exact hj)
    rwa [hSame] at hKept
  · intro hReuse
    obtain ⟨hNodup, hFree⟩ := h'.free hReuse
    have hNew : dst x ∉ rest.map dst := fun hMem => hUsed (hFree _ hMem)
    refine ⟨nodup_cons.mpr ⟨hNew, hNodup⟩, fun j hj => ?_⟩
    by_cases hx : j = dst x
    · subst hx
      by_contra hOld
      rw [(h.kept hOld).1] at hReuse
      cases hReuse
    rw [← h.others j hx]
    rw [List.map_cons, List.mem_cons] at hj
    exact hFree j (hj.resolve_left hx)
  · intro r j hOther
    rw [List.map_cons, List.mem_cons, not_or] at hOther
    rw [h'.generationsOther r j (hOther.imp id And.right),
      h.generationsOther r j (hOther.imp id And.left)]
  intro hTail hNodup y hy
  rw [List.map_cons, List.nodup_cons] at hNodup
  rcases mem_cons.mp hy with rfl | hRest
  · rw [h'.generationsOther _ _ (Or.inr hNodup.1)]
    exact h.generation hTail
  · exact h'.generation (by rw [h.tail]; exact hTail) hNodup.2 y hRest

theorem mapM_placed {saved : List SavedCell} {r : List Nat}
    (h : mapM (placeSaved nPosPerEmbd stream s reuse dst) saved c = .ok r c') :
    r = saved.map dst ∧ PlacedCells nPosPerEmbd stream s reuse dst saved c c' := by
  induction saved generalizing c r with
  | nil =>
    cases h
    exact ⟨rfl, .nil _⟩
  | cons x rest ih =>
    obtain ⟨i, c₁, r', hx, hRest, rfl⟩ := run_mapM_cons h
    obtain ⟨rfl, hPlaced⟩ := placeSaved_placed hx
    obtain ⟨rfl, hAll⟩ := ih hRest
    exact ⟨rfl, hPlaced.cons hAll⟩

variable {restored : List (List Nat)} {mf : StateManifest}

theorem placeStreams_placed
    (h : placeStreams (placeSaved nPosPerEmbd stream s reuse dst) mf c = .ok restored c') :
    restored = mf.streams.map (fun cells => cells.map dst) ∧
      PlacedCells nPosPerEmbd stream s reuse dst mf.savedCells c c' := by
  have hEach : ∀ cells c r c',
      mapM (placeSaved nPosPerEmbd stream s reuse dst) cells c = .ok r c' →
        r = cells.map dst := fun _ _ _ _ hx => (mapM_placed hx).1
  exact ⟨run_mapM_eq hEach h, (mapM_placed (run_mapM_flatten h)).2⟩

/-! ## The checks on known cells -/

variable {v : KvCell}

theorem SavedCell.fits_congr {x y : SavedCell} {n : Nat} (hx : x.fits n v)
    (hy : y.fits n v) (w : KvCell) : x.fits n w ↔ y.fits n w := by
  unfold SavedCell.fits at *
  rw [← hx.1, ← hy.1]
  constructor
  · rintro ⟨hPos, hExt⟩
    exact ⟨hPos, fun hn => (hExt hn).trans ((hx.2 hn).symm.trans (hy.2 hn))⟩
  · rintro ⟨hPos, hExt⟩
    exact ⟨hPos, fun hn => (hExt hn).trans ((hy.2 hn).symm.trans (hx.2 hn))⟩

variable {isPartial : Bool} {found : List (Nat × Nat)}

theorem checkSaved_found {c : KvCache} {saved : List SavedCell} {res : List (Nat × Nat)}
    (h : checkSaved isPartial nPosPerEmbd stream s c saved found = .ok res)
    (hFound : (found.map Prod.snd).Nodup) :
    ∃ new, res = found ++ new ∧ (res.map Prod.snd).Nodup ∧
      List.Forall₂ (fun x (p : Nat × Nat) => x.sourceCell = p.1 ∧
        destinationCell isPartial nPosPerEmbd s (c.cells stream) x = some p.2) saved new := by
  induction saved generalizing found with
  | nil =>
    cases h
    exact ⟨[], by simp, hFound, .nil⟩
  | cons x rest ih =>
    unfold checkSaved at h
    dsimp only at h
    split at h
    · cases h
    rename_i dst hDst
    split at h
    · cases h
    rename_i hNew
    split at h
    · cases h
    split at h
    · cases h
    have hNext : ((found ++ [(x.sourceCell, dst)]).map Prod.snd).Nodup := by
      rw [map_append, nodup_append]
      refine ⟨hFound, nodup_singleton _, ?_⟩
      rintro a ha b hb rfl
      have hEq : a = dst := by simpa using hb
      exact hNew (hEq ▸ ha)
    obtain ⟨new, rfl, hNodup, hAll⟩ := ih h hNext
    refine ⟨(x.sourceCell, dst) :: new, by simp, hNodup, .cons ⟨rfl, hDst⟩ hAll⟩

theorem forall₂_mem_left {β : Type} {R : α → β → Prop} {l : List α} {l' : List β}
    (h : List.Forall₂ R l l') (ha : a ∈ l) : ∃ b ∈ l', R a b := by
  obtain ⟨n, hn⟩ := getElem?_of_mem ha
  obtain ⟨b, hb, hR⟩ := forall₂_getElem? h.flip hn
  exact ⟨b, mem_of_getElem? hb, hR⟩

/-- The second loop puts every saved cell where the first loop found it. -/
theorem foundCell_eq {saved : List SavedCell} {table : Nat → KvCell}
    (hFound : List.Forall₂ (fun x (p : Nat × Nat) => x.sourceCell = p.1 ∧
      destinationCell isPartial nPosPerEmbd s cells x = some p.2) saved found)
    (hFits : ∀ x ∈ saved, x.fits nPosPerEmbd (table (foundCell isPartial found x)))
    (hx : x ∈ saved) :
    destinationCell isPartial nPosPerEmbd s cells x = some (foundCell isPartial found x) := by
  cases isPartial with
  | false => rfl
  | true =>
    obtain ⟨p, hp, hSource, -⟩ := forall₂_mem_left hFound hx
    obtain ⟨d, hd⟩ : ∃ d, found.lookup x.sourceCell = some d := by
      rw [← isSome_iff_exists, lookup_isSome_iff]
      exact ⟨p, hp, by simp [hSource]⟩
    obtain ⟨before, after, rfl, -⟩ := lookup_eq_some_iff.mp hd
    obtain ⟨y, hy, hSame, hAnchor⟩ := forall₂_mem_left hFound.flip
      (show (x.sourceCell, d) ∈ _ by simp)
    have hDst : ∀ z : SavedCell, z.sourceCell = x.sourceCell →
        foundCell true (before ++ (x.sourceCell, d) :: after) z = d := by
      intro z hz
      unfold foundCell
      rw [hz, hd]
      rfl
    have hFitsX := hFits x hx
    have hFitsY := hFits y hy
    rw [hDst x rfl] at hFitsX ⊢
    rw [hDst y hSame] at hFitsY
    rw [← hAnchor]
    change anchorCell _ _ _ x = anchorCell _ _ _ y
    unfold anchorCell
    simp only [SavedCell.fits_congr hFitsX hFitsY]

theorem foundCell_nodup {saved : List SavedCell}
    (hFound : List.Forall₂ (fun x (p : Nat × Nat) => x.sourceCell = p.1 ∧
      destinationCell isPartial nPosPerEmbd s cells x = some p.2) saved found)
    (hDst : ∀ x ∈ saved, destinationCell isPartial nPosPerEmbd s cells x = some (dst x)) :
    saved.map dst = found.map Prod.snd := by
  induction hFound with
  | nil => rfl
  | @cons x p saved found hx _ ih =>
    have hHead := hDst x mem_cons_self
    rw [hx.2, some.injEq] at hHead
    rw [List.map_cons, List.map_cons, hHead,
      ih fun y hy => hDst y (mem_cons_of_mem x hy)]

/-! ## The destinations -/

/-- Where a saved cell lands among the cells that are in use before the
restore.  A self-contained state lands in empty cells only. -/
def landingCell (mode : RestoreMode) (c : KvCache) (s : Nat) (mf : StateManifest)
    (x : SavedCell) : Option Nat :=
  match mode with
  | .selfContained => none
  | .exactSource => some x.sourceCell
  | .referenceOnlyPartial =>
    anchorCell mf.nPosPerEmbd s (c.cells (c.cfg.seqToStream s)) x

/-- What the cells phase of a restore does: the sequence is cleared and every
saved cell goes to a destination of its own. -/
structure CellsInstalled (mode : RestoreMode) (s : Nat) (mf : StateManifest)
    (dst : SavedCell → Nat) (c c₁ c' : KvCache) : Prop where
  cleared : Cleared s 0 int32Max c c₁
  placed : PlacedCells mf.nPosPerEmbd (c.cfg.seqToStream s) s (mode ≠ .selfContained) dst
    mf.savedCells c₁ c'
  nodup : (mf.savedCells.map dst).Nodup
  landing : mode ≠ .selfContained → ∀ x ∈ mf.savedCells, landingCell mode c s mf x = some (dst x)

theorem liftCache_ok {x : CacheM α} (h : liftCache x c = .ok a c') : x c = .ok a c' := by
  unfold liftCache at h
  split at h
  · cases h
    assumption
  · cases h

/-- What the cells phase of a self-contained restore does. -/
structure Remapped (groupSize s : Nat) (mf : StateManifest) (groups : List (Nat × Nat))
    (c c₁ c' : KvCache) : Prop where
  cleared : Cleared s 0 int32Max c c₁
  valid : sourceCellsValid (c.cells (c.cfg.seqToStream s)).size mf.savedCells = true
  picked : pickGroups (sweep (rmBody s 0 int32Max) (c.cells (c.cfg.seqToStream s))).1 groupSize
    (sourceGroups groupSize (c.cells (c.cfg.seqToStream s)).size mf.savedCells) [] = some groups
  placed : PlacedCells mf.nPosPerEmbd (c.cfg.seqToStream s) s false (remapCell groupSize groups)
    mf.savedCells c₁ c'

variable {groupSize : Nat}

theorem installSelfContained_remapped
    (h : installSelfContained groupSize (c.cfg.seqToStream s) s mf c = .ok restored c') :
    ∃ groups c₁,
      restored = mf.streams.map (fun cells => cells.map (remapCell groupSize groups)) ∧
      Remapped groupSize s mf groups c c₁ c' := by
  obtain ⟨b, c₁, hRm, h⟩ := run_bind_inv h
  have hCleared := seqRm_cleared (liftCache_ok hRm)
  dsimp only at h
  split at h
  · cases h
  obtain ⟨c₂, _, hGet, h⟩ := run_bind_inv h
  cases hGet
  split at h
  · cases h
  rename_i hValid
  rw [Bool.not_eq_true, Bool.not_eq_false', hCleared.size] at hValid
  rw [hCleared.size, hCleared.table] at h
  cases hGroups : pickGroups (sweep (rmBody s 0 int32Max)
      (c.cells (c.cfg.seqToStream s))).1 groupSize
      (sourceGroups groupSize (c.cells (c.cfg.seqToStream s)).size mf.savedCells) [] with
  | none =>
    rw [hGroups] at h
    cases h
  | some groups =>
    rw [hGroups] at h
    obtain ⟨hRestored, hPlaced⟩ := placeStreams_placed h
    exact ⟨groups, c₁, hRestored, hCleared, hValid, hGroups, hPlaced⟩

theorem installSelfContained_installed
    (h : installSelfContained groupSize (c.cfg.seqToStream s) s mf c = .ok restored c') :
    ∃ dst c₁, restored = mf.streams.map (fun cells => cells.map dst) ∧
      CellsInstalled .selfContained s mf dst c c₁ c' := by
  obtain ⟨groups, c₁, hRestored, hRemapped⟩ := installSelfContained_remapped h
  exact ⟨_, c₁, hRestored, hRemapped.cleared, hRemapped.placed, (hRemapped.placed.free rfl).1,
    fun hMode => absurd rfl hMode⟩

theorem installKnownCells_installed {mode : RestoreMode}
    (hMode : mode = if isPartial then .referenceOnlyPartial else .exactSource)
    (h : installKnownCells isPartial (c.cfg.seqToStream s) s mf c = .ok restored c') :
    ∃ dst c₁, restored = mf.streams.map (fun cells => cells.map dst) ∧
      CellsInstalled mode s mf dst c c₁ c' := by
  obtain ⟨c₂, _, hGet, h⟩ := run_bind_inv h
  cases hGet
  cases hCheck : checkSaved isPartial mf.nPosPerEmbd (c.cfg.seqToStream s) s c mf.savedCells []
    with
  | error e =>
    rw [hCheck] at h
    cases h
  | ok found =>
    rw [hCheck] at h
    obtain ⟨b, c₁, hRm, h⟩ := run_bind_inv h
    obtain ⟨hRestored, hPlaced⟩ := placeStreams_placed h
    obtain ⟨new, hNew, hNodup, hFound⟩ := checkSaved_found hCheck (by simp)
    subst hNew
    have hDst := fun x hx => foundCell_eq hFound hPlaced.fits (x := x) hx
    have hReuse : decide (mode ≠ .selfContained) = true := by
      subst hMode
      cases isPartial <;> rfl
    refine ⟨_, c₁, hRestored, seqRm_cleared (liftCache_ok hRm), ?_, ?_, fun _ x hx => ?_⟩
    · rw [hReuse]
      exact hPlaced
    · rw [foundCell_nodup hFound hDst]
      exact hNodup
    rw [← hDst x hx]
    subst hMode
    cases isPartial <;> rfl

/-! ## The tail records -/

theorem mem_of_restoredAt {k j i : Nat}
    (h : restoredAt restored k j = some i) : i ∈ restored.flatten := by
  obtain ⟨cells, hCells, hCell⟩ := bind_eq_some_iff.mp h
  exact mem_flatten.mpr ⟨cells, mem_of_getElem? hCells, mem_of_getElem? hCell⟩

theorem restoredAt_of_mem {i : Nat} (h : i ∈ restored.flatten) :
    ∃ k j, restoredAt restored k j = some i := by
  obtain ⟨cells, hCells, hCell⟩ := mem_flatten.mp h
  obtain ⟨k, hk⟩ := getElem?_of_mem hCells
  obtain ⟨j, hj⟩ := getElem?_of_mem hCell
  exact ⟨k, j, by rw [restoredAt, hk]; exact hj⟩

/-- Distinct destinations are found under one address. -/
theorem restoredAt_inj (hNodup : restored.flatten.Nodup)
    {k k' j j' i : Nat} (h : restoredAt restored k j = some i)
    (h' : restoredAt restored k' j' = some i) : k = k' ∧ j = j' := by
  induction restored generalizing k k' with
  | nil => cases h
  | cons cells rest ih =>
    rw [flatten_cons, nodup_append] at hNodup
    cases k with
    | zero =>
      have hCell : cells[j]? = some i := h
      cases k' with
      | zero =>
        have hCell' : cells[j']? = some i := h'
        obtain ⟨hj, hEq⟩ := List.getElem?_eq_some_iff.mp hCell
        obtain ⟨hj', hEq'⟩ := List.getElem?_eq_some_iff.mp hCell'
        exact ⟨rfl, (List.Nodup.getElem_inj_iff hNodup.1).mp (hEq.trans hEq'.symm)⟩
      | succ k' =>
        have hRest : restoredAt rest k' j' = some i := h'
        exact absurd rfl
          (hNodup.2.2 i (mem_of_getElem? hCell) i (mem_of_restoredAt hRest))
    | succ k =>
      have hRest : restoredAt rest k j = some i := h
      cases k' with
      | zero =>
        have hCell' : cells[j']? = some i := h'
        exact absurd rfl
          (hNodup.2.2 i (mem_of_getElem? hCell') i (mem_of_restoredAt hRest))
      | succ k' =>
        obtain ⟨rfl, hj⟩ := ih hNodup.2.1 hRest h'
        exact ⟨rfl, hj⟩

/-- What the loop over the tail records does to a generation. -/
def recordedGeneration (restored : List (List Nat)) (records : List TailRecord)
    (i generation : Nat) : Nat :=
  records.foldl
    (fun generation r =>
      if restoredAt restored r.stream r.bodyOrdinal = some i then r.generation else generation)
    generation

theorem recordedGeneration_other {i : Nat}
    (h : i ∉ restored.flatten) (records : List TailRecord) (generation : Nat) :
    recordedGeneration restored records i generation = generation := by
  induction records generalizing generation with
  | nil => rfl
  | cons r records ih =>
    unfold recordedGeneration at ih ⊢
    rw [foldl_cons, if_neg fun hEq => h (mem_of_restoredAt hEq)]
    exact ih generation

theorem recordedGeneration_at (hNodup : restored.flatten.Nodup)
    {k j i : Nat} (h : restoredAt restored k j = some i) (records : List TailRecord)
    (generation : Nat) :
    recordedGeneration restored records i generation =
      records.foldl (fun generation r =>
        if r.stream = k ∧ r.bodyOrdinal = j then r.generation else generation) generation := by
  have hAddress : ∀ r : TailRecord, restoredAt restored r.stream r.bodyOrdinal = some i ↔
      r.stream = k ∧ r.bodyOrdinal = j := by
    intro r
    constructor
    · exact fun hEq => restoredAt_inj hNodup hEq h
    · rintro ⟨rfl, rfl⟩
      exact h
  unfold recordedGeneration
  simp only [hAddress]

/-- What the tail phase of a restore does. -/
structure TailInstalled (stream s : Nat) (restored : List (List Nat)) (records : List TailRecord)
    (c c' : KvCache) : Prop where
  cfg : c'.cfg = c.cfg
  cells : c'.cells = c.cells
  heads : ∀ q ≠ s, c'.allocationHeads q = c.allocationHeads q
  tail : c'.tail.isSome = c.tail.isSome
  rows : ∀ q ≠ s, c'.rows q = c.rows q
  streams : ∀ r ≠ stream, c'.generations r = c.generations r
  generations : ∀ i, c'.generations stream i =
    recordedGeneration restored records i (c.generations stream i)

variable {records : List TailRecord}

theorem TailStep.installed (h : TailStep s c c₁)
    (h' : TailInstalled stream s restored records c₁ c') :
    TailInstalled stream s restored records c c' where
  cfg := h'.cfg.trans h.cfg
  cells := h'.cells.trans h.cells
  heads q hq := (h'.heads q hq).trans (h.heads q hq)
  tail := h'.tail.trans h.tail
  rows q hq := (h'.rows q hq).trans (h.rows q hq)
  streams r hr := (h'.streams r hr).trans (by rw [h.generations])
  generations i := by rw [h'.generations i, h.generations]

theorem TailInstalled.step (h : TailInstalled stream s restored records c c₁)
    (h' : TailStep s c₁ c') :
    TailInstalled stream s restored records c c' where
  cfg := h'.cfg.trans h.cfg
  cells := h'.cells.trans h.cells
  heads q hq := (h'.heads q hq).trans (h.heads q hq)
  tail := h'.tail.trans h.tail
  rows q hq := (h'.rows q hq).trans (h.rows q hq)
  streams r hr := by rw [h'.generations, h.streams r hr]
  generations i := by rw [h'.generations, h.generations i]

theorem restoreRecord_installed {r : TailRecord}
    (h : restoreRecord stream s restored r c = .ok u c₁)
    (h' : TailInstalled stream s restored records c₁ c') :
    TailInstalled stream s restored (r :: records) c c' := by
  obtain ⟨c₀, _, hGet, h⟩ := run_bind_inv h
  cases hGet
  cases hCell : restoredAt restored r.stream r.bodyOrdinal with
  | none =>
    rw [hCell] at h
    cases h
  | some cell =>
    rw [hCell] at h
    dsimp only at h
    split at h
    · cases h
    obtain ⟨_, c₂, hSet, h⟩ := run_bind_inv h
    cases hSet
    obtain ⟨slot, c₃, hRestore, h⟩ := run_bind_inv h
    have hStep := onTail_step (restore_keepsRows s _ _ _ _) (liftCache_ok hRestore)
    have hRest : TailInstalled stream s restored records (c.setGeneration stream cell r.generation)
        c' := by
      split at h
      · cases h
      · cases h
        exact hStep.installed h'
    refine ⟨hRest.cfg, hRest.cells, hRest.heads, hRest.tail, hRest.rows, fun q hq => ?_,
      fun i => ?_⟩
    · rw [hRest.streams q hq]
      exact update_of_ne hq _ _
    rw [hRest.generations i]
    have hNew : (c.setGeneration stream cell r.generation).generations stream i =
        if restoredAt restored r.stream r.bodyOrdinal = some i then r.generation
        else c.generations stream i := by
      change update c.generations stream _ stream i = _
      rw [hCell]
      by_cases hi : i = cell
      · subst hi
        simp
      · simp [hi, Ne.symm hi]
    rw [hNew]
    rfl

theorem records_installed {u : PUnit}
    (h : records.forM (restoreRecord stream s restored) c = .ok u c') :
    TailInstalled stream s restored records c c' := by
  induction records generalizing c with
  | nil =>
    cases h
    exact ⟨rfl, rfl, fun _ _ => rfl, rfl, fun _ _ => rfl, fun _ _ => rfl, fun _ => rfl⟩
  | cons r records ih =>
    obtain ⟨_, c₁, hr, h⟩ := run_bind_inv h
    exact restoreRecord_installed hr (ih h)

theorem cursors_step {cursors : List Nat} {u : PUnit}
    (h : cursors.forM (fun cursor => liftCache (onTail () (restoreWriteCursor s cursor))) c =
      .ok u c') : TailStep s c c' := by
  induction cursors generalizing c with
  | nil =>
    cases h
    exact .refl s _
  | cons cursor cursors ih =>
    obtain ⟨_, c₁, hCursor, h⟩ := run_bind_inv h
    exact (onTail_step (restoreWriteCursor_keepsRows s cursor) (liftCache_ok hCursor)).trans
      (ih h)

theorem installTail_installed {s liveOrdinal : Nat}
    (h : installTail stream s liveOrdinal mf restored c = .ok u c') :
    TailInstalled stream s restored (if mf.bodyOnly then [] else mf.tailRecords) c c' := by
  obtain ⟨_, c₁, hRm, h⟩ := run_bind_inv h
  have hRmStep := onTail_step (seqRm_keepsRows s _ _) (liftCache_ok hRm)
  by_cases hBody : mf.bodyOnly = true
  · rw [if_pos hBody] at h
    have hMark := onTail_step (markDegraded_keepsRows s _) (liftCache_ok h)
    rw [if_pos hBody]
    have hNone : TailInstalled stream s restored [] c c :=
      ⟨rfl, rfl, fun _ _ => rfl, rfl, fun _ _ => rfl, fun _ _ => rfl, fun _ => rfl⟩
    exact hNone.step (hRmStep.trans hMark)
  rw [if_neg hBody] at h ⊢
  obtain ⟨_, c₂, hRecords, h⟩ := run_bind_inv h
  obtain ⟨_, c₃, hOrdinal, h⟩ := run_bind_inv h
  obtain ⟨_, c₄, hProvenance, h⟩ := run_bind_inv h
  obtain ⟨_, c₅, hAssert, h⟩ := run_bind_inv h
  have hOrdinalStep : TailStep s c₂ c₃ := by
    cases hOrdinal
    exact .of_eq rfl rfl (fun _ _ => rfl) rfl rfl
  have hAssertStep : TailStep s c₄ c₅ := by
    have hRun := liftCache_ok hAssert
    unfold ggmlAssert at hRun
    split at hRun
    · cases hRun
      exact .refl s c₄
    · cases hRun
  have hProvenanceStep :=
    onTail_step (restoreProvenance_keepsRows s _) (liftCache_ok hProvenance)
  exact hRmStep.installed ((records_installed hRecords).step
    (((hOrdinalStep.trans hProvenanceStep).trans hAssertStep).trans (cursors_step h)))

/-! ## The whole restore -/

/-- What a restore that returned has done, phase by phase. -/
structure Installed (mode : RestoreMode) (s : Nat) (mf : StateManifest)
    (restored : List (List Nat)) (dst : SavedCell → Nat) (c c₁ c₂ c' : KvCache) : Prop where
  shape : restored = mf.streams.map fun cells => cells.map dst
  cells : CellsInstalled mode s mf dst c c₁ c₂
  tail : TailInstalled (c.cfg.seqToStream s) s restored
    (if mf.bodyOnly then [] else mf.tailRecords) c₂ c'
  rebuilt : ∃ c₃ : KvCache, c' = c₃.rebuildAllocationHead s

theorem stateV2Install_installed {mode : RestoreMode}
    (h : stateV2Install groupSize s mode mf c = .ok restored c') :
    ∃ dst c₁ c₂, Installed mode s mf restored dst c c₁ c₂ c' := by
  obtain ⟨c₀, _, hGet, h⟩ := run_bind_inv h
  cases hGet
  split at h
  · cases h
  obtain ⟨r, c₂, hCells, h⟩ := run_bind_inv h
  obtain ⟨_, c₃, hTail, h⟩ := run_bind_inv h
  cases h
  have hInstalled : ∃ dst c₁, restored = mf.streams.map (fun cells => cells.map dst) ∧
      CellsInstalled mode s mf dst c c₁ c₂ := by
    cases mode with
    | selfContained => exact installSelfContained_installed hCells
    | exactSource => exact installKnownCells_installed rfl hCells
    | referenceOnlyPartial => exact installKnownCells_installed rfl hCells
  obtain ⟨dst, c₁, hRestored, hCells⟩ := hInstalled
  exact ⟨dst, c₁, c₂, hRestored, hCells,
    (installTail_installed hTail).step (rebuildAllocationHead_step s c₃), c₃, rfl⟩

/-- A self-contained restore, phase by phase. -/
theorem stateV2Install_remapped
    (h : stateV2Install groupSize s .selfContained mf c = .ok restored c') :
    ∃ groups c₁ c₂,
      restored = mf.streams.map (fun cells => cells.map (remapCell groupSize groups)) ∧
      Remapped groupSize s mf groups c c₁ c₂ ∧ c'.cells = c₂.cells ∧ c'.cfg = c₂.cfg ∧
      (∀ q ≠ s, c'.allocationHeads q = c₂.allocationHeads q) ∧
      ∃ c₃ : KvCache, c' = c₃.rebuildAllocationHead s := by
  obtain ⟨c₀, _, hGet, h⟩ := run_bind_inv h
  cases hGet
  split at h
  · cases h
  obtain ⟨r, c₂, hCells, h⟩ := run_bind_inv h
  obtain ⟨_, c₃, hTail, h⟩ := run_bind_inv h
  cases h
  obtain ⟨groups, c₁, hRestored, hRemapped⟩ := installSelfContained_remapped hCells
  have hInstalled := (installTail_installed hTail).step (rebuildAllocationHead_step s c₃)
  exact ⟨groups, c₁, c₂, hRestored, hRemapped, hInstalled.cells, hInstalled.cfg,
    hInstalled.heads, c₃, rfl⟩

/-- The restore left the other sequences alone and gave the sequence exactly
the saved cells. -/
structure Undisturbed (s : Nat) (mf : StateManifest) (restored : List (List Nat))
    (c c' : KvCache) : Prop where
  /-- the other sequences have the same cells -/
  members : ∀ q ≠ s, ∀ r i, q ∈ ((c'.cells r).cell i).seq ↔ q ∈ ((c.cells r).cell i).seq
  /-- at the same positions and extensions -/
  values : ∀ q ≠ s, ∀ r i, q ∈ ((c.cells r).cell i).seq →
    ((c'.cells r).cell i).pos = ((c.cells r).cell i).pos ∧
    ((c'.cells r).cell i).ext = ((c.cells r).cell i).ext
  /-- and the same exact rows, those that were live still live -/
  rows : ∀ q ≠ s, c'.rows q = c.rows q ∧ ∀ row ∈ c.rows q, LiveRow c q row → LiveRow c' q row
  /-- the sequence has the destination cells and no other -/
  owned : ∀ i, s ∈ ((c'.cells (c.cfg.seqToStream s)).cell i).seq ↔ i ∈ restored.flatten
  /-- with the saved positions and extensions -/
  saved : List.Forall₂ (fun x i => x.fits mf.nPosPerEmbd ((c'.cells (c.cfg.seqToStream s)).cell i))
    mf.savedCells restored.flatten
  /-- each saved cell in a cell of its own -/
  distinct : restored.flatten.Nodup

/-- When a restore disturbs nothing: it rewrites the generation of a shared
cell with live rows by the same generation. -/
structure RestoreFits (mode : RestoreMode) (s : Nat) (mf : StateManifest) (c : KvCache) :
    Prop where
  /-- a cell of the sequence that `seq_rm` does not reach is restored -/
  reached : ∀ i, s ∈ ((c.cells (c.cfg.seqToStream s)).cell i).seq →
    ((c.cells (c.cfg.seqToStream s)).cell i).within 0 int32Max ∨
      ∃ x ∈ mf.savedCells, landingCell mode c s mf x = some i
  /-- the generation of a cell with a live row of another sequence stays -/
  generations : ∀ k j x i, mf.cellAt k j = some x → landingCell mode c s mf x = some i →
    ∀ q ≠ s, ∀ row ∈ c.rows q, LiveRow c q row →
      row.stream = c.cfg.seqToStream s → row.cell = i →
      mf.writtenGeneration k j x = row.generation

section Assembly

variable {mode : RestoreMode} {s : Nat} {mf : StateManifest} {restored : List (List Nat)}
  {dst : SavedCell → Nat} {c c₁ c₂ c' : KvCache} {lo hi : Int}

theorem used_of_member (h : KvCells.IndexInv cells) {q i : Nat}
    (hq : q ∈ (cells.cell i).seq) : i < cells.size ∧ (cells.cell i).pos ≠ -1 := by
  by_cases hi : i < cells.size
  · refine ⟨hi, fun hPos => ?_⟩
    rw [h.unowned i hi hPos] at hq
    exact absurd hq (notMem_empty q)
  · rw [h.outside i (by omega)] at hq
    exact absurd hq (notMem_empty q)

theorem clearedCell_member (hq : q ≠ s) (v : KvCell) :
    q ∈ (clearedCell s lo hi v).seq ↔ q ∈ v.seq := by
  unfold clearedCell KvCell.seqRm
  split
  · split
    · rename_i hErase
      have hNot : q ∉ v.seq := by
        intro hMem
        have hIn : q ∈ v.seq.erase s := mem_erase.mpr ⟨hq, hMem⟩
        rw [hErase] at hIn
        exact absurd hIn (notMem_empty q)
      simp [hNot]
    · simp [hq]
  · rfl

theorem clearedCell_values (hq : q ≠ s) (h : q ∈ v.seq) :
    (clearedCell s lo hi v).pos = v.pos ∧ (clearedCell s lo hi v).ext = v.ext := by
  unfold clearedCell KvCell.seqRm
  split
  · split
    · rename_i hErase
      have hIn : q ∈ v.seq.erase s := mem_erase.mpr ⟨hq, h⟩
      rw [hErase] at hIn
      exact absurd hIn (notMem_empty q)
    · exact ⟨rfl, rfl⟩
  · exact ⟨rfl, rfl⟩

theorem clearedCell_self : s ∈ (clearedCell s lo hi v).seq ↔ s ∈ v.seq ∧ ¬ v.within lo hi := by
  unfold clearedCell KvCell.seqRm
  split
  · rename_i h
    split <;> simp [h.1]
  rename_i h
  rw [not_and] at h
  constructor
  · exact fun hMem => ⟨hMem, fun hWithin => h hWithin hMem⟩
  · exact And.left

variable (h : Installed mode s mf restored dst c c₁ c₂ c')

include h

theorem Installed.flatten : restored.flatten = mf.savedCells.map dst := by
  rw [h.shape, StateManifest.savedCells, map_flatten]

theorem Installed.address (k j : Nat) : restoredAt restored k j = (mf.cellAt k j).map dst := by
  rw [h.shape, restoredAt, StateManifest.cellAt, getElem?_map]
  cases mf.streams[k]? with
  | none => rfl
  | some cells => simp

theorem Installed.nodup : restored.flatten.Nodup := by
  rw [h.flatten]
  exact h.cells.nodup

theorem Installed.streams {r : Nat} (hr : r ≠ c.cfg.seqToStream s) : c'.cells r = c.cells r := by
  rw [h.tail.cells, h.cells.placed.streams r hr, h.cells.cleared.streams r hr]

theorem Installed.member (q i : Nat) :
    q ∈ ((c'.cells (c.cfg.seqToStream s)).cell i).seq ↔
      (i ∈ restored.flatten ∧ q = s) ∨ q ∈ ((c₁.cells (c.cfg.seqToStream s)).cell i).seq := by
  rw [h.tail.cells, h.flatten]
  by_cases hi : i ∈ mf.savedCells.map dst
  · rw [h.cells.placed.seq i hi]
    simp [hi]
  · rw [h.cells.placed.others i hi]
    simp [hi]

theorem Installed.member_other (hq : q ≠ s) (r i : Nat) :
    q ∈ ((c'.cells r).cell i).seq ↔ q ∈ ((c.cells r).cell i).seq := by
  by_cases hr : r = c.cfg.seqToStream s
  · subst hr
    rw [h.member, h.cells.cleared.cell i]
    split
    · simp [hq, clearedCell_member hq]
    · simp [hq]
  · rw [h.streams hr]

theorem Installed.values_other (hInv : KvCells.IndexInv (c.cells (c.cfg.seqToStream s)))
    (hq : q ≠ s) {r i : Nat}
    (hMem : q ∈ ((c.cells r).cell i).seq) :
    ((c'.cells r).cell i).pos = ((c.cells r).cell i).pos ∧
      ((c'.cells r).cell i).ext = ((c.cells r).cell i).ext := by
  by_cases hr : r = c.cfg.seqToStream s
  · subst hr
    obtain ⟨hi, hUsed⟩ := used_of_member hInv hMem
    have hCleared := h.cells.cleared.cell i
    rw [if_pos hi] at hCleared
    obtain ⟨hPos, hExt⟩ := clearedCell_values hq hMem
    have hKept := h.cells.placed.kept i (by rw [hCleared, hPos]; exact hUsed)
    rw [hCleared, hPos, hExt] at hKept
    rw [h.tail.cells]
    exact hKept
  · rw [h.streams hr]
    exact ⟨rfl, rfl⟩

theorem Installed.rows_other (hq : q ≠ s) : c'.rows q = c.rows q := by
  have hPlaced : c₂.rows q = c₁.rows q := by simp only [KvCache.rows, h.cells.placed.tail]
  rw [h.tail.rows q hq, hPlaced, h.cells.cleared.rows q hq]

theorem Installed.saved :
    List.Forall₂ (fun x i => x.fits mf.nPosPerEmbd ((c'.cells (c.cfg.seqToStream s)).cell i))
      mf.savedCells restored.flatten := by
  rw [h.flatten, forall₂_map_right_iff, forall₂_same, h.tail.cells]
  exact h.cells.placed.fits

/-- A destination was empty when the sequence had been cleared, or it is where
the saved cell landed before. -/
theorem Installed.landed (hx : x ∈ mf.savedCells) :
    landingCell mode c s mf x = some (dst x) ∨
      ((c₁.cells (c.cfg.seqToStream s)).cell (dst x)).pos = -1 := by
  by_cases hMode : mode = .selfContained
  · right
    refine (h.cells.placed.free ?_).2 _ (mem_map_of_mem hx)
    simp [hMode]
  · exact Or.inl (h.cells.landing hMode x hx)

omit h in
theorem mem_of_cellAt {k j : Nat} (h : mf.cellAt k j = some x) : x ∈ mf.savedCells := by
  obtain ⟨cells, hCells, hCell⟩ := bind_eq_some_iff.mp h
  exact mem_flatten.mpr ⟨cells, mem_of_getElem? hCells, mem_of_getElem? hCell⟩

omit h in
theorem tail_of_row {row : TailIdentity} (h : row ∈ c.rows q) : c.tail.isSome = true := by
  cases hTail : c.tail with
  | none =>
    simp only [KvCache.rows, hTail] at h
    exact absurd h not_mem_nil
  | some t => rfl

theorem Installed.generation (hTail : c.tail.isSome = true) {k j : Nat}
    (hx : mf.cellAt k j = some x) :
    c'.generations (c.cfg.seqToStream s) (dst x) = mf.writtenGeneration k j x := by
  have hAt : restoredAt restored k j = some (dst x) := by rw [h.address, hx]; rfl
  have hMem := mem_of_cellAt hx
  rw [h.tail.generations, recordedGeneration_at h.nodup hAt,
    h.cells.placed.generation (by rw [h.cells.cleared.tail]; exact hTail) h.cells.nodup x hMem]
  unfold StateManifest.writtenGeneration
  split <;> rfl

theorem Installed.generation_other {r i : Nat}
    (hOther : r ≠ c.cfg.seqToStream s ∨ i ∉ restored.flatten) :
    c'.generations r i = c.generations r i := by
  have hPlaced : c₂.generations r i = c.generations r i := by
    rw [h.cells.placed.generationsOther r i (by rwa [h.flatten] at hOther),
      h.cells.cleared.generations]
  by_cases hr : r = c.cfg.seqToStream s
  · subst hr
    rw [h.tail.generations, recordedGeneration_other (hOther.resolve_left (by simp)), hPlaced]
  · rw [h.tail.streams r hr, hPlaced]

theorem Undisturbed.fits (hInv : KvCells.IndexInv (c.cells (c.cfg.seqToStream s)))
    (hKept : Undisturbed s mf restored c c') : RestoreFits mode s mf c := by
  constructor
  · intro i hMem
    obtain ⟨hi, hUsed⟩ := used_of_member hInv hMem
    by_cases hWithin : ((c.cells (c.cfg.seqToStream s)).cell i).within 0 int32Max
    · exact Or.inl hWithin
    have hCell : (c₁.cells (c.cfg.seqToStream s)).cell i =
        (c.cells (c.cfg.seqToStream s)).cell i := by
      rw [h.cells.cleared.cell i, if_pos hi]
      exact if_neg fun hBoth => hWithin hBoth.1
    have hOwned := (hKept.owned i).mp ((h.member s i).mpr (Or.inr (by rw [hCell]; exact hMem)))
    rw [h.flatten] at hOwned
    obtain ⟨x, hx, rfl⟩ := mem_map.mp hOwned
    rcases h.landed hx with hLanding | hEmpty
    · exact Or.inr ⟨x, hx, hLanding⟩
    · rw [hCell] at hEmpty
      exact absurd hEmpty hUsed
  intro k j x i hx hLanding q hq row hRow hLive hStream hCell
  have hMode : mode ≠ .selfContained := by
    rintro rfl
    cases hLanding
  rw [h.cells.landing hMode x (mem_of_cellAt hx), some.injEq] at hLanding
  have hAfter := ((hKept.rows q hq).2 row hRow hLive).generation
  rw [hStream, hCell, ← hLanding, h.generation (tail_of_row hRow) hx] at hAfter
  exact hAfter

theorem RestoreFits.undisturbed (hInv : KvCells.IndexInv (c.cells (c.cfg.seqToStream s)))
    (hFits : RestoreFits mode s mf c) :
    Undisturbed s mf restored c c' where
  members q hq r i := h.member_other hq r i
  values q hq r i hMem := h.values_other hInv hq hMem
  rows q hq := by
    refine ⟨h.rows_other hq, fun row hRow hLive => ⟨(h.member_other hq _ _).mpr hLive.member, ?_⟩⟩
    by_cases hHit : row.stream = c.cfg.seqToStream s ∧ row.cell ∈ restored.flatten
    · obtain ⟨hStream, hCell⟩ := hHit
      obtain ⟨k, j, hAt⟩ := restoredAt_of_mem hCell
      rw [h.address] at hAt
      obtain ⟨x, hx, hDst⟩ := map_eq_some_iff.mp hAt
      rcases h.landed (mem_of_cellAt hx) with hLanding | hEmpty
      · rw [hStream, ← hDst, h.generation (tail_of_row hRow) hx]
        exact hFits.generations k j x (dst x) hx hLanding q hq row hRow hLive hStream hDst.symm
      have hOld := hLive.member
      rw [hStream] at hOld
      obtain ⟨hi, hUsed⟩ := used_of_member hInv hOld
      have hCleared := h.cells.cleared.cell row.cell
      rw [if_pos hi] at hCleared
      rw [hDst, hCleared, (clearedCell_values hq hOld).1] at hEmpty
      exact absurd hEmpty hUsed
    · rw [h.generation_other (not_and_or.mp hHit)]
      exact hLive.generation
  owned i := by
    rw [h.member]
    constructor
    · rintro (⟨hi, -⟩ | hMem)
      · exact hi
      rw [h.cells.cleared.cell i] at hMem
      split at hMem
      · obtain ⟨hOld, hWithin⟩ := clearedCell_self.mp hMem
        obtain ⟨x, hx, hLanding⟩ := (hFits.reached i hOld).resolve_left hWithin
        have hMode : mode ≠ .selfContained := by
          rintro rfl
          cases hLanding
        rw [h.cells.landing hMode x hx, some.injEq] at hLanding
        rw [h.flatten, ← hLanding]
        exact mem_map_of_mem hx
      · exact absurd (used_of_member hInv hMem).1 ‹_›
    · exact fun hi => Or.inl ⟨hi, rfl⟩
  saved := h.saved
  distinct := h.nodup

end Assembly

/-- A restore of one sequence disturbs no other sequence exactly when it
rewrites no generation that a live row of another sequence relies on. -/
theorem stateV2Install_undisturbed_iff {groupSize s : Nat} {mode : RestoreMode}
    {mf : StateManifest} {c c' : KvCache} {restored : List (List Nat)}
    (hInv : KvCells.IndexInv (c.cells (c.cfg.seqToStream s)))
    (h : stateV2Install groupSize s mode mf c = .ok restored c') :
    Undisturbed s mf restored c c' ↔ RestoreFits mode s mf c := by
  obtain ⟨dst, c₁, c₂, hInstalled⟩ := stateV2Install_installed h
  exact ⟨Undisturbed.fits hInstalled hInv, RestoreFits.undisturbed hInstalled hInv⟩

/-! ## A shared cell -/

theorem oneRow_fits : 1 + 0 ≤ 1 := by decide

theorem pairSlots_fit : 1 * 2 + 0 ≤ int32Max := by decide

/-- A unified cache of one cell for two sequences, with an exact tail. -/
def pairConfig : CacheConfig where
  size := 1
  nSeqMax := 2
  unified := true
  tailCfg := some ⟨1, 0, 2, 1, 0, false, TailConfig.overlay_zero, oneRow_fits, pairSlots_fit⟩
  seqsFit := CacheConfig.seqsFit_two
  groups := by decide
  tailSeqs := by
    rintro t ⟨⟩
    rfl

/-- Both sequences hold cell 0, which has been written twice, and its exact
row. -/
def pairCache : KvCache where
  cfg := pairConfig
  cells _ := (((({ size := 1 } : KvCells).posSet 0 0).seqAdd 0 0).seqAdd 0 1)
  tail := some {
    cfg := ⟨1, 0, 2, 1, 0, false, TailConfig.overlay_zero, oneRow_fits, pairSlots_fit⟩
    seqs := fun q =>
      if q < 2 then
        { entries := [⟨q, ⟨0, 0, 2⟩, 0, q, q⟩]
          index := (∅ : TailIndex).insert (0, 0) q
          used := fun l => l = 0 }
      else {}
    nextNode := 2 }
  generations _ _ := 2
  ordinal := 2

/-- The state of sequence 0, saved when cell 0 had the given generation. -/
def pairManifest (generation : Nat) : StateManifest where
  streams := [[⟨0, {}, 0, generation, by decide⟩]]
  tailOrdinal := 1
  tailRecords := [⟨0, 0, generation, 0, 0, 0⟩]
  provenance := [⟨0, 0, 0⟩]
  tailWriteCursors := [0]

theorem pairCache_indexInv : KvCells.IndexInv (pairCache.cells 0) :=
  ((((indexInv_blank 1).posSet (by decide) 0 (by decide) rfl).seqAdd (by decide)
    (by decide) (by decide) (by decide)).seqAdd (by decide) (by decide) (by decide) (by decide))

theorem pairCache_cell {i q : Nat} (h : q ∈ ((pairCache.cells 0).cell i).seq) : i = 0 := by
  have hSize := (used_of_member pairCache_indexInv h).1
  exact Nat.lt_one_iff.mp hSize

theorem pairCache_rows {row : TailIdentity} (h : row ∈ pairCache.rows q) : row = ⟨0, 0, 2⟩ := by
  unfold KvCache.rows pairCache at h
  dsimp only [shownEntries, pendingInto] at h
  by_cases hq : q < 2
  · rw [if_pos hq] at h
    simpa using h
  · rw [if_neg hq] at h
    simp at h

/-- The same state saved in the current generation fits. -/
theorem pairManifest_fits : RestoreFits .referenceOnlyPartial 0 (pairManifest 2) pairCache := by
  constructor
  · intro i hi
    cases pairCache_cell hi
    exact Or.inl (by decide)
  intro k j x i hx _ q _ row hRow _ _ _
  rw [pairCache_rows hRow]
  obtain ⟨cells, hCells, hCell⟩ := bind_eq_some_iff.mp hx
  have hk : k = 0 := by
    have hLt := (List.getElem?_eq_some_iff.mp hCells).1
    exact Nat.lt_one_iff.mp hLt
  subst hk
  cases hCells
  have hj : j = 0 := by
    have hLt := (List.getElem?_eq_some_iff.mp hCell).1
    exact Nat.lt_one_iff.mp hLt
  subst hj
  rfl

/-- The restore of a partial state saved in the given generation. -/
def pairRestore (generation : Nat) : InstallM (List (List Nat)) :=
  stateV2Install 1 0 (restoreMode { partialOnly := true } 0) (pairManifest generation)

/-- The cell is written with the generation that the row of sequence 1 names. -/
theorem pairCache_undisturbed : ∃ restored c', pairRestore 2 pairCache = .ok restored c' ∧
    Undisturbed 0 (pairManifest 2) restored pairCache c' := by
  have hReturns : returns (pairRestore 2) pairCache = true := by decide +kernel
  obtain ⟨restored, h⟩ := run_of_returns hReturns
  exact ⟨restored, _, h, (stateV2Install_undisturbed_iff pairCache_indexInv h).mpr pairManifest_fits⟩

/-- The partial state saved before the cell was written again is accepted, and
the row of sequence 1 is live no more. -/
theorem pairCache_disturbed : ∃ restored c', pairRestore 1 pairCache = .ok restored c' ∧
    ¬ Undisturbed 0 (pairManifest 1) restored pairCache c' := by
  have hReturns : returns (pairRestore 1) pairCache = true := by decide +kernel
  obtain ⟨restored, h⟩ := run_of_returns hReturns
  refine ⟨restored, _, h, fun hKept => ?_⟩
  have hLive : LiveRow pairCache 1 ⟨0, 0, 2⟩ := ⟨by decide, rfl⟩
  have hAfter := ((hKept.rows 1 (by decide)).2 ⟨0, 0, 2⟩ (by decide) hLive).generation
  -- the cell's generation is 1 again
  exact absurd hAfter (by decide +kernel)

end KvCache

end Beellama.Ports
