import Beellama.Ports.RecurrentState

/-!
# Runs of the recurrent memory

As long as a removal of all sequences only finds empty cells and the state of one sequence is not
restored as that of all, every state of a run has the membership invariant, and `find_slot` does not
abort (`Reachable.membership`).
-/

namespace Beellama.Ports

open Beellama.Verified List Option Finset RecurrentMemory

variable {saved : List SavedMemCell} {s size : Nat} {q : Option Nat}

namespace RecurrentMemory

variable {mem mem' m₀ : RecurrentMemory}

/-! ## Reading the cells of a saved state -/

/-- What reading the saved cells leaves, from cell `i` on. -/
structure ReadInto (mem : RecurrentMemory) (i : Nat) (saved : List SavedMemCell)
    (mem' : RecurrentMemory) : Prop where
  shape : SameShape mem mem'
  rsIdx : mem'.rsIdx = mem.rsIdx
  src : ∀ c, (mem'.cells c).src = (mem.cells c).src
  below : ∀ cell ∈ saved, ∀ x ∈ cell.ids, x < mem.nSeqMax
  tailOut : ∀ x, (∀ cell ∈ saved, x ∉ cell.ids) → (mem'.cells x).tail = (mem.cells x).tail
  tailIn : ∀ (k : Nat) cell, saved[k]? = some cell → ∀ x ∈ cell.ids,
    (mem.cells x).tail = none ∧ (mem'.cells x).tail = some (i + k)
  cellOut : ∀ c, (∀ k < saved.length, c ≠ i + k) →
    (mem'.cells c).seqId = (mem.cells c).seqId ∧ (mem'.cells c).pos = (mem.cells c).pos
  cellIn : ∀ (k : Nat) cell, saved[k]? = some cell →
    (mem'.cells (i + k)).seqId = (mem.cells (i + k)).seqId ∪ cell.ids.toFinset ∧
      (mem'.cells (i + k)).pos = cell.pos

/-- Reading the ids of one cell. -/
structure ReadIds (mem : RecurrentMemory) (i : Nat) (ids : List Nat) (mem' : RecurrentMemory) :
    Prop where
  shape : SameShape mem mem'
  rsIdx : mem'.rsIdx = mem.rsIdx
  below : ∀ x ∈ ids, x < mem.nSeqMax
  free : ∀ x ∈ ids, (mem.cells x).tail = none
  cells : ∀ c, mem'.cells c =
    { mem.cells c with
      tail := if c ∈ ids then some i else (mem.cells c).tail
      seqId := if c = i then (mem.cells c).seqId ∪ ids.toFinset else (mem.cells c).seqId }

variable {i : Nat}

theorem readIds_some {ids : List Nat} (h : mem.readIds i ids = some mem') :
    ReadIds mem i ids mem' := by
  induction ids generalizing mem with
  | nil =>
    obtain rfl : mem = mem' := some.inj h
    exact ⟨.refl mem, rfl, fun x hX => absurd hX not_mem_nil,
      fun x hX => absurd hX not_mem_nil, fun c => by simp⟩
  | cons s rest ih =>
    unfold readIds at h
    dsimp only at h
    by_cases hBelow : mem.nSeqMax ≤ s
    · rw [if_pos hBelow] at h
      cases h
    rw [if_neg hBelow] at h
    rw [onCell_seqId] at h
    dsimp only at h
    by_cases hFree : (mem.cells s).tail ≠ none
    · rw [if_pos hFree] at h
      cases h
    rw [if_neg hFree] at h
    have hStep := enter_cells mem s i
    have hRest := ih h
    refine ⟨((onCell_shape ..).trans (setTail_shape ..)).trans hRest.shape, hRest.rsIdx, ?_, ?_, ?_⟩
    · intro x hX
      rcases mem_cons.mp hX with rfl | hX
      · exact not_le.mp hBelow
      · exact hRest.below x hX
    · intro x hX
      rcases mem_cons.mp hX with rfl | hX
      · exact not_not.mp hFree
      have hNone := hRest.free x hX
      rw [hStep x] at hNone
      have hNone' : (if x = s then some i else (mem.cells x).tail) = none := hNone
      by_cases hOwn : x = s
      · rw [if_pos hOwn] at hNone'
        cases hNone'
      · rwa [if_neg hOwn] at hNone'
    intro c
    rw [hRest.cells c, hStep c]
    obtain ⟨hTail, hSeq⟩ := entered_cons (mem.cells c) s i c rest
    simp only [hTail, hSeq]

theorem readCells_some (h : mem.readCells i saved = some mem') : ReadInto mem i saved mem' := by
  induction saved generalizing mem i with
  | nil =>
    obtain rfl : mem = mem' := some.inj h
    refine ⟨.refl mem, rfl, fun _ => rfl, fun _ hMem => absurd hMem not_mem_nil,
      fun _ _ => rfl, ?_, fun _ _ => ⟨rfl, rfl⟩, ?_⟩
    · intro k cell hCell
      simp at hCell
    · intro k cell hCell
      simp at hCell
  | cons cell rest ih =>
    unfold readCells at h
    cases hIds : (mem.onCell i fun c => { c with pos := cell.pos }).readIds i cell.ids with
    | none =>
      rw [hIds] at h
      cases h
    | some next =>
      rw [hIds] at h
      have hOne := readIds_some hIds
      have hLater := ih h
      have hNext : ∀ c, next.cells c =
          { mem.cells c with
            pos := if c = i then cell.pos else (mem.cells c).pos
            tail := if c ∈ cell.ids then some i else (mem.cells c).tail
            seqId := if c = i then (mem.cells c).seqId ∪ cell.ids.toFinset
              else (mem.cells c).seqId } := by
        intro c
        rw [hOne.cells c, onCell_pos]
      have hNextTail : ∀ x, (next.cells x).tail =
          if x ∈ cell.ids then some i else (mem.cells x).tail := fun x => by rw [hNext x]
      refine ⟨((onCell_shape ..).trans hOne.shape).trans hLater.shape,
        hLater.rsIdx.trans hOne.rsIdx, ?_, ?_, ?_, ?_, ?_, ?_⟩
      · intro c
        rw [hLater.src c, hNext c]
      · intro cell' hMem x hX
        rcases mem_cons.mp hMem with rfl | hMem
        · exact hOne.below x hX
        have hLt := hLater.below cell' hMem x hX
        rw [hOne.shape.nSeqMax] at hLt
        exact hLt
      · intro x hOut
        rw [hLater.tailOut x fun cell' hMem => hOut cell' (mem_cons_of_mem cell hMem),
          hNextTail, if_neg (hOut cell mem_cons_self)]
      · intro k cell' hCell x hX
        cases k with
        | zero =>
          obtain rfl : cell = cell' := some.inj hCell
          have hNone := hOne.free x hX
          rw [onCell_pos] at hNone
          refine ⟨hNone, ?_⟩
          -- a later cell with the same sequence would have been refused
          have hOut : ∀ cell' ∈ rest, x ∉ cell'.ids := by
            intro cell' hMem hX'
            obtain ⟨k, hK⟩ := mem_iff_getElem?.mp hMem
            have hFree := (hLater.tailIn k cell' hK x hX').1
            rw [hNextTail, if_pos hX] at hFree
            cases hFree
          rw [hLater.tailOut x hOut, hNextTail, if_pos hX]
          rfl
        | succ k =>
          obtain ⟨hFree, hTail⟩ := hLater.tailIn k cell' hCell x hX
          rw [hNextTail] at hFree
          by_cases hIn : x ∈ cell.ids
          · rw [if_pos hIn] at hFree
            cases hFree
          · rw [if_neg hIn] at hFree
            exact ⟨hFree, hTail.trans (congrArg some (by omega))⟩
      · intro c hOut
        have hHere : c ≠ i := hOut 0 (Nat.succ_pos _)
        obtain ⟨hSeq, hPos'⟩ := hLater.cellOut c fun k hK => by
          have hNe := hOut (k + 1) (Nat.succ_lt_succ hK)
          omega
        rw [hSeq, hPos', hNext c]
        exact ⟨if_neg hHere, if_neg hHere⟩
      intro k cell' hCell
      cases k with
      | zero =>
        obtain rfl : cell = cell' := some.inj hCell
        obtain ⟨hSeq, hPos'⟩ := hLater.cellOut i fun k _ => by omega
        show (mem'.cells i).seqId = (mem.cells i).seqId ∪ _ ∧ (mem'.cells i).pos = _
        rw [hSeq, hPos', hNext i]
        exact ⟨if_pos rfl, if_pos rfl⟩
      | succ k =>
        obtain ⟨hSeq, hPos'⟩ := hLater.cellIn k cell' hCell
        have hIndex : i + (k + 1) = i + 1 + k := by omega
        have hNe : i + 1 + k ≠ i := by omega
        rw [hIndex, hSeq, hPos', hNext]
        refine ⟨?_, rfl⟩
        show (if i + 1 + k = i then _ else (mem.cells (i + 1 + k)).seqId) ∪ _ = _
        rw [if_neg hNe]

/-- The saved cells of all sequences: each has members. -/
def SavedAll (saved : List SavedMemCell) : Prop := ∀ cell ∈ saved, 0 ≤ cell.pos ∧ cell.ids ≠ []

/-- The saved cells of one sequence: there is at most one. -/
def SavedOne (saved : List SavedMemCell) : Prop :=
  saved.length ≤ 1 ∧ ∀ cell ∈ saved, 0 ≤ cell.pos ∧ cell.ids = []

/-- The restored memory. -/
structure Restored (mem : RecurrentMemory) (saved : List SavedMemCell) (mem' : RecurrentMemory) :
    Prop where
  inv : Invariant mem'
  shape : SameShape mem mem'
  length : saved.length ≤ mem.size
  cell : ∀ (c : Nat) cell, saved[c]? = some cell →
    (mem'.cells c).seqId = cell.ids.toFinset ∧ (mem'.cells c).pos = cell.pos
  rest : ∀ c, saved.length ≤ c → (mem'.cells c).seqId = ∅
  rsIdx : ∀ x, mem'.rsIdx x = 0

variable (h : Invariant mem)

include h

theorem Invariant.readAll (hSaved : SavedAll saved)
    (hRead : mem.readAll saved = .committed mem') : Restored mem saved mem' := by
  unfold RecurrentMemory.readAll at hRead
  by_cases hLong : mem.size < saved.length
  · rw [if_pos hLong] at hRead
    cases hRead
  rw [if_neg hLong] at hRead
  cases hCells : mem.clear.readCells 0 saved with
  | none =>
    rw [hCells] at hRead
    cases hRead
  | some next =>
    rw [hCells] at hRead
    obtain rfl := ReadResult.committed.inj hRead
    have hLength : saved.length ≤ mem.size := not_lt.mp hLong
    have hClear := h.clear
    have hEmpty : ∀ c, (mem.clear.cells c).seqId = ∅ := fun c =>
      eq_empty_of_forall_notMem fun x hX => ((hClear.seqId c x).mp hX).2 trivial
    have hClearInv := h.dropped hClear
    have hNext := readCells_some hCells
    have hShape : SameShape mem next := hClear.shape.trans hNext.shape
    have hCell : ∀ (c : Nat) cell, saved[c]? = some cell →
        (next.cells c).seqId = cell.ids.toFinset ∧ (next.cells c).pos = cell.pos := by
      intro c cell hAt
      have hIn := hNext.cellIn c cell hAt
      rw [Nat.zero_add, hEmpty c] at hIn
      exact hIn
    have hBeyond : ∀ c, saved.length ≤ c → (next.cells c).seqId = ∅ ∧
        (next.cells c).pos = (mem.clear.cells c).pos := by
      intro c hC
      obtain ⟨hSeq, hPos⟩ := hNext.cellOut c fun k hK => by omega
      exact ⟨hSeq.trans (hEmpty c), hPos⟩
    have hUsed : ∀ c, (next.cells c).seqId ≠ ∅ ↔ c < saved.length := by
      intro c
      constructor
      · intro hUsed
        by_contra hC
        exact hUsed (hBeyond c (not_lt.mp hC)).1
      intro hC hNone
      have hAt := getElem?_eq_getElem hC
      rw [(hCell c _ hAt).1, toFinset_eq_empty_iff] at hNone
      exact (hSaved _ (getElem_mem hC)).2 hNone
    have hOwn : ∀ c, (({ next with head := 0, used := saved.length : RecurrentMemory }.ownRows
        saved.length).cells c) =
        { next.cells c with
          src := if c < saved.length then some c else (next.cells c).src } := by
      intro c
      show (if 0 ≤ c ∧ c < 0 + saved.length then _ else next.cells c : MemCell) = _
      by_cases hC : c < saved.length
      · rw [if_pos ⟨Nat.zero_le c, by omega⟩, if_pos hC]
      · rw [if_neg (by omega), if_neg hC]
    refine ⟨⟨?_, ?_, ?_, ?_, ?_, ?_, Or.inl rfl, ?_⟩, hShape.trans ⟨rfl, rfl, rfl⟩, hLength, ?_,
      ?_, ?_⟩
    · intro c x hMember
      rw [hOwn c] at hMember
      rw [hOwn x]
      have hC : c < saved.length := (hUsed c).mp (ne_empty_of_mem hMember)
      have hAt := getElem?_eq_getElem hC
      have hX : x ∈ (saved[c]).ids :=
        mem_toFinset.mp ((hCell c _ hAt).1 ▸ hMember)
      have hTail := (hNext.tailIn c _ hAt x hX).2
      rw [Nat.zero_add] at hTail
      rw [hShape.size]
      exact ⟨Nat.lt_of_lt_of_le hC hLength, hTail⟩
    · intro x c hTail
      rw [hOwn x] at hTail
      rw [hOwn c]
      have hTail' : (next.cells x).tail = some c := hTail
      by_cases hIn : ∃ cell ∈ saved, x ∈ cell.ids
      · obtain ⟨cell, hMem, hX⟩ := hIn
        obtain ⟨k, hAt⟩ := mem_iff_getElem?.mp hMem
        have hAtTail := (hNext.tailIn k cell hAt x hX).2
        rw [Nat.zero_add, hTail'] at hAtTail
        obtain rfl := some.inj hAtTail
        have hLt := hNext.below cell hMem x hX
        rw [hShape.size, (hCell c cell hAt).1]
        exact ⟨Nat.lt_of_lt_of_le hLt h.room, mem_toFinset.mpr hX⟩
      have hNone := hNext.tailOut x fun cell hMem hX => hIn ⟨cell, hMem, hX⟩
      rw [hTail', hClear.gone x trivial] at hNone
      cases hNone
    · have hRange : (Finset.range next.size).filter (fun c =>
          ((({ next with head := 0, used := saved.length : RecurrentMemory }.ownRows
            saved.length).cells c).seqId ≠ ∅)) = Finset.range saved.length := by
        ext c
        rw [Finset.mem_filter, Finset.mem_range, Finset.mem_range, hOwn c]
        refine ⟨fun hBoth => (hUsed c).mp hBoth.2, fun hC => ⟨?_, (hUsed c).mpr hC⟩⟩
        rw [hShape.size]
        exact Nat.lt_of_lt_of_le hC hLength
      exact (card_range _).symm.trans (congrArg card hRange.symm)
    · intro c
      rw [hOwn c]
      by_cases hC : c < saved.length
      · have hAt := getElem?_eq_getElem hC
        rw [(hCell c _ hAt).2]
        have hPos := (hSaved _ (getElem_mem hC)).1
        refine ⟨fun hNone => absurd hNone ((hUsed c).mpr hC), fun hNeg => ?_⟩
        exact absurd hNeg (not_lt.mpr hPos)
      obtain ⟨hSeq, hPos⟩ := hBeyond c (not_lt.mp hC)
      rw [hSeq, hPos]
      exact ⟨fun _ => (hClearInv.pos c).mp (hEmpty c), fun _ => rfl⟩
    · intro c hUsedC
      rw [hOwn c] at hUsedC ⊢
      exact if_pos ((hUsed c).mp hUsedC)
    · intro c row hSrc
      rw [hOwn c] at hSrc
      have hSrc' : (if c < saved.length then some c else (next.cells c).src) = some row := hSrc
      by_cases hC : c < saved.length
      · rw [if_pos hC] at hSrc'
        exact (some.inj hSrc').symm
      · rw [if_neg hC, hNext.src c] at hSrc'
        exact hClearInv.src c row hSrc'
    · rw [hShape.nSeqMax, hShape.size]
      exact h.room
    · intro c cell hAt
      rw [hOwn c]
      exact hCell c cell hAt
    · intro c hC
      rw [hOwn c]
      exact (hBeyond c hC).1
    intro x
    rw [hNext.rsIdx]
    rfl

/-! ## Restoring one sequence -/

omit h in
theorem restoreBatch_fits (cell : SavedMemCell) (hLt : s < size)
    (hPos : 0 ≤ cell.pos) : Fits (restoreBatch s [cell]) size where
  some := cons_ne_nil _ _
  ids set hMem x hX := by
    rw [List.mem_singleton.mp hMem] at hX
    obtain rfl : x = s := List.mem_singleton.mp hX
    exact hLt
  disjoint := pairwise_singleton _ _
  pos set hMem := by
    rw [List.mem_singleton.mp hMem]
    exact hPos

omit h in
theorem findSlot_refused (mem : RecurrentMemory) (cell : SavedMemCell) (hLe : mem.size ≤ s) :
    ∃ mem', mem.findSlot (restoreBatch s [cell]) = some (false, mem') := by
  unfold findSlot
  dsimp only
  generalize hStart : (if mem.used + 2 * (restoreBatch s [cell]).seqs.length < mem.head then
    mem.setHead 0 else mem) = start
  have hSize : start.size = mem.size := by
    subst hStart
    split <;> rfl
  have hFit : start.fitSeqs (restoreBatch s [cell]).seqs = (false, start) := by
    exact if_pos (hSize ▸ hLe)
  rw [hFit]
  exact ⟨start, rfl⟩

theorem ownRows_one (hUsed : (mem.cells mem.head).seqId ≠ ∅) : mem.ownRows 1 = mem := by
  have hCells : (mem.ownRows 1).cells = mem.cells := by
    funext c
    show (if mem.head ≤ c ∧ c < mem.head + 1 then _ else mem.cells c : MemCell) = _
    by_cases hC : c = mem.head
    · rw [if_pos (by omega), hC, ← h.own mem.head hUsed]
    · rw [if_neg (by omega)]
  show { mem with cells := (mem.ownRows 1).cells } = mem
  rw [hCells]

theorem seqRm_shape (s p0 p1 : Int) : SameShape mem (mem.seqRm s p0 p1).2 := by
  have hOutcome := (seqRm_outcome h s p0 p1).1
  revert hOutcome
  generalize mem.seqRm s p0 p1 = r
  intro hOutcome
  cases hOutcome with
  | refused => exact .refl mem
  | rolledBack =>
    obtain ⟨hSize, hMax, hRs⟩ := (setRsIdx_cells _ _ _).2.2.2
    exact ⟨hSize, hMax, hRs⟩
  | dropped _ _ hDrop => exact hDrop.shape
  | missed _ _ _ hShape => exact hShape
  | all _ _ hShape => exact hShape

theorem Invariant.dropBefore (s : Nat) : Invariant (mem.seqRm s (-1) (-1)).2 := by
  refine h.seqRm fun hNeg => ?_
  omega

/-- One cell of one sequence is restored to a slot of its own. -/
theorem Invariant.readOne_slot (hLt : s < mem.size)
    {cell : SavedMemCell} (hPos : 0 ≤ cell.pos) (hIds : cell.ids = []) :
    ∃ m₀ π mem', Dropped (Coupled (restoreBatch s [cell]).seqs) (mem.seqRm s (-1) (-1)).2 m₀ ∧
      m₀.rsIdx = (mem.seqRm s (-1) (-1)).2.rsIdx ∧
      (mem.seqRm s (-1) (-1)).2.findSlot (restoreBatch s [cell]) = some (true, mem') ∧
      Slotted m₀ (restoreBatch s [cell]) π mem' ∧ mem.readOne s [cell] = .committed mem' := by
  have hRm := h.dropBefore s
  have hSize : (mem.seqRm s (-1) (-1)).2.size = mem.size := (seqRm_shape h s (-1) (-1)).size
  have hAgnostic : ¬ ∃ cell' ∈ [cell], cell'.ids ≠ [] := by
    rintro ⟨cell', hMem, hNe⟩
    rw [List.mem_singleton.mp hMem] at hNe
    exact hNe hIds
  unfold readOne
  dsimp only
  rw [if_neg hAgnostic]
  obtain ⟨m₀, π, mem', hDrop, hIdx, hFind, hSlot⟩ :=
    hRm.findSlot (restoreBatch_fits cell (hSize ▸ hLt) hPos)
  have hOwn := hSlot.own 0 { first := s, pos := [cell.pos] } rfl
  rw [Nat.add_zero] at hOwn
  have hMember : s ∈ (mem'.cells mem'.head).seqId := by
    rw [hOwn.1]
    exact mem_toFinset.mpr mem_cons_self
  have hFitsN : 1 ≤ mem'.n := hSlot.fits
  have hHigh := hSlot.high
  have hHolds : SlotHolds mem' s [cell] := by
    refine ⟨?_, hOwn.2, hOwn.2, hMember, hMember⟩
    rw [hSlot.shape.size]
    show mem'.head + 1 ≤ m₀.size
    omega
  rw [hFind]
  dsimp only
  rw [if_pos hHolds]
  exact ⟨m₀, π, mem', hDrop, hIdx, rfl, hSlot,
    congrArg ReadResult.committed (ownRows_one hSlot.inv (ne_empty_of_mem hMember))⟩

/-- How one sequence is restored: it is dropped, and gets a slot of its own if there is a
cell to restore. -/
theorem Invariant.readOne (s : Nat) (hSaved : SavedOne saved) :
    mem.readOne s saved = .failed ∨
      (saved = [] ∧ mem.readOne s saved = .committed (mem.seqRm s (-1) (-1)).2) ∨
      ∃ cell m₀ π mem', saved = [cell] ∧ s < mem.size ∧
        Dropped (Coupled (restoreBatch s [cell]).seqs) (mem.seqRm s (-1) (-1)).2 m₀ ∧
        m₀.rsIdx = (mem.seqRm s (-1) (-1)).2.rsIdx ∧
        Slotted m₀ (restoreBatch s [cell]) π mem' ∧ mem.readOne s saved = .committed mem' := by
  cases saved with
  | nil =>
    refine Or.inr (Or.inl ⟨rfl, ?_⟩)
    unfold RecurrentMemory.readOne
    exact if_pos rfl
  | cons cell rest =>
    obtain ⟨hLength, hEach⟩ := hSaved
    obtain rfl : rest = [] := eq_nil_of_length_eq_zero (by
      rw [length_cons] at hLength
      omega)
    obtain ⟨hPos, hIds⟩ := hEach cell mem_cons_self
    by_cases hLt : s < mem.size
    · obtain ⟨m₀, π, mem', hDrop, hIdx, _, hSlot, hRead⟩ := h.readOne_slot hLt hPos hIds
      exact Or.inr (Or.inr ⟨cell, m₀, π, mem', rfl, hLt, hDrop, hIdx, hSlot, hRead⟩)
    have hSize : (mem.seqRm s (-1) (-1)).2.size = mem.size := (seqRm_shape h s (-1) (-1)).size
    obtain ⟨mem', hRefused⟩ := findSlot_refused (mem.seqRm s (-1) (-1)).2 (s := s)
      cell (hSize ▸ not_lt.mp hLt)
    have hAgnostic : ¬ ∃ cell' ∈ [cell], cell'.ids ≠ [] := by
      rintro ⟨cell', hMem, hNe⟩
      rw [List.mem_singleton.mp hMem] at hNe
      exact hNe hIds
    unfold RecurrentMemory.readOne
    dsimp only
    rw [if_neg hAgnostic, hRefused]
    exact Or.inl rfl

/-! ## What `state_write` writes -/

variable {saved : SavedState}

omit h in
theorem stateWrite_some (h : mem.stateWrite q = some saved) :
    saved.cells = (mem.savedCells q).map (mem.savedCell q) ∧
      (mem.savedCells q).mapM (mem.savedRow q) = some saved.rows := by
  obtain ⟨rows, hRows, rfl⟩ := map_eq_some_iff.mp h
  exact ⟨rfl, hRows⟩

theorem mem_members {c x : Nat} : x ∈ mem.members c ↔ x ∈ (mem.cells c).seqId := by
  unfold members
  rw [List.mem_filter, List.mem_range, decide_eq_true_eq]
  refine ⟨fun hBoth => hBoth.2, fun hMember => ⟨?_, hMember⟩⟩
  exact (h.tail x c (h.member c x hMember).2).1

theorem savedAll_of_write (hWrite : mem.stateWrite none = some saved) : SavedAll saved.cells := by
  rw [(stateWrite_some hWrite).1]
  intro cell hMem
  obtain ⟨c, hC, rfl⟩ := mem_map.mp hMem
  have hUsed : (mem.cells c).seqId ≠ ∅ := of_decide_eq_true (mem_filter.mp hC).2
  obtain ⟨x, hX⟩ := nonempty_iff_ne_empty.mpr hUsed
  refine ⟨h.pos_of_tail (h.member c x hX).2, ?_⟩
  exact ne_nil_of_mem ((mem_members h).mpr hX)

theorem savedCells_one (s : Nat) :
    mem.savedCells (some s) = match (mem.cells s).tail with
      | some t => [t]
      | none => [] := by
  have hMem : ∀ c, c ∈ mem.savedCells (some s) ↔ (mem.cells s).tail = some c := by
    intro c
    unfold savedCells
    rw [List.mem_filter, List.mem_range]
    constructor
    · rintro ⟨_, hSaved⟩
      exact (h.member c s (of_decide_eq_true hSaved)).2
    · intro hTail
      exact ⟨h.tail_lt hTail, decide_eq_true (h.tail s c hTail).2⟩
  have hNodup : (mem.savedCells (some s)).Nodup := nodup_range.filter _
  cases hTail : (mem.cells s).tail with
  | none =>
    refine eq_nil_iff_forall_not_mem.mpr fun c hC => ?_
    rw [hMem, hTail] at hC
    cases hC
  | some t =>
    have hOnly : ∀ c ∈ mem.savedCells (some s), c = t := by
      intro c hC
      rw [hMem, hTail] at hC
      exact (some.inj hC).symm
    have hIn : t ∈ mem.savedCells (some s) := (hMem t).mpr hTail
    cases hList : mem.savedCells (some s) with
    | nil =>
      rw [hList] at hIn
      exact absurd hIn not_mem_nil
    | cons c rest =>
      rw [hList] at hOnly hNodup
      obtain rfl := hOnly c mem_cons_self
      cases rest with
      | nil => rfl
      | cons d rest =>
        have hSame := hOnly d (mem_cons_of_mem _ mem_cons_self)
        exact absurd (hSame ▸ mem_cons_self) (nodup_cons.mp hNodup).1

theorem savedOne_of_write (hWrite : mem.stateWrite (some s) = some saved) :
    SavedOne saved.cells := by
  rw [(stateWrite_some hWrite).1, savedCells_one h s]
  cases hTail : (mem.cells s).tail with
  | none => exact ⟨Nat.zero_le 1, fun cell hMem => absurd hMem not_mem_nil⟩
  | some t =>
    refine ⟨Nat.le_refl 1, fun cell hMem => ?_⟩
    rw [List.mem_singleton.mp hMem]
    exact ⟨h.pos_of_tail hTail, rfl⟩

/-! ## Runs -/

end RecurrentMemory

inductive RecurrentOp
  /-- `find_slot` -/
  | slot (u : RecurrentUbatch)
  | rm (s p0 p1 : Int)
  | rmCell (s : Int) (c : Nat)
  | cp (s d : Int)
  | keep (s : Int)
  | clear
  /-- a state that was written for `q` is restored for `dest` -/
  | read (q dest : Option Nat) (saved : SavedState)

namespace RecurrentMemory

variable {mem mem' : RecurrentMemory}

/-- The memory after an operation that does not abort. -/
def step (mem : RecurrentMemory) : RecurrentOp → Option RecurrentMemory
  | .slot u => (mem.findSlot u).map Prod.snd
  | .rm s p0 p1 => some (mem.seqRm s p0 p1).2
  | .rmCell s c => some (mem.seqRmCell s c).2
  | .cp s d => some (mem.seqCp s d)
  | .keep s => some (mem.seqKeep s)
  | .clear => some mem.clear
  | .read _ dest saved =>
    match mem.stateRead dest saved.cells with
    | .aborted => none
    | .failed => some mem
    | .committed mem => some mem

/-- The ubatches are those that the batch allocator makes. -/
def Legal (mem : RecurrentMemory) : RecurrentOp → Prop
  | .slot u => Fits u mem.size
  | _ => True

/-- The runs whose operations meet a condition. What is restored was written in such a run. -/
inductive Reachable (P : RecurrentOp → RecurrentMemory → Prop) : RecurrentMemory → Prop
  | start (size nSeqMax nRsSeq : Nat) (hRoom : nSeqMax ≤ size) :
      Reachable P (empty size nSeqMax nRsSeq)
  | step {mem mem' : RecurrentMemory} {op : RecurrentOp} (hRun : Reachable P mem)
      (hLocal : ∀ q dest saved, op ≠ .read q dest saved) (hLegal : Legal mem op)
      (hOp : P op mem) (hStep : mem.step op = some mem') : Reachable P mem'
  | read {mem from₀ mem' : RecurrentMemory} {q dest : Option Nat} {saved : SavedState}
      (hRun : Reachable P mem) (hFrom : Reachable P from₀)
      (hWrite : from₀.stateWrite q = some saved) (hOp : P (.read q dest saved) mem)
      (hStep : mem.step (.read q dest saved) = some mem') : Reachable P mem'

/-- A removal of all sequences only finds empty cells, and the state of one sequence is
not restored as that of all. -/
def Safe (op : RecurrentOp) (mem : RecurrentMemory) : Prop :=
  match op with
  | .rm s p0 p1 => RmSafe mem s p0 p1
  | .read q dest saved => dest = none → q = none ∨ saved.cells = []
  | _ => True

theorem Invariant.setRsIdx (h : Invariant mem) (s idx : Nat) : Invariant (mem.setRsIdx s idx) := by
  obtain ⟨hCells, hUsed, hHead, hShape⟩ := setRsIdx_cells mem s idx
  exact h.of_cells hCells hUsed hHead hShape

/-- Restoring a written state neither aborts nor breaks the invariant. -/
theorem Invariant.stateRead (h : Invariant mem) {dest : Option Nat}
    (hAll : q = none → SavedAll saved) (hOne : ∀ s, q = some s → SavedOne saved)
    (hKind : dest = none → q = none ∨ saved = []) :
    mem.stateRead dest saved = .failed ∨
      ∃ mem', mem.stateRead dest saved = .committed mem' ∧ Invariant mem' := by
  cases dest with
  | none =>
    have hSaved : SavedAll saved := by
      rcases hKind rfl with hQ | rfl
      · exact hAll hQ
      · exact fun cell hMem => absurd hMem not_mem_nil
    unfold RecurrentMemory.stateRead
    dsimp only
    cases hRead : mem.readAll saved with
    | aborted =>
      unfold RecurrentMemory.readAll at hRead
      split at hRead
      · cases hRead
      · split at hRead <;> cases hRead
    | failed => exact Or.inl rfl
    | committed mem' =>
      have hInv := (h.readAll hSaved hRead).inv
      refine Or.inr ⟨_, rfl, ?_⟩
      split
      · exact hInv.of_cells rfl rfl rfl ⟨rfl, rfl, rfl⟩
      · exact hInv
  | some s =>
    unfold RecurrentMemory.stateRead
    dsimp only
    have hDone : ∀ mem', Invariant mem' →
        Invariant (if mem'.nRsSeq ≠ 0 then mem'.setRsIdx s 0 else mem') := by
      intro mem' hInv
      split
      · exact hInv.setRsIdx s 0
      · exact hInv
    by_cases hOneSaved : SavedOne saved
    · rcases h.readOne s hOneSaved with hFailed | ⟨_, hRead⟩ | ⟨_, _, _, mem', _, _, _, _, hSlot, hRead⟩
      · rw [hFailed]
        exact Or.inl rfl
      · rw [hRead]
        refine Or.inr ⟨_, rfl, hDone _ (h.seqRm fun hNeg => ?_)⟩
        omega
      · rw [hRead]
        exact Or.inr ⟨_, rfl, hDone _ hSlot.inv⟩
    have hQ : q = none := by
      cases q with
      | none => rfl
      | some s' => exact absurd (hOne s' rfl) hOneSaved
    have hNe : saved ≠ [] := by
      rintro rfl
      exact hOneSaved ⟨Nat.zero_le 1, fun cell hMem => absurd hMem not_mem_nil⟩
    obtain ⟨cell, hMem⟩ := exists_mem_of_ne_nil _ hNe
    have hIds : ∃ cell ∈ saved, cell.ids ≠ [] := ⟨cell, hMem, (hAll hQ cell hMem).2⟩
    have hFailed : mem.readOne s saved = .failed := by
      unfold RecurrentMemory.readOne
      rw [if_neg hNe, if_pos hIds]
    rw [hFailed]
    exact Or.inl rfl

variable {op : RecurrentOp}

/-- A legal and safe step does not abort and keeps the invariant. -/
theorem Invariant.step (h : Invariant mem) (hLegal : Legal mem op)
    (hSafe : Safe op mem) (hLocal : ∀ q dest saved, op ≠ .read q dest saved) :
    ∃ mem', mem.step op = some mem' ∧ Invariant mem' := by
  cases op with
  | slot u =>
    obtain ⟨_, _, mem', _, _, hFind, hSlot⟩ := h.findSlot hLegal
    refine ⟨mem', ?_, hSlot.inv⟩
    show (mem.findSlot u).map Prod.snd = some mem'
    rw [hFind]
    rfl
  | rm s p0 p1 => exact ⟨_, rfl, h.seqRm hSafe⟩
  | rmCell s c =>
    refine ⟨_, rfl, ?_⟩
    by_cases hRefused : s < 0 ∨ mem.size ≤ c ∨ s.toNat ∉ (mem.cells c).seqId
    · rw [seqRmCell_refused hRefused]
      exact h
    obtain ⟨hNeg, hRest⟩ := not_or.mp hRefused
    obtain ⟨hLt, hMember⟩ := not_or.mp hRest
    obtain ⟨mem', hStep, hDrop, _⟩ := h.seqRmCell hNeg hLt (not_not.mp hMember)
    rw [hStep]
    exact h.dropped hDrop
  | cp s d => exact ⟨_, rfl, h.seqCp s d⟩
  | keep s => exact ⟨_, rfl, h.dropped (h.seqKeep s).1⟩
  | clear => exact ⟨_, rfl, h.dropped h.clear⟩
  | read q dest saved => exact absurd rfl (hLocal q dest saved)

theorem Reachable.invariant (h : Reachable Safe mem) : Invariant mem := by
  induction h with
  | start size nSeqMax nRsSeq hRoom => exact invariant_empty hRoom
  | step _ hLocal hLegal hOp hStep ih =>
    obtain ⟨mem', hNext, hInv⟩ := ih.step hLegal hOp hLocal
    obtain rfl := some.inj (hStep.symm.trans hNext)
    exact hInv
  | @read mem from₀ mem' q dest saved _ _ hWrite hOp hStep ih ihFrom =>
    have hRead := ih.stateRead (fun hQ => savedAll_of_write ihFrom (hQ ▸ hWrite))
      (fun s hQ => savedOne_of_write ihFrom (hQ ▸ hWrite)) hOp
    dsimp only [RecurrentMemory.step] at hStep
    rcases hRead with hFailed | ⟨next, hCommitted, hInv⟩
    · rw [hFailed] at hStep
      exact some.inj hStep ▸ ih
    · rw [hCommitted] at hStep
      exact some.inj hStep ▸ hInv

/-- A sequence is a member of at most one cell, its tail; the used cells are counted; a cell with
members is copied from its own row. -/
structure Membership (mem : RecurrentMemory) : Prop where
  one : ∀ s c c', s ∈ (mem.cells c).seqId → s ∈ (mem.cells c').seqId → c = c'
  tail : ∀ s c, (mem.cells s).tail = some c ↔ s ∈ (mem.cells c).seqId
  used : mem.used = ((Finset.range mem.size).filter fun c => (mem.cells c).seqId ≠ ∅).card
  own : ∀ c, (mem.cells c).seqId ≠ ∅ → (mem.cells c).src = some c

theorem Invariant.members (h : Invariant mem) : Membership mem where
  one s c c' hC hC' :=
    some.inj ((h.member c s hC).2.symm.trans (h.member c' s hC').2)
  tail s c := ⟨fun hTail => (h.tail s c hTail).2, fun hMember => (h.member c s hMember).2⟩
  used := h.used
  own := h.own

/-- In every state of a safe run the membership invariant holds, `find_slot` finds a slot
for every ubatch without a failed assertion, and neither does a restored state make it
fail. -/
theorem Reachable.membership (h : Reachable Safe mem) :
    Membership mem ∧ (∀ u, Fits u mem.size → ∃ mem', mem.findSlot u = some (true, mem')) ∧
      ∀ from₀ q dest saved, Reachable Safe from₀ → from₀.stateWrite q = some saved →
        Safe (.read q dest saved) mem → mem.step (.read q dest saved) ≠ none := by
  refine ⟨h.invariant.members, fun u hFits => ?_, fun from₀ q dest saved hFrom hWrite hSafe => ?_⟩
  · obtain ⟨_, _, mem', _, _, hFind, _⟩ := h.invariant.findSlot hFits
    exact ⟨mem', hFind⟩
  dsimp only [RecurrentMemory.step]
  rcases h.invariant.stateRead (fun hQ => savedAll_of_write hFrom.invariant (hQ ▸ hWrite))
    (fun s hQ => savedOne_of_write hFrom.invariant (hQ ▸ hWrite)) hSafe with hFailed | ⟨_, hDone, _⟩
  · rw [hFailed]
    exact some_ne_none _
  · rw [hDone]
    exact some_ne_none _

/-- The memory after an operation, or the memory itself where the operation aborts. -/
def after (mem : RecurrentMemory) (op : RecurrentOp) : RecurrentMemory := (mem.step op).getD mem

theorem step_after (h : (mem.step op).isSome = true) : mem.step op = some (mem.after op) := by
  obtain ⟨mem', hStep⟩ := isSome_iff_exists.mp h
  rw [after, hStep]
  rfl

theorem Reachable.after {P : RecurrentOp → RecurrentMemory → Prop} (h : Reachable P mem)
    (op : RecurrentOp) (hLocal : ∀ q dest saved, op ≠ .read q dest saved)
    (hLegal : Legal mem op) (hOp : P op mem) (hSome : (mem.step op).isSome = true) :
    Reachable P (mem.after op) :=
  .step h hLocal hLegal hOp (step_after hSome)

/-- A ubatch with one token of one sequence. -/
def oneToken (s : Nat) (pos : Int) : RecurrentUbatch := { nSeqTokens := 1, seqs := [⟨s, [], [pos]⟩] }

theorem oneToken_fits {pos : Int} (hLt : s < size) (hPos : 0 ≤ pos) : Fits (oneToken s pos) size :=
  restoreBatch_fits ⟨pos, []⟩ hLt hPos

/-- Sequence `0` has a cell, which sequence `1` shares and leaves again by a token of its
own. -/
def sharedRun : RecurrentMemory :=
  (((empty 2 2 0).after (.slot (oneToken 0 0))).after (.cp 0 1)).after (.slot (oneToken 1 1))

/-- Each of the two sequences is the only member of its cell. -/
theorem sharedRun_membership :
    Membership sharedRun ∧
      (∀ u, Fits u sharedRun.size → ∃ mem', sharedRun.findSlot u = some (true, mem')) ∧
      ((sharedRun.cells 0).seqId = {0} ∧ (sharedRun.cells 1).seqId = {1}) := by
  have hSlot := (Reachable.start (P := Safe) 2 2 0 (Nat.le_refl 2)).after (.slot (oneToken 0 0))
    (fun _ _ _ hRead => nomatch hRead) (oneToken_fits (by decide) (by decide)) trivial
    (by decide)
  have hShared := hSlot.after (.cp 0 1) (fun _ _ _ hRead => nomatch hRead) trivial trivial rfl
  have hRun : Reachable Safe sharedRun :=
    hShared.after (.slot (oneToken 1 1)) (fun _ _ _ hRead => nomatch hRead)
      (oneToken_fits (by decide) (by decide)) trivial (by decide)
  exact ⟨hRun.membership.1, hRun.membership.2.1, by decide⟩

/-- Sequence `0` has a cell, and all sequences are removed. -/
def clearedRun : RecurrentMemory :=
  ((empty 1 1 0).after (.slot (oneToken 0 0))).after (.rm (-1) (-1) (-1))

/-- The removal of all sequences leaves the tail of sequence `0`, and its next token makes
an assertion of `find_slot` fail. -/
theorem clearedRun_aborts :
    ¬ ∀ mem, Reachable (fun _ _ => True) mem → Membership mem ∧
      ∀ u, Fits u mem.size → ∃ mem', mem.findSlot u = some (true, mem') := by
  intro hClaim
  have hSlot := (Reachable.start (P := fun _ _ => True) 1 1 0 (Nat.le_refl 1)).after
    (.slot (oneToken 0 0)) (fun _ _ _ hRead => nomatch hRead)
    (oneToken_fits (by decide) (by decide)) trivial (by decide)
  have hRun : Reachable (fun _ _ => True) clearedRun :=
    hSlot.after (.rm (-1) (-1) (-1)) (fun _ _ _ hRead => nomatch hRead) trivial trivial rfl
  have hAborts : (clearedRun.findSlot (oneToken 0 0)).isNone = true := by decide
  obtain ⟨mem', hFind⟩ := (hClaim clearedRun hRun).2 (oneToken 0 0)
    (oneToken_fits (by decide) (by decide))
  rw [hFind] at hAborts
  exact Bool.false_ne_true hAborts

end RecurrentMemory

end Beellama.Ports
