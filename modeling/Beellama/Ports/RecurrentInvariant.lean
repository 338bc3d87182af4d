import Beellama.Ports.RecurrentMemory

/-!
# What holds between two operations of the recurrent memory

The tails and the members of the cells say the same, a cell without members has no
position, and the row of a cell with members is its own (`Invariant`).  The operations
that remove sequences drop a set of sequences from all cells and free the cells that
lose all their members (`Dropped`); `Invariant.dropped` is what these have in common.
-/

namespace Beellama.Ports

open Beellama.Verified Option Finset RecurrentMemory

namespace RecurrentMemory

/-- The cells with members. -/
def usedCells (mem : RecurrentMemory) : Finset Nat :=
  (Finset.range mem.size).filter fun c => (mem.cells c).seqId ≠ ∅

/-- The cells of a memory between two operations. -/
structure Invariant (mem : RecurrentMemory) : Prop where
  member : ∀ c x, x ∈ (mem.cells c).seqId → c < mem.size ∧ (mem.cells x).tail = some c
  tail : ∀ x c, (mem.cells x).tail = some c → x < mem.size ∧ x ∈ (mem.cells c).seqId
  used : mem.used = mem.usedCells.card
  pos : ∀ c, (mem.cells c).seqId = ∅ ↔ (mem.cells c).pos < 0
  own : ∀ c, (mem.cells c).seqId ≠ ∅ → (mem.cells c).src = some c
  src : ∀ c row, (mem.cells c).src = some row → row = c
  head : mem.head = 0 ∨ mem.head < mem.size
  room : mem.nSeqMax ≤ mem.size

variable {size : Nat}

theorem invariant_empty {nSeqMax nRsSeq : Nat} (hRoom : nSeqMax ≤ size) :
    Invariant (empty size nSeqMax nRsSeq) where
  member _ _ hMember := absurd hMember (notMem_empty _)
  tail _ _ hTail := by cases hTail
  used := by simp [empty, usedCells]
  pos _ := ⟨fun _ => Int.negSucc_lt_zero 0, fun _ => rfl⟩
  own _ hUsed := absurd rfl hUsed
  src _ _ hSrc := by cases hSrc
  head := Or.inl rfl
  room := hRoom

variable {mem mem' : RecurrentMemory}

variable {x c : Nat}

theorem Invariant.tail_lt (h : Invariant mem) (hTail : (mem.cells x).tail = some c) :
    c < mem.size :=
  (h.member c x (h.tail x c hTail).2).1

theorem Invariant.src_of_tail (h : Invariant mem)
    (hTail : (mem.cells x).tail = some c) : (mem.cells c).src = some c :=
  h.own c (ne_empty_of_mem (h.tail x c hTail).2)

theorem Invariant.pos_of_tail (h : Invariant mem)
    (hTail : (mem.cells x).tail = some c) : 0 ≤ (mem.cells c).pos := by
  by_contra hNeg
  have hEmpty := (h.pos c).mpr (not_le.mp hNeg)
  exact ne_empty_of_mem (h.tail x c hTail).2 hEmpty

/-- The fields that the operations on cells leave. -/
structure SameShape (mem mem' : RecurrentMemory) : Prop where
  size : mem'.size = mem.size
  nSeqMax : mem'.nSeqMax = mem.nSeqMax
  nRsSeq : mem'.nRsSeq = mem.nRsSeq

theorem SameShape.refl (mem : RecurrentMemory) : SameShape mem mem := ⟨rfl, rfl, rfl⟩

variable {mem'' : RecurrentMemory}

theorem SameShape.trans (h : SameShape mem mem')
    (h' : SameShape mem' mem'') : SameShape mem mem'' :=
  ⟨h'.size.trans h.size, h'.nSeqMax.trans h.nSeqMax, h'.nRsSeq.trans h.nRsSeq⟩

/-- The sequences in `D` leave their cells; a cell that loses all its members is
freed. -/
structure Dropped (D : Nat → Prop) (mem mem' : RecurrentMemory) : Prop where
  shape : SameShape mem mem'
  seqId : ∀ c x, x ∈ (mem'.cells c).seqId ↔ x ∈ (mem.cells c).seqId ∧ ¬ D x
  gone : ∀ x, D x → (mem'.cells x).tail = none
  stays : ∀ x, ¬ D x → (mem'.cells x).tail = (mem.cells x).tail
  kept : ∀ c, (mem'.cells c).seqId ≠ ∅ →
    (mem'.cells c).pos = (mem.cells c).pos ∧ (mem'.cells c).src = (mem.cells c).src
  freed : ∀ c, (mem'.cells c).seqId = ∅ →
    (mem'.cells c).pos < 0 ∧
      ((mem'.cells c).src = none ∨
        (mem.cells c).seqId = ∅ ∧ (mem'.cells c).src = (mem.cells c).src)
  used : mem'.used = mem'.usedCells.card
  head : mem'.head = 0 ∨ mem'.head < mem'.size

variable {D : Nat → Prop}

theorem Invariant.dropped (h : Invariant mem) (hDrop : Dropped D mem mem') : Invariant mem' where
  member c x hMember := by
    obtain ⟨hOld, hStays⟩ := (hDrop.seqId c x).mp hMember
    rw [hDrop.shape.size, hDrop.stays x hStays]
    exact h.member c x hOld
  tail x c hTail := by
    by_cases hGone : D x
    · rw [hDrop.gone x hGone] at hTail
      cases hTail
    rw [hDrop.stays x hGone] at hTail
    rw [hDrop.shape.size]
    exact ⟨(h.tail x c hTail).1, (hDrop.seqId c x).mpr ⟨(h.tail x c hTail).2, hGone⟩⟩
  used := hDrop.used
  pos c := by
    refine ⟨fun hEmpty => (hDrop.freed c hEmpty).1, fun hNeg => ?_⟩
    by_contra hUsed
    rw [(hDrop.kept c hUsed).1] at hNeg
    obtain ⟨x, hMember⟩ := nonempty_iff_ne_empty.mpr hUsed
    have hOld := ((hDrop.seqId c x).mp hMember).1
    rw [(h.pos c).mpr hNeg] at hOld
    exact notMem_empty x hOld
  own c hUsed := by
    rw [(hDrop.kept c hUsed).2]
    obtain ⟨x, hMember⟩ := nonempty_iff_ne_empty.mpr hUsed
    exact h.own c (ne_empty_of_mem ((hDrop.seqId c x).mp hMember).1)
  src c row hSrc := by
    by_cases hEmpty : (mem'.cells c).seqId = ∅
    · rcases (hDrop.freed c hEmpty).2 with hNone | ⟨_, hSame⟩
      · rw [hNone] at hSrc
        cases hSrc
      · exact h.src c row (hSame ▸ hSrc)
    · exact h.src c row ((hDrop.kept c hEmpty).2 ▸ hSrc)
  head := hDrop.head
  room := by
    rw [hDrop.shape.size, hDrop.shape.nSeqMax]
    exact h.room

variable {D' : Nat → Prop}

theorem Dropped.trans (h : Dropped D mem mem')
    (h' : Dropped D' mem' mem'') : Dropped (fun x => D x ∨ D' x) mem mem'' where
  shape := h.shape.trans h'.shape
  seqId c x := by
    rw [h'.seqId, h.seqId, not_or, and_assoc]
  gone x hGone := by
    by_cases hLater : D' x
    · exact h'.gone x hLater
    · rw [h'.stays x hLater]
      exact h.gone x (hGone.resolve_right hLater)
  stays x hStays := by
    obtain ⟨hFirst, hLater⟩ := not_or.mp hStays
    rw [h'.stays x hLater, h.stays x hFirst]
  kept c hUsed := by
    obtain ⟨x, hMember⟩ := nonempty_iff_ne_empty.mpr hUsed
    have hBefore := h.kept c (ne_empty_of_mem ((h'.seqId c x).mp hMember).1)
    exact ⟨(h'.kept c hUsed).1.trans hBefore.1, (h'.kept c hUsed).2.trans hBefore.2⟩
  freed c hEmpty := by
    obtain ⟨hNeg, hSrc⟩ := h'.freed c hEmpty
    refine ⟨hNeg, ?_⟩
    rcases hSrc with hNone | ⟨hEmpty', hSame⟩
    · exact Or.inl hNone
    rcases (h.freed c hEmpty').2 with hNone | ⟨hOld, hOldSame⟩
    · exact Or.inl (hSame.trans hNone)
    · exact Or.inr ⟨hOld, hSame.trans hOldSame⟩
  used := h'.used
  head := h'.head

theorem Dropped.congr (h : Dropped D mem mem') (hSame : ∀ x, D x ↔ D' x) : Dropped D' mem mem' := by
  have hEq : D = D' := funext fun x => propext (hSame x)
  exact hEq ▸ h

/-- The start may differ in what the cells do not say. -/
theorem Dropped.of_start {start : RecurrentMemory} (h : Dropped D start mem')
    (hCells : start.cells = mem.cells) (hShape : SameShape mem start) : Dropped D mem mem' where
  shape := hShape.trans h.shape
  seqId := hCells ▸ h.seqId
  gone := h.gone
  stays := hCells ▸ h.stays
  kept := hCells ▸ h.kept
  freed := hCells ▸ h.freed
  used := h.used
  head := h.head

/-- Counting down the cells that are freed. -/
theorem card_filter_sub {n : Nat} {p q q' : Nat → Prop} [DecidablePred p] [DecidablePred q]
    [DecidablePred q'] (hFreed : ∀ i < n, p i → q i) (hRest : ∀ i < n, q' i ↔ q i ∧ ¬ p i) :
    ((Finset.range n).filter q).card - ((Finset.range n).filter p).card =
      ((Finset.range n).filter q').card := by
  have hSub : (range n).filter p ⊆ (range n).filter q := by
    intro i hI
    obtain ⟨hLt, hP⟩ := mem_filter.mp hI
    exact mem_filter.mpr ⟨hLt, hFreed i (mem_range.mp hLt) hP⟩
  rw [← card_sdiff_of_subset hSub]
  congr 1
  ext i
  simp only [mem_sdiff, mem_filter, mem_range]
  constructor
  · rintro ⟨⟨hLt, hQ⟩, hNot⟩
    exact ⟨hLt, (hRest i hLt).mpr ⟨hQ, fun hP => hNot ⟨hLt, hP⟩⟩⟩
  rintro ⟨hLt, hQ'⟩
  obtain ⟨hQ, hP⟩ := (hRest i hLt).mp hQ'
  exact ⟨⟨hLt, hQ⟩, fun hBoth => hP hBoth.2⟩

/-! ## The simple setters -/

theorem onCell_same (mem : RecurrentMemory) (i : Nat) (f : MemCell → MemCell) :
    (mem.onCell i f).cells i = f (mem.cells i) :=
  Function.update_self ..

theorem onCell_other (mem : RecurrentMemory) {i j : Nat} (f : MemCell → MemCell) (h : j ≠ i) :
    (mem.onCell i f).cells j = mem.cells j :=
  Function.update_of_ne h ..

theorem onCell_cells (mem : RecurrentMemory) (i : Nat) (f : MemCell → MemCell) (j : Nat) :
    (mem.onCell i f).cells j = if j = i then f (mem.cells j) else mem.cells j := by
  by_cases hCell : j = i
  · rw [hCell, onCell_same, if_pos rfl]
  · rw [onCell_other _ _ hCell, if_neg hCell]

theorem setTail_cells (mem : RecurrentMemory) (s : Nat) (t : Option Nat) (c : Nat) :
    (mem.setTail s t).cells c =
      { mem.cells c with tail := if c = s then t else (mem.cells c).tail } := by
  rw [setTail, onCell_cells]
  split <;> rfl

theorem setTail_tail (mem : RecurrentMemory) (s x : Nat) (t : Option Nat) :
    ((mem.setTail s t).cells x).tail = if x = s then t else (mem.cells x).tail := by
  rw [setTail_cells]

theorem setTail_seqId (mem : RecurrentMemory) (s c : Nat) (t : Option Nat) :
    ((mem.setTail s t).cells c).seqId = (mem.cells c).seqId := by
  rw [setTail_cells]

theorem onCell_pos (mem : RecurrentMemory) (t : Nat) (pos : Int) (c : Nat) :
    (mem.onCell t fun cell => { cell with pos := pos }).cells c =
      { mem.cells c with pos := if c = t then pos else (mem.cells c).pos } := by
  rw [onCell_cells]
  split <;> rfl

theorem onCell_seqId (mem : RecurrentMemory) (t : Nat) (f : Finset Nat → Finset Nat) (c : Nat) :
    (mem.onCell t fun cell => { cell with seqId := f cell.seqId }).cells c =
      { mem.cells c with seqId := if c = t then f (mem.cells c).seqId else (mem.cells c).seqId } := by
  rw [onCell_cells]
  split <;> rfl

@[simp] theorem setUsed_cells (mem : RecurrentMemory) (k : Nat) :
    (mem.setUsed k).cells = mem.cells := rfl

@[simp] theorem setHead_cells (mem : RecurrentMemory) (k : Nat) :
    (mem.setHead k).cells = mem.cells := rfl

theorem enter_cells (mem : RecurrentMemory) (s t c : Nat) :
    ((mem.onCell t fun cell => { cell with seqId := insert s cell.seqId }).setTail s
      (some t)).cells c =
      { mem.cells c with
        tail := if c = s then some t else (mem.cells c).tail
        seqId := if c = t then insert s (mem.cells c).seqId else (mem.cells c).seqId } := by
  rw [setTail_cells, onCell_seqId]

theorem entered_cons (v : MemCell) (s i c : Nat) (rest : List Nat) :
    (if c ∈ rest then some i else if c = s then some i else v.tail) =
        (if c ∈ s :: rest then some i else v.tail) ∧
      (if c = i then (if c = i then insert s v.seqId else v.seqId) ∪ rest.toFinset
        else if c = i then insert s v.seqId else v.seqId) =
        if c = i then v.seqId ∪ (s :: rest).toFinset else v.seqId := by
  constructor
  · by_cases hIn : c ∈ rest <;> by_cases hOwn : c = s <;> simp [hIn, hOwn]
  · by_cases hCell : c = i <;> simp [hCell]

theorem onCell_shape (mem : RecurrentMemory) (i : Nat) (f : MemCell → MemCell) :
    SameShape mem (mem.onCell i f) := ⟨rfl, rfl, rfl⟩

theorem setRsIdx_cells (mem : RecurrentMemory) (s idx : Nat) :
    (mem.setRsIdx s idx).cells = mem.cells ∧ (mem.setRsIdx s idx).used = mem.used ∧
      (mem.setRsIdx s idx).head = mem.head ∧ SameShape mem (mem.setRsIdx s idx) := by
  unfold setRsIdx
  split
  · exact ⟨rfl, rfl, rfl, .refl mem⟩
  · exact ⟨rfl, rfl, rfl, rfl, rfl, rfl⟩

variable {d : Nat}

theorem setRsIdx_other (mem : RecurrentMemory) (idx : Nat) (hX : x ≠ d) :
    (mem.setRsIdx d idx).rsIdx x = mem.rsIdx x := by
  unfold setRsIdx
  split
  · rfl
  · exact Function.update_of_ne hX ..

variable (h : Invariant mem)

include h

/-- What only depends on the cells, the counters and the shape. -/
theorem Invariant.of_cells (hCells : mem'.cells = mem.cells)
    (hUsed : mem'.used = mem.used) (hHead : mem'.head = mem.head)
    (hShape : SameShape mem mem') : Invariant mem' where
  member c x hMember := by
    rw [hCells] at hMember ⊢
    rw [hShape.size]
    exact h.member c x hMember
  tail x c hTail := by
    rw [hCells] at hTail ⊢
    rw [hShape.size]
    exact h.tail x c hTail
  used := by
    rw [hUsed, h.used, usedCells, usedCells, hCells, hShape.size]
  pos c := by
    rw [hCells]
    exact h.pos c
  own c := by
    rw [hCells]
    exact h.own c
  src c := by
    rw [hCells]
    exact h.src c
  head := by
    rw [hHead, hShape.size]
    exact h.head
  room := by
    rw [hShape.size, hShape.nSeqMax]
    exact h.room

variable {t : Nat}

theorem Invariant.setPos {cells : Nat → MemCell} {pos : Int}
    (hTail : (cells x).tail = some t) (hCells : mem.cells = cells) (hPos : 0 ≤ pos) :
    Invariant (mem.onCell t fun cell => { cell with pos := pos }) := by
  subst hCells
  have hSame := onCell_pos mem t pos
  refine ⟨?_, ?_, ?_, ?_, ?_, ?_, h.head, h.room⟩
  · intro c y hMember
    rw [hSame] at hMember ⊢
    exact h.member c y hMember
  · intro y c hY
    rw [hSame] at hY ⊢
    exact h.tail y c hY
  · show mem.used = _
    rw [h.used]
    congr 1
    refine filter_congr fun c _ => ?_
    rw [hSame]
  · intro c
    rw [hSame]
    by_cases hCell : c = t
    · rw [if_pos hCell, hCell]
      refine ⟨fun hEmpty => ?_, fun hNeg => absurd hNeg (not_lt.mpr hPos)⟩
      exact absurd hEmpty (ne_empty_of_mem (h.tail x t hTail).2)
    show _ ↔ (if c = t then pos else _) < 0
    rw [if_neg hCell]
    exact h.pos c
  · intro c hUsed
    rw [hSame] at hUsed ⊢
    exact h.own c hUsed
  intro c row hSrc
  rw [hSame] at hSrc
  exact h.src c row hSrc

/-! ## `clear` -/

theorem Invariant.clear : Dropped (fun _ => True) mem mem.clear := by
  have hSeq : ∀ c, (mem.clear.cells c).seqId = ∅ := by
    intro c
    show (if c < mem.size then _ else mem.cells c : MemCell).seqId = ∅
    split
    · rfl
    rename_i hBeyond
    refine eq_empty_of_forall_notMem fun x hMember => ?_
    exact hBeyond (h.member c x hMember).1
  have hCell : ∀ c, (mem.clear.cells c).pos < 0 ∧ ((mem.clear.cells c).src = none ∨
      (mem.cells c).seqId = ∅ ∧ (mem.clear.cells c).src = (mem.cells c).src) := by
    intro c
    have hEmpty := hSeq c
    have hClear : mem.clear.cells c = if c < mem.size then
        { mem.cells c with pos := -1, seqId := ∅, src := none, tail := none }
      else mem.cells c := rfl
    rw [hClear] at hEmpty ⊢
    split at hEmpty
    · rename_i hLt
      rw [if_pos hLt]
      exact ⟨Int.negSucc_lt_zero 0, Or.inl rfl⟩
    rename_i hBeyond
    rw [if_neg hBeyond]
    exact ⟨(h.pos c).mp hEmpty, Or.inr ⟨hEmpty, rfl⟩⟩
  refine ⟨⟨rfl, rfl, rfl⟩, ?_, ?_, ?_, ?_, fun c _ => hCell c, ?_, Or.inl rfl⟩
  · intro c x
    rw [hSeq c]
    exact ⟨fun hMember => absurd hMember (notMem_empty x), fun hBoth => absurd trivial hBoth.2⟩
  · intro x _
    show (if x < mem.size then _ else mem.cells x : MemCell).tail = none
    split
    · rfl
    rename_i hBeyond
    cases hTail : (mem.cells x).tail with
    | none => rfl
    | some c => exact absurd (h.tail x c hTail).1 hBeyond
  · intro x hStays
    exact absurd trivial hStays
  · intro c hUsed
    exact absurd (hSeq c) hUsed
  · refine (card_eq_zero.mpr ?_).symm
    exact filter_eq_empty_iff.mpr fun c _ => not_not.mpr (hSeq c)

/-! ## Dropping one sequence -/

/-- The cells when sequence `s` has left its tail `t`. -/
def dropOne (mem : RecurrentMemory) (s t c : Nat) : MemCell :=
  let cell := mem.cells c
  let rest := cell.seqId.erase s
  { cell with
    tail := if c = s then none else cell.tail
    seqId := if c = t then rest else cell.seqId
    pos := if c = t ∧ rest = ∅ then -1 else cell.pos
    src := if c = t ∧ rest = ∅ then none else cell.src }

variable {s : Nat}

theorem Invariant.dropOne (hTail : (mem.cells s).tail = some t)
    (hShape : SameShape mem mem') (hCells : ∀ c, mem'.cells c = dropOne mem s t c)
    (hUsed : mem'.used = if (mem.cells t).seqId.erase s = ∅ then mem.used - 1 else mem.used)
    (hHead : mem'.head = 0 ∨ mem'.head < mem'.size) : Dropped (· = s) mem mem' := by
  have hMember : s ∈ (mem.cells t).seqId := (h.tail s t hTail).2
  have hSeq : ∀ c x, x ∈ (mem'.cells c).seqId ↔ x ∈ (mem.cells c).seqId ∧ x ≠ s := by
    intro c x
    rw [hCells c]
    show x ∈ (if c = t then _ else _) ↔ _
    by_cases hCell : c = t
    · rw [if_pos hCell, mem_erase, and_comm]
    rw [if_neg hCell]
    refine ⟨fun hIn => ⟨hIn, ?_⟩, fun hBoth => hBoth.1⟩
    rintro rfl
    exact hCell (some.inj ((h.member c x hIn).2.symm.trans hTail))
  refine ⟨hShape, hSeq, ?_, ?_, ?_, ?_, ?_, hHead⟩
  · intro x hGone
    rw [hCells x]
    exact if_pos hGone
  · intro x hStays
    rw [hCells x]
    exact if_neg hStays
  · intro c hStill
    rw [hCells c] at hStill ⊢
    have hNot : ¬ (c = t ∧ (mem.cells c).seqId.erase s = ∅) := by
      rintro ⟨hCell, hRest⟩
      exact hStill ((if_pos hCell).trans hRest)
    exact ⟨if_neg hNot, if_neg hNot⟩
  · intro c hEmpty
    rw [hCells c] at hEmpty ⊢
    by_cases hCell : c = t
    · have hRest : (mem.cells c).seqId.erase s = ∅ := (if_pos hCell).symm.trans hEmpty
      have hPos : (RecurrentMemory.dropOne mem s t c).pos = -1 := if_pos ⟨hCell, hRest⟩
      rw [hPos]
      exact ⟨Int.negSucc_lt_zero 0, Or.inl (if_pos ⟨hCell, hRest⟩)⟩
    have hOld : (mem.cells c).seqId = ∅ := (if_neg hCell).symm.trans hEmpty
    have hNot : ¬ (c = t ∧ (mem.cells c).seqId.erase s = ∅) := fun hBoth => hCell hBoth.1
    have hPos : (RecurrentMemory.dropOne mem s t c).pos = (mem.cells c).pos := if_neg hNot
    rw [hPos]
    exact ⟨(h.pos c).mp hOld, Or.inr ⟨hOld, if_neg hNot⟩⟩
  -- the cells that are used afterwards: all but `t`, if `t` is freed
  have hOthers : ∀ c, c ≠ t → (mem'.cells c).seqId = (mem.cells c).seqId := by
    intro c hCell
    rw [hCells c]
    exact if_neg hCell
  have hAt : (mem'.cells t).seqId = (mem.cells t).seqId.erase s := by
    rw [hCells t]
    exact if_pos rfl
  rw [hUsed, h.used]
  unfold usedCells
  rw [hShape.size]
  by_cases hRest : (mem.cells t).seqId.erase s = ∅
  · have hFreed : ∀ c < mem.size, c = t → (mem.cells c).seqId ≠ ∅ := by
      rintro c _ rfl
      exact ne_empty_of_mem hMember
    have hRestUsed : ∀ c < mem.size,
        (mem'.cells c).seqId ≠ ∅ ↔ (mem.cells c).seqId ≠ ∅ ∧ ¬ c = t := by
      intro c _
      by_cases hCell : c = t
      · rw [hCell, hAt]
        exact ⟨fun hUsed => absurd hRest hUsed, fun hBoth => absurd rfl hBoth.2⟩
      · rw [hOthers c hCell]
        exact ⟨fun hUsed => ⟨hUsed, hCell⟩, fun hBoth => hBoth.1⟩
    rw [if_pos hRest, ← card_filter_sub hFreed hRestUsed, filter_eq',
      if_pos (mem_range.mpr (h.tail_lt hTail)), card_singleton]
  rw [if_neg hRest]
  congr 1
  refine filter_congr fun c _ => ?_
  by_cases hCell : c = t
  · rw [hCell, hAt]
    exact ⟨fun _ => hRest, fun _ => ne_empty_of_mem hMember⟩
  · rw [hOthers c hCell]

omit h in
theorem release_cells (mem : RecurrentMemory) (s t c : Nat) :
    (mem.release s t).cells c = dropOne mem s t c := by
  unfold release dropOne
  by_cases hRest : (mem.cells t).seqId.erase s = ∅
  · rw [if_pos hRest, setUsed_cells, onCell_cells, setTail_cells, onCell_cells]
    by_cases hCell : c = t
    · simp [hCell, hRest]
    · simp [hCell]
  dsimp only
  rw [if_neg hRest, setTail_cells, onCell_cells]
  by_cases hCell : c = t
  · simp [hCell, hRest]
  · simp [hCell]

omit h in
theorem release_shape (mem : RecurrentMemory) (s t : Nat) :
    SameShape mem (mem.release s t) ∧ (mem.release s t).head = mem.head ∧
      (mem.release s t).rsIdx = mem.rsIdx := by
  unfold release
  dsimp only
  split <;> exact ⟨⟨rfl, rfl, rfl⟩, rfl, rfl⟩

theorem Invariant.release (hTail : (mem.cells s).tail = some t) :
    Dropped (· = s) mem (mem.release s t) := by
  refine h.dropOne hTail (release_shape mem s t).1 (release_cells mem s t) ?_ ?_
  · unfold RecurrentMemory.release
    dsimp only
    split <;> rfl
  · rw [(release_shape mem s t).2.1, (release_shape mem s t).1.size]
    exact h.head

theorem Invariant.dropped_none (hShape : SameShape mem mem')
    (hCells : mem'.cells = mem.cells) (hUsed : mem'.used = mem.used)
    (hHead : mem'.head = 0 ∨ mem'.head < mem'.size) : Dropped (fun _ => False) mem mem' where
  shape := hShape
  seqId c x := by
    rw [hCells]
    exact ⟨fun hMember => ⟨hMember, id⟩, fun hBoth => hBoth.1⟩
  gone _ hGone := absurd hGone id
  stays x _ := by rw [hCells]
  kept c _ := by
    rw [hCells]
    exact ⟨rfl, rfl⟩
  freed c hEmpty := by
    rw [hCells] at hEmpty ⊢
    exact ⟨(h.pos c).mp hEmpty, Or.inr ⟨hEmpty, rfl⟩⟩
  used := by
    rw [hUsed, h.used, usedCells, usedCells, hCells, hShape.size]
  head := hHead

theorem Invariant.releaseTail (s : Nat) :
    Dropped (· = s) mem (mem.releaseTail s) ∧ ((mem.releaseTail s).cells s).tail = none := by
  unfold RecurrentMemory.releaseTail
  cases hTail : (mem.cells s).tail with
  | none =>
    refine ⟨?_, hTail⟩
    have hSame := h.dropped_none (.refl mem) rfl rfl h.head
    refine ⟨hSame.shape, ?_, ?_, fun _ _ => rfl, hSame.kept, hSame.freed, hSame.used, hSame.head⟩
    · intro c x
      refine ⟨fun hMember => ⟨hMember, ?_⟩, fun hBoth => hBoth.1⟩
      rintro rfl
      rw [(h.member c x hMember).2] at hTail
      cases hTail
    · rintro x rfl
      exact hTail
  | some t =>
    have hDrop := h.release hTail
    exact ⟨hDrop, hDrop.gone s rfl⟩

/-! ## The loop of `seq_rm` -/

omit h

/-- What a turn of the loop does to its cell. -/
def rmCell (s p0 p1 : Int) (cell : MemCell) : MemCell :=
  if p0 ≤ cell.pos ∧ cell.pos < p1 ∧ (s < 0 ∨ s.toNat ∈ cell.seqId) then
    let rest := if s < 0 then ∅ else cell.seqId.erase s.toNat
    if rest = ∅ then { cell with seqId := rest, pos := -1, src := none }
    else { cell with seqId := rest }
  else cell

/-- The turn frees its cell, which has a position. -/
def RmFrees (s p0 p1 : Int) (cell : MemCell) : Prop :=
  (p0 ≤ cell.pos ∧ cell.pos < p1 ∧ (s < 0 ∨ s.toNat ∈ cell.seqId)) ∧
    (if s < 0 then ∅ else cell.seqId.erase s.toNat) = (∅ : Finset Nat) ∧ 0 ≤ cell.pos

instance (s p0 p1 : Int) (cell : MemCell) : Decidable (RmFrees s p0 p1 cell) := by
  unfold RmFrees
  infer_instance

theorem rmTurn_cells (s p0 p1 : Int) (st : RecurrentMemory × Nat) (i j : Nat) :
    (rmTurn s p0 p1 st i).1.cells j =
      if j = i then rmCell s p0 p1 (st.1.cells j) else st.1.cells j := by
  unfold rmTurn rmCell
  by_cases hRange : p0 ≤ (st.1.cells i).pos ∧ (st.1.cells i).pos < p1 ∧
      (s < 0 ∨ s.toNat ∈ (st.1.cells i).seqId)
  · rw [if_pos hRange]
    by_cases hRest : (if s < 0 then ∅ else (st.1.cells i).seqId.erase s.toNat) = (∅ : Finset Nat)
    · rw [if_pos hRest, setUsed_cells, onCell_cells]
      refine if_ctx_congr Iff.rfl (fun hCell => ?_) fun _ => rfl
      rw [hCell, if_pos hRange, if_pos hRest]
    rw [if_neg hRest, onCell_cells]
    refine if_ctx_congr Iff.rfl (fun hCell => ?_) fun _ => rfl
    rw [hCell, if_pos hRange, if_neg hRest]
  rw [if_neg hRange]
  split
  · rename_i hCell
    rw [hCell, if_neg hRange]
  · rfl

theorem rmTurn_used (s p0 p1 : Int) (st : RecurrentMemory × Nat) (i : Nat) :
    (rmTurn s p0 p1 st i).1.used =
      if RmFrees s p0 p1 (st.1.cells i) then st.1.used - 1 else st.1.used := by
  unfold rmTurn
  by_cases hRange : p0 ≤ (st.1.cells i).pos ∧ (st.1.cells i).pos < p1 ∧
      (s < 0 ∨ s.toNat ∈ (st.1.cells i).seqId)
  · rw [if_pos hRange]
    by_cases hRest : (if s < 0 then ∅ else (st.1.cells i).seqId.erase s.toNat) = (∅ : Finset Nat)
    · rw [if_pos hRest]
      by_cases hPos : 0 ≤ (st.1.cells i).pos
      · rw [if_pos (show RmFrees s p0 p1 _ from ⟨hRange, hRest, hPos⟩)]
        exact if_pos hPos
      · rw [if_neg fun hAll : RmFrees s p0 p1 _ => hPos hAll.2.2]
        exact if_neg hPos
    · rw [if_neg hRest, if_neg fun hAll : RmFrees s p0 p1 _ => hRest hAll.2.1]
      rfl
  · rw [if_neg hRange, if_neg fun hAll : RmFrees s p0 p1 _ => hRange hAll.1]

/-- What every turn leaves alone, and the index of the first freed cell. -/
theorem rmTurn_keeps (s p0 p1 : Int) (mem : RecurrentMemory) :
    let r := sweep (rmTurn s p0 p1) mem.size (mem, mem.size)
    SameShape mem r.1 ∧ r.1.head = mem.head ∧ r.1.rsIdx = mem.rsIdx ∧ r.2 ≤ mem.size := by
  refine sweep_keeps (P := fun r : RecurrentMemory × Nat =>
    SameShape mem r.1 ∧ r.1.head = mem.head ∧ r.1.rsIdx = mem.rsIdx ∧ r.2 ≤ mem.size)
    ⟨.refl mem, rfl, rfl, Nat.le_refl _⟩ ?_
  intro st i hLt ⟨hShape, hHead, hIdx, hFirst⟩
  unfold rmTurn
  dsimp only
  generalize (if s < 0 then ∅ else (st.1.cells i).seqId.erase s.toNat) = rest
  split
  · split
    · refine ⟨hShape.trans ⟨rfl, rfl, rfl⟩, hHead, hIdx, ?_⟩
      show (if st.2 = st.1.size then i else st.2) ≤ mem.size
      split
      · exact Nat.le_of_lt hLt
      · exact hFirst
    · exact ⟨hShape.trans ⟨rfl, rfl, rfl⟩, hHead, hIdx, hFirst⟩
  · exact ⟨hShape, hHead, hIdx, hFirst⟩

theorem move_head (r : RecurrentMemory × Nat) (size : Nat) :
    let mem' := if r.2 ≠ size ∧ r.2 < r.1.head then r.1.setHead r.2 else r.1
    SameShape r.1 mem' ∧ mem'.cells = r.1.cells ∧ mem'.used = r.1.used ∧
      mem'.rsIdx = r.1.rsIdx ∧ mem'.head ≤ r.1.head := by
  split
  · rename_i hMove
    exact ⟨⟨rfl, rfl, rfl⟩, rfl, rfl, rfl, Nat.le_of_lt hMove.2⟩
  · exact ⟨.refl _, rfl, rfl, rfl, Nat.le_refl _⟩

theorem rmCells_shape (mem : RecurrentMemory) (s p0 p1 : Int) :
    SameShape mem (mem.rmCells s p0 p1) ∧ (mem.rmCells s p0 p1).head ≤ mem.head ∧
      (mem.rmCells s p0 p1).rsIdx = mem.rsIdx := by
  obtain ⟨hShape, hHead, hIdx, _⟩ := rmTurn_keeps s p0 p1 mem
  obtain ⟨hShape', _, _, hIdx', hHead'⟩ :=
    move_head (sweep (rmTurn s p0 p1) mem.size (mem, mem.size)) mem.size
  exact ⟨hShape.trans hShape', hHead ▸ hHead', hIdx'.trans hIdx⟩

theorem rmCells_cells (mem : RecurrentMemory) (s p0 p1 : Int) (c : Nat) :
    (mem.rmCells s p0 p1).cells c =
      if c < mem.size then rmCell s p0 p1 (mem.cells c) else mem.cells c := by
  have hMove := (move_head (sweep (rmTurn s p0 p1) mem.size (mem, mem.size)) mem.size).2.1
  refine (congrFun hMove c).trans ?_
  exact sweep_get (fun st : RecurrentMemory × Nat => st.1.cells) (fun _ => rmCell s p0 p1)
    (fun st i => (rmTurn_cells s p0 p1 st i i).trans (if_pos rfl))
    (fun st i j hNe => (rmTurn_cells s p0 p1 st i j).trans (if_neg hNe)) mem.size (mem, mem.size) c

theorem rmCells_used (mem : RecurrentMemory) (s p0 p1 : Int) :
    (mem.rmCells s p0 p1).used =
      mem.used - ((Finset.range mem.size).filter fun c => RmFrees s p0 p1 (mem.cells c)).card := by
  have hMove := (move_head (sweep (rmTurn s p0 p1) mem.size (mem, mem.size)) mem.size).2.2.1
  refine hMove.trans ?_
  exact sweep_count (fun st : RecurrentMemory × Nat => st.1.cells) (fun _ => rmCell s p0 p1)
    (fun st i => (rmTurn_cells s p0 p1 st i i).trans (if_pos rfl))
    (fun st i j hNe => (rmTurn_cells s p0 p1 st i j).trans (if_neg hNe))
    (fun st => st.1.used) (fun _ => RmFrees s p0 p1) (rmTurn_used s p0 p1) mem.size
    (mem, mem.size)

/-- The range of positions takes the last position of a sequence. -/
def TakesTail (mem : RecurrentMemory) (s : Nat) (p0 p1 : Int) : Prop :=
  ∃ t, (mem.cells s).tail = some t ∧ p0 ≤ (mem.cells t).pos ∧ (mem.cells t).pos < p1

variable {p0 p1 : Int} {cell : MemCell}

theorem rmCell_other
    (h : ¬ (p0 ≤ cell.pos ∧ cell.pos < p1 ∧ s ∈ cell.seqId)) : rmCell s p0 p1 cell = cell := by
  unfold rmCell
  rw [if_neg]
  rintro ⟨hLow, hHigh, hNeg | hMember⟩
  · exact absurd hNeg (by omega)
  · exact h ⟨hLow, hHigh, hMember⟩

theorem rmFrees_other
    (h : ¬ (p0 ≤ cell.pos ∧ cell.pos < p1 ∧ s ∈ cell.seqId)) : ¬ RmFrees s p0 p1 cell := by
  rintro ⟨⟨hLow, hHigh, hNeg | hMember⟩, _⟩
  · exact absurd hNeg (by omega)
  · exact h ⟨hLow, hHigh, hMember⟩

/-- The loop drops the sequence from its tail if the range takes its last position; the
tail was forgotten before. -/
theorem Invariant.rmCells_taken (h : Invariant mem)
    (hTail : (mem.cells s).tail = some t) (hLow : p0 ≤ (mem.cells t).pos)
    (hHigh : (mem.cells t).pos < p1) :
    Dropped (· = s) mem ((mem.setTail s none).rmCells s p0 p1) := by
  have hMember : s ∈ (mem.cells t).seqId := (h.tail s t hTail).2
  have hSet := setTail_cells mem s none
  have hElse : ∀ c, c ≠ t → s ∉ ((mem.setTail s none).cells c).seqId := by
    intro c hNe hIn
    rw [hSet c] at hIn
    exact hNe (some.inj ((h.member c s hIn).2.symm.trans hTail))
  have hNotNeg : ¬ (s : Int) < 0 := by omega
  obtain ⟨hShape, hHead, _⟩ := rmCells_shape (mem.setTail s none) s p0 p1
  refine h.dropOne hTail ((onCell_shape ..).trans hShape) ?_ ?_ ?_
  · intro c
    rw [rmCells_cells]
    by_cases hCell : c = t
    · have hIn : p0 ≤ ((mem.setTail s none).cells c).pos ∧
          ((mem.setTail s none).cells c).pos < p1 ∧
          ((s : Int) < 0 ∨ (s : Int).toNat ∈ ((mem.setTail s none).cells c).seqId) := by
        rw [hSet c, hCell]
        exact ⟨hLow, hHigh, Or.inr hMember⟩
      have hLt : c < (mem.setTail s none).size := hCell ▸ h.tail_lt hTail
      rw [if_pos hLt, rmCell, if_pos hIn]
      rw [hSet c]
      unfold RecurrentMemory.dropOne
      by_cases hRest : (mem.cells c).seqId.erase s = ∅
      · simp [hCell, hCell ▸ hRest]
      · simp [hCell, hCell ▸ hRest]
    rw [rmCell_other fun hAll => hElse c hCell hAll.2.2, hSet c]
    unfold RecurrentMemory.dropOne
    simp [hCell]
  · rw [rmCells_used]
    have hOnly : ∀ c ∈ range mem.size, RmFrees s p0 p1 ((mem.setTail s none).cells c) ↔
        c = t ∧ (mem.cells t).seqId.erase s = ∅ := by
      intro c _
      constructor
      · intro hFrees
        have hCell : c = t := by
          by_contra hCell
          exact rmFrees_other (fun hAll => hElse c hCell hAll.2.2) hFrees
        have hRest := hFrees.2.1
        rw [if_neg hNotNeg, hSet c, hCell] at hRest
        exact ⟨hCell, hRest⟩
      rintro ⟨rfl, hRest⟩
      rw [hSet]
      exact ⟨⟨hLow, hHigh, Or.inr hMember⟩, (if_neg hNotNeg).trans hRest, h.pos_of_tail hTail⟩
    show mem.used - ((range mem.size).filter _).card = _
    rw [filter_congr hOnly]
    by_cases hRest : (mem.cells t).seqId.erase s = ∅
    · simp [hRest, h.tail_lt hTail]
    · simp [hRest]
  rw [hShape.size]
  rcases h.head with hZero | hLt
  · exact Or.inl (Nat.le_zero.mp (Nat.le_trans hHead (Nat.le_of_eq hZero)))
  · exact Or.inr (Nat.lt_of_le_of_lt hHead hLt)

/-- The loop leaves the cells alone when the range does not take the last position. -/
theorem Invariant.rmCells_missed (h : Invariant mem) (hMiss : ¬ TakesTail mem s p0 p1) :
    (mem.rmCells s p0 p1).cells = mem.cells ∧ (mem.rmCells s p0 p1).used = mem.used := by
  have hNone : ∀ c, ¬ (p0 ≤ (mem.cells c).pos ∧ (mem.cells c).pos < p1 ∧
      s ∈ (mem.cells c).seqId) := by
    rintro c ⟨hLow, hHigh, hMember⟩
    exact hMiss ⟨c, (h.member c s hMember).2, hLow, hHigh⟩
  constructor
  · funext c
    rw [rmCells_cells, rmCell_other (hNone c), ite_self]
  · rw [rmCells_used, filter_false_of_mem fun c _ => rmFrees_other (hNone c)]
    rfl

/-! ## `seq_rm` -/

/-- The rollback indices after `seq_rm` has looked at the range. -/
def rmRsIdx (mem : RecurrentMemory) (s p0 p1 : Int) : Nat → Nat :=
  if p0 = 0 ∧ p1 = posLimit then (mem.resetRsIdx s).rsIdx else mem.rsIdx

/-- What `seq_rm` can do, for a range without negative ends. -/
inductive RmOutcome (mem : RecurrentMemory) (s p0 p1 : Int) : Bool × RecurrentMemory → Prop
  | refused : RmOutcome mem s p0 p1 (false, mem)
  /-- the rollback to a snapshot -/
  | rolledBack {x t : Nat} (hSeq : s = x) (hTail : (mem.cells x).tail = some t)
      (hCuts : CutsOff p0 p1 (mem.cells t).pos)
      (hBound : (mem.cells t).pos - (p0 - 1) ≤ mem.nRsSeq) :
      RmOutcome mem s p0 p1 (true,
        (mem.setRsIdx x ((mem.cells t).pos - (p0 - 1)).toNat).onCell t fun cell =>
          { cell with pos := p0 - 1 })
  | dropped {x : Nat} {mem' : RecurrentMemory} (hSeq : s = x) (hTakes : TakesTail mem x p0 p1)
      (hDrop : Dropped (· = x) mem mem') (hIdx : mem'.rsIdx = mem.rmRsIdx s p0 p1) :
      RmOutcome mem s p0 p1 (true, mem')
  /-- the range misses the last position -/
  | missed {x : Nat} {mem' : RecurrentMemory} (hSeq : s = x) (hLt : x < mem.size)
      (hMiss : ¬ TakesTail mem x p0 p1) (hShape : SameShape mem mem')
      (hCells : mem'.cells = mem.cells) (hUsed : mem'.used = mem.used)
      (hHead : mem'.head ≤ mem.head) (hIdx : mem'.rsIdx = mem.rmRsIdx s p0 p1) :
      RmOutcome mem s p0 p1 (true, mem')
  /-- the range of all sequences is empty or everything -/
  | all {mem' : RecurrentMemory} (hNeg : s < 0) (hRange : p0 = p1 ∨ p0 = 0 ∧ p1 = posLimit)
      (hShape : SameShape mem mem')
      (hCells : ∀ c, mem'.cells c =
        if c < mem.size then rmCell s p0 p1 (mem.cells c) else mem.cells c)
      (hUsed : mem'.used = mem.used -
        ((Finset.range mem.size).filter fun c => RmFrees s p0 p1 (mem.cells c)).card)
      (hHead : mem'.head ≤ mem.head) (hIdx : mem'.rsIdx = mem.rmRsIdx s p0 p1) :
      RmOutcome mem s p0 p1 (true, mem')

theorem resetRsIdx_cells (mem : RecurrentMemory) (s : Int) :
    (mem.resetRsIdx s).cells = mem.cells ∧ (mem.resetRsIdx s).used = mem.used ∧
      (mem.resetRsIdx s).head = mem.head ∧ SameShape mem (mem.resetRsIdx s) := by
  unfold resetRsIdx
  split
  · exact setRsIdx_cells mem _ 0
  · exact ⟨rfl, rfl, rfl, rfl, rfl, rfl⟩

theorem rmStart_cells (mem : RecurrentMemory) (s p0 p1 : Int) :
    (mem.rmStart s p0 p1).cells = mem.cells ∧ (mem.rmStart s p0 p1).used = mem.used ∧
      (mem.rmStart s p0 p1).head = mem.head ∧ SameShape mem (mem.rmStart s p0 p1) ∧
      (mem.rmStart s p0 p1).rsIdx = mem.rmRsIdx s p0 p1 := by
  unfold rmStart rmRsIdx
  split
  · obtain ⟨hCells, hUsed, hHead, hShape⟩ := resetRsIdx_cells mem s
    exact ⟨hCells, hUsed, hHead, hShape, rfl⟩
  · exact ⟨rfl, rfl, rfl, .refl mem, rfl⟩

theorem canSeqRm_of_tail {s : Int} (hSize : ¬ (mem.size : Int) ≤ s) (hNeg : ¬ s < 0)
    (hTail : (mem.cells s.toNat).tail = some t)
    (hCuts : CutsOff (rangeStart p0) (rangeEnd p1) (mem.cells t).pos) :
    mem.canSeqRm s p0 p1 = decide (1 ≤ (mem.cells t).pos - (rangeStart p0 - 1) ∧
      (mem.cells t).pos - (rangeStart p0 - 1) ≤ mem.nRsSeq) := by
  unfold canSeqRm
  rw [if_neg hSize, if_neg hNeg, hTail]
  dsimp only
  rw [if_pos hCuts]

theorem Invariant.missed_outcome (h : Invariant mem)
    (hLt : x < mem.size) (hMiss : ¬ TakesTail mem x p0 p1) :
    RmOutcome mem x p0 p1 (true, (mem.rmStart x p0 p1).rmCells x p0 p1) := by
  obtain ⟨hCells, hUsed, hHead, hShape, hIdx⟩ := rmStart_cells mem x p0 p1
  have hMiss' : ¬ TakesTail (mem.rmStart x p0 p1) x p0 p1 := by
    unfold TakesTail
    rw [hCells]
    exact hMiss
  obtain ⟨hSame, hCount⟩ := (h.of_cells hCells hUsed hHead hShape).rmCells_missed hMiss'
  obtain ⟨hRmShape, hRmHead, hRmIdx⟩ := rmCells_shape (mem.rmStart x p0 p1) x p0 p1
  exact .missed rfl hLt hMiss (hShape.trans hRmShape) (hSame.trans hCells) (hCount.trans hUsed)
    (hHead ▸ hRmHead) (hRmIdx.trans hIdx)

theorem seqRm_outcome (h : Invariant mem) (s p0 p1 : Int) :
    RmOutcome mem s (rangeStart p0) (rangeEnd p1) (mem.seqRm s p0 p1) ∧
      (mem.seqRm s p0 p1).1 = mem.canSeqRm s p0 p1 := by
  unfold seqRm
  cases hCan : mem.canSeqRm s p0 p1 with
  | false => exact ⟨.refused, rfl⟩
  | true =>
    obtain ⟨hCells, hUsed, hHead, hShape, hIdx⟩ :=
      rmStart_cells mem s (rangeStart p0) (rangeEnd p1)
    have hStart : Invariant (mem.rmStart s (rangeStart p0) (rangeEnd p1)) :=
      h.of_cells hCells hUsed hHead hShape
    have hSize : ¬ (mem.size : Int) ≤ s := by
      intro hLe
      rw [canSeqRm, if_pos hLe] at hCan
      exact Bool.false_ne_true hCan
    dsimp only
    rw [hShape.size, if_neg hSize, hCells]
    by_cases hNeg : 0 ≤ s
    · obtain ⟨x, rfl⟩ := Int.eq_ofNat_of_zero_le hNeg
      have hLt : x < mem.size := by omega
      rw [Int.toNat_natCast]
      cases hTail : (mem.cells x).tail with
      | none =>
        have hMiss : ¬ TakesTail mem x (rangeStart p0) (rangeEnd p1) := by
          rintro ⟨t, hSome, _⟩
          rw [hTail] at hSome
          cases hSome
        exact ⟨h.missed_outcome hLt hMiss, rfl⟩
      | some t =>
        dsimp only
        by_cases hCuts : CutsOff (rangeStart p0) (rangeEnd p1) (mem.cells t).pos
        · rw [canSeqRm_of_tail hSize (not_lt.mpr hNeg) hTail hCuts] at hCan
          have hBound := of_decide_eq_true hCan
          have hNotAll : ¬ (rangeStart p0 = 0 ∧ rangeEnd p1 = posLimit) := by
            have hPos := hCuts.1
            omega
          have hSame : mem.rmStart x (rangeStart p0) (rangeEnd p1) = mem := if_neg hNotAll
          rw [if_pos hCuts, hSame, if_pos hBound]
          exact ⟨.rolledBack rfl hTail hCuts hBound.2, rfl⟩
        rw [if_neg hCuts]
        by_cases hTakes : rangeStart p0 ≤ (mem.cells t).pos ∧ (mem.cells t).pos < rangeEnd p1
        · rw [if_pos hTakes]
          have hTail' : ((mem.rmStart x (rangeStart p0) (rangeEnd p1)).cells x).tail = some t := by
            rw [hCells]
            exact hTail
          have hDrop := hStart.rmCells_taken hTail' (hCells ▸ hTakes.1) (hCells ▸ hTakes.2)
          have hRmIdx := (rmCells_shape ((mem.rmStart x (rangeStart p0) (rangeEnd p1)).setTail
            x none) x (rangeStart p0) (rangeEnd p1)).2.2
          refine ⟨.dropped rfl ⟨t, hTail, hTakes⟩ (hDrop.of_start hCells hShape)
            (hRmIdx.trans hIdx), rfl⟩
        rw [if_neg hTakes]
        have hMiss : ¬ TakesTail mem x (rangeStart p0) (rangeEnd p1) := by
          rintro ⟨u, hSome, hRange⟩
          obtain rfl : t = u := some.inj (hTail.symm.trans hSome)
          exact hTakes hRange
        exact ⟨h.missed_outcome hLt hMiss, rfl⟩
    have hBelow : s < 0 := not_le.mp hNeg
    have hRange : rangeStart p0 = rangeEnd p1 ∨
        rangeStart p0 = 0 ∧ rangeEnd p1 = posLimit := by
      rw [canSeqRm, if_neg hSize, if_pos hBelow] at hCan
      exact of_decide_eq_true hCan
    have hNotRefused : ¬ (rangeStart p0 ≠ rangeEnd p1 ∧
        (rangeStart p0 ≠ 0 ∨ rangeEnd p1 ≠ posLimit)) := by
      rintro ⟨hNe, hPart⟩
      rcases hRange with hEq | ⟨hZero, hAll⟩
      · exact hNe hEq
      · exact hPart.elim (fun hNot => hNot hZero) (fun hNot => hNot hAll)
    rw [if_neg hNeg, if_neg hNotRefused]
    obtain ⟨hRmShape, hRmHead, hRmIdx⟩ := rmCells_shape
      (mem.rmStart s (rangeStart p0) (rangeEnd p1)) s (rangeStart p0) (rangeEnd p1)
    refine ⟨.all hBelow hRange (hShape.trans hRmShape) ?_ ?_ (hHead ▸ hRmHead)
      (hRmIdx.trans hIdx), rfl⟩
    · intro c
      rw [rmCells_cells, hCells, hShape.size]
    · rw [rmCells_used, hCells, hShape.size, hUsed]

/-- A removal of all sequences only finds empty cells. -/
def RmSafe (mem : RecurrentMemory) (s p0 p1 : Int) : Prop :=
  s < 0 → rangeStart p0 = 0 → rangeEnd p1 = posLimit → ∀ c < mem.size, (mem.cells c).seqId = ∅

theorem head_of_le {head head' : Nat} (h : head = 0 ∨ head < size) (hLe : head' ≤ head) :
    head' = 0 ∨ head' < size := by
  omega

/-- A safe removal of all sequences leaves the cells alone. -/
theorem Invariant.rmAll_cells (h : Invariant mem) {s : Int} (hNeg : s < 0)
    (hSafe : RmSafe mem s p0 p1)
    (hRange : rangeStart p0 = rangeEnd p1 ∨ rangeStart p0 = 0 ∧ rangeEnd p1 = posLimit) (c : Nat)
    (hLt : c < mem.size) :
    ¬ (rangeStart p0 ≤ (mem.cells c).pos ∧ (mem.cells c).pos < rangeEnd p1) := by
  rcases hRange with hEq | ⟨hZero, hAll⟩
  · omega
  · have hPos := (h.pos c).mp (hSafe hNeg hZero hAll c hLt)
    omega

theorem Invariant.seqRm (h : Invariant mem) {s : Int} (hSafe : RmSafe mem s p0 p1) :
    Invariant (mem.seqRm s p0 p1).2 := by
  have hOutcome := (seqRm_outcome h s p0 p1).1
  revert hOutcome
  generalize mem.seqRm s p0 p1 = r
  intro hOutcome
  cases hOutcome with
  | refused => exact h
  | @rolledBack x t hSeq hTail hCuts hBound =>
    obtain ⟨hCells, hUsed, hHead, hShape⟩ :=
      setRsIdx_cells mem x ((mem.cells t).pos - (rangeStart p0 - 1)).toNat
    refine (h.of_cells hCells hUsed hHead hShape).setPos hTail hCells ?_
    have hStart := hCuts.1
    omega
  | dropped hSeq hTakes hDrop hIdx => exact h.dropped hDrop
  | missed hSeq hLt hMiss hShape hCells hUsed hHead hIdx =>
    have hHeadLt := head_of_le h.head hHead
    exact h.dropped (h.dropped_none hShape hCells hUsed (hShape.size ▸ hHeadLt))
  | @all mem' hNeg hRange hShape hCells hUsed hHead hIdx =>
    have hNone := fun c hLt => h.rmAll_cells hNeg hSafe hRange c hLt
    have hSame : mem'.cells = mem.cells := by
      funext c
      rw [hCells c]
      split
      · rename_i hLt
        rw [rmCell, if_neg fun hAll => hNone c hLt ⟨hAll.1, hAll.2.1⟩]
      · rfl
    have hCount : mem'.used = mem.used := by
      rw [hUsed, filter_false_of_mem fun c hC hFrees =>
        hNone c (mem_range.mp hC) ⟨hFrees.1.1, hFrees.1.2.1⟩]
      rfl
    have hHeadLt := head_of_le h.head hHead
    exact h.dropped (h.dropped_none hShape hSame hCount (hShape.size ▸ hHeadLt))

/-! ## `seq_rm_cell` -/

theorem seqRmCell_refused {s : Int} (h : s < 0 ∨ mem.size ≤ c ∨ s.toNat ∉ (mem.cells c).seqId) :
    mem.seqRmCell s c = (false, mem) := by
  unfold seqRmCell
  by_cases hRange : s < 0 ∨ mem.size ≤ c
  · rw [if_pos hRange]
  rw [if_neg hRange]
  rw [if_pos]
  obtain ⟨hNeg, hLe⟩ := not_or.mp hRange
  exact (h.resolve_left hNeg).resolve_left hLe

theorem Invariant.seqRmCell (h : Invariant mem) {s : Int} (hNeg : ¬ s < 0)
    (hLt : ¬ mem.size ≤ c) (hMember : s.toNat ∈ (mem.cells c).seqId) :
    ∃ mem', mem.seqRmCell s c = (true, mem') ∧ Dropped (· = s.toNat) mem mem' ∧
      mem'.rsIdx = mem.rsIdx := by
  have hTail : (mem.cells s.toNat).tail = some c := (h.member c s.toNat hMember).2
  have hSeqLt : s.toNat < mem.size := (h.tail _ _ hTail).1
  unfold RecurrentMemory.seqRmCell
  dsimp only
  rw [if_neg (not_or.mpr ⟨hNeg, hLt⟩), if_neg (not_not.mpr hMember)]
  generalize hLeft : (if (mem.cells c).seqId.erase s.toNat = ∅ then
      ((mem.onCell c fun cell =>
        { cell with seqId := (mem.cells c).seqId.erase s.toNat, pos := -1, src := none }).setUsed
        (if 0 ≤ (mem.cells c).pos then mem.used - 1 else mem.used)).setHead
          (if c < mem.head then c else mem.head)
    else mem.onCell c fun cell => { cell with seqId := (mem.cells c).seqId.erase s.toNat }) = left
  have hCells : ∀ d, left.cells d = { mem.cells d with
      seqId := if d = c then (mem.cells d).seqId.erase s.toNat else (mem.cells d).seqId
      pos := if d = c ∧ (mem.cells d).seqId.erase s.toNat = ∅ then -1 else (mem.cells d).pos
      src := if d = c ∧ (mem.cells d).seqId.erase s.toNat = ∅ then none
        else (mem.cells d).src } := by
    intro d
    subst hLeft
    by_cases hRest : (mem.cells c).seqId.erase s.toNat = ∅
    · rw [if_pos hRest, setHead_cells, setUsed_cells, onCell_cells]
      by_cases hCell : d = c <;> simp [hCell, hRest]
    · rw [if_neg hRest, onCell_cells]
      by_cases hCell : d = c <;> simp [hCell, hRest]
  have hRestOf : SameShape mem left ∧ left.rsIdx = mem.rsIdx ∧
      left.used = (if (mem.cells c).seqId.erase s.toNat = ∅ then mem.used - 1 else mem.used) ∧
      left.head ≤ mem.head := by
    subst hLeft
    by_cases hRest : (mem.cells c).seqId.erase s.toNat = ∅
    · rw [if_pos hRest, if_pos hRest, if_pos (h.pos_of_tail hTail)]
      refine ⟨⟨rfl, rfl, rfl⟩, rfl, rfl, ?_⟩
      show (if c < mem.head then c else mem.head) ≤ mem.head
      split <;> omega
    · rw [if_neg hRest, if_neg hRest]
      exact ⟨⟨rfl, rfl, rfl⟩, rfl, rfl, Nat.le_refl _⟩
  obtain ⟨hShape, hIdx, hUsed, hHead⟩ := hRestOf
  have hTail' : (left.cells s.toNat).tail = some c := by
    rw [hCells]
    exact hTail
  rw [hShape.size, if_pos ⟨hSeqLt, hTail'⟩]
  refine ⟨_, rfl, h.dropOne hTail (hShape.trans (onCell_shape ..)) ?_ hUsed ?_, hIdx⟩
  · intro d
    rw [setTail_cells, hCells, RecurrentMemory.dropOne]
  · exact hShape.size ▸ head_of_le h.head hHead

/-! ## `seq_keep` -/

/-- What a turn of the loop does to its cell. -/
def keepCell (s : Int) (i : Nat) (cell : MemCell) : MemCell :=
  if s < 0 ∨ s.toNat ∉ cell.seqId then
    { cell with
      tail := if (i : Int) ≠ s then none else cell.tail
      pos := -1
      src := none
      seqId := ∅ }
  else { cell with tail := if (i : Int) ≠ s then none else cell.tail, seqId := {s.toNat} }

theorem forgetTail_cells (mem : RecurrentMemory) (s : Int) (i j : Nat) :
    (mem.forgetTail s i).cells j =
      { mem.cells j with tail := if j = i ∧ (i : Int) ≠ s then none else (mem.cells j).tail } := by
  unfold forgetTail
  by_cases hOwn : (i : Int) ≠ s
  · rw [if_pos hOwn, setTail_cells]
    simp [hOwn]
  · rw [if_neg hOwn, if_neg fun hBoth => hOwn hBoth.2]

theorem forgetTail_shape (mem : RecurrentMemory) (s : Int) (i : Nat) :
    SameShape mem (mem.forgetTail s i) ∧ (mem.forgetTail s i).used = mem.used ∧
      (mem.forgetTail s i).head = mem.head ∧ (mem.forgetTail s i).rsIdx = mem.rsIdx := by
  unfold forgetTail
  split
  · exact ⟨⟨rfl, rfl, rfl⟩, rfl, rfl, rfl⟩
  · exact ⟨.refl mem, rfl, rfl, rfl⟩

theorem keepTurn_cells (s : Int) (st : RecurrentMemory × Nat) (i j : Nat) :
    (keepTurn s st i).1.cells j =
      if j = i then keepCell s i (st.1.cells j) else st.1.cells j := by
  unfold keepTurn keepCell
  dsimp only
  rw [forgetTail_cells]
  by_cases hGone : s < 0 ∨ s.toNat ∉ (st.1.cells i).seqId
  · rw [if_pos hGone, setUsed_cells, onCell_cells, forgetTail_cells]
    by_cases hCell : j = i <;> simp [hCell, hGone]
  · rw [if_neg hGone, onCell_cells, forgetTail_cells]
    by_cases hCell : j = i <;> simp [hCell, hGone]

theorem keepTurn_used (s : Int) (st : RecurrentMemory × Nat) (i : Nat) :
    (keepTurn s st i).1.used =
      if (s < 0 ∨ s.toNat ∉ (st.1.cells i).seqId) ∧ 0 ≤ (st.1.cells i).pos then st.1.used - 1
      else st.1.used := by
  have hUsed : (st.1.forgetTail s i).used = st.1.used := (forgetTail_shape st.1 s i).2.1
  unfold keepTurn
  dsimp only
  rw [forgetTail_cells, hUsed]
  by_cases hGone : s < 0 ∨ s.toNat ∉ (st.1.cells i).seqId
  · rw [if_pos hGone]
    by_cases hNonneg : 0 ≤ (st.1.cells i).pos
    · rw [if_pos hNonneg]
      exact (if_pos ⟨hGone, hNonneg⟩).symm
    · rw [if_neg hNonneg]
      exact (if_neg fun hBoth => hNonneg hBoth.2).symm
  · rw [if_neg hGone]
    exact hUsed.trans (if_neg fun hBoth => hGone hBoth.1).symm

theorem keepTurn_keeps (s : Int) (mem : RecurrentMemory) :
    let r := sweep (keepTurn s) mem.size (mem, mem.size)
    SameShape mem r.1 ∧ r.1.head = mem.head ∧ r.1.rsIdx = mem.rsIdx := by
  refine sweep_keeps (P := fun r : RecurrentMemory × Nat =>
    SameShape mem r.1 ∧ r.1.head = mem.head ∧ r.1.rsIdx = mem.rsIdx) ⟨.refl mem, rfl, rfl⟩ ?_
  intro st i hLt ⟨hShape, hHead, hIdx⟩
  obtain ⟨hForget, _, hForgetHead, hForgetIdx⟩ := forgetTail_shape st.1 s i
  unfold keepTurn
  dsimp only
  split
  · exact ⟨(hShape.trans hForget).trans ⟨rfl, rfl, rfl⟩, hForgetHead.trans hHead,
      hForgetIdx.trans hIdx⟩
  · exact ⟨(hShape.trans hForget).trans ⟨rfl, rfl, rfl⟩, hForgetHead.trans hHead,
      hForgetIdx.trans hIdx⟩

theorem Invariant.seqKeep (h : Invariant mem) (s : Int) :
    Dropped (fun x => (x : Int) ≠ s) mem (mem.seqKeep s) ∧ (mem.seqKeep s).rsIdx = mem.rsIdx := by
  obtain ⟨hShape, hHead, hIdx⟩ := keepTurn_keeps s mem
  obtain ⟨hMoveShape, hMoveCells, hMoveUsed, hMoveIdx, hMoveHead⟩ :=
    move_head (sweep (keepTurn s) mem.size (mem, mem.size)) mem.size
  have hFinal : SameShape mem (mem.seqKeep s) := hShape.trans hMoveShape
  have hCells : ∀ c, (mem.seqKeep s).cells c =
      if c < mem.size then keepCell s c (mem.cells c) else mem.cells c := by
    intro c
    refine (congrFun hMoveCells c).trans ?_
    exact sweep_get (fun st : RecurrentMemory × Nat => st.1.cells) (keepCell s)
      (fun st i => (keepTurn_cells s st i i).trans (if_pos rfl))
      (fun st i j hNe => (keepTurn_cells s st i j).trans (if_neg hNe)) mem.size (mem, mem.size) c
  have hSeq : ∀ c x, x ∈ ((mem.seqKeep s).cells c).seqId ↔
      x ∈ (mem.cells c).seqId ∧ ¬ (x : Int) ≠ s := by
    intro c x
    rw [hCells c]
    by_cases hLt : c < mem.size
    · rw [if_pos hLt, keepCell]
      by_cases hGone : s < 0 ∨ s.toNat ∉ (mem.cells c).seqId
      · rw [if_pos hGone]
        refine ⟨fun hIn => absurd hIn (notMem_empty x), fun ⟨hIn, hSame⟩ => ?_⟩
        have hX : (x : Int) = s := not_not.mp hSame
        subst hX
        rcases hGone with hNeg | hOut
        · omega
        · exact absurd hIn hOut
      rw [if_neg hGone]
      obtain ⟨hNonneg, hIn⟩ := not_or.mp hGone
      rw [mem_singleton]
      constructor
      · rintro rfl
        exact ⟨not_not.mp hIn, by omega⟩
      · omega
    · rw [if_neg hLt]
      exact ⟨fun hIn => absurd (h.member c x hIn).1 hLt, fun hBoth => hBoth.1⟩
  have hTails : ∀ x, ((mem.seqKeep s).cells x).tail =
      if (x : Int) ≠ s then none else (mem.cells x).tail := by
    intro x
    rw [hCells x]
    by_cases hLt : x < mem.size
    · rw [if_pos hLt, keepCell]
      split <;> rfl
    rw [if_neg hLt]
    cases hTail : (mem.cells x).tail with
    | none => rw [ite_self]
    | some c => exact absurd (h.tail x c hTail).1 hLt
  refine ⟨⟨hFinal, hSeq, fun x hGone => (hTails x).trans (if_pos hGone),
    fun x hStays => (hTails x).trans (if_neg hStays), ?_, ?_, ?_, ?_⟩, hMoveIdx.trans hIdx⟩
  · intro c hUsed
    rw [hCells c] at hUsed ⊢
    by_cases hLt : c < mem.size
    · rw [if_pos hLt, keepCell] at hUsed ⊢
      by_cases hGone : s < 0 ∨ s.toNat ∉ (mem.cells c).seqId
      · rw [if_pos hGone] at hUsed
        exact absurd rfl hUsed
      · rw [if_neg hGone]
        exact ⟨rfl, rfl⟩
    · rw [if_neg hLt]
      exact ⟨rfl, rfl⟩
  · intro c hEmpty
    rw [hCells c] at hEmpty ⊢
    by_cases hLt : c < mem.size
    · rw [if_pos hLt, keepCell] at hEmpty ⊢
      by_cases hGone : s < 0 ∨ s.toNat ∉ (mem.cells c).seqId
      · rw [if_pos hGone]
        exact ⟨Int.negSucc_lt_zero 0, Or.inl rfl⟩
      · rw [if_neg hGone] at hEmpty
        exact absurd hEmpty (singleton_ne_empty _)
    · rw [if_neg hLt] at hEmpty ⊢
      exact ⟨(h.pos c).mp hEmpty, Or.inr ⟨hEmpty, rfl⟩⟩
  · have hCount : (mem.seqKeep s).used = mem.used - ((range mem.size).filter fun c =>
        (s < 0 ∨ s.toNat ∉ (mem.cells c).seqId) ∧ 0 ≤ (mem.cells c).pos).card := by
      refine hMoveUsed.trans ?_
      exact sweep_count (fun st : RecurrentMemory × Nat => st.1.cells) (keepCell s)
        (fun st i => (keepTurn_cells s st i i).trans (if_pos rfl))
        (fun st i j hNe => (keepTurn_cells s st i j).trans (if_neg hNe))
        (fun st => st.1.used)
        (fun _ cell => (s < 0 ∨ s.toNat ∉ cell.seqId) ∧ 0 ≤ cell.pos)
        (keepTurn_used s) mem.size (mem, mem.size)
    rw [hCount, h.used]
    unfold usedCells
    rw [hFinal.size]
    refine card_filter_sub ?_ ?_
    · intro c _ hFreed hEmpty
      have hNeg := (h.pos c).mp hEmpty
      omega
    intro c hLt
    rw [hCells c, if_pos hLt, keepCell]
    by_cases hGone : s < 0 ∨ s.toNat ∉ (mem.cells c).seqId
    · rw [if_pos hGone]
      refine ⟨fun hUsed => absurd rfl hUsed, fun ⟨hUsed, hNot⟩ => absurd ⟨hGone, ?_⟩ hNot⟩
      exact not_lt.mp fun hNeg => hUsed ((h.pos c).mpr hNeg)
    rw [if_neg hGone]
    refine ⟨fun _ => ⟨?_, fun hBoth => hGone hBoth.1⟩, fun _ => singleton_ne_empty _⟩
    exact ne_empty_of_mem (not_not.mp (not_or.mp hGone).2)
  · rw [hFinal.size]
    exact head_of_le h.head (hHead ▸ hMoveHead)

/-! ## `seq_cp` -/

theorem Invariant.join (h : Invariant mem) (hTail : (mem.cells s).tail = some t)
    (hNone : (mem.cells d).tail = none) (hLt : d < mem.size) :
    Invariant ((mem.onCell t fun cell => { cell with seqId := insert d cell.seqId }).setTail
      d (some t)) := by
  have hCells := enter_cells mem d t
  have hMember : s ∈ (mem.cells t).seqId := (h.tail s t hTail).2
  have hEmpty : ∀ c, (if c = t then insert d (mem.cells c).seqId else (mem.cells c).seqId) = ∅ ↔
      (mem.cells c).seqId = ∅ := by
    intro c
    by_cases hCell : c = t
    · rw [if_pos hCell, hCell]
      exact ⟨fun hNot => absurd hNot (insert_ne_empty _ _),
        fun hNot => absurd hNot (ne_empty_of_mem hMember)⟩
    · rw [if_neg hCell]
  refine ⟨?_, ?_, ?_, ?_, ?_, ?_, h.head, h.room⟩
  · intro c x hIn
    rw [hCells] at hIn ⊢
    have hIn' : x ∈ (if c = t then insert d (mem.cells c).seqId else (mem.cells c).seqId) := hIn
    show c < mem.size ∧ (if x = d then some t else (mem.cells x).tail) = some c
    by_cases hOwn : x = d
    · have hCell : c = t := by
        by_contra hCell
        rw [if_neg hCell, hOwn] at hIn'
        rw [(h.member c d hIn').2] at hNone
        cases hNone
      rw [if_pos hOwn, hCell]
      exact ⟨h.tail_lt hTail, rfl⟩
    rw [if_neg hOwn]
    refine h.member c x ?_
    by_cases hCell : c = t
    · rw [if_pos hCell] at hIn'
      exact mem_of_mem_insert_of_ne hIn' hOwn
    · rwa [if_neg hCell] at hIn'
  · intro x c hX
    rw [hCells] at hX ⊢
    have hX' : (if x = d then some t else (mem.cells x).tail) = some c := hX
    show x < mem.size ∧ x ∈ (if c = t then insert d (mem.cells c).seqId else (mem.cells c).seqId)
    by_cases hOwn : x = d
    · rw [if_pos hOwn] at hX'
      rw [if_pos (some.inj hX').symm, hOwn]
      exact ⟨hLt, mem_insert_self _ _⟩
    rw [if_neg hOwn] at hX'
    refine ⟨(h.tail x c hX').1, ?_⟩
    split
    · exact mem_insert_of_mem (h.tail x c hX').2
    · exact (h.tail x c hX').2
  · show mem.used = _
    rw [h.used]
    unfold usedCells
    congr 1
    refine filter_congr fun c _ => ?_
    rw [hCells]
    exact not_congr (hEmpty c).symm
  · intro c
    rw [hCells]
    exact (hEmpty c).trans (h.pos c)
  · intro c hUsed
    rw [hCells] at hUsed ⊢
    exact h.own c fun hNot => hUsed ((hEmpty c).mpr hNot)
  intro c row hSrc
  rw [hCells] at hSrc
  exact h.src c row hSrc

/-- What `seq_cp` can do. -/
inductive CpOutcome (mem : RecurrentMemory) : RecurrentMemory → Prop
  | same : CpOutcome mem mem
  /-- the source has no cell to share -/
  | left {d : Nat} {mem' : RecurrentMemory} (hDrop : Dropped (· = d) mem mem')
      (hIdx : mem'.rsIdx = mem.rsIdx) : CpOutcome mem mem'
  | joined {s d t : Nat} {m₀ : RecurrentMemory} (hDrop : Dropped (· = d) mem m₀)
      (hIdx : m₀.rsIdx = mem.rsIdx) (hLt : d < m₀.size) (hTail : (m₀.cells s).tail = some t)
      (hNone : (m₀.cells d).tail = none) :
      CpOutcome mem ((m₀.onCell t fun cell => { cell with seqId := insert d cell.seqId }).setTail
        d (some t))

theorem releaseTail_rsIdx (mem : RecurrentMemory) (s : Nat) :
    (mem.releaseTail s).rsIdx = mem.rsIdx := by
  unfold releaseTail
  cases (mem.cells s).tail with
  | none => rfl
  | some t => exact (release_shape mem s t).2.2

theorem seqCp_outcome (h : Invariant mem) (s d : Int) : CpOutcome mem (mem.seqCp s d) := by
  unfold seqCp
  by_cases hSame : s = d
  · rw [if_pos hSame]
    exact .same
  rw [if_neg hSame]
  by_cases hIn : 0 ≤ d ∧ d < mem.size ∧ 0 ≤ s ∧ s < mem.size
  · rw [if_pos hIn]
    dsimp only
    obtain ⟨hDrop, hNone⟩ := h.releaseTail d.toNat
    have hIdx := releaseTail_rsIdx mem d.toNat
    cases hTail : ((mem.releaseTail d.toNat).cells s.toNat).tail with
    | none => exact .left hDrop hIdx
    | some t => exact .joined hDrop hIdx (hDrop.shape.size ▸ by omega) hTail hNone
  · rw [if_neg hIn]
    exact .same

theorem Invariant.seqCp (h : Invariant mem) (s d : Int) : Invariant (mem.seqCp s d) := by
  have hOutcome := seqCp_outcome h s d
  revert hOutcome
  generalize mem.seqCp s d = mem'
  intro hOutcome
  cases hOutcome with
  | same => exact h
  | left hDrop _ => exact h.dropped hDrop
  | joined hDrop _ hLt hTail hNone => exact (h.dropped hDrop).join hTail hNone hLt

end RecurrentMemory

end Beellama.Ports
