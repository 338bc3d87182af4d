import Beellama.Ports.KvCacheSearch

/-!
# The ring search finds what there is

Without record groups the ring search of `find_slot` may use a cell that is empty, or that one
sequence owns and the attention window no longer reaches.  The walk of single cells tests each cell
once, and the walk of windows skips only starts at which no usable window begins
(`findSlot_sound_complete`).  `LoopEnds` is the `while (true)` of the source as a relation.
-/

namespace Beellama.Ports

open List

namespace KvCache

/-- A cell that the ring search may use when there are no record groups. -/
def usable (cfg : CacheConfig) (cells : KvCells) (idx : Nat) : Bool :=
  cells.isEmpty idx || swaReusable cfg cells idx

/-- The usable cells of a table. -/
def usableCells (cfg : CacheConfig) (cells : KvCells) : List Nat :=
  (List.range cells.size).filter (usable cfg cells)

/-- `n` consecutive usable cells of the table, from `start` on. -/
def Window (cfg : CacheConfig) (cells : KvCells) (n start : Nat) : Prop :=
  start + n ≤ cells.size ∧ ∀ i, start ≤ i → i < start + n → usable cfg cells i = true

section Ring

variable {cfg : CacheConfig} {cells : KvCells} {u : Ubatch} {cont : Bool} {seqId nTokens : Nat}

/-- The turns of the `while (true)`, from a state to the answer. -/
inductive LoopEnds (cfg : CacheConfig) (cells : KvCells) (u : Ubatch) (cont : Bool)
    (seqId nTokens : Nat) : RingSearch → Option (List Nat) → Prop
  | wrap {st : RingSearch} {r : Option (List Nat)}
      (hWrap : cells.size < st.head + if cont then nTokens else 1)
      (hRest : LoopEnds cfg cells u cont seqId nTokens
        { st with tested := st.tested + (cells.size - st.head), head := 0 } r) :
      LoopEnds cfg cells u cont seqId nTokens st r
  | found {st st' : RingSearch} (hRoom : ¬ cells.size < st.head + if cont then nTokens else 1)
      (hTest : testCells cfg cells u cont seqId (if cont then nTokens else 1) st = .ok st')
      (hFull : st'.idxs.length = nTokens) :
      LoopEnds cfg cells u cont seqId nTokens st (some st'.idxs)
  | spent {st st' : RingSearch} (hRoom : ¬ cells.size < st.head + if cont then nTokens else 1)
      (hTest : testCells cfg cells u cont seqId (if cont then nTokens else 1) st = .ok st')
      (hShort : st'.idxs.length ≠ nTokens) (hDone : cells.size ≤ st'.tested) :
      LoopEnds cfg cells u cont seqId nTokens st none
  | again {st st' : RingSearch} {r : Option (List Nat)}
      (hRoom : ¬ cells.size < st.head + if cont then nTokens else 1)
      (hTest : testCells cfg cells u cont seqId (if cont then nTokens else 1) st = .ok st')
      (hShort : st'.idxs.length ≠ nTokens) (hMore : st'.tested < cells.size)
      (hRest : LoopEnds cfg cells u cont seqId nTokens
        (if cont then { st' with idxs := [] } else st') r) :
      LoopEnds cfg cells u cont seqId nTokens st r

/-- The loop with a step counter gives the answer of the loop. -/
theorem LoopEnds.searchSlots {st : RingSearch} {r : Option (List Nat)}
    (h : LoopEnds cfg cells u cont seqId nTokens st r)
    (hTest : (if cont then nTokens else 1) ≤ cells.size)
    (hPos : 0 < if cont then nTokens else 1) {steps : Nat}
    (hSteps : turnsLeft cells (if cont then nTokens else 1) st < steps) :
    KvCache.searchSlots cfg cells u cont seqId nTokens steps st = .ok r := by
  induction h generalizing steps with
  | @wrap st r hWrap _ ih =>
    obtain ⟨steps, rfl⟩ : ∃ k, steps = k + 1 := ⟨steps - 1, by omega⟩
    unfold KvCache.searchSlots
    rw [if_pos hWrap]
    apply ih
    unfold turnsLeft at hSteps ⊢
    rw [if_pos hWrap] at hSteps
    rw [if_neg (by simpa using hTest)]
    dsimp only
    omega
  | @found st st' hRoom hRun hFull =>
    obtain ⟨steps, rfl⟩ : ∃ k, steps = k + 1 := ⟨steps - 1, by omega⟩
    unfold KvCache.searchSlots
    dsimp only
    rw [if_neg hRoom, hRun]
    show (if st'.idxs.length = nTokens then _ else _) = _
    rw [if_pos hFull]
  | @spent st st' hRoom hRun hShort hDone =>
    obtain ⟨steps, rfl⟩ : ∃ k, steps = k + 1 := ⟨steps - 1, by omega⟩
    unfold KvCache.searchSlots
    dsimp only
    rw [if_neg hRoom, hRun]
    show (if st'.idxs.length = nTokens then _ else _) = _
    have hTested : cells.size ≤ (if cont then { st' with idxs := [] } else st').tested := by
      split <;> exact hDone
    rw [if_neg hShort, if_pos hTested]
  | @again st st' r hRoom hRun hShort hMore _ ih =>
    obtain ⟨steps, rfl⟩ : ∃ k, steps = k + 1 := ⟨steps - 1, by omega⟩
    have hLess := testCells_tested hPos hRun
    have hTested : (if cont then { st' with idxs := [] } else st').tested = st'.tested := by
      split <;> rfl
    unfold KvCache.searchSlots
    dsimp only
    rw [if_neg hRoom, hRun]
    show (if st'.idxs.length = nTokens then _ else _) = _
    rw [if_neg hShort, hTested, if_neg (Nat.not_le.mpr hMore)]
    apply ih
    have hLeft := turnsLeft_le cells (if cont then nTokens else 1)
      (if cont then { st' with idxs := [] } else st')
    unfold turnsLeft at hSteps
    omega

/-! ## Testing cells -/

variable (hGroup : cfg.allocationGroupSize ≤ 1)

include hGroup

theorem canUse_usable (idx found : Nat) :
    canUse cfg cells u seqId idx found = .ok (usable cfg cells idx) := by
  unfold canUse
  rw [if_neg fun h => Nat.not_lt.mpr hGroup h.2]
  rfl

theorem testCells_single (st : RingSearch) :
    testCells cfg cells u false seqId 1 st = .ok {
      head := st.head + 1
      tested := st.tested + 1
      idxs := st.idxs ++ [st.head].filter (usable cfg cells) } := by
  unfold testCells
  rw [canUse_usable hGroup]
  show (if usable cfg cells st.head = true then _ else _) = _
  by_cases hUse : usable cfg cells st.head = true
  · rw [if_pos hUse, filter_cons, if_pos hUse]
    rfl
  · rw [if_neg hUse, filter_cons, if_neg hUse, filter_nil, append_nil]
    rfl

/-- With `cont` a turn takes a window, or stops behind the first cell it cannot use. -/
theorem testCells_window (n : Nat) (st : RingSearch) :
    ((∀ i, st.head ≤ i → i < st.head + n → usable cfg cells i = true) ∧
      testCells cfg cells u true seqId n st = .ok {
        head := st.head + n
        tested := st.tested + n
        idxs := st.idxs ++ range' st.head n }) ∨
    ∃ k < n, usable cfg cells (st.head + k) = false ∧
      testCells cfg cells u true seqId n st = .ok {
        head := st.head + k + 1
        tested := st.tested + k + 1
        idxs := st.idxs ++ range' st.head k } := by
  induction n generalizing st with
  | zero =>
    refine Or.inl ⟨fun i hLe hLt => by omega, ?_⟩
    rw [range'_zero, append_nil]
    rfl
  | succ n ih =>
    unfold testCells
    rw [canUse_usable hGroup]
    by_cases hUse : usable cfg cells st.head = true
    · have hStep : ∀ m, st.idxs ++ [st.head] ++ range' (st.head + 1) m =
          st.idxs ++ range' st.head (m + 1) := by
        intro m
        rw [range'_succ, append_assoc]
        rfl
      rcases ih ⟨st.head + 1, st.tested + 1, st.idxs ++ [st.head]⟩ with
        ⟨hAll, hRun⟩ | ⟨k, hk, hStop, hRun⟩
      · refine Or.inl ⟨fun i hLe hLt => ?_, ?_⟩
        · rcases Nat.eq_or_lt_of_le hLe with rfl | hLater
          · exact hUse
          apply hAll i hLater
          show i < st.head + 1 + n
          omega
        show (if usable cfg cells st.head = true then _ else _) = _
        rw [if_pos hUse]
        dsimp only at hRun ⊢
        rw [hRun, hStep n, Nat.add_right_comm, Nat.add_right_comm st.tested]
        rfl
      refine Or.inr ⟨k + 1, Nat.succ_lt_succ hk, ?_, ?_⟩
      · rw [← hStop]
        show usable cfg cells (st.head + (k + 1)) = usable cfg cells (st.head + 1 + k)
        rw [Nat.add_assoc, Nat.add_comm 1 k]
      show (if usable cfg cells st.head = true then _ else _) = _
      rw [if_pos hUse]
      dsimp only at hRun ⊢
      rw [hRun, hStep k, Nat.add_right_comm st.head, Nat.add_right_comm st.tested]
      rfl
    refine Or.inr ⟨0, Nat.succ_pos n, by simpa using hUse, ?_⟩
    show (if usable cfg cells st.head = true then _ else if true = true then _ else _) = _
    rw [if_neg hUse, if_pos rfl, range'_zero, append_nil]

/-! ## The walk of single cells -/

omit hGroup in
theorem RingInv.wrapped {start : Nat} {st : RingSearch} (h : RingInv cells start st)
    (hEnd : cells.size < st.head + 1) :
    RingInv cells start { st with tested := st.tested + (cells.size - st.head), head := 0 } := by
  have hMore := h.more
  rcases h.walked with ⟨hHead, hIn, hWalked⟩ | ⟨hTested, -⟩
  · refine ⟨h.distinct, h.inTable, ?_, Or.inr ⟨?_, ?_⟩⟩
    · dsimp only
      omega
    · dsimp only
      omega
    · exact fun i hi => Or.inl (hWalked i hi).1
  · omega

omit hGroup in
theorem RingInv.tests {start : Nat} {st : RingSearch} (h : RingInv cells start st)
    (hRoom : ¬ cells.size < st.head + 1) (hMore : st.tested + 1 < cells.size) :
    RingInv cells start ⟨st.head + 1, st.tested + 1, st.idxs ++ [st.head]⟩ := by
  refine ⟨?_, ?_, hMore, ?_⟩
  · exact h.distinct.append (nodup_singleton _) (disjoint_singleton.mpr h.fresh)
  · intro i hi
    rcases mem_append.mp hi with hOld | hHead
    · exact h.inTable i hOld
    · rw [mem_singleton.mp hHead]
      omega
  dsimp only
  rcases h.walked with ⟨hHead, -, hWalked⟩ | ⟨hTested, hWalked⟩
  · refine Or.inl ⟨by omega, Or.inl (by omega), fun i hi => ?_⟩
    rcases mem_append.mp hi with hOld | hLast
    · have hBetween := hWalked i hOld
      omega
    · rw [mem_singleton.mp hLast]
      omega
  refine Or.inr ⟨by omega, fun i hi => ?_⟩
  rcases mem_append.mp hi with hOld | hLast
  · rcases hWalked i hOld with hLe | hLt
    · exact Or.inl hLe
    · exact Or.inr (Nat.lt_succ_of_lt hLt)
  · rw [mem_singleton.mp hLast]
    exact Or.inr (Nat.lt_succ_self _)

/-- The cells tested so far: all different, `tested` of them, and the slots found are the usable ones
among them. -/
structure SingleInv (cfg : CacheConfig) (cells : KvCells) (nTokens start : Nat) (st : RingSearch)
    (tested : List Nat) : Prop where
  ring : RingInv cells start { st with idxs := tested }
  found : st.idxs = tested.filter (usable cfg cells)
  length : tested.length = st.tested
  short : st.idxs.length < nTokens

/-- What the walk of single cells answers. -/
def SingleAnswer (cfg : CacheConfig) (cells : KvCells) (nTokens : Nat) : Option (List Nat) → Prop
  | some idxs => idxs.length = nTokens ∧ idxs.Nodup ∧ ∀ i ∈ idxs, i ∈ usableCells cfg cells
  | none => (usableCells cfg cells).length < nTokens

omit hGroup in
/-- Different cells of the table, as many as it has, are all of its cells. -/
theorem perm_range {l : List Nat} {n : Nat} (hDistinct : l.Nodup) (hIn : ∀ i ∈ l, i < n)
    (hLength : n ≤ l.length) : l.Perm (range n) := by
  have hSub : l.Subperm (range n) :=
    subperm_of_subset hDistinct fun i hi => mem_range.mpr (hIn i hi)
  apply hSub.perm_of_length_le
  rw [length_range]
  exact hLength

/-- The walk of single cells ends with the right answer. -/
theorem single_ends {start : Nat} (turns : Nat)
    {st : RingSearch} {tested : List Nat} (hTurns : turnsLeft cells 1 st < turns)
    (hInv : SingleInv cfg cells nTokens start st tested) :
    ∃ r, LoopEnds cfg cells u false seqId nTokens st r ∧ SingleAnswer cfg cells nTokens r := by
  induction turns generalizing st tested with
  | zero => omega
  | succ turns ih =>
    have hRing := hInv.ring
    have hMore : st.tested < cells.size := hRing.more
    by_cases hWrap : cells.size < st.head + 1
    · have hNext : turnsLeft cells 1
          { st with tested := st.tested + (cells.size - st.head), head := 0 } < turns := by
        unfold turnsLeft at hTurns ⊢
        rw [if_pos hWrap] at hTurns
        rw [if_neg (by dsimp only; omega)]
        dsimp only
        omega
      have hSame : cells.size - st.head = 0 := by
        rcases hRing.walked with ⟨hHead, -, -⟩ | ⟨hTested, -⟩
        · omega
        · omega
      obtain ⟨r, hEnds, hAnswer⟩ := ih hNext
        ⟨hRing.wrapped hWrap, hInv.found, by dsimp only; rw [hInv.length, hSame]; rfl, hInv.short⟩
      exact ⟨r, LoopEnds.wrap hWrap hEnds, hAnswer⟩
    have hTest := @testCells_single cfg cells u seqId hGroup st
    have hFresh : st.head ∉ tested := hRing.fresh
    -- the cells tested after this turn
    have hDistinct : (tested ++ [st.head]).Nodup :=
      List.Nodup.append hRing.distinct (nodup_singleton _)
        (disjoint_singleton.mpr hFresh)
    have hIn : ∀ i ∈ tested ++ [st.head], i < cells.size := by
      intro i hi
      rcases mem_append.mp hi with hOld | hHead
      · exact hRing.inTable i hOld
      · rw [mem_singleton.mp hHead]
        omega
    have hFound : st.idxs ++ [st.head].filter (usable cfg cells) =
        (tested ++ [st.head]).filter (usable cfg cells) := by
      rw [filter_append, hInv.found]
    have hAtMost : (st.idxs ++ [st.head].filter (usable cfg cells)).length ≤ nTokens := by
      have hOne := length_filter_le (usable cfg cells) [st.head]
      have hShort := hInv.short
      rw [length_singleton] at hOne
      rw [length_append]
      omega
    by_cases hFull : (st.idxs ++ [st.head].filter (usable cfg cells)).length = nTokens
    · refine ⟨_, LoopEnds.found hWrap hTest hFull, hFull, ?_⟩
      dsimp only
      rw [hFound]
      refine ⟨hDistinct.filter _, fun i hi => ?_⟩
      rw [mem_filter] at hi
      exact mem_filter.mpr ⟨mem_range.mpr (hIn i hi.1), hi.2⟩
    have hShort := Nat.lt_of_le_of_ne hAtMost hFull
    by_cases hDone : cells.size ≤ st.tested + 1
    · refine ⟨none, LoopEnds.spent hWrap hTest hFull hDone, ?_⟩
      have hLength : cells.size ≤ (tested ++ [st.head]).length := by
        rw [length_append, hInv.length]
        exact hDone
      have hAll := (perm_range hDistinct hIn hLength).filter (usable cfg cells)
      show (usableCells cfg cells).length < nTokens
      rw [usableCells, ← hAll.length_eq, ← hFound]
      exact hShort
    have hMore' := Nat.lt_of_not_le hDone
    have hNext : turnsLeft cells 1 ⟨st.head + 1, st.tested + 1,
        st.idxs ++ [st.head].filter (usable cfg cells)⟩ < turns := by
      have hLeft := turnsLeft_le cells 1 ⟨st.head + 1, st.tested + 1,
        st.idxs ++ [st.head].filter (usable cfg cells)⟩
      unfold turnsLeft at hTurns
      dsimp only at hLeft
      omega
    obtain ⟨r, hEnds, hAnswer⟩ := ih hNext ⟨hRing.tests hWrap hMore', hFound, by
      rw [length_append, hInv.length]
      rfl, hShort⟩
    exact ⟨r, LoopEnds.again hWrap hTest hFull hMore' hEnds, hAnswer⟩

/-! ## The walk of windows -/

/-- What the walk of windows answers. -/
def WindowAnswer (cfg : CacheConfig) (cells : KvCells) (nTokens : Nat) : Option (List Nat) → Prop
  | some idxs => ∃ start, Window cfg cells nTokens start ∧ idxs = List.range' start nTokens
  | none => ∀ start, ¬ Window cfg cells nTokens start

/-- No usable window begins at a start the search has passed: from `start` to the head, or to the end
of the table and again from zero. -/
def Passed (cfg : CacheConfig) (cells : KvCells) (nTokens start : Nat) (st : RingSearch) : Prop :=
  (st.head = start + st.tested ∧ ∀ i, start ≤ i → i < st.head → ¬ Window cfg cells nTokens i) ∨
    (st.tested = (cells.size - start) + st.head ∧
      (∀ i, start ≤ i → ¬ Window cfg cells nTokens i) ∧
      ∀ i < st.head, ¬ Window cfg cells nTokens i) ∨
    (cells.size ≤ st.tested ∧ ∀ i, ¬ Window cfg cells nTokens i)

omit hGroup in
theorem Window.start_lt {n start : Nat} (h : Window cfg cells n start) (hPos : 0 < n) :
    start < cells.size := by
  have hEnd := h.1
  omega

omit hGroup in
/-- Once as many cells are tested as there are, every start has been passed. -/
theorem Passed.all {start : Nat} {st : RingSearch} (h : Passed cfg cells nTokens start st)
    (hStart : start ≤ cells.size) (hIn : st.head ≤ cells.size) (hPos : 0 < nTokens)
    (hDone : cells.size ≤ st.tested) : ∀ i, ¬ Window cfg cells nTokens i := by
  intro i hWindow
  have hLt := hWindow.start_lt hPos
  rcases h with ⟨hHead, hNone⟩ | ⟨hTested, hLate, hEarly⟩ | ⟨-, hNone⟩
  · by_cases hLe : start ≤ i
    · exact hNone i hLe (by omega) hWindow
    · omega
  · by_cases hLe : start ≤ i
    · exact hLate i hLe hWindow
    · exact hEarly i (by omega) hWindow
  · exact hNone i hWindow

omit hGroup in
/-- Going back to the first cell passes the starts too near the end. -/
theorem Passed.wrapped {start : Nat} {st : RingSearch} (h : Passed cfg cells nTokens start st)
    (hIn : st.head ≤ cells.size) (hStart : start ≤ cells.size)
    (hWrap : cells.size < st.head + nTokens) :
    Passed cfg cells nTokens start
      { st with tested := st.tested + (cells.size - st.head), head := 0 } := by
  have hNear : ∀ i, st.head ≤ i → ¬ Window cfg cells nTokens i := by
    intro i hLe hWindow
    have hEnd := hWindow.1
    omega
  rcases h with ⟨hHead, hNone⟩ | ⟨hTested, hLate, hEarly⟩ | ⟨hDone, hNone⟩
  · refine Or.inr (Or.inl ⟨by dsimp only; omega, fun i hLe => ?_, fun i hi => ?_⟩)
    · by_cases hLt : i < st.head
      · exact hNone i hLe hLt
      · exact hNear i (Nat.le_of_not_lt hLt)
    · exact absurd hi (Nat.not_lt_zero i)
  · refine Or.inr (Or.inr ⟨by dsimp only; omega, fun i => ?_⟩)
    by_cases hLt : i < st.head
    · exact hEarly i hLt
    · exact hNear i (Nat.le_of_not_lt hLt)
  · exact Or.inr (Or.inr ⟨Nat.le_add_right_of_le hDone, hNone⟩)

omit hGroup in
/-- A cell that cannot be used passes the starts from the head to it. -/
theorem Passed.stopped {start k : Nat} {st : RingSearch} {idxs : List Nat}
    (h : Passed cfg cells nTokens start st) (hk : k < nTokens)
    (hStop : usable cfg cells (st.head + k) = false) :
    Passed cfg cells nTokens start ⟨st.head + k + 1, st.tested + k + 1, idxs⟩ := by
  have hSkipped : ∀ i, st.head ≤ i → i < st.head + k + 1 → ¬ Window cfg cells nTokens i := by
    intro i hLe hLt hWindow
    have hUse := hWindow.2 (st.head + k) (by omega) (by omega)
    rw [hStop] at hUse
    cases hUse
  rcases h with ⟨hHead, hNone⟩ | ⟨hTested, hLate, hEarly⟩ | ⟨hDone, hNone⟩
  · refine Or.inl ⟨by dsimp only; omega, fun i hLe hLt => ?_⟩
    by_cases hOld : i < st.head
    · exact hNone i hLe hOld
    · exact hSkipped i (Nat.le_of_not_lt hOld) hLt
  · refine Or.inr (Or.inl ⟨by dsimp only; omega, hLate, fun i hLt => ?_⟩)
    by_cases hOld : i < st.head
    · exact hEarly i hOld
    · exact hSkipped i (Nat.le_of_not_lt hOld) hLt
  · refine Or.inr (Or.inr ⟨by dsimp only; omega, hNone⟩)

/-- The walk of windows ends with the right answer. -/
theorem window_ends {start : Nat}
    (hStart : start ≤ cells.size) (hPos : 0 < nTokens) (hFits : nTokens ≤ cells.size) (turns : Nat)
    {st : RingSearch} (hTurns : turnsLeft cells nTokens st < turns) (hIn : st.head ≤ cells.size)
    (hIdxs : st.idxs = []) (hPassed : Passed cfg cells nTokens start st) :
    ∃ r, LoopEnds cfg cells u true seqId nTokens st r ∧ WindowAnswer cfg cells nTokens r := by
  induction turns generalizing st with
  | zero => omega
  | succ turns ih =>
    by_cases hWrap : cells.size < st.head + nTokens
    · have hNext : turnsLeft cells nTokens
          { st with tested := st.tested + (cells.size - st.head), head := 0 } < turns := by
        unfold turnsLeft at hTurns ⊢
        rw [if_pos hWrap] at hTurns
        rw [if_neg (by dsimp only; omega)]
        dsimp only
        omega
      obtain ⟨r, hEnds, hAnswer⟩ :=
        ih hNext (Nat.zero_le _) hIdxs (hPassed.wrapped hIn hStart hWrap)
      exact ⟨r, LoopEnds.wrap hWrap hEnds, hAnswer⟩
    rcases @testCells_window cfg cells u seqId hGroup nTokens st with
      ⟨hAll, hTest⟩ | ⟨k, hk, hStop, hTest⟩
    · have hFull : (st.idxs ++ range' st.head nTokens).length = nTokens := by
        rw [hIdxs, nil_append, length_range']
      refine ⟨_, LoopEnds.found hWrap hTest hFull, st.head, ⟨Nat.le_of_not_lt hWrap, hAll⟩, ?_⟩
      rw [hIdxs, nil_append]
    have hShort : (st.idxs ++ range' st.head k).length ≠ nTokens := by
      rw [hIdxs, nil_append, length_range']
      exact Nat.ne_of_lt hk
    by_cases hDone : cells.size ≤ st.tested + k + 1
    · have hAll := (@Passed.stopped _ _ _ _ _ _ [] hPassed hk hStop).all hStart
        (by dsimp only; omega) hPos hDone
      exact ⟨none, LoopEnds.spent hWrap hTest hShort hDone, hAll⟩
    have hMore := Nat.lt_of_not_le hDone
    have hNext : turnsLeft cells nTokens ⟨st.head + k + 1, st.tested + k + 1, []⟩ <
        turns := by
      have hLeft := turnsLeft_le cells nTokens ⟨st.head + k + 1, st.tested + k + 1, []⟩
      unfold turnsLeft at hTurns
      dsimp only at hLeft
      omega
    obtain ⟨r, hEnds, hAnswer⟩ :=
      ih hNext (by dsimp only; omega) rfl (hPassed.stopped hk hStop)
    exact ⟨r, LoopEnds.again hWrap hTest hShort hMore hEnds, hAnswer⟩

end Ring

/-! ## The streams of a micro-batch -/

/-- The sequences whose streams `find_slot` searches, and the tokens of each. -/
def searched (cfg : CacheConfig) (u : Ubatch) : List Nat :=
  if 1 < cfg.nStream then u.seqIdUnq else u.seqIdUnq.take 1

def perStream (cfg : CacheConfig) (u : Ubatch) : Nat :=
  if 1 < cfg.nStream then u.tokens.length / u.seqIdUnq.length else u.tokens.length

/-- A micro-batch that passes the assertions of `find_slot`. -/
structure Asserted (cfg : CacheConfig) (u : Ubatch) : Prop where
  tokens : u.tokens ≠ []
  seqs : u.seqIdUnq ≠ []
  even : 1 < cfg.nStream → u.tokens.length % u.seqIdUnq.length = 0
  streams : 1 < cfg.nStream → ∀ s q, u.seqIdUnq[s]? = some q →
    (u.token (s * (u.tokens.length / u.seqIdUnq.length))).seqId = [q]

/-- The stream of a sequence has what the search is for. -/
def Plenty (c : KvCache) (cont : Bool) (n seqId : Nat) : Prop :=
  if cont then ∃ start, Window c.cfg (c.cells (c.cfg.seqToStream seqId)) n start
  else n ≤ (usableCells c.cfg (c.cells (c.cfg.seqToStream seqId))).length

/-- The slots of one stream are what the search is for. -/
structure SlotsFound (c : KvCache) (cont : Bool) (n seqId : Nat) (r : SlotRun) : Prop where
  strm : r.strm = c.cfg.seqToStream seqId
  length : r.idxs.length = n
  distinct : r.idxs.Nodup
  usable : ∀ i ∈ r.idxs, i ∈ usableCells c.cfg (c.cells r.strm)
  consecutive : cont = true → ∃ start, r.idxs = List.range' start n

/-- The search of a stream comes to an end. -/
def SearchEnds (c : KvCache) (u : Ubatch) (cont : Bool) (n seqId : Nat) : Prop :=
  n ≤ (c.cells (c.cfg.seqToStream seqId)).size →
    ∃ r, LoopEnds c.cfg (c.cells (c.cfg.seqToStream seqId)) u cont seqId n
      { head := searchStart (c.cells (c.cfg.seqToStream seqId)).getUsed n
          (c.heads (c.cfg.seqToStream seqId)) } r

section Streams

variable {c : KvCache} {u : Ubatch} {cont : Bool} {seqId n : Nat}

theorem searchStart_le {used head size : Nat} (h : head ≤ size) :
    searchStart used n head ≤ size := by
  unfold searchStart
  split
  · exact Nat.zero_le _
  · exact h

section

variable (hGroup : c.cfg.allocationGroupSize ≤ 1)

include hGroup

theorem loop_answer (hPos : 0 < n)
    (hHead : c.heads (c.cfg.seqToStream seqId) ≤ (c.cells (c.cfg.seqToStream seqId)).size)
    (hFits : n ≤ (c.cells (c.cfg.seqToStream seqId)).size) :
    ∃ r, LoopEnds c.cfg (c.cells (c.cfg.seqToStream seqId)) u cont seqId n
        { head := searchStart (c.cells (c.cfg.seqToStream seqId)).getUsed n
            (c.heads (c.cfg.seqToStream seqId)) } r ∧
      (r = none → ¬ Plenty c cont n seqId) ∧
      ∀ idxs, r = some idxs → Plenty c cont n seqId ∧
        SlotsFound c cont n seqId ⟨c.cfg.seqToStream seqId, idxs⟩ := by
  have hStart : searchStart (c.cells (c.cfg.seqToStream seqId)).getUsed n
      (c.heads (c.cfg.seqToStream seqId)) ≤ (c.cells (c.cfg.seqToStream seqId)).size :=
    searchStart_le hHead
  generalize searchStart (c.cells (c.cfg.seqToStream seqId)).getUsed n
    (c.heads (c.cfg.seqToStream seqId)) = start at hStart ⊢
  cases cont with
  | false =>
    have hInv : SingleInv c.cfg (c.cells (c.cfg.seqToStream seqId)) n start { head := start } [] := by
      refine ⟨⟨nodup_nil, ?_, Nat.lt_of_lt_of_le hPos hFits, ?_⟩, rfl, rfl, hPos⟩
      · exact fun i hi => absurd hi not_mem_nil
      · exact Or.inl ⟨rfl, Or.inr rfl, fun i hi => absurd hi not_mem_nil⟩
    obtain ⟨r, hEnds, hAnswer⟩ := @single_ends c.cfg _ u seqId n hGroup start _ _ _
      (Nat.lt_succ_self _) hInv
    refine ⟨r, hEnds, ?_, ?_⟩
    · rintro rfl hPlenty
      exact Nat.not_lt.mpr hPlenty hAnswer
    rintro idxs rfl
    obtain ⟨hLength, hDistinct, hUsable⟩ := hAnswer
    refine ⟨?_, rfl, hLength, hDistinct, hUsable, fun h => absurd h Bool.false_ne_true⟩
    have hSub := subperm_of_subset hDistinct hUsable
    show n ≤ _
    rw [← hLength]
    exact hSub.length_le
  | true =>
    obtain ⟨r, hEnds, hAnswer⟩ := @window_ends c.cfg _ u seqId n hGroup start hStart hPos hFits _
      { head := start } (Nat.lt_succ_self _) hStart rfl
      (Or.inl ⟨rfl, fun i hLe hLt => absurd hLt (Nat.not_lt.mpr hLe)⟩)
    refine ⟨r, hEnds, ?_, ?_⟩
    · rintro rfl ⟨i, hWindow⟩
      exact hAnswer i hWindow
    rintro idxs rfl
    obtain ⟨i, hWindow, rfl⟩ := hAnswer
    refine ⟨⟨i, hWindow⟩, rfl, length_range', nodup_range', ?_, fun _ => ⟨i, rfl⟩⟩
    intro j hj
    rw [mem_range'_1] at hj
    have hEnd := hWindow.1
    have hLt : j < (c.cells (c.cfg.seqToStream seqId)).size := by omega
    exact mem_filter.mpr ⟨mem_range.mpr hLt, hWindow.2 j hj.1 hj.2⟩

theorem ringSlots_answer (hPos : 0 < n)
    (hHead : c.heads (c.cfg.seqToStream seqId) ≤ (c.cells (c.cfg.seqToStream seqId)).size) :
    ∃ r, ringSlots c u cont seqId n = .ok r ∧ (r = none → ¬ Plenty c cont n seqId) ∧
      ∀ idxs, r = some idxs → Plenty c cont n seqId ∧
        SlotsFound c cont n seqId ⟨c.cfg.seqToStream seqId, idxs⟩ := by
  by_cases hFits : n ≤ (c.cells (c.cfg.seqToStream seqId)).size
  · obtain ⟨r, hEnds, hAnswer⟩ := @loop_answer c u cont seqId n hGroup hPos hHead hFits
    refine ⟨r, ?_, hAnswer⟩
    unfold ringSlots
    dsimp only
    rw [if_neg (Nat.not_lt.mpr hFits)]
    apply hEnds.searchSlots
    · split
      · exact hFits
      · exact Nat.lt_of_lt_of_le hPos hFits
    · split
      · exact hPos
      · exact Nat.one_pos
    have hLeft := turnsLeft_le (c.cells (c.cfg.seqToStream seqId)) (if cont then n else 1)
      { head := searchStart (c.cells (c.cfg.seqToStream seqId)).getUsed n
          (c.heads (c.cfg.seqToStream seqId)) }
    omega
  refine ⟨none, ?_, fun _ hPlenty => hFits ?_, fun idxs h => by cases h⟩
  · unfold ringSlots
    rw [if_pos (Nat.lt_of_not_le hFits)]
  cases cont with
  | true =>
    obtain ⟨i, hEnd, -⟩ := hPlenty
    omega
  | false =>
    apply Nat.le_trans hPlenty
    apply (length_filter_le _ _).trans
    rw [length_range]

theorem ringRuns_answer (hPos : 0 < n) {seqIds : List Nat} {s : Nat} (hHeads : ∀ q ∈ seqIds,
      c.heads (c.cfg.seqToStream q) ≤ (c.cells (c.cfg.seqToStream q)).size)
    (hStreams : 1 < c.cfg.nStream → ∀ k q, seqIds[k]? = some q →
      (u.token ((s + k) * n)).seqId = [q]) :
    ∃ r, ringRuns c u cont n seqIds s = .ok r ∧
      (r = none → ¬ ∀ q ∈ seqIds, Plenty c cont n q) ∧
      ∀ sinfo, r = some sinfo → (∀ q ∈ seqIds, Plenty c cont n q) ∧
        List.Forall₂ (SlotsFound c cont n) seqIds sinfo := by
  induction seqIds generalizing s with
  | nil =>
    refine ⟨some [], rfl, fun h => (by cases h), ?_⟩
    rintro sinfo ⟨⟩
    exact ⟨fun q hq => absurd hq not_mem_nil, .nil⟩
  | cons q qs ih =>
    have hAssert : ¬ (1 < c.cfg.nStream ∧ (u.token (s * n)).seqId ≠ [q]) := by
      rintro ⟨hMulti, hOther⟩
      exact hOther (hStreams hMulti 0 q rfl)
    obtain ⟨first, hRing, hNone, hSome⟩ :=
      @ringSlots_answer c u cont q n hGroup hPos (hHeads q mem_cons_self)
    unfold ringRuns
    rw [if_neg hAssert, hRing]
    cases first with
    | none =>
      refine ⟨none, rfl, fun _ hAll => hNone rfl (hAll q mem_cons_self), ?_⟩
      rintro sinfo ⟨⟩
    | some idxs =>
      obtain ⟨hPlenty, hFound⟩ := hSome idxs rfl
      obtain ⟨rest, hRest, hRestNone, hRestSome⟩ := @ih (s + 1)
        (fun r hr => hHeads r (mem_cons_of_mem q hr)) (by
          intro hMulti k r hr
          rw [Nat.add_right_comm]
          exact hStreams hMulti (k + 1) r hr)
      refine ⟨rest.map (⟨c.cfg.seqToStream q, idxs⟩ :: ·), ?_, ?_, ?_⟩
      · rw [hRest]
        rfl
      · intro hIs hAll
        apply hRestNone (Option.map_eq_none_iff.mp hIs)
        exact fun r hr => hAll r (mem_cons_of_mem q hr)
      intro sinfo hIs
      obtain ⟨runs, rfl, rfl⟩ := Option.map_eq_some_iff.mp hIs
      obtain ⟨hAll, hRuns⟩ := hRestSome runs rfl
      refine ⟨?_, .cons hFound hRuns⟩
      intro r hr
      rcases mem_cons.mp hr with rfl | hr
      · exact hPlenty
      · exact hAll r hr

end

theorem Asserted.perStream_pos (h : Asserted c.cfg u) : 0 < perStream c.cfg u := by
  have hLength := length_pos_iff.mpr h.tokens
  unfold perStream
  split
  · rename_i hMulti
    apply Nat.div_pos _ (length_pos_iff.mpr h.seqs)
    exact Nat.le_of_dvd hLength (Nat.dvd_of_mod_eq_zero (h.even hMulti))
  · exact hLength

theorem Asserted.searched_ne_nil (h : Asserted c.cfg u) : searched c.cfg u ≠ [] := by
  have hSeqs := h.seqs
  unfold searched
  split
  · exact hSeqs
  cases hCase : u.seqIdUnq with
  | nil => exact absurd hCase hSeqs
  | cons q qs => simp

/-- From every head and every state of the cells the searches end; slots are found exactly when
every stream has enough usable cells, or a window of them, and they are such cells. -/
theorem findSlot_sound_complete (hGroup : c.cfg.allocationGroupSize ≤ 1) (hu : Asserted c.cfg u)
    (hHeads : ∀ q ∈ searched c.cfg u,
      c.heads (c.cfg.seqToStream q) ≤ (c.cells (c.cfg.seqToStream q)).size) :
    ∃ sinfo, c.findSlot u cont = .ok sinfo ∧
      (∀ q ∈ searched c.cfg u, SearchEnds c u cont (perStream c.cfg u) q) ∧
      (sinfo ≠ [] ↔ ∀ q ∈ searched c.cfg u, Plenty c cont (perStream c.cfg u) q) ∧
      (sinfo ≠ [] →
        List.Forall₂ (SlotsFound c cont (perStream c.cfg u)) (searched c.cfg u) sinfo) := by
  have hPos := hu.perStream_pos
  have hEnds : ∀ q ∈ searched c.cfg u, SearchEnds c u cont (perStream c.cfg u) q := by
    intro q hq hFits
    obtain ⟨r, hLoop, -⟩ := @loop_answer c u cont q _ hGroup hPos (hHeads q hq) hFits
    exact ⟨r, hLoop⟩
  obtain ⟨runs, hRuns, hNone, hSome⟩ := @ringRuns_answer c u cont (perStream c.cfg u) hGroup hPos
    (searched c.cfg u) 0 hHeads (by
      intro hMulti k q hq
      unfold searched at hq
      unfold perStream
      rw [if_pos hMulti] at hq ⊢
      rw [Nat.zero_add]
      exact hu.streams hMulti k q hq)
  have hSlot : c.findSlot u cont = .ok (runs.getD []) := by
    have hEven : ¬ (1 < c.cfg.nStream ∧ u.tokens.length % u.seqIdUnq.length ≠ 0) := by
      rintro ⟨hMulti, hOdd⟩
      exact hOdd (hu.even hMulti)
    have hPlain : ¬ (c.cfg.grouped = true ∧ (!cont) = true) := by
      rintro ⟨hGrouped, -⟩
      have hIs : 1 < c.cfg.allocationGroupSize ∧ c.cfg.nStream = 1 := by
        simpa [CacheConfig.grouped] using hGrouped
      omega
    unfold findSlot
    rw [if_neg hEven, if_neg hPlain]
    unfold searched perStream at hRuns
    by_cases hMulti : 1 < c.cfg.nStream
    · rw [if_pos hMulti, if_pos hMulti] at hRuns
      rw [if_pos hMulti, hRuns]
      rfl
    rw [if_neg hMulti, if_neg hMulti] at hRuns
    rw [if_neg hMulti, hRuns]
    rfl
  refine ⟨_, hSlot, hEnds, ?_⟩
  cases runs with
  | none =>
    refine ⟨⟨fun h => absurd rfl h, fun h => absurd h (hNone rfl)⟩, fun h => absurd rfl h⟩
  | some sinfo =>
    obtain ⟨hAll, hFound⟩ := hSome sinfo rfl
    refine ⟨⟨fun _ => hAll, fun _ hEmpty => ?_⟩, fun _ => hFound⟩
    have hLength := hFound.length_eq
    have hNil : sinfo = [] := hEmpty
    rw [hNil] at hLength
    exact hu.searched_ne_nil (length_eq_zero_iff.mp hLength)

end Streams

/-! ## A search that wraps around -/

/-- Four cells with a window of two positions. -/
def windowConfig : CacheConfig where
  size := 4
  nSeqMax := 1
  unified := true
  nSwa := 2
  swaType := .standard
  seqsFit := by decide
  groups := by decide
  tailSeqs t ht := by cases ht

/-- The sequence has the first two cells, and the window no longer reaches the first. The search
starts at the end. -/
def windowCache : KvCache where
  cfg := windowConfig
  cells _ := ((((({ size := 4 } : KvCells).posSet 0 0).seqAdd 0 0).posSet 1 5).seqAdd 1 0)
  heads _ := 4

def threeTokens : Ubatch where
  tokens := [⟨6, {}, [0]⟩, ⟨7, {}, [0]⟩, ⟨8, {}, [0]⟩]
  seqIdUnq := [0]

def twoMore : Ubatch where
  tokens := [⟨6, {}, [0]⟩, ⟨7, {}, [0]⟩]
  seqIdUnq := [0]

/-- Three single cells are found, and a window of two. -/
theorem windowCache_slots :
    (∃ sinfo, windowCache.findSlot threeTokens false = .ok sinfo ∧ sinfo ≠ [] ∧
      List.Forall₂ (SlotsFound windowCache false 3) [0] sinfo) ∧
    ∃ sinfo, windowCache.findSlot twoMore true = .ok sinfo ∧ sinfo ≠ [] ∧
      List.Forall₂ (SlotsFound windowCache true 2) [0] sinfo := by
  have hSingle : ¬ 1 < windowCache.cfg.nStream := by decide
  have hHeads : ∀ u : Ubatch, ∀ q ∈ searched windowCache.cfg u,
      windowCache.heads (windowCache.cfg.seqToStream q) ≤
        (windowCache.cells (windowCache.cfg.seqToStream q)).size := by
    intro u q _
    exact Nat.le_refl 4
  constructor
  · obtain ⟨sinfo, hRun, -, hIff, hFound⟩ := @findSlot_sound_complete windowCache threeTokens false
      (by decide) ⟨by decide, by decide, fun h => absurd h hSingle, fun h => absurd h hSingle⟩
      (hHeads threeTokens)
    have hSome : sinfo ≠ [] := by
      apply hIff.mpr
      intro q hq
      obtain rfl : q = 0 := mem_singleton.mp hq
      show 3 ≤ (usableCells windowCache.cfg (windowCache.cells 0)).length
      decide
    exact ⟨sinfo, hRun, hSome, hFound hSome⟩
  obtain ⟨sinfo, hRun, -, hIff, hFound⟩ := @findSlot_sound_complete windowCache twoMore true
    (by decide) ⟨by decide, by decide, fun h => absurd h hSingle, fun h => absurd h hSingle⟩
    (hHeads twoMore)
  have hWindow : Window windowCache.cfg (windowCache.cells 0) 2 2 := by
    refine ⟨by decide, fun i hLe hLt => ?_⟩
    obtain rfl | rfl : i = 2 ∨ i = 3 := by omega
    · decide
    · decide
  have hSome : sinfo ≠ [] := by
    apply hIff.mpr
    intro q hq
    obtain rfl : q = 0 := mem_singleton.mp hq
    exact ⟨2, hWindow⟩
  exact ⟨sinfo, hRun, hSome, hFound hSome⟩

end KvCache

end Beellama.Ports
