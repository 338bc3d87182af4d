import Beellama.Ports.RecurrentSlot

/-!
# The sequences of a ubatch get their cells

The first loops of `find_slot`.  The coupled sequences are dropped (`fitSeqs_spec`); then one sequence
after the other keeps the cell that it alone is in, or is handed a free one (`Placing`), nobody's tail.
The ring search comes to it before it comes to a cell that only looks empty (`Search`).
-/

namespace Beellama.Ports

open Beellama.Verified List Option Finset Equiv

namespace RecurrentMemory

variable {mem mem' m₀ : RecurrentMemory}

/-! ## The coupled sequences -/

theorem Invariant.fitCoupled (h : Invariant mem) {ids : List Nat} (hFit : ∀ s ∈ ids, s < mem.size) :
    (mem.fitCoupled ids).1 = true ∧ Dropped (· ∈ ids) mem (mem.fitCoupled ids).2 ∧
      (mem.fitCoupled ids).2.rsIdx = mem.rsIdx := by
  induction ids generalizing mem with
  | nil =>
    have hNone := h.dropped_none (.refl mem) rfl rfl h.head
    exact ⟨rfl, hNone.congr fun x => ⟨False.elim, not_mem_nil⟩, rfl⟩
  | cons s rest ih =>
    obtain ⟨hDrop, _⟩ := h.releaseTail s
    have hLt : s < mem.size := hFit s mem_cons_self
    have hRest : ∀ s' ∈ rest, s' < (mem.releaseTail s).size := by
      intro s' hMem
      rw [hDrop.shape.size]
      exact hFit s' (mem_cons_of_mem s hMem)
    unfold RecurrentMemory.fitCoupled
    rw [if_neg (Nat.not_le.mpr hLt)]
    obtain ⟨hTrue, hDropRest, hIdx⟩ := ih (h.dropped hDrop) hRest
    exact ⟨hTrue, (hDrop.trans hDropRest).congr fun x => mem_cons.symm,
      hIdx.trans (releaseTail_rsIdx mem s)⟩

/-- The coupled sequences of the sets. -/
def Coupled (sets : List SlotSeq) (x : Nat) : Prop := ∃ set ∈ sets, x ∈ set.coupled

variable {sets : List SlotSeq}

theorem Invariant.fitSeqs (h : Invariant mem) (hFit : ∀ set ∈ sets, ∀ s ∈ set.ids, s < mem.size) :
    (mem.fitSeqs sets).1 = true ∧ Dropped (Coupled sets) mem (mem.fitSeqs sets).2 ∧
      (mem.fitSeqs sets).2.rsIdx = mem.rsIdx := by
  induction sets generalizing mem with
  | nil =>
    have hNone := h.dropped_none (.refl mem) rfl rfl h.head
    refine ⟨rfl, hNone.congr fun x => ⟨False.elim, ?_⟩, rfl⟩
    rintro ⟨set, hMem, _⟩
    exact not_mem_nil hMem
  | cons set rest ih =>
    have hSet := hFit set mem_cons_self
    have hFirst : set.first < mem.size := hSet set.first mem_cons_self
    obtain ⟨hTrue, hDrop, hIdx⟩ :=
      h.fitCoupled fun s hMem => hSet s (mem_cons_of_mem set.first hMem)
    have hRest : ∀ set' ∈ rest, ∀ s ∈ set'.ids, s < (mem.fitCoupled set.coupled).2.size := by
      intro set' hMem s hS
      rw [hDrop.shape.size]
      exact hFit set' (mem_cons_of_mem set hMem) s hS
    unfold RecurrentMemory.fitSeqs
    rw [if_neg (Nat.not_le.mpr hFirst), if_pos hTrue]
    obtain ⟨hTrueRest, hDropRest, hIdxRest⟩ := ih (h.dropped hDrop) hRest
    exact ⟨hTrueRest, (hDrop.trans hDropRest).congr fun x =>
      (exists_mem_cons_iff (fun set' : SlotSeq => x ∈ set'.coupled) set rest).symm,
      hIdxRest.trans hIdx⟩

/-! ## Placing the sequences -/

/-- The sequences in `done` have got cells of their own, from the memory `m₀` on. -/
structure Placing (m₀ : RecurrentMemory) (done : List Nat) (mem : RecurrentMemory) : Prop where
  shape : SameShape m₀ mem
  rsIdx : mem.rsIdx = m₀.rsIdx
  member : ∀ c x, x ∈ (mem.cells c).seqId → (mem.cells x).tail = some c
  /-- a sequence without a tail does not mark its new cell -/
  tail : ∀ x c, (mem.cells x).tail = some c → x < m₀.size ∧ c < m₀.size ∧
    (x ∈ (mem.cells c).seqId ∨
      (mem.cells c).seqId = ∅ ∧ x ∈ done ∧ (m₀.cells x).tail = none)
  alone : ∀ x ∈ done, ∃ c, (mem.cells x).tail = some c ∧
    ∀ y, (mem.cells y).tail = some c → y = x
  other : ∀ x, x ∉ done → (mem.cells x).tail = (m₀.cells x).tail
  origin : ∀ c x, x ∈ (mem.cells c).seqId → ∃ t, (m₀.cells x).tail = some t ∧
    (mem.cells c).src = some t ∧ (mem.cells c).pos = (m₀.cells t).pos
  kept : ∀ c, (m₀.cells c).seqId ≠ ∅ → (mem.cells c).seqId ≠ ∅ ∧
    (mem.cells c).src = (m₀.cells c).src ∧ (mem.cells c).pos = (m₀.cells c).pos
  empty : ∀ c, (mem.cells c).seqId = ∅ →
    (mem.cells c).src = (m₀.cells c).src ∧ (mem.cells c).pos = (m₀.cells c).pos

theorem Invariant.placing (h : Invariant m₀) : Placing m₀ [] m₀ where
  shape := .refl m₀
  rsIdx := rfl
  member c x hMember := (h.member c x hMember).2
  tail x c hTail := ⟨(h.tail x c hTail).1, h.tail_lt hTail, Or.inl (h.tail x c hTail).2⟩
  alone _ hDone := absurd hDone not_mem_nil
  other _ _ := rfl
  origin c x hMember :=
    ⟨c, (h.member c x hMember).2, h.own c (ne_empty_of_mem hMember), rfl⟩
  kept _ hUsed := ⟨hUsed, rfl, rfl⟩
  empty _ _ := ⟨rfl, rfl⟩

/-- A cell is nobody's tail. -/
def Free (mem : RecurrentMemory) (c : Nat) : Prop := ∀ x, (mem.cells x).tail ≠ some c

variable {done : List Nat}

theorem Placing.looksEmpty_of_free (h : Placing m₀ done mem) {c : Nat} (hFree : Free mem c) :
    mem.looksEmpty c = true := by
  refine decide_eq_true (eq_empty_of_forall_notMem fun x hMember => ?_)
  exact hFree x (h.member c x hMember)

/-- As long as a cell is free, the next empty cell is the first free one in ring order, after the
cells that only look empty. -/
structure Search (mem : RecurrentMemory) (start next : Nat) : Prop where
  inside : start < mem.size
  hit : (∃ c < mem.size, Free mem c) → ∃ k < mem.size, next = (start + k) % mem.size ∧
    Free mem next ∧ (∀ l < k, ¬ Free mem ((start + l) % mem.size)) ∧
    ∀ l < mem.size, k ≤ l → mem.looksEmpty ((start + l) % mem.size) = true →
      Free mem ((start + l) % mem.size)

variable {start : Nat}

theorem exists_first_free (hStart : start < mem.size)
    (hFree : ∃ c < mem.size, Free mem c) :
    ∃ k < mem.size, Free mem ((start + k) % mem.size) ∧
      ∀ l < k, ¬ Free mem ((start + l) % mem.size) := by
  classical
  obtain ⟨c, hLt, hC⟩ := hFree
  obtain ⟨k, hK, rfl⟩ := exists_ring_index hStart hLt
  have hExists : ∃ k, Free mem ((start + k) % mem.size) := ⟨k, hC⟩
  exact ⟨Nat.find hExists, Nat.lt_of_le_of_lt (Nat.find_min' hExists hC) hK,
    Nat.find_spec hExists, fun l hL => Nat.find_min hExists hL⟩

/-- Where the search begins, a cell that looks empty is free. -/
theorem Invariant.search (h : Invariant m₀) (hSize : 0 < m₀.size) :
    Search m₀ m₀.head (scanFrom m₀.looksEmpty m₀.size m₀.size m₀.head) := by
  have hStart : m₀.head < m₀.size := by
    rcases h.head with hZero | hLt
    · omega
    · exact hLt
  have hFreeOf : ∀ c, m₀.looksEmpty c = true → Free m₀ c := by
    intro c hEmpty x hTail
    exact ne_empty_of_mem (h.tail x c hTail).2 (of_decide_eq_true hEmpty)
  refine ⟨hStart, fun hSome => ?_⟩
  obtain ⟨k, hK, hFree, hBefore⟩ := exists_first_free hStart hSome
  have hScan : scanFrom m₀.looksEmpty m₀.size m₀.size m₀.head = (m₀.head + k) % m₀.size := by
    refine scanFrom_first hSize (h.placing.looksEmpty_of_free hFree) (j := 0)
      (Nat.le_of_lt hStart) (by rw [Nat.add_zero]) (Nat.zero_le k) (by omega) ?_
    intro l _ hL
    exact Bool.eq_false_iff.mpr fun hEmpty => hBefore l hL (hFreeOf _ hEmpty)
  exact ⟨k, hK, hScan, hScan ▸ hFree, hBefore, fun l _ _ hEmpty => hFreeOf _ hEmpty⟩

variable {next : Nat}

/-- The search goes on once the next empty cell was handed out. -/
theorem Search.advance (h : Search mem start next)
    (hPlacing : Placing m₀ done mem') (hSize : mem'.size = mem.size) (hNext : Free mem next)
    (hFree : ∀ c, Free mem' c ↔ Free mem c ∧ c ≠ next)
    (hEmpty : ∀ c, mem'.looksEmpty c = true → mem.looksEmpty c = true) (hLt : next < mem.size) :
    Search mem' start (scanAfter mem'.looksEmpty mem'.size mem'.size next) := by
  have hPos : 0 < mem.size := Nat.zero_lt_of_lt h.inside
  refine ⟨hSize ▸ h.inside, fun hSome => ?_⟩
  obtain ⟨k, hK, hAt, _, hBefore, hAfter⟩ := h.hit ⟨next, hLt, hNext⟩
  obtain ⟨k', hK', hFree', hFirst⟩ := exists_first_free (hSize ▸ h.inside) hSome
  rw [hSize] at hK' hFree' hFirst ⊢
  have hOrder : k < k' := by
    obtain ⟨hOld, hNe⟩ := (hFree _).mp hFree'
    rcases Nat.lt_trichotomy k' k with hLess | rfl | hMore
    · exact absurd hOld (hBefore k' hLess)
    · exact absurd hAt.symm hNe
    · exact hMore
  have hScan : scanAfter mem'.looksEmpty mem.size mem.size next = (start + k') % mem.size := by
    refine scanAfter_first hPos (hPlacing.looksEmpty_of_free hFree') hLt hAt hOrder (by omega) ?_
    intro l hL hL'
    refine Bool.eq_false_iff.mpr fun hLooks => hFirst l hL' ((hFree _).mpr ⟨?_, ?_⟩)
    · exact hAfter l (Nat.lt_trans hL' hK') (Nat.le_of_lt hL) (hEmpty _ hLooks)
    rw [hAt]
    intro hSame
    exact Nat.ne_of_gt hL (ring_index_inj (Nat.lt_trans hL' hK') hK hSame)
  refine ⟨k', hK', hScan, hScan ▸ hFree', hFirst, fun l hL hLe hLooks => (hFree _).mpr ⟨?_, ?_⟩⟩
  · exact hAfter l hL (Nat.le_trans (Nat.le_of_lt hOrder) hLe) (hEmpty _ hLooks)
  rw [hAt]
  intro hSame
  have hIndex := ring_index_inj hL hK hSame
  omega

/-! ## One sequence -/

variable {s t : Nat}

theorem Placing.keep (h : Placing m₀ done mem) (hTail : (mem.cells s).tail = some t)
    (hMember : s ∈ (mem.cells t).seqId) (hAlone : (mem.cells t).seqId.card = 1) :
    Placing m₀ (s :: done) mem where
  shape := h.shape
  rsIdx := h.rsIdx
  member := h.member
  tail x c hX := by
    obtain ⟨hLt, hCell, hIn⟩ := h.tail x c hX
    exact ⟨hLt, hCell, hIn.imp_right fun hOut => ⟨hOut.1, mem_cons_of_mem s hOut.2.1, hOut.2.2⟩⟩
  alone x hDone := by
    rcases mem_cons.mp hDone with rfl | hOld
    · refine ⟨t, hTail, fun y hY => ?_⟩
      rcases (h.tail y t hY).2.2 with hIn | ⟨hEmpty, _⟩
      · exact card_le_one.mp (Nat.le_of_eq hAlone) y hIn x hMember
      · exact absurd hEmpty (ne_empty_of_mem hMember)
    · exact h.alone x hOld
  other x hX := h.other x fun hOld => hX (mem_cons_of_mem s hOld)
  origin := h.origin
  kept := h.kept
  empty := h.empty

section Moved

variable {x : Nat} (h : Placing m₀ done mem)
  (hTails : ∀ x, (mem'.cells x).tail = if x = s then some next else (mem.cells x).tail)

include h hTails

/-- When `s` gets the free cell `next`, nobody shares a tail with a sequence that is done. -/
theorem Placing.moved_alone (hFree : Free mem next) (hDone : x ∈ s :: done) :
    ∃ c, (mem'.cells x).tail = some c ∧ ∀ y, (mem'.cells y).tail = some c → y = x := by
  by_cases hOwn : x = s
  · refine ⟨next, by rw [hTails, if_pos hOwn], fun y hY => ?_⟩
    rw [hTails] at hY
    by_contra hNe
    rw [if_neg fun hSame => hNe (hSame.trans hOwn.symm)] at hY
    exact hFree y hY
  obtain ⟨c, hX, hAlone⟩ := h.alone x ((mem_cons.mp hDone).resolve_left hOwn)
  refine ⟨c, by rw [hTails, if_neg hOwn, hX], fun y hY => ?_⟩
  rw [hTails] at hY
  by_cases hY' : y = s
  · rw [if_pos hY'] at hY
    exact absurd (hX.trans hY.symm) (hFree x)
  · rw [if_neg hY'] at hY
    exact hAlone y hY

theorem Placing.moved_other (hX : x ∉ s :: done) : (mem'.cells x).tail = (m₀.cells x).tail := by
  rw [hTails, if_neg fun hSame : x = s => hX (hSame ▸ mem_cons_self)]
  exact h.other x fun hOld => hX (mem_cons_of_mem s hOld)

end Moved

theorem Placing.hand (h : Placing m₀ done mem) (hLt : s < m₀.size)
    (hNew : s ∉ done) (hNone : (mem.cells s).tail = none) (hNext : next < m₀.size)
    (hFree : Free mem next) : Placing m₀ (s :: done) (mem.setTail s (some next)) := by
  have hTails := fun x => setTail_tail mem s x (some next)
  have hSeq := fun c => setTail_seqId mem s c (some next)
  have hSrc : ∀ c, ((mem.setTail s (some next)).cells c).src = (mem.cells c).src ∧
      ((mem.setTail s (some next)).cells c).pos = (mem.cells c).pos :=
    fun c => by rw [setTail_cells]; exact ⟨rfl, rfl⟩
  have hEmptyNext : (mem.cells next).seqId = ∅ := of_decide_eq_true (h.looksEmpty_of_free hFree)
  refine ⟨h.shape.trans (onCell_shape ..), h.rsIdx, ?_, ?_, ?_, ?_, ?_, ?_, ?_⟩
  · intro c x hMember
    rw [hSeq] at hMember
    have hOld := h.member c x hMember
    rw [hTails, if_neg fun hSame => ?_, hOld]
    rw [hSame, hNone] at hOld
    cases hOld
  · intro x c hX
    rw [hTails] at hX
    rw [hSeq]
    by_cases hOwn : x = s
    · rw [if_pos hOwn] at hX
      obtain rfl := some.inj hX
      refine ⟨hOwn ▸ hLt, hNext, Or.inr ⟨hEmptyNext, hOwn ▸ mem_cons_self, ?_⟩⟩
      rw [hOwn, ← h.other s hNew, hNone]
    rw [if_neg hOwn] at hX
    obtain ⟨hXLt, hC, hIn⟩ := h.tail x c hX
    exact ⟨hXLt, hC,
      hIn.imp_right fun hOut => ⟨hOut.1, mem_cons_of_mem s hOut.2.1, hOut.2.2⟩⟩
  · exact fun x => h.moved_alone hTails hFree
  · exact fun x => h.moved_other hTails
  · intro c x hMember
    rw [hSeq] at hMember
    rw [(hSrc c).1, (hSrc c).2]
    exact h.origin c x hMember
  · intro c hUsed
    rw [hSeq, (hSrc c).1, (hSrc c).2]
    exact h.kept c hUsed
  intro c hEmpty
  rw [hSeq] at hEmpty
  rw [(hSrc c).1, (hSrc c).2]
  exact h.empty c hEmpty

/-- The cells when sequence `s` was moved from its tail `t` to the next empty cell. -/
def splitOff (mem : RecurrentMemory) (s t next c : Nat) : MemCell :=
  let cell := mem.cells c
  { cell with
    tail := if c = s then some next else cell.tail
    seqId := if c = next then {s} else if c = t then cell.seqId.erase s else cell.seqId
    pos := if c = next then (mem.cells t).pos else cell.pos
    src := if c = next then (mem.cells t).src else cell.src }

theorem moveOut_cells (mem : RecurrentMemory) (hApart : t ≠ next)
    (hEmpty : (mem.cells next).seqId = ∅) (c : Nat) :
    (mem.moveOut s t next).cells c =
      { splitOff mem s t next c with tail := (mem.cells c).tail } := by
  unfold moveOut splitOff
  rw [onCell_cells, onCell_cells, onCell_cells]
  by_cases hNext : c = next
  · simp [hNext, hApart.symm, hEmpty]
  by_cases hTail : c = t
  · simp [hTail, hApart]
  · simp [hNext, hTail]

theorem moveOut_setTail (mem : RecurrentMemory) (hApart : t ≠ next)
    (hEmpty : (mem.cells next).seqId = ∅) (c : Nat) :
    ((mem.moveOut s t next).setTail s (some next)).cells c = splitOff mem s t next c := by
  rw [setTail_cells, moveOut_cells mem hApart hEmpty, splitOff]

/-- A sequence that shares its cell is moved to a free one. -/
theorem Placing.split (h : Placing m₀ done mem) {y : Nat} (hLt : s < m₀.size)
    (hTail : (mem.cells s).tail = some t) (hMember : s ∈ (mem.cells t).seqId)
    (hOther : y ∈ (mem.cells t).seqId) (hNe : y ≠ s) (hNext : next < m₀.size)
    (hFree : Free mem next) (hShape : SameShape mem mem') (hIdx : mem'.rsIdx = mem.rsIdx)
    (hCells : ∀ c, mem'.cells c = splitOff mem s t next c) : Placing m₀ (s :: done) mem' := by
  have hEmptyNext : (mem.cells next).seqId = ∅ := of_decide_eq_true (h.looksEmpty_of_free hFree)
  have hApart : t ≠ next := by
    rintro rfl
    exact hFree s hTail
  have hTails : ∀ x, (mem'.cells x).tail = if x = s then some next else (mem.cells x).tail :=
    fun x => by rw [hCells x]; rfl
  have hSeqNext : (mem'.cells next).seqId = {s} := by
    rw [hCells next]
    exact if_pos rfl
  have hSeqTail : (mem'.cells t).seqId = (mem.cells t).seqId.erase s := by
    rw [hCells t]
    exact (if_neg hApart).trans (if_pos rfl)
  have hSeqElse : ∀ c, c ≠ next → c ≠ t → (mem'.cells c).seqId = (mem.cells c).seqId := by
    intro c hN hT
    rw [hCells c]
    exact (if_neg hN).trans (if_neg hT)
  have hRowElse : ∀ c, c ≠ next → (mem'.cells c).src = (mem.cells c).src ∧
      (mem'.cells c).pos = (mem.cells c).pos := by
    intro c hN
    rw [hCells c]
    exact ⟨if_neg hN, if_neg hN⟩
  have hRowNext : (mem'.cells next).src = (mem.cells t).src ∧
      (mem'.cells next).pos = (mem.cells t).pos := by
    rw [hCells next]
    exact ⟨if_pos rfl, if_pos rfl⟩
  have hStill : y ∈ (mem'.cells t).seqId := hSeqTail ▸ mem_erase.mpr ⟨hNe, hOther⟩
  refine ⟨h.shape.trans hShape, hIdx.trans h.rsIdx, ?_, ?_, ?_, ?_, ?_, ?_, ?_⟩
  · intro c x hX
    rw [hTails]
    by_cases hC : c = next
    · rw [hC, hSeqNext] at hX
      rw [if_pos (Finset.mem_singleton.mp hX), hC]
    by_cases hT : c = t
    · rw [hT, hSeqTail] at hX
      obtain ⟨hXs, hOld⟩ := mem_erase.mp hX
      rw [if_neg hXs, hT]
      exact h.member t x hOld
    rw [hSeqElse c hC hT] at hX
    have hOld := h.member c x hX
    rw [if_neg fun hSame => ?_, hOld]
    rw [hSame, hTail] at hOld
    exact hT (some.inj hOld).symm
  · intro x c hX
    rw [hTails] at hX
    by_cases hOwn : x = s
    · rw [if_pos hOwn] at hX
      obtain rfl := some.inj hX
      refine ⟨hOwn ▸ hLt, hNext, Or.inl ?_⟩
      rw [hSeqNext, hOwn]
      exact Finset.mem_singleton_self s
    rw [if_neg hOwn] at hX
    obtain ⟨hXLt, hCLt, hIn⟩ := h.tail x c hX
    have hC : c ≠ next := fun hSame => hFree x (hSame ▸ hX)
    refine ⟨hXLt, hCLt, ?_⟩
    by_cases hT : c = t
    · refine Or.inl ?_
      rw [hT] at hIn ⊢
      rw [hSeqTail]
      rcases hIn with hIn | ⟨hEmpty, _⟩
      · exact mem_erase.mpr ⟨hOwn, hIn⟩
      · exact absurd hEmpty (ne_empty_of_mem hMember)
    · rw [hSeqElse c hC hT]
      exact hIn.imp_right fun hOut => ⟨hOut.1, mem_cons_of_mem s hOut.2.1, hOut.2.2⟩
  · exact fun x => h.moved_alone hTails hFree
  · exact fun x => h.moved_other hTails
  · intro c x hX
    by_cases hC : c = next
    · rw [hC, hSeqNext] at hX
      rw [hC, hRowNext.1, hRowNext.2, Finset.mem_singleton.mp hX]
      exact h.origin t s hMember
    rw [(hRowElse c hC).1, (hRowElse c hC).2]
    refine h.origin c x ?_
    by_cases hT : c = t
    · rw [hT, hSeqTail] at hX
      exact hT ▸ mem_of_mem_erase hX
    · rwa [hSeqElse c hC hT] at hX
  · intro c hUsed
    obtain ⟨hStillUsed, hRow⟩ := h.kept c hUsed
    have hC : c ≠ next := fun hSame => hStillUsed (hSame ▸ hEmptyNext)
    rw [(hRowElse c hC).1, (hRowElse c hC).2]
    refine ⟨?_, hRow⟩
    by_cases hT : c = t
    · exact hT ▸ ne_empty_of_mem hStill
    · rwa [hSeqElse c hC hT]
  intro c hEmpty
  have hC : c ≠ next := by
    rintro rfl
    rw [hSeqNext] at hEmpty
    exact singleton_ne_empty s hEmpty
  have hT : c ≠ t := by
    rintro rfl
    exact ne_empty_of_mem hStill hEmpty
  rw [(hRowElse c hC).1, (hRowElse c hC).2]
  exact h.empty c (hSeqElse c hC hT ▸ hEmpty)

/-- What the loop of `find_slot` does for a sequence: it gets the cell `t`. -/
structure Placed (m₀ : RecurrentMemory) (done : List Nat) (s : Nat) (more : Bool)
    (st st' : SlotSearch) (t : Nat) : Prop where
  placing : Placing m₀ (s :: done) st'.mem
  tail : (st'.mem.cells s).tail = some t
  stays : ∀ x, x ≠ s → (st'.mem.cells x).tail = (st.mem.cells x).tail
  low : st'.low = if t < st.low then t else st.low
  high : st'.high = if st.high < t then t else st.high
  search : more = true → ∃ start, Search st'.mem start st'.next
  head : st'.mem.head = st.mem.head

theorem setTail_shape (mem : RecurrentMemory) (s : Nat) (t : Option Nat) :
    SameShape mem (mem.setTail s t) := ⟨rfl, rfl, rfl⟩

/-- The memory before the tail of the sequence is set, which is the same but for the cell
that looks empty and the old tail. -/
theorem handOut_search {before : RecurrentMemory}
    (h : Search mem start next) (hPlacing : Placing m₀ (s :: done) (before.setTail s (some next)))
    (hSize : before.size = mem.size) (hNext : Free mem next) (hLt : next < mem.size)
    (hTails : ∀ x, x ≠ s → (before.cells x).tail = (mem.cells x).tail)
    (hOld : ∀ c, (mem.cells s).tail = some c → ∃ y, y ≠ s ∧ (mem.cells y).tail = some c)
    (hEmpty : ∀ c, before.looksEmpty c = true → mem.looksEmpty c = true) :
    Search (before.setTail s (some next)) start
      (scanAfter (before.setTail s (some next)).looksEmpty (before.setTail s (some next)).size
        (before.setTail s (some next)).size next) := by
  refine h.advance hPlacing hSize hNext ?_ ?_ hLt
  · intro c
    constructor
    · intro hFree
      refine ⟨fun x hX => ?_, ?_⟩
      · by_cases hOwn : x = s
        · obtain ⟨y, hNe, hY⟩ := hOld c (hOwn ▸ hX)
          refine hFree y ?_
          rw [setTail_tail, if_neg hNe, hTails y hNe, hY]
        · refine hFree x ?_
          rw [setTail_tail, if_neg hOwn, hTails x hOwn, hX]
      rintro rfl
      refine hFree s ?_
      rw [setTail_tail, if_pos rfl]
    rintro ⟨hFree, hNe⟩ x hX
    rw [setTail_tail] at hX
    by_cases hOwn : x = s
    · rw [if_pos hOwn] at hX
      exact hNe (some.inj hX).symm
    · rw [if_neg hOwn, hTails x hOwn] at hX
      exact hFree x hX
  intro c hLooks
  refine hEmpty c ?_
  unfold looksEmpty at hLooks ⊢
  rwa [setTail_seqId] at hLooks

open SlotSearch in
theorem Placing.placeSeq {st : SlotSearch} {s : Nat} (h : Placing m₀ done st.mem)
    (hSearch : ∃ start, Search st.mem start st.next) (hNew : s ∉ done) (hLt : s < m₀.size)
    (more : Bool) : ∃ st' t, st.placeSeq s more = some st' ∧ Placed m₀ done s more st st' t := by
  obtain ⟨start, hSearch⟩ := hSearch
  have hSize : st.mem.size = m₀.size := h.shape.size
  have hPoints : ∀ x c, (st.mem.cells x).tail = some c → x < st.mem.size :=
    fun x c hX => hSize ▸ (h.tail x c hX).1
  unfold SlotSearch.placeSeq
  dsimp only
  cases hTail : (st.mem.cells s).tail with
  | none =>
    obtain ⟨c, hC, hFreeC⟩ := exists_free hPoints (hSize ▸ hLt) (x := s) (by
      intro c hSome
      rw [hTail] at hSome
      cases hSome)
    obtain ⟨k, hK, hAt, hFree, _⟩ := hSearch.hit ⟨c, hC, hFreeC⟩
    have hNextLt : st.next < st.mem.size := hAt ▸ Nat.mod_lt _ (Nat.zero_lt_of_lt hC)
    have hLooks : (st.mem.cells st.next).seqId = ∅ :=
      of_decide_eq_true (h.looksEmpty_of_free hFree)
    have hPlacing := h.hand hLt hNew hTail (hSize ▸ hNextLt) hFree
    rw [if_neg (not_or.mpr ⟨Nat.not_le.mpr hNextLt, not_not.mpr hLooks⟩)]
    refine ⟨_, st.next, rfl, ?_⟩
    have hNextSearch := handOut_search hSearch hPlacing rfl hFree hNextLt (fun _ _ => rfl)
      (by
        intro c hSome
        rw [hTail] at hSome
        cases hSome) (fun _ hLooks => hLooks)
    unfold handOut
    cases more with
    | false =>
      exact ⟨hPlacing, by rw [if_neg Bool.false_ne_true]; exact (setTail_tail ..).trans (if_pos rfl),
        fun x hNe => (setTail_tail ..).trans (if_neg hNe), rfl, rfl,
        fun hMore => absurd hMore Bool.false_ne_true, rfl⟩
    | true =>
      exact ⟨hPlacing, (setTail_tail ..).trans (if_pos rfl),
        fun x hNe => (setTail_tail ..).trans (if_neg hNe), rfl, rfl,
        fun _ => ⟨start, hNextSearch⟩, rfl⟩
  | some t =>
    dsimp only
    have hMember : s ∈ (st.mem.cells t).seqId := by
      rcases (h.tail s t hTail).2.2 with hIn | ⟨_, hDone, _⟩
      · exact hIn
      · exact absurd hDone hNew
    rw [if_neg (not_not.mpr hMember)]
    by_cases hAlone : (st.mem.cells t).seqId.card = 1
    · rw [if_pos hAlone]
      exact ⟨st.widen t, t, rfl, h.keep hTail hMember hAlone, hTail, fun _ _ => rfl, rfl, rfl,
        fun _ => ⟨start, hSearch⟩, rfl⟩
    rw [if_neg hAlone]
    -- somebody else is in the cell
    have hCard : 1 < (st.mem.cells t).seqId.card := by
      have hPos := card_pos.mpr ⟨s, hMember⟩
      omega
    obtain ⟨y, hOther, hNe⟩ := exists_mem_ne hCard s
    have hY : (st.mem.cells y).tail = some t := h.member t y hOther
    have hShared : ∀ c, (st.mem.cells s).tail = some c →
        ∃ y, y ≠ s ∧ (st.mem.cells y).tail = some c := by
      intro c hSome
      rw [hTail] at hSome
      exact ⟨y, hNe, hY.trans hSome⟩
    obtain ⟨c, hC, hFreeC⟩ := exists_free hPoints (hSize ▸ hLt) hShared
    obtain ⟨k, hK, hAt, hFree, _⟩ := hSearch.hit ⟨c, hC, hFreeC⟩
    have hNextLt : st.next < st.mem.size := hAt ▸ Nat.mod_lt _ (Nat.zero_lt_of_lt hC)
    have hLooks : (st.mem.cells st.next).seqId = ∅ :=
      of_decide_eq_true (h.looksEmpty_of_free hFree)
    have hApart : t ≠ st.next := by
      intro hSame
      exact hFree s (hSame ▸ hTail)
    have hMoved := moveOut_cells st.mem hApart hLooks (s := s)
    have hPlacing : Placing m₀ (s :: done)
        ((st.mem.moveOut s t st.next).setTail s (some st.next)) :=
      h.split hLt hTail hMember hOther hNe (hSize ▸ hNextLt) hFree ⟨rfl, rfl, rfl⟩ rfl
        (moveOut_setTail st.mem hApart hLooks)
    have hLeft : ((st.mem.moveOut s t st.next).cells t).seqId = (st.mem.cells t).seqId.erase s := by
      rw [hMoved]
      exact (if_neg hApart).trans (if_pos rfl)
    have hStill : ((st.mem.moveOut s t st.next).cells t).seqId ≠ ∅ :=
      ne_empty_of_mem (hLeft ▸ mem_erase.mpr ⟨hNe, hOther⟩)
    rw [if_neg (not_or.mpr ⟨Nat.not_le.mpr hNextLt, not_not.mpr hLooks⟩), if_neg hStill]
    refine ⟨_, st.next, rfl, ?_⟩
    have hTails : ∀ x, x ≠ s → ((st.mem.moveOut s t st.next).cells x).tail =
        (st.mem.cells x).tail := fun x _ => by rw [hMoved x]
    have hEmpty : ∀ c, (st.mem.moveOut s t st.next).looksEmpty c = true →
        st.mem.looksEmpty c = true := by
      intro c hC
      by_cases hNext : c = st.next
      · rw [hNext]
        exact decide_eq_true hLooks
      by_cases hCell : c = t
      · exact absurd (of_decide_eq_true hC) (hCell ▸ hStill)
      unfold looksEmpty at hC ⊢
      rw [hMoved c] at hC
      have hSeq : (splitOff st.mem s t st.next c).seqId = (st.mem.cells c).seqId :=
        (if_neg hNext).trans (if_neg hCell)
      rwa [← hSeq]
    have hNextSearch := handOut_search hSearch hPlacing rfl hFree hNextLt hTails hShared hEmpty
    have hStays : ∀ x, x ≠ s →
        (((st.mem.moveOut s t st.next).setTail s (some st.next)).cells x).tail =
          (st.mem.cells x).tail :=
      fun x hX => (setTail_tail ..).trans ((if_neg hX).trans (hTails x hX))
    unfold handOut
    cases more with
    | false =>
      exact ⟨hPlacing, (setTail_tail ..).trans (if_pos rfl), hStays, rfl, rfl,
        fun hMore => absurd hMore Bool.false_ne_true, rfl⟩
    | true =>
      exact ⟨hPlacing, (setTail_tail ..).trans (if_pos rfl), hStays, rfl, rfl,
        fun _ => ⟨start, hNextSearch⟩, rfl⟩

/-- The cells of the sequences in `done` lie in the range. -/
structure InRange (done : List Nat) (st : SlotSearch) : Prop where
  tails : ∀ x ∈ done, ∀ c, (st.mem.cells x).tail = some c → st.low ≤ c ∧ c ≤ st.high
  high : st.high < st.mem.size

theorem Placing.placeSeqs {st : SlotSearch} (h : Placing m₀ done st.mem)
    (hSearch : sets ≠ [] → ∃ start, Search st.mem start st.next)
    (hNodup : (sets.map SlotSeq.first).Nodup) (hNew : ∀ set ∈ sets, set.first ∉ done)
    (hLt : ∀ set ∈ sets, set.first < m₀.size) (hRange : InRange done st) :
    ∃ st', st.placeSeqs sets = some st' ∧
      Placing m₀ ((sets.map SlotSeq.first).reverse ++ done) st'.mem ∧
      InRange ((sets.map SlotSeq.first).reverse ++ done) st' ∧ st'.mem.head = st.mem.head := by
  induction sets generalizing st done with
  | nil => exact ⟨st, rfl, h, hRange, rfl⟩
  | cons set rest ih =>
    have hFirst : set.first ∉ done := hNew set mem_cons_self
    obtain ⟨st', t, hPlace, hPlaced⟩ := h.placeSeq (hSearch (cons_ne_nil _ _)) hFirst
      (hLt set mem_cons_self) (!rest.isEmpty)
    have hCell : t < m₀.size := (hPlaced.placing.tail _ _ hPlaced.tail).2.1
    have hLowHigh : st'.low ≤ t ∧ st'.low ≤ st.low ∧ t ≤ st'.high ∧ st.high ≤ st'.high ∧
        st'.high < m₀.size := by
      have hOld := hRange.high
      rw [h.shape.size] at hOld
      rw [hPlaced.low, hPlaced.high]
      refine ⟨?_, ?_, ?_, ?_, ?_⟩ <;> split <;> omega
    have hRange' : InRange (set.first :: done) st' := by
      refine ⟨fun x hX c hTail => ?_, ?_⟩
      · by_cases hOwn : x = set.first
        · rw [hOwn, hPlaced.tail] at hTail
          obtain rfl := some.inj hTail
          exact ⟨hLowHigh.1, hLowHigh.2.2.1⟩
        rw [hPlaced.stays x hOwn] at hTail
        have hOld := hRange.tails x ((mem_cons.mp hX).resolve_left hOwn) c hTail
        omega
      · rw [hPlaced.placing.shape.size]
        exact hLowHigh.2.2.2.2
    rw [List.map_cons, List.nodup_cons] at hNodup
    have hNewRest : ∀ set' ∈ rest, set'.first ∉ set.first :: done := by
      intro set' hMem hIn
      rcases mem_cons.mp hIn with hSame | hOld
      · exact hNodup.1 (hSame ▸ mem_map_of_mem hMem)
      · exact hNew set' (mem_cons_of_mem set hMem) hOld
    have hSearchRest : rest ≠ [] → ∃ start, Search st'.mem start st'.next := by
      intro hMore
      refine hPlaced.search ?_
      rw [Bool.not_eq_true', isEmpty_eq_false_iff]
      exact hMore
    obtain ⟨st'', hRest, hPlacing, hInRange, hHead⟩ := ih hPlaced.placing hSearchRest hNodup.2
      hNewRest (fun set' hMem => hLt set' (mem_cons_of_mem set hMem)) hRange'
    have hDone : ((set :: rest).map SlotSeq.first).reverse ++ done =
        (rest.map SlotSeq.first).reverse ++ (set.first :: done) := by
      rw [List.map_cons, List.reverse_cons, List.append_assoc, List.singleton_append]
    refine ⟨st'', ?_, hDone ▸ hPlacing, hDone ▸ hInRange, hHead.trans hPlaced.head⟩
    unfold SlotSearch.placeSeqs
    rw [hPlace]
    exact hRest

/-! ## Gathering the cells -/

/-- What is in the cells was permuted, and the tails follow. -/
structure Permuted (π : Equiv.Perm Nat) (mem mem' : RecurrentMemory) : Prop where
  shape : SameShape mem mem'
  rsIdx : mem'.rsIdx = mem.rsIdx
  seqId : ∀ c, (mem'.cells (π c)).seqId = (mem.cells c).seqId
  src : ∀ c, (mem'.cells (π c)).src = (mem.cells c).src
  pos : ∀ c, (mem'.cells (π c)).pos = (mem.cells c).pos
  tail : ∀ x, (mem'.cells x).tail = (mem.cells x).tail.map π

theorem Permuted.refl (mem : RecurrentMemory) : Permuted (Equiv.refl Nat) mem mem where
  shape := .refl mem
  rsIdx := rfl
  seqId _ := rfl
  src _ := rfl
  pos _ := rfl
  tail x := by
    cases (mem.cells x).tail with
    | none => rfl
    | some t => rfl

theorem Permuted.trans {π π' : Equiv.Perm Nat} {mem'' : RecurrentMemory} (h : Permuted π mem mem')
    (h' : Permuted π' mem' mem'') : Permuted (π.trans π') mem mem'' where
  shape := h.shape.trans h'.shape
  rsIdx := h'.rsIdx.trans h.rsIdx
  seqId c := (h'.seqId (π c)).trans (h.seqId c)
  src c := (h'.src (π c)).trans (h.src c)
  pos c := (h'.pos (π c)).trans (h.pos c)
  tail x := by
    rw [h'.tail, h.tail, Option.map_map]
    rfl

theorem swapCells_permuted (mem : RecurrentMemory) (a b : Nat) :
    Permuted (Equiv.swap a b) mem (mem.swapCells a b) where
  shape := ⟨rfl, rfl, rfl⟩
  rsIdx := rfl
  seqId c := congrArg (fun d => (mem.cells d).seqId) (swap_apply_self a b c)
  src c := congrArg (fun d => (mem.cells d).src) (swap_apply_self a b c)
  pos c := congrArg (fun d => (mem.cells d).pos) (swap_apply_self a b c)
  tail _ := rfl

/-- The cells of the sequence sets end up one after the other from `dst` on; cells outside
of the range stay. -/
theorem gather_permuted {dst high : Nat}
    (hTails : ∀ set ∈ sets, ∃ t, (mem.cells set.first).tail = some t ∧ dst ≤ t ∧ t ≤ high)
    (hApart : sets.Pairwise fun a b =>
      (mem.cells a.first).tail ≠ (mem.cells b.first).tail) :
    ∃ π mem', mem.gather sets dst = some mem' ∧ Permuted π mem mem' ∧
      (∀ c, c < dst ∨ high < c → π c = c) ∧
      ∀ (i : Nat) set, sets[i]? = some set → (mem'.cells set.first).tail = some (dst + i) ∧
        dst + i ≤ high := by
  induction sets generalizing mem dst with
  | nil =>
    exact ⟨Equiv.refl Nat, mem, rfl, .refl mem, fun _ _ => rfl, fun i set hSet => by simp at hSet⟩
  | cons set rest ih =>
    obtain ⟨t, hTail, hLow, hHigh⟩ := hTails set mem_cons_self
    obtain ⟨hFirst, hRest⟩ := pairwise_cons.mp hApart
    -- swapping a cell with itself changes nothing
    have hSwap : Permuted (swap dst t) mem
        (if dst ≠ t then mem.swapCells dst t else mem) := by
      by_cases hSame : dst = t
      · rw [if_neg (not_not.mpr hSame), hSame, Equiv.swap_self]
        exact .refl mem
      · rw [if_pos hSame]
        exact swapCells_permuted mem dst t
    have hTailsRest : ∀ set' ∈ rest, ∃ t',
        ((if dst ≠ t then mem.swapCells dst t else mem).cells set'.first).tail = some t' ∧
          dst + 1 ≤ t' ∧ t' ≤ high := by
      intro set' hMem
      obtain ⟨t', hTail', hLow', hHigh'⟩ := hTails set' (mem_cons_of_mem set hMem)
      have hNe : t' ≠ t := by
        rintro rfl
        exact hFirst set' hMem (hTail.trans hTail'.symm)
      refine ⟨swap dst t t', ?_, ?_⟩
      · rw [hSwap.tail, hTail']
        rfl
      by_cases hAt : t' = dst
      · rw [hAt, swap_apply_left]
        omega
      · rw [swap_apply_of_ne_of_ne hAt hNe]
        omega
    have hApartRest : rest.Pairwise fun a b =>
        ((if dst ≠ t then mem.swapCells dst t else mem).cells a.first).tail ≠
          ((if dst ≠ t then mem.swapCells dst t else mem).cells b.first).tail := by
      refine hRest.imp fun {a b} hNe hSame => hNe ?_
      rw [hSwap.tail, hSwap.tail] at hSame
      exact Option.map_injective (Equiv.injective _) hSame
    obtain ⟨π, mem', hGather, hPerm, hFix, hPlaces⟩ := ih hTailsRest hApartRest
    refine ⟨(swap dst t).trans π, mem', ?_, hSwap.trans hPerm, ?_, ?_⟩
    · unfold gather
      rw [hTail]
      exact hGather
    · intro c hOut
      have hKeep : swap dst t c = c := by
        refine swap_apply_of_ne_of_ne ?_ ?_ <;> omega
      rw [trans_apply, hKeep]
      exact hFix c (by omega)
    intro i set' hSet
    cases i with
    | zero =>
      obtain rfl : set = set' := some.inj hSet
      refine ⟨?_, Nat.le_trans hLow hHigh⟩
      rw [hPerm.tail, hSwap.tail, hTail, map_some, map_some, swap_apply_right,
        hFix dst (by omega)]
      rfl
    | succ i =>
      obtain ⟨hPlace, hLe⟩ := hPlaces i set' hSet
      rw [hPlace]
      exact ⟨congrArg some (by omega), by omega⟩

end RecurrentMemory

end Beellama.Ports
