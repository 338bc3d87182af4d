import Beellama.Ports.RecurrentPlacing

/-!
# What `find_slot` does

The second half of `find_slot`.  On a memory between two operations it neither fails nor aborts
(`findSlot_spec`), and leaves (`Slotted`): the sequences of the ubatch have the first cells of the
range, the others keep their positions and what they share, every moved cell is to be copied from its
old row, and the row that is zeroed belongs to nobody.
-/

namespace Beellama.Ports

open Beellama.Verified List Option Finset

namespace RecurrentMemory

variable {mem mem' m₀ : RecurrentMemory}

/-! ## The members of the new cells -/

theorem addIds_cells (mem : RecurrentMemory) (ids : List Nat) (c d : Nat) :
    (ids.foldl (fun mem s =>
      (mem.onCell c fun cell => { cell with seqId := insert s cell.seqId }).setTail s (some c))
      mem).cells d =
      { mem.cells d with
        tail := if d ∈ ids then some c else (mem.cells d).tail
        seqId := if d = c then (mem.cells d).seqId ∪ ids.toFinset else (mem.cells d).seqId } := by
  induction ids generalizing mem with
  | nil => simp
  | cons s rest ih =>
    rw [foldl_cons, ih]
    have hStep := enter_cells mem s c d
    obtain ⟨hTail, hSeq⟩ := entered_cons (mem.cells d) s c d rest
    rw [hStep]
    simp only [hTail, hSeq]

theorem emplaceSet_cells (mem : RecurrentMemory) (nSeqTokens : Nat) (set : SlotSeq) (c d : Nat) :
    (mem.emplaceSet nSeqTokens set c).cells d =
      { mem.cells d with
        tail := if d ∈ set.ids then some c else (mem.cells d).tail
        pos := if d = c then set.lastPos nSeqTokens else (mem.cells d).pos
        seqId := if d = c then set.ids.toFinset else (mem.cells d).seqId } := by
  unfold emplaceSet
  dsimp only
  rw [addIds_cells]
  rw [onCell_cells]
  by_cases hCell : d = c <;> simp [hCell]

theorem addIds_shape (mem : RecurrentMemory) (ids : List Nat) (c : Nat) :
    let mem' := ids.foldl (fun mem s =>
      (mem.onCell c fun cell => { cell with seqId := insert s cell.seqId }).setTail s (some c)) mem
    SameShape mem mem' ∧ mem'.rsIdx = mem.rsIdx := by
  induction ids generalizing mem with
  | nil => exact ⟨.refl mem, rfl⟩
  | cons s rest ih =>
    obtain ⟨hShape, hIdx⟩ := ih ((mem.onCell c fun cell =>
      { cell with seqId := insert s cell.seqId }).setTail s (some c))
    exact ⟨((onCell_shape ..).trans (setTail_shape ..)).trans hShape, hIdx⟩

/-- What the loop over the sequence sets makes of the cells from `low` on. -/
structure Emplaced (mem : RecurrentMemory) (nSeqTokens : Nat) (sets : List SlotSeq) (low : Nat)
    (mem' : RecurrentMemory) : Prop where
  shape : SameShape mem mem'
  rsIdx : mem'.rsIdx = mem.rsIdx
  src : ∀ d, (mem'.cells d).src = (mem.cells d).src
  tail : ∀ x, (∀ set ∈ sets, x ∉ set.ids) → (mem'.cells x).tail = (mem.cells x).tail
  tailSet : ∀ (i : Nat) set, sets[i]? = some set → ∀ x ∈ set.ids,
    (mem'.cells x).tail = some (low + i)
  cell : ∀ d, (∀ i < sets.length, d ≠ low + i) →
    (mem'.cells d).seqId = (mem.cells d).seqId ∧ (mem'.cells d).pos = (mem.cells d).pos
  cellSet : ∀ (i : Nat) set, sets[i]? = some set →
    (mem'.cells (low + i)).seqId = set.ids.toFinset ∧
      (mem'.cells (low + i)).pos = set.lastPos nSeqTokens

theorem emplace_spec (mem : RecurrentMemory) (nSeqTokens : Nat) {sets : List SlotSeq} (low : Nat)
    (hApart : sets.Pairwise fun a b => ∀ s ∈ a.ids, s ∉ b.ids) :
    Emplaced mem nSeqTokens sets low (mem.emplace nSeqTokens sets low) := by
  induction sets generalizing mem low with
  | nil =>
    refine ⟨.refl mem, rfl, fun _ => rfl, fun _ _ => rfl, ?_, fun _ _ => ⟨rfl, rfl⟩, ?_⟩
    · intro i set hSet
      simp at hSet
    · intro i set hSet
      simp at hSet
  | cons set rest ih =>
    obtain ⟨hFirst, hRest⟩ := pairwise_cons.mp hApart
    have hOne := emplaceSet_cells mem nSeqTokens set low
    have hLater := ih (mem.emplaceSet nSeqTokens set low) (low + 1) hRest
    obtain ⟨hOneShape, hOneIdx⟩ := addIds_shape
      (mem.onCell low fun cell => { cell with pos := set.lastPos nSeqTokens, seqId := ∅ })
      set.ids low
    have hOneShape' : SameShape mem (mem.emplaceSet nSeqTokens set low) :=
      (onCell_shape ..).trans hOneShape
    show Emplaced mem nSeqTokens (set :: rest) low
      ((mem.emplaceSet nSeqTokens set low).emplace nSeqTokens rest (low + 1))
    refine ⟨hOneShape'.trans hLater.shape, hLater.rsIdx.trans hOneIdx, ?_, ?_, ?_, ?_, ?_⟩
    · intro d
      exact (hLater.src d).trans (by rw [hOne d])
    · intro x hOut
      refine (hLater.tail x fun set' hMem => hOut set' (mem_cons_of_mem set hMem)).trans ?_
      rw [hOne x]
      exact if_neg (hOut set mem_cons_self)
    · intro i set' hSet x hX
      cases i with
      | zero =>
        obtain rfl : set = set' := some.inj hSet
        refine (hLater.tail x fun set' hMem => hFirst set' hMem x hX).trans ?_
        rw [hOne x]
        exact if_pos hX
      | succ i =>
        rw [hLater.tailSet i set' hSet x hX]
        exact congrArg some (by omega)
    · intro d hOut
      have hNext := hLater.cell d fun i hI => by
        have hNe := hOut (i + 1) (Nat.succ_lt_succ hI)
        omega
      have hHere : d ≠ low := hOut 0 (Nat.succ_pos _)
      rw [hNext.1, hNext.2, hOne d]
      exact ⟨if_neg hHere, if_neg hHere⟩
    intro i set' hSet
    cases i with
    | zero =>
      obtain rfl : set = set' := some.inj hSet
      have hNext := hLater.cell low fun i _ => by omega
      show (RecurrentMemory.cells _ low).seqId = _ ∧ (RecurrentMemory.cells _ low).pos = _
      rw [hNext.1, hNext.2, hOne low]
      exact ⟨if_pos rfl, if_pos rfl⟩
    | succ i =>
      have hNext := hLater.cellSet i set' hSet
      have hIndex : low + (i + 1) = low + 1 + i := by omega
      rw [hIndex]
      exact hNext

/-! ## The zero row -/

variable {row : Nat}

theorem refcount_eq_zero : mem.refcount row = 0 ↔ ∀ c < mem.size, (mem.cells c).src ≠ some row := by
  unfold refcount
  rw [List.length_eq_zero_iff, List.filter_eq_nil_iff]
  simp only [List.mem_range, decide_eq_true_eq]

variable {low n : Nat}

theorem zeroRow_some {z : Nat} (h : mem.zeroRow low n = some z) :
    low ≤ z ∧ z < low + n ∧ ∀ c < mem.size, (mem.cells c).src ≠ some z := by
  have hMem := mem_range'_1.mp (mem_of_find?_eq_some h)
  have hFind : (range' low n).find? (fun i => decide (mem.refcount i = 0)) = some z := h
  have hHit := find?_some hFind
  have hCount : mem.refcount z = 0 := of_decide_eq_true hHit
  exact ⟨hMem.1, hMem.2, refcount_eq_zero.mp hCount⟩

theorem zeroRow_ne_none (hLow : low ≤ row) (hHigh : row < low + n)
    (hFree : ∀ c < mem.size, (mem.cells c).src ≠ some row) : mem.zeroRow low n ≠ none := by
  intro hNone
  have hNot := find?_eq_none.mp hNone row (mem_range'_1.mpr ⟨hLow, hHigh⟩)
  exact hNot (decide_eq_true (refcount_eq_zero.mpr hFree))

theorem stage_cells (mem : RecurrentMemory) (low n : Nat) (z : Option Nat) (c : Nat) :
    (mem.stage low n z).cells c =
      { mem.cells c with
        src0 := if low ≤ c ∧ c < low + n then
            (if (mem.cells c).src = none then z else (mem.cells c).src)
          else (mem.cells c).src0
        src := if low ≤ c ∧ c < low + n then some c else (mem.cells c).src } := by
  show (if low ≤ c ∧ c < low + n then _ else mem.cells c : MemCell) = _
  by_cases hIn : low ≤ c ∧ c < low + n
  · rw [if_pos hIn, if_pos hIn, if_pos hIn]
  · rw [if_neg hIn, if_neg hIn, if_neg hIn]

/-! ## The whole function -/

/-- The cell is to be copied from the row that is zeroed, or from the row of a cell that
was empty and is told so. -/
def ReadsZero (m₀ mem : RecurrentMemory) (c : Nat) : Prop :=
  ((mem.cells c).src0 = mem.rsZ ∧ mem.rsZ ≠ none) ∨
    ∃ e, (mem.cells c).src0 = some e ∧ (m₀.cells e).seqId = ∅ ∧ (m₀.cells e).src = some e

/-- The range of cells of the last ubatch. -/
def InWindow (mem : RecurrentMemory) (c : Nat) : Prop := mem.head ≤ c ∧ c < mem.head + mem.n

/-- The sequence is not in the ubatch. -/
def Outside (u : RecurrentUbatch) (x : Nat) : Prop := ∀ set ∈ u.seqs, x ∉ set.ids

/-- What `find_slot` leaves, from the memory `m₀` without the coupled sequences on; what
was in the cells is permuted by `π`. -/
structure Slotted (m₀ : RecurrentMemory) (u : RecurrentUbatch) (π : Equiv.Perm Nat)
    (mem : RecurrentMemory) : Prop where
  shape : SameShape m₀ mem
  rsIdx : mem.rsIdx = m₀.rsIdx
  fits : u.seqs.length ≤ mem.n
  high : mem.head + mem.n ≤ m₀.size
  inv : Invariant mem
  own : ∀ (i : Nat) set, u.seqs[i]? = some set →
    (mem.cells (mem.head + i)).seqId = set.ids.toFinset ∧
      (mem.cells (mem.head + i)).pos = set.lastPos u.nSeqTokens
  fed : ∀ (i : Nat) set t, u.seqs[i]? = some set → (m₀.cells set.first).tail = some t →
    (mem.cells (mem.head + i)).src0 = some t
  fresh : ∀ (i : Nat) set, u.seqs[i]? = some set → (m₀.cells set.first).tail = none →
    ReadsZero m₀ mem (mem.head + i)
  stays : ∀ c, ¬ InWindow mem c → π c = c
  other : ∀ x, Outside u x → (mem.cells x).tail = (m₀.cells x).tail.map π
  otherPos : ∀ x t, Outside u x → (m₀.cells x).tail = some t →
    (mem.cells (π t)).pos = (m₀.cells t).pos
  moved : ∀ x t, Outside u x → (m₀.cells x).tail = some t → InWindow mem (π t) →
    (mem.cells (π t)).src0 = some t
  unused : ∀ c, InWindow mem c → (mem.cells c).seqId = ∅ → ReadsZero m₀ mem c
  beyond : ∀ c, ¬ InWindow mem c → (mem.cells c).seqId = ∅ →
    (m₀.cells c).seqId = ∅ ∧ (mem.cells c).src = (m₀.cells c).src
  zero : ∀ z, mem.rsZ = some z → InWindow mem z ∧ ∀ x t, (m₀.cells x).tail = some t → t ≠ z

/-- The sequences that get cells of their own. -/
def firsts (u : RecurrentUbatch) : List Nat := (u.seqs.map SlotSeq.first).reverse ++ []

variable {x : Nat}

theorem mem_firsts {u : RecurrentUbatch} : x ∈ firsts u ↔ ∃ set ∈ u.seqs, set.first = x := by
  unfold firsts
  rw [List.append_nil, List.mem_reverse, List.mem_map]

variable {done : List Nat} {c : Nat}

/-- A row that is to be copied is that of an old tail, or belongs to an empty cell. -/
theorem Placing.src_cases (hInv : Invariant m₀) (h : Placing m₀ done mem)
    (hSrc : (mem.cells c).src = some row) :
    (∃ x, x ∈ (mem.cells c).seqId ∧ (m₀.cells x).tail = some row) ∨
      (mem.cells c).seqId = ∅ ∧ row = c ∧ (m₀.cells c).seqId = ∅ ∧
        (m₀.cells c).src = some c := by
  by_cases hEmpty : (mem.cells c).seqId = ∅
  · have hOld := (h.empty c hEmpty).1.symm.trans hSrc
    have hRow := hInv.src c row hOld
    refine Or.inr ⟨hEmpty, hRow, ?_, hRow ▸ hOld⟩
    by_contra hUsed
    exact (h.kept c hUsed).1 hEmpty
  obtain ⟨x, hMember⟩ := nonempty_iff_ne_empty.mpr hEmpty
  obtain ⟨t, hTail, hRow, _⟩ := h.origin c x hMember
  rw [hSrc] at hRow
  obtain rfl := some.inj hRow
  exact Or.inl ⟨x, hMember, hTail⟩

/-- Every old tail is still a row that is to be copied. -/
theorem Placing.exists_src (h : Placing m₀ done mem) {t : Nat}
    (hTail : (m₀.cells x).tail = some t) :
    ∃ d < m₀.size, (mem.cells x).tail = some d ∧ x ∈ (mem.cells d).seqId ∧
      (mem.cells d).src = some t ∧ (mem.cells d).pos = (m₀.cells t).pos := by
  have hSome : ∃ d, (mem.cells x).tail = some d := by
    by_cases hDone : x ∈ done
    · obtain ⟨d, hD, _⟩ := h.alone x hDone
      exact ⟨d, hD⟩
    · exact ⟨t, (h.other x hDone).trans hTail⟩
  obtain ⟨d, hD⟩ := hSome
  obtain ⟨_, hLt, hIn⟩ := h.tail x d hD
  rcases hIn with hMember | ⟨_, _, hNone⟩
  · obtain ⟨t', hTail', hSrc, hPos⟩ := h.origin d x hMember
    obtain rfl : t = t' := some.inj (hTail.symm.trans hTail')
    exact ⟨d, hLt, hD, hMember, hSrc, hPos⟩
  · rw [hTail] at hNone
    cases hNone

/-- The cells of the ubatch are gathered: `st` is the range, `mem₁` is permuted, and `mem₂` has the
new members. -/
structure Gathered (m₀ : RecurrentMemory) (u : RecurrentUbatch) (st : SlotSearch)
    (π : Equiv.Perm Nat) (mem₁ mem₂ : RecurrentMemory) : Prop where
  inv : Invariant m₀
  fits : Fits u m₀.size
  coupled : ∀ x, Coupled u.seqs x → (m₀.cells x).tail = none
  placing : Placing m₀ (firsts u) st.mem
  range : InRange (firsts u) st
  perm : Permuted π st.mem mem₁
  fix : ∀ c, c < st.low ∨ st.high < c → π c = c
  place : ∀ (i : Nat) set, u.seqs[i]? = some set →
    (mem₁.cells set.first).tail = some (st.low + i) ∧ st.low + i ≤ st.high
  emplaced : Emplaced mem₁ u.nSeqTokens u.seqs st.low mem₂

namespace Gathered

variable {u : RecurrentUbatch} {st : SlotSearch} {π : Equiv.Perm Nat} {mem₁ mem₂ : RecurrentMemory}

variable (h : Gathered m₀ u st π mem₁ mem₂)

include h

theorem low_le : st.low ≤ st.high ∧ st.low + u.seqs.length ≤ st.high + 1 ∧ st.high < m₀.size := by
  have hPos : 0 < u.seqs.length := length_pos_iff.mpr h.fits.some
  have hLast : u.seqs.length - 1 < u.seqs.length := by omega
  have hPlace := (h.place _ _ (getElem?_eq_getElem hLast)).2
  have hHigh := h.range.high
  rw [h.placing.shape.size] at hHigh
  omega

/-- A sequence outside of the ubatch has the cell it had, in its new place. -/
theorem outside (hOut : Outside u x) : (mem₂.cells x).tail = (m₀.cells x).tail.map π := by
  have hNot : x ∉ firsts u := by
    intro hIn
    obtain ⟨set, hMem, rfl⟩ := mem_firsts.mp hIn
    exact hOut set hMem mem_cons_self
  rw [h.emplaced.tail x hOut, h.perm.tail, h.placing.other x hNot]

/-- The first sequences of the sets have their cells at the start of the range, all others are
outside of the ubatch. -/
theorem tail_cases (hTail : (mem₁.cells x).tail = some c) :
    (∃ (i : Nat) (set : SlotSeq), u.seqs[i]? = some set ∧ set.first = x ∧ c = st.low + i) ∨
      Outside u x := by
  by_cases hFirst : x ∈ firsts u
  · obtain ⟨set, hMem, rfl⟩ := mem_firsts.mp hFirst
    obtain ⟨i, hI⟩ := mem_iff_getElem?.mp hMem
    refine Or.inl ⟨i, set, hI, rfl, ?_⟩
    rw [(h.place i set hI).1] at hTail
    exact (some.inj hTail).symm
  refine Or.inr fun set hMem hX => ?_
  rcases mem_cons.mp hX with hSame | hCoupled
  · exact hFirst (mem_firsts.mpr ⟨set, hMem, hSame.symm⟩)
  · rw [h.perm.tail, h.placing.other x hFirst, h.coupled x ⟨set, hMem, hCoupled⟩] at hTail
    cases hTail

theorem preimage (c : Nat) :
    ∃ d, π d = c ∧ (st.low ≤ c ∧ c ≤ st.high ↔ st.low ≤ d ∧ d ≤ st.high) := by
  refine ⟨π.symm c, π.apply_symm_apply c, ?_⟩
  have hBack : ∀ d, (d < st.low ∨ st.high < d) → π.symm d = d := by
    intro d hOut
    rw [Equiv.symm_apply_eq]
    exact (h.fix d hOut).symm
  constructor
  · by_contra hOut
    have hFix := h.fix (π.symm c) (by omega)
    rw [π.apply_symm_apply] at hFix
    omega
  intro hIn
  by_contra hOut
  have hFix := hBack c (by omega)
  omega

variable {d : Nat}

/-- The cells that are not at the start of the range hold what they held, permuted. -/
theorem rest_cell (hRest : ∀ i < u.seqs.length, π d ≠ st.low + i) :
    (mem₂.cells (π d)).seqId = (st.mem.cells d).seqId ∧
      (mem₂.cells (π d)).pos = (st.mem.cells d).pos := by
  obtain ⟨hSeq, hPos⟩ := h.emplaced.cell (π d) hRest
  exact ⟨hSeq.trans (h.perm.seqId d), hPos.trans (h.perm.pos d)⟩

theorem src (d : Nat) : (mem₂.cells (π d)).src = (st.mem.cells d).src :=
  (h.emplaced.src _).trans (h.perm.src d)

/-- The members of a cell that is not at the start of the range are outside of the
ubatch. -/
theorem member_outside (hRest : ∀ i < u.seqs.length, π d ≠ st.low + i)
    (hMember : x ∈ (st.mem.cells d).seqId) :
    Outside u x := by
  have hTail : (mem₁.cells x).tail = some (π d) := by
    rw [h.perm.tail, h.placing.member d x hMember]
    rfl
  rcases h.tail_cases hTail with ⟨i, set, hSet, _, hAt⟩ | hOut
  · exact absurd hAt (hRest i (List.getElem?_eq_some_iff.mp hSet).1)
  · exact hOut

/-- The sequences outside of the range were not handed a cell. -/
theorem beyond_tail (hBeyond : ¬ (st.low ≤ d ∧ d ≤ st.high))
    (hTail : (st.mem.cells x).tail = some d) :
    (m₀.cells x).tail = some d := by
  by_cases hFirst : x ∈ firsts u
  · exact absurd (h.range.tails x hFirst d hTail) hBeyond
  · exact (h.placing.other x hFirst).symm.trans hTail

theorem beyond_src (hBeyond : ¬ (st.low ≤ d ∧ d ≤ st.high))
    (hSrc : (st.mem.cells d).src = some row) :
    row = d := by
  rcases h.placing.src_cases h.inv hSrc with ⟨x, hMember, hTail⟩ | ⟨_, hRow, _⟩
  · have hOld := h.beyond_tail hBeyond (h.placing.member d x hMember)
    exact some.inj (hTail.symm.trans hOld)
  · exact hRow

/-- If a cell of the range has no row to be copied from, some row of the range is not to
be copied. -/
theorem exists_zero
    (hNeed : ∃ c ∈ range' st.low (st.high + 1 - st.low), (mem₂.cells c).src = none) :
    mem₂.zeroRow st.low (st.high + 1 - st.low) ≠ none := by
  obtain ⟨c, hC, hNone⟩ := hNeed
  obtain ⟨hLowC, hHighC⟩ := mem_range'_1.mp hC
  obtain ⟨d, rfl, hIn⟩ := h.preimage c
  obtain ⟨hLow, hHigh⟩ := hIn.mp ⟨hLowC, by omega⟩
  rw [h.src] at hNone
  have hEmpty : (st.mem.cells d).seqId = ∅ := by
    by_contra hUsed
    obtain ⟨x, hMember⟩ := nonempty_iff_ne_empty.mpr hUsed
    obtain ⟨t, _, hSrc, _⟩ := h.placing.origin d x hMember
    rw [hNone] at hSrc
    cases hSrc
  have hOld : (m₀.cells d).seqId = ∅ := by
    by_contra hUsed
    exact (h.placing.kept d hUsed).1 hEmpty
  refine zeroRow_ne_none hLow (by omega) fun c' _ hSrc => ?_
  obtain ⟨d', rfl, _⟩ := h.preimage c'
  rw [h.src] at hSrc
  rcases h.placing.src_cases h.inv hSrc with ⟨x, _, hTail⟩ | ⟨_, hSame, _⟩
  · exact ne_empty_of_mem (h.inv.tail x d hTail).2 hOld
  · rw [hSame, hSrc] at hNone
    cases hNone

/-- The memory that `find_slot` leaves. -/
def staged (mem₂ : RecurrentMemory) (low n : Nat) : RecurrentMemory :=
  let mem := mem₂.stage low n (mem₂.zeroRow low n)
  { mem with head := low, n := n, used := mem.usedCells.card }

omit h in
theorem staged_cells (mem₂ : RecurrentMemory) (low n c : Nat) :
    (staged mem₂ low n).cells c =
      { mem₂.cells c with
        src0 := if low ≤ c ∧ c < low + n then
            (if (mem₂.cells c).src = none then mem₂.zeroRow low n else (mem₂.cells c).src)
          else (mem₂.cells c).src0
        src := if low ≤ c ∧ c < low + n then some c else (mem₂.cells c).src } :=
  stage_cells ..

omit h in
theorem mem_window (c : Nat) :
    InWindow (staged mem₂ st.low (st.high + 1 - st.low)) c ↔ st.low ≤ c ∧ c ≤ st.high := by
  show st.low ≤ c ∧ c < st.low + (st.high + 1 - st.low) ↔ _
  omega

theorem cell_cases (c : Nat) :
    (∃ (i : Nat) (set : SlotSeq), u.seqs[i]? = some set ∧ c = st.low + i) ∨
      ∃ d, π d = c ∧ ∀ i < u.seqs.length, π d ≠ st.low + i := by
  by_cases hNew : ∃ i < u.seqs.length, c = st.low + i
  · obtain ⟨i, hI, hC⟩ := hNew
    exact Or.inl ⟨i, _, getElem?_eq_getElem hI, hC⟩
  · obtain ⟨d, rfl, _⟩ := h.preimage c
    exact Or.inr ⟨d, rfl, fun i hI hSame => hNew ⟨i, hI, hSame⟩⟩

theorem staged_inv : Invariant (staged mem₂ st.low (st.high + 1 - st.low)) := by
  obtain ⟨hLowHigh, hLength, hHigh⟩ := h.low_le
  have hShape : SameShape m₀ mem₂ :=
    (h.placing.shape.trans h.perm.shape).trans h.emplaced.shape
  have hSize : mem₂.size = m₀.size := hShape.size
  have hCells := staged_cells mem₂ st.low (st.high + 1 - st.low)
  have hLt : ∀ d, d < m₀.size → π d < m₀.size := by
    intro d hD
    obtain ⟨d', hSame, hIn⟩ := h.preimage (π d)
    obtain rfl : d' = d := π.injective hSame
    by_cases hInside : st.low ≤ d' ∧ d' ≤ st.high
    · omega
    · rw [h.fix d' (by omega)]
      exact hD
  refine ⟨?_, ?_, rfl, ?_, ?_, ?_, ?_, ?_⟩
  · intro c x hMember
    rw [hCells c] at hMember
    rw [hCells x]
    show c < mem₂.size ∧ (mem₂.cells x).tail = some c
    rw [hSize]
    rcases h.cell_cases c with ⟨i, set, hSet, rfl⟩ | ⟨d, rfl, hRest⟩
    · have hX : x ∈ set.ids := mem_toFinset.mp ((h.emplaced.cellSet i set hSet).1 ▸ hMember)
      refine ⟨?_, h.emplaced.tailSet i set hSet x hX⟩
      have hI := (List.getElem?_eq_some_iff.mp hSet).1
      omega
    have hOld : x ∈ (st.mem.cells d).seqId := (h.rest_cell hRest).1 ▸ hMember
    have hTail := h.placing.member d x hOld
    refine ⟨hLt d (h.placing.tail x d hTail).2.1, ?_⟩
    rw [h.emplaced.tail x (h.member_outside hRest hOld), h.perm.tail, hTail]
    rfl
  · intro x c hTail
    rw [hCells x] at hTail
    rw [hCells c]
    show x < mem₂.size ∧ x ∈ (mem₂.cells c).seqId
    rw [hSize]
    by_cases hIn : ∃ set ∈ u.seqs, x ∈ set.ids
    · obtain ⟨set, hMem, hX⟩ := hIn
      obtain ⟨i, hSet⟩ := mem_iff_getElem?.mp hMem
      have hAt : (mem₂.cells x).tail = some (st.low + i) := h.emplaced.tailSet i set hSet x hX
      obtain rfl : st.low + i = c := some.inj (hAt.symm.trans hTail)
      refine ⟨h.fits.ids set hMem x hX, ?_⟩
      rw [(h.emplaced.cellSet i set hSet).1]
      exact mem_toFinset.mpr hX
    have hOut : Outside u x := fun set hMem hX => hIn ⟨set, hMem, hX⟩
    have hOld : (mem₁.cells x).tail = some c := (h.emplaced.tail x hOut).symm.trans hTail
    have hBefore := hOld
    rw [h.perm.tail] at hBefore
    obtain ⟨d, hD, rfl⟩ := map_eq_some_iff.mp hBefore
    obtain ⟨hXLt, _, hAt⟩ := h.placing.tail x d hD
    refine ⟨hXLt, ?_⟩
    have hMember : x ∈ (st.mem.cells d).seqId := by
      rcases hAt with hMember | ⟨_, hDone, _⟩
      · exact hMember
      · obtain ⟨set, hMem, hFirst⟩ := mem_firsts.mp hDone
        exact absurd (hFirst ▸ mem_cons_self) (hOut set hMem)
    rw [(h.rest_cell fun i hI hSame => ?_).1]
    · exact hMember
    have hPlace := (h.place i _ (getElem?_eq_getElem hI)).1
    have hFirstDone : (u.seqs[i]).first ∈ firsts u :=
      mem_firsts.mpr ⟨_, getElem_mem hI, rfl⟩
    obtain ⟨e, hE, hAlone⟩ := h.placing.alone _ hFirstDone
    rw [h.perm.tail, hE, ← hSame] at hPlace
    have hEd : e = d := π.injective (some.inj hPlace)
    have hX := hAlone x (hEd ▸ hD)
    exact hOut _ (getElem_mem hI) (hX ▸ mem_cons_self)
  · intro c
    rw [hCells c]
    rcases h.cell_cases c with ⟨i, set, hSet, rfl⟩ | ⟨d, rfl, hRest⟩
    · obtain ⟨hSeq, hPos⟩ := h.emplaced.cellSet i set hSet
      have hLast := h.fits.pos set (mem_of_getElem? hSet)
      rw [hSeq, hPos]
      refine ⟨fun hEmpty => ?_, fun hNeg => absurd hNeg (not_lt.mpr hLast)⟩
      rw [toFinset_eq_empty_iff] at hEmpty
      cases hEmpty
    obtain ⟨hSeq, hPos⟩ := h.rest_cell hRest
    rw [hSeq, hPos]
    constructor
    · intro hEmpty
      have hOld : (m₀.cells d).seqId = ∅ := by
        by_contra hUsed
        exact (h.placing.kept d hUsed).1 hEmpty
      rw [(h.placing.empty d hEmpty).2]
      exact (h.inv.pos d).mp hOld
    intro hNeg
    by_contra hUsed
    obtain ⟨x, hMember⟩ := nonempty_iff_ne_empty.mpr hUsed
    obtain ⟨t, hTail, _, hSame⟩ := h.placing.origin d x hMember
    rw [hSame] at hNeg
    exact absurd (h.inv.pos_of_tail hTail) (not_le.mpr hNeg)
  · intro c hUsed
    rw [hCells c] at hUsed ⊢
    by_cases hIn : st.low ≤ c ∧ c < st.low + (st.high + 1 - st.low)
    · rw [if_pos hIn]
    rw [if_neg hIn]
    have hFix : π c = c := h.fix c (by omega)
    have hRest : ∀ i < u.seqs.length, π c ≠ st.low + i := by
      omega
    have hOld : (st.mem.cells c).seqId ≠ ∅ := by
      rw [← (h.rest_cell hRest).1, hFix]
      exact hUsed
    obtain ⟨x, hMember⟩ := nonempty_iff_ne_empty.mpr hOld
    obtain ⟨t, _, hSrc, _⟩ := h.placing.origin c x hMember
    have hSame : (mem₂.cells c).src = (st.mem.cells c).src := by
      have hBoth := h.src c
      rwa [hFix] at hBoth
    rw [hSame, hSrc, h.beyond_src (by omega) hSrc]
  · intro c row hSrc
    rw [hCells c] at hSrc
    have hSrc' : (if st.low ≤ c ∧ c < st.low + (st.high + 1 - st.low) then some c
      else (mem₂.cells c).src) = some row := hSrc
    by_cases hIn : st.low ≤ c ∧ c < st.low + (st.high + 1 - st.low)
    · rw [if_pos hIn] at hSrc'
      exact (some.inj hSrc').symm
    rw [if_neg hIn] at hSrc'
    have hFix : π c = c := h.fix c (by omega)
    have hBoth := h.src c
    rw [hFix, hSrc'] at hBoth
    exact h.beyond_src (by omega) hBoth.symm
  · refine Or.inr ?_
    show st.low < mem₂.size
    omega
  show mem₂.nSeqMax ≤ mem₂.size
  rw [hShape.nSeqMax, hShape.size]
  exact h.inv.room

/-- Where a cell of the range reads zeros. -/
theorem reads_zero
    (hZero : (∃ c ∈ range' st.low (st.high + 1 - st.low), (mem₂.cells c).src = none) →
      mem₂.zeroRow st.low (st.high + 1 - st.low) ≠ none)
    (hLow : st.low ≤ π d) (hHigh : π d ≤ st.high) (hEmpty : (st.mem.cells d).seqId = ∅) :
    ReadsZero m₀ (staged mem₂ st.low (st.high + 1 - st.low)) (π d) := by
  have hIn : st.low ≤ π d ∧ π d < st.low + (st.high + 1 - st.low) := by omega
  have hCells := staged_cells mem₂ st.low (st.high + 1 - st.low) (π d)
  have hSrc0 : ((staged mem₂ st.low (st.high + 1 - st.low)).cells (π d)).src0 =
      if (mem₂.cells (π d)).src = none then mem₂.zeroRow st.low (st.high + 1 - st.low)
      else (mem₂.cells (π d)).src := by
    rw [hCells]
    exact if_pos hIn
  by_cases hNone : (mem₂.cells (π d)).src = none
  · refine Or.inl ⟨hSrc0.trans (if_pos hNone), ?_⟩
    exact hZero ⟨π d, mem_range'_1.mpr hIn, hNone⟩
  obtain ⟨row, hRow⟩ := ne_none_iff_exists'.mp hNone
  have hOld : (st.mem.cells d).src = some row := (h.src d).symm.trans hRow
  rcases h.placing.src_cases h.inv hOld with ⟨x, hMember, _⟩ | ⟨_, hSame, hEmpty₀, hSrc₀⟩
  · rw [hEmpty] at hMember
    exact absurd hMember (notMem_empty x)
  · exact Or.inr ⟨d, hSrc0.trans ((if_neg hNone).trans (hSame ▸ hRow)), hEmpty₀, hSrc₀⟩

theorem slotted
    (hZero : (∃ c ∈ range' st.low (st.high + 1 - st.low), (mem₂.cells c).src = none) →
      mem₂.zeroRow st.low (st.high + 1 - st.low) ≠ none) :
    Slotted m₀ u π (staged mem₂ st.low (st.high + 1 - st.low)) := by
  obtain ⟨hLowHigh, hLength, hHigh⟩ := h.low_le
  have hShape : SameShape m₀ mem₂ :=
    (h.placing.shape.trans h.perm.shape).trans h.emplaced.shape
  have hCells := staged_cells mem₂ st.low (st.high + 1 - st.low)
  have hTails : ∀ x, ((staged mem₂ st.low (st.high + 1 - st.low)).cells x).tail =
      (mem₂.cells x).tail := fun x => by rw [hCells x]
  have hSeqs : ∀ c, ((staged mem₂ st.low (st.high + 1 - st.low)).cells c).seqId =
      (mem₂.cells c).seqId := fun c => by rw [hCells c]
  have hPoss : ∀ c, ((staged mem₂ st.low (st.high + 1 - st.low)).cells c).pos =
      (mem₂.cells c).pos := fun c => by rw [hCells c]
  have hSrc0 : ∀ c row, st.low ≤ c → c ≤ st.high → (mem₂.cells c).src = some row →
      ((staged mem₂ st.low (st.high + 1 - st.low)).cells c).src0 = some row := by
    intro c row hLow hUp hSrc
    rw [hCells c]
    show (if _ then _ else _ : Option Nat) = some row
    rw [if_pos (show st.low ≤ c ∧ c < st.low + (st.high + 1 - st.low) by omega),
      if_neg (by rw [hSrc]; exact some_ne_none row), hSrc]
  -- where a first sequence is
  have hFirstAt : ∀ (i : Nat) set, u.seqs[i]? = some set → ∃ d,
      (st.mem.cells set.first).tail = some d ∧ π d = st.low + i := by
    intro i set hSet
    have hPlace := (h.place i set hSet).1
    rw [h.perm.tail] at hPlace
    exact map_eq_some_iff.mp hPlace
  -- where a sequence outside of the ubatch is
  have hOutAt : ∀ x t, Outside u x → (m₀.cells x).tail = some t →
      (mem₂.cells (π t)).src = some t ∧ (mem₂.cells (π t)).pos = (m₀.cells t).pos := by
    intro x t hOut hTail
    have hNot : x ∉ firsts u := by
      intro hIn
      obtain ⟨set, hMem, hFirst⟩ := mem_firsts.mp hIn
      exact hOut set hMem (hFirst ▸ mem_cons_self)
    obtain ⟨d, _, hD, hMember, hSrc, hPos⟩ := h.placing.exists_src hTail
    rw [h.placing.other x hNot, hTail] at hD
    obtain rfl := some.inj hD
    refine ⟨(h.src t).trans hSrc, ?_⟩
    have hRest : ∀ i < u.seqs.length, π t ≠ st.low + i := by
      intro i hI hAt
      obtain ⟨e, hE, hPlace⟩ := hFirstAt i _ (getElem?_eq_getElem hI)
      have hEt : e = t := π.injective (hPlace.trans hAt.symm)
      obtain ⟨e', hE', hAlone⟩ := h.placing.alone _
        (mem_firsts.mpr ⟨u.seqs[i], getElem_mem hI, rfl⟩)
      obtain rfl : e = e' := some.inj (hE.symm.trans hE')
      have hX := hAlone x ((h.placing.other x hNot).trans (hEt ▸ hTail))
      exact hNot (hX ▸ mem_firsts.mpr ⟨u.seqs[i], getElem_mem hI, rfl⟩)
    exact (h.rest_cell hRest).2.trans hPos
  refine ⟨hShape.trans ⟨rfl, rfl, rfl⟩,
    h.emplaced.rsIdx.trans (h.perm.rsIdx.trans h.placing.rsIdx), ?_, ?_, h.staged_inv, ?_, ?_, ?_,
    ?_, ?_, ?_, ?_, ?_, ?_, ?_⟩
  · show u.seqs.length ≤ st.high + 1 - st.low
    omega
  · show st.low + (st.high + 1 - st.low) ≤ m₀.size
    omega
  · intro i set hSet
    rw [hSeqs, hPoss]
    exact h.emplaced.cellSet i set hSet
  · intro i set t hSet hTail
    obtain ⟨d, hD, hAt⟩ := hFirstAt i set hSet
    obtain ⟨d', _, hD', _, hSrc, _⟩ := h.placing.exists_src hTail
    obtain rfl : d = d' := some.inj (hD.symm.trans hD')
    have hPlace := (h.place i set hSet).2
    refine hSrc0 (st.low + i) t (Nat.le_add_right _ _) hPlace ?_
    rw [← hAt, h.src, hSrc]
  · intro i set hSet hNone
    obtain ⟨d, hD, hAt⟩ := hFirstAt i set hSet
    have hPlace := (h.place i set hSet).2
    have hEmpty : (st.mem.cells d).seqId = ∅ := by
      rcases (h.placing.tail _ _ hD).2.2 with hMember | ⟨hEmpty, _⟩
      · obtain ⟨t, hTail, _⟩ := h.placing.origin d _ hMember
        rw [hNone] at hTail
        cases hTail
      · exact hEmpty
    show ReadsZero m₀ _ (st.low + i)
    rw [← hAt]
    exact h.reads_zero hZero (by omega) (by omega) hEmpty
  · intro c hOut
    rw [mem_window] at hOut
    exact h.fix c (by omega)
  · intro x hOut
    rw [hTails]
    exact h.outside hOut
  · intro x t hOut hTail
    rw [hPoss]
    exact (hOutAt x t hOut hTail).2
  · intro x t hOut hTail hWindow
    obtain ⟨hLow, hUp⟩ := (mem_window _).mp hWindow
    exact hSrc0 _ t hLow hUp (hOutAt x t hOut hTail).1
  · intro c hWindow hEmpty
    obtain ⟨hLow, hUp⟩ := (mem_window _).mp hWindow
    rw [hSeqs] at hEmpty
    rcases h.cell_cases c with ⟨i, set, hSet, rfl⟩ | ⟨d, rfl, hRest⟩
    · rw [(h.emplaced.cellSet i set hSet).1, toFinset_eq_empty_iff] at hEmpty
      cases hEmpty
    · exact h.reads_zero hZero hLow hUp ((h.rest_cell hRest).1.symm.trans hEmpty)
  · intro c hBeyond hEmpty
    rw [mem_window] at hBeyond
    have hFix : π c = c := h.fix c (by omega)
    have hRest : ∀ i < u.seqs.length, π c ≠ st.low + i := by
      omega
    rw [hSeqs] at hEmpty
    have hOld : (st.mem.cells c).seqId = ∅ := by
      rw [← (h.rest_cell hRest).1, hFix]
      exact hEmpty
    refine ⟨?_, ?_⟩
    · by_contra hUsed
      exact (h.placing.kept c hUsed).1 hOld
    rw [hCells c]
    have hSame := h.src c
    rw [hFix] at hSame
    refine (if_neg ?_).trans (hSame.trans (h.placing.empty c hOld).1)
    omega
  intro z hZ
  obtain ⟨hLow, hUp, hFree⟩ := zeroRow_some hZ
  refine ⟨(mem_window z).mpr ⟨hLow, by omega⟩, ?_⟩
  rintro x t hTail rfl
  obtain ⟨d, hD, _, _, hSrc, _⟩ := h.placing.exists_src hTail
  refine hFree (π d) ?_ ((h.src d).trans hSrc)
  rw [hShape.size]
  obtain ⟨d', hSame, hIn⟩ := h.preimage (π d)
  obtain rfl : d' = d := π.injective hSame
  by_cases hInside : st.low ≤ d' ∧ d' ≤ st.high
  · omega
  · rw [h.fix d' (by omega)]
    exact hD

end Gathered

theorem Invariant.slotStart (h : Invariant mem) (u : RecurrentUbatch) :
    let start := if mem.used + 2 * u.seqs.length < mem.head then mem.setHead 0 else mem
    Invariant start ∧ start.cells = mem.cells ∧ start.rsIdx = mem.rsIdx ∧
      SameShape mem start := by
  split
  · refine ⟨⟨h.member, h.tail, h.used, h.pos, h.own, h.src, Or.inl rfl, h.room⟩, rfl, rfl,
      rfl, rfl, rfl⟩
  · exact ⟨h, rfl, rfl, .refl mem⟩

/-- `find_slot` finds a slot for every ubatch that fits, and no assertion fails. -/
theorem Invariant.findSlot (h : Invariant mem) {u : RecurrentUbatch} (hFits : Fits u mem.size) :
    ∃ m₀ π mem', Dropped (Coupled u.seqs) mem m₀ ∧ m₀.rsIdx = mem.rsIdx ∧
      mem.findSlot u = some (true, mem') ∧ Slotted m₀ u π mem' := by
  obtain ⟨hStart, hStartCells, hStartIdx, hStartShape⟩ := h.slotStart u
  revert hStart hStartCells hStartIdx hStartShape
  unfold RecurrentMemory.findSlot
  generalize (if mem.used + 2 * u.seqs.length < mem.head then mem.setHead 0 else mem) = start
  intro hStart hStartCells hStartIdx hStartShape
  have hFitIds : ∀ set ∈ u.seqs, ∀ s ∈ set.ids, s < start.size := by
    rw [hStartShape.size]
    exact hFits.ids
  obtain ⟨hTrue, hDrop, hIdx⟩ := hStart.fitSeqs hFitIds
  dsimp only
  rw [if_neg (by rw [hTrue]; exact Bool.true_eq_false.mp)]
  have hDropMem : Dropped (Coupled u.seqs) mem (start.fitSeqs u.seqs).2 :=
    hDrop.of_start hStartCells hStartShape
  have hInv := h.dropped hDropMem
  have hSize : (start.fitSeqs u.seqs).2.size = mem.size := hDropMem.shape.size
  obtain ⟨set, hMem⟩ := exists_mem_of_ne_nil _ hFits.some
  have hPos : 0 < (start.fitSeqs u.seqs).2.size := by
    have hLt := hFits.ids set hMem set.first mem_cons_self
    omega
  have hNodup : (u.seqs.map SlotSeq.first).Nodup := by
    refine pairwise_map.mpr (hFits.disjoint.imp ?_)
    intro a b hApart hSame
    exact hApart a.first mem_cons_self (hSame ▸ mem_cons_self)
  have hRange : InRange [] { mem := (start.fitSeqs u.seqs).2
                             next := scanFrom (start.fitSeqs u.seqs).2.looksEmpty
                               (start.fitSeqs u.seqs).2.size (start.fitSeqs u.seqs).2.size
                               (start.fitSeqs u.seqs).2.head
                             low := (start.fitSeqs u.seqs).2.size - 1
                             high := 0 } :=
    ⟨fun x hX => absurd hX not_mem_nil, hPos⟩
  obtain ⟨st, hPlace, hPlacing, hInRange, _⟩ := hInv.placing.placeSeqs
    (fun _ => ⟨_, hInv.search hPos⟩) hNodup (fun _ _ => not_mem_nil)
    (fun set hMem => hSize ▸ hFits.ids set hMem set.first mem_cons_self) hRange
  rw [hPlace]
  dsimp only
  have hTails : ∀ set ∈ u.seqs, ∃ t, (st.mem.cells set.first).tail = some t ∧
      st.low ≤ t ∧ t ≤ st.high := by
    intro set hMem
    have hDone := mem_firsts.mpr ⟨set, hMem, rfl⟩
    obtain ⟨t, hTail, _⟩ := hPlacing.alone _ hDone
    exact ⟨t, hTail, hInRange.tails _ hDone t hTail⟩
  have hApart : u.seqs.Pairwise fun a b =>
      (st.mem.cells a.first).tail ≠ (st.mem.cells b.first).tail := by
    refine hFits.disjoint.imp_of_mem ?_
    intro a b hA _ hIds hSame
    obtain ⟨t, hTail, hAlone⟩ := hPlacing.alone _ (mem_firsts.mpr ⟨a, hA, rfl⟩)
    have hEq := hAlone b.first (hSame ▸ hTail)
    exact hIds a.first mem_cons_self (hEq ▸ mem_cons_self)
  obtain ⟨π, mem₁, hGather, hPerm, hFix, hPlaces⟩ := gather_permuted hTails hApart
  have hGathered : Gathered (start.fitSeqs u.seqs).2 u st π mem₁
      (mem₁.emplace u.nSeqTokens u.seqs st.low) :=
    ⟨hInv, ⟨hFits.some, hSize ▸ hFits.ids, hFits.disjoint, hFits.pos⟩, hDropMem.gone, hPlacing,
      hInRange, hPerm, hFix, hPlaces, emplace_spec mem₁ u.nSeqTokens st.low hFits.disjoint⟩
  have hLow := hGathered.low_le
  refine ⟨_, π, _, hDropMem, hIdx.trans hStartIdx, ?_, hGathered.slotted hGathered.exists_zero⟩
  unfold finishSlot
  rw [hGather]
  dsimp only
  rw [if_neg]
  · have hLength : u.seqs.length ≤ st.high + 1 - st.low := by omega
    rw [decide_eq_true hLength]
    rfl
  rintro ⟨hNeed, hNone⟩
  refine hGathered.exists_zero ?_ hNone
  exact hNeed

end RecurrentMemory

end Beellama.Ports
