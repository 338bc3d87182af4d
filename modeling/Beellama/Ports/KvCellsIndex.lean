import Beellama.Ports.KvCells
import Mathlib.Order.Interval.Finset.Nat

/-!
# The indexes of the KV cell table

The indexes, kept one cell at a time, always agree with a scan over all cells.  The argument opens the
table at one cell: `IndexedOver c J` says that the indexes count exactly the cells in `J`; removing
cell `i` leads from `J` to `J.erase i`, and entering it again leads back.
-/

namespace Beellama.Ports.KvCells

open Beellama.Verified List Function Finset

/-! ## Field lemmas -/

section Fields

variable (c : KvCells) (i s : Nat) (v : KvCell) (p : Int)
  (f : CountedMap Int → CountedMap Int) (g : Nat → Nat)

@[simp] theorem setCell_cell : (c.setCell i v).cell = update c.cell i v := rfl
@[simp] theorem setCell_size : (c.setCell i v).size = c.size := rfl
@[simp] theorem setCell_used : (c.setCell i v).used = c.used := rfl
@[simp] theorem setCell_seqPos : (c.setCell i v).seqPos = c.seqPos := rfl
@[simp] theorem setCell_seqUsed : (c.setCell i v).seqUsed = c.seqUsed := rfl
@[simp] theorem updSeq_cell : (c.updSeq s f g).cell = c.cell := rfl
@[simp] theorem updSeq_size : (c.updSeq s f g).size = c.size := rfl
@[simp] theorem updSeq_used : (c.updSeq s f g).used = c.used := rfl
@[simp] theorem updSeq_seqPos :
    (c.updSeq s f g).seqPos = update c.seqPos s (f (c.seqPos s)) := rfl
@[simp] theorem updSeq_seqUsed :
    (c.updSeq s f g).seqUsed = update c.seqUsed s (g (c.seqUsed s)) := rfl
@[simp] theorem usedErase_cell : (c.usedErase i).cell = c.cell := rfl
@[simp] theorem usedErase_size : (c.usedErase i).size = c.size := rfl
@[simp] theorem usedErase_used : (c.usedErase i).used = c.used.erase i := rfl
@[simp] theorem usedInsert_cell : (c.usedInsert i).cell = c.cell := rfl
@[simp] theorem usedInsert_size : (c.usedInsert i).size = c.size := rfl
@[simp] theorem usedInsert_used : (c.usedInsert i).used = insert i c.used := rfl
@[simp] theorem markShift_cell : c.markShift.cell = c.cell := rfl
@[simp] theorem markShift_size : c.markShift.size = c.size := rfl
@[simp] theorem markShift_used : c.markShift.used = c.used := rfl

end Fields

/-- The loop of `seq_pos_rm` and `seq_pos_add` touches the indexes of the sequences in `S` and
nothing else. -/
private def updSeqs (c : KvCells) (n : Nat) (S : Finset Nat)
    (f : CountedMap Int → CountedMap Int) (g : Nat → Nat) : KvCells :=
  (List.range n).foldl (fun acc s => if s ∈ S then acc.updSeq s f g else acc) c

private theorem updSeqs_spec (c : KvCells) (n : Nat) (S : Finset Nat)
    (f : CountedMap Int → CountedMap Int) (g : Nat → Nat) :
    c.updSeqs n S f g =
      { c with
        seqPos := fun s => if s < n ∧ s ∈ S then f (c.seqPos s) else c.seqPos s
        seqUsed := fun s => if s < n ∧ s ∈ S then g (c.seqUsed s) else c.seqUsed s } := by
  induction n with
  | zero => simp [updSeqs]
  | succ n ih =>
    unfold updSeqs at ih ⊢
    rw [range_succ, foldl_append, ih]
    simp only [foldl_cons, foldl_nil]
    by_cases hn : n ∈ S
    · rw [if_pos hn]
      simp only [updSeq, KvCells.mk.injEq, true_and]
      constructor <;> funext s <;> rcases Nat.lt_trichotomy s n with h | h | h
      all_goals first
        | (subst h; simp [hn])
        | simp [show s ≠ n by omega, show s < n + 1 ↔ s < n by omega]
    rw [if_neg hn]
    simp only [KvCells.mk.injEq, true_and]
    constructor <;> funext s <;> by_cases hs : s = n
    all_goals first
      | (subst hs; simp [hn])
      | simp [show s < n + 1 ↔ s < n by omega]

theorem seqPosRm_eq (c : KvCells) (i : Nat) :
    c.seqPosRm i =
      { c with
        seqPos := fun s => if s < maxSeq ∧ s ∈ (c.cell i).seq
          then (c.seqPos s).decr (c.cell i).pos else c.seqPos s
        seqUsed := fun s => if s < maxSeq ∧ s ∈ (c.cell i).seq
          then c.seqUsed s - 1 else c.seqUsed s } :=
  updSeqs_spec c maxSeq (c.cell i).seq (·.decr (c.cell i).pos) (· - 1)

theorem seqPosAdd_eq (c : KvCells) (i : Nat) :
    c.seqPosAdd i =
      { c with
        seqPos := fun s => if s < maxSeq ∧ s ∈ (c.cell i).seq
          then (c.seqPos s).incr (c.cell i).pos else c.seqPos s
        seqUsed := fun s => if s < maxSeq ∧ s ∈ (c.cell i).seq
          then c.seqUsed s + 1 else c.seqUsed s } :=
  updSeqs_spec c maxSeq (c.cell i).seq (·.incr (c.cell i).pos) (· + 1)

section Loops

variable (c : KvCells) (i : Nat)

@[simp] theorem seqPosRm_cell : (c.seqPosRm i).cell = c.cell := by rw [seqPosRm_eq]
@[simp] theorem seqPosRm_size : (c.seqPosRm i).size = c.size := by rw [seqPosRm_eq]
@[simp] theorem seqPosRm_used : (c.seqPosRm i).used = c.used := by rw [seqPosRm_eq]
@[simp] theorem seqPosAdd_cell : (c.seqPosAdd i).cell = c.cell := by rw [seqPosAdd_eq]
@[simp] theorem seqPosAdd_size : (c.seqPosAdd i).size = c.size := by rw [seqPosAdd_eq]
@[simp] theorem seqPosAdd_used : (c.seqPosAdd i).used = c.used := by rw [seqPosAdd_eq]

end Loops

/-! ## Counting by a scan -/

/-- Number of cells in `J` that sequence `s` owns. -/
def memberCount (c : KvCells) (J : Finset Nat) (s : Nat) : Nat :=
  (J.filter fun i => s ∈ (c.cell i).seq).card

/-- Number of cells in `J` that sequence `s` owns at position `p`. -/
def positionCount (c : KvCells) (J : Finset Nat) (s : Nat) (p : Int) : Nat :=
  (J.filter fun i => s ∈ (c.cell i).seq ∧ (c.cell i).pos = p).card

variable {J : Finset Nat} {i : Nat}

private theorem card_filter_erase (hi : i ∈ J) (P : Nat → Prop) [DecidablePred P] :
    (J.filter P).card = ((J.erase i).filter P).card + if P i then 1 else 0 := by
  conv_lhs => rw [← insert_erase hi]
  rw [filter_insert]
  split
  · rw [card_insert_of_notMem (by simp)]
  · simp

theorem memberCount_erase (c : KvCells) (hi : i ∈ J) (s : Nat) :
    memberCount c J s =
      memberCount c (J.erase i) s + if s ∈ (c.cell i).seq then 1 else 0 :=
  card_filter_erase hi _

theorem positionCount_erase (c : KvCells) (hi : i ∈ J) (s : Nat) (p : Int) :
    positionCount c J s p =
      positionCount c (J.erase i) s p +
        if s ∈ (c.cell i).seq ∧ (c.cell i).pos = p then 1 else 0 :=
  card_filter_erase hi _

variable {d : KvCells} {c : KvCells}

theorem memberCount_congr (h : ∀ j ∈ J, (d.cell j).seq = (c.cell j).seq) (s : Nat) :
    memberCount d J s = memberCount c J s := by
  unfold memberCount
  congr 1
  apply Finset.filter_congr
  intro j hj
  rw [h j hj]

theorem positionCount_congr
    (h : ∀ j ∈ J, (d.cell j).seq = (c.cell j).seq ∧ (d.cell j).pos = (c.cell j).pos)
    (s : Nat) (p : Int) : positionCount d J s p = positionCount c J s p := by
  unfold positionCount
  congr 1
  apply Finset.filter_congr
  intro j hj
  rw [(h j hj).1, (h j hj).2]

/-- Overwriting cell `i` changes a count only through the cell itself. -/
theorem memberCount_setCell (c : KvCells) (hi : i ∈ J) (v : KvCell) (s : Nat) :
    memberCount (c.setCell i v) J s =
      memberCount c (J.erase i) s + if s ∈ v.seq then 1 else 0 := by
  rw [memberCount_erase _ hi]
  congr 1
  · exact memberCount_congr (fun j hj => by simp [ne_of_mem_erase hj]) s
  · simp

theorem positionCount_setCell (c : KvCells) (hi : i ∈ J) (v : KvCell) (s : Nat) (p : Int) :
    positionCount (c.setCell i v) J s p =
      positionCount c (J.erase i) s p + if s ∈ v.seq ∧ v.pos = p then 1 else 0 := by
  rw [positionCount_erase _ hi]
  congr 1
  · exact positionCount_congr (fun j hj => by simp [ne_of_mem_erase hj]) s p
  · simp

/-! ## Opening and closing the indexes at one cell -/

/-- The sequence indexes count exactly the cells in `J`. -/
structure IndexedOver (c : KvCells) (J : Finset Nat) : Prop where
  seqPos : ∀ s, (c.seqPos s).Represents (positionCount c J s)
  seqUsed : ∀ s, c.seqUsed s = memberCount c J s

section

variable (h : IndexedOver c J)

include h

theorem IndexedOver.congr (hPos : d.seqPos = c.seqPos) (hUsed : d.seqUsed = c.seqUsed)
    (hCell : ∀ j ∈ J, (d.cell j).seq = (c.cell j).seq ∧ (d.cell j).pos = (c.cell j).pos) :
    IndexedOver d J where
  seqPos s := by
    rw [hPos]
    exact (h.seqPos s).congr fun p => (positionCount_congr hCell s p).symm
  seqUsed s := by
    rw [hUsed, h.seqUsed s]
    exact (memberCount_congr (fun j hj => (hCell j hj).1) s).symm

omit h in
/-- What is written to cell `i` does not matter while the table is open there. -/
theorem IndexedOver.setCell (h : IndexedOver c (J.erase i)) (v : KvCell) :
    IndexedOver (c.setCell i v) (J.erase i) := by
  refine IndexedOver.congr h ?_ ?_ ?_
  · rfl
  · rfl
  · intro j hj
    simp [ne_of_mem_erase hj]

theorem IndexedOver.erase_unowned (hi : i ∈ J) (hSeq : (c.cell i).seq = ∅) :
    IndexedOver c (J.erase i) where
  seqPos s := (h.seqPos s).congr fun p => by simp [positionCount_erase c hi, hSeq]
  seqUsed s := by simp [h.seqUsed s, memberCount_erase c hi, hSeq]

omit h in
theorem IndexedOver.insert_unowned (h : IndexedOver c (J.erase i)) (hi : i ∈ J)
    (hSeq : (c.cell i).seq = ∅) :
    IndexedOver c J where
  seqPos s := (h.seqPos s).congr fun p => by simp [positionCount_erase c hi, hSeq]
  seqUsed s := by simp [h.seqUsed s, memberCount_erase c hi, hSeq]

/-- `seq_pos_rm` opens the table at cell `i`. -/
theorem IndexedOver.seqPosRm (hi : i ∈ J) (hBound : ∀ s ∈ (c.cell i).seq, s < maxSeq) :
    IndexedOver (c.seqPosRm i) (J.erase i) := by
  rw [seqPosRm_eq]
  constructor
  · intro s
    show CountedMap.Represents _ (positionCount c (J.erase i) s)
    by_cases hs : s ∈ (c.cell i).seq
    · simp only [hBound s hs, hs, and_self, if_true]
      apply (h.seqPos s).decr
      · rw [positionCount_erase c hi, if_pos ⟨hs, rfl⟩]
      · intro p hp
        rw [positionCount_erase c hi, if_neg (by simp [Ne.symm hp]), Nat.add_zero]
    · simp only [hs, and_false, if_false]
      exact (h.seqPos s).congr fun p => by simp [positionCount_erase c hi, hs]
  intro s
  show (if s < maxSeq ∧ s ∈ (c.cell i).seq then c.seqUsed s - 1 else c.seqUsed s) =
    memberCount c (J.erase i) s
  have hSplit := memberCount_erase c hi s
  rw [← h.seqUsed s] at hSplit
  by_cases hs : s ∈ (c.cell i).seq
  · simp only [hBound s hs, hs, and_self, if_true] at hSplit ⊢
    omega
  · simp only [hs, and_false, if_false] at hSplit ⊢
    omega

omit h in
/-- `seq_pos_add` closes it again. -/
theorem IndexedOver.seqPosAdd (h : IndexedOver c (J.erase i)) (hi : i ∈ J)
    (hBound : ∀ s ∈ (c.cell i).seq, s < maxSeq) : IndexedOver (c.seqPosAdd i) J := by
  rw [seqPosAdd_eq]
  constructor
  · intro s
    show CountedMap.Represents _ (positionCount c J s)
    by_cases hs : s ∈ (c.cell i).seq
    · simp only [hBound s hs, hs, and_self, if_true]
      apply (h.seqPos s).incr
      · rw [positionCount_erase c hi, if_pos ⟨hs, rfl⟩]
      · intro p hp
        rw [positionCount_erase c hi, if_neg (by simp [Ne.symm hp]), Nat.add_zero]
    · simp only [hs, and_false, if_false]
      exact (h.seqPos s).congr fun p => by simp [positionCount_erase c hi, hs]
  intro s
  show (if s < maxSeq ∧ s ∈ (c.cell i).seq then c.seqUsed s + 1 else c.seqUsed s) =
    memberCount c J s
  rw [memberCount_erase c hi s, ← h.seqUsed s]
  by_cases hs : s ∈ (c.cell i).seq
  · simp [hBound s hs, hs]
  · simp [hs]

/-- Entering a single sequence into a cell that does not have it. -/
theorem IndexedOver.insertSeq {i s : Nat}
    (hi : i ∈ J) (hs : s ∉ (c.cell i).seq) :
    IndexedOver
      ((c.setCell i { c.cell i with seq := insert s (c.cell i).seq }).seqPosInc s
        (c.cell i).pos) J := by
  constructor
  · intro t
    show CountedMap.Represents _ (positionCount (c.setCell i _) J t)
    by_cases ht : t = s
    · subst ht
      simp only [seqPosInc, updSeq_seqPos, setCell_seqPos, update_self]
      apply (h.seqPos t).incr
      · rw [positionCount_setCell c hi, positionCount_erase c hi]
        simp [hs]
      intro p hp
      rw [positionCount_setCell c hi, positionCount_erase c hi]
      simp [Ne.symm hp]
    simp only [seqPosInc, updSeq_seqPos, setCell_seqPos, update_of_ne ht]
    apply (h.seqPos t).congr
    intro p
    rw [positionCount_setCell c hi, positionCount_erase c hi]
    simp [ht]
  intro t
  show update c.seqUsed s (c.seqUsed s + 1) t = memberCount (c.setCell i _) J t
  have hSplit := memberCount_erase c hi t
  rw [← h.seqUsed t] at hSplit
  rw [memberCount_setCell c hi]
  by_cases ht : t = s
  · subst ht
    simp only [hs, if_false, Nat.add_zero] at hSplit
    simp [hSplit]
  · simp [ht, hSplit]

/-- Taking a single sequence out of a cell that has it. -/
theorem IndexedOver.eraseSeq {i s : Nat}
    (hi : i ∈ J) (hs : s ∈ (c.cell i).seq) :
    IndexedOver
      ((c.setCell i { c.cell i with seq := (c.cell i).seq.erase s }).seqPosDec s
        (c.cell i).pos) J := by
  constructor
  · intro t
    show CountedMap.Represents _ (positionCount (c.setCell i _) J t)
    by_cases ht : t = s
    · subst ht
      simp only [seqPosDec, updSeq_seqPos, setCell_seqPos, update_self]
      apply (h.seqPos t).decr
      · rw [positionCount_setCell c hi, positionCount_erase c hi]
        simp [hs]
      intro p hp
      rw [positionCount_setCell c hi, positionCount_erase c hi]
      simp [Ne.symm hp]
    simp only [seqPosDec, updSeq_seqPos, setCell_seqPos, update_of_ne ht]
    apply (h.seqPos t).congr
    intro p
    rw [positionCount_setCell c hi, positionCount_erase c hi]
    simp [ht]
  intro t
  show update c.seqUsed s (c.seqUsed s - 1) t = memberCount (c.setCell i _) J t
  have hSplit := memberCount_erase c hi t
  rw [← h.seqUsed t] at hSplit
  rw [memberCount_setCell c hi]
  by_cases ht : t = s
  · subst ht
    simp only [hs, if_true] at hSplit
    simp [hSplit]
  · simp [ht, hSplit]

/-! ## The index invariant -/

/-- The indexes agree with a scan over the cells, every owner of a cell in use fits the bitset, and
nothing lives past the end. -/
structure IndexInv (c : KvCells) : Prop where
  used : c.used = (Finset.range c.size).filter fun i => (c.cell i).pos ≠ -1
  indexed : IndexedOver c (Finset.range c.size)
  unowned : ∀ i < c.size, (c.cell i).pos = -1 → (c.cell i).seq = ∅
  bound : ∀ i, ∀ s ∈ (c.cell i).seq, s < maxSeq
  outside : ∀ i, c.size ≤ i → c.cell i = {}

omit h in
theorem IndexInv.mem_used (h : IndexInv c) (i : Nat) :
    i ∈ c.used ↔ i < c.size ∧ (c.cell i).pos ≠ -1 := by
  rw [h.used]
  simp

theorem IndexedOver.of_eq (hCell : d.cell = c.cell) (hPos : d.seqPos = c.seqPos)
    (hUsed : d.seqUsed = c.seqUsed) :
    IndexedOver d J :=
  h.congr hPos hUsed fun j _ => by simp [hCell]

theorem IndexedOver.usedErase (i : Nat) : IndexedOver (c.usedErase i) J :=
  h.of_eq rfl rfl rfl

theorem IndexedOver.usedInsert (i : Nat) : IndexedOver (c.usedInsert i) J :=
  h.of_eq rfl rfl rfl

end

theorem IndexInv.markShift (h : IndexInv c) : IndexInv c.markShift :=
  ⟨h.used, h.indexed.of_eq rfl rfl rfl, h.unowned, h.bound, h.outside⟩

/-- Overwriting one cell keeps the invariant when the sequence indexes are
closed again and the used set follows the new position. -/
theorem IndexInv.overwrite {v : KvCell} (h : IndexInv c)
    (hi : i < c.size) (hSize : d.size = c.size) (hCell : d.cell = Function.update c.cell i v)
    (hUsed : d.used = if v.pos = -1 then c.used.erase i else insert i c.used)
    (hIndexed : IndexedOver d (Finset.range c.size))
    (hUnowned : v.pos = -1 → v.seq = ∅) (hBound : ∀ s ∈ v.seq, s < maxSeq) :
    IndexInv d where
  used := by
    ext j
    rw [hUsed, hSize, hCell]
    by_cases hj : j = i
    · subst hj
      by_cases hv : v.pos = -1 <;> simp [hv, hi]
    · by_cases hv : v.pos = -1 <;> simp [hv, hj, h.mem_used]
  indexed := by rw [hSize]; exact hIndexed
  unowned j hj := by
    rw [hSize] at hj
    rw [hCell]
    by_cases hji : j = i
    · subst hji
      simpa using hUnowned
    · simpa [hji] using h.unowned j hj
  bound j := by
    rw [hCell]
    by_cases hji : j = i
    · subst hji
      simpa using hBound
    · simpa [hji] using h.bound j
  outside j hj := by
    rw [hSize] at hj
    rw [hCell, update_of_ne (by omega)]
    exact h.outside j hj

theorem indexInv_blank (n : Nat) : IndexInv { size := n } where
  used := by simp
  indexed :=
    { seqPos := fun s => by
        apply CountedMap.Represents.empty.congr
        intro p
        simp [positionCount]
      seqUsed := fun s => by simp [memberCount] }
  unowned _ _ _ := rfl
  bound := by simp
  outside _ _ := rfl

section Steps

variable {c : KvCells} {i s : Nat} (h : IndexInv c) (hi : i < c.size)

include h hi

private theorem open_at : IndexedOver (c.seqPosRm i) ((Finset.range c.size).erase i) :=
  h.indexed.seqPosRm (by simpa using hi) (h.bound i)

theorem IndexInv.empty_cell (w : KvCell) (hPos : w.pos = -1) (hSeq : w.seq = ∅) :
    IndexInv (((c.seqPosRm i).setCell i w).usedErase i) := by
  refine h.overwrite (v := w) hi (by simp) (by simp) (by simp [hPos]) ?_ (fun _ => hSeq)
    (by simp [hSeq])
  apply IndexedOver.usedErase
  exact ((open_at h hi).setCell w).insert_unowned (by simpa using hi) (by simp [hSeq])

theorem IndexInv.rm : IndexInv (c.rm i) :=
  h.empty_cell hi {} rfl rfl

theorem IndexInv.refill (w : KvCell) (hUsed : (c.cell i).pos ≠ -1) (hPos : w.pos ≠ -1)
    (hBound : ∀ s ∈ w.seq, s < maxSeq) :
    IndexInv (((c.seqPosRm i).setCell i w).seqPosAdd i) := by
  refine h.overwrite (v := w) hi (by simp) (by simp) ?_ ?_ (fun hw => absurd hw hPos) hBound
  · simp [hPos, insert_eq_of_mem ((h.mem_used i).mpr ⟨hi, hUsed⟩)]
  · exact ((open_at h hi).setCell w).seqPosAdd (by simpa using hi) (by simpa using hBound)

theorem IndexInv.posAdd (d : Int) (hUsed : (c.cell i).pos ≠ -1) : IndexInv (c.posAdd i d).1 := by
  unfold KvCells.posAdd
  simp only [seqPosRm_cell]
  split
  · exact (h.empty_cell hi { c.cell i with pos := -1, shift := 0, seq := ∅ } rfl rfl).markShift
  rename_i hNonneg
  refine (h.refill hi
    { c.cell i with pos := (c.cell i).pos + d, shift := (c.cell i).shift + d }
    hUsed ?_ (h.bound i)).markShift
  show (c.cell i).pos + d ≠ -1
  omega

theorem IndexInv.posDiv (d : Int) (hUsed : (c.cell i).pos ≠ -1)
    (hQuot : (c.cell i).pos.tdiv d ≠ -1) : IndexInv (c.posDiv i d) := by
  unfold KvCells.posDiv
  simp only [seqPosRm_cell]
  exact (h.refill hi
    { c.cell i with
      pos := (c.cell i).pos.tdiv d
      shift := (c.cell i).shift + ((c.cell i).pos - (c.cell i).pos.tdiv d) }
    hUsed hQuot (h.bound i)).markShift

theorem IndexInv.seqAdd (hUsed : (c.cell i).pos ≠ -1) (hs : s ∉ (c.cell i).seq)
    (hMax : s < maxSeq) : IndexInv (c.seqAdd i s) := by
  refine h.overwrite (v := { c.cell i with seq := insert s (c.cell i).seq }) hi rfl rfl ?_
    (h.indexed.insertSeq (by simpa using hi) hs) (fun hw => absurd hw hUsed) ?_
  · simp [hUsed, KvCells.seqAdd, seqPosInc,
      insert_eq_of_mem ((h.mem_used i).mpr ⟨hi, hUsed⟩)]
  intro t ht
  rcases mem_insert.mp ht with rfl | ht
  · exact hMax
  · exact h.bound i t ht

theorem IndexInv.seqRm (hUsed : (c.cell i).pos ≠ -1) (hs : s ∈ (c.cell i).seq) :
    IndexInv (c.seqRm i s).1 := by
  have hMem : i ∈ Finset.range c.size := by simpa using hi
  have hErased := h.indexed.eraseSeq hMem hs
  unfold KvCells.seqRm
  simp only [seqPosDec, updSeq_cell, setCell_cell, update_self] at hErased ⊢
  split
  · rename_i hNone
    refine h.overwrite (v := {}) hi rfl (by simp) (by simp) ?_ (fun _ => rfl) (by simp)
    apply IndexedOver.usedErase
    refine IndexedOver.insert_unowned ?_ hMem (by simp)
    exact (hErased.erase_unowned hMem (by simpa using hNone)).setCell {}
  refine h.overwrite (v := { c.cell i with seq := (c.cell i).seq.erase s }) hi rfl
    (by simp) ?_ hErased (fun hw => absurd hw hUsed)
    (fun t ht => h.bound i t (mem_of_mem_erase ht))
  simp [hUsed, insert_eq_of_mem ((h.mem_used i).mpr ⟨hi, hUsed⟩)]

theorem IndexInv.seqRmCell : IndexInv (c.seqRmCell i s).1 := by
  unfold KvCells.seqRmCell
  split
  · exact h
  rename_i hHas
  simp only [not_or, not_not] at hHas
  exact h.seqRm hi hHas.1 hHas.2

theorem IndexInv.seqKeep (hMax : s < maxSeq) : IndexInv (c.seqKeep i s).1 := by
  have hMem : i ∈ Finset.range c.size := by simpa using hi
  unfold KvCells.seqKeep
  split
  · rename_i hs
    have hUsed : (c.cell i).pos ≠ -1 := by
      intro hEmpty
      simp [h.unowned i hi hEmpty] at hs
    have hCleared : IndexedOver ((c.seqPosRm i).setCell i { c.cell i with seq := ∅ })
        (Finset.range c.size) :=
      ((open_at h hi).setCell _).insert_unowned hMem (by simp)
    have hKept := hCleared.insertSeq (s := s) hMem (by simp)
    simp only [setCell_cell, seqPosRm_cell, Function.update_self] at hKept
    refine h.overwrite (v := { c.cell i with seq := {s} }) hi (by simp [seqPosInc])
      (by simp [seqPosInc]) ?_ (IndexedOver.of_eq hKept ?_ ?_ ?_)
      (fun hw => absurd hw hUsed) (by simpa using hMax)
    · simp [hUsed, seqPosInc, Finset.insert_eq_of_mem ((h.mem_used i).mpr ⟨hi, hUsed⟩)]
    · simp [seqPosInc]
    · simp [seqPosInc]
    · simp [seqPosInc]
  split
  · exact h.empty_cell hi {} rfl rfl
  · exact h

theorem IndexInv.posSet (p : Int) (hp : p ≠ -1) (hEmpty : (c.cell i).pos = -1) :
    IndexInv (c.posSet i p) := by
  have hMem : i ∈ Finset.range c.size := by simpa using hi
  have hSeq := h.unowned i hi hEmpty
  refine h.overwrite (v := { c.cell i with pos := p }) hi rfl rfl (by simp [hp, KvCells.posSet])
    ?_ (fun _ => hSeq) (by simp [hSeq])
  apply IndexedOver.usedInsert
  exact ((h.indexed.erase_unowned hMem hSeq).setCell { c.cell i with pos := p }).insert_unowned
    hMem (by simp [hSeq])

theorem IndexInv.extSet (e : KvCellExt) : IndexInv (c.extSet i e) := by
  refine h.overwrite (v := { c.cell i with ext := e }) hi rfl rfl ?_ ?_
    (h.unowned i hi) (h.bound i)
  · by_cases hUsed : (c.cell i).pos = -1
    · have hNot : i ∉ c.used := by simp [h.mem_used, hUsed]
      simp [hUsed, KvCells.extSet, erase_eq_of_notMem hNot]
    · simp [hUsed, KvCells.extSet,
        insert_eq_of_mem ((h.mem_used i).mpr ⟨hi, hUsed⟩)]
  refine h.indexed.congr rfl rfl ?_
  intro j _
  by_cases hj : j = i
  · subst hj
    simp [KvCells.extSet]
  · simp [KvCells.extSet, hj]

/-- One iteration of `set` keeps the invariant when the value written is itself
consistent. -/
theorem IndexInv.setOne (v : KvCell) (hUnowned : v.pos = -1 → v.seq = ∅)
    (hBound : ∀ s ∈ v.seq, s < maxSeq) : IndexInv (c.setOne i v) := by
  have hMem : i ∈ Finset.range c.size := by simpa using hi
  by_cases hOld : (c.cell i).pos = -1
  · have hSeq := h.unowned i hi hOld
    have hOpen := h.indexed.erase_unowned hMem hSeq
    by_cases hNew : v.pos = -1
    · have hNot : i ∉ c.used := by simp [h.mem_used, hOld]
      refine h.overwrite (v := { v with shift := (c.cell i).shift }) hi ?_ ?_ ?_ ?_
        hUnowned hBound
      · simp [KvCells.setOne, hOld, hNew]
      · simp [KvCells.setOne, hOld, hNew]
      · simp [KvCells.setOne, hOld, hNew, erase_eq_of_notMem hNot]
      have hClosed := (hOpen.setCell { v with shift := (c.cell i).shift }).insert_unowned hMem
        (by simp [hUnowned hNew])
      simpa [KvCells.setOne, hOld, hNew] using hClosed
    refine h.overwrite (v := { v with shift := (c.cell i).shift }) hi ?_ ?_ ?_ ?_
      hUnowned hBound
    · simp [KvCells.setOne, hOld, hNew]
    · simp [KvCells.setOne, hOld, hNew]
    · simp [KvCells.setOne, hOld, hNew]
    have hClosed := ((hOpen.usedInsert i).setCell
      { v with shift := (c.cell i).shift }).seqPosAdd hMem (by simpa using hBound)
    simpa [KvCells.setOne, hOld, hNew] using hClosed
  by_cases hNew : v.pos = -1
  · refine h.overwrite (v := { v with shift := (c.cell i).shift }) hi ?_ ?_ ?_ ?_
      hUnowned hBound
    · simp [KvCells.setOne, hOld, hNew]
    · simp [KvCells.setOne, hOld, hNew]
    · simp [KvCells.setOne, hOld, hNew]
    have hClosed := (((h.indexed.usedErase i).seqPosRm hMem (h.bound i)).setCell
      { v with shift := (c.cell i).shift }).insert_unowned hMem (by simp [hUnowned hNew])
    simpa [KvCells.setOne, hOld, hNew] using hClosed
  · have hInv := h.refill hi { v with shift := (c.cell i).shift } hOld hNew hBound
    simpa [KvCells.setOne, hOld, hNew] using hInv

end Steps

variable (h : IndexInv c)

include h

theorem IndexInv.resetShift : IndexInv c.resetShift := by
  have hSame : ∀ i, (c.resetShift.cell i).pos = (c.cell i).pos ∧
      (c.resetShift.cell i).seq = (c.cell i).seq := by
    intro i
    unfold KvCells.resetShift
    by_cases hi : i < c.size <;> simp [hi]
  constructor
  · rw [show c.resetShift.used = c.used from rfl, h.used]
    apply Finset.filter_congr
    intro i _
    rw [(hSame i).1]
  · exact h.indexed.congr rfl rfl fun j _ => ⟨(hSame j).2, (hSame j).1⟩
  · intro i hi hEmpty
    rw [(hSame i).1] at hEmpty
    rw [(hSame i).2]
    exact h.unowned i hi hEmpty
  · intro i
    rw [(hSame i).2]
    exact h.bound i
  intro i hi
  have hNot : ¬ i < c.size := Nat.not_lt.mpr hi
  simpa [KvCells.resetShift, hNot] using h.outside i hi

/-! ## Setting a table from a snapshot -/

omit h in
@[simp] theorem setOne_size (c : KvCells) (i : Nat) (v : KvCell) :
    (c.setOne i v).size = c.size := by
  unfold setOne
  dsimp only
  split_ifs <;> simp

omit h in
/-- `set` writes the position, the extension and the sequences of a cell and
leaves its shift alone. -/
theorem setOne_cell (c : KvCells) (i : Nat) (v : KvCell) :
    (c.setOne i v).cell = Function.update c.cell i { v with shift := (c.cell i).shift } := by
  unfold setOne
  dsimp only
  split_ifs <;> simp

/-- The cells a snapshot carries are consistent among themselves. -/
structure SnapshotOk (snap : KvCells) : Prop where
  unowned : ∀ j < snap.size, (snap.cell j).pos = -1 → (snap.cell j).seq = ∅
  bound : ∀ j, ∀ s ∈ (snap.cell j).seq, s < maxSeq

theorem IndexInv.snapshotOk : SnapshotOk c :=
  ⟨h.unowned, h.bound⟩

theorem IndexInv.cpIdxs_ok (idxs : List Nat)
    (hIdxs : ∀ i ∈ idxs, i < c.size) : SnapshotOk (c.cpIdxs idxs) := by
  constructor
  · intro j hj
    have hj : j < idxs.length := hj
    simp only [KvCells.cpIdxs, getElem?_eq_getElem hj]
    exact h.unowned _ (hIdxs _ (getElem_mem hj))
  intro j s
  unfold KvCells.cpIdxs
  dsimp only
  split
  · exact h.bound _ s
  · simp

variable {snap : KvCells}

omit h in
theorem IsSnapshot.ok (hSnap : IsSnapshot c snap) (h : IndexInv c) : SnapshotOk snap := by
  rcases hSnap with rfl | ⟨i, n, hn, -, rfl⟩ | ⟨idxs, hIdxs, rfl⟩
  · exact h.snapshotOk
  · apply h.cpIdxs_ok
    intro j hj
    obtain ⟨k, hk, rfl⟩ := mem_map.mp hj
    have := List.mem_range.mp hk
    omega
  · exact h.cpIdxs_ok idxs fun i hi => (hIdxs i hi).1

theorem IndexInv.setIdxs (idxs : List Nat)
    (hIdxs : ∀ i ∈ idxs, i < c.size) (hSnap : SnapshotOk snap) :
    IndexInv (c.setIdxs idxs snap) := by
  suffices hFold : IndexInv (c.setIdxs idxs snap) ∧ (c.setIdxs idxs snap).size = c.size from
    hFold.1
  refine foldlRecOn (motive := fun d => IndexInv d ∧ d.size = c.size) _ _ ⟨h, rfl⟩ ?_
  rintro d ⟨hd, hSize⟩ j hj
  have hj : j < snap.size := List.mem_range.mp hj
  split
  · rename_i idx hIdx
    have hLt : idx < d.size := by
      rw [hSize]
      exact hIdxs idx (mem_of_getElem? hIdx)
    exact ⟨hd.setOne hLt _ (hSnap.unowned j hj) (hSnap.bound j), by simp [hSize]⟩
  · exact ⟨hd, hSize⟩

omit h in
theorem mem_shifted_range {i n k : Nat} (h : k ∈ (List.range n).map (i + ·)) :
    i ≤ k ∧ k < i + n := by
  obtain ⟨j, hj, rfl⟩ := mem_map.mp h
  have := List.mem_range.mp hj
  omega

theorem IndexInv.set (i : Nat)
    (hFit : i + snap.size ≤ c.size) (hSnap : SnapshotOk snap) : IndexInv (c.set i snap) := by
  apply h.setIdxs _ _ hSnap
  intro k hk
  have := mem_shifted_range hk
  omega

/-! ## Runs -/

/-- No step stores `-1`, which marks an empty cell, in a cell it means to fill. -/
def KeepsSentinel : Op → KvCells → Prop
  | .posSet _ p, _ => p ≠ -1
  | .posDiv i d, c => (c.cell i).pos.tdiv d ≠ -1
  | _, _ => True

theorem IndexInv.step (op : Op) (hPre : op.Pre c)
    (hKeep : KeepsSentinel op c) : IndexInv (op.apply c) := by
  cases op with
  | resize n => exact indexInv_blank n
  | reset => exact indexInv_blank c.size
  | resetShift => exact h.resetShift
  | posSet i p => exact h.posSet hPre.1 p hKeep hPre.2.1
  | extSet i e => exact h.extSet hPre e
  | seqAdd i s => exact h.seqAdd hPre.1 hPre.2.1 hPre.2.2.2 hPre.2.2.1
  | seqRm i s => exact h.seqRm hPre.1 hPre.2.2.2 hPre.2.2.1
  | seqRmCell i s => exact h.seqRmCell hPre.1
  | seqKeep i s => exact h.seqKeep hPre.1 hPre.2.1
  | rm i => exact h.rm hPre.1
  | posAdd i d => exact h.posAdd hPre.1 d hPre.2
  | posDiv i d => exact h.posDiv hPre.1 d hPre.2.1 hKeep

omit h in
theorem Reachable.indexInv (h : Reachable KeepsSentinel c) : IndexInv c := by
  induction h with
  | new => exact indexInv_blank 0
  | step op _ hPre hKeep ih => exact ih.step op hPre hKeep
  | set i _ _ hSnap hFit _ ihc iho => exact ihc.set i hFit (hSnap.ok iho)
  | setIdxs idxs _ _ hSnap _ hIdxs ihc iho =>
    exact ihc.setIdxs idxs (fun i hi => (hIdxs i hi).1) (hSnap.ok iho)

/-- The assertions inside `seq_pos_dec` hold for every owner of a cell. -/
theorem IndexInv.seqPosDec_asserts {i s : Nat} (hi : i < c.size) (hs : s ∈ (c.cell i).seq) :
    ((c.seqPos s).lookup (c.cell i).pos).isSome ∧ 0 < c.seqUsed s := by
  have hMem : i ∈ Finset.range c.size := by simpa using hi
  constructor
  · rw [h.indexed.seqPos s, positionCount_erase c hMem]
    simp [hs]
  · rw [h.indexed.seqUsed s, memberCount_erase c hMem]
    simp [hs]

/-! ## The derived readings agree with a scan -/

/-- Positions of the cells of `s`, in cell order. -/
def scanPositions (c : KvCells) (s : Nat) : List Int :=
  ((List.range c.size).filter fun i => s ∈ (c.cell i).seq).map fun i => (c.cell i).pos

def scanPosMin (c : KvCells) (s : Nat) : Int := (c.scanPositions s).min?.getD (-1)

def scanPosMax (c : KvCells) (s : Nat) : Int := (c.scanPositions s).max?.getD (-1)

def scanSize (c : KvCells) (s : Nat) : Nat := (c.scanPositions s).length

variable {K : Finset Int} {l : List Int}

omit h in
private theorem min_eq_scan (h : ∀ p, p ∈ K ↔ p ∈ l) (d : Int) :
    K.min.untopD d = l.min?.getD d := by
  cases hMin : l.min? with
  | none =>
    have hNil : l = [] := by simpa using hMin
    have hEmpty : K = ∅ := eq_empty_of_forall_notMem fun p hp => by
      simpa [hNil] using (h p).mp hp
    simp [hEmpty]
  | some m =>
    obtain ⟨hm, hle⟩ := min?_eq_some_iff.mp hMin
    have hEq : K.min = (m : WithTop Int) := by
      apply le_antisymm
      · exact min_le ((h m).mpr hm)
      · exact Finset.le_min fun p hp => WithTop.coe_le_coe.mpr (hle p ((h p).mp hp))
    simp [hEq]

omit h in
private theorem max_eq_scan (h : ∀ p, p ∈ K ↔ p ∈ l) (d : Int) :
    K.max.unbotD d = l.max?.getD d := by
  cases hMax : l.max? with
  | none =>
    have hNil : l = [] := by simpa using hMax
    have hEmpty : K = ∅ := eq_empty_of_forall_notMem fun p hp => by
      simpa [hNil] using (h p).mp hp
    simp [hEmpty]
  | some m =>
    obtain ⟨hm, hle⟩ := max?_eq_some_iff.mp hMax
    have hEq : K.max = (m : WithBot Int) := by
      apply le_antisymm
      · exact Finset.max_le fun p hp => WithBot.coe_le_coe.mpr (hle p ((h p).mp hp))
      · exact le_max ((h m).mpr hm)
    simp [hEq]

theorem IndexInv.mem_keys (s : Nat) (p : Int) : p ∈ (c.seqPos s).keys ↔ p ∈ c.scanPositions s := by
  rw [(h.indexed.seqPos s).mem_keys, positionCount, Finset.card_ne_zero]
  constructor
  · rintro ⟨i, hi⟩
    simp only [Finset.mem_filter, Finset.mem_range] at hi
    simp only [scanPositions, List.mem_map, List.mem_filter, List.mem_range, decide_eq_true_eq]
    exact ⟨i, ⟨hi.1, hi.2.1⟩, hi.2.2⟩
  intro hp
  simp only [scanPositions, List.mem_map, List.mem_filter, List.mem_range,
    decide_eq_true_eq] at hp
  obtain ⟨i, ⟨hi, hs⟩, hPos⟩ := hp
  exact ⟨i, by simp [hi, hs, hPos]⟩

theorem IndexInv.seqPosMin_eq (s : Nat) : c.seqPosMin s = c.scanPosMin s :=
  min_eq_scan (h.mem_keys s) (-1)

theorem IndexInv.seqPosMax_eq (s : Nat) : c.seqPosMax s = c.scanPosMax s :=
  max_eq_scan (h.mem_keys s) (-1)

theorem IndexInv.seqSize_eq (s : Nat) : c.seqSize s = c.scanSize s := by
  rw [seqSize, h.indexed.seqUsed s, memberCount, scanSize, scanPositions, length_map]
  rw [← toFinset_card_of_nodup (nodup_range.filter _)]
  congr 1
  ext i
  simp

omit h

/-- The values the class reports agree with what a scan over all cells finds,
in every table that a run can produce. -/
theorem Reachable.indexes_eq_scan {c : KvCells} (h : Reachable KeepsSentinel c) :
    (c.used = (Finset.range c.size).filter fun i => (c.cell i).pos ≠ -1) ∧
    (∀ s p, (c.seqPos s).lookup p =
      if positionCount c (Finset.range c.size) s p = 0 then none
      else some (positionCount c (Finset.range c.size) s p)) ∧
    (∀ s, c.seqUsed s = memberCount c (Finset.range c.size) s) ∧
    (∀ i < c.size, (c.cell i).pos = -1 → (c.cell i).seq = ∅) ∧
    ∀ s, c.seqPosMin s = c.scanPosMin s ∧ c.seqPosMax s = c.scanPosMax s ∧
      c.seqSize s = c.scanSize s := by
  have hInv := h.indexInv
  refine ⟨hInv.used, hInv.indexed.seqPos, hInv.indexed.seqUsed, hInv.unowned, ?_⟩
  intro s
  exact ⟨hInv.seqPosMin_eq s, hInv.seqPosMax_eq s, hInv.seqSize_eq s⟩

/-- Two cells of sequence 3, the second one shared with sequence 4. -/
def sharedTable : KvCells :=
  (Op.seqAdd 1 4).apply ((Op.seqAdd 1 3).apply ((Op.posSet 1 6).apply ((Op.seqAdd 0 3).apply
    ((Op.posSet 0 5).apply ((Op.resize 3).apply {})))))

/-- Sequence 4 gets a third cell, which is moved, and sequence 3 leaves the first. -/
def sampleTable : KvCells :=
  (Op.posAdd 2 2).apply ((Op.seqRm 0 3).apply ((Op.seqAdd 2 4).apply ((Op.posSet 2 7).apply
    sharedTable)))

theorem sharedTable_reachable : Reachable KeepsSentinel sharedTable :=
  .step _ (.step _ (.step _ (.step _ (.step _ (.step _ .new trivial trivial)
    (by decide) (by simp [KeepsSentinel])) (by decide) trivial)
      (by decide) (by simp [KeepsSentinel])) (by decide) trivial)
        (by decide) trivial

theorem sampleTable_reachable : Reachable KeepsSentinel sampleTable :=
  .step _ (.step _ (.step _ (.step _ sharedTable_reachable (by decide)
    (by simp [KeepsSentinel])) (by decide) trivial) (by decide) trivial)
      (by decide) trivial

/-- Sequence 4 is left with the cells 1 and 2 at the positions 6 and 9. -/
theorem sampleTable_indexes_eq_scan :
    sampleTable.used = {1, 2} ∧ sampleTable.seqPosMin 4 = 6 ∧ sampleTable.seqPosMax 4 = 9 ∧
      ∀ s, sampleTable.seqPosMin s = sampleTable.scanPosMin s ∧
        sampleTable.seqPosMax s = sampleTable.scanPosMax s ∧
        sampleTable.seqSize s = sampleTable.scanSize s := by
  have hEnd : sampleTable.used = {1, 2} ∧ sampleTable.seqPosMin 4 = 6 ∧
      sampleTable.seqPosMax 4 = 9 := by decide +kernel
  exact ⟨hEnd.1, hEnd.2.1, hEnd.2.2, sampleTable_reachable.indexes_eq_scan.2.2.2.2⟩

/-- `pos_set` asserts nothing about the position it stores: given `-1` it
enters an empty cell into the used set. -/
theorem posSet_sentinel_breaks_used :
    Reachable (fun _ _ => True) ((KvCells.resize {} 1).posSet 0 (-1)) ∧
      ((KvCells.resize {} 1).posSet 0 (-1)).used ≠
        (Finset.range ((KvCells.resize {} 1).posSet 0 (-1)).size).filter
          (fun i => (((KvCells.resize {} 1).posSet 0 (-1)).cell i).pos ≠ -1) := by
  constructor
  · exact .step (.posSet 0 (-1)) (.step (.resize 1) .new trivial trivial) (by decide) trivial
  · decide

end Beellama.Ports.KvCells
