import Beellama.Ports.RecurrentIsolation

/-!
# Saved states of the recurrent memory

In every state of a run `save` refuses exactly a cell whose sequences do not agree on a snapshot, and
what it saves can be restored: all sequences keep their positions, share their cells as before and have
their states in the current rows, and a single sequence leaves the others of its new memory alone
(`SavingRun.restores`).
-/

namespace Beellama.Ports

open Beellama.Verified List Option Finset RecurrentMemory ReadResult

/-! ## A slot for one sequence -/

variable {s : Nat}

namespace RecurrentMemory

variable {mem mem' m₀ : RecurrentMemory} {u : RecurrentUbatch} {π : Equiv.Perm Nat}

/-- A placed sequence widens the range by one cell. -/
theorem placeSeq_range {st st' : SlotSearch} {more : Bool}
    (h : st.placeSeq s more = some st') :
    ∃ t, st'.low = (st.widen t).low ∧ st'.high = (st.widen t).high := by
  have hHandOut : ∀ mem : RecurrentMemory,
      (({ st with mem := mem } : SlotSearch).handOut s more).low = (st.widen st.next).low ∧
        (({ st with mem := mem } : SlotSearch).handOut s more).high = (st.widen st.next).high := by
    intro mem
    unfold SlotSearch.handOut
    split <;> exact ⟨rfl, rfl⟩
  unfold SlotSearch.placeSeq at h
  dsimp only at h
  cases hTail : (st.mem.cells s).tail with
  | none =>
    rw [hTail] at h
    dsimp only at h
    split at h
    · cases h
    · obtain rfl := some.inj h
      exact ⟨st.next, hHandOut st.mem⟩
  | some t =>
    rw [hTail] at h
    dsimp only at h
    split at h
    · cases h
    split at h
    · obtain rfl := some.inj h
      exact ⟨t, rfl, rfl⟩
    split at h
    · cases h
    split at h
    · cases h
    · obtain rfl := some.inj h
      exact ⟨st.next, hHandOut _⟩

theorem finishSlot_range {st : SlotSearch} {b : Bool} (h : finishSlot st u = some (b, mem')) :
    mem'.head = st.low ∧ mem'.n = st.high + 1 - st.low := by
  unfold finishSlot at h
  split at h
  · cases h
  dsimp only at h
  split at h
  · cases h
  · obtain ⟨rfl, rfl⟩ := Prod.mk.inj (some.inj h)
    exact ⟨rfl, rfl⟩

theorem findSlot_one (h : Invariant mem) {set : SlotSeq} (hOne : u.seqs = [set])
    (hFits : Fits u mem.size) (hFind : mem.findSlot u = some (true, mem')) (hN : 1 ≤ mem'.n)
    (hHigh : mem'.head + mem'.n ≤ mem.size) : mem'.n = 1 := by
  unfold findSlot at hFind
  dsimp only at hFind
  obtain ⟨hStart, hSize⟩ : Invariant (if mem.used + 2 * u.seqs.length < mem.head then
      mem.setHead 0 else mem) ∧ (if mem.used + 2 * u.seqs.length < mem.head then
      mem.setHead 0 else mem).size = mem.size := by
    split
    · exact ⟨⟨h.member, h.tail, h.used, h.pos, h.own, h.src, Or.inl rfl, h.room⟩, rfl⟩
    · exact ⟨h, rfl⟩
  revert hStart hSize hFind
  generalize (if mem.used + 2 * u.seqs.length < mem.head then mem.setHead 0 else mem) = start
  intro hFind hStart hSize
  have hFitIds : ∀ set ∈ u.seqs, ∀ s ∈ set.ids, s < start.size := hSize.symm ▸ hFits.ids
  obtain ⟨hTrue, hDrop, _⟩ := hStart.fitSeqs hFitIds
  rw [if_neg (by rw [hTrue]; exact Bool.true_eq_false.mp)] at hFind
  have hLast : (start.fitSeqs u.seqs).2.size = mem.size := hDrop.shape.size.trans hSize
  rw [hLast, hOne] at hFind
  unfold SlotSearch.placeSeqs at hFind
  split at hFind
  · cases hFind
  rename_i st hPlace
  split at hPlace
  · cases hPlace
  rename_i next hSeq
  obtain rfl : next = st := some.inj hPlace
  obtain ⟨t, hLow, hTop⟩ := placeSeq_range hSeq
  obtain ⟨hHead, hCount⟩ := finishSlot_range hFind
  have hLow' : next.low = if t < mem.size - 1 then t else mem.size - 1 := hLow
  have hTop' : next.high = if 0 < t then t else 0 := hTop
  split at hLow' <;> split at hTop' <;> omega

theorem Slotted.perm_one (h : Slotted m₀ u π mem) (hN : mem.n = 1) (c : Nat) : π c = c := by
  by_cases hC : InWindow mem c
  · have hHead : c = mem.head := by
      obtain ⟨hLow, hHigh⟩ := hC
      omega
    by_cases hImage : InWindow mem (π c)
    · obtain ⟨hLow, hHigh⟩ := hImage
      omega
    · exact π.injective (h.stays (π c) hImage)
  · exact h.stays c hC

end RecurrentMemory

/-! ## What is saved -/

variable {α β : Type} {f : α → Option β} {l : List α}

theorem mapM_of_some {g : α → β}
    (h : ∀ a ∈ l, f a = some (g a)) : l.mapM f = some (l.map g) := by
  induction l with
  | nil => rfl
  | cons a rest ih =>
    rw [mapM_cons, h a mem_cons_self, ih fun b hB => h b (mem_cons_of_mem a hB)]
    rfl

theorem ne_none_of_mapM {l' : List β}
    (h : l.mapM f = some l') : ∀ a ∈ l, f a ≠ none := by
  induction l generalizing l' with
  | nil => exact fun a hA => absurd hA not_mem_nil
  | cons a rest ih =>
    rw [mapM_cons] at h
    obtain ⟨b, hF, h⟩ := Option.bind_eq_some_iff.mp h
    obtain ⟨bs, hRest, h⟩ := Option.bind_eq_some_iff.mp h
    intro a' hA
    rcases mem_cons.mp hA with rfl | hA
    · rw [hF]
      exact some_ne_none b
    · exact ih hRest a' hA

variable {q : Option Nat} {x : Nat} {saved : List SavedMemCell}

namespace RecurrentMemory

variable {mem : RecurrentMemory}

/-- The snapshot of every cell is known: its sequences agree on one. -/
def Writable (mem : RecurrentMemory) (q : Option Nat) : Prop :=
  mem.nRsSeq = 0 ∨
    match q with
    | some s => (mem.cells s).tail = none ∨ s < mem.nSeqMax
    | none => ∀ c x, x ∈ (mem.cells c).seqId → x < mem.nSeqMax ∧
        ∀ y ∈ (mem.cells c).seqId, mem.rsIdx x = mem.rsIdx y

/-- The sequence is saved with a cell. -/
def SavedFor (q : Option Nat) (x : Nat) : Prop := q = none ∨ q = some x

variable {c : Nat}

section

variable (h : Invariant mem)

include h

theorem mem_savedCells :
    c ∈ mem.savedCells q ↔ ∃ x, SavedFor q x ∧ (mem.cells x).tail = some c := by
  unfold savedCells
  rw [List.mem_filter, List.mem_range]
  cases q with
  | none =>
    constructor
    · rintro ⟨_, hSaved⟩
      obtain ⟨x, hX⟩ := nonempty_iff_ne_empty.mpr (of_decide_eq_true hSaved)
      exact ⟨x, Or.inl rfl, (h.member c x hX).2⟩
    · rintro ⟨x, _, hTail⟩
      exact ⟨h.tail_lt hTail, decide_eq_true (ne_empty_of_mem (h.tail x c hTail).2)⟩
  | some s =>
    constructor
    · rintro ⟨_, hSaved⟩
      exact ⟨s, Or.inr rfl, (h.member c s (of_decide_eq_true hSaved)).2⟩
    rintro ⟨x, hFor, hTail⟩
    obtain rfl := some.inj (hFor.resolve_left (some_ne_none s))
    exact ⟨h.tail_lt hTail, decide_eq_true (h.tail s c hTail).2⟩

variable (hIndexed : Indexed mem)

include hIndexed

/-- The index that a cell of a writable memory is saved with is that of every saved
member. -/
theorem savedIdx_of_writable (hWritable : Writable mem q) (hFor : SavedFor q x)
    (hTail : (mem.cells x).tail = some c) : mem.savedIdx q c = some (mem.rsIdx x) := by
  unfold savedIdx
  by_cases hNone : mem.nRsSeq = 0
  · have hZero : mem.rsIdx x = 0 := Nat.le_zero.mp (hNone ▸ hIndexed.le x)
    rw [if_pos hNone, hZero]
  rw [if_neg hNone]
  have hCond := hWritable.resolve_left hNone
  have hMember : x ∈ (mem.cells c).seqId := (h.tail x c hTail).2
  cases q with
  | some s =>
    obtain rfl := some.inj (hFor.resolve_left (some_ne_none s))
    dsimp only at hCond ⊢
    rw [hTail] at hCond
    rw [if_pos (hCond.resolve_left (some_ne_none c))]
  | none =>
    dsimp only at hCond ⊢
    cases hList : mem.members c with
    | nil =>
      have hIn := (mem_members h).mpr hMember
      rw [hList] at hIn
      exact absurd hIn not_mem_nil
    | cons s rest =>
      have hAll : ∀ y ∈ s :: rest, y ∈ (mem.cells c).seqId := fun y hY =>
        (mem_members h).mp (hList ▸ hY)
      have hS := hAll s mem_cons_self
      dsimp only
      rw [if_pos]
      · exact congrArg some ((hCond c s hS).2 x hMember)
      · refine ⟨fun y hY => (hCond c y (hAll y hY)).1, fun y hY => ?_⟩
        exact (hCond c y (hAll y (mem_cons_of_mem s hY))).2 s hS

theorem savedRow_of_writable (hWritable : Writable mem q) (hFor : SavedFor q x)
    (hTail : (mem.cells x).tail = some c) :
    mem.savedRow q c = some (mem.rsIdx x * mem.size + c) := by
  unfold savedRow
  rw [savedIdx_of_writable h hIndexed hWritable hFor hTail, h.src_of_tail hTail]
  rfl

/-- `state_write` aborts exactly where the sequences of a cell do not agree. -/
theorem stateWrite_isSome (q : Option Nat) :
    (∃ saved, mem.stateWrite q = some saved) ↔ Writable mem q := by
  constructor
  · rintro ⟨saved, hWrite⟩
    have hEach := ne_none_of_mapM (stateWrite_some hWrite).2
    refine or_iff_not_imp_left.mpr fun hNone => ?_
    have hIdx : ∀ x c, SavedFor q x → (mem.cells x).tail = some c → mem.savedIdx q c ≠ none := by
      intro x c hFor hTail hNo
      refine hEach c ((mem_savedCells h).mpr ⟨x, hFor, hTail⟩) ?_
      unfold savedRow
      rw [hNo]
      rfl
    unfold savedIdx at hIdx
    cases q with
    | some s =>
      dsimp only at hIdx ⊢
      cases hTail : (mem.cells s).tail with
      | none => exact Or.inl rfl
      | some c =>
        have hSome := hIdx s c (Or.inr rfl) hTail
        rw [if_neg hNone] at hSome
        refine Or.inr ?_
        by_contra hBeyond
        exact hSome (if_neg hBeyond)
    | none =>
      dsimp only at hIdx ⊢
      intro c x hMember
      have hSome := hIdx x c (Or.inl rfl) (h.member c x hMember).2
      rw [if_neg hNone] at hSome
      cases hList : mem.members c with
      | nil =>
        have hIn := (mem_members h).mpr hMember
        rw [hList] at hIn
        exact absurd hIn not_mem_nil
      | cons s rest =>
        rw [hList] at hSome
        by_cases hAgree : (∀ y ∈ s :: rest, y < mem.nSeqMax) ∧
            ∀ y ∈ rest, mem.rsIdx y = mem.rsIdx s
        · have hIn : ∀ y ∈ (mem.cells c).seqId, y ∈ s :: rest := fun y hY =>
            hList ▸ (mem_members h).mpr hY
          have hSame : ∀ y ∈ (mem.cells c).seqId, mem.rsIdx y = mem.rsIdx s := by
            intro y hY
            rcases mem_cons.mp (hIn y hY) with rfl | hRest
            · rfl
            · exact hAgree.2 y hRest
          exact ⟨hAgree.1 x (hIn x hMember), fun y hY => (hSame x hMember).trans (hSame y hY).symm⟩
        · exact absurd (if_neg hAgree) hSome
  intro hWritable
  have hRows : ∀ c ∈ mem.savedCells q,
      mem.savedRow q c = some ((mem.savedRow q c).getD 0) := by
    intro c hC
    obtain ⟨x, hFor, hTail⟩ := (mem_savedCells h).mp hC
    rw [savedRow_of_writable h hIndexed hWritable hFor hTail]
    rfl
  unfold stateWrite
  rw [mapM_of_some hRows]
  exact ⟨_, rfl⟩

/-- The rows that are saved are the states of the sequences. -/
theorem stateWrite_rows {saved : SavedState} (hWrite : mem.stateWrite q = some saved) {k : Nat}
    (hAt : (mem.savedCells q)[k]? = some c) (hFor : SavedFor q x)
    (hTail : (mem.cells x).tail = some c) :
    saved.cells[k]? = some (mem.savedCell q c) ∧
      saved.rows[k]? = some (mem.rsIdx x * mem.size + c) := by
  have hWritable := (stateWrite_isSome h hIndexed q).mp ⟨saved, hWrite⟩
  have hRows : ∀ c ∈ mem.savedCells q, mem.savedRow q c = some ((mem.savedRow q c).getD 0) := by
    intro c hC
    obtain ⟨y, hForY, hTailY⟩ := (mem_savedCells h).mp hC
    rw [savedRow_of_writable h hIndexed hWritable hForY hTailY]
    rfl
  obtain ⟨hCells, hMapM⟩ := stateWrite_some hWrite
  rw [mapM_of_some hRows] at hMapM
  rw [hCells, ← some.inj hMapM, getElem?_map, getElem?_map, hAt]
  refine ⟨rfl, ?_⟩
  show some ((mem.savedRow q c).getD 0) = _
  rw [savedRow_of_writable h hIndexed hWritable hFor hTail]
  rfl

/-! ## Reading what was saved -/

end

variable {i : Nat}

theorem readIds_isSome {ids : List Nat} (hBelow : ∀ x ∈ ids, x < mem.nSeqMax)
    (hNodup : ids.Nodup) (hFree : ∀ x ∈ ids, (mem.cells x).tail = none) :
    ∃ mem', mem.readIds i ids = some mem' := by
  induction ids generalizing mem with
  | nil => exact ⟨mem, rfl⟩
  | cons s rest ih =>
    obtain ⟨hNew, hRest⟩ := nodup_cons.mp hNodup
    have hLt : ¬ mem.nSeqMax ≤ s := not_le.mpr (hBelow s mem_cons_self)
    unfold readIds
    dsimp only
    rw [if_neg hLt, onCell_seqId]
    dsimp only
    rw [hFree s mem_cons_self]
    refine ih (fun x hX => hBelow x (mem_cons_of_mem s hX)) hRest fun x hX => ?_
    rw [enter_cells]
    rw [if_neg fun hSame : x = s => hNew (hSame ▸ hX)]
    exact hFree x (mem_cons_of_mem s hX)

theorem readCells_isSome (hBelow : ∀ cell ∈ saved, ∀ x ∈ cell.ids, x < mem.nSeqMax)
    (hNodup : ∀ cell ∈ saved, cell.ids.Nodup)
    (hApart : saved.Pairwise fun a b => ∀ x ∈ a.ids, x ∉ b.ids)
    (hFree : ∀ cell ∈ saved, ∀ x ∈ cell.ids, (mem.cells x).tail = none) :
    ∃ mem', mem.readCells i saved = some mem' := by
  induction saved generalizing mem i with
  | nil => exact ⟨mem, rfl⟩
  | cons cell rest ih =>
    obtain ⟨hFirst, hRest⟩ := pairwise_cons.mp hApart
    have hPos : ∀ x, ((mem.onCell i fun c => { c with pos := cell.pos }).cells x).tail =
        (mem.cells x).tail := fun x => by rw [onCell_pos]
    obtain ⟨next, hIds⟩ : ∃ next,
        (mem.onCell i fun c => { c with pos := cell.pos }).readIds i cell.ids = some next :=
      readIds_isSome (hBelow cell mem_cons_self) (hNodup cell mem_cons_self)
        fun x hX => (hPos x).trans (hFree cell mem_cons_self x hX)
    unfold readCells
    rw [hIds]
    have hOne := readIds_some hIds
    have hMax : next.nSeqMax = mem.nSeqMax := hOne.shape.nSeqMax
    refine ih (fun c hC x hX => ?_) (fun c hC => hNodup c (mem_cons_of_mem cell hC)) hRest
      fun c hC x hX => ?_
    · rw [hMax]
      exact hBelow c (mem_cons_of_mem cell hC) x hX
    rw [hOne.cells x]
    rw [if_neg fun hIn => hFirst c hC x hIn hX, hPos]
    exact hFree c (mem_cons_of_mem cell hC) x hX

theorem savedCells_nodup (mem : RecurrentMemory) (q : Option Nat) : (mem.savedCells q).Nodup :=
  nodup_range.filter _

variable {mem₀ : RecurrentMemory}

/-- The saved cells of all sequences can be read into any memory that takes as many
sequences. -/
theorem readAll_written (h : Invariant mem) (h₀ : Invariant mem₀)
    (hShape : SameShape mem mem₀) (hBelow : ∀ x, (mem.cells x).tail ≠ none → x < mem.nSeqMax) :
    ∃ mem', mem₀.readAll ((mem.savedCells none).map (mem.savedCell none)) = .committed mem' := by
  have hMembers : ∀ c x, x ∈ (mem.savedCell none c).ids ↔ x ∈ (mem.cells c).seqId :=
    fun c x => mem_members h
  have hLength : ¬ mem₀.size < ((mem.savedCells none).map (mem.savedCell none)).length := by
    rw [length_map, hShape.size, not_lt]
    exact (length_filter_le _ _).trans length_range.le
  have hClear := h₀.clear
  obtain ⟨mem', hRead⟩ : ∃ mem', mem₀.clear.readCells 0
      ((mem.savedCells none).map (mem.savedCell none)) = some mem' := by
    refine readCells_isSome (fun cell hMem x hX => ?_) (fun cell hMem => ?_)
      (pairwise_map.mpr ((savedCells_nodup mem none).imp fun hNe x hA hB => hNe ?_))
      fun cell hMem x _ => hClear.gone x trivial
    · obtain ⟨c, _, rfl⟩ := mem_map.mp hMem
      rw [hClear.shape.nSeqMax, hShape.nSeqMax]
      refine hBelow x fun hNone => ?_
      rw [(h.member c x ((hMembers c x).mp hX)).2] at hNone
      cases hNone
    · obtain ⟨c, _, rfl⟩ := mem_map.mp hMem
      exact nodup_range.filter _
    · have hTailA := (h.member _ x ((hMembers _ x).mp hA)).2
      exact some.inj (hTailA.symm.trans (h.member _ x ((hMembers _ x).mp hB)).2)
  unfold readAll
  rw [if_neg hLength, hRead]
  exact ⟨_, rfl⟩

theorem readAll_head {mem' : RecurrentMemory}
    (h : mem.readAll saved = .committed mem') : mem'.head = 0 := by
  unfold readAll at h
  split at h
  · cases h
  split at h
  · cases h
  · obtain rfl := committed.inj h
    rfl

theorem restored_tail (h : Invariant mem) {mem' : RecurrentMemory}
    (hRestored : Restored mem₀ ((mem.savedCells none).map (mem.savedCell none)) mem') (x : Nat) :
    (mem'.cells x).tail = (mem.cells x).tail.map fun c => (mem.savedCells none).idxOf c := by
  have hCellOf : ∀ k c, (mem.savedCells none)[k]? = some c →
      (mem'.cells k).seqId = (mem.savedCell none c).ids.toFinset := by
    intro k c hAt
    refine (hRestored.cell k (mem.savedCell none c) ?_).1
    rw [getElem?_map, hAt]
    rfl
  cases hTail : (mem.cells x).tail with
  | some c =>
    have hIn : c ∈ mem.savedCells none := (mem_savedCells h).mpr ⟨x, Or.inl rfl, hTail⟩
    refine (hRestored.inv.member _ x ?_).2
    rw [hCellOf _ c (getElem?_idxOf hIn)]
    exact mem_toFinset.mpr ((mem_members h).mpr (h.tail x c hTail).2)
  | none =>
    cases hNew : (mem'.cells x).tail with
    | none => rfl
    | some k =>
      have hMember := (hRestored.inv.tail x k hNew).2
      by_cases hK : k < ((mem.savedCells none).map (mem.savedCell none)).length
      · rw [length_map] at hK
        rw [hCellOf k _ (getElem?_eq_getElem hK)] at hMember
        have hOld := (mem_members h).mp (mem_toFinset.mp hMember)
        rw [(h.member _ x hOld).2] at hTail
        cases hTail
      · rw [hRestored.rest k (not_lt.mp hK)] at hMember
        exact absurd hMember (notMem_empty x)

end RecurrentMemory

variable {d : Nat}

namespace RecurrentMemory

variable {mem mem' mem'' m₀ : RecurrentMemory}

/-- The sequences other than `d` have the cells, positions and indices that they had. -/
structure OthersKept (d : Nat) (mem mem' : RecurrentMemory) : Prop where
  tail : ∀ x, x ≠ d → (mem'.cells x).tail = (mem.cells x).tail
  pos : ∀ x t, x ≠ d → (mem.cells x).tail = some t → (mem'.cells t).pos = (mem.cells t).pos
  rsIdx : ∀ x, x ≠ d → mem'.rsIdx x = mem.rsIdx x

theorem OthersKept.trans (h : OthersKept d mem mem') (h' : OthersKept d mem' mem'') :
    OthersKept d mem mem'' where
  tail x hX := (h'.tail x hX).trans (h.tail x hX)
  pos x t hX hTail :=
    (h'.pos x t hX ((h.tail x hX).trans hTail)).trans (h.pos x t hX hTail)
  rsIdx x hX := (h'.rsIdx x hX).trans (h.rsIdx x hX)

theorem Dropped.othersKept {D : Nat → Prop} (h : Dropped D mem mem')
    (hInv : Invariant mem) (hOnly : ∀ x, D x → x = d)
    (hIdx : ∀ x, x ≠ d → mem'.rsIdx x = mem.rsIdx x) : OthersKept d mem mem' where
  tail x hX := h.stays x fun hGone => hX (hOnly x hGone)
  pos x t hX hTail := by
    have hMember : x ∈ (mem'.cells t).seqId :=
      (h.seqId t x).mpr ⟨(hInv.tail x t hTail).2, fun hGone => hX (hOnly x hGone)⟩
    exact (h.kept t (ne_empty_of_mem hMember)).1
  rsIdx := hIdx

theorem rmRsIdx_other (mem : RecurrentMemory) (p0 p1 : Int) (hX : x ≠ d) :
    mem.rmRsIdx d p0 p1 x = mem.rsIdx x := by
  unfold rmRsIdx resetRsIdx
  split
  · exact setRsIdx_other mem 0 hX
  · rfl

theorem Invariant.rm_othersKept (h : Invariant mem) (d : Nat) :
    OthersKept d mem (mem.seqRm d (-1) (-1)).2 := by
  have hOutcome := (seqRm_outcome h d (-1) (-1)).1
  revert hOutcome
  generalize mem.seqRm d (-1) (-1) = r
  intro hOutcome
  cases hOutcome with
  | refused => exact ⟨fun _ _ => rfl, fun _ _ _ _ => rfl, fun _ _ => rfl⟩
  | rolledBack _ _ hCuts => exact absurd hCuts.1 (by decide)
  | dropped hSeq _ hDrop hIdx =>
    refine hDrop.othersKept h (fun x hX => hX.trans (Int.ofNat_inj.mp hSeq).symm) fun x hX => ?_
    rw [hIdx]
    exact rmRsIdx_other mem _ _ hX
  | missed _ _ _ _ hCells _ _ hIdx =>
    refine ⟨fun _ _ => by rw [hCells], fun _ _ _ _ => by rw [hCells], fun x hX => ?_⟩
    rw [hIdx]
    exact rmRsIdx_other mem _ _ hX
  | all hNeg => exact absurd hNeg (by omega)

theorem Slotted.othersKept {cell : SavedMemCell} {π : Equiv.Perm Nat}
    (h : Slotted m₀ (restoreBatch d [cell]) π mem) (hN : mem.n = 1) : OthersKept d m₀ mem := by
  have hOut : ∀ x, x ≠ d → Outside (restoreBatch d [cell]) x := by
    intro x hX set hMem hIn
    rw [List.mem_singleton.mp hMem] at hIn
    exact hX (List.mem_singleton.mp hIn)
  refine ⟨fun x hX => ?_, fun x t hX hTail => ?_, fun x _ => by rw [h.rsIdx]⟩
  · rw [h.other x (hOut x hX)]
    cases (m₀.cells x).tail with
    | none => rfl
    | some t => exact congrArg some (h.perm_one hN t)
  · have hPos := h.otherPos x t (hOut x hX) hTail
    rwa [h.perm_one hN t] at hPos

end RecurrentMemory

/-! ## Saved states with their rows -/

variable {σ : Type}

/-- A saved state: the metadata and the rows. -/
structure SavedStates (σ : Type) where
  cells : List SavedMemCell
  rows : List σ

/-- How restoring a state ends. -/
inductive RestoreResult (σ : Type)
  | aborted
  /-- it throws, and the memory is as it was -/
  | failed
  | committed (st : RecurrentStates σ)

namespace RecurrentStates

open RecurrentMemory

variable {zero : σ} {st st' st₀ : RecurrentStates σ}

/-- `state_write` with the rows of the tensor. -/
def save (st : RecurrentStates σ) (q : Option Nat) : Option (SavedStates σ) :=
  (st.mem.stateWrite q).map fun saved =>
    { cells := saved.cells, rows := saved.rows.map st.rows }

/-- `state_read` with the rows of the tensor, which go to the head and what follows. -/
def restore (st : RecurrentStates σ) (dest : Option Nat) (saved : SavedStates σ) :
    RestoreResult σ :=
  match st.mem.stateRead dest saved.cells with
  | .aborted => .aborted
  | .failed => .failed
  | .committed mem => .committed
      { mem := mem
        rows := fun r =>
          if mem.head ≤ r ∧ r < mem.head + saved.cells.length then
            saved.rows.getD (r - mem.head) (st.rows r)
          else st.rows r }

/-- Runs in which a removal of all sequences finds empty cells and the state of one sequence is not
restored as that of all. -/
inductive SavingRun (zero : σ) : RecurrentStates σ → Prop
  | start (size nSeqMax nRsSeq : Nat) (hRoom : nSeqMax ≤ size) :
      SavingRun zero (empty zero size nSeqMax nRsSeq)
  | step {st st' : RecurrentStates σ} (op : StateOp σ) (hRun : SavingRun zero st)
      (hLegal : Legal op st) (hSafe : ∀ s p0 p1, op = .rm s p0 p1 → RmSafe st.mem s p0 p1)
      (hStep : st.step zero op = some st') : SavingRun zero st'
  | read {st from₀ st' : RecurrentStates σ} {q dest : Option Nat} {saved : SavedStates σ}
      (hRun : SavingRun zero st) (hFrom : SavingRun zero from₀)
      (hSave : from₀.save q = some saved) (hKind : dest = none → q = none)
      (hStep : st.restore dest saved = .committed st') : SavingRun zero st'

theorem save_some {saved : SavedStates σ} (h : st.save q = some saved) :
    ∃ written, st.mem.stateWrite q = some written ∧ saved.cells = written.cells ∧
      saved.rows = written.rows.map st.rows := by
  obtain ⟨written, hWrite, rfl⟩ := map_eq_some_iff.mp h
  exact ⟨written, hWrite, rfl, rfl⟩

theorem savedOne_nil : SavedOne [] :=
  ⟨Nat.zero_le 1, fun _ hMem => absurd hMem not_mem_nil⟩

/-- What a run keeps of the cells and the indices. -/
structure Settled (mem : RecurrentMemory) : Prop where
  inv : Invariant mem
  indexed : Indexed mem

variable {mem mem' : RecurrentMemory}

theorem settled_readOne (h : Settled mem) (hSaved : SavedOne saved)
    (hRead : mem.readOne s saved = .committed mem') : Settled mem' := by
  have hSafe : RmSafe mem s (-1) (-1) := fun hNeg => by omega
  have hQuiet := h.inv.quiet_rm h.indexed hSafe
  rcases h.inv.readOne s hSaved with hFailed | ⟨_, hDropped⟩ |
    ⟨_, _, _, next, _, _, hDrop, hIdx, hSlot, hDone⟩
  · rw [hRead] at hFailed
    cases hFailed
  · rw [hRead] at hDropped
    exact committed.inj hDropped ▸ ⟨hQuiet.inv, hQuiet.indexed⟩
  rw [hRead] at hDone
  obtain rfl := committed.inj hDone
  refine ⟨hSlot.inv, hQuiet.indexed.of_rsIdx (hDrop.shape.trans hSlot.shape) fun x => ?_⟩
  exact Or.inr (congrFun (hSlot.rsIdx.trans hIdx) x)

variable {dest : Option Nat}

theorem settled_stateRead (h : Settled mem) (hAll : q = none → SavedAll saved)
    (hOne : ∀ s, q = some s → SavedOne saved) (hKind : dest = none → q = none)
    (hRead : mem.stateRead dest saved = .committed mem') : Settled mem' := by
  have hInv : Invariant mem' := by
    rcases h.inv.stateRead hAll hOne fun hDest => Or.inl (hKind hDest) with hFailed | ⟨_, hDone, hInv⟩
    · rw [hRead] at hFailed
      cases hFailed
    · rw [hRead] at hDone
      exact committed.inj hDone ▸ hInv
  refine ⟨hInv, ?_⟩
  unfold stateRead at hRead
  cases dest with
  | none =>
    cases hMeta : mem.readAll saved with
    | aborted =>
      rw [hMeta] at hRead
      cases hRead
    | failed =>
      rw [hMeta] at hRead
      cases hRead
    | committed next =>
      rw [hMeta] at hRead
      have hRestored := h.inv.readAll (hAll (hKind rfl)) hMeta
      obtain rfl := committed.inj hRead
      split
      · exact ⟨fun _ => Nat.zero_le _, fun _ _ => rfl⟩
      · exact ⟨fun x => hRestored.rsIdx x ▸ Nat.zero_le _, fun x _ => hRestored.rsIdx x⟩
  | some s =>
    dsimp only at hRead
    cases hMeta : mem.readOne s saved with
    | aborted =>
      rw [hMeta] at hRead
      cases hRead
    | failed =>
      rw [hMeta] at hRead
      cases hRead
    | committed next =>
      rw [hMeta] at hRead
      have hNext : Indexed next := by
        cases q with
        | some s' => exact (settled_readOne h (hOne s' rfl) hMeta).indexed
        | none =>
          -- the cells of all sequences are not those of one, unless there are none
          cases saved with
          | nil => exact (settled_readOne h savedOne_nil hMeta).indexed
          | cons cell rest =>
            unfold readOne at hMeta
            rw [if_neg (cons_ne_nil _ _), if_pos] at hMeta
            · cases hMeta
            · exact ⟨cell, mem_cons_self, (hAll rfl cell mem_cons_self).2⟩
      obtain rfl := committed.inj hRead
      split
      · exact hNext.setRsIdx s 0
      · exact hNext

theorem Settled.quiet (hQuiet : Quiet mem mem') : Settled mem' :=
  ⟨hQuiet.inv, hQuiet.indexed⟩

theorem Settled.step {op : StateOp σ} (h : Settled st.mem) (hLegal : Legal op st)
    (hSafe : ∀ s p0 p1, op = .rm s p0 p1 → RmSafe st.mem s p0 p1)
    (hStep : st.step zero op = some st') : Settled st'.mem := by
  cases op with
  | decode u planes results =>
    obtain ⟨m₀, π, mem, hDrop, hIdx, hFind, hSlot⟩ := h.inv.findSlot hLegal
    have hShape := hDrop.shape.trans hSlot.shape
    have hSlotIdx : Indexed mem := h.indexed.of_rsIdx hShape fun x =>
      Or.inr (congrFun (hSlot.rsIdx.trans hIdx) x)
    obtain ⟨fed, next, hDecode, hDone⟩ := decoded hSlotIdx hSlot hFind planes results
    have hNext : (st.decode zero u planes results).map Prod.snd = some st' := hStep
    rw [hDecode] at hNext
    rw [← some.inj hNext, hDone.cells]
    refine ⟨hSlot.inv.of_cells rfl rfl rfl ⟨rfl, rfl, rfl⟩, hSlotIdx.of_rsIdx ⟨rfl, rfl, rfl⟩ ?_⟩
    intro x
    show mem.usedIdx 0 mem.n x = 0 ∨ mem.usedIdx 0 mem.n x = mem.rsIdx x
    unfold usedIdx
    split
    · exact Or.inl rfl
    · exact Or.inr rfl
  | rm s p0 p1 =>
    exact some.inj hStep ▸ .quiet (h.inv.quiet_rm h.indexed (hSafe s p0 p1 rfl))
  | rmCell s c => exact some.inj hStep ▸ .quiet (h.inv.quiet_rmCell h.indexed s c)
  | cp s d => exact some.inj hStep ▸ .quiet (h.inv.quiet_cp h.indexed s d)
  | keep s =>
    obtain ⟨hDrop, hIdx⟩ := h.inv.seqKeep s
    exact some.inj hStep ▸ .quiet
      (h.inv.quiet_dropped h.indexed hDrop fun x => Or.inr (congrFun hIdx x))
  | clear data =>
    exact some.inj hStep ▸ .quiet
      (h.inv.quiet_dropped h.indexed h.inv.clear fun _ => Or.inl rfl)

theorem restore_some {saved : SavedStates σ}
    (h : st.restore dest saved = .committed st') :
    st.mem.stateRead dest saved.cells = .committed st'.mem := by
  unfold restore at h
  cases hRead : st.mem.stateRead dest saved.cells with
  | aborted =>
    rw [hRead] at h
    cases h
  | failed =>
    rw [hRead] at h
    cases h
  | committed mem =>
    rw [hRead] at h
    obtain rfl := RestoreResult.committed.inj h
    rfl

theorem SavingRun.settled (h : SavingRun zero st) : Settled st.mem := by
  induction h with
  | start size nSeqMax nRsSeq hRoom =>
    exact ⟨invariant_empty hRoom, ⟨fun _ => Nat.zero_le _, fun _ _ => rfl⟩⟩
  | step op _ hLegal hSafe hStep ih => exact ih.step hLegal hSafe hStep
  | read _ _ hSave hKind hStep ih ihFrom =>
    obtain ⟨written, hWrite, hCells, _⟩ := save_some hSave
    refine settled_stateRead ih (fun hQ => ?_) (fun s hQ => ?_) hKind (restore_some hStep)
    · exact hCells ▸ savedAll_of_write ihFrom.inv (hQ ▸ hWrite)
    · exact hCells ▸ savedOne_of_write ihFrom.inv (hQ ▸ hWrite)

/-! ## What a restored memory has -/

/-- All sequences are as they were in the saved memory. -/
structure RestoredAll (st st' : RecurrentStates σ) : Prop where
  position : ∀ x, position st'.mem x = position st.mem x
  sharing : ∀ x y, (st'.mem.cells x).tail = (st'.mem.cells y).tail ↔
    (st.mem.cells x).tail = (st.mem.cells y).tail
  rsIdx : ∀ x, st'.mem.rsIdx x = 0
  logical : ∀ x, st'.logical x = st.logical x

/-- Sequence `d` is as sequence `s` was in the saved memory, and the others are as they
were in the memory that `d` was restored into. -/
structure RestoredOne (st : RecurrentStates σ) (s : Nat) (st₀ : RecurrentStates σ) (d : Nat)
    (st' : RecurrentStates σ) : Prop where
  saved : (st.mem.cells s).tail ≠ none → position st'.mem d = position st.mem s ∧
    st'.mem.rsIdx d = 0 ∧ st'.logical d = st.logical s ∧
    ∀ x, x ≠ d → (st'.mem.cells x).tail ≠ (st'.mem.cells d).tail
  others : ∀ x, x ≠ d → position st'.mem x = position st₀.mem x ∧
    (st'.mem.cells x).tail = (st₀.mem.cells x).tail ∧ st'.logical x = st₀.logical x

theorem restored_all (h : Settled st.mem) (h₀ : Settled st₀.mem)
    (hShape : SameShape st.mem st₀.mem) {saved : SavedStates σ} (hSave : st.save none = some saved)
    (hBelow : ∀ x, (st.mem.cells x).tail ≠ none → x < st.mem.nSeqMax) :
    ∃ st', st₀.restore none saved = .committed st' ∧ RestoredAll st st' := by
  obtain ⟨written, hWrite, hCells, hRows⟩ := save_some hSave
  have hWritten := (stateWrite_some hWrite).1
  obtain ⟨next, hRead⟩ := readAll_written h.inv h₀.inv hShape hBelow
  rw [← hWritten] at hRead
  have hRestored := h₀.inv.readAll (savedAll_of_write h.inv hWrite) hRead
  have hHead := readAll_head hRead
  -- the rollback indices are zero either way
  obtain ⟨mem', hState, hMem, hMemHead, hMemSize, hMemIdx⟩ :
      ∃ mem', st₀.mem.stateRead none saved.cells = .committed mem' ∧ mem'.cells = next.cells ∧
        mem'.head = 0 ∧ mem'.size = st.mem.size ∧ ∀ x, mem'.rsIdx x = 0 := by
    have hSize : next.size = st.mem.size := hRestored.shape.size.trans hShape.size
    unfold stateRead
    rw [hCells, hRead]
    dsimp only
    split
    · exact ⟨_, rfl, rfl, hHead, hSize, fun _ => rfl⟩
    · exact ⟨_, rfl, rfl, hHead, hSize, hRestored.rsIdx⟩
  have hSettled : Settled mem' :=
    settled_stateRead h₀ (fun _ => hCells ▸ savedAll_of_write h.inv hWrite)
      (fun s hNone => absurd hNone (some_ne_none s).symm) (fun _ => rfl) hState
  refine ⟨_, by unfold restore; rw [hState], ?_⟩
  rw [hWritten] at hRestored
  have hTails := restored_tail h.inv hRestored
  have hOld : ∀ {x c}, (st.mem.cells x).tail = some c → c ∈ st.mem.savedCells none :=
    fun {x c} hTail => (mem_savedCells h.inv).mpr ⟨x, Or.inl rfl, hTail⟩
  refine ⟨fun x => ?_, fun x y => ?_, hMemIdx, fun x => ?_⟩
  · unfold RecurrentStates.position
    dsimp only
    rw [hMem, hTails x]
    cases hTail : (st.mem.cells x).tail with
    | none => rfl
    | some c =>
      refine congrArg some ?_
      refine (hRestored.cell _ (st.mem.savedCell none c) ?_).2
      rw [getElem?_map, getElem?_idxOf (hOld hTail)]
      rfl
  · dsimp only
    rw [hMem, hTails x, hTails y]
    refine ⟨fun hSame => ?_, fun hSame => by rw [hSame]⟩
    cases hX : (st.mem.cells x).tail with
    | none =>
      rw [hX] at hSame
      exact (map_eq_none_iff.mp hSame.symm).symm
    | some c =>
      rw [hX] at hSame
      obtain ⟨d, hY, hIdx⟩ := map_eq_some_iff.mp hSame.symm
      rw [hY]
      exact congrArg some ((idxOf_inj (hOld hX)).mp hIdx.symm)
  cases hTail : (st.mem.cells x).tail with
  | none =>
    rw [logical_none hTail]
    refine logical_none ?_
    rw [hMem, hTails x, hTail]
    rfl
  | some c =>
    have hIn := hOld hTail
    have hLength : saved.cells.length = (st.mem.savedCells none).length := by
      rw [hCells, hWritten, length_map]
    have hRow := (stateWrite_rows h.inv h.indexed hWrite (getElem?_idxOf hIn) (Or.inl rfl)
      hTail).2
    have hNew : (mem'.cells x).tail = some ((st.mem.savedCells none).idxOf c) := by
      rw [hMem, hTails x, hTail]
      rfl
    rw [logical_some h.inv hTail]
    refine (logical_some hSettled.inv hNew).trans (congrArg some ?_)
    show (if mem'.head ≤ mem'.rsIdx x * _ + _ ∧ mem'.rsIdx x * _ + _ < _ then
      saved.rows.getD (mem'.rsIdx x * _ + _ - mem'.head) _ else _) = _
    rw [hMemIdx x, Nat.zero_mul, Nat.zero_add, hMemHead, Nat.zero_add, hLength, Nat.sub_zero,
      if_pos ⟨Nat.zero_le _, idxOf_lt_length_of_mem hIn⟩, getD_eq_getElem?_getD, hRows,
      getElem?_map, hRow]
    rfl

theorem position_othersKept (h : OthersKept d mem mem')
    (hX : x ≠ d) : position mem' x = position mem x := by
  unfold position
  rw [h.tail x hX]
  cases hTail : (mem.cells x).tail with
  | none => rfl
  | some t => exact congrArg some (h.pos x t hX hTail)

/-- The states of the others stay where only the row of `d` is written. -/
theorem logical_othersKept (h : OthersKept d st₀.mem st'.mem)
    (h₀ : Invariant st₀.mem) (h' : Invariant st'.mem) (hSize : st'.mem.size = st₀.mem.size)
    (hX : x ≠ d) (hRows : ∀ t, (st'.mem.cells x).tail = some t →
      st'.rows (st'.mem.rsIdx x * st'.mem.size + t) = st₀.rows (st'.mem.rsIdx x * st'.mem.size + t)) :
    st'.logical x = st₀.logical x := by
  have hTail := h.tail x hX
  cases hOld : (st₀.mem.cells x).tail with
  | none => rw [logical_none hOld, logical_none (hTail.trans hOld)]
  | some t =>
    have hNew := hTail.trans hOld
    rw [logical_some h₀ hOld, logical_some h' hNew, hRows t hNew, h.rsIdx x hX, hSize]

/-- The metadata of a restored sequence, and where its row goes. -/
structure PutBack (mem : RecurrentMemory) (d : Nat) (saved : List SavedMemCell)
    (mem' : RecurrentMemory) : Prop where
  settled : Settled mem'
  size : mem'.size = mem.size
  others : OthersKept d mem mem'
  /-- the sequence has the cell at the head for itself -/
  own : ∀ cell, saved = [cell] → (mem'.cells d).tail = some mem'.head ∧
    (mem'.cells mem'.head).seqId = {d} ∧ (mem'.cells mem'.head).pos = cell.pos ∧ mem'.rsIdx d = 0

theorem putBack {mem : RecurrentMemory} (h : Settled mem) (hLt : d < mem.size)
    (hSaved : SavedOne saved) :
    ∃ mem', mem.stateRead (some d) saved = .committed mem' ∧ PutBack mem d saved mem' := by
  have hOthers := h.inv.rm_othersKept d
  have hRmSize := (seqRm_shape h.inv d (-1) (-1)).size
  -- the index of the sequence is reset at last
  have hDone : ∀ next, mem.readOne d saved = .committed next → next.size = mem.size →
      OthersKept d mem next →
      (∀ cell, saved = [cell] → (next.cells d).tail = some next.head ∧
        (next.cells next.head).seqId = {d} ∧ (next.cells next.head).pos = cell.pos) →
      ∃ mem', mem.stateRead (some d) saved = .committed mem' ∧ PutBack mem d saved mem' := by
    intro next hRead hSize hKept hOwn
    have hNext := settled_readOne h hSaved hRead
    unfold stateRead
    dsimp only
    rw [hRead]
    dsimp only
    by_cases hNone : next.nRsSeq ≠ 0
    · rw [if_pos hNone]
      obtain ⟨hCells, hUsed, hHead, hShape⟩ := setRsIdx_cells next d 0
      refine ⟨_, rfl, ⟨hNext.inv.of_cells hCells hUsed hHead hShape, hNext.indexed.setRsIdx d 0⟩,
        hShape.size.trans hSize, hKept.trans ⟨fun _ _ => by rw [hCells], fun _ _ _ _ => by rw [hCells],
          fun x hX => setRsIdx_other next 0 hX⟩, fun cell hCell => ?_⟩
      obtain ⟨hTail, hSeq, hPos⟩ := hOwn cell hCell
      rw [hCells, hHead]
      refine ⟨hTail, hSeq, hPos, ?_⟩
      by_cases hBeyond : next.nSeqMax ≤ d
      · rw [setRsIdx, if_pos hBeyond]
        exact hNext.indexed.beyond d hBeyond
      · rw [setRsIdx, if_neg hBeyond]
        exact (Function.update_self ..).trans (Nat.zero_min _)
    rw [if_neg hNone]
    refine ⟨_, rfl, hNext, hSize, hKept, fun cell hCell => ?_⟩
    obtain ⟨hTail, hSeq, hPos⟩ := hOwn cell hCell
    exact ⟨hTail, hSeq, hPos, Nat.le_zero.mp (not_not.mp hNone ▸ hNext.indexed.le d)⟩
  cases saved with
  | nil =>
    refine hDone _ ?_ hRmSize hOthers fun cell hCell => nomatch hCell
    unfold readOne
    exact if_pos rfl
  | cons cell rest =>
    obtain rfl : rest = [] := eq_nil_of_length_eq_zero (by
      have hLength := hSaved.1
      rw [length_cons] at hLength
      omega)
    obtain ⟨hPos, hIds⟩ := hSaved.2 cell mem_cons_self
    obtain ⟨m₀, π, next, hDrop, hIdx, hFind, hSlot, hRead⟩ := h.inv.readOne_slot hLt hPos hIds
    have hSize : m₀.size = mem.size := hDrop.shape.size.trans hRmSize
    have hHigh := hSlot.high
    have hN : next.n = 1 :=
      findSlot_one (h.inv.dropBefore d) rfl
        (restoreBatch_fits cell (hRmSize.symm ▸ hLt) hPos) hFind hSlot.fits
        (hDrop.shape.size ▸ hHigh)
    have hNoneGone : ∀ x, Coupled (restoreBatch d [cell]).seqs x → x = d := by
      rintro x ⟨set, hMem, hX⟩
      rw [List.mem_singleton.mp hMem] at hX
      exact absurd hX not_mem_nil
    refine hDone next hRead (hSlot.shape.size.trans hSize)
      (hOthers.trans ((hDrop.othersKept (h.inv.dropBefore d) hNoneGone
        fun x _ => congrFun hIdx x).trans (hSlot.othersKept hN))) fun cell' hCell => ?_
    obtain rfl := (cons.inj hCell).1
    obtain ⟨hSeq, hOwnPos⟩ := hSlot.own 0 { first := d, pos := [cell.pos] } rfl
    rw [Nat.add_zero] at hSeq hOwnPos
    have hMember : d ∈ (next.cells next.head).seqId := by
      rw [hSeq]
      exact mem_toFinset.mpr mem_cons_self
    exact ⟨(hSlot.inv.member _ d hMember).2, hSeq, hOwnPos⟩

theorem restored_one (h : Settled st.mem) (h₀ : Settled st₀.mem) {saved : SavedStates σ}
    (hSave : st.save (some s) = some saved) (hLt : d < st₀.mem.size) :
    ∃ st', st₀.restore (some d) saved = .committed st' ∧ RestoredOne st s st₀ d st' := by
  obtain ⟨written, hWrite, hCells, hRows⟩ := save_some hSave
  have hSaved : SavedOne saved.cells := hCells ▸ savedOne_of_write h.inv hWrite
  obtain ⟨mem', hRead, hPut⟩ := putBack h₀ hLt hSaved
  refine ⟨_, by unfold restore; rw [hRead], fun hSome => ?_, fun x hX => ?_⟩
  · obtain ⟨t, hTail⟩ := ne_none_iff_exists'.mp hSome
    have hOnly : st.mem.savedCells (some s) = [t] := by
      rw [savedCells_one h.inv s, hTail]
    have hOne : saved.cells = [st.mem.savedCell (some s) t] := by
      rw [hCells, (stateWrite_some hWrite).1, hOnly]
      rfl
    obtain ⟨hNew, hSeq, hPos, hIdx⟩ := hPut.own _ hOne
    have hRow := (stateWrite_rows h.inv h.indexed hWrite (c := t) (k := 0) (by rw [hOnly]; rfl)
      (Or.inr rfl) hTail).2
    refine ⟨?_, hIdx, ?_, fun x hX hSame => ?_⟩
    · unfold position
      rw [hNew, hTail]
      exact congrArg some hPos
    · rw [logical_some h.inv hTail]
      refine (logical_some hPut.settled.inv hNew).trans (congrArg some ?_)
      show (if mem'.head ≤ mem'.rsIdx d * _ + _ ∧ mem'.rsIdx d * _ + _ < _ then
        saved.rows.getD (mem'.rsIdx d * _ + _ - mem'.head) _ else _) = _
      rw [hIdx, Nat.zero_mul, Nat.zero_add, if_pos ⟨Nat.le_refl _, by rw [hOne]; exact Nat.lt_succ_self _⟩,
        Nat.sub_self, getD_eq_getElem?_getD, hRows, getElem?_map, hRow]
      rfl
    have hIn := (hPut.settled.inv.tail x _ (hSame.trans hNew)).2
    rw [hSeq] at hIn
    exact hX (Finset.mem_singleton.mp hIn)
  refine ⟨position_othersKept hPut.others hX, hPut.others.tail x hX, ?_⟩
  refine logical_othersKept hPut.others h₀.inv hPut.settled.inv hPut.size hX fun t hTail => ?_
  refine if_neg ?_
  rintro ⟨hLow, hHigh⟩
  dsimp only at hLow hHigh hTail
  have hTailLt : t < mem'.size := hPut.settled.inv.tail_lt hTail
  rcases Nat.lt_or_ge 0 saved.cells.length with hPos | hNone
  · obtain ⟨cell, hOne⟩ : ∃ cell, saved.cells = [cell] :=
      length_eq_one_iff.mp (Nat.le_antisymm hSaved.1 hPos)
    obtain ⟨hNew, hSeq, _⟩ := hPut.own cell hOne
    have hHeadLt := hPut.settled.inv.tail_lt hNew
    rw [hOne] at hHigh
    have hRow : mem'.rsIdx x * mem'.size + t = mem'.head := by
      rw [length_singleton] at hHigh
      omega
    have hSame : t = mem'.head := by
      have hMod : (mem'.rsIdx x * mem'.size + t) % mem'.size = mem'.head % mem'.size :=
        congrArg (· % mem'.size) hRow
      rwa [Nat.mul_add_mod_self_right, Nat.mod_eq_of_lt hTailLt, Nat.mod_eq_of_lt hHeadLt] at hMod
    have hIn := (hPut.settled.inv.tail x t hTail).2
    rw [hSame, hSeq] at hIn
    exact hX (Finset.mem_singleton.mp hIn)
  · omega

/-- Every state of a run can be saved, but for cells whose sequences do not agree on a
snapshot, and what is saved is restored into every memory of a run that is configured
alike. -/
theorem SavingRun.restores (h : SavingRun zero st) :
    (∀ q, (∃ saved, st.save q = some saved) ↔ Writable st.mem q) ∧
      ∀ st₀, SavingRun zero st₀ → SameShape st.mem st₀.mem →
        (∀ saved, st.save none = some saved →
          (∀ x, (st.mem.cells x).tail ≠ none → x < st.mem.nSeqMax) →
          ∃ st', st₀.restore none saved = .committed st' ∧ RestoredAll st st') ∧
        ∀ saved s d, st.save (some s) = some saved → d < st₀.mem.size →
          ∃ st', st₀.restore (some d) saved = .committed st' ∧ RestoredOne st s st₀ d st' := by
  have hSettled := h.settled
  refine ⟨fun q => ?_, fun st₀ hRun hShape =>
    ⟨fun saved hSave hBelow => restored_all hSettled hRun.settled hShape hSave hBelow,
      fun saved s d hSave hLt => restored_one hSettled hRun.settled hSave hLt⟩⟩
  rw [← stateWrite_isSome hSettled.inv hSettled.indexed q]
  constructor
  · rintro ⟨saved, hSave⟩
    obtain ⟨written, hWrite, _⟩ := save_some hSave
    exact ⟨written, hWrite⟩
  rintro ⟨written, hWrite⟩
  unfold save
  rw [hWrite]
  exact ⟨_, rfl⟩

/-- Sequence `1` shares the cell of sequence `0`. -/
def pairRun : RecurrentStates Nat :=
  ((empty 0 2 2 1).after 0 (.decode twoTokens 2 numbered)).after 0 (.cp 0 1)

theorem pairRun_run : SavingRun 0 pairRun := by
  have hTwo : SavingRun 0 ((empty 0 2 2 1).after 0 (.decode twoTokens 2 numbered)) := by
    refine .step (.decode twoTokens 2 numbered) (.start 2 2 1 (Nat.le_refl 2))
      (twoTokens_fits (by decide)) (fun _ _ _ hRm => nomatch hRm) (step_after (by decide))
  exact .step (.cp 0 1) hTwo trivial (fun _ _ _ hRm => nomatch hRm) (step_after rfl)

/-- An empty memory of the same size takes over the cell with both sequences. -/
theorem pairRun_restores :
    ∃ saved, pairRun.save none = some saved ∧
      ∃ st', (empty 0 2 2 1).restore none saved = .committed st' ∧ RestoredAll pairRun st' := by
  obtain ⟨hSaves, hRestores⟩ := SavingRun.restores pairRun_run
  obtain ⟨saved, hSave⟩ := (hSaves none).mpr (Or.inr fun c x hMember => by
    have hIdx : ∀ x, pairRun.mem.rsIdx x = 0 := fun x => by
      have hSame : ∀ x < 2, pairRun.mem.rsIdx x = 0 := by decide
      by_cases hLt : x < 2
      · exact hSame x hLt
      · exact pairRun_run.settled.indexed.beyond x (not_lt.mp hLt)
    have hLt := (pairRun_run.settled.inv.tail x c
      (pairRun_run.settled.inv.member c x hMember).2).1
    exact ⟨hLt, fun y _ => (hIdx x).trans (hIdx y).symm⟩)
  have hShape : SameShape pairRun.mem (empty 0 2 2 1).mem := ⟨rfl, rfl, rfl⟩
  refine ⟨saved, hSave, (hRestores _ (.start 2 2 1 (Nat.le_refl 2)) hShape).1 saved hSave ?_⟩
  intro x hTail
  obtain ⟨c, hC⟩ := ne_none_iff_exists'.mp hTail
  exact (pairRun_run.settled.inv.tail x c hC).1

/-- The last token of sequence `0` is removed while its cell is shared. -/
def splitRun : RecurrentStates Nat := pairRun.after 0 (.rm 0 1 (-1))

/-- The two sequences of the cell do not agree on a snapshot any more, and the state of
all sequences is not written. -/
theorem splitRun_aborts :
    ¬ ∀ st : RecurrentStates Nat, SavingRun 0 st → ∀ q, ∃ saved, st.save q = some saved := by
  intro hClaim
  have hRun : SavingRun 0 splitRun :=
    .step (.rm 0 1 (-1)) pairRun_run trivial
      (fun s p0 p1 hRm => by
        obtain ⟨rfl, rfl, rfl⟩ := StateOp.rm.inj hRm
        exact fun hNeg => absurd hNeg (by decide))
      (step_after rfl)
  obtain ⟨saved, hSave⟩ := hClaim splitRun hRun none
  have hAborts : (splitRun.mem.stateWrite none).isNone = true := by decide
  obtain ⟨written, hWrite, _⟩ := save_some hSave
  rw [hWrite] at hAborts
  exact Bool.false_ne_true hAborts

end RecurrentStates

end Beellama.Ports
