import Beellama.Ports.Dsv4PlanSpec

/-!
# The rings and snapshots that a plan leaves

A micro-batch that continues its sequences (`Continues`) pushes its rows to the ring of each one, from
the plane that the plan restores; snapshot `d` is that ring without the last `d` tokens, or the
older snapshot `d - n` (`execute_ring`, `execute_snapshot`, `execute_other`).
-/

namespace Beellama.Ports

open Beellama.Verified List Function

/-! ## The rows that are kept for the ring -/

variable {w : PersistRow}

theorem mem_persist {rows : List PersistRow} (hNodup : (rows.map (·.dst)).Nodup)
    (hLater : ∀ r ∈ rows, r.dst = w.dst → r.pos < w.pos ∨ r = w) (row : PersistRow) :
    row ∈ persist w rows ↔ row ∈ rows ∧ row.dst ≠ w.dst ∨ row = w := by
  induction rows with
  | nil => simp [persist]
  | cons r rest ih =>
    obtain ⟨hHead, hTail⟩ := nodup_cons.mp hNodup
    have hRest := ih hTail fun x hx => hLater x (mem_cons_of_mem _ hx)
    unfold persist
    by_cases hDst : r.dst = w.dst
    · have hOther : ∀ x ∈ rest, x.dst ≠ w.dst := by
        intro x hx hEq
        exact hHead (mem_map.mpr ⟨x, hx, hEq.trans hDst.symm⟩)
      have hWritten : (if r.pos < w.pos then { r with src := w.src, pos := w.pos } :: rest
          else r :: rest) = w :: rest := by
        rcases hLater r (by simp) hDst with hLt | rfl
        · rw [if_pos hLt]
          cases w
          cases hDst
          rfl
        · rw [if_neg (lt_irrefl _)]
      rw [if_pos hDst, hWritten, mem_cons, mem_cons]
      constructor
      · rintro (rfl | hMem)
        · exact Or.inr rfl
        · exact Or.inl ⟨Or.inr hMem, hOther row hMem⟩
      rintro (⟨rfl | hMem, hNe⟩ | rfl)
      · exact absurd hDst hNe
      · exact Or.inr hMem
      · exact Or.inl rfl
    rw [if_neg hDst, mem_cons, mem_cons, hRest]
    constructor
    · rintro (rfl | ⟨hMem, hNe⟩ | rfl)
      · exact Or.inl ⟨Or.inl rfl, hDst⟩
      · exact Or.inl ⟨Or.inr hMem, hNe⟩
      · exact Or.inr rfl
    rintro (⟨rfl | hMem, hNe⟩ | rfl)
    · exact Or.inl rfl
    · exact Or.inr (Or.inl ⟨hMem, hNe⟩)
    · exact Or.inr (Or.inr rfl)

theorem persist_dst_nodup {rows : List PersistRow} (w : PersistRow)
    (hNodup : (rows.map (·.dst)).Nodup) : ((persist w rows).map (·.dst)).Nodup := by
  have hMem : ∀ rows : List PersistRow, ∀ d ∈ (persist w rows).map (·.dst),
      d ∈ rows.map (·.dst) ∨ d = w.dst := by
    intro rows
    induction rows with
    | nil => simp [persist]
    | cons r rest ih =>
      unfold persist
      split
      · split <;> exact fun d hd => Or.inl hd
      intro d hd
      rcases mem_cons.mp hd with rfl | hRest
      · exact Or.inl mem_cons_self
      · exact (ih d hRest).imp_left (mem_cons_of_mem _)
  induction rows with
  | nil => simp [persist]
  | cons r rest ih =>
    obtain ⟨hHead, hTail⟩ := nodup_cons.mp hNodup
    unfold persist
    split
    · split <;> exact hNodup
    rename_i hDst
    refine nodup_cons.mpr ⟨fun hIn => ?_, ih hTail⟩
    rcases hMem rest _ hIn with hOld | hNew
    · exact hHead hOld
    · exact hDst hNew

/-- The last write to a row. -/
def lastWrite (writes : List PersistRow) (dst : Nat) : Option PersistRow :=
  writes.foldl (fun o w => if w.dst = dst then some w else o) none

theorem lastWrite_snoc (writes : List PersistRow) (w : PersistRow) (dst : Nat) :
    lastWrite (writes ++ [w]) dst = if w.dst = dst then some w else lastWrite writes dst := by
  unfold lastWrite
  rw [foldl_append]
  rfl

variable {writes : List PersistRow} {dst : Nat}

theorem lastWrite_dst (h : lastWrite writes dst = some w) : w ∈ writes ∧ w.dst = dst := by
  induction writes using reverseRecOn with
  | nil => cases h
  | append_singleton writes x ih =>
    rw [lastWrite_snoc] at h
    split at h
    · cases h
      exact ⟨by simp, ‹_›⟩
    · exact ⟨mem_append_left _ (ih h).1, (ih h).2⟩

/-- Writes to one row come in the order of their positions. -/
def WritesOrdered (writes : List PersistRow) : Prop :=
  writes.Pairwise fun x y => x.dst = y.dst → x.pos < y.pos ∨ x = y

theorem mem_persistRows (h : WritesOrdered writes) :
    ((writes.foldl (fun rows row => persist row rows) []).map (·.dst)).Nodup ∧
      ∀ row, row ∈ writes.foldl (fun rows row => persist row rows) [] ↔
        lastWrite writes row.dst = some row := by
  induction writes using reverseRecOn with
  | nil => exact ⟨nodup_nil, fun row => by simp [lastWrite]⟩
  | append_singleton writes w ih =>
    obtain ⟨hOld, -, hNew⟩ := pairwise_append.mp h
    obtain ⟨hNodup, hMem⟩ := ih hOld
    rw [foldl_append]
    refine ⟨persist_dst_nodup w hNodup, fun row => ?_⟩
    have hLater : ∀ r ∈ writes.foldl (fun rows row => persist row rows) [],
        r.dst = w.dst → r.pos < w.pos ∨ r = w := fun r hr =>
      hNew r (lastWrite_dst ((hMem r).mp hr)).1 w (by simp)
    refine (mem_persist hNodup hLater row).trans ?_
    rw [lastWrite_snoc, hMem]
    by_cases hDst : w.dst = row.dst
    · rw [if_pos hDst]
      constructor
      · rintro (⟨-, hNe⟩ | rfl)
        · exact absurd hDst.symm hNe
        · rfl
      intro hEq
      cases hEq
      exact Or.inr rfl
    rw [if_neg hDst]
    constructor
    · rintro (⟨hRow, -⟩ | rfl)
      · exact hRow
      · exact absurd rfl hDst
    · exact fun hRow => Or.inl ⟨hRow, fun hEq => hDst hEq.symm⟩

theorem lastWrite_append (writes rest : List PersistRow) (dst : Nat) :
    lastWrite (writes ++ rest) dst = (lastWrite rest dst).or (lastWrite writes dst) := by
  induction rest using reverseRecOn with
  | nil => rw [append_nil]; rfl
  | append_singleton rest w ih =>
    rw [← append_assoc, lastWrite_snoc, lastWrite_snoc, ih]
    split <;> rfl

theorem lastWrite_eq_none (h : ∀ w ∈ writes, w.dst ≠ dst) : lastWrite writes dst = none := by
  cases hLast : lastWrite writes dst with
  | none => rfl
  | some w =>
    obtain ⟨hMem, hDst⟩ := lastWrite_dst hLast
    exact absurd hDst (h w hMem)

theorem lastWrite_isSome (h : w ∈ writes) : ∃ w', lastWrite writes w.dst = some w' := by
  induction writes using reverseRecOn with
  | nil => cases h
  | append_singleton writes x ih =>
    rw [lastWrite_snoc]
    by_cases hDst : x.dst = w.dst
    · exact ⟨x, if_pos hDst⟩
    rw [if_neg hDst]
    rcases mem_append.mp h with hOld | hNew
    · exact ih hOld
    · rw [mem_singleton.mp hNew] at hDst
      exact absurd rfl hDst

/-! ## Micro-batches that continue their sequences -/

namespace SplitUbatch

/-- The tokens of a sequence among the first `k`. -/
def tokensTo (u : SplitUbatch) (s k : Nat) : List Nat :=
  (List.range k).filter fun i => s ∈ u.seqsAt i

/-- The positions of every sequence go on from `start` without a gap, and every sequence has a
stream. -/
structure Continues (u : SplitUbatch) (nSeqMax : Nat) (start : Nat → Nat) : Prop where
  pos : ∀ i < u.nTokens, ∀ s ∈ u.seqsAt i, u.posAt i = start s + (u.tokensTo s i).length
  unq : ∀ s, s ∈ u.seqIdUnq ↔ ∃ i < u.nTokens, s ∈ u.seqsAt i
  nodup : u.seqIdUnq.Nodup
  below : ∀ s ∈ u.seqIdUnq, s < nSeqMax

variable {u : SplitUbatch} {nSeqMax : Nat} {start : Nat → Nat} {s i j k : Nat}

theorem tokensTo_succ (u : SplitUbatch) (s k : Nat) :
    u.tokensTo s (k + 1) = u.tokensTo s k ++ if s ∈ u.seqsAt k then [k] else [] := by
  unfold tokensTo
  rw [range_succ]
  by_cases hs : s ∈ u.seqsAt k <;> simp [hs]

theorem tokensTo_length_lt (hs : s ∈ u.seqsAt i) (hLt : i < j) :
    (u.tokensTo s i).length < (u.tokensTo s j).length := by
  induction j with
  | zero => exact absurd hLt (Nat.not_lt_zero i)
  | succ j ih =>
    rw [tokensTo_succ, length_append]
    rcases Nat.lt_succ_iff_lt_or_eq.mp hLt with hBefore | rfl
    · omega
    · rw [if_pos hs]
      exact Nat.lt_succ_self _

variable (h : u.Continues nSeqMax start)

include h

theorem Continues.pos_nonneg (hi : i < u.nTokens) (hs : s ∈ u.seqsAt i) : 0 ≤ u.posAt i := by
  rw [h.pos i hi s hs]
  omega

theorem Continues.pos_toNat (hi : i < u.nTokens)
    (hs : s ∈ u.seqsAt i) : (u.posAt i).toNat = start s + (u.tokensTo s i).length := by
  rw [h.pos i hi s hs]
  omega

theorem Continues.pos_lt (hj : j < u.nTokens) (hLt : i < j)
    (hi : s ∈ u.seqsAt i) (hs : s ∈ u.seqsAt j) : u.posAt i < u.posAt j := by
  rw [h.pos i (by omega) s hi, h.pos j hj s hs]
  have hCount := tokensTo_length_lt hi hLt
  omega

theorem Continues.seqsIn (hi : i < u.nTokens) (hs : s ∈ u.seqsAt i) : s < nSeqMax :=
  h.below s ((h.unq s).mpr ⟨i, hi, hs⟩)

end SplitUbatch

/-! ## The ring -/

namespace PlanArgs

variable {a : PlanArgs} {u : SplitUbatch} {start : Nat → Nat} {s r k : Nat}

theorem mem_ringWrites {i : Nat} :
    w ∈ a.ringWrites u i ↔ 0 ≤ u.posAt i ∧ ∃ s ∈ u.seqsAt i,
      w = ⟨s * a.stateSize + (u.posAt i).toNat % a.stateSize, i, u.posAt i⟩ := by
  unfold ringWrites
  split
  · rename_i hNeg
    exact ⟨fun h => absurd h not_mem_nil, fun h => absurd h.1 (not_le.mpr hNeg)⟩
  rename_i hPos
  rw [mem_map]
  constructor
  · rintro ⟨s, hs, rfl⟩
    exact ⟨not_lt.mp hPos, s, hs, rfl⟩
  · rintro ⟨-, s, hs, rfl⟩
    exact ⟨s, hs, rfl⟩

theorem ringWrites_ordered (hSize : 0 < a.stateSize) (h : u.Continues a.nStream start) :
    WritesOrdered ((range u.nTokens).flatMap (a.ringWrites u)) := by
  refine pairwise_flatMap.mpr ⟨fun i _ => ?_, ?_⟩
  · unfold ringWrites
    split
    · exact List.Pairwise.nil
    refine pairwise_map.mpr (pairwise_of_forall fun s t hDst => Or.inr ?_)
    have hEq : s = t :=
      ((mul_add_inj (Nat.mod_lt _ hSize) (Nat.mod_lt _ hSize)).mp hDst).1
    rw [hEq]
  refine pairwise_lt_range.imp_of_mem fun {i j} hi hj hLt x hx y hy hDst => Or.inl ?_
  obtain ⟨-, s, hs, rfl⟩ := mem_ringWrites.mp hx
  obtain ⟨-, t, ht, rfl⟩ := mem_ringWrites.mp hy
  have hEq : s = t :=
    ((mul_add_inj (Nat.mod_lt _ hSize) (Nat.mod_lt _ hSize)).mp hDst).1
  subst hEq
  exact h.pos_lt (mem_range.mp hj) hLt hs ht

/-- What the last write to each slot leaves is the ring with the rows pushed. -/
theorem pushRing_eq_lastWrite {ρ : Type} {R scratch : Nat → ρ} (h : u.Continues a.nStream start)
    (hr : r < a.stateSize) (hk : k ≤ u.nTokens) :
    pushRing a.stateSize R (start s) ((u.tokensTo s k).map scratch) r =
      match lastWrite ((range k).flatMap (a.ringWrites u)) (s * a.stateSize + r) with
      | some w => scratch w.src
      | none => R r := by
  induction k with
  | zero => rfl
  | succ k ih =>
    have hSize : 0 < a.stateSize := by omega
    rw [u.tokensTo_succ, map_append, range_succ, flatMap_append, lastWrite_append,
      flatMap_singleton]
    by_cases hs : s ∈ u.seqsAt k
    · have hPos := h.pos_toNat hk hs
      rw [if_pos hs, map_singleton, pushRing_snoc, length_map, ← hPos]
      by_cases hSlot : r = (u.posAt k).toNat % a.stateSize
      · have hMem : (⟨s * a.stateSize + r, k, u.posAt k⟩ : PersistRow) ∈ a.ringWrites u k :=
          mem_ringWrites.mpr ⟨h.pos_nonneg hk hs, s, hs, by rw [hSlot]⟩
        obtain ⟨w, hw⟩ := lastWrite_isSome hMem
        obtain ⟨-, t, -, hEq⟩ := mem_ringWrites.mp (lastWrite_dst hw).1
        rw [hw, hSlot, update_self, hEq]
        rfl
      have hNone : lastWrite (a.ringWrites u k) (s * a.stateSize + r) = none := by
        refine lastWrite_eq_none fun w hw hDst => ?_
        obtain ⟨-, t, -, rfl⟩ := mem_ringWrites.mp hw
        exact hSlot ((mul_add_inj (Nat.mod_lt _ hSize) hr).mp hDst).2.symm
      rw [hNone, update_of_ne hSlot, ih (by omega)]
      rfl
    have hNone : lastWrite (a.ringWrites u k) (s * a.stateSize + r) = none := by
      refine lastWrite_eq_none fun w hw hDst => ?_
      obtain ⟨-, t, ht, rfl⟩ := mem_ringWrites.mp hw
      rw [((mul_add_inj (Nat.mod_lt _ hSize) hr).mp hDst).1] at ht
      exact hs ht
    rw [if_neg hs, map_nil, append_nil, hNone, ih (by omega)]
    rfl

/-! ## What a plan holds -/

variable {acc acc' : PlanAcc}

theorem dummyBlock_persistRows {i : Nat}
    (h : a.dummyBlock u acc s i = .ok acc') : acc'.persistRows = acc.persistRows := by
  unfold dummyBlock at h
  cases hOff : streamOffset a.nStream s a.kvSize with
  | error e =>
    rw [hOff] at h
    cases h
  | ok off =>
    cases hSrc : a.sourceIdx u s (u.posAt i) with
    | error e =>
      rw [hOff, hSrc] at h
      cases h
    | ok src =>
      rw [hOff, hSrc] at h
      cases h
      unfold PlanAcc.addBlock
      split <;> rfl

theorem padSeq_persistRows {nBlocks : Nat}
    (h : a.padSeq u nBlocks acc s = .ok acc') : acc'.persistRows = acc.persistRows := by
  unfold padSeq at h
  split at h
  · cases h
    rfl
  split at h
  · cases h
  split at h
  · cases h
  · exact dummyBlock_persistRows h

theorem padBlocks_persistRows (h : a.padBlocks u acc = .ok acc') :
    acc'.persistRows = acc.persistRows := by
  unfold padBlocks at h
  split at h
  · split at h
    · cases h
      rfl
    split at h
    · cases h
    · exact dummyBlock_persistRows h
  have hKeeps := foldlM_keeps (P := fun x : PlanAcc => x.persistRows = acc.persistRows)
    (fun t _ x y hx hy => (padSeq_persistRows hy).trans hx) rfl h
  exact hKeeps

/-- The rows that a plan moves. -/
structure Moves (a : PlanArgs) (rsIdx : Nat → Nat) (u : SplitUbatch) (plan : CompPlan) : Prop where
  statePos : plan.statePos = a.statePos u
  restore : plan.stateRestore = (a.planSeqs u).flatMap (a.restoreSeq rsIdx)
  snapshot : plan.stateSnapshot = (a.planSeqs u).flatMap (a.snapshotSeq u)
  persist : ∃ rows : List PersistRow, rows.Perm (((List.range u.nTokens).flatMap (a.ringWrites u)).foldl
      (fun rows row => persist row rows) []) ∧
    plan.statePersist = rows.map fun row => (row.src, row.dst)

theorem buildCompPlan_moves {rsIdx : Nat → Nat} {plan : CompPlan} (hIn : a.SeqsIn u)
    (h : buildCompPlan a rsIdx u = .ok plan) : a.Moves rsIdx u plan := by
  unfold buildCompPlan at h
  split at h
  · cases h
  obtain ⟨acc, hAcc, h⟩ := exists_of_bind h
  cases h
  refine ⟨rfl, rfl, rfl, _, ?_, rfl⟩
  have hRows : acc.persistRows = (a.accAfter u (range u.nTokens)).persistRows := by
    unfold planBlocks at hAcc
    rw [planLoop_eq hIn] at hAcc
    split at hAcc
    · exact padBlocks_persistRows hAcc
    · cases hAcc
      rfl
  rw [hRows]
  exact mergeSort_perm _ _

end PlanArgs

/-! ## Execution -/

namespace PlanArgs.Moves

variable {a : PlanArgs} {u : SplitUbatch} {rsIdx start : Nat → Nat} {plan : CompPlan}
  {ρ : Type} {rows : Nat → Nat → ρ} {scratch : Nat → ρ} {s r k d : Nat}

variable {n : Nat} {l : List Nat}

theorem streamRows_nodup (hl : l.Nodup) :
    (l.flatMap fun s => (range n).map fun r => s * n + r).Nodup := by
  refine nodup_flatMap.mpr ⟨fun s _ => ?_, ?_⟩
  · refine (nodup_map_iff_inj_on nodup_range).mpr fun r _ r' _ h => ?_
    omega
  refine hl.imp fun {s t} hNe x hx hy => hNe ?_
  obtain ⟨r, hr, rfl⟩ := mem_map.mp hx
  obtain ⟨r', hr', hEq⟩ := mem_map.mp hy
  exact ((mul_add_inj (mem_range.mp hr') (mem_range.mp hr)).mp hEq).1.symm

theorem mem_streamRows (hr : r < n) :
    (s * n + r ∈ l.flatMap fun s => (range n).map fun r => s * n + r) ↔ s ∈ l := by
  rw [mem_flatMap]
  constructor
  · rintro ⟨t, ht, hMem⟩
    obtain ⟨r', hr', hEq⟩ := mem_map.mp hMem
    rw [← ((mul_add_inj (mem_range.mp hr') hr).mp hEq).1]
    exact ht
  · exact fun hs => ⟨s, hs, mem_map.mpr ⟨r, mem_range.mpr hr, rfl⟩⟩

theorem planSeqs_nodup (h : u.Continues a.nStream start) : (a.planSeqs u).Nodup := by
  unfold planSeqs
  split
  · exact nodup_nil
  · exact h.nodup.filter _

theorem mem_planSeqs (h : u.Continues a.nStream start) :
    s ∈ a.planSeqs u ↔ a.nRsSeq ≠ 0 ∧ s ∈ u.seqIdUnq := by
  unfold planSeqs
  split
  · rename_i hZero
    exact ⟨fun hs => absurd hs not_mem_nil, fun hs => absurd hZero hs.1⟩
  rename_i hPos
  rw [mem_filter, decide_eq_true_iff]
  exact ⟨fun hs => ⟨hPos, hs.1⟩, fun hs => ⟨hs.2, h.below s hs.2⟩⟩

theorem planeIndex (a : PlanArgs) (d s r : Nat) :
    d * a.stateRows + (s * a.stateSize + r) = (d * a.nStream + s) * a.stateSize + r := by
  unfold stateRows
  rw [Nat.mul_comm a.stateSize, ← Nat.mul_assoc, Nat.add_mul, Nat.add_assoc]

/-- A restored sequence has the rows of the plane that it continues from, the other streams
keep theirs. -/
theorem restore_rows (hMoves : a.Moves rsIdx u plan) (h : u.Continues a.nStream start)
    (hr : r < a.stateSize) :
    plan.restore a rows k r =
      if k ∈ a.planSeqs u then rows (a.restorePlane rsIdx k * a.nStream + k) r else rows k r := by
  have hKeys : (plan.stateRestore.map fun pair =>
      (pair.2, rowAt a.stateSize rows pair.1)).map Prod.fst =
      (a.planSeqs u).flatMap fun s => (range a.stateSize).map fun r =>
        s * a.stateSize + r := by
    rw [hMoves.restore, map_map, map_flatMap]
    refine flatMap_congr fun s _ => ?_
    unfold restoreSeq
    rw [map_map]
    rfl
  rw [← rowAt_mul_add (plan.restore a rows) k hr]
  unfold CompPlan.restore
  by_cases hk : k ∈ a.planSeqs u
  · rw [if_pos hk]
    refine rowAt_setRows_of_mem ?_ ?_
    · rw [hKeys]
      exact streamRows_nodup (planSeqs_nodup h)
    refine mem_map.mpr ⟨(a.restorePlane rsIdx k * a.stateRows + (k * a.stateSize + r),
      k * a.stateSize + r), ?_, ?_⟩
    · rw [hMoves.restore]
      exact mem_flatMap.mpr ⟨k, hk, mem_map.mpr ⟨r, mem_range.mpr hr, rfl⟩⟩
    · rw [planeIndex, rowAt_mul_add _ _ hr]
  have hNot : k * a.stateSize + r ∉ (plan.stateRestore.map fun pair =>
      (pair.2, rowAt a.stateSize rows pair.1)).map Prod.fst := by
    rw [hKeys, mem_streamRows hr]
    exact hk
  rw [if_neg hk, rowAt_setRows_of_not_mem hNot, rowAt_mul_add _ _ hr]

theorem persist_rows (hMoves : a.Moves rsIdx u plan) (h : u.Continues a.nStream start)
    (hr : r < a.stateSize) :
    plan.persist a rows scratch k r =
      pushRing a.stateSize (rows k) (start k) ((u.tokenIdxs k).map scratch) r := by
  obtain ⟨kept, hPerm, hPersist⟩ := hMoves.persist
  obtain ⟨hNodup, hMem⟩ := mem_persistRows (ringWrites_ordered (by omega) h)
  have hPairs : (plan.statePersist.map fun pair => (pair.2, scratch pair.1)) =
      kept.map fun row => (row.dst, scratch row.src) := by
    rw [hPersist, map_map]
    rfl
  have hKeys : (kept.map fun row => (row.dst, scratch row.src)).map Prod.fst =
      kept.map (·.dst) := by
    rw [map_map]
    rfl
  refine Eq.trans ?_ (pushRing_eq_lastWrite h hr (Nat.le_refl u.nTokens)).symm
  rw [← rowAt_mul_add (plan.persist a rows scratch) k hr]
  unfold CompPlan.persist
  rw [hPairs]
  cases hLast : lastWrite ((range u.nTokens).flatMap (a.ringWrites u))
      (k * a.stateSize + r) with
  | some w =>
    have hDst := (lastWrite_dst hLast).2
    refine rowAt_setRows_of_mem ?_ (mem_map.mpr ⟨w, ?_, by rw [hDst]⟩)
    · rw [hKeys]
      exact (hPerm.map _).nodup_iff.mpr hNodup
    · rw [hPerm.mem_iff, hMem, hDst]
      exact hLast
  | none =>
    refine (rowAt_setRows_of_not_mem fun hIn => ?_).trans (rowAt_mul_add _ _ hr)
    rw [hKeys] at hIn
    obtain ⟨w, hw, hDst⟩ := mem_map.mp hIn
    rw [hPerm.mem_iff, hMem, hDst, hLast] at hw
    cases hw

/-! ### Snapshots -/

theorem take_tokensTo {m : Nat} (hm : m ≤ (u.tokensTo s n).length) :
    ∃ k ≤ n, (u.tokensTo s n).take m = u.tokensTo s k := by
  induction n with
  | zero => exact ⟨0, Nat.le_refl _, take_of_length_le (Nat.zero_le _)⟩
  | succ n ih =>
    by_cases hShort : m ≤ (u.tokensTo s n).length
    · obtain ⟨k, hk, hEq⟩ := ih hShort
      refine ⟨k, by omega, ?_⟩
      rw [u.tokensTo_succ, take_append_of_le_length hShort, hEq]
    refine ⟨n + 1, Nat.le_refl _, take_of_length_le ?_⟩
    rw [u.tokensTo_succ] at hm ⊢
    split at hm <;> split <;> simp_all
    all_goals omega

/-- A row of the planes or of the micro-batch. -/
def snapshotRow (a : PlanArgs) (rows : Nat → Nat → ρ) (scratch : Nat → ρ) (k : Nat) : ρ :=
  if k < a.stateRows * (1 + a.nRsSeq) then rowAt a.stateSize rows k
  else scratch (k - a.stateRows * (1 + a.nRsSeq))

/-- Where row `r` of the ring with some tokens pushed comes from. -/
def latestSrc (a : PlanArgs) (u : SplitUbatch) (s r : Nat) (toks : List Nat) : Nat :=
  toks.foldl
    (fun src i =>
      if 0 ≤ u.posAt i ∧ (u.posAt i).toNat % a.stateSize = r then a.stateRows * (1 + a.nRsSeq) + i
      else src)
    (s * a.stateSize + r)

theorem latestSrc_snoc (toks : List Nat) (i : Nat) :
    latestSrc a u s r (toks ++ [i]) =
      if 0 ≤ u.posAt i ∧ (u.posAt i).toNat % a.stateSize = r then a.stateRows * (1 + a.nRsSeq) + i
      else latestSrc a u s r toks := by
  unfold latestSrc
  rw [foldl_append]
  rfl

theorem snapshotRow_plane (hs : s < a.nStream) (hr : r < a.stateSize) (hd : d ≤ a.nRsSeq) :
    snapshotRow a rows scratch (d * a.stateRows + (s * a.stateSize + r)) =
      rows (d * a.nStream + s) r := by
  have hRow : s * a.stateSize + r < a.stateRows := by
    have hLe := Nat.mul_le_mul_right a.stateSize (Nat.succ_le_of_lt hs)
    unfold stateRows
    rw [Nat.mul_comm a.stateSize]
    rw [Nat.succ_mul] at hLe
    omega
  have hPlane : d * a.stateRows + a.stateRows ≤ a.stateRows * (1 + a.nRsSeq) := by
    rw [← Nat.succ_mul, Nat.mul_comm]
    exact Nat.mul_le_mul_left _ (by omega)
  unfold snapshotRow
  rw [if_pos (by omega), planeIndex, rowAt_mul_add _ _ hr]

/-- The snapshot of the first tokens is the ring with their rows pushed. -/
theorem snapshotRow_latest (h : u.Continues a.nStream start) (hs : s < a.nStream)
    (hr : r < a.stateSize) (hk : k ≤ u.nTokens) :
    snapshotRow a rows scratch (latestSrc a u s r (u.tokensTo s k)) =
      pushRing a.stateSize (rows s) (start s) ((u.tokensTo s k).map scratch) r := by
  induction k with
  | zero =>
    have hFirst : snapshotRow a rows scratch (0 * a.stateRows + (s * a.stateSize + r)) =
        rows (0 * a.nStream + s) r := snapshotRow_plane hs hr (Nat.zero_le _)
    rw [Nat.zero_mul, Nat.zero_add, Nat.zero_mul, Nat.zero_add] at hFirst
    exact hFirst
  | succ k ih =>
    rw [u.tokensTo_succ]
    by_cases hTok : s ∈ u.seqsAt k
    · have hPos := h.pos_toNat hk hTok
      rw [if_pos hTok, map_append, map_singleton, pushRing_snoc, length_map, ← hPos,
        latestSrc_snoc]
      by_cases hSlot : (u.posAt k).toNat % a.stateSize = r
      · rw [if_pos ⟨h.pos_nonneg hk hTok, hSlot⟩, hSlot, update_self]
        unfold snapshotRow
        rw [if_neg (by omega), Nat.add_sub_cancel_left]
      · rw [if_neg fun hBoth => hSlot hBoth.2, update_of_ne (Ne.symm hSlot)]
        exact ih (by omega)
    · rw [if_neg hTok, append_nil]
      exact ih (by omega)

theorem snapshotRow_src (h : u.Continues a.nStream start) (hs : s < a.nStream)
    (hr : r < a.stateSize) (hd : d ≤ a.nRsSeq) :
    snapshotRow a rows scratch (a.snapshotSrc u s d r) =
      if d ≤ (u.tokenIdxs s).length then
        pushRing a.stateSize (rows s) (start s)
          (((u.tokenIdxs s).take ((u.tokenIdxs s).length - d)).map scratch) r
      else rows ((d - (u.tokenIdxs s).length) * a.nStream + s) r := by
  unfold snapshotSrc
  dsimp only
  split
  · have hFirst : ∃ k ≤ u.nTokens,
        (u.tokenIdxs s).take ((u.tokenIdxs s).length - d) = u.tokensTo s k :=
      take_tokensTo (Nat.sub_le (u.tokenIdxs s).length d)
    obtain ⟨k, hk, hToks⟩ := hFirst
    rw [hToks]
    exact snapshotRow_latest h hs hr hk
  · exact snapshotRow_plane hs hr (by omega)

/-- The streams of the snapshots. -/
def snapshotStreams (a : PlanArgs) (u : SplitUbatch) : List Nat :=
  (a.planSeqs u).flatMap fun s => (List.range a.nRsSeq).map fun d => (d + 1) * a.nStream + s

theorem tokenIdxs_ne_nil (h : u.Continues a.nStream start) (hs : s ∈ u.seqIdUnq) :
    u.tokenIdxs s ≠ [] := by
  obtain ⟨i, hi, hTok⟩ := (h.unq s).mp hs
  have hMem : i ∈ u.tokenIdxs s :=
    mem_filter.mpr ⟨mem_range.mpr hi, decide_eq_true hTok⟩
  exact ne_nil_of_mem hMem

theorem snapshotStreams_nodup (h : u.Continues a.nStream start) : (snapshotStreams a u).Nodup := by
  refine nodup_flatMap.mpr ⟨fun s hs => ?_, ?_⟩
  · have hBelow := h.below s ((mem_planSeqs h).mp hs).2
    refine (nodup_map_iff_inj_on nodup_range).mpr fun d _ d' _ hEq => ?_
    exact Nat.succ_injective ((mul_add_inj hBelow hBelow).mp hEq).1
  refine (planSeqs_nodup h).imp_of_mem fun {s t} hs ht hNe x hx hy => hNe ?_
  have hsBelow := h.below s ((mem_planSeqs h).mp hs).2
  have htBelow := h.below t ((mem_planSeqs h).mp ht).2
  obtain ⟨d, -, rfl⟩ := mem_map.mp hx
  obtain ⟨d', -, hEq⟩ := mem_map.mp hy
  exact ((mul_add_inj htBelow hsBelow).mp hEq).2.symm

variable (hMoves : a.Moves rsIdx u plan)

include hMoves

theorem snapshot_keys (h : u.Continues a.nStream start) :
    (plan.stateSnapshot.map fun pair => (pair.2, snapshotRow a rows scratch pair.1)).map Prod.fst =
      (snapshotStreams a u).flatMap fun k => (range a.stateSize).map fun r =>
        k * a.stateSize + r := by
  unfold snapshotStreams
  rw [hMoves.snapshot, map_map, map_flatMap, flatMap_assoc]
  refine flatMap_congr fun s hs => ?_
  unfold snapshotSeq
  rw [if_neg (tokenIdxs_ne_nil h ((mem_planSeqs h).mp hs).2), map_flatMap, flatMap_map]
  refine flatMap_congr fun d _ => ?_
  rw [map_map]
  exact map_congr_left fun r _ => planeIndex a (d + 1) s r

/-- The snapshots of the sequences of the micro-batch are written, the other streams keep
their rows. -/
theorem snapshot_rows (h : u.Continues a.nStream start)
    (hr : r < a.stateSize) (hs : s ∈ a.planSeqs u) (hOne : 1 ≤ d) (hd : d ≤ a.nRsSeq) :
    plan.snapshot a rows scratch (d * a.nStream + s) r =
      if d ≤ (u.tokenIdxs s).length then
        pushRing a.stateSize (rows s) (start s)
          (((u.tokenIdxs s).take ((u.tokenIdxs s).length - d)).map scratch) r
      else rows ((d - (u.tokenIdxs s).length) * a.nStream + s) r := by
  have hUnq := ((mem_planSeqs h).mp hs).2
  have hSrc : snapshotRow a rows scratch (a.snapshotSrc u s d r) = _ :=
    snapshotRow_src h (h.below s hUnq) hr hd
  rw [← hSrc, ← rowAt_mul_add (plan.snapshot a rows scratch) _ hr]
  refine rowAt_setRows_of_mem ?_ (mem_map.mpr ⟨(a.snapshotSrc u s d r,
    d * a.stateRows + (s * a.stateSize + r)), ?_, ?_⟩)
  · change ((plan.stateSnapshot.map fun pair =>
      (pair.2, snapshotRow a rows scratch pair.1)).map Prod.fst).Nodup
    rw [snapshot_keys hMoves h]
    exact streamRows_nodup (snapshotStreams_nodup h)
  · rw [hMoves.snapshot]
    refine mem_flatMap.mpr ⟨s, hs, ?_⟩
    unfold snapshotSeq
    rw [if_neg (tokenIdxs_ne_nil h hUnq)]
    refine mem_flatMap.mpr ⟨d - 1, mem_range.mpr (by omega), ?_⟩
    refine mem_map.mpr ⟨r, mem_range.mpr hr, ?_⟩
    rw [Nat.sub_add_cancel hOne]
  · rw [planeIndex]
    rfl

theorem snapshot_other (h : u.Continues a.nStream start)
    (hr : r < a.stateSize) (hk : k ∉ snapshotStreams a u) :
    plan.snapshot a rows scratch k r = rows k r := by
  rw [← rowAt_mul_add (plan.snapshot a rows scratch) k hr]
  refine (rowAt_setRows_of_not_mem ?_).trans (rowAt_mul_add _ _ hr)
  change k * a.stateSize + r ∉ (plan.stateSnapshot.map fun pair =>
    (pair.2, snapshotRow a rows scratch pair.1)).map Prod.fst
  rw [snapshot_keys hMoves h, mem_streamRows hr]
  exact hk

omit hMoves in
theorem mem_snapshotStreams (h : u.Continues a.nStream start) (hs : s < a.nStream) :
    d * a.nStream + s ∈ snapshotStreams a u ↔ 1 ≤ d ∧ d ≤ a.nRsSeq ∧ s ∈ u.seqIdUnq := by
  unfold snapshotStreams
  rw [mem_flatMap]
  constructor
  · rintro ⟨t, ht, hMem⟩
    obtain ⟨d', hd', hEq⟩ := mem_map.mp hMem
    have hUnq := ((mem_planSeqs h).mp ht).2
    obtain ⟨rfl, rfl⟩ := (mul_add_inj (h.below t hUnq) hs).mp hEq
    have hLt := mem_range.mp hd'
    exact ⟨by omega, by omega, hUnq⟩
  rintro ⟨hOne, hd, hUnq⟩
  refine ⟨s, (mem_planSeqs h).mpr ⟨by omega, hUnq⟩, mem_map.mpr ⟨d - 1, ?_, ?_⟩⟩
  · exact mem_range.mpr (by omega)
  · rw [Nat.sub_add_cancel hOne]

/-- The restored ring of a sequence of the micro-batch. -/
theorem restore_ring (h : u.Continues a.nStream start)
    (hr : r < a.stateSize) (hs : s ∈ u.seqIdUnq) :
    plan.restore a rows s r = rows (a.restorePlane rsIdx s * a.nStream + s) r := by
  rw [restore_rows hMoves h hr]
  split
  · rfl
  rename_i hNot
  have hZero : a.nRsSeq = 0 := by
    by_contra hPos
    exact hNot ((mem_planSeqs h).mpr ⟨hPos, hs⟩)
  have hPlane : a.restorePlane rsIdx s = 0 := if_neg (by omega)
  rw [hPlane, Nat.zero_mul, Nat.zero_add]

theorem restore_plane (h : u.Continues a.nStream start)
    (hr : r < a.stateSize) (hk : k ∉ u.seqIdUnq) : plan.restore a rows k r = rows k r := by
  rw [restore_rows hMoves h hr, if_neg fun hIn => hk ((mem_planSeqs h).mp hIn).2]

end PlanArgs.Moves

/-- The rows of the tokens of a sequence. -/
def Micro.tokenRows {ρ : Type} (b : Micro ρ) (p : Dsv4Part) (s : Nat) : List ρ :=
  (b.u.tokenIdxs s).map (b.rows p)

namespace Dsv4Graph

open PlanArgs PlanArgs.Moves

variable {a : PlanArgs} {rsIdx start : Nat → Nat} {plan : CompPlan} {κ ρ : Type}
  {g : Dsv4Graph κ ρ} {p : Dsv4Part} {b : Micro ρ} {rows : Nat → Nat → ρ} {cache : Nat → Nat → κ}
  {s r d : Nat}

variable (h : b.u.Continues a.nStream start)

include h

theorem statePos_ne_nil (hs : s ∈ b.u.seqIdUnq) : a.statePos b.u ≠ [] := by
  obtain ⟨i, hi, hTok⟩ := (h.unq s).mp hs
  have hMem : (b.u.posAt i).toNat % a.ratio ∈ a.statePos b.u :=
    mem_map.mpr ⟨i, mem_filter.mpr ⟨mem_range.mpr hi,
      decide_eq_true (h.pos_nonneg hi hTok)⟩, rfl⟩
  exact ne_nil_of_mem hMem

omit h in
theorem tokenIdxs_eq_nil {u : SplitUbatch} {k : Nat} (h : u.Continues a.nStream start)
    (hk : k ∉ u.seqIdUnq) : u.tokenIdxs k = [] := by
  refine filter_eq_nil_iff.mpr fun i hi hTok => hk ((h.unq k).mpr ⟨i, ?_, ?_⟩)
  · exact mem_range.mp hi
  · exact of_decide_eq_true hTok

omit h in
/-- Above the ring there is no stream of a sequence. -/
theorem plane_not_seq {u : SplitUbatch} (h : u.Continues a.nStream start)
    (hd : 1 ≤ d) : d * a.nStream + s ∉ u.seqIdUnq := by
  intro hIn
  have hBelow := h.below _ hIn
  have hLe := Nat.le_mul_of_pos_left a.nStream hd
  omega

variable (hMoves : a.Moves rsIdx b.u plan)

include hMoves

/-- The ring of a sequence of the micro-batch is the plane that it continues from with its
rows pushed. -/
theorem execute_ring (hr : r < a.stateSize) (hs : s ∈ b.u.seqIdUnq) :
    (g.execute p a plan b rows cache).1 s r =
      pushRing a.stateSize (rows (a.restorePlane rsIdx s * a.nStream + s)) (start s)
        (b.tokenRows p s) r := by
  unfold execute
  rw [hMoves.statePos, if_neg (statePos_ne_nil h hs)]
  refine (persist_rows hMoves h hr).trans (pushRing_congr ?_ _ _)
  have hNot : s ∉ snapshotStreams a b.u := by
    have hMem := mem_snapshotStreams (d := 0) h (h.below s hs)
    rw [Nat.zero_mul, Nat.zero_add] at hMem
    exact fun hIn => absurd (hMem.mp hIn).1 (by decide)
  exact (snapshot_other hMoves h hr hNot).trans (restore_ring hMoves h hr hs)

/-- Snapshot `d` of a sequence of the micro-batch. -/
theorem execute_snapshot (hr : r < a.stateSize) (hs : s ∈ b.u.seqIdUnq) (hOne : 1 ≤ d)
    (hd : d ≤ a.nRsSeq) :
    (g.execute p a plan b rows cache).1 (d * a.nStream + s) r =
      if d ≤ (b.tokenRows p s).length then
        pushRing a.stateSize (rows (a.restorePlane rsIdx s * a.nStream + s)) (start s)
          ((b.tokenRows p s).take ((b.tokenRows p s).length - d)) r
      else rows ((d - (b.tokenRows p s).length) * a.nStream + s) r := by
  have hPlan : s ∈ a.planSeqs b.u := (mem_planSeqs h).mpr ⟨by omega, hs⟩
  unfold execute Micro.tokenRows
  rw [hMoves.statePos, if_neg (statePos_ne_nil h hs), length_map, ← map_take]
  refine (persist_rows hMoves h hr).trans ?_
  rw [tokenIdxs_eq_nil h (plane_not_seq h hOne)]
  refine (snapshot_rows hMoves h hr hPlan hOne hd).trans ?_
  split
  · exact pushRing_congr (restore_ring hMoves h hr hs) _ _
  · exact restore_plane hMoves h hr (plane_not_seq h (by omega))

theorem execute_other (hr : r < a.stateSize) (hIn : s < a.nStream) (hs : s ∉ b.u.seqIdUnq)
    (d : Nat) :
    (g.execute p a plan b rows cache).1 (d * a.nStream + s) r = rows (d * a.nStream + s) r := by
  have hNot : d * a.nStream + s ∉ b.u.seqIdUnq := by
    rcases Nat.eq_zero_or_pos d with rfl | hOne
    · rwa [Nat.zero_mul, Nat.zero_add]
    · exact plane_not_seq h hOne
  unfold execute
  split
  · rfl
  refine (persist_rows hMoves h hr).trans ?_
  rw [tokenIdxs_eq_nil h hNot]
  refine (snapshot_other hMoves h hr fun hMem => hs ?_).trans (restore_plane hMoves h hr hNot)
  exact ((mem_snapshotStreams h hIn).mp hMem).2.2

end Dsv4Graph

end Beellama.Ports
