import Beellama.Ports.BatchPartition

/-!
# Splitting keeps the order of each sequence

A call that passes over an unused token may hand out a later token of another sequence set.  When the
sets overlap, the sequences they share see the later one first.  The last check of `init` is meant to
rule such batches out, but the set it intersects is never empty.  `KeepsOrder` says which triples of
unused tokens make a method overtake.
-/

namespace Beellama.Ports

open List Finset

/-! ## What the last check of `init` establishes -/

variable {i j : Nat}

namespace FullBatch

variable {b : FullBatch}

variable {s : Nat} {c c' : SubsetCheck}

theorem checkSubset_pos (h : b.checkSubset i c s = .ok c') :
    c.curPos s ≤ b.pos i ∧ c'.curPos = Function.update c.curPos s (b.pos i) := by
  simp only [checkSubset] at h
  split at h
  · cases h
  split at h
  · cases h
  rename_i hPos
  cases h
  exact ⟨not_lt.mp hPos, rfl⟩

/-- One token passes when it is not before the last position of any of its
sequences, and becomes their last position. -/
theorem checkToken_pos (ss : List Nat) (h : ss.foldlM (b.checkSubset i) c = .ok c') :
    (∀ s ∈ ss, c.curPos s ≤ b.pos i) ∧
      ∀ s, c'.curPos s = if s ∈ ss then b.pos i else c.curPos s := by
  induction ss generalizing c with
  | nil =>
    cases h
    simp
  | cons r ss ih =>
    obtain ⟨c₁, hOne, hRest⟩ := BatchAllocr.ok_of_bind h
    obtain ⟨hLe, hCur⟩ := checkSubset_pos hOne
    obtain ⟨hAll, hPos⟩ := ih hRest
    rw [hCur] at hAll hPos
    constructor
    · intro s hs
      rcases mem_cons.mp hs with rfl | hs
      · exact hLe
      by_cases hSame : s = r
      · exact hSame ▸ hLe
      · have := hAll s hs
        rwa [Function.update_of_ne hSame] at this
    intro s
    rw [hPos s]
    by_cases hSame : s = r
    · subst hSame
      simp
    · simp [hSame]

theorem checkTokens_pos (is : List Nat)
    (h : is.foldlM (fun c i => (b.seqId i).foldlM (b.checkSubset i) c) c = .ok c') :
    (∀ i ∈ is, ∀ s ∈ b.seqId i, c.curPos s ≤ b.pos i) ∧
      is.Pairwise fun i j => ∀ s ∈ b.seqId i, s ∈ b.seqId j → b.pos i ≤ b.pos j := by
  induction is generalizing c with
  | nil => simp
  | cons i is ih =>
    obtain ⟨c₁, hOne, hRest⟩ := BatchAllocr.ok_of_bind h
    obtain ⟨hLe, hCur⟩ := checkToken_pos (b.seqId i) hOne
    obtain ⟨hAll, hPairs⟩ := ih hRest
    refine ⟨fun j hj s hs => ?_, pairwise_cons.mpr ⟨fun j hj s hi hs => ?_, hPairs⟩⟩
    · rcases mem_cons.mp hj with rfl | hj
      · exact hLe s hs
      have hNext := hAll j hj s hs
      rw [hCur s] at hNext
      split at hNext
      · rename_i hMem
        exact (hLe s hMem).trans hNext
      · exact hNext
    · have hNext := hAll j hj s hs
      rwa [hCur s, if_pos hi] at hNext

/-- The positions of a sequence do not decrease along an accepted batch. -/
theorem checkSubsets_pos (h : b.checkSubsets = .ok c)
    (hij : i < j) (hj : j < b.nTokens) (hi : s ∈ b.seqSet i) (hs : s ∈ b.seqSet j) :
    b.pos i ≤ b.pos j := by
  have hPairs := (checkTokens_pos b.indices h).2
  rw [indices, pairwise_iff_getElem] at hPairs
  have hPair := hPairs i j (by simp; omega) (by simpa using hj) hij
  rw [getElem_range, getElem_range] at hPair
  exact hPair s (mem_toFinset.mp hi) (mem_toFinset.mp hs)

end FullBatch

/-! ## One call -/

namespace BatchAllocr

/-- Two tokens share a sequence. -/
def Shared (b : FullBatch) (i j : Nat) : Prop := b.seqSet i ∩ b.seqSet j ≠ ∅

/-- No three unused tokens `t < j < k` make the method pass over `j` and hand
out `k` although they share a sequence.  A sequence-wise split passes over `j`
when its set is not within the one of `t`, an equal split when it overlaps the
one of `t`.  A state in which this holds is one that the next micro-batch cannot
bring out of order: `t` is the token that opens it, `k` a later one that it takes. -/
def KeepsOrder (a : BatchAllocr) : SplitMode → Prop
  | .simple => True
  | .seq => ∀ t j k, t < j → j < k → t ∈ a.unused → j ∈ a.unused → k ∈ a.unused →
      Shared a.batch j k → a.batch.seqSet k ⊆ a.batch.seqSet t →
      a.batch.seqSet j ⊆ a.batch.seqSet t
  | .equal _ _ => ∀ t j k, t < j → j < k → t ∈ a.unused → j ∈ a.unused → k ∈ a.unused →
      Shared a.batch t j → Shared a.batch j k →
      a.batch.seqSet k = a.batch.seqSet t ∨ ¬ Shared a.batch t k →
      a.batch.seqSet j = a.batch.seqSet k

/-- A call that hands out tokens in batch order, before the tokens it leaves
behind that share a sequence with them. -/
structure InOrder (a : BatchAllocr) (idxs : List Nat) : Prop where
  within : idxs.Pairwise fun i j => Shared a.batch i j → i < j
  before : ∀ k ∈ idxs, ∀ j ∈ a.unused, j ∉ idxs → Shared a.batch j k → k < j

variable {a : BatchAllocr}

theorem mem_unused : i ∈ a.unused ↔ i < a.batch.nTokens ∧ i ∉ a.used := by
  rw [unused, Finset.mem_sdiff, Finset.mem_range]

variable {u : SplitUbatch} {mode : SplitMode}

section Calls

variable {a : BatchAllocr} {nUbatch : Nat}

theorem inOrder_nil (a : BatchAllocr) : InOrder a [] :=
  ⟨List.Pairwise.nil, fun k hk => by cases hk⟩

theorem within_of_sorted {l : List Nat} (h : l.Pairwise (· < ·)) :
    l.Pairwise fun i j => Shared a.batch i j → i < j := by
  refine h.imp ?_
  intro i j hLt _
  exact hLt

theorem splitSimple_inOrder (hFront : FrontUsed a) (nUbatch : Nat) :
    InOrder a (a.splitSimple nUbatch).1.idxs := by
  have hEmits := splitSimple_emits hFront nUbatch
  have hAfter := splitSimple_front hFront nUbatch
  constructor
  · cases hFirst : a.firstUnused with
    | none =>
      simp only [splitSimple, hFirst]
      exact List.Pairwise.nil
    | some cur =>
      rw [splitSimple_some hFirst]
      exact within_of_sorted pairwise_lt_range'
  intro k hk j hj hNot hShared
  have hkUsed : k ∈ (a.splitSimple nUbatch).2.used := by
    rw [hEmits.used, mem_union, mem_toFinset]
    exact Or.inr hk
  rcases Nat.lt_trichotomy j k with hLt | rfl | hGt
  · have hjUsed := hAfter j k hLt hkUsed
    rw [hEmits.used, mem_union, mem_toFinset] at hjUsed
    exact absurd hjUsed (not_or.mpr ⟨(mem_unused.mp hj).2, hNot⟩)
  · exact absurd hk hNot
  · exact hGt

/-! ## Sequence-wise splits -/

theorem seqLoop_subset (a : BatchAllocr) (nUbatch : Nat) (is : List Nat) (curSet : Finset Nat)
    (count : Nat) : ∀ k ∈ a.seqLoop nUbatch is curSet count, a.batch.seqSet k ⊆ curSet := by
  induction is generalizing curSet count with
  | nil => simp [seqLoop]
  | cons i is ih =>
    intro k hk
    simp only [seqLoop] at hk
    split at hk
    · cases hk
    split at hk
    · exact ih curSet count k hk
    rename_i hTake
    rw [not_or, not_not] at hTake
    rcases mem_cons.mp hk with rfl | hk
    · exact hTake.2
    · exact (ih (a.batch.seqSet i) (count + 1) k hk).trans hTake.2

variable {k : Nat}

/-- A token that the loop passes over is not within the set the loop is at. -/
theorem seqLoop_passed (a : BatchAllocr) (nUbatch : Nat) {is : List Nat} {curSet : Finset Nat}
    {count : Nat} (hSorted : is.Pairwise (· < ·)) (hj : j ∈ is) (hFree : j ∉ a.used)
    (hjk : j < k) (hk : k ∈ a.seqLoop nUbatch is curSet count)
    (hNot : j ∉ a.seqLoop nUbatch is curSet count) :
    (a.batch.seqSet k ⊆ curSet ∧ ¬ a.batch.seqSet j ⊆ curSet) ∨
      ∃ t ∈ is, t < j ∧ t ∉ a.used ∧ a.batch.seqSet k ⊆ a.batch.seqSet t ∧
        ¬ a.batch.seqSet j ⊆ a.batch.seqSet t := by
  induction is generalizing curSet count with
  | nil => cases hj
  | cons i is ih =>
    obtain ⟨hHead, hSorted⟩ := pairwise_cons.mp hSorted
    have hSub := a.seqLoop_subset nUbatch (i :: is) curSet count k hk
    simp only [seqLoop] at hk hNot
    split at hk
    · cases hk
    rename_i hCount
    rw [if_neg hCount] at hNot
    split at hk
    · rename_i hSkip
      rw [if_pos hSkip] at hNot
      rcases mem_cons.mp hj with rfl | hj
      · exact Or.inl ⟨hSub, hSkip.resolve_left hFree⟩
      rcases ih hSorted hj hk hNot with hHere | ⟨t, ht, hRest⟩
      · exact Or.inl hHere
      · exact Or.inr ⟨t, mem_cons_of_mem i ht, hRest⟩
    rename_i hTake
    rw [if_neg hTake, List.mem_cons, not_or] at hNot
    rw [not_or] at hTake
    have hj := (mem_cons.mp hj).resolve_left hNot.1
    have hij := hHead j hj
    have hk := (mem_cons.mp hk).resolve_left (by omega)
    rcases ih hSorted hj hk hNot.2 with hHere | ⟨t, ht, hRest⟩
    · exact Or.inr ⟨i, mem_cons_self, hij, hTake.1, hHere⟩
    · exact Or.inr ⟨t, mem_cons_of_mem i ht, hRest⟩

theorem splitSeq_inOrder (hKeeps : KeepsOrder a .seq) (nUbatch : Nat) :
    InOrder a (a.splitSeq nUbatch).1.idxs := by
  cases hFirst : a.firstUnused with
  | none =>
    simp only [splitSeq, hFirst]
    exact inOrder_nil a
  | some cur =>
    obtain ⟨hLt, hUnused, hBelow⟩ := firstUnused_some hFirst
    obtain ⟨hSub, hFree, -⟩ := a.seqLoop_mem nUbatch
      (range' (cur + 1) (a.batch.nTokens - (cur + 1))) (a.batch.seqSet cur) 1
    simp only [splitSeq, hFirst, ubatchAdd_idxs]
    have hLater : ∀ i ∈ a.seqLoop nUbatch (range' (cur + 1) (a.batch.nTokens - (cur + 1)))
        (a.batch.seqSet cur) 1, cur < i ∧ i < a.batch.nTokens := by
      intro i hi
      have hRange := hSub.subset hi
      rw [mem_range'_1] at hRange
      omega
    refine ⟨pairwise_cons.mpr ⟨fun i hi _ => (hLater i hi).1, ?_⟩, ?_⟩
    · exact within_of_sorted (List.Pairwise.sublist hSub pairwise_lt_range')
    intro k hk j hj hNot hShared
    obtain ⟨hjLt, hjFree⟩ := mem_unused.mp hj
    rw [List.mem_cons, not_or] at hNot
    have hjCur : cur < j := by
      by_contra hGe
      exact hjFree (hBelow j (by omega))
    rcases mem_cons.mp hk with rfl | hk
    · exact hjCur
    by_contra hGe
    have hjk : j < k := by
      have : j ≠ k := fun hEq => hNot.2 (hEq ▸ hk)
      omega
    have hkUnused := mem_unused.mpr ⟨(hLater k hk).2, hFree k hk⟩
    have hjRange : j ∈ range' (cur + 1) (a.batch.nTokens - (cur + 1)) := by
      rw [mem_range'_1]
      omega
    rcases a.seqLoop_passed nUbatch pairwise_lt_range' hjRange hjFree hjk hk hNot.2 with
      ⟨hkSub, hjSub⟩ | ⟨t, ht, htj, htFree, hkSub, hjSub⟩
    · exact hjSub (hKeeps cur j k hjCur hjk (mem_unused.mpr ⟨hLt, hUnused⟩) hj hkUnused
        hShared hkSub)
    · have htUnused := mem_unused.mpr ⟨lt_trans htj hjLt, htFree⟩
      exact hjSub (hKeeps t j k htj hjk htUnused hj hkUnused hShared hkSub)

/-! ## Equal splits -/

variable {sets : List (Finset Nat)}

theorem blocks_within (hUsed : SetsUsed a) (m : Nat)
    (hApart : sets.Pairwise fun S T => S ∩ T = ∅) :
    (a.blocks sets m).Pairwise fun i j => Shared a.batch i j → i < j := by
  have hSet : ∀ S, ∀ i ∈ (a.remaining S).take m, a.batch.seqSet i = S := fun S i hi =>
    ((mem_remaining hUsed).mp (mem_of_mem_take hi)).2.1
  induction sets with
  | nil => exact List.Pairwise.nil
  | cons S sets ih =>
    obtain ⟨hFirst, hRest⟩ := pairwise_cons.mp hApart
    refine pairwise_append.mpr ⟨?_, ih hRest, fun i hi j hj hShared => ?_⟩
    · exact within_of_sorted ((a.remaining_sorted S).sublist (take_sublist m _))
    obtain ⟨T, hT, hj⟩ := mem_flatMap.mp hj
    refine absurd (hFirst T hT) ?_
    rw [← hSet S i hi, ← hSet T j hj]
    exact hShared

variable {sequential : Bool}

/-- A token before an admitted one that overlaps it was passed over by the scan,
which has a reason to do so before it. -/
theorem Scanned.reason {bound : Nat} {toks : List Nat}
    (h : Scanned a sequential bound toks) (hk : k ∈ toks) (hjk : j < k)
    (hFree : j ∉ a.used) (hShared : Shared a.batch j k) :
    (∃ t ∈ toks, t < j ∧ Shared a.batch t j ∧ ¬ Shared a.batch t k) ∨ sequential = true := by
  have hApart : ∀ {s t : Nat}, s ∈ toks → t ∈ toks → s < t → ¬ Shared a.batch s t := by
    intro s t hs ht hst hOver
    have hPairs := h.sorted.and h.apart
    rcases pairwise_iff_getElem.mp hPairs with hGet
    obtain ⟨m, hm, rfl⟩ := mem_iff_getElem.mp hs
    obtain ⟨n, hn, rfl⟩ := mem_iff_getElem.mp ht
    rcases Nat.lt_trichotomy m n with hmn | rfl | hnm
    · exact hOver (hGet m n hm hn hmn).2
    · exact absurd hst (Nat.lt_irrefl _)
    · exact absurd hst (Nat.not_lt_of_lt (hGet n m hn hm hnm).1)
  rcases h.passed j (lt_trans hjk (h.unused k hk).1) hFree with hIn | ⟨t, ht, htj, hOver⟩ | hSeq
  · exact absurd hShared (hApart hIn hk hjk)
  · exact Or.inl ⟨t, ht, htj, hOver, hApart ht hk (lt_trans htj hjk)⟩
  · exact Or.inr hSeq.1

theorem seqSet_eq_of_shared (hOwned : Owned a) (hCpl : a.batch.hasCpl = false)
    (hi : i < a.batch.nTokens) (hj : j < a.batch.nTokens) (hShared : Shared a.batch i j) :
    a.batch.seqSet i = a.batch.seqSet j := by
  have hCard : ∀ n < a.batch.nTokens, (a.batch.seqSet n).card = 1 := by
    intro n hn
    have hOne : ¬ 1 < (a.batch.seqId n).length := by
      intro hMany
      have hAny : a.batch.hasCpl = true :=
        List.any_eq_true.mpr ⟨n, List.mem_range.mpr hn, by simpa using hMany⟩
      rw [hCpl] at hAny
      cases hAny
    have hLe := toFinset_card_le (a.batch.seqId n)
    have hPos := card_pos.mpr (hOwned n hn)
    change (a.batch.seqId n).toFinset.card = 1
    change 0 < (a.batch.seqId n).toFinset.card at hPos
    omega
  obtain ⟨s, hs⟩ := card_eq_one.mp (hCard i hi)
  obtain ⟨r, hr⟩ := card_eq_one.mp (hCard j hj)
  rw [Shared, hs, hr] at hShared
  rw [hs, hr]
  by_contra hNe
  exact hShared (singleton_inter_of_notMem (by simpa using hNe))

theorem EqualCall.inOrder {nKeepTail m : Nat}
    (h : EqualCall a nUbatch sequential nKeepTail sets m) (hUsed : SetsUsed a) (hOwned : Owned a)
    (hCpl : (sequential && a.batch.hasCpl) = false)
    (hKeeps : KeepsOrder a (.equal sequential nKeepTail)) : InOrder a (a.blocks sets m) := by
  refine ⟨blocks_within hUsed m ((curSeqSets_apart sequential).sublist h.admitted.sublist), ?_⟩
  intro k hk j hj hNot hShared
  by_contra hGe
  have hjk : j < k := by
    have : j ≠ k := fun hEq => hNot (hEq ▸ hk)
    omega
  obtain ⟨S, hS, hkTake⟩ := mem_flatMap.mp hk
  obtain ⟨hkLt, hkSet, hkFree⟩ := (mem_remaining hUsed).mp (mem_of_mem_take hkTake)
  obtain ⟨hjLt, hjFree⟩ := mem_unused.mp hj
  have hkUnused := mem_unused.mpr ⟨hkLt, hkFree⟩
  -- a token of the same set would have been handed out first
  have hOther : a.batch.seqSet j ≠ a.batch.seqSet k := by
    intro hSame
    have hjRest := (mem_remaining hUsed).mpr ⟨hjLt, hSame.trans hkSet, hjFree⟩
    exact hNot (mem_flatMap.mpr
      ⟨S, hS, mem_take_of_lt (a.remaining_sorted S) hkTake hjRest hjk⟩)
  obtain ⟨toks, bound, hEq, hBound, hScan, -⟩ := a.curSeqSets_spec nUbatch sequential
  have hAdmitted := h.admitted.subset hS
  rw [hEq] at hAdmitted
  obtain ⟨t₀, ht₀, ht₀Set⟩ := mem_map.mp hAdmitted
  have hUnused : ∀ t ∈ toks, t ∈ a.unused := fun t ht =>
    mem_unused.mpr ⟨lt_of_lt_of_le (hScan.unused t ht).1 hBound, (hScan.unused t ht).2⟩
  have hSame : a.batch.seqSet k = a.batch.seqSet t₀ := hkSet.trans ht₀Set.symm
  rcases Nat.lt_trichotomy t₀ j with hLt | rfl | hGt
  · have hOver : Shared a.batch t₀ j := by
      rw [Shared, ← hSame, inter_comm]
      exact hShared
    exact hOther (hKeeps t₀ j k hLt hjk (hUnused t₀ ht₀) hj hkUnused hOver hShared (Or.inl hSame))
  · exact hOther hSame.symm
  have hOver : Shared a.batch j t₀ := by
    rw [Shared, ← hSame]
    exact hShared
  rcases hScan.reason ht₀ hGt hjFree hOver with ⟨t, ht, htj, htOver, htApart⟩ | hSeq
  · refine hOther (hKeeps t j k htj hjk (hUnused t ht) hj hkUnused htOver hShared (Or.inr ?_))
    rw [Shared, hSame]
    exact htApart
  · rw [hSeq] at hCpl
    exact hOther (seqSet_eq_of_shared hOwned hCpl hjLt hkLt hShared)

theorem Call.inOrder {a₁ : BatchAllocr}
    (h : Call a nUbatch mode u a₁) (hOk : ModeOk a.batch nUbatch mode) (hInv : ModeInv a mode)
    (hKeeps : KeepsOrder a mode) : InOrder a u.idxs := by
  have hResult := h.result
  cases mode with
  | simple =>
    have hFirst : (a.splitSimple nUbatch).1 = u := congrArg Prod.fst (Except.ok.inj hResult)
    exact hFirst ▸ splitSimple_inOrder hInv nUbatch
  | seq =>
    have hFirst : (a.splitSeq nUbatch).1 = u := congrArg Prod.fst (Except.ok.inj hResult)
    exact hFirst ▸ splitSeq_inOrder hKeeps nUbatch
  | equal sequential nKeepTail =>
    have hCpl := hOk.uncoupled
    by_cases hNone : a.curSeqSets nUbatch sequential = []
    · rw [h.empty.mpr ((curSeqSets_eq_nil sequential).mp hNone)]
      exact inOrder_nil a
    obtain ⟨sets, m, hEqual, -⟩ := splitEqual_spec hInv.1 hInv.2 hCpl hOk.1 hNone
    rw [split, hEqual.result] at hResult
    cases hResult
    exact hEqual.inOrder hInv.1 hInv.2 hCpl hKeeps

end Calls

/-! ## A whole run -/

/-- No call of a run meets three tokens that make it overtake. -/
def RunKeepsOrder (a : BatchAllocr) (nUbatch : Nat) (mode : SplitMode) : Prop :=
  ∀ a', Reached mode nUbatch a a' → KeepsOrder a' mode

theorem keepTails_batch (a : BatchAllocr) (nUbatch nKeepTail : Nat) (cs : List SetCursor) :
    (a.keepTails nUbatch nKeepTail cs).1.batch = a.batch := by
  unfold keepTails
  dsimp only
  split
  · simp only [resolveFirst]
    split
    · rfl
    · rfl
  · rfl

variable {a' : BatchAllocr}

theorem split_batch {nUbatch : Nat} (h : a.split nUbatch mode = .ok (u, a')) :
    a'.batch = a.batch := by
  cases mode with
  | simple =>
    have hSecond : (a.splitSimple nUbatch).2 = a' := congrArg Prod.snd (Except.ok.inj h)
    rw [← hSecond, splitSimple]
    split
    · rfl
    · rfl
  | seq =>
    have hSecond : (a.splitSeq nUbatch).2 = a' := congrArg Prod.snd (Except.ok.inj h)
    rw [← hSecond, splitSeq]
    split
    · rfl
    · rfl
  | equal sequential nKeepTail =>
    simp only [split, splitEqual] at h
    split at h
    · cases h
      rfl
    split at h
    · cases h
      rfl
    split at h
    · cases h
      rfl
    split at h
    · cases h
    · cases h
      exact keepTails_batch _ _ _ _

/-- No three tokens of the batch make the method overtake, so no call does. -/
theorem KeepsOrder.run (h : KeepsOrder a mode)
    (hUsed : a.used = ∅) (nUbatch : Nat) : RunKeepsOrder a nUbatch mode := by
  have hFrom : ∀ {b b' : BatchAllocr}, Reached mode nUbatch b b' → b'.batch = b.batch := by
    intro b b' hReached
    induction hReached with
    | start => rfl
    | call hSplit _ _ ih => exact ih.trans (split_batch hSplit)
  intro a' hReached
  have hBatch := hFrom hReached
  have hUnused : ∀ i ∈ a'.unused, i ∈ a.unused := by
    intro i hi
    rw [mem_unused, hBatch] at hi
    exact mem_unused.mpr ⟨hi.1, by simp [hUsed]⟩
  cases mode with
  | simple => trivial
  | seq =>
    intro t j k htj hjk ht hj hk
    rw [hBatch]
    exact h t j k htj hjk (hUnused t ht) (hUnused j hj) (hUnused k hk)
  | equal sequential nKeepTail =>
    intro t j k htj hjk ht hj hk
    rw [hBatch]
    exact h t j k htj hjk (hUnused t ht) (hUnused j hj) (hUnused k hk)

/-- Every sequence comes out in batch order and with positions that do not
decrease. -/
def OrderKept (b : FullBatch) (us : List SplitUbatch) : Prop :=
  ∀ s, ((emitted us).filter fun i => s ∈ b.seqSet i).Pairwise fun i j => i < j ∧ b.pos i ≤ b.pos j

variable {us : List SplitUbatch}

section Runs

variable {a : BatchAllocr} {nUbatch : Nat} {mode : SplitMode}

theorem splitAll_within {fuel : Nat} (hn : 1 ≤ nUbatch) (hOk : ModeOk a.batch nUbatch mode)
    (hInv : ModeInv a mode) (hFuel : a.unused.card < fuel) (hKeeps : RunKeepsOrder a nUbatch mode)
    (hRun : splitAll mode nUbatch fuel a = some (us, a')) :
    (emitted us).Pairwise fun i j => Shared a.batch i j → i < j := by
  induction fuel generalizing a us with
  | zero => exact absurd hFuel (Nat.not_lt_zero _)
  | succ fuel ih =>
    obtain ⟨u, a₁, hCall⟩ := call_any hn hOk hInv
    have hOrder := hCall.inOrder hOk hInv (hKeeps a (.start a))
    by_cases hNil : u.idxs = []
    · have hZero : u.nTokens = 0 := by rw [hCall.count, hNil, length_nil]
      simp only [splitAll, hCall.result, hZero] at hRun
      cases hRun
      exact List.Pairwise.nil
    have hLess := hCall.unused_card_lt hNil
    have hSome : u.nTokens ≠ 0 := by
      rw [hCall.count]
      exact fun hZero => hNil (length_eq_zero_iff.mp hZero)
    obtain ⟨us₁, a₂, hRun₁, hHanded⟩ := splitAll_handed hn (hCall.batch ▸ hOk) hCall.inv
      (show a₁.unused.card < fuel by omega)
    simp only [splitAll, hCall.result, hSome, hRun₁] at hRun
    cases hRun
    have hTail := ih (hCall.batch ▸ hOk) hCall.inv (by omega)
      (fun a' hReached => hKeeps a' (.call hCall.result hSome hReached)) hRun₁
    rw [hCall.batch] at hTail
    refine pairwise_append.mpr ⟨hOrder.within, hTail, fun i hi j hj hShared => ?_⟩
    have hLater := (hHanded.mem j).mp hj
    rw [hCall.unused, mem_sdiff, mem_toFinset] at hLater
    refine hOrder.before i hi j hLater.1 hLater.2 ?_
    rw [Shared, inter_comm]
    exact hShared

end Runs

section Accepted

variable {inp : LlamaBatch} {nVocab nPosPerEmbd nSeqMax : Nat} {memory : Option BatchMemory}
  {outputAll : Bool} {a : BatchAllocr}

/-- What `split_equal` asserts of its arguments. -/
def TailOk (nUbatch : Nat) : SplitMode → Prop
  | .equal _ nKeepTail => nKeepTail ≠ 0 → nKeepTail < nUbatch
  | .simple => True
  | .seq => True

theorem orderKept_of_within {c : FullBatch.SubsetCheck} (hCheck : a.batch.checkSubsets = .ok c)
    (hLt : ∀ i ∈ emitted us, i < a.batch.nTokens)
    (hWithin : (emitted us).Pairwise fun i j => Shared a.batch i j → i < j) :
    OrderKept a.batch us := by
  intro s
  refine (hWithin.sublist filter_sublist).imp_of_mem ?_
  intro i j hi hj hBefore
  obtain ⟨-, hiIn⟩ := mem_filter.mp hi
  obtain ⟨hjEmitted, hjIn⟩ := mem_filter.mp hj
  have hiIn : s ∈ a.batch.seqSet i := by simpa using hiIn
  have hjIn : s ∈ a.batch.seqSet j := by simpa using hjIn
  have hij := hBefore (ne_empty_of_mem (mem_inter.mpr ⟨hiIn, hjIn⟩))
  exact ⟨hij, FullBatch.checkSubsets_pos hCheck hij (hLt j hjEmitted) hiIn hjIn⟩

/-- A run from an accepted batch in which no call meets three tokens that make
it overtake keeps the order of every sequence. -/
theorem splitAll_orderKept
    (hInit : init inp nVocab memory nPosPerEmbd nSeqMax outputAll = .ok a) {nUbatch : Nat}
    (hn : 1 ≤ nUbatch) {mode : SplitMode} (hTail : TailOk nUbatch mode)
    (hKeeps : RunKeepsOrder a nUbatch mode) :
    ∃ us a', splitAll mode nUbatch (a.batch.nTokens + 1) a = some (us, a') ∧
      OrderKept a.batch us := by
  by_cases hOk : ModeOk a.batch nUbatch mode
  · have hFuel : a.unused.card < a.batch.nTokens + 1 := by
      have hLe := card_le_card (show a.unused ⊆ range a.batch.nTokens from
        sdiff_subset)
      rw [card_range] at hLe
      omega
    obtain ⟨us, a', hRun, hHanded⟩ := splitAll_handed hn hOk (init_modeInv hInit mode) hFuel
    obtain ⟨-, c, hCheck⟩ := init_ok hInit
    refine ⟨us, a', hRun, orderKept_of_within hCheck ?_
      (splitAll_within hn hOk (init_modeInv hInit mode) hFuel hKeeps hRun)⟩
    exact fun i hi => (mem_unused.mp ((hHanded.mem i).mp hi)).1
  cases mode with
  | simple => exact absurd trivial hOk
  | seq => exact absurd trivial hOk
  | equal sequential nKeepTail =>
    have hBad : ¬ (sequential = true → a.batch.hasCpl = false) := fun h => hOk ⟨hTail, h⟩
    simp only [Classical.not_imp] at hBad
    refine ⟨[], a, ?_, fun s => List.Pairwise.nil⟩
    simp [splitAll, split, splitEqual, hBad.1, hBad.2, SplitUbatch.none]

/-- Sequences 0 and 1 share the tokens 0 and 3 and have one token each between
them. -/
def sharedAround : LlamaBatch where
  nTokens := 4
  pos := some fun i => if i = 0 then 0 else if i = 3 then 2 else 1
  seqId := some fun i => if i = 1 then [1] else if i = 2 then [0] else [0, 1]
  owned f hf i _ := by
    cases hf
    dsimp only
    split
    · simp
    split
    · simp
    · simp

/-- `init` accepts `sharedAround` and an equal split hands out token 3 before the
tokens 1 and 2. -/
theorem sharedAround_overtakes : ∃ a us a', init sharedAround 1 none 1 2 false = .ok a ∧
    splitAll (.equal false 0) 4 5 a = some (us, a') ∧ emitted us = [0, 3, 1, 2] ∧
      ¬ OrderKept a.batch us := by
  refine ⟨_, _, _, rfl, rfl, rfl, fun h => ?_⟩
  have hOne := h 1
  exact absurd hOne (by decide)

/-- Three tokens of both sequences, and then one of each. -/
def sharedStart : LlamaBatch where
  nTokens := 5
  pos := some fun i => if i = 4 then 3 else (i : Int)
  seqId := some fun i => if i = 3 then [0] else if i = 4 then [1] else [0, 1]
  owned f hf i _ := by
    cases hf
    dsimp only
    split
    · simp
    split
    · simp
    · simp

set_option synthInstance.maxSize 1000 in
/-- The shared tokens come out before the others, in three micro-batches of at most two. -/
theorem sharedStart_orderKept : ∃ a us a', init sharedStart 1 none 1 2 false = .ok a ∧
    RunKeepsOrder a 2 (.equal false 0) ∧ splitAll (.equal false 0) 2 6 a = some (us, a') ∧
    us.map (fun u => u.idxs) = [[0, 1], [2], [3, 4]] ∧ OrderKept a.batch us := by
  have hInit : init sharedStart 1 none 1 2 false =
      .ok { batch := sharedStart.fill none 1 2 false } := rfl
  have hTail : TailOk 2 (.equal false 0) := fun h => absurd rfl h
  have hTriples : KeepsOrder { batch := sharedStart.fill none 1 2 false } (.equal false 0) := by
    have hAll : ∀ k < 5, ∀ j < k, ∀ t < j, Shared (sharedStart.fill none 1 2 false) t j →
        Shared (sharedStart.fill none 1 2 false) j k →
        (sharedStart.fill none 1 2 false).seqSet k = (sharedStart.fill none 1 2 false).seqSet t ∨
          ¬ Shared (sharedStart.fill none 1 2 false) t k →
        (sharedStart.fill none 1 2 false).seqSet j = (sharedStart.fill none 1 2 false).seqSet k := by
      unfold Shared
      decide +kernel
    exact fun t j k htj hjk _ _ hk => hAll k (mem_unused.mp hk).1 j hjk t htj
  have hKeeps := hTriples.run rfl 2
  obtain ⟨us, a', hRun, hOrder⟩ := splitAll_orderKept hInit (by decide) hTail hKeeps
  have hCalls : (splitAll (.equal false 0) 2 6 { batch := sharedStart.fill none 1 2 false }).map
      (fun r => r.1.map fun u => u.idxs) = some [[0, 1], [2], [3, 4]] := by decide +kernel
  refine ⟨_, us, a', hInit, hKeeps, hRun, ?_, hOrder⟩
  have hHere := hRun ▸ hCalls
  exact Option.some.inj hHere

end Accepted

end BatchAllocr

end Beellama.Ports
