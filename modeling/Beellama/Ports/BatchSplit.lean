import Beellama.Ports.BatchAllocr

/-!
# Splitting a batch is a partition

Each split method hands out tokens that were unused, marks them and counts them.  The micro-batch of
an equal split is made of blocks, one per sequence set; its scan stops when it has admitted more than
`n_ubatch` sets, one set too late.
-/

namespace Beellama.Ports

open List Finset

namespace BatchAllocr

/-! ## Marking -/

variable {a' : BatchAllocr}

section Marking

variable (a : BatchAllocr) (idxs : List Nat) (nSeqs : Nat) (equalSeqs : Bool)

@[simp] theorem mark_used : (a.mark idxs).used = a.used ∪ idxs.toFinset := rfl
@[simp] theorem mark_nUsed : (a.mark idxs).nUsed = a.nUsed + idxs.length := rfl
@[simp] theorem ubatchAdd_idxs : (a.ubatchAdd idxs nSeqs equalSeqs).1.idxs = idxs := rfl

/-- Marking more tokens and handing them back again. -/
theorem unmark_eq_mark {a : BatchAllocr} {kept back : List Nat} (hBatch : a'.batch = a.batch)
    (hOut : a'.outIds = a.outIds) (hMarked : ∀ i, i ∈ a'.used ↔ i ∈ a.used ∨ i ∈ kept ∨ i ∈ back)
    (hCount : a'.nUsed = a.nUsed + kept.length + back.length) (hUsed : ∀ i ∈ back, i ∉ a.used)
    (hKept : ∀ i ∈ back, i ∉ kept) : a'.unmark back = a.mark kept := by
  have hSet : a'.used \ back.toFinset = a.used ∪ kept.toFinset := by
    ext i
    rw [mem_sdiff, hMarked, mem_union, mem_toFinset, mem_toFinset]
    constructor
    · rintro ⟨hIn | hIn | hIn, hNot⟩
      · exact Or.inl hIn
      · exact Or.inr hIn
      · exact absurd hIn hNot
    rintro (hIn | hIn)
    · exact ⟨Or.inl hIn, fun hBack => hUsed i hBack hIn⟩
    · exact ⟨Or.inr (Or.inl hIn), fun hBack => hKept i hBack hIn⟩
  have hLeft : a'.nUsed - back.length = a.nUsed + kept.length := by omega
  simp only [mark, unmark, hSet, hLeft, hBatch, hOut]

end Marking

/-! ## What a call hands out -/

/-- A call that hands out unused tokens, each once, and accounts for them. -/
structure Emits (a : BatchAllocr) (u : SplitUbatch) (a' : BatchAllocr) : Prop where
  batch : a'.batch = a.batch
  fresh : ∀ i ∈ u.idxs, i < a.batch.nTokens ∧ i ∉ a.used
  nodup : u.idxs.Nodup
  count : u.nTokens = u.idxs.length
  used : a'.used = a.used ∪ u.idxs.toFinset
  nUsed : a'.nUsed = a.nUsed + u.idxs.length
  outIds : a'.outIds = a.outIds ++ u.idxs.filter a.batch.logits

theorem emits_nothing (a : BatchAllocr) : Emits a .none a where
  batch := rfl
  fresh i hi := by cases hi
  nodup := nodup_nil
  count := rfl
  used := by simp [SplitUbatch.none]
  nUsed := rfl
  outIds := by simp [SplitUbatch.none]

theorem emits_add {a : BatchAllocr} {idxs : List Nat} (nSeqs : Nat) (equalSeqs : Bool)
    (hFresh : ∀ i ∈ idxs, i < a.batch.nTokens ∧ i ∉ a.used) (hNodup : idxs.Nodup) :
    Emits a ((a.mark idxs).ubatchAdd idxs nSeqs equalSeqs).1
      ((a.mark idxs).ubatchAdd idxs nSeqs equalSeqs).2 where
  batch := rfl
  fresh := hFresh
  nodup := hNodup
  count := rfl
  used := rfl
  nUsed := rfl
  outIds := rfl

variable {cur : Nat}

theorem firstUnused_some {a : BatchAllocr} (h : a.firstUnused = some cur) :
    cur < a.batch.nTokens ∧ cur ∉ a.used ∧ ∀ i < cur, i ∈ a.used := by
  unfold firstUnused FullBatch.indices at h
  rw [find?_range_eq_some] at h
  have h : cur ∉ a.used ∧ cur < a.batch.nTokens ∧ ∀ i < cur, i ∈ a.used := by simpa using h
  exact ⟨h.2.1, h.1, h.2.2⟩

theorem firstUnused_none {a : BatchAllocr} (h : a.firstUnused = none) :
    ∀ i < a.batch.nTokens, i ∈ a.used := by
  unfold firstUnused FullBatch.indices at h
  rw [find?_range_eq_none] at h
  simpa using h

/-! ## Simple splits -/

/-- Simple splits use the tokens from the front. -/
def FrontUsed (a : BatchAllocr) : Prop := ∀ i j, i < j → j ∈ a.used → i ∈ a.used

variable {nUbatch : Nat}

theorem splitSimple_some {a : BatchAllocr} (h : a.firstUnused = some cur) :
    a.splitSimple nUbatch =
      (a.mark (range' cur (min (max nUbatch 1) (a.batch.nTokens - cur)))).ubatchAdd
        (range' cur (min (max nUbatch 1) (a.batch.nTokens - cur)))
        (min (max nUbatch 1) (a.batch.nTokens - cur)) false := by
  have hTake : (range' cur (a.batch.nTokens - cur)).take (max nUbatch 1) =
      range' cur (min (max nUbatch 1) (a.batch.nTokens - cur)) := by
    rcases Nat.le_total (max nUbatch 1) (a.batch.nTokens - cur) with hLe | hLe
    · rw [take_range'_of_length_ge hLe, Nat.min_eq_left hLe]
    · rw [take_range'_of_length_le hLe, Nat.min_eq_right hLe]
  simp only [splitSimple, h, hTake, length_range']

theorem splitSimple_emits {a : BatchAllocr} (hFront : FrontUsed a) (nUbatch : Nat) :
    Emits a (a.splitSimple nUbatch).1 (a.splitSimple nUbatch).2 := by
  cases hFirst : a.firstUnused with
  | none =>
    simp only [splitSimple, hFirst]
    exact emits_nothing a
  | some cur =>
    obtain ⟨-, hUnused, -⟩ := firstUnused_some hFirst
    rw [splitSimple_some hFirst]
    refine emits_add _ _ ?_ nodup_range'
    intro i hi
    rw [mem_range'_1] at hi
    refine ⟨by omega, fun hIn => hUnused ?_⟩
    rcases Nat.eq_or_lt_of_le hi.1 with rfl | hLt
    · exact hIn
    · exact hFront cur i hLt hIn

theorem splitSimple_front {a : BatchAllocr} (hFront : FrontUsed a) (nUbatch : Nat) :
    FrontUsed (a.splitSimple nUbatch).2 := by
  cases hFirst : a.firstUnused with
  | none =>
    simp only [splitSimple, hFirst]
    exact hFront
  | some cur =>
    obtain ⟨-, -, hBelow⟩ := firstUnused_some hFirst
    intro i j hij hj
    rw [(splitSimple_emits hFront nUbatch).used, splitSimple_some hFirst, ubatchAdd_idxs,
      mem_union, mem_toFinset, mem_range'_1] at hj ⊢
    rcases hj with hOld | hNew
    · exact Or.inl (hFront i j hij hOld)
    by_cases hi : i < cur
    · exact Or.inl (hBelow i hi)
    · exact Or.inr (by omega)

/-! ## Sequence-wise splits -/

theorem seqLoop_mem (a : BatchAllocr) (nUbatch : Nat) (is : List Nat) (curSet : Finset Nat)
    (count : Nat) :
    (a.seqLoop nUbatch is curSet count).Sublist is ∧
      (∀ i ∈ a.seqLoop nUbatch is curSet count, i ∉ a.used) ∧
      count + (a.seqLoop nUbatch is curSet count).length ≤ max count nUbatch := by
  induction is generalizing curSet count with
  | nil => simp [seqLoop]
  | cons i is ih =>
    simp only [seqLoop]
    split
    · refine ⟨nil_sublist _, by simp, by simp⟩
    rename_i hCount
    split
    · obtain ⟨hSub, hFree, hLen⟩ := ih curSet count
      exact ⟨hSub.cons i, hFree, hLen⟩
    rename_i hTake
    rw [not_or] at hTake
    obtain ⟨hSub, hFree, hLen⟩ := ih (a.batch.seqSet i) (count + 1)
    refine ⟨hSub.cons_cons i, ?_, ?_⟩
    · intro j hj
      rcases mem_cons.mp hj with rfl | hj
      · exact hTake.1
      · exact hFree j hj
    · rw [length_cons]
      omega

theorem splitSeq_emits (a : BatchAllocr) (nUbatch : Nat) :
    Emits a (a.splitSeq nUbatch).1 (a.splitSeq nUbatch).2 := by
  cases hFirst : a.firstUnused with
  | none =>
    simp only [splitSeq, hFirst]
    exact emits_nothing a
  | some cur =>
    obtain ⟨hLt, hUnused, -⟩ := firstUnused_some hFirst
    obtain ⟨hSub, hFree, -⟩ := a.seqLoop_mem nUbatch
      (range' (cur + 1) (a.batch.nTokens - (cur + 1))) (a.batch.seqSet cur) 1
    simp only [splitSeq, hFirst]
    refine emits_add _ _ ?_ ?_
    · intro i hi
      rcases mem_cons.mp hi with rfl | hi
      · exact ⟨hLt, hUnused⟩
      have hRange := hSub.subset hi
      rw [mem_range'_1] at hRange
      exact ⟨by omega, hFree i hi⟩
    refine nodup_cons.mpr ⟨?_, hSub.nodup nodup_range'⟩
    intro hIn
    have hRange := hSub.subset hIn
    rw [mem_range'_1] at hRange
    omega

/-! ## The scan of an equal split -/

/-- What the scan has admitted: unused tokens in increasing order with pairwise disjoint sets. A
token it passed over is used, or overlaps an admitted one, or was not next in a sequential split. -/
structure Scanned (a : BatchAllocr) (sequential : Bool) (bound : Nat) (toks : List Nat) :
    Prop where
  unused : ∀ t ∈ toks, t < bound ∧ t ∉ a.used
  sorted : toks.Pairwise (· < ·)
  apart : toks.Pairwise fun s t => a.batch.seqSet s ∩ a.batch.seqSet t = ∅
  passed : ∀ j < bound, j ∉ a.used → j ∈ toks ∨
    (∃ t ∈ toks, t < j ∧ a.batch.seqSet t ∩ a.batch.seqSet j ≠ ∅) ∨
    (sequential = true ∧ toks ≠ [])

variable {sequential : Bool}

/-- The scan looked at every token, or it stopped at its last admission with one
set more than `n_ubatch`. -/
theorem scanSets_spec {a : BatchAllocr} (is : List Nat)
    {bound : Nat} {toks : List Nat} {lastSeqId : Int}
    (hIs : is = range' bound (a.batch.nTokens - bound)) (hBound : bound ≤ a.batch.nTokens)
    (h : Scanned a sequential bound toks) (hLen : toks.length ≤ nUbatch) :
    ∃ toks' bound', a.scanSets nUbatch sequential is (toks.map a.batch.seqSet) lastSeqId =
        toks'.map a.batch.seqSet ∧ bound' ≤ a.batch.nTokens ∧
      Scanned a sequential bound' toks' ∧
      (bound' = a.batch.nTokens ∧ toks'.length ≤ nUbatch ∨ toks'.length = nUbatch + 1) := by
  induction is generalizing bound toks lastSeqId with
  | nil =>
    have hDone : bound = a.batch.nTokens := by
      have := congrArg length hIs
      simp only [length_nil, length_range'] at this
      omega
    exact ⟨toks, bound, rfl, hBound, h, Or.inl ⟨hDone, hLen⟩⟩
  | cons i is ih =>
    have hLt : bound < a.batch.nTokens := by
      have := congrArg length hIs
      simp only [length_cons, length_range'] at this
      omega
    obtain ⟨k, hk⟩ : ∃ k, a.batch.nTokens - bound = k + 1 := ⟨_, (Nat.succ_pred_eq_of_pos
      (by omega)).symm⟩
    rw [hk, range'_succ] at hIs
    obtain ⟨rfl, hRest⟩ := cons.inj hIs
    have hRest' : is = range' (i + 1) (a.batch.nTokens - (i + 1)) := by
      rw [hRest, show a.batch.nTokens - (i + 1) = k by omega]
    have hPass : (∀ j, j = i → j ∉ a.used → j ∈ toks ∨
        (∃ t ∈ toks, t < j ∧ a.batch.seqSet t ∩ a.batch.seqSet j ≠ ∅) ∨
        (sequential = true ∧ toks ≠ [])) → Scanned a sequential (i + 1) toks := by
      intro hSkip
      refine ⟨fun t ht => ⟨Nat.lt_succ_of_lt (h.unused t ht).1, (h.unused t ht).2⟩, h.sorted,
        h.apart, fun j hj hUnused => ?_⟩
      rcases Nat.eq_or_lt_of_le (Nat.le_of_lt_succ hj) with hEq | hLt
      · exact hSkip j hEq hUnused
      · exact h.passed j hLt hUnused
    simp only [scanSets]
    split
    · rename_i hUsed
      exact ih hRest' hLt (hPass fun j hj hUnused => absurd (hj ▸ hUsed) hUnused) hLen
    rename_i hUnused
    split
    · rename_i hAdd
      rw [Bool.and_eq_true, all_eq_true] at hAdd
      have hApart : ∀ t ∈ toks, a.batch.seqSet t ∩ a.batch.seqSet i = ∅ := by
        intro t ht
        have := hAdd.1 (a.batch.seqSet t) (mem_map_of_mem ht)
        simpa using this
      have hNew : Scanned a sequential (i + 1) (toks ++ [i]) := by
        refine ⟨?_, ?_, ?_, ?_⟩
        · intro t ht
          rcases mem_append.mp ht with hOld | hOne
          · exact ⟨Nat.lt_succ_of_lt (h.unused t hOld).1, (h.unused t hOld).2⟩
          · rw [List.mem_singleton.mp hOne]
            exact ⟨Nat.lt_succ_self i, hUnused⟩
        · refine pairwise_append.mpr ⟨h.sorted, pairwise_singleton _ _, ?_⟩
          intro s hs t ht
          rw [List.mem_singleton.mp ht]
          exact (h.unused s hs).1
        · refine pairwise_append.mpr ⟨h.apart, pairwise_singleton _ _, ?_⟩
          intro s hs t ht
          rw [List.mem_singleton.mp ht]
          exact hApart s hs
        intro j hj hFree
        rcases Nat.eq_or_lt_of_le (Nat.le_of_lt_succ hj) with rfl | hLt
        · exact Or.inl (by simp)
        rcases h.passed j hLt hFree with hIn | ⟨t, ht, hOver⟩ | ⟨hSeq, -⟩
        · exact Or.inl (by simp [hIn])
        · exact Or.inr (Or.inl ⟨t, by simp [ht], hOver⟩)
        · exact Or.inr (Or.inr ⟨hSeq, by simp⟩)
      have hMap : toks.map a.batch.seqSet ++ [a.batch.seqSet i] =
          (toks ++ [i]).map a.batch.seqSet := by simp
      rw [hMap]
      split
      · rename_i hFull
        refine ⟨toks ++ [i], i + 1, rfl, hLt, hNew, Or.inr ?_⟩
        simp only [length_map, length_append, length_singleton] at hFull ⊢
        omega
      rename_i hFull
      refine ih hRest' hLt hNew ?_
      simpa using hFull
    rename_i hSkip
    refine ih hRest' hLt (hPass fun j hj _ => ?_) hLen
    subst hj
    rw [Bool.and_eq_true, all_eq_true, not_and_or] at hSkip
    rcases hSkip with hOver | hSeq
    · simp only [not_forall] at hOver
      obtain ⟨S, hS, hNot⟩ := hOver
      obtain ⟨t, ht, rfl⟩ := mem_map.mp hS
      exact Or.inr (Or.inl ⟨t, ht, (h.unused t ht).1, by simpa using hNot⟩)
    refine Or.inr (Or.inr ?_)
    simp only [Bool.or_eq_true, Bool.not_eq_true', not_or, Bool.not_eq_false] at hSeq
    exact ⟨hSeq.1, fun hNil => hSeq.2.1 (by simp [hNil])⟩

/-- The sets of the next equal split, by the tokens that brought them in. -/
theorem curSeqSets_spec (a : BatchAllocr) (nUbatch : Nat) (sequential : Bool) :
    ∃ toks bound, a.curSeqSets nUbatch sequential = toks.map a.batch.seqSet ∧
      bound ≤ a.batch.nTokens ∧ Scanned a sequential bound toks ∧
      (bound = a.batch.nTokens ∧ toks.length ≤ nUbatch ∨ toks.length = nUbatch + 1) := by
  have hNone : Scanned a sequential 0 [] :=
    ⟨by simp, List.Pairwise.nil, List.Pairwise.nil, fun j hj => absurd hj (Nat.not_lt_zero j)⟩
  exact scanSets_spec a.batch.indices (by simp [FullBatch.indices, range_eq_range'])
    (Nat.zero_le _) hNone (Nat.zero_le _)

/-! ## Advancing in lockstep -/

/-- The unused tokens of a sequence set, in batch order. -/
def remaining (a : BatchAllocr) (S : Finset Nat) : List Nat := (a.startCursor S).rest

/-- Equal splits use the tokens of every sequence set from the front. -/
def SetsUsed (a : BatchAllocr) : Prop :=
  ∀ i j, i < j → j < a.batch.nTokens → a.batch.seqSet i = a.batch.seqSet j → j ∈ a.used →
    i ∈ a.used

theorem seqSetMap_sorted (b : FullBatch) (S : Finset Nat) : (b.seqSetMap S).Pairwise (· < ·) :=
  pairwise_lt_range.sublist filter_sublist

variable {S : Finset Nat} {i : Nat}

theorem mem_seqSetMap {b : FullBatch} : i ∈ b.seqSetMap S ↔ i < b.nTokens ∧ b.seqSet i = S := by
  simp [FullBatch.seqSetMap, FullBatch.indices]

theorem remaining_sorted (a : BatchAllocr) (S : Finset Nat) : (a.remaining S).Pairwise (· < ·) :=
  (seqSetMap_sorted a.batch S).sublist (dropWhile_sublist _)

theorem remaining_head {a : BatchAllocr} {is : List Nat}
    (h : a.remaining S = i :: is) : i ∉ a.used := by
  have hHead := head_dropWhile_not (fun i => decide (i ∈ a.used))
    (show (a.batch.seqSetMap S).dropWhile (fun i => decide (i ∈ a.used)) ≠ [] by
      rw [show (a.batch.seqSetMap S).dropWhile _ = i :: is from h]
      simp)
  simp only [show (a.batch.seqSetMap S).dropWhile (fun i => decide (i ∈ a.used)) = i :: is from h,
    head_cons] at hHead
  simpa using hHead

theorem mem_remaining {a : BatchAllocr} (hUsed : SetsUsed a) :
    i ∈ a.remaining S ↔ i < a.batch.nTokens ∧ a.batch.seqSet i = S ∧ i ∉ a.used := by
  constructor
  · intro hi
    obtain ⟨hLt, hSet⟩ := mem_seqSetMap.mp ((dropWhile_sublist _).subset hi)
    refine ⟨hLt, hSet, fun hIn => ?_⟩
    cases hRest : a.remaining S with
    | nil => simp [hRest] at hi
    | cons k ks =>
      have hk : k ∈ a.batch.seqSetMap S :=
        (dropWhile_sublist _).subset (show k ∈ a.remaining S by simp [hRest])
      have hHead := remaining_head hRest
      rw [hRest] at hi
      rcases mem_cons.mp hi with rfl | hTail
      · exact hHead hIn
      have hSorted := a.remaining_sorted S
      rw [hRest, List.pairwise_cons] at hSorted
      exact hHead (hUsed k i (hSorted.1 i hTail) hLt
        ((mem_seqSetMap.mp hk).2.trans hSet.symm) hIn)
  rintro ⟨hLt, hSet, hUnused⟩
  have hIn : i ∈ a.batch.seqSetMap S := mem_seqSetMap.mpr ⟨hLt, hSet⟩
  rw [← takeWhile_append_dropWhile (p := fun i => decide (i ∈ a.used))
    (l := a.batch.seqSetMap S), mem_append] at hIn
  rcases hIn with hTaken | hRest
  · have hIn := all_takeWhile (p := fun i => decide (i ∈ a.used))
      (l := a.batch.seqSetMap S)
    exact absurd (by simpa using all_eq_true.mp hIn i hTaken) hUnused
  · exact hRest

theorem remaining_length_le (a : BatchAllocr) (S : Finset Nat) :
    (a.remaining S).length ≤ a.batch.nTokens := by
  have hSub : (a.remaining S).Sublist a.batch.indices :=
    (dropWhile_sublist _).trans filter_sublist
  have hLen := hSub.length_le
  rwa [FullBatch.indices, length_range] at hLen

/-- A cursor `n` tokens further on. -/
def SetCursor.advanceBy (n : Nat) (c : SetCursor) : SetCursor :=
  ⟨c.taken ++ c.rest.take n, c.rest.drop n⟩

theorem SetCursor.advanceBy_zero (c : SetCursor) : c.advanceBy 0 = c := by
  simp [SetCursor.advanceBy]

theorem SetCursor.advance_eq (c : SetCursor) : c.advance = c.advanceBy 1 := by
  cases hRest : c.rest with
  | nil =>
    cases c
    simp_all [SetCursor.advance, SetCursor.advanceBy]
  | cons i is => simp [SetCursor.advance, SetCursor.advanceBy, hRest]

theorem SetCursor.advanceBy_advanceBy (m n : Nat) (c : SetCursor) :
    (c.advanceBy m).advanceBy n = c.advanceBy (m + n) := by
  simp [SetCursor.advanceBy, take_add, drop_drop]

/-- The lockstep loop advances all sets by the same number of tokens; a second
round is only begun when it fits. -/
theorem expand_spec (nUbatch fuel : Nat) (cs : List SetCursor) (t : Nat)
    (hTaken : ∀ c ∈ cs, c.taken.length = t) :
    ∃ n, expand nUbatch fuel cs = cs.map (SetCursor.advanceBy n) ∧
      (∀ c ∈ cs, n ≤ c.rest.length) ∧ (n ≤ 1 ∨ (t + n) * cs.length ≤ nUbatch) ∧
      (0 < fuel → (∀ c ∈ cs, c.rest ≠ []) → 1 ≤ n) := by
  induction fuel generalizing cs t with
  | zero =>
    refine ⟨0, ?_, by simp, Or.inl (by omega), by simp⟩
    rw [List.map_congr_left fun c _ => c.advanceBy_zero, List.map_id']
    rfl
  | succ fuel ih =>
    simp only [expand]
    split
    · rename_i hAny
      refine ⟨0, ?_, by simp, Or.inl (by omega), ?_⟩
      · rw [List.map_congr_left fun c _ => c.advanceBy_zero, List.map_id']
      intro _ hAll
      obtain ⟨c, hc, hEmpty⟩ := List.any_eq_true.mp hAny
      exact absurd (List.isEmpty_iff.mp hEmpty) (hAll c hc)
    rename_i hAll
    have hRest : ∀ c ∈ cs, 1 ≤ c.rest.length := by
      intro c hc
      refine List.length_pos_iff.mpr fun hNil => hAll ?_
      exact List.any_eq_true.mpr ⟨c, hc, by simp [hNil]⟩
    have hMap : cs.map SetCursor.advance = cs.map (SetCursor.advanceBy 1) :=
      List.map_congr_left fun c _ => c.advance_eq
    have hTaken' : ∀ c ∈ cs.map SetCursor.advance, c.taken.length = t + 1 := by
      intro c hc
      rw [hMap] at hc
      obtain ⟨d, hd, rfl⟩ := List.mem_map.mp hc
      have := hRest d hd
      simp only [SetCursor.advanceBy, List.length_append, List.length_take, hTaken d hd]
      omega
    split
    · exact ⟨1, hMap, hRest, Or.inl (by omega), fun _ _ => Nat.le_refl 1⟩
    rename_i hFits
    obtain ⟨n, hRun, hLen, hSize, -⟩ := ih (cs.map SetCursor.advance) (t + 1) hTaken'
    refine ⟨1 + n, ?_, ?_, ?_, fun _ _ => by omega⟩
    · rw [hRun, hMap, List.map_map]
      exact List.map_congr_left fun c _ => c.advanceBy_advanceBy 1 n
    · intro c hc
      have hAdvanced := hLen (c.advanceBy 1)
        (by rw [hMap]; exact List.mem_map_of_mem hc)
      have := hRest c hc
      simp only [SetCursor.advanceBy, List.length_drop] at hAdvanced
      omega
    cases cs with
    | nil => exact Or.inr (by simp)
    | cons c cs =>
      have hHead := hTaken' c.advance (by simp)
      simp only [List.map_cons, List.head?_cons, Option.map_some, Option.getD_some,
        hHead, List.length_cons, List.length_map, not_lt] at hFits hSize ⊢
      rcases hSize with hOne | hMore
      · right
        refine le_trans (Nat.mul_le_mul_right _ ?_) hFits
        omega
      right
      rw [show t + (1 + n) = t + 1 + n by omega]
      exact hMore

/-! ## Blocks -/

/-- The first `m` unused tokens of each set. -/
def blocks (a : BatchAllocr) (sets : List (Finset Nat)) (m : Nat) : List Nat :=
  sets.flatMap fun S => (a.remaining S).take m

variable {m : Nat} {sets : List (Finset Nat)}

theorem mem_blocks {a : BatchAllocr} (hUsed : SetsUsed a) (h : i ∈ a.blocks sets m) :
    a.batch.seqSet i ∈ sets ∧ i < a.batch.nTokens ∧ i ∉ a.used := by
  obtain ⟨S, hS, hi⟩ := mem_flatMap.mp h
  obtain ⟨hLt, hSet, hFree⟩ := (mem_remaining hUsed).mp (mem_of_mem_take hi)
  exact ⟨hSet ▸ hS, hLt, hFree⟩

theorem blocks_nodup {a : BatchAllocr} (hUsed : SetsUsed a) (hSets : sets.Nodup) (m : Nat) :
    (a.blocks sets m).Nodup := by
  refine nodup_flatMap.mpr ⟨fun S _ => ?_, hSets.imp fun hne => ?_⟩
  · exact ((a.remaining_sorted S).imp Nat.ne_of_lt).sublist (take_sublist m _)
  intro i hi hj
  have hS := ((mem_remaining hUsed).mp (mem_of_mem_take hi)).2.1
  have hT := ((mem_remaining hUsed).mp (mem_of_mem_take hj)).2.1
  exact hne (hS.symm.trans hT)

theorem blocks_length {a : BatchAllocr} (h : ∀ S ∈ sets, m ≤ (a.remaining S).length) :
    (a.blocks sets m).length = sets.length * m := by
  unfold blocks
  rw [length_flatMap, map_congr_left (g := fun _ => m)]
  · simp
  intro S hS
  rw [length_take]
  exact Nat.min_eq_left (h S hS)

theorem blocks_append (a : BatchAllocr) (sets sets' : List (Finset Nat)) (m : Nat) :
    a.blocks (sets ++ sets') m = a.blocks sets m ++ a.blocks sets' m := by
  simp [blocks]

/-- A later token of a sorted list that was taken brings the earlier ones with
it. -/
theorem mem_take_of_lt {l : List Nat} (hSorted : l.Pairwise (· < ·)) {j : Nat}
    (hj : j ∈ l.take m) (hi : i ∈ l) (hlt : i < j) : i ∈ l.take m := by
  rw [← take_append_drop m l, pairwise_append] at hSorted
  rw [← take_append_drop m l, mem_append] at hi
  rcases hi with hTake | hDrop
  · exact hTake
  · have := hSorted.2.2 j hj i hDrop
    omega

theorem blocks_setsUsed {a : BatchAllocr} (hUsed : SetsUsed a) (hBatch : a'.batch = a.batch)
    (hMarked : a'.used = a.used ∪ (a.blocks sets m).toFinset) : SetsUsed a' := by
  intro i j hij hj hSame hIn
  rw [hBatch] at hj hSame
  rw [hMarked, mem_union, mem_toFinset] at hIn ⊢
  rcases hIn with hOld | hNew
  · exact Or.inl (hUsed i j hij hj hSame hOld)
  by_cases hi : i ∈ a.used
  · exact Or.inl hi
  obtain ⟨S, hS, hjTake⟩ := mem_flatMap.mp hNew
  have hjSet := ((mem_remaining hUsed).mp (mem_of_mem_take hjTake)).2.1
  have hiRest : i ∈ a.remaining S :=
    (mem_remaining hUsed).mpr ⟨lt_trans hij hj, hSame.trans hjSet, hi⟩
  exact Or.inr (mem_flatMap.mpr
    ⟨S, hS, mem_take_of_lt (a.remaining_sorted S) hjTake hiRest hij⟩)

/-! ## Equal splits -/

/-- Every token names a sequence. -/
def Owned (a : BatchAllocr) : Prop := ∀ i < a.batch.nTokens, (a.batch.seqSet i).Nonempty

theorem curSeqSets_nodup {a : BatchAllocr} (hOwned : Owned a) (nUbatch : Nat)
    (sequential : Bool) : (a.curSeqSets nUbatch sequential).Nodup := by
  obtain ⟨toks, bound, hEq, hBound, hScan, -⟩ := a.curSeqSets_spec nUbatch sequential
  rw [hEq]
  refine pairwise_map.mpr (List.Pairwise.imp_of_mem ?_ hScan.apart)
  intro s t hs _ hApart hSame
  rw [← hSame, inter_self] at hApart
  have hNonempty := hOwned s (lt_of_lt_of_le (hScan.unused s hs).1 hBound)
  rw [hApart] at hNonempty
  exact not_nonempty_empty hNonempty

theorem curSeqSets_remaining {a : BatchAllocr} (hUsed : SetsUsed a)
    (hS : S ∈ a.curSeqSets nUbatch sequential) :
    a.remaining S ≠ [] := by
  obtain ⟨toks, bound, hEq, hBound, hScan, -⟩ := a.curSeqSets_spec nUbatch sequential
  rw [hEq] at hS
  obtain ⟨t, ht, rfl⟩ := mem_map.mp hS
  obtain ⟨hLt, hFree⟩ := hScan.unused t ht
  exact ne_nil_of_mem ((mem_remaining hUsed).mpr ⟨lt_of_lt_of_le hLt hBound, rfl, hFree⟩)

/-- The scan admits at most `n_ubatch` sets, or has to put one off that would be left with fewer
than `n_keep_tail` tokens. -/
def CallFits (a : BatchAllocr) (nUbatch : Nat) : SplitMode → Prop
  | .equal sequential nKeepTail =>
    (a.curSeqSets nUbatch sequential).length ≤ nUbatch ∨
      (nKeepTail ≠ 0 ∧ ∃ S ∈ a.curSeqSets nUbatch sequential,
        (a.remaining S).length ≠ 1 ∧ (a.remaining S).length ≤ nKeepTail)
  | .simple => True
  | .seq => True

/-- An equal split that hands out `m` tokens of each of `sets`. -/
structure EqualCall (a : BatchAllocr) (nUbatch : Nat) (sequential : Bool) (nKeepTail : Nat)
    (sets : List (Finset Nat)) (m : Nat) : Prop where
  admitted : sets <+: a.curSeqSets nUbatch sequential
  nonempty : sets ≠ []
  pos : 1 ≤ m
  enough : ∀ S ∈ sets, m ≤ (a.remaining S).length
  fits : sets.length * m ≤ nUbatch ↔ CallFits a nUbatch (.equal sequential nKeepTail)
  result : a.splitEqual nUbatch sequential nKeepTail =
    .ok ((a.mark (a.blocks sets m)).ubatchAdd (a.blocks sets m) sets.length true)

/-- A set `n` tokens after its first unused one. -/
def cursorAt (a : BatchAllocr) (n : Nat) (S : Finset Nat) : SetCursor :=
  ⟨(a.remaining S).take n, (a.remaining S).drop n⟩

theorem expand_cursors {a : BatchAllocr} (hUsed : SetsUsed a)
    (hSome : a.curSeqSets nUbatch sequential ≠ []) :
    ∃ n, expand nUbatch a.batch.nTokens ((a.curSeqSets nUbatch sequential).map a.startCursor) =
        (a.curSeqSets nUbatch sequential).map (a.cursorAt n) ∧
      (∀ S ∈ a.curSeqSets nUbatch sequential, n ≤ (a.remaining S).length) ∧ 1 ≤ n ∧
      (n = 1 ∨ n * (a.curSeqSets nUbatch sequential).length ≤ nUbatch) := by
  obtain ⟨n, hRun, hLen, hSize, hPos⟩ := expand_spec nUbatch a.batch.nTokens
    ((a.curSeqSets nUbatch sequential).map a.startCursor) 0 (by simp [startCursor])
  have hTokens : 0 < a.batch.nTokens := by
    obtain ⟨S, hS⟩ := exists_mem_of_ne_nil _ hSome
    have hRest := length_pos_iff.mpr (curSeqSets_remaining hUsed hS)
    exact lt_of_lt_of_le hRest (a.remaining_length_le S)
  have hOne : 1 ≤ n := by
    refine hPos hTokens ?_
    intro c hc
    obtain ⟨S, hS, rfl⟩ := mem_map.mp hc
    exact curSeqSets_remaining hUsed hS
  refine ⟨n, ?_, ?_, hOne, ?_⟩
  · rw [hRun, List.map_map]
    rfl
  · intro S hS
    exact hLen (a.startCursor S) (mem_map_of_mem hS)
  · rw [length_map, Nat.zero_add] at hSize
    omega

theorem cursorAt_taken (a : BatchAllocr) (n : Nat) (S : Finset Nat) :
    (a.cursorAt n S).taken = (a.remaining S).take n := rfl

theorem cursorAt_rest (a : BatchAllocr) (n : Nat) (S : Finset Nat) :
    (a.cursorAt n S).rest = (a.remaining S).drop n := rfl

/-- A set that would be left with a tail that is too short. -/
theorem keepsTail_cursorAt {a : BatchAllocr} {n nKeepTail : Nat} :
    (a.cursorAt n S).keepsTail nKeepTail = false ↔
      n < (a.remaining S).length ∧ (a.remaining S).length < n + nKeepTail := by
  simp only [SetCursor.keepsTail, cursorAt_rest, length_drop, Bool.or_eq_false_iff,
    decide_eq_false_iff_not, not_le]
  omega

theorem flatMap_taken (a : BatchAllocr) (sets : List (Finset Nat)) (n : Nat) :
    ((sets.map (a.cursorAt n)).flatMap fun c => c.taken) = a.blocks sets n := by
  rw [flatMap_map]
  rfl

/-- Without a tail to keep, every admitted set is handed out. -/
theorem splitEqual_plain {a : BatchAllocr} (hUsed : SetsUsed a)
    (hCpl : (sequential && a.batch.hasCpl) = false)
    (hSome : a.curSeqSets nUbatch sequential ≠ []) :
    ∃ m, EqualCall a nUbatch sequential 0 (a.curSeqSets nUbatch sequential) m := by
  obtain ⟨n, hRun, hLen, hPos, hSize⟩ := expand_cursors hUsed hSome
  have hNonzero : 1 ≤ (a.curSeqSets nUbatch sequential).length := length_pos_iff.mpr hSome
  refine ⟨n, prefix_rfl, hSome, hPos, hLen, ?_, ?_⟩
  · simp only [CallFits, ne_eq, not_true_eq_false, false_and, or_false]
    rcases hSize with rfl | hMany
    · rw [Nat.mul_one]
    have : (a.curSeqSets nUbatch sequential).length ≤
        n * (a.curSeqSets nUbatch sequential).length := Nat.le_mul_of_pos_left _ hPos
    rw [Nat.mul_comm]
    omega
  · simp only [splitEqual, hCpl, Bool.false_eq_true, if_false, List.isEmpty_iff, hSome, hRun,
      flatMap_taken, if_true, length_map]

section KeepTail

variable {a : BatchAllocr} {sets : List (Finset Nat)} {n : Nat}

variable {kept back : List (Finset Nat)}

/-- Handing back the blocks of the sets that are put off. -/
theorem unmark_blocks (hUsed : SetsUsed a) (hNodup : (kept ++ back).Nodup) {keptToks : List Nat}
    (hBatch : a'.batch = a.batch) (hOut : a'.outIds = a.outIds)
    (hKept : ∀ i ∈ keptToks, a.batch.seqSet i ∈ kept)
    (hMarked : ∀ i, i ∈ a'.used ↔ i ∈ a.used ∨ i ∈ keptToks ∨ i ∈ a.blocks back n)
    (hCount : a'.nUsed = a.nUsed + keptToks.length + (a.blocks back n).length) :
    a'.unmark (a.blocks back n) = a.mark keptToks := by
  refine unmark_eq_mark hBatch hOut hMarked hCount (fun i hi => (mem_blocks hUsed hi).2.2) ?_
  intro i hi hIn
  exact (nodup_append.mp hNodup).2.2 _ (hKept i hIn) _ (mem_blocks hUsed hi).1 rfl

/-- Some admitted sets keep their tail: the longest such prefix is handed out. -/
theorem keepTails_prefix (hUsed : SetsUsed a) (nUbatch : Nat) {nKeepTail : Nat}
    (hNodup : (kept ++ back).Nodup) (hKept : kept ≠ [])
    (hTake : (kept ++ back).takeWhile (fun S => (a.cursorAt n S).keepsTail nKeepTail) = kept) :
    (a.mark (a.blocks (kept ++ back) n)).keepTails nUbatch nKeepTail
        ((kept ++ back).map (a.cursorAt n)) =
      (a.mark (a.blocks kept n), kept.map (a.cursorAt n)) := by
  have hWhile : ((kept ++ back).map (a.cursorAt n)).takeWhile (SetCursor.keepsTail nKeepTail) =
      kept.map (a.cursorAt n) := by
    rw [List.takeWhile_map]
    exact congrArg _ hTake
  have hUnmark : (a.mark (a.blocks (kept ++ back) n)).unmark (a.blocks back n) =
      a.mark (a.blocks kept n) := by
    refine unmark_blocks hUsed hNodup rfl rfl (fun i hi => (mem_blocks hUsed hi).1) ?_ ?_
    · intro i
      simp [blocks_append]
    · simp only [mark_nUsed, blocks_append, length_append]
      omega
  obtain ⟨S, kept', rfl⟩ := exists_cons_of_ne_nil hKept
  have hDrop : (((S :: kept') ++ back).map (a.cursorAt n)).drop (S :: kept').length =
      back.map (a.cursorAt n) := by
    rw [← map_drop, drop_left]
  unfold keepTails
  simp only [hWhile]
  simp only [List.map_cons, List.length_cons, List.length_map] at hDrop ⊢
  rw [show ((kept'.length + 1) = (S :: kept').length) from rfl] at hDrop ⊢
  simp only [List.cons_append, List.map_cons] at hDrop ⊢
  rw [hDrop, flatMap_taken]
  simp only [cons_append] at hUnmark
  rw [hUnmark]

/-- No admitted set keeps its tail: the first one is handed out alone, whole if
it fits and else all but `n_keep_tail` of its tokens. -/
theorem keepTails_first (hUsed : SetsUsed a) (nUbatch : Nat) {nKeepTail : Nat}
    (hNodup : (S :: back).Nodup)
    (hFirst : (a.cursorAt n S).keepsTail nKeepTail = false)
    (hm : m = if (a.remaining S).length ≤ nUbatch then (a.remaining S).length
      else (a.remaining S).length - nKeepTail) :
    ∃ c, (a.mark (a.blocks (S :: back) n)).keepTails nUbatch nKeepTail
        ((S :: back).map (a.cursorAt n)) =
      (a.mark (a.blocks [S] m), [c]) ∧ c.taken = (a.remaining S).take m := by
  have hWhile : ((S :: back).map (a.cursorAt n)).takeWhile (SetCursor.keepsTail nKeepTail) =
      [] := by
    rw [List.map_cons, List.takeWhile_cons_of_neg]
    simp [hFirst]
  rw [keepsTail_cursorAt] at hFirst
  have hOne : a.blocks [S] m = (a.remaining S).take m := by simp [blocks]
  have hCons : a.blocks (S :: back) n = (a.remaining S).take n ++ a.blocks back n := by
    simp [blocks]
  have hSets : ∀ i ∈ (a.remaining S).take m, a.batch.seqSet i ∈ [S] := by
    intro i hi
    rw [((mem_remaining hUsed).mp (mem_of_mem_take hi)).2.1]
    simp
  have hHead : ([S] ++ back).Nodup := hNodup
  have hTotal : ((a.remaining S).take n).length + ((a.remaining S).drop n).length =
      (a.remaining S).length := by
    rw [← length_append, take_append_drop]
  unfold keepTails resolveFirst
  simp only [hWhile]
  simp only [List.map_cons, cursorAt_taken, cursorAt_rest, hTotal]
  split
  · -- the set is completed
    rename_i hFits
    rw [if_pos hFits] at hm
    have hTake : (a.remaining S).take m = (a.remaining S).take n ++ (a.remaining S).drop n := by
      rw [hm, take_length, take_append_drop]
    refine ⟨_, Prod.ext ?_ rfl, hTake.symm⟩
    change ((a.mark (a.blocks (S :: back) n)).mark _).unmark _ = _
    rw [hOne, flatMap_taken]
    refine unmark_blocks hUsed hHead rfl rfl hSets ?_ ?_
    · intro i
      simp only [mark_used, hCons, mem_union, mem_toFinset, mem_append, hTake]
      tauto
    · simp only [mark_nUsed, hCons, hTake, length_append]
      omega
  -- tokens are given back from the end
  rename_i hLong
  rw [if_neg hLong] at hm
  have hLen : ((a.remaining S).take n).length = n := by
    rw [length_take]
    omega
  have hKeep : ((a.remaining S).take n).length - (nKeepTail - ((a.remaining S).drop n).length) =
      m := by
    rw [hLen, length_drop]
    omega
  have hmn : m ≤ n := by omega
  have hTake : ((a.remaining S).take n).take m = (a.remaining S).take m := by
    rw [take_take, Nat.min_eq_left hmn]
  have hSplit : (a.remaining S).take n =
      (a.remaining S).take m ++ ((a.remaining S).take n).drop m := by
    rw [← hTake, take_append_drop]
  rw [hKeep]
  refine ⟨_, Prod.ext ?_ rfl, hTake⟩
  have hFreeBack : ∀ i ∈ ((a.remaining S).take n).drop m, i ∉ a.used ∧
      i ∉ (a.remaining S).take m ∧ a.batch.seqSet i = S := by
    intro i hi
    have hIn := mem_of_mem_take (mem_of_mem_drop hi)
    obtain ⟨-, hSet, hFree⟩ := (mem_remaining hUsed).mp hIn
    refine ⟨hFree, fun hTaken => ?_, hSet⟩
    have hNod : ((a.remaining S).take n).Nodup :=
      ((a.remaining_sorted S).imp Nat.ne_of_lt).sublist (take_sublist n _)
    rw [hSplit] at hNod
    exact (nodup_append.mp hNod).2.2 i hTaken i hi rfl
  have hMid : (a.mark (a.blocks (S :: back) n)).unmark (((a.remaining S).take n).drop m) =
      a.mark ((a.remaining S).take m ++ a.blocks back n) := by
    refine unmark_eq_mark rfl rfl ?_ ?_ (fun i hi => (hFreeBack i hi).1) ?_
    · intro i
      simp only [mark_used, hCons, mem_union, mem_toFinset, mem_append]
      rw [hSplit, mem_append, ← hSplit]
      tauto
    · have hLenSplit := congrArg length hSplit
      rw [length_append] at hLenSplit
      simp only [mark_nUsed, hCons, length_append]
      omega
    intro i hi hIn
    obtain ⟨-, hNot, hSet⟩ := hFreeBack i hi
    rcases mem_append.mp hIn with hTaken | hOther
    · exact hNot hTaken
    have hBack := (mem_blocks hUsed hOther).1
    rw [hSet] at hBack
    exact (nodup_cons.mp hNodup).1 hBack
  change ((a.mark (a.blocks (S :: back) n)).unmark _).unmark _ = _
  rw [hOne, hMid, flatMap_taken]
  refine unmark_blocks hUsed hHead rfl rfl hSets ?_ ?_
  · intro i
    simp
  · simp only [mark_nUsed, length_append]
    omega

/-- What an equal split knows once the lockstep loop has run `n` rounds on the
admitted sets `all`. -/
structure Expanded (a : BatchAllocr) (nUbatch : Nat) (sequential : Bool) (n : Nat)
    (all : List (Finset Nat)) : Prop where
  sets : all = a.curSeqSets nUbatch sequential
  some : all ≠ []
  nodup : all.Nodup
  rest : ∀ S ∈ all, a.remaining S ≠ []
  run : expand nUbatch a.batch.nTokens (all.map a.startCursor) = all.map (a.cursorAt n)
  enough : ∀ S ∈ all, n ≤ (a.remaining S).length
  pos : 1 ≤ n
  size : n = 1 ∨ n * all.length ≤ nUbatch

variable {nUbatch nKeepTail : Nat} {sequential : Bool} {all : List (Finset Nat)}

section

variable (h : Expanded a nUbatch sequential n all)

include h

theorem Expanded.once (hMany : nUbatch < all.length) : n = 1 := by
  rcases h.size with hOne | hFew
  · exact hOne
  · have := Nat.le_mul_of_pos_left all.length h.pos
    omega

theorem Expanded.le_succ : all.length ≤ nUbatch + 1 := by
  obtain ⟨toks, bound, hEq, -, -, hEnd⟩ := a.curSeqSets_spec nUbatch sequential
  rw [h.sets, hEq, length_map]
  omega

theorem Expanded.fits_iff (hKeep : nKeepTail ≠ 0) :
    CallFits a nUbatch (.equal sequential nKeepTail) ↔
      all.length ≤ nUbatch ∨ ∃ S ∈ all, (a.cursorAt n S).keepsTail nKeepTail = false := by
  simp only [CallFits, ← h.sets, ne_eq, hKeep, not_false_eq_true, true_and, keepsTail_cursorAt]
  refine or_congr_right' fun hMany => exists_congr fun S => and_congr_right fun hS => ?_
  have hPos := length_pos_iff.mpr (h.rest S hS)
  rw [h.once (by omega)]
  omega

theorem Expanded.split (hCpl : (sequential && a.batch.hasCpl) = false) (hKeep : nKeepTail ≠ 0)
    (hTail : nKeepTail < nUbatch) {cs : List SetCursor}
    (hTails : (a.mark (a.blocks all n)).keepTails nUbatch nKeepTail (all.map (a.cursorAt n)) =
      (a', cs)) :
    a.splitEqual nUbatch sequential nKeepTail =
      .ok (a'.ubatchAdd (cs.flatMap fun c => c.taken) cs.length true) := by
  have hNot : ¬ nUbatch ≤ nKeepTail := by omega
  simp only [splitEqual, hCpl, Bool.false_eq_true, if_false, ← h.sets, List.isEmpty_iff, h.some,
    h.run, flatMap_taken, hKeep, hNot, hTails]

end

theorem Expanded.first (hUsed : SetsUsed a) (h : Expanded a nUbatch sequential n all)
    (hCpl : (sequential && a.batch.hasCpl) = false) (hKeep : nKeepTail ≠ 0)
    (hTail : nKeepTail < nUbatch)
    (hCons : all = S :: back) (hFirst : (a.cursorAt n S).keepsTail nKeepTail = false) :
    ∃ m, EqualCall a nUbatch sequential nKeepTail [S] m ∧
      (m = (a.remaining S).length ∨ m + nKeepTail ≤ (a.remaining S).length) := by
  have hS : S ∈ all := by rw [hCons]; simp
  obtain ⟨m, hm⟩ : ∃ m, m = if (a.remaining S).length ≤ nUbatch then (a.remaining S).length
    else (a.remaining S).length - nKeepTail := ⟨_, rfl⟩
  obtain ⟨c, hTails, hTaken⟩ := keepTails_first hUsed nUbatch (hCons ▸ h.nodup) hFirst hm
  have hPosRest := length_pos_iff.mpr (h.rest S hS)
  have hRange : 1 ≤ m ∧ m ≤ (a.remaining S).length := by
    split at hm <;> omega
  have hSmall : m ≤ nUbatch := by
    have hnLe : n ≤ nUbatch := by
      rcases h.size with hOne | hFew
      · omega
      · exact le_trans (Nat.le_mul_of_pos_right n (length_pos_iff.mpr h.some)) hFew
    rw [keepsTail_cursorAt] at hFirst
    split at hm <;> omega
  refine ⟨m, ⟨?_, by simp, hRange.1, ?_, ?_, ?_⟩, by split at hm <;> omega⟩
  · rw [← h.sets, hCons]
    exact ⟨back, rfl⟩
  · intro T hT
    rw [List.mem_singleton.mp hT]
    exact hRange.2
  · rw [length_singleton, Nat.one_mul, h.fits_iff hKeep]
    exact iff_of_true hSmall (Or.inr ⟨S, hS, hFirst⟩)
  rw [← hCons] at hTails
  rw [h.split hCpl hKeep hTail hTails]
  simp [hTaken, blocks]

/-- The longest prefix of sets that keep their tails handed out. -/
theorem Expanded.several (hUsed : SetsUsed a) (h : Expanded a nUbatch sequential n all)
    (hCpl : (sequential && a.batch.hasCpl) = false) (hKeep : nKeepTail ≠ 0)
    (hTail : nKeepTail < nUbatch) (hAll : all = kept ++ back)
    (hKept : ∀ S ∈ kept, (a.cursorAt n S).keepsTail nKeepTail = true)
    (hBack : ∀ S rest, back = S :: rest → (a.cursorAt n S).keepsTail nKeepTail = false)
    (hSome : kept ≠ []) : EqualCall a nUbatch sequential nKeepTail kept n := by
  have hLen : all.length = kept.length + back.length := by rw [hAll, length_append]
  have hTake : (kept ++ back).takeWhile (fun S => (a.cursorAt n S).keepsTail nKeepTail) =
      kept := by
    rw [takeWhile_append_of_pos (by simpa using hKept)]
    cases back with
    | nil => simp
    | cons S rest => simp [hBack S rest rfl]
  have hTails := keepTails_prefix hUsed nUbatch (hAll ▸ h.nodup) hSome hTake
  refine ⟨?_, hSome, h.pos, ?_, ?_, ?_⟩
  · rw [← h.sets, hAll]
    exact prefix_append kept back
  · exact fun S hS => h.enough S (by rw [hAll]; simp [hS])
  · rw [h.fits_iff hKeep]
    by_cases hFew : all.length ≤ nUbatch
    · refine iff_of_true ?_ (Or.inl hFew)
      rcases h.size with hOne | hMany
      · rw [hOne]
        omega
      refine le_trans ?_ hMany
      rw [Nat.mul_comm]
      exact Nat.mul_le_mul_left n (by omega)
    -- one set too many: the bound holds when one of them is put off
    have hSucc := h.le_succ
    rw [h.once (by omega), Nat.mul_one]
    constructor
    · intro hLe
      obtain ⟨S, rest, hCons⟩ := exists_cons_of_ne_nil
        (show back ≠ [] by rintro rfl; simp at hLen; omega)
      refine Or.inr ⟨S, by rw [hAll, hCons]; simp, ?_⟩
      have := hBack S rest hCons
      rwa [h.once (by omega)] at this
    rintro (hLe | ⟨S, hS, hShort⟩)
    · exact absurd hLe hFew
    have hNot : S ∉ kept := by
      intro hIn
      have hTrue := hKept S hIn
      rw [h.once (by omega), hShort] at hTrue
      cases hTrue
    have hIn : S ∈ back := by
      rw [hAll, mem_append] at hS
      exact hS.resolve_left hNot
    have := length_pos_of_mem hIn
    omega
  · rw [← hAll] at hTails
    rw [h.split hCpl hKeep hTail hTails, flatMap_taken, length_map]

/-- An equal split hands out sets whole or leaves them a tail of `n_keep_tail` tokens. -/
theorem splitEqual_spec (hUsed : SetsUsed a) (hOwned : Owned a)
    (hCpl : (sequential && a.batch.hasCpl) = false)
    (hTail : nKeepTail ≠ 0 → nKeepTail < nUbatch)
    (hSome : a.curSeqSets nUbatch sequential ≠ []) :
    ∃ sets m, EqualCall a nUbatch sequential nKeepTail sets m ∧ ∀ S ∈ sets,
      m = (a.remaining S).length ∨ m + nKeepTail ≤ (a.remaining S).length := by
  by_cases hKeep : nKeepTail = 0
  · subst hKeep
    obtain ⟨m, hCall⟩ := splitEqual_plain hUsed hCpl hSome
    exact ⟨_, m, hCall, fun S hS => Or.inr (hCall.enough S hS)⟩
  obtain ⟨n, hRun, hLen, hPos, hSize⟩ := expand_cursors hUsed hSome
  have h : Expanded a nUbatch sequential n (a.curSeqSets nUbatch sequential) :=
    ⟨rfl, hSome, curSeqSets_nodup hOwned nUbatch sequential,
      fun S hS => curSeqSets_remaining hUsed hS, hRun, hLen, hPos, hSize⟩
  obtain ⟨kept, back, hAll, hKept, hBack⟩ : ∃ kept back,
      a.curSeqSets nUbatch sequential = kept ++ back ∧
      (∀ S ∈ kept, (a.cursorAt n S).keepsTail nKeepTail = true) ∧
      ∀ S rest, back = S :: rest → (a.cursorAt n S).keepsTail nKeepTail = false := by
    refine ⟨_, _, (takeWhile_append_dropWhile
      (p := fun S => (a.cursorAt n S).keepsTail nKeepTail)).symm, ?_, ?_⟩
    · exact all_eq_true.mp all_takeWhile
    intro S rest hCons
    have hHead := head?_dropWhile_not
      (fun S => (a.cursorAt n S).keepsTail nKeepTail) (a.curSeqSets nUbatch sequential)
    rw [hCons] at hHead
    simpa using hHead
  by_cases hNone : kept = []
  · rw [hNone, nil_append] at hAll
    obtain ⟨S, rest, hCons⟩ := exists_cons_of_ne_nil (hAll ▸ hSome)
    obtain ⟨m, hCall, hLeft⟩ := h.first hUsed hCpl hKeep (hTail hKeep) (hAll.trans hCons)
      (hBack S rest hCons)
    exact ⟨[S], m, hCall, fun T hT => (List.mem_singleton.mp hT) ▸ hLeft⟩
  refine ⟨kept, n, h.several hUsed hCpl hKeep (hTail hKeep) hAll hKept hBack hNone, ?_⟩
  intro S hS
  have hKeeps := hKept S hS
  have hEnough := h.enough S (by rw [hAll]; exact mem_append_left _ hS)
  simp only [SetCursor.keepsTail, cursorAt_rest, length_drop, Bool.or_eq_true,
    decide_eq_true_eq] at hKeeps
  omega

end KeepTail

end BatchAllocr

end Beellama.Ports
