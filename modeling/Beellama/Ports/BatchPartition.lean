import Beellama.Ports.BatchSplit

/-!
# A whole batch in micro-batches

Calling a split method until it returns nothing hands out every token exactly once, after at most
one call per token and one more.  The size bound is the one promise that can fail: `split_equal` hands
out `n_ubatch + 1` tokens when its scan admits that many sequence sets.
-/

namespace Beellama.Ports

open List Finset

namespace BatchAllocr

/-! ## One call of any method -/

/-- What the calls of a method keep about the used tokens. -/
def ModeInv (a : BatchAllocr) : SplitMode → Prop
  | .simple => FrontUsed a
  | .equal _ _ => SetsUsed a ∧ Owned a
  | .seq => True

/-- The calls that the methods support: tails shorter than a micro-batch, and
no sequential split of coupled sequences. -/
def ModeOk (b : FullBatch) (nUbatch : Nat) : SplitMode → Prop
  | .equal sequential nKeepTail =>
    (nKeepTail ≠ 0 → nKeepTail < nUbatch) ∧ (sequential = true → b.hasCpl = false)
  | .simple => True
  | .seq => True

theorem ModeOk.uncoupled {b : FullBatch} {nUbatch nKeepTail : Nat} {sequential : Bool}
    (h : ModeOk b nUbatch (.equal sequential nKeepTail)) : (sequential && b.hasCpl) = false := by
  cases hSeq : sequential with
  | false => rfl
  | true => simpa using h.2 hSeq

/-- The tokens of each sequence set are contiguous and equally many. -/
def EqualBlocks (b : FullBatch) (u : SplitUbatch) : Prop :=
  u.nTokens = u.nSeqs * u.nSeqTokens ∧
    ∃ bs : List (List Nat), u.idxs = bs.flatten ∧ bs.length = u.nSeqs ∧
      (∀ B ∈ bs, B.length = u.nSeqTokens ∧ ∃ S, ∀ i ∈ B, b.seqSet i = S) ∧
      bs.Pairwise fun B C => ∀ i ∈ B, ∀ j ∈ C, b.seqSet i ∩ b.seqSet j = ∅

/-- What is said about the micro-batches of an equal split. -/
def ModeBlocks (b : FullBatch) (u : SplitUbatch) : SplitMode → Prop
  | .equal _ _ => EqualBlocks b u
  | .simple => True
  | .seq => True

/-- A call that goes on as long as a token is left. -/
structure Call (a : BatchAllocr) (nUbatch : Nat) (mode : SplitMode) (u : SplitUbatch)
    (a' : BatchAllocr) : Prop extends Emits a u a' where
  result : a.split nUbatch mode = .ok (u, a')
  inv : ModeInv a' mode
  empty : u.idxs = [] ↔ ∀ i < a.batch.nTokens, i ∈ a.used
  fits : u.idxs.length ≤ nUbatch ↔ CallFits a nUbatch mode
  blocks : ModeBlocks a.batch u mode

section Calls

variable {a : BatchAllocr} {nUbatch : Nat}

theorem call_simple (hn : 1 ≤ nUbatch) (hInv : FrontUsed a) :
    ∃ u a', Call a nUbatch .simple u a' := by
  refine ⟨_, _, splitSimple_emits hInv nUbatch, rfl, splitSimple_front hInv nUbatch, ?_, ?_,
    trivial⟩
  · cases hFirst : a.firstUnused with
    | none =>
      simp only [splitSimple, hFirst, SplitUbatch.none, true_iff]
      exact firstUnused_none hFirst
    | some cur =>
      obtain ⟨hLt, hUnused, -⟩ := firstUnused_some hFirst
      rw [splitSimple_some hFirst, ubatchAdd_idxs]
      refine iff_of_false ?_ fun hAll => hUnused (hAll cur hLt)
      rw [range'_eq_nil_iff]
      omega
  refine iff_of_true ?_ trivial
  cases hFirst : a.firstUnused with
  | none => simp [splitSimple, hFirst, SplitUbatch.none]
  | some cur =>
    rw [splitSimple_some hFirst, ubatchAdd_idxs, length_range']
    omega

theorem call_seq (hn : 1 ≤ nUbatch) : ∃ u a', Call a nUbatch .seq u a' := by
  refine ⟨_, _, splitSeq_emits a nUbatch, rfl, trivial, ?_, ?_, trivial⟩
  · cases hFirst : a.firstUnused with
    | none =>
      simp only [splitSeq, hFirst, SplitUbatch.none, true_iff]
      exact firstUnused_none hFirst
    | some cur =>
      obtain ⟨hLt, hUnused, -⟩ := firstUnused_some hFirst
      simp only [splitSeq, hFirst]
      exact iff_of_false (by simp) fun hAll => hUnused (hAll cur hLt)
  refine iff_of_true ?_ trivial
  cases hFirst : a.firstUnused with
  | none => simp [splitSeq, hFirst, SplitUbatch.none]
  | some cur =>
    have hLen := (a.seqLoop_mem nUbatch
      (range' (cur + 1) (a.batch.nTokens - (cur + 1))) (a.batch.seqSet cur) 1).2.2
    simp only [splitSeq, hFirst, ubatchAdd_idxs, length_cons]
    omega

theorem curSeqSets_eq_nil (sequential : Bool) :
    a.curSeqSets nUbatch sequential = [] ↔ ∀ i < a.batch.nTokens, i ∈ a.used := by
  obtain ⟨toks, bound, hEq, hBound, hScan, hEnd⟩ := a.curSeqSets_spec nUbatch sequential
  rw [hEq, map_eq_nil_iff]
  constructor
  · rintro rfl i hi
    rcases hEnd with ⟨rfl, -⟩ | hFull
    · by_contra hUnused
      have := hScan.passed i hi hUnused
      simp at this
    · simp at hFull
  intro hAll
  refine eq_nil_iff_forall_not_mem.mpr fun t ht => ?_
  obtain ⟨hLt, hUnused⟩ := hScan.unused t ht
  exact hUnused (hAll t (lt_of_lt_of_le hLt hBound))

theorem curSeqSets_apart (sequential : Bool) :
    (a.curSeqSets nUbatch sequential).Pairwise fun S T => S ∩ T = ∅ := by
  obtain ⟨toks, bound, hEq, -, hScan, -⟩ := a.curSeqSets_spec nUbatch sequential
  rw [hEq]
  exact pairwise_map.mpr hScan.apart

variable {sequential : Bool} {nKeepTail : Nat}

theorem EqualCall.equalBlocks (hUsed : SetsUsed a) {m : Nat}
    {sets : List (Finset Nat)} (h : EqualCall a nUbatch sequential nKeepTail sets m) :
    EqualBlocks a.batch ((a.mark (a.blocks sets m)).ubatchAdd (a.blocks sets m) sets.length
      true).1 := by
  have hLen := blocks_length h.enough
  have hPer : (a.blocks sets m).length / sets.length = m := by
    rw [hLen]
    exact Nat.mul_div_cancel_left m (length_pos_iff.mpr h.nonempty)
  have hSet : ∀ S, ∀ i ∈ (a.remaining S).take m, a.batch.seqSet i = S := fun S i hi =>
    ((mem_remaining hUsed).mp (mem_of_mem_take hi)).2.1
  refine ⟨?_, sets.map fun S => (a.remaining S).take m, ?_, ?_, ?_, ?_⟩
  · change (a.blocks sets m).length = sets.length * ((a.blocks sets m).length / sets.length)
    rw [hPer, hLen]
  · exact flatMap_def
  · exact length_map _
  · intro B hB
    obtain ⟨S, hS, rfl⟩ := mem_map.mp hB
    refine ⟨?_, S, hSet S⟩
    change _ = (a.blocks sets m).length / sets.length
    rw [hPer, length_take]
    exact Nat.min_eq_left (h.enough S hS)
  refine pairwise_map.mpr (((curSeqSets_apart sequential).sublist h.admitted.sublist).imp
    fun hApart i hi j hj => ?_)
  rw [hSet _ i hi, hSet _ j hj]
  exact hApart

theorem call_equal
    (hOk : ModeOk a.batch nUbatch (.equal sequential nKeepTail)) (hInv : SetsUsed a ∧ Owned a) :
    ∃ u a', Call a nUbatch (.equal sequential nKeepTail) u a' := by
  have hCpl := hOk.uncoupled
  by_cases hNone : a.curSeqSets nUbatch sequential = []
  · refine ⟨.none, a, emits_nothing a, ?_, hInv, ?_, ?_, ?_⟩
    · simp [split, splitEqual, hNone]
    · rw [← curSeqSets_eq_nil sequential]
      exact iff_of_true rfl hNone
    · refine iff_of_true (Nat.zero_le _) (Or.inl ?_)
      rw [hNone]
      exact Nat.zero_le _
    · exact ⟨rfl, [], rfl, rfl, by simp, List.Pairwise.nil⟩
  obtain ⟨sets, m, h, -⟩ := splitEqual_spec hInv.1 hInv.2 hCpl hOk.1 hNone
  have hNodup : sets.Nodup := (curSeqSets_nodup hInv.2 nUbatch sequential).sublist
    h.admitted.sublist
  have hFresh : ∀ i ∈ a.blocks sets m, i < a.batch.nTokens ∧ i ∉ a.used :=
    fun i hi => (mem_blocks hInv.1 hi).2
  have hEmits := emits_add sets.length true hFresh (blocks_nodup hInv.1 hNodup m)
  have hLen := blocks_length h.enough
  refine ⟨_, _, hEmits, h.result, ⟨blocks_setsUsed hInv.1 rfl hEmits.used, hInv.2⟩, ?_, ?_,
    h.equalBlocks hInv.1⟩
  · refine iff_of_false ?_ (fun hAll => hNone ((curSeqSets_eq_nil sequential).mpr hAll))
    intro hNil
    rw [ubatchAdd_idxs] at hNil
    rw [hNil, length_nil] at hLen
    have hPos := Nat.mul_pos (length_pos_iff.mpr h.nonempty) h.pos
    omega
  · rw [ubatchAdd_idxs, hLen]
    exact h.fits

theorem call_any {mode : SplitMode} (hn : 1 ≤ nUbatch) (hOk : ModeOk a.batch nUbatch mode)
    (hInv : ModeInv a mode) : ∃ u a', Call a nUbatch mode u a' := by
  cases mode with
  | simple => exact call_simple hn hInv
  | equal sequential nKeepTail => exact call_equal hOk hInv
  | seq => exact call_seq hn

end Calls

/-! ## Calls until nothing is left -/

/-- The allocator before each call of a run. -/
inductive Reached (mode : SplitMode) (nUbatch : Nat) : BatchAllocr → BatchAllocr → Prop
  | start (a : BatchAllocr) : Reached mode nUbatch a a
  | call {a a₁ a' : BatchAllocr} {u : SplitUbatch} : a.split nUbatch mode = .ok (u, a₁) →
      u.nTokens ≠ 0 → Reached mode nUbatch a₁ a' → Reached mode nUbatch a a'

/-- No call of a run admits one sequence set too many. -/
def RunFits (a : BatchAllocr) (nUbatch : Nat) (mode : SplitMode) : Prop :=
  ∀ a', Reached mode nUbatch a a' → CallFits a' nUbatch mode

/-- The batch indices of a list of micro-batches in the order they come out. -/
def emitted (us : List SplitUbatch) : List Nat := us.flatMap fun u => u.idxs

def unused (a : BatchAllocr) : Finset Nat := Finset.range a.batch.nTokens \ a.used

/-- A run that hands out the unused tokens. -/
structure Handed (a : BatchAllocr) (nUbatch : Nat) (mode : SplitMode) (us : List SplitUbatch)
    (a' : BatchAllocr) : Prop where
  nodup : (emitted us).Nodup
  mem : ∀ i, i ∈ emitted us ↔ i ∈ a.unused
  sizes : ∀ u ∈ us, u.nTokens = u.idxs.length ∧ 1 ≤ u.nTokens
  blocks : ∀ u ∈ us, ModeBlocks a.batch u mode
  nUsed : a'.nUsed = a.nUsed + (emitted us).length
  outIds : a'.outIds = a.outIds ++ (emitted us).filter a.batch.logits
  fits : (∀ u ∈ us, u.nTokens ≤ nUbatch) ↔ RunFits a nUbatch mode

section Runs

variable {a : BatchAllocr} {nUbatch : Nat} {mode : SplitMode}

variable {u : SplitUbatch} {a₁ : BatchAllocr}

theorem runFits_iff (hSplit : a.split nUbatch mode = .ok (u, a₁)) :
    RunFits a nUbatch mode ↔
      CallFits a nUbatch mode ∧ (u.nTokens ≠ 0 → RunFits a₁ nUbatch mode) := by
  constructor
  · exact fun h => ⟨h a (.start a), fun hSome a' hTail => h a' (.call hSplit hSome hTail)⟩
  rintro ⟨hFirst, hRest⟩ a' hReached
  cases hReached with
  | start => exact hFirst
  | call hCall hSome hTail =>
    rw [hSplit] at hCall
    cases hCall
    exact hRest hSome a' hTail

theorem unused_eq_empty : a.unused = ∅ ↔ ∀ i < a.batch.nTokens, i ∈ a.used := by
  rw [unused, sdiff_eq_empty_iff_subset]
  exact ⟨fun h i hi => h (Finset.mem_range.mpr hi), fun h i hi => h i (Finset.mem_range.mp hi)⟩

theorem Emits.unused (h : Emits a u a₁) : a₁.unused = a.unused \ u.idxs.toFinset := by
  rw [BatchAllocr.unused, BatchAllocr.unused, h.batch, h.used, sdiff_union_distrib]
  ext i
  simp only [mem_inter, mem_sdiff]
  tauto

theorem Emits.unused_card_lt (h : Emits a u a₁)
    (hSome : u.idxs ≠ []) : a₁.unused.card < a.unused.card := by
  obtain ⟨i, hi⟩ := exists_mem_of_ne_nil _ hSome
  refine card_lt_card ⟨?_, fun hSub => ?_⟩
  · rw [h.unused]
    exact sdiff_subset
  obtain ⟨hLt, hFree⟩ := h.fresh i hi
  have hIn := hSub (Finset.mem_sdiff.mpr ⟨Finset.mem_range.mpr hLt, hFree⟩)
  rw [h.unused, mem_sdiff, mem_toFinset] at hIn
  exact hIn.2 hi

theorem Call.last (h : Call a nUbatch mode u a₁)
    (hNil : u.idxs = []) : Handed a nUbatch mode [] a₁ where
  nodup := nodup_nil
  mem i := by
    rw [unused_eq_empty.mpr (h.empty.mp hNil)]
    simp [emitted]
  sizes u hu := by cases hu
  blocks u hu := by cases hu
  nUsed := by rw [h.nUsed, hNil]; rfl
  outIds := by rw [h.outIds, hNil]; rfl
  fits := by
    have hZero : u.nTokens = 0 := by rw [h.count, hNil, length_nil]
    have hFits : CallFits a nUbatch mode := h.fits.mp (by rw [hNil]; exact Nat.zero_le _)
    rw [runFits_iff h.result]
    exact iff_of_true (by simp) ⟨hFits, fun hSome => absurd hZero hSome⟩

/-- A call that hands out something goes before the rest of the run. -/
theorem Call.followed {a' : BatchAllocr} {us : List SplitUbatch}
    (h : Call a nUbatch mode u a₁) (hSome : u.idxs ≠ []) (hRest : Handed a₁ nUbatch mode us a') :
    Handed a nUbatch mode (u :: us) a' := by
  have hEmitted : emitted (u :: us) = u.idxs ++ emitted us := flatMap_cons
  have hLater : ∀ i ∈ emitted us, i ∈ a.unused ∧ i ∉ u.idxs := by
    intro i hi
    have hUnused := (hRest.mem i).mp hi
    rw [h.unused, mem_sdiff, mem_toFinset] at hUnused
    exact hUnused
  have hPos : 1 ≤ u.nTokens := by
    rw [h.count]
    exact length_pos_iff.mpr hSome
  refine ⟨?_, ?_, ?_, ?_, ?_, ?_, ?_⟩
  · exact nodup_append'.mpr ⟨h.nodup, hRest.nodup, fun i hi hi' => (hLater i hi').2 hi⟩
  · intro i
    rw [hEmitted, mem_append]
    constructor
    · rintro (hi | hi)
      · obtain ⟨hLt, hFree⟩ := h.fresh i hi
        exact Finset.mem_sdiff.mpr ⟨Finset.mem_range.mpr hLt, hFree⟩
      · exact (hLater i hi).1
    intro hi
    by_cases hIn : i ∈ u.idxs
    · exact Or.inl hIn
    refine Or.inr ((hRest.mem i).mpr ?_)
    rw [h.unused, mem_sdiff, mem_toFinset]
    exact ⟨hi, hIn⟩
  · exact forall_mem_cons.mpr ⟨⟨h.count, hPos⟩, hRest.sizes⟩
  · exact forall_mem_cons.mpr ⟨h.blocks, h.batch ▸ hRest.blocks⟩
  · rw [hRest.nUsed, h.nUsed, hEmitted, length_append, Nat.add_assoc]
  · rw [hRest.outIds, h.outIds, h.batch, hEmitted, filter_append, append_assoc]
  · rw [List.forall_mem_cons, runFits_iff h.result, hRest.fits, h.count, h.fits, ← h.count]
    exact and_congr_right' ⟨fun hFits _ => hFits, fun hFits => hFits (by omega)⟩

theorem splitAll_handed {fuel : Nat} (hn : 1 ≤ nUbatch) (hOk : ModeOk a.batch nUbatch mode)
    (hInv : ModeInv a mode) (hFuel : a.unused.card < fuel) :
    ∃ us a', splitAll mode nUbatch fuel a = some (us, a') ∧ Handed a nUbatch mode us a' := by
  -- every call but the last shrinks the unused tokens, which the counter bounds
  induction fuel generalizing a with
  | zero => exact absurd hFuel (Nat.not_lt_zero _)
  | succ fuel ih =>
    obtain ⟨u, a₁, hCall⟩ := call_any hn hOk hInv
    by_cases hNil : u.idxs = []
    · refine ⟨[], a₁, ?_, hCall.last hNil⟩
      have hZero : u.nTokens = 0 := by rw [hCall.count, hNil, length_nil]
      simp only [splitAll, hCall.result, hZero, if_true]
    have hLess := hCall.unused_card_lt hNil
    obtain ⟨us, a', hRun, hHanded⟩ := ih (hCall.batch ▸ hOk) hCall.inv (by omega)
    refine ⟨u :: us, a', ?_, hCall.followed hNil hHanded⟩
    have hSome : u.nTokens ≠ 0 := by
      rw [hCall.count]
      exact fun hZero => hNil (length_eq_zero_iff.mp hZero)
    simp only [splitAll, hCall.result, hSome, if_false, hRun, Option.map_some]

end Runs

/-! ## A batch that `init` accepted -/

section Accepted

variable {inp : LlamaBatch} {nVocab nPosPerEmbd nSeqMax : Nat} {memory : Option BatchMemory}
  {outputAll : Bool} {a : BatchAllocr}

theorem ok_of_bind {α β : Type} {x : Except BatchError α} {f : α → Except BatchError β} {r : β}
    (h : (x >>= f) = .ok r) : ∃ v, x = .ok v ∧ f v = .ok r := by
  cases x with
  | error e => cases h
  | ok v => exact ⟨v, rfl, h⟩

section

variable (h : init inp nVocab memory nPosPerEmbd nSeqMax outputAll = .ok a)

include h

/-- `init` only fills in the batch; its last check is the one on positions. -/
theorem init_ok :
    a = { batch := inp.fill memory nPosPerEmbd nSeqMax outputAll } ∧
      ∃ c, a.batch.checkSubsets = .ok c := by
  unfold init at h
  dsimp only at h
  split at h
  · cases h
  split at h
  · cases h
  obtain ⟨-, -, h⟩ := ok_of_bind h
  obtain ⟨-, -, h⟩ := ok_of_bind h
  obtain ⟨-, -, h⟩ := ok_of_bind h
  obtain ⟨-, -, h⟩ := ok_of_bind h
  obtain ⟨c, hSubsets, h⟩ := ok_of_bind h
  cases h
  exact ⟨rfl, c, hSubsets⟩

theorem init_owned : Owned a := by
  obtain ⟨rfl, -⟩ := init_ok h
  intro i hi
  change ((inp.fillSeqId i).toFinset).Nonempty
  unfold LlamaBatch.fillSeqId
  cases hSeq : inp.seqId with
  | none => simp
  | some f =>
    have hSome := inp.owned f hSeq i hi
    simpa using hSome

theorem init_modeInv (mode : SplitMode) : ModeInv a mode := by
  have hUsed : a.used = ∅ := by rw [(init_ok h).1]
  cases mode with
  | simple => exact fun i j _ hj => absurd hj (by simp [hUsed])
  | equal sequential nKeepTail =>
    exact ⟨fun i j _ _ _ hj => absurd hj (by simp [hUsed]), init_owned h⟩
  | seq => trivial

end

/-- The micro-batches hand out every token once, none of them empty or too large, the blocks of an
equal split equally long. -/
structure BoundedPartition (a : BatchAllocr) (nUbatch : Nat) (mode : SplitMode)
    (us : List SplitUbatch) (a' : BatchAllocr) : Prop where
  once : (emitted us).Perm (List.range a.batch.nTokens)
  sizes : ∀ u ∈ us, u.nTokens = u.idxs.length ∧ 1 ≤ u.nTokens ∧ u.nTokens ≤ nUbatch
  blocks : ∀ u ∈ us, ModeBlocks a.batch u mode
  nUsed : a'.nUsed = a.batch.nTokens
  outIds : a'.outIds = (emitted us).filter a.batch.logits

/-- A run from an accepted batch ends and hands out every token once.  Its
micro-batches are within `n_ubatch` exactly when no call admits one sequence set
too many. -/
theorem splitAll_boundedPartition_iff
    (hInit : init inp nVocab memory nPosPerEmbd nSeqMax outputAll = .ok a) {nUbatch : Nat}
    (hn : 1 ≤ nUbatch) {mode : SplitMode} (hOk : ModeOk a.batch nUbatch mode) :
    ∃ us a', splitAll mode nUbatch (a.batch.nTokens + 1) a = some (us, a') ∧
      (BoundedPartition a nUbatch mode us a' ↔ RunFits a nUbatch mode) := by
  have hFresh : a.nUsed = 0 ∧ a.outIds = [] ∧ a.unused = Finset.range a.batch.nTokens := by
    rw [(init_ok hInit).1]
    exact ⟨rfl, rfl, sdiff_empty⟩
  obtain ⟨hCount, hOut, hUnused⟩ := hFresh
  have hFuel : a.unused.card < a.batch.nTokens + 1 := by
    rw [hUnused, card_range]
    exact Nat.lt_succ_self _
  obtain ⟨us, a', hRun, hHanded⟩ := splitAll_handed hn hOk (init_modeInv hInit mode) hFuel
  have hOnce : (emitted us).Perm (range a.batch.nTokens) := by
    refine (perm_ext_iff_of_nodup hHanded.nodup nodup_range).mpr fun i => ?_
    rw [hHanded.mem, hUnused, Finset.mem_range, List.mem_range]
  refine ⟨us, a', hRun, fun h => hHanded.fits.mp fun u hu => (h.sizes u hu).2.2, fun hFits => ?_⟩
  have hSmall := hHanded.fits.mpr hFits
  refine ⟨hOnce, fun u hu => ?_, hHanded.blocks, ?_, ?_⟩
  · exact ⟨(hHanded.sizes u hu).1, (hHanded.sizes u hu).2, hSmall u hu⟩
  · rw [hHanded.nUsed, hCount, hOnce.length_eq, length_range, Nat.zero_add]
  · rw [hHanded.outIds, hOut, nil_append]

/-- Two tokens of the sequences 0 and 1 at position 0. -/
def twoSeqs : LlamaBatch where
  nTokens := 2
  pos := some fun _ => 0
  seqId := some fun i => [(i : Int)]
  owned f hf i _ := by
    cases hf
    simp

/-- An equal split of `twoSeqs` in micro-batches of one token makes one of two. -/
theorem twoSeqs_overfull : ∃ a us a', init twoSeqs 1 none 1 2 false = .ok a ∧
    splitAll (.equal false 0) 1 3 a = some (us, a') ∧ us.map (fun u => u.nTokens) = [2] ∧
      ¬ BoundedPartition a 1 (.equal false 0) us a' := by
  refine ⟨_, _, _, rfl, rfl, rfl, fun h => ?_⟩
  have hSize := (h.sizes _ (List.mem_singleton_self _)).2.2
  exact absurd hSize (by decide)

/-- Micro-batches of two tokens are enough for `twoSeqs`. -/
theorem twoSeqs_boundedPartition : ∃ a, init twoSeqs 1 none 1 2 false = .ok a ∧
    ∃ us a', splitAll (.equal false 0) 2 3 a = some (us, a') ∧
      (BoundedPartition a 2 (.equal false 0) us a' ↔ RunFits a 2 (.equal false 0)) := by
  have hOk : ModeOk (twoSeqs.fill none 1 2 false) 2 (.equal false 0) :=
    ⟨fun h => absurd rfl h, fun h => by cases h⟩
  have hInit : init twoSeqs 1 none 1 2 false = .ok { batch := twoSeqs.fill none 1 2 false } := rfl
  have hSize : 1 ≤ 2 := by decide
  exact ⟨_, hInit, splitAll_boundedPartition_iff hInit hSize hOk⟩

end Accepted

end BatchAllocr

end Beellama.Ports
