import Beellama.Ports.BatchPartition
import Mathlib.Data.List.Sort

/-!
# The tails of the sequence sets (`n_keep_tail`)

With a positive `n_keep_tail` an equal split hands out a set whole or leaves it at least that many
tokens, so the call that hands out its last token hands out its whole tail (`splitAll_tails`).  A
sequential split of coupled sequences hands out nothing (`coupled_refused`).
-/

namespace Beellama.Ports

open List

namespace BatchAllocr

/-- The last `n` tokens of a sequence set, all of them where it has no more. -/
def lastTokens (b : FullBatch) (n : Nat) (S : Finset Nat) : List Nat :=
  (b.seqSetMap S).drop ((b.seqSetMap S).length - n)

/-- Every sequence set has nothing left, or its tail is. -/
def TailsWhole (a : BatchAllocr) (nKeepTail : Nat) : Prop :=
  ∀ S, a.remaining S = [] ∨
    min nKeepTail (a.batch.seqSetMap S).length ≤ (a.remaining S).length

section KeepTail

variable {a a' : BatchAllocr} {nUbatch nKeepTail m : Nat} {sequential : Bool}
  {sets : List (Finset Nat)}

theorem remaining_suffix (a : BatchAllocr) (S : Finset Nat) :
    a.remaining S <:+ a.batch.seqSetMap S :=
  dropWhile_suffix _

variable {S : Finset Nat}

theorem lastTokens_subset (hTails : TailsWhole a nKeepTail)
    (hSome : a.remaining S ≠ []) : lastTokens a.batch nKeepTail S ⊆ a.remaining S := by
  have hLength := (hTails S).resolve_left hSome
  have hSuffix : lastTokens a.batch nKeepTail S <:+ a.remaining S := by
    apply suffix_of_suffix_length_le (drop_suffix _ _) (remaining_suffix a S)
    rw [length_drop]
    omega
  exact hSuffix.subset

/-- The blocks handed out are gone, the other sets keep what they had. -/
theorem remaining_mark (hUsed : SetsUsed a) (hBatch : a'.batch = a.batch)
    (hMarked : a'.used = a.used ∪ (a.blocks sets m).toFinset)
    (S : Finset Nat) :
    a'.remaining S = if S ∈ sets then (a.remaining S).drop m else a.remaining S := by
  have hUsed' : SetsUsed a' := blocks_setsUsed hUsed hBatch hMarked
  have hSorted := a.remaining_sorted S
  have hMem : ∀ i, i ∈ a'.remaining S ↔ i ∈ a.remaining S ∧ i ∉ a.blocks sets m := by
    intro i
    rw [mem_remaining hUsed', mem_remaining hUsed, hBatch, hMarked, Finset.mem_union,
      mem_toFinset]
    tauto
  have hBlock : ∀ i ∈ a.remaining S, (i ∈ a.blocks sets m ↔ S ∈ sets ∧ i ∈ (a.remaining S).take m) := by
    intro i hi
    have hSet := ((mem_remaining hUsed).mp hi).2.1
    constructor
    · intro hIn
      obtain ⟨T, hT, hTake⟩ := mem_flatMap.mp hIn
      have hSame : T = S := ((mem_remaining hUsed).mp (mem_of_mem_take hTake)).2.1.symm.trans hSet
      exact hSame ▸ ⟨hT, hTake⟩
    · rintro ⟨hS, hTake⟩
      exact mem_flatMap.mpr ⟨S, hS, hTake⟩
  split
  next hS =>
    apply (a'.remaining_sorted S).eq_of_mem_iff (hSorted.sublist (drop_sublist m _))
    intro i
    rw [hMem]
    have hNodup := hSorted.imp Nat.ne_of_lt
    rw [← take_append_drop m (a.remaining S)] at hNodup
    have hApart := (nodup_append.mp hNodup).2.2
    constructor
    · rintro ⟨hi, hNot⟩
      rw [← take_append_drop m (a.remaining S)] at hi
      refine (mem_append.mp hi).resolve_left fun hTake => hNot ?_
      exact (hBlock i (mem_of_mem_take hTake)).mpr ⟨hS, hTake⟩
    intro hDrop
    refine ⟨mem_of_mem_drop hDrop, fun hIn => ?_⟩
    have hTake := ((hBlock i (mem_of_mem_drop hDrop)).mp hIn).2
    exact hApart i hTake i hDrop rfl
  next hS =>
    apply (a'.remaining_sorted S).eq_of_mem_iff hSorted
    intro i
    rw [hMem]
    exact ⟨fun h => h.1, fun h => ⟨h, fun hIn => hS ((hBlock i h).mp hIn).1⟩⟩

/-- An equal split keeps the tails whole, and a set that it leaves nothing gets its tail in one
block. -/
theorem tails_mark (hUsed : SetsUsed a)
    (hLeft : ∀ S ∈ sets, m = (a.remaining S).length ∨ m + nKeepTail ≤ (a.remaining S).length)
    (hTails : TailsWhole a nKeepTail) (hBatch : a'.batch = a.batch)
    (hMarked : a'.used = a.used ∪ (a.blocks sets m).toFinset) :
    TailsWhole a' nKeepTail ∧ ∀ S, a.remaining S ≠ [] → a'.remaining S ≠ [] ∨
      lastTokens a.batch nKeepTail S ⊆ a.blocks sets m := by
  have hAfter := remaining_mark hUsed hBatch hMarked
  constructor
  · intro S
    rw [hAfter S, hBatch]
    split
    next hS =>
      rcases hLeft S hS with hWhole | hTail
      · left
        rw [hWhole, drop_length]
      · rw [length_drop]
        omega
    next => exact hTails S
  intro S hSome
  rw [hAfter S]
  by_cases hS : S ∈ sets
  · rw [if_pos hS]
    rcases hLeft S hS with hWhole | hTail
    · right
      intro i hi
      refine mem_flatMap.mpr ⟨S, hS, ?_⟩
      rw [hWhole, take_length]
      exact lastTokens_subset hTails hSome hi
    by_cases hZero : nKeepTail = 0
    · right
      intro i hi
      rw [lastTokens, hZero, Nat.sub_zero, drop_length] at hi
      exact absurd hi not_mem_nil
    left
    have hPos : 0 < ((a.remaining S).drop m).length := by
      rw [length_drop]
      omega
    exact length_pos_iff.mp hPos
  · rw [if_neg hS]
    exact Or.inl hSome

/-- A call that hands out something keeps the tails whole or hands them out whole. -/
theorem Call.tails {u : SplitUbatch}
    (hOk : ModeOk a.batch nUbatch (.equal sequential nKeepTail)) (hInv : SetsUsed a ∧ Owned a)
    (h : Call a nUbatch (.equal sequential nKeepTail) u a') (hTails : TailsWhole a nKeepTail) :
    TailsWhole a' nKeepTail ∧ ∀ S, a.remaining S ≠ [] → a'.remaining S ≠ [] ∨
      ∀ i ∈ lastTokens a.batch nKeepTail S, i ∈ u.idxs := by
  have hCpl := hOk.uncoupled
  by_cases hNone : a.curSeqSets nUbatch sequential = []
  · have hResult := h.result
    simp only [split, splitEqual, hCpl, hNone] at hResult
    cases hResult
    exact ⟨hTails, fun S hSome => Or.inl hSome⟩
  obtain ⟨sets, m, hEqual, hLeft⟩ := splitEqual_spec hInv.1 hInv.2 hCpl hOk.1 hNone
  have hResult := h.result
  rw [split, hEqual.result] at hResult
  cases hResult
  exact tails_mark hInv.1 hLeft hTails rfl rfl

/-- The calls until nothing is left hand out each tail in one micro-batch. -/
theorem splitAll_tails {fuel : Nat} (hn : 1 ≤ nUbatch)
    (hOk : ModeOk a.batch nUbatch (.equal sequential nKeepTail)) (hInv : SetsUsed a ∧ Owned a)
    (hTails : TailsWhole a nKeepTail) {us : List SplitUbatch}
    (hRun : splitAll (.equal sequential nKeepTail) nUbatch fuel a = some (us, a'))
    (hSome : a.remaining S ≠ []) : ∃ u ∈ us, ∀ i ∈ lastTokens a.batch nKeepTail S, i ∈ u.idxs := by
  induction fuel generalizing a us with
  | zero => cases hRun
  | succ fuel ih =>
    obtain ⟨u, a₁, hCall⟩ := call_any hn hOk hInv
    obtain ⟨hTails', hHanded⟩ := hCall.tails hOk hInv hTails
    unfold splitAll at hRun
    rw [hCall.result] at hRun
    dsimp only at hRun
    by_cases hZero : u.nTokens = 0
    · have hNil : u.idxs = [] := length_eq_zero_iff.mp (hCall.count ▸ hZero)
      obtain ⟨i, hi⟩ := exists_mem_of_ne_nil _ hSome
      obtain ⟨hLt, -, hFree⟩ := (mem_remaining hInv.1).mp hi
      exact absurd (hCall.empty.mp hNil i hLt) hFree
    rw [if_neg hZero] at hRun
    obtain ⟨⟨rest, a₂⟩, hRest, hEq⟩ := Option.map_eq_some_iff.mp hRun
    obtain ⟨rfl, rfl⟩ := hEq
    rcases hHanded S hSome with hLater | hNow
    · obtain ⟨v, hv, hTail⟩ := ih (hCall.batch ▸ hOk) hCall.inv hTails' hRest hLater
      exact ⟨v, mem_cons_of_mem _ hv, hCall.batch ▸ hTail⟩
    · exact ⟨u, mem_cons_self, hNow⟩

/-- The allocator before any call of a run has the invariants of the first. -/
theorem Reached.inv (hn : 1 ≤ nUbatch) {mode : SplitMode} (hOk : ModeOk a.batch nUbatch mode)
    (hInv : ModeInv a mode) (h : Reached mode nUbatch a a') :
    ModeOk a'.batch nUbatch mode ∧ ModeInv a' mode := by
  induction h with
  | start a => exact ⟨hOk, hInv⟩
  | @call a a₁ a' u hSplit hSome hRest ih =>
    obtain ⟨u₁, a₂, hCall⟩ := call_any hn hOk hInv
    have hResult := hCall.result
    rw [hSplit] at hResult
    cases hResult
    exact ih (hCall.batch ▸ hOk) hCall.inv

end KeepTail

/-! ## A batch that `init` accepted -/

/-- The tails of an accepted batch are handed out whole, and every call hands out something while
there is a token left. -/
structure TailsHonoured (a : BatchAllocr) (nUbatch : Nat) (sequential : Bool) (nKeepTail : Nat)
    (us : List SplitUbatch) : Prop where
  tails : ∀ S, a.batch.seqSetMap S ≠ [] →
    ∃ u ∈ us, ∀ i ∈ lastTokens a.batch nKeepTail S, i ∈ u.idxs
  progress : ∀ a', Reached (.equal sequential nKeepTail) nUbatch a a' → a'.unused ≠ ∅ →
    ∃ u a'', a'.split nUbatch (.equal sequential nKeepTail) = .ok (u, a'') ∧ 1 ≤ u.nTokens

/-- A batch without a sequential split of coupled sequences has its tails honoured. -/
theorem keepTail_honoured {inp : LlamaBatch} {nVocab nPosPerEmbd nSeqMax : Nat}
    {memory : Option BatchMemory} {outputAll : Bool} {a : BatchAllocr}
    (hInit : init inp nVocab memory nPosPerEmbd nSeqMax outputAll = .ok a) {nUbatch nKeepTail : Nat}
    (hTail : nKeepTail < nUbatch) {sequential : Bool}
    (hCoupled : sequential = true → a.batch.hasCpl = false) :
    ∃ us a', splitAll (.equal sequential nKeepTail) nUbatch (a.batch.nTokens + 1) a = some (us, a') ∧
      TailsHonoured a nUbatch sequential nKeepTail us := by
  have hn : 1 ≤ nUbatch := Nat.one_le_of_lt hTail
  have hOk : ModeOk a.batch nUbatch (.equal sequential nKeepTail) := ⟨fun _ => hTail, hCoupled⟩
  have hInv := init_modeInv hInit (.equal sequential nKeepTail)
  have hUsed : a.used = ∅ := by rw [(init_ok hInit).1]
  have hUnused : a.unused.card < a.batch.nTokens + 1 := by
    rw [unused, hUsed, Finset.sdiff_empty, Finset.card_range]
    exact Nat.lt_succ_self _
  have hStart : ∀ S, a.remaining S = a.batch.seqSetMap S := by
    intro S
    unfold remaining startCursor
    rw [hUsed]
    dsimp only
    cases a.batch.seqSetMap S with
    | nil => rfl
    | cons i is => exact dropWhile_cons_of_neg (by simp)
  have hTails : TailsWhole a nKeepTail := by
    intro S
    rw [hStart S]
    exact Or.inr (Nat.min_le_right _ _)
  obtain ⟨us, a', hRun, -⟩ := splitAll_handed hn hOk hInv hUnused
  refine ⟨us, a', hRun, ?_, ?_⟩
  · intro S hSome
    exact splitAll_tails hn hOk hInv hTails hRun (by rw [hStart S]; exact hSome)
  intro a₁ hReached hLeft
  obtain ⟨hOk₁, hInv₁⟩ := hReached.inv hn hOk hInv
  obtain ⟨u, a₂, hCall⟩ := call_any hn hOk₁ hInv₁
  refine ⟨u, a₂, hCall.result, ?_⟩
  rw [hCall.count]
  apply length_pos_iff.mpr
  intro hNil
  exact hLeft (unused_eq_empty.mpr (hCall.empty.mp hNil))

/-- Five tokens of one sequence in micro-batches of four: the last two come out together. -/
def fiveTokens : LlamaBatch where
  nTokens := 5
  pos := none
  seqId := none
  owned f hf i _ := by cases hf

/-- No micro-batch ends inside the last two tokens. -/
theorem fiveTokens_honoured : ∃ a, init fiveTokens 1 none 1 1 false = .ok a ∧ ∃ us a',
    splitAll (.equal true 2) 4 6 a = some (us, a') ∧ TailsHonoured a 4 true 2 us := by
  have hInit : init fiveTokens 1 none 1 1 false = .ok { batch := fiveTokens.fill none 1 1 false } :=
    rfl
  exact ⟨_, hInit, keepTail_honoured hInit (by decide) (by decide)⟩

/-- One token of the sequences 0 and 1. -/
def coupledToken : LlamaBatch where
  nTokens := 1
  pos := some fun _ => 0
  seqId := some fun _ => [0, 1]
  owned f hf i _ := by
    cases hf
    simp

/-- A sequential split refuses a batch with coupled sequences, and its token is never handed out. -/
theorem coupledToken_refused : ∃ a, init coupledToken 1 none 1 2 false = .ok a ∧
    splitAll (.equal true 1) 2 2 a = some ([], a) ∧ a.unused ≠ ∅ ∧
      ¬ TailsHonoured a 2 true 1 [] := by
  refine ⟨{ batch := coupledToken.fill none 1 2 false }, rfl, rfl, by decide, fun h => ?_⟩
  obtain ⟨u, hu, -⟩ := h.tails {0, 1} (by decide)
  exact absurd hu not_mem_nil

end BatchAllocr

end Beellama.Ports
