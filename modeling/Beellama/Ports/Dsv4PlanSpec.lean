import Beellama.Ports.Dsv4Plan
import Beellama.Verified.ExceptFold
import Beellama.Verified.RingBuffer

/-!
# What the loop of `dsv4_build_comp_plan` collects

For a micro-batch whose sequences all have a stream, the loop over the tokens
returns.  It has collected the writes to the ring (`ringWrites`), of which it keeps the
latest for each slot, and the completed blocks (`tokenBlocks`).
-/

namespace Beellama.Ports

open Beellama.Verified List

variable {s : Nat}

theorem streamOffset_eq {nStream : Nat} (hs : s < nStream) (size : Nat) :
    streamOffset nStream s size = .ok (s * size) := by
  unfold streamOffset
  by_cases hOne : nStream ≤ 1
  · have hZero : s = 0 := by omega
    rw [if_pos hOne, hZero, Nat.zero_mul]
  · rw [if_neg hOne, if_neg (not_le.mpr hs)]

/-- A block, as it is planned. -/
structure PlanBlock where
  dst : Nat
  pos : Int
  prev : List Nat
  cur : List Nat
  deriving DecidableEq, Repr

namespace PlanArgs

variable (a : PlanArgs) (u : SplitUbatch)

/-- The source index, for a sequence that has a stream. -/
def sourceOf (s : Nat) (pos : Int) : Nat :=
  if pos < 0 then a.stateRows + u.nTokens
  else
    match u.tokenAt s pos with
    | some i => a.stateRows + i
    | none => s * a.stateSize + pos.toNat % a.stateSize

def windowOf (s : Nat) (start : Int) : List Nat :=
  (List.range a.ratio).map fun j => a.sourceOf u s (start + j)

/-- The writes of token `i` to the ring. -/
def ringWrites (i : Nat) : List PersistRow :=
  if u.posAt i < 0 then []
  else (u.seqsAt i).map fun s => ⟨s * a.stateSize + (u.posAt i).toNat % a.stateSize, i, u.posAt i⟩

/-- Token `i` is the last one of a block. -/
def Completes (i : Nat) : Prop := 0 ≤ u.posAt i ∧ (u.posAt i + 1) % a.ratio = 0

instance (i : Nat) : Decidable (a.Completes u i) := inferInstanceAs (Decidable (_ ∧ _))

/-- The block of a sequence that token `i` completes. -/
def completedBlock (s i : Nat) : PlanBlock where
  dst := s * a.kvSize + (u.posAt i / a.ratio).toNat
  pos := u.posAt i + 1 - a.ratio
  prev := a.windowOf u s (u.posAt i + 1 - a.ratio - a.ratio)
  cur := a.windowOf u s (u.posAt i + 1 - a.ratio)

/-- The blocks that token `i` completes, with their sequences. -/
def tokenBlocks (i : Nat) : List (Nat × PlanBlock) :=
  if a.Completes u i then (u.seqsAt i).map fun s => (s, a.completedBlock u s i) else []

/-- What the loop has collected: writes to the ring, blocks, and completed blocks by
sequence. -/
def accOf (writes : List PersistRow) (blocks : List PlanBlock) (counts : Nat → Nat) : PlanAcc where
  persistRows := writes.foldl (fun rows row => persist row rows) []
  readIdxs := if a.overlap then [] else blocks.flatMap PlanBlock.cur
  prevReads := if a.overlap then blocks.flatMap PlanBlock.prev else []
  curReads := if a.overlap then blocks.flatMap PlanBlock.cur else []
  writeIdxs := blocks.map PlanBlock.dst
  writePos := blocks.map PlanBlock.pos
  counts := counts

variable {a u}

variable (hs : s < a.nStream)

include hs

theorem sourceIdx_eq (pos : Int) : a.sourceIdx u s pos = .ok (a.sourceOf u s pos) := by
  unfold sourceIdx sourceOf
  by_cases hNeg : pos < 0
  · rw [if_pos hNeg, if_pos hNeg]
  rw [if_neg hNeg, if_neg hNeg]
  cases u.tokenAt s pos with
  | some i => rfl
  | none =>
    rw [streamOffset_eq hs]
    rfl

theorem window_eq (start : Int) : a.window u s start = .ok (a.windowOf u s start) :=
  mapM_eq_ok fun _ _ => sourceIdx_eq hs _

variable {i : Nat}

/-- One sequence of a token adds its write and its block. -/
theorem planSeq_accOf (hPos : 0 ≤ u.posAt i)
    (writes : List PersistRow) (blocks : List PlanBlock) (counts : Nat → Nat) :
    a.planSeq u i (a.accOf writes blocks counts) s =
      .ok (a.accOf
        (writes ++ [⟨s * a.stateSize + (u.posAt i).toNat % a.stateSize, i, u.posAt i⟩])
        (blocks ++ if a.Completes u i then [a.completedBlock u s i] else [])
        (if a.Completes u i then Function.update counts s (counts s + 1) else counts)) := by
  unfold planSeq
  simp only [streamOffset_eq hs, window_eq hs]
  dsimp only [bind, Except.bind, pure, Except.pure]
  by_cases hEnd : (u.posAt i + 1) % a.ratio = 0
  · have hCompletes : a.Completes u i := ⟨hPos, hEnd⟩
    rw [if_neg (not_not.mpr hEnd), if_pos hCompletes, if_pos hCompletes]
    unfold accOf PlanAcc.addBlock completedBlock
    cases a.overlap <;> simp [foldl_append]
  have hCompletes : ¬a.Completes u i := fun h => hEnd h.2
  rw [if_pos hEnd, if_neg hCompletes, if_neg hCompletes, append_nil]
  unfold accOf
  rw [foldl_append]
  rfl

/-- The same, with the completed blocks that are counted. -/
def accWith (a : PlanArgs) (writes : List PersistRow) (blocks : List (Nat × PlanBlock)) : PlanAcc :=
  a.accOf writes (blocks.map Prod.snd) fun s => (blocks.map Prod.fst).count s

theorem planSeq_accWith (hPos : 0 ≤ u.posAt i)
    (writes : List PersistRow) (blocks : List (Nat × PlanBlock)) :
    a.planSeq u i (a.accWith writes blocks) s =
      .ok (a.accWith
        (writes ++ [⟨s * a.stateSize + (u.posAt i).toNat % a.stateSize, i, u.posAt i⟩])
        (blocks ++ if a.Completes u i then [(s, a.completedBlock u s i)] else [])) := by
  unfold accWith
  rw [planSeq_accOf hs hPos]
  by_cases hCompletes : a.Completes u i
  · simp only [if_pos hCompletes, map_append, map_cons, map_nil]
    congr 2
    funext t
    by_cases ht : t = s
    · subst ht
      simp
    · rw [Function.update_of_ne ht]
      simp [Ne.symm ht]
  · simp only [if_neg hCompletes, append_nil]

omit hs

/-- What the loop has collected after the tokens of a list. -/
def accAfter (a : PlanArgs) (u : SplitUbatch) (toks : List Nat) : PlanAcc :=
  a.accWith (toks.flatMap (a.ringWrites u)) (toks.flatMap (a.tokenBlocks u))

theorem planToken_eq {toks : List Nat} (hs : ∀ s ∈ u.seqsAt i, s < a.nStream) :
    a.planToken u (a.accAfter u toks) i = .ok (a.accAfter u (toks ++ [i])) := by
  unfold planToken accAfter
  simp only [flatMap_append, flatMap_cons, flatMap_nil, append_nil]
  by_cases hNeg : u.posAt i < 0
  · have hWrites : a.ringWrites u i = [] := if_pos hNeg
    have hBlocks : a.tokenBlocks u i = [] := if_neg fun h => absurd h.1 (not_le.mpr hNeg)
    rw [if_pos hNeg, hWrites, hBlocks, append_nil, append_nil]
  have hPos : 0 ≤ u.posAt i := not_lt.mp hNeg
  rw [if_neg hNeg]
  -- what is collected after some of the token's sequences
  have hLoop := foldlM_eq_ok (f := a.planSeq u i) (l := u.seqsAt i)
    (G := fun visited => a.accWith
      (toks.flatMap (a.ringWrites u) ++ visited.map fun s =>
        ⟨s * a.stateSize + (u.posAt i).toNat % a.stateSize, i, u.posAt i⟩)
      (toks.flatMap (a.tokenBlocks u) ++
        if a.Completes u i then visited.map fun s => (s, a.completedBlock u s i) else []))
    fun visited s rest hSplit => by
      have hIn : s < a.nStream := hs s (by rw [hSplit]; simp)
      rw [planSeq_accWith hIn hPos]
      by_cases hCompletes : a.Completes u i
      · simp only [if_pos hCompletes, map_append, map_cons, map_nil,
          append_assoc]
      · simp only [if_neg hCompletes, map_append, map_cons, map_nil,
          append_assoc, append_nil]
  simp only [map_nil, ite_self, append_nil] at hLoop
  rw [hLoop]
  have hWrites : a.ringWrites u i = _ := if_neg hNeg
  rw [hWrites]
  rfl

/-- The sequences of the tokens have streams. -/
def SeqsIn (a : PlanArgs) (u : SplitUbatch) : Prop :=
  ∀ i < u.nTokens, ∀ s ∈ u.seqsAt i, s < a.nStream

theorem planLoop_eq (h : a.SeqsIn u) :
    (range u.nTokens).foldlM (a.planToken u) {} =
      .ok (a.accAfter u (range u.nTokens)) := by
  have hStart : a.accAfter u [] = {} := by
    unfold accAfter accWith accOf
    cases a.overlap <;> rfl
  rw [← hStart]
  refine foldlM_eq_ok (G := a.accAfter u) fun visited i rest hSplit => planToken_eq ?_
  exact h i (mem_range.mp (by rw [hSplit]; simp))

end PlanArgs

end Beellama.Ports
