import Beellama.Verified.Intervals
import Beellama.Verified.OrderedMap
import Mathlib.Tactic.NormNum

/-!
# The n-gram check of the loop guard

`check_ngram_dominance` of `src/tools/server/server-loop-guard.cpp` measures how much of a tail is
covered by n-grams that occur more than once, found through hash buckets.  Exactly those starts are
recorded that share their n-gram with another (`visitStarts_inv`), and the union of the recorded
intervals is what is covered (`coverage_repeatedIntervals`).
-/

namespace Beellama.Ports

open Beellama.Verified List Option Finset

/-- `common_reasoning_loop_guard_params`, as far as the check reads them. -/
structure LoopGuardParams where
  minRepeatedCoverage : Int := 256

/-- `server_loop_guard_result`; the score is the quotient that is rounded to a float. -/
structure LoopGuardResult where
  triggered : Bool := false
  kind : String := ""
  period : Nat := 0
  coverage : Nat := 0
  score : Rat := 0
  deriving DecidableEq

namespace LoopGuard

/-- A value that an `int` holds. -/
def int32 (x : Nat) : Option Nat := if x < 2 ^ 31 then some x else none

/-! ## Repeated n-grams -/

/-- `server_loop_guard_hash_ngram` -/
def hashNgram (tokens : List Int) (start ngram : Nat) : UInt64 :=
  (List.range ngram).foldl
    (fun hash i =>
      (hash ^^^ (UInt64.ofNat ((tokens.getD (start + i) 0) % 2 ^ 32).toNat + 0x9e3779b97f4a7c15)) *
        1099511628211)
    1469598103934665603

/-- `server_loop_guard_equal_ngram` -/
def equalNgram (tokens : List Int) (a b ngram : Nat) : Bool :=
  (List.range ngram).all fun i => tokens.getD (a + i) 0 == tokens.getD (b + i) 0

/-- The variables of the loop over the starts. -/
structure NgramSearch where
  startsByHash : OrderedMap Nat (List Nat) := .empty
  intervals : List (Nat × Nat) := []

/-- The body of the loop over the starts. -/
def visitStart (tokens : List Int) (ngram : Nat) (s : NgramSearch) (start : Nat) : NgramSearch :=
  let hash := (hashNgram tokens start ngram).toNat
  let starts := (s.startsByHash.find hash).getD []
  { startsByHash := s.startsByHash.insert hash (starts ++ [start])
    intervals := s.intervals ++
      match starts.find? fun previous => equalNgram tokens previous start ngram with
      | some previous => [(previous, previous + ngram), (start, start + ngram)]
      | none => [] }

/-- The starts below `n`, in order. -/
def visitStarts (tokens : List Int) (ngram n : Nat) : NgramSearch :=
  (List.range n).foldl (visitStart tokens ngram) {}

/-- The intervals of the n-grams that occur more than once. -/
def repeatedIntervals (tokens : List Int) (ngram : Nat) : Option (List (Nat × Nat)) := do
  -- the last test of the loop computes `start + ngram` for the first start that does not fit
  let stop ← int32 (tokens.length + 1)
  some (visitStarts tokens ngram (stop - ngram)).intervals

/-- The loop over the n-gram sizes of `check_ngram_dominance`. -/
def tryNgrams (params : LoopGuardParams) (tokens : List Int) :
    List Nat → Option LoopGuardResult
  | [] => some {}
  | ngram :: ngrams =>
    if tokens.length < ngram * 2 then tryNgrams params tokens ngrams
    else do
      let intervals ← repeatedIntervals tokens ngram
      if intervals.isEmpty then tryNgrams params tokens ngrams
      else
        let coverage := coverage intervals
        if params.minRepeatedCoverage ≤ coverage then do
          let doubled ← int32 (coverage * 2)
          if tokens.length ≤ doubled then
            some { triggered := true, kind := "ngram_dominance", period := ngram,
                   coverage := coverage, score := coverage / tokens.length }
          else tryNgrams params tokens ngrams
        else tryNgrams params tokens ngrams

def ngrams : List Nat := [8, 16, 32]

/-- `check_ngram_dominance`, for lists whose size is an `int32_t`. -/
def checkNgramDominance (params : LoopGuardParams) (tokens : List Int) : Option LoopGuardResult :=
  if (tokens.length : Int) < params.minRepeatedCoverage then some {}
  else tryNgrams params tokens ngrams

/-! ## What the search finds -/

section Search

variable {tokens : List Int} {ngram n a b : Nat}

/-- The n-grams at two starts are the same. -/
def SameNgram (tokens : List Int) (ngram a b : Nat) : Prop :=
  ∀ i < ngram, tokens.getD (a + i) 0 = tokens.getD (b + i) 0

instance (tokens : List Int) (ngram a b : Nat) : Decidable (SameNgram tokens ngram a b) :=
  inferInstanceAs (Decidable (∀ i < ngram, _))

theorem SameNgram.symm (h : SameNgram tokens ngram a b) : SameNgram tokens ngram b a :=
  fun i hi => (h i hi).symm

theorem SameNgram.trans {c : Nat} (h : SameNgram tokens ngram a b)
    (h' : SameNgram tokens ngram b c) : SameNgram tokens ngram a c :=
  fun i hi => (h i hi).trans (h' i hi)

theorem equalNgram_iff : equalNgram tokens a b ngram = true ↔ SameNgram tokens ngram a b := by
  simp [equalNgram, SameNgram]

theorem SameNgram.hash_eq (h : SameNgram tokens ngram a b) :
    hashNgram tokens a ngram = hashNgram tokens b ngram := by
  apply List.foldl_ext
  intro hash i hi
  rw [h i (List.mem_range.mp hi)]

/-- The start shares its n-gram with another of the starts below `n`. -/
def Repeats (tokens : List Int) (ngram n a : Nat) : Prop :=
  a < n ∧ ∃ b < n, b ≠ a ∧ SameNgram tokens ngram a b

instance (tokens : List Int) (ngram n a : Nat) : Decidable (Repeats tokens ngram n a) :=
  inferInstanceAs (Decidable (a < n ∧ ∃ b < n, _))

/-- What the loop over the starts has when those below `n` are visited. -/
structure Visited (tokens : List Int) (ngram n : Nat) (s : NgramSearch) : Prop where
  buckets : ∀ hash a, a ∈ (s.startsByHash.find hash).getD [] ↔
    a < n ∧ (hashNgram tokens a ngram).toNat = hash
  intervals : ∀ i : Nat × Nat, i ∈ s.intervals ↔ Repeats tokens ngram n i.1 ∧ i.2 = i.1 + ngram

theorem visited_start : Visited tokens ngram 0 {} where
  buckets := by
    simp
  intervals := by
    simp [Repeats]

/-- The first earlier start with the n-gram stands for all of them. -/
theorem visitStart_visited {s : NgramSearch} (h : Visited tokens ngram n s) :
    Visited tokens ngram (n + 1) (visitStart tokens ngram s n) where
  buckets := by
    intro hash a
    show a ∈ ((s.startsByHash.insert _ _).find hash).getD [] ↔ _
    rw [OrderedMap.find_insert]
    split
    next hEq =>
      rw [Option.getD_some, List.mem_append, List.mem_singleton, h.buckets, ← hEq]
      constructor
      · intro hMem
        cases hMem with
        | inl hOld => exact ⟨by omega, hOld.2⟩
        | inr hNew => exact ⟨by omega, by rw [hNew, hEq]⟩
      intro hMem
      by_cases hNew : a = n
      · exact Or.inr hNew
      · exact Or.inl ⟨by omega, hMem.2⟩
    next hNe =>
      rw [h.buckets]
      constructor
      · intro hOld
        exact ⟨by omega, hOld.2⟩
      intro hMem
      refine ⟨Nat.lt_of_le_of_ne (by omega) ?_, hMem.2⟩
      intro hNew
      rw [hNew] at hMem
      exact hNe hMem.2.symm
  intervals := by
    intro i
    have hStep : i ∈ (visitStart tokens ngram s n).intervals ↔ i ∈ s.intervals ∨
        i ∈ match ((s.startsByHash.find (hashNgram tokens n ngram).toNat).getD []).find?
              fun previous => equalNgram tokens previous n ngram with
            | some previous => [(previous, previous + ngram), (n, n + ngram)]
            | none => [] := List.mem_append
    rw [hStep, h.intervals]
    cases hFind : ((s.startsByHash.find (hashNgram tokens n ngram).toNat).getD []).find?
        fun previous => equalNgram tokens previous n ngram with
    | none =>
      -- no earlier start has this n-gram
      have hNone : ∀ b < n, ¬SameNgram tokens ngram b n := by
        intro b hb hSame
        have hMem := (h.buckets _ b).mpr ⟨hb, congrArg UInt64.toNat hSame.hash_eq⟩
        exact List.find?_eq_none.mp hFind b hMem (equalNgram_iff.mpr hSame)
      simp only [List.not_mem_nil, or_false]
      apply and_congr_left
      intro _
      constructor
      · rintro ⟨hLt, b, hb, hNe, hSame⟩
        exact ⟨by omega, b, by omega, hNe, hSame⟩
      rintro ⟨hLt, b, hb, hNe, hSame⟩
      have hi : i.1 ≠ n := by
        intro hEq
        rw [hEq] at hSame hNe
        exact hNone b (by omega) hSame.symm
      have hb' : b ≠ n := by
        intro hEq
        rw [hEq] at hSame
        exact hNone i.1 (by omega) hSame
      exact ⟨by omega, b, by omega, hNe, hSame⟩
    | some previous =>
      have hPrevious := (h.buckets _ previous).mp (List.mem_of_find?_eq_some hFind)
      have hFound : equalNgram tokens previous n ngram = true :=
        List.find?_some (p := fun previous => equalNgram tokens previous n ngram) hFind
      have hEqual := equalNgram_iff.mp hFound
      have hPair : i ∈ [(previous, previous + ngram), (n, n + ngram)] ↔
          (i.1 = previous ∨ i.1 = n) ∧ i.2 = i.1 + ngram := by
        obtain ⟨x, y⟩ := i
        simp only [List.mem_cons, List.not_mem_nil, or_false, Prod.mk.injEq]
        constructor
        · rintro (⟨rfl, rfl⟩ | ⟨rfl, rfl⟩)
          · exact ⟨Or.inl rfl, rfl⟩
          · exact ⟨Or.inr rfl, rfl⟩
        rintro ⟨rfl | rfl, rfl⟩
        · exact Or.inl ⟨rfl, rfl⟩
        · exact Or.inr ⟨rfl, rfl⟩
      rw [hPair, ← or_and_right]
      apply and_congr_left
      intro _
      constructor
      · rintro (⟨hLt, b, hb, hNe, hSame⟩ | hEq | hEq)
        · exact ⟨by omega, b, by omega, hNe, hSame⟩
        · rw [hEq]
          exact ⟨by omega, n, by omega, by omega, hEqual⟩
        · rw [hEq]
          exact ⟨by omega, previous, by omega, by omega, hEqual.symm⟩
      rintro ⟨hLt, b, hb, hNe, hSame⟩
      by_cases hNew : i.1 = n
      · exact Or.inr (Or.inr hNew)
      by_cases hFirst : i.1 = previous
      · exact Or.inr (Or.inl hFirst)
      left
      by_cases hb' : b = n
      · rw [hb'] at hSame
        exact ⟨by omega, previous, hPrevious.1, Ne.symm hFirst,
          hSame.trans hEqual.symm⟩
      · exact ⟨by omega, b, by omega, hNe, hSame⟩

theorem visitStarts_inv (tokens : List Int) (ngram n : Nat) :
    Visited tokens ngram n (visitStarts tokens ngram n) := by
  induction n with
  | zero => exact visited_start
  | succ n ih =>
    rw [visitStarts, range_succ, foldl_append]
    exact visitStart_visited ih

end Search

/-! ## Coverage -/

/-- The positions inside an occurrence of an n-gram that occurs at least twice. -/
def coveredPositions (tokens : List Int) (ngram : Nat) : Finset Nat :=
  (Finset.range tokens.length).filter fun p =>
    ∃ a < tokens.length + 1 - ngram, (a ≤ p ∧ p < a + ngram) ∧
      Repeats tokens ngram (tokens.length + 1 - ngram) a

theorem card_coveredPositions_le (tokens : List Int) (ngram : Nat) :
    (coveredPositions tokens ngram).card ≤ tokens.length := by
  have hLe := card_filter_le (range tokens.length) fun p =>
    ∃ a < tokens.length + 1 - ngram, (a ≤ p ∧ p < a + ngram) ∧
      Repeats tokens ngram (tokens.length + 1 - ngram) a
  rwa [card_range] at hLe

theorem intervalUnion_visitStarts (tokens : List Int) (ngram : Nat) :
    intervalUnion (visitStarts tokens ngram (tokens.length + 1 - ngram)).intervals =
      coveredPositions tokens ngram := by
  have hVisited := visitStarts_inv tokens ngram (tokens.length + 1 - ngram)
  ext p
  rw [mem_intervalUnion, coveredPositions, Finset.mem_filter, Finset.mem_range]
  constructor
  · rintro ⟨i, hi, hLow, hHigh⟩
    obtain ⟨hRepeats, hEnd⟩ := (hVisited.intervals i).mp hi
    rw [hEnd] at hHigh
    have hLt := hRepeats.1
    exact ⟨by omega, i.1, hLt, ⟨hLow, hHigh⟩, hRepeats⟩
  · rintro ⟨-, a, -, hInside, hRepeats⟩
    exact ⟨(a, a + ngram), (hVisited.intervals _).mpr ⟨hRepeats, rfl⟩, hInside.1, hInside.2⟩

variable {tokens : List Int}

/-- The coverage that is computed is the number of the covered positions. -/
theorem coverage_repeatedIntervals {ngram : Nat} (hFits : tokens.length + 1 < 2 ^ 31) :
    (repeatedIntervals tokens ngram).map coverage = some (coveredPositions tokens ngram).card := by
  rw [repeatedIntervals, int32, if_pos hFits, ← intervalUnion_visitStarts, ← coverage_eq]
  rfl

theorem repeatedIntervals_overflow (ngram : Nat)
    (h : ¬tokens.length + 1 < 2 ^ 31) : repeatedIntervals tokens ngram = none := by
  rw [repeatedIntervals, int32, if_neg h]
  rfl

/-! ## The decision -/

/-- The n-grams of this size cover enough of the tokens. -/
def dominant (params : LoopGuardParams) (tokens : List Int) (ngram : Nat) : Bool :=
  decide (ngram * 2 ≤ tokens.length ∧
    params.minRepeatedCoverage ≤ (coveredPositions tokens ngram).card ∧
    tokens.length ≤ (coveredPositions tokens ngram).card * 2)

/-- The answer for a size that covers enough. -/
def triggeredBy (tokens : List Int) (ngram : Nat) : LoopGuardResult where
  triggered := true
  kind := "ngram_dominance"
  period := ngram
  coverage := (coveredPositions tokens ngram).card
  score := (coveredPositions tokens ngram).card / tokens.length

/-- The answer of the first size that covers enough, if there is one. -/
def dominance (params : LoopGuardParams) (tokens : List Int) : LoopGuardResult :=
  match ngrams.find? (dominant params tokens) with
  | some ngram => triggeredBy tokens ngram
  | none => {}

variable {params : LoopGuardParams}

/-- The sizes are tried in order up to the first that covers enough; its coverage is
doubled. -/
theorem tryNgrams_eq (hFits : tokens.length + 1 < 2 ^ 31) {sizes : List Nat}
    (hPos : ∀ g ∈ sizes, 0 < g) :
    tryNgrams params tokens sizes =
      match sizes.find? (dominant params tokens) with
      | some ngram =>
        if (coveredPositions tokens ngram).card < 2 ^ 30 then some (triggeredBy tokens ngram)
        else none
      | none => some {} := by
  induction sizes with
  | nil => rfl
  | cons ngram sizes ih =>
    have hRest := ih fun g hg => hPos g (mem_cons_of_mem _ hg)
    have hNgram := hPos ngram mem_cons_self
    have hSkip : dominant params tokens ngram = false →
        (ngram :: sizes).find? (dominant params tokens) =
          sizes.find? (dominant params tokens) := by
      intro hNot
      rw [find?_cons, hNot]
    rw [tryNgrams]
    split
    next hShort =>
      rw [hSkip (by simp [dominant]; omega), hRest]
    next hLong =>
      obtain ⟨intervals, hIntervals, hCoverage⟩ :=
        map_eq_some_iff.mp (@coverage_repeatedIntervals tokens ngram hFits)
      rw [hIntervals, bind_eq_bind, bind_some]
      split
      next hEmpty =>
        have hNone : coverage intervals = 0 := by
          rw [isEmpty_iff.mp hEmpty, coverage_eq]
          rfl
        have hNot : dominant params tokens ngram = false := by
          apply decide_eq_false
          rintro ⟨-, -, hHalf⟩
          omega
        rw [hSkip hNot, hRest]
      next =>
        simp only [hCoverage]
        split
        next hEnough =>
          by_cases hSmall : (coveredPositions tokens ngram).card < 2 ^ 30
          · rw [int32, if_pos (by omega), bind_eq_bind, bind_some]
            split
            next hHalf =>
              have hDominant : dominant params tokens ngram = true :=
                decide_eq_true ⟨by omega, hEnough, hHalf⟩
              rw [find?_cons, hDominant]
              simp only [if_pos hSmall]
              rfl
            next hHalf =>
              rw [hSkip (by simp [dominant]; omega), hRest]
          -- more than half of the tokens are covered, but the double does not fit
          have hDominant : dominant params tokens ngram = true :=
            decide_eq_true ⟨by omega, hEnough, by omega⟩
          rw [int32, if_neg (by omega), find?_cons, hDominant]
          simp only [if_neg hSmall]
          rfl
        next hFew =>
          rw [hSkip (by simp [dominant]; omega), hRest]

theorem ngrams_pos : ∀ g ∈ ngrams, 0 < g := by decide

/-- Too few tokens cover nothing that is asked for. -/
theorem checkNgramDominance_eq (hFits : tokens.length + 1 < 2 ^ 31) :
    checkNgramDominance params tokens =
      match ngrams.find? (dominant params tokens) with
      | some ngram =>
        if (coveredPositions tokens ngram).card < 2 ^ 30 then some (triggeredBy tokens ngram)
        else none
      | none => some {} := by
  rw [checkNgramDominance]
  split
  next hFew =>
    have hNone : ngrams.find? (dominant params tokens) = none := by
      rw [find?_eq_none]
      intro g _
      have hLe := card_coveredPositions_le tokens g
      simp only [dominant, decide_eq_true_eq]
      omega
    rw [hNone]
  next => exact tryNgrams_eq hFits ngrams_pos

/-- The coverage of every size is the number of positions inside a repeated n-gram,
and the check answers for the first size that covers enough. -/
structure CoverageExact (params : LoopGuardParams) (tokens : List Int) : Prop where
  coverage : ∀ ngram ∈ ngrams, ngram * 2 ≤ tokens.length →
    (repeatedIntervals tokens ngram).map coverage = some (coveredPositions tokens ngram).card
  answer : checkNgramDominance params tokens = some (dominance params tokens)

theorem CoverageExact.of_small (hFits : tokens.length + 1 < 2 ^ 31)
    (hSmall : ∀ ngram, ngrams.find? (dominant params tokens) = some ngram →
      (coveredPositions tokens ngram).card < 2 ^ 30) : CoverageExact params tokens := by
  refine ⟨fun ngram _ _ => coverage_repeatedIntervals hFits, ?_⟩
  rw [checkNgramDominance_eq hFits, dominance]
  cases hFind : ngrams.find? (dominant params tokens) with
  | none => rfl
  | some ngram => exact if_pos (hSmall ngram hFind)

/-- The check is exact as long as the size and the double of the coverage it answers
for fit an `int`. -/
theorem coverageExact_iff (params : LoopGuardParams) (tokens : List Int) :
    CoverageExact params tokens ↔ tokens.length + 1 < 2 ^ 31 ∧
      ∀ ngram, ngrams.find? (dominant params tokens) = some ngram →
        (coveredPositions tokens ngram).card < 2 ^ 30 := by
  constructor
  · intro h
    have hFits : tokens.length + 1 < 2 ^ 31 := by
      apply Decidable.byContradiction
      intro hOver
      have hSome := h.coverage 8 (by decide) (by omega)
      rw [repeatedIntervals_overflow 8 hOver] at hSome
      contradiction
    refine ⟨hFits, ?_⟩
    intro ngram hFind
    have hAnswer := h.answer
    rw [checkNgramDominance_eq hFits, hFind] at hAnswer
    simp only at hAnswer
    split at hAnswer
    next hSmall => exact hSmall
    next => contradiction
  · intro h
    exact CoverageExact.of_small h.1 h.2

/-! ## One token over and over -/

theorem coveredPositions_replicate {n ngram : Nat} (token : Int) (hPos : 0 < ngram)
    (hLong : ngram * 2 ≤ n) :
    coveredPositions (replicate n token) ngram = Finset.range n := by
  have hSame : ∀ a b, a + ngram ≤ n → b + ngram ≤ n →
      SameNgram (replicate n token) ngram a b := by
    intro a b ha hb i hi
    simp only [getD_eq_getElem?_getD, getElem?_replicate]
    rw [if_pos (by omega), if_pos (by omega)]
  unfold coveredPositions
  rw [length_replicate, Finset.filter_eq_self]
  intro p hp
  rw [Finset.mem_range] at hp
  refine ⟨min p (n - ngram), by omega, by omega, by omega, ?_⟩
  by_cases hZero : min p (n - ngram) = 0
  · exact ⟨1, by omega, by omega, hSame _ _ (by omega) (by omega)⟩
  · exact ⟨0, by omega, by omega, hSame _ _ (by omega) (by omega)⟩

theorem ngrams_find_replicate {n : Nat} (token : Int) (hLong : 16 ≤ n)
    (hEnough : params.minRepeatedCoverage ≤ n) :
    ngrams.find? (dominant params (replicate n token)) = some 8 := by
  have hDominant : dominant params (replicate n token) 8 = true := by
    apply decide_eq_true
    rw [coveredPositions_replicate token (by omega) (by omega), card_range,
      length_replicate]
    exact ⟨by omega, hEnough, by omega⟩
  rw [ngrams, find?_cons, hDominant]

/-- A tail of one token, 2³⁰ times: the double of the coverage is no `int`. -/
theorem repeatedToken_overflows :
    ¬CoverageExact { minRepeatedCoverage := 2 ^ 30 } (replicate (2 ^ 30) 7) ∧
      dominance { minRepeatedCoverage := 2 ^ 30 } (replicate (2 ^ 30) 7) =
        { triggered := true, kind := "ngram_dominance", period := 8, coverage := 2 ^ 30,
          score := 1 } := by
  have hFind : ngrams.find? (dominant { minRepeatedCoverage := 2 ^ 30 } (replicate (2 ^ 30) 7)) =
      some 8 := ngrams_find_replicate 7 (by norm_num) (by norm_num)
  have hCard : (coveredPositions (replicate (2 ^ 30) 7) 8).card = 2 ^ 30 := by
    rw [coveredPositions_replicate 7 (by norm_num) (by norm_num), card_range]
  constructor
  · intro h
    have hAnswer := h.answer
    rw [checkNgramDominance_eq (by rw [length_replicate]; norm_num), hFind] at hAnswer
    simp only at hAnswer
    rw [if_neg (by rw [hCard]; norm_num)] at hAnswer
    exact some_ne_none _ hAnswer.symm
  rw [dominance, hFind]
  simp only [triggeredBy, hCard, length_replicate]
  norm_num

end LoopGuard

end Beellama.Ports
