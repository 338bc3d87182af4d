import Mathlib.Order.Interval.Finset.Nat

/-!
# The length of a union of intervals

Intervals `(a, b)` stand for the numbers from `a` below `b`.  `mergedLength` adds the lengths of the
maximal runs of a list sorted by the left ends: the number of elements of the union (`mergedLength_eq`).
-/

namespace Beellama.Verified

open List Finset

/-- The numbers that lie in one of the intervals. -/
def intervalUnion (l : List (Nat × Nat)) : Finset Nat :=
  l.foldr (fun i s => Finset.Ico i.1 i.2 ∪ s) ∅

@[simp] theorem intervalUnion_cons (i : Nat × Nat) (l : List (Nat × Nat)) :
    intervalUnion (i :: l) = Finset.Ico i.1 i.2 ∪ intervalUnion l := rfl

variable {l : List (Nat × Nat)}

theorem mem_intervalUnion {p : Nat} : p ∈ intervalUnion l ↔ ∃ i ∈ l, i.1 ≤ p ∧ p < i.2 := by
  induction l with
  | nil => simp [intervalUnion]
  | cons i l ih => simp [ih]

theorem intervalUnion_perm {l' : List (Nat × Nat)} (h : l.Perm l') :
    intervalUnion l = intervalUnion l' := by
  ext p
  simp only [mem_intervalUnion, h.mem_iff]

/-- The loop over the intervals behind the run from `first` to `last`. -/
def mergedLength (length first last : Nat) : List (Nat × Nat) → Nat
  | [] => length + (last - first)
  | i :: l =>
    if i.1 ≤ last then mergedLength length first (max last i.2) l
    else mergedLength (length + (last - first)) i.1 i.2 l

/-- The run so far and the intervals to come make up the union. -/
theorem mergedLength_eq (hSorted : l.Pairwise fun i j => i.1 ≤ j.1)
    (length : Nat) {first last : Nat} (hFirst : ∀ i ∈ l, first ≤ i.1) :
    mergedLength length first last l =
      length + (Finset.Ico first last ∪ intervalUnion l).card := by
  induction l generalizing length first last with
  | nil => simp [mergedLength, intervalUnion]
  | cons i l ih =>
    obtain ⟨hHead, hTail⟩ := pairwise_cons.mp hSorted
    have hLe := hFirst i mem_cons_self
    rw [mergedLength]
    split
    next hOverlap =>
      have hRun : Finset.Ico first last ∪ Finset.Ico i.1 i.2 =
          Finset.Ico first (max last i.2) := by
        ext p
        simp only [mem_union, mem_Ico]
        omega
      rw [ih hTail length fun j hj => hFirst j (mem_cons_of_mem _ hj), intervalUnion_cons,
        ← union_assoc, hRun]
    next hGap =>
      -- all that follows lies behind the run
      have hDisjoint : Disjoint (Finset.Ico first last) (intervalUnion (i :: l)) := by
        rw [Finset.disjoint_left]
        intro p hp hMem
        rw [mem_Ico] at hp
        obtain ⟨j, hj, hLow, -⟩ := mem_intervalUnion.mp hMem
        cases mem_cons.mp hj with
        | inl hEq =>
          rw [hEq] at hLow
          omega
        | inr hLater =>
          have hAfter := hHead j hLater
          omega
      rw [ih hTail _ hHead, card_union_of_disjoint hDisjoint, Nat.card_Ico,
        intervalUnion_cons]
      omega

/-- Pairs in the order of their components. -/
def pairLe (i j : Nat × Nat) : Bool := decide (i.1 < j.1) || (i.1 == j.1 && decide (i.2 ≤ j.2))

theorem pairLe_iff {i j : Nat × Nat} : pairLe i j = true ↔ i.1 < j.1 ∨ i.1 = j.1 ∧ i.2 ≤ j.2 := by
  simp [pairLe]

theorem mergeSort_pairLe_sorted (l : List (Nat × Nat)) :
    (l.mergeSort pairLe).Pairwise fun i j => i.1 ≤ j.1 := by
  have hTrans : ∀ a b c, pairLe a b = true → pairLe b c = true → pairLe a c = true := by
    intro a b c hab hbc
    rw [pairLe_iff] at hab hbc ⊢
    omega
  have hTotal : ∀ a b, (pairLe a b || pairLe b a) = true := by
    intro a b
    rw [Bool.or_eq_true, pairLe_iff, pairLe_iff]
    omega
  refine (pairwise_mergeSort hTrans hTotal l).imp ?_
  intro i j h
  rw [pairLe_iff] at h
  omega

/-- The length of the union, by sorting and merging. -/
def coverage (l : List (Nat × Nat)) : Nat :=
  match l.mergeSort pairLe with
  | [] => 0
  | i :: rest => mergedLength 0 i.1 i.2 rest

theorem coverage_eq (l : List (Nat × Nat)) : coverage l = (intervalUnion l).card := by
  have hSorted := mergeSort_pairLe_sorted l
  rw [← intervalUnion_perm (mergeSort_perm l pairLe), coverage]
  generalize l.mergeSort pairLe = sorted at hSorted
  cases sorted with
  | nil => rfl
  | cons i rest =>
    obtain ⟨hHead, hTail⟩ := pairwise_cons.mp hSorted
    show mergedLength 0 i.1 i.2 rest = _
    rw [mergedLength_eq hTail 0 hHead, Nat.zero_add, intervalUnion_cons]

end Beellama.Verified
