import Mathlib.Algebra.Order.BigOperators.Group.Finset
import Mathlib.Algebra.Order.Ring.Int

/-!
# Sizes of shared things, counted once

`countOnce` adds up the sizes of things that are met for the first time.  When
things with one identity have one size, the total is the sum over the set of
identities (`countOnce_eq`), and so a part of the things has at most the total
of all (`countOnce_mono`).
-/

namespace Beellama.Verified

open List Finset

variable {κ : Type} [DecidableEq κ]

/-- Add the sizes of the things that have not been seen. -/
def countOnce : List κ × Nat → List (κ × Nat) → List κ × Nat
  | acc, [] => acc
  | acc, (k, n) :: rest =>
    countOnce (if k ∈ acc.1 then acc else (k :: acc.1, acc.2 + n)) rest

theorem countOnce_append (acc : List κ × Nat) (l m : List (κ × Nat)) :
    countOnce acc (l ++ m) = countOnce (countOnce acc l) m := by
  induction l generalizing acc with
  | nil => rfl
  | cons x l ih => exact ih _

/-- What was counted before is added to the rest. -/
theorem countOnce_add (seen : List κ) (n c : Nat) (l : List (κ × Nat)) :
    countOnce (seen, n + c) l = ((countOnce (seen, n) l).1, (countOnce (seen, n) l).2 + c) := by
  induction l generalizing seen n with
  | nil => rfl
  | cons x l ih =>
    unfold countOnce
    split
    · exact ih seen n
    · rw [Nat.add_right_comm]
      exact ih _ _

theorem countOnce_le (acc : List κ × Nat) (l : List (κ × Nat)) :
    (countOnce acc l).2 ≤ acc.2 + (l.map Prod.snd).sum := by
  induction l generalizing acc with
  | nil => exact Nat.le_add_right _ _
  | cons x l ih =>
    refine (ih _).trans ?_
    rw [List.map_cons, List.sum_cons]
    split
    · omega
    · omega

/-- Things with one identity have one size. -/
def SameSizes (f : κ → Nat) (l : List (κ × Nat)) : Prop := ∀ x ∈ l, x.2 = f x.1

variable {f : κ → Nat} {l : List (κ × Nat)}

theorem countOnce_eq (h : SameSizes f l) (seen : List κ)
    (n : Nat) :
    (countOnce (seen, n) l).2 = n + ∑ k ∈ (l.map Prod.fst).toFinset \ seen.toFinset, f k := by
  induction l generalizing seen n with
  | nil => simp [countOnce]
  | cons x l ih =>
    obtain ⟨k, size⟩ := x
    have hSize : size = f k := h (k, size) (by simp)
    have hRest : SameSizes f l := fun y hy => h y (mem_cons_of_mem _ hy)
    unfold countOnce
    rw [List.map_cons, List.toFinset_cons]
    by_cases hk : k ∈ seen
    · rw [if_pos hk, ih hRest, insert_sdiff_of_mem _ (mem_toFinset.mpr hk)]
    rw [if_neg hk, ih hRest, hSize, toFinset_cons]
    have hSplit : (insert k (l.map Prod.fst).toFinset) \ seen.toFinset =
        insert k ((l.map Prod.fst).toFinset \ insert k seen.toFinset) := by
      ext j
      by_cases hj : j = k
      · simp [hj, hk]
      · simp [hj]
    rw [hSplit, sum_insert (by simp), Nat.add_assoc]

theorem countOnce_mono {m : List (κ × Nat)} (h : SameSizes f m) (hSub : l ⊆ m) :
    (countOnce ([], 0) l).2 ≤ (countOnce ([], 0) m).2 := by
  have hl : SameSizes f l := fun x hx => h x (hSub hx)
  rw [countOnce_eq hl, countOnce_eq h, toFinset_nil, sdiff_empty, sdiff_empty,
    Nat.zero_add, Nat.zero_add]
  refine sum_le_sum_of_subset fun k hk => ?_
  rw [mem_toFinset] at hk ⊢
  exact map_subset _ hSub hk

end Beellama.Verified
