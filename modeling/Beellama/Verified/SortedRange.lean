import Mathlib.Data.List.Sort

/-!
# Ranges of a sorted list

`lowerBound` and `upperBound` are the positions that a binary search finds in a
list that is sorted by a key: between them stand the elements whose keys lie
within bounds (`within_range_iff`).
-/

namespace Beellama.Verified

open List

variable {α : Type} {key : α → Int} {l : List α} {lo hi : Int} {i : Nat} {x : α}

/-- The position of the first element whose key is not below the bound. -/
def lowerBound (key : α → Int) (l : List α) (lo : Int) : Nat :=
  (l.takeWhile fun x => key x < lo).length

/-- The position of the first element, from a position on, whose key is above the bound. -/
def upperBound (key : α → Int) (l : List α) (first : Nat) (hi : Int) : Nat :=
  first + ((l.drop first).takeWhile fun x => key x ≤ hi).length

/-- A prefix that a monotone test cuts off: an element is in it when it passes. -/
theorem lt_takeWhile_length_iff {p : α → Bool}
    (hMono : l.Pairwise fun a b => p b = true → p a = true) (hAt : l[i]? = some x) :
    i < (l.takeWhile p).length ↔ p x = true := by
  induction l generalizing i with
  | nil => exact absurd hAt (by simp)
  | cons a l ih =>
    obtain ⟨hFirst, hRest⟩ := pairwise_cons.mp hMono
    cases i with
    | zero =>
      obtain rfl : a = x := Option.some.inj hAt
      cases hp : p a with
      | true => simp [hp]
      | false => simp [hp]
    | succ i =>
      cases hp : p a with
      | true =>
        rw [takeWhile_cons, if_pos hp, length_cons, Nat.add_lt_add_iff_right]
        exact ih hRest hAt
      | false =>
        have hx : ¬ p x = true := by
          intro hPasses
          rw [hFirst x (mem_of_getElem? hAt) hPasses] at hp
          exact absurd hp (by simp)
        rw [takeWhile_cons, if_neg (by simp [hp])]
        exact iff_of_false (Nat.not_lt_zero _) hx

variable (hSorted : l.Pairwise fun a b => key a ≤ key b)

include hSorted

theorem lowerBound_le_iff (hAt : l[i]? = some x) : lowerBound key l lo ≤ i ↔ lo ≤ key x := by
  have hMono : l.Pairwise fun a b => decide (key b < lo) = true → decide (key a < lo) = true :=
    hSorted.imp fun hLe hLt => by
      simp only [decide_eq_true_eq] at hLt ⊢
      omega
  have hIff := lt_takeWhile_length_iff hMono hAt
  rw [decide_eq_true_eq] at hIff
  unfold lowerBound
  omega

theorem lt_upperBound_iff {first : Nat} (hFirst : first ≤ i) (hAt : l[i]? = some x) :
    i < upperBound key l first hi ↔ key x ≤ hi := by
  have hMono : (l.drop first).Pairwise fun a b =>
      decide (key b ≤ hi) = true → decide (key a ≤ hi) = true :=
    (hSorted.sublist (drop_sublist _ _)).imp fun hLe hLt => by
      simp only [decide_eq_true_eq] at hLt ⊢
      omega
  have hAtDrop : (l.drop first)[i - first]? = some x := by
    rw [getElem?_drop, Nat.add_sub_cancel' hFirst, hAt]
  have hIff := lt_takeWhile_length_iff hMono hAtDrop
  rw [decide_eq_true_eq] at hIff
  unfold upperBound
  omega

/-- The positions between the bounds are those of the elements within them. -/
theorem within_range_iff (hAt : l[i]? = some x) :
    (lowerBound key l lo ≤ i ∧ i < upperBound key l (lowerBound key l lo) hi) ↔
      lo ≤ key x ∧ key x ≤ hi := by
  constructor
  · rintro ⟨hLow, hHigh⟩
    exact ⟨(lowerBound_le_iff hSorted hAt).mp hLow, (lt_upperBound_iff hSorted hLow hAt).mp hHigh⟩
  rintro ⟨hLow, hHigh⟩
  have hFirst := (lowerBound_le_iff hSorted hAt).mpr hLow
  exact ⟨hFirst, (lt_upperBound_iff hSorted hFirst hAt).mpr hHigh⟩

end Beellama.Verified
