import Mathlib.Data.List.Infix

/-!
# The first occurrence of a word

`searchFrom text word start` is the first position from `start` on at which `word` occurs
(`searchFrom_eq_some_iff`, `searchFrom_eq_none_iff`).  A segment of a list is given by its offset and its
length (`slice`).
-/

namespace Beellama.Verified

open List

variable {α : Type} [DecidableEq α] {text word : List α} {start pos : Nat}

def searchFrom (text word : List α) (start : Nat) : Option Nat :=
  (List.range (text.length + 1)).find? fun p => start ≤ p && word.isPrefixOf (text.drop p)

theorem searchFrom_eq_some_iff : searchFrom text word start = some pos ↔
    start ≤ pos ∧ pos ≤ text.length ∧ word <+: text.drop pos ∧
      ∀ p, start ≤ p → p < pos → ¬ word <+: text.drop p := by
  unfold searchFrom
  rw [find?_range_eq_some]
  simp only [Bool.and_eq_true, decide_eq_true_eq, isPrefixOf_iff_prefix,
    Bool.not_eq_true', Bool.and_eq_false_iff, decide_eq_false_iff_not, mem_range]
  constructor
  · rintro ⟨⟨hStart, hWord⟩, hLt, hFirst⟩
    refine ⟨hStart, by omega, hWord, fun p hp hBefore hOcc => ?_⟩
    rcases hFirst p hBefore with hNot | hNot
    · exact hNot hp
    · rw [ isPrefixOf_iff_prefix.mpr hOcc] at hNot
      exact Bool.false_ne_true hNot.symm
  rintro ⟨hStart, hLe, hWord, hFirst⟩
  refine ⟨⟨hStart, hWord⟩, by omega, fun p hBefore => ?_⟩
  by_cases hp : start ≤ p
  · refine .inr (Bool.eq_false_iff.mpr fun hOcc => ?_)
    exact hFirst p hp hBefore ( isPrefixOf_iff_prefix.mp hOcc)
  · exact .inl hp

theorem searchFrom_eq_none_iff : searchFrom text word start = none ↔
    ∀ p, start ≤ p → p ≤ text.length → ¬ word <+: text.drop p := by
  unfold searchFrom
  rw [find?_eq_none]
  simp only [mem_range, Bool.and_eq_true, decide_eq_true_eq, isPrefixOf_iff_prefix]
  exact ⟨fun h p hp hLe hOcc => h p (by omega) ⟨hp, hOcc⟩,
    fun h p hLt hBoth => h p hBoth.1 (by omega) hBoth.2⟩

/-! ## Segments -/

omit [DecidableEq α]

/-- The segment with this offset and length. -/
def slice (l : List α) (offset length : Nat) : List α := (l.drop offset).take length

@[simp] theorem slice_zero (l : List α) (offset : Nat) : slice l offset 0 = [] := take_zero

theorem slice_all (l : List α) : slice l 0 l.length = l := take_length

variable {l : List α} {offset : Nat}

theorem length_slice {length : Nat} (h : offset + length ≤ l.length) :
    (slice l offset length).length = length := by
  unfold slice
  rw [length_take, length_drop]
  omega

theorem slice_append_slice (l : List α) (offset m n : Nat) :
    slice l offset m ++ slice l (offset + m) n = slice l offset (m + n) := by
  unfold slice
  rw [take_add, drop_drop]

variable {n : Nat}

theorem slice_isInfix {o m : Nat} (hStart : offset ≤ o)
    (hEnd : o + m ≤ offset + n) : slice l o m <:+: slice l offset n := by
  refine ⟨slice l offset (o - offset), slice l (o + m) (offset + n - (o + m)), ?_⟩
  have hFront := slice_append_slice l offset (o - offset) m
  have hBack := slice_append_slice l offset (o - offset + m) (offset + n - (o + m))
  rw [show offset + (o - offset) = o by omega] at hFront
  rw [show offset + (o - offset + m) = o + m by omega] at hBack
  rw [hFront, hBack]
  congr 1
  omega

/-- A word occurs in a segment where it occurs in the list, within the bounds of the segment. -/
theorem infix_slice_iff (hBound : offset + n ≤ l.length) :
    word <:+: slice l offset n ↔
      ∃ p, offset ≤ p ∧ p ≤ offset + n ∧ word <+: (l.take (offset + n)).drop p := by
  have hSlice : slice l offset n = (l.take (offset + n)).drop offset := by
    rw [drop_take]
    congr 1
    omega
  rw [hSlice]
  constructor
  · rintro ⟨before, after, hEq⟩
    refine ⟨offset + before.length, Nat.le_add_right _ _, ?_, after, ?_⟩
    · have hLength := congrArg length hEq
      rw [length_drop, length_take, length_append, length_append] at hLength
      omega
    · rw [← drop_drop, ← hEq, append_assoc, drop_left]
  rintro ⟨p, hp, -, hOcc⟩
  have hDrop : (l.take (offset + n)).drop p = ((l.take (offset + n)).drop offset).drop
      (p - offset) := by
    rw [drop_drop]
    congr 1
    omega
  rw [hDrop] at hOcc
  exact hOcc.isInfix.trans (drop_suffix _ _).isInfix

end Beellama.Verified
