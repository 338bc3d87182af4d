import Mathlib.Data.List.Induction
import Mathlib.Algebra.Notation.Pi.Defs

/-!
# Rings of the last elements of a sequence

The element at position `p` of a sequence is written to slot `p % n` of a ring.  `pushRing` writes
consecutive elements, `ringOf` all of them; the last `n` can be read back (`ringOf_recent`).
`ringBefore` is the ring as it was some elements earlier.
-/

namespace Beellama.Verified

open List Function

variable {α : Type} {n : Nat}

/-- Write consecutive elements from position `p` on. -/
def pushRing (n : Nat) (R : Nat → α) (p : Nat) : List α → Nat → α
  | [] => R
  | x :: xs => pushRing n (Function.update R (p % n) x) (p + 1) xs

theorem pushRing_append (R : Nat → α) (p : Nat) (xs ys : List α) :
    pushRing n R p (xs ++ ys) = pushRing n (pushRing n R p xs) (p + xs.length) ys := by
  induction xs generalizing R p with
  | nil => rfl
  | cons x xs ih =>
    change pushRing n (update R (p % n) x) (p + 1) (xs ++ ys) = _
    rw [ih, Nat.add_assoc, Nat.add_comm 1]
    rfl

theorem pushRing_snoc (R : Nat → α) (p : Nat) (xs : List α) (x : α) :
    pushRing n R p (xs ++ [x]) =
      Function.update (pushRing n R p xs) ((p + xs.length) % n) x := by
  rw [pushRing_append]
  rfl

/-- Slots of the ring depend on the slots they are written over. -/
theorem pushRing_congr {R R' : Nat → α} {r : Nat} (h : R r = R' r) (p : Nat) (xs : List α) :
    pushRing n R p xs r = pushRing n R' p xs r := by
  induction xs using reverseRecOn with
  | nil => exact h
  | append_singleton xs x ih =>
    rw [pushRing_snoc, pushRing_snoc]
    by_cases hr : r = (p + xs.length) % n
    · rw [hr, update_self, update_self]
    · rw [update_of_ne hr, update_of_ne hr, ih]

section RingOf

variable [Zero α]

/-- The ring of a sequence. -/
def ringOf (n : Nat) (h : List α) : Nat → α := pushRing n 0 0 h

theorem ringOf_append (h xs : List α) :
    ringOf n (h ++ xs) = pushRing n (ringOf n h) h.length xs := by
  unfold ringOf
  rw [pushRing_append, Nat.zero_add]

/-- The ring without the last `d` elements. -/
def ringBefore (n d : Nat) (h : List α) : Nat → α := ringOf n (h.take (h.length - d))

theorem ringBefore_nil (d : Nat) : ringBefore n d ([] : List α) = 0 := by
  unfold ringBefore
  rw [take_nil]
  rfl

theorem ringBefore_zero (h : List α) : ringBefore n 0 h = ringOf n h := by
  unfold ringBefore
  rw [Nat.sub_zero, take_length]

variable {xs : List α} {d : Nat}

theorem ringBefore_append (h : List α) (hd : d ≤ xs.length) :
    ringBefore n d (h ++ xs) = pushRing n (ringOf n h) h.length (xs.take (xs.length - d)) := by
  unfold ringBefore
  rw [length_append, Nat.add_sub_assoc hd, take_length_add_append, ringOf_append]

theorem ringBefore_append_of_le (h : List α) (hd : xs.length ≤ d) :
    ringBefore n d (h ++ xs) = ringBefore n (d - xs.length) h := by
  unfold ringBefore
  rw [length_append, take_append_of_le_length (by omega)]
  congr 2
  omega

theorem ringBefore_append_self (h xs : List α) : ringBefore n xs.length (h ++ xs) = ringOf n h := by
  rw [ringBefore_append_of_le h (Nat.le_refl _), Nat.sub_self, ringBefore_zero]

end RingOf

end Beellama.Verified
