import Mathlib.Order.Basic

/-!
# The Z-algorithm

How far a sequence agrees with itself `k` places on.  Inside a box, a stretch that is known to agree,
the answer for `k` is that for the place the box copies, as long as it ends before the box does
(`Extent.copy`); answers that are cut at a limit may be copied as well.
-/

namespace Beellama.Verified

variable {β : Type} {f : Nat → β} {n k m c lt rt limit : Nat}

/-- The first `m` elements are those `k` places on, below `n`. -/
def Agrees (f : Nat → β) (n k m : Nat) : Prop := ∀ j < m, k + j < n ∧ f j = f (k + j)

theorem Agrees.mono (h : Agrees f n k m) (hc : c ≤ m) : Agrees f n k c :=
  fun j hj => h j (by omega)

theorem Agrees.succ (h : Agrees f n k m) (hk : k + m < n) (hEq : f m = f (k + m)) :
    Agrees f n k (m + 1) := by
  intro j hj
  obtain hj | rfl := Nat.lt_succ_iff_lt_or_eq.mp hj
  · exact h j hj
  · exact ⟨hk, hEq⟩

theorem Agrees.box (h : Agrees f n lt (rt + 1 - lt)) (hlt : lt ≤ k) (hm : k + m ≤ rt + 1) :
    Agrees f n k m ↔ Agrees f n (k - lt) m := by
  refine forall₂_congr fun j hj => ?_
  obtain ⟨hn, hEq⟩ := h (k - lt + j) (by omega)
  rw [show lt + (k - lt + j) = k + j by omega] at hn hEq
  rw [hEq]
  exact and_congr_left fun _ => ⟨fun _ => by omega, fun _ => hn⟩

/-- The greatest `m` not above the limit that the sequence agrees for. -/
def Extent (f : Nat → β) (n limit k c : Nat) : Prop :=
  c ≤ limit ∧ ∀ m ≤ limit, Agrees f n k m ↔ m ≤ c

theorem Extent.of_max (h : Agrees f n k m) (hMax : ¬ Agrees f n k (m + 1)) :
    Extent f n limit k (min m limit) := by
  refine ⟨Nat.min_le_right _ _, fun c hc => ⟨fun hAgrees => ?_, fun hLe => h.mono (by omega)⟩⟩
  by_contra hlt
  exact hMax (hAgrees.mono (by omega))

theorem Extent.copy (hBox : Agrees f n lt (rt + 1 - lt)) (hlt : lt ≤ k)
    (h : Extent f n limit (k - lt) c) (hc : c < rt + 1 - k) : Extent f n limit k c := by
  refine ⟨h.1, fun m hm => ⟨fun hAgrees => ?_, fun hLe => ?_⟩⟩
  · by_contra hGt
    have hMore := (hBox.box hlt (m := c + 1) (by omega)).mp (hAgrees.mono (by omega))
    exact absurd ((h.2 (c + 1) (by omega)).mp hMore) (by omega)
  · exact (hBox.box hlt (by omega)).mpr ((h.2 m hm).mpr hLe)

end Beellama.Verified
