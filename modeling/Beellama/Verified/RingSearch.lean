import Mathlib.Data.Fintype.EquivFin
import Mathlib.Data.Nat.ModEq

/-!
# The next free slot of a ring

Two search loops that wrap around: one looks at its start first, the other moves on before it looks.  Each
returns the first index in ring order that meets a predicate (`scanFrom_first`, `scanAfter_first`).  As
long as a point has no slot, or shares one, some slot is free (`exists_free`).
-/

namespace Beellama.Verified

variable {p : Nat → Bool} {size : Nat}

/-- Wrap an index that is at most one round too far. -/
def wrap (size i : Nat) : Nat := if size ≤ i then i - size else i

variable {i : Nat}

theorem wrap_eq_mod (hSize : 0 < size) (hLe : i ≤ size) : wrap size i = i % size := by
  unfold wrap
  rcases Nat.lt_or_eq_of_le hLe with hLt | rfl
  · rw [if_neg (Nat.not_le.mpr hLt), Nat.mod_eq_of_lt hLt]
  · rw [if_pos (Nat.le_refl i), Nat.sub_self, Nat.mod_self]

/-- Look at up to `fuel` indices from `i` on. -/
def scanFrom (p : Nat → Bool) (size : Nat) : Nat → Nat → Nat
  | 0, i => i
  | fuel + 1, i => if p (wrap size i) then wrap size i else scanFrom p size fuel (wrap size i + 1)

/-- Look at up to `fuel` indices after `i`. -/
def scanAfter (p : Nat → Bool) (size : Nat) : Nat → Nat → Nat
  | 0, i => i
  | fuel + 1, i =>
    if p (wrap size (i + 1)) then wrap size (i + 1) else scanAfter p size fuel (wrap size (i + 1))

variable {start k fuel j : Nat}

/-- The loop stops at the first index that meets the predicate: index `k` in ring order
from `start`, where it begins at index `j`. -/
theorem scanFrom_first (hSize : 0 < size) (hHit : p ((start + k) % size) = true)
    (hLe : i ≤ size) (hAt : i % size = (start + j) % size) (hOrder : j ≤ k)
    (hFuel : k < j + fuel)
    (hMiss : ∀ l, j ≤ l → l < k → p ((start + l) % size) = false) :
    scanFrom p size fuel i = (start + k) % size := by
  induction fuel generalizing i j with
  | zero => omega
  | succ fuel ih =>
    unfold scanFrom
    rw [wrap_eq_mod hSize hLe, hAt]
    rcases Nat.lt_or_eq_of_le hOrder with hLt | rfl
    · rw [if_neg (by rw [hMiss j (Nat.le_refl j) hLt]; exact Bool.false_ne_true)]
      have hBelow : (start + j) % size < size := Nat.mod_lt _ hSize
      refine ih hBelow ?_ hLt (by omega) (fun l hJ => hMiss l (Nat.le_of_succ_le hJ))
      rw [Nat.mod_add_mod, Nat.add_assoc]
    · rw [if_pos hHit]

/-- The loop that moves on first stops at the first index after its start that meets the
predicate. -/
theorem scanAfter_first (hSize : 0 < size) (hHit : p ((start + k) % size) = true)
    (hLt : i < size) (hAt : i = (start + j) % size) (hOrder : j < k)
    (hFuel : k ≤ j + fuel)
    (hMiss : ∀ l, j < l → l < k → p ((start + l) % size) = false) :
    scanAfter p size fuel i = (start + k) % size := by
  induction fuel generalizing i j with
  | zero => omega
  | succ fuel ih =>
    have hNext : wrap size (i + 1) = (start + (j + 1)) % size := by
      have hLe : i + 1 ≤ size := hLt
      rw [wrap_eq_mod hSize hLe, hAt, Nat.mod_add_mod, Nat.add_assoc]
    unfold scanAfter
    rw [hNext]
    rcases Nat.lt_or_eq_of_le (Nat.succ_le_of_lt hOrder) with hMore | rfl
    · rw [if_neg (by rw [hMiss (j + 1) (Nat.lt_succ_self j) hMore]; exact Bool.false_ne_true)]
      exact ih (Nat.mod_lt _ hSize) rfl hMore (by omega)
        (fun l hJ => hMiss l (Nat.lt_of_succ_lt hJ))
    · rw [if_pos hHit]

theorem exists_ring_index {c : Nat} (hStart : start < size) (hLt : c < size) :
    ∃ k < size, (start + k) % size = c := by
  refine ⟨(c + (size - start)) % size, Nat.mod_lt _ (Nat.zero_lt_of_lt hLt), ?_⟩
  rw [Nat.add_mod_mod]
  have hSum : start + (c + (size - start)) = c + size := by omega
  rw [hSum, Nat.add_mod_right, Nat.mod_eq_of_lt hLt]

theorem ring_index_inj {l : Nat} (hK : k < size) (hL : l < size)
    (hEq : (start + k) % size = (start + l) % size) : k = l := by
  have hMod : k % size = l % size := Nat.ModEq.add_left_cancel' start hEq
  rwa [Nat.mod_eq_of_lt hK, Nat.mod_eq_of_lt hL] at hMod

/-- As long as a point has no slot or shares its slot, some slot is free. -/
theorem exists_free {place : Nat → Option Nat}
    (hPoints : ∀ x c, place x = some c → x < size) {x : Nat} (hLt : x < size)
    (hAlone : ∀ c, place x = some c → ∃ y, y ≠ x ∧ place y = some c) :
    ∃ c < size, ∀ y, place y ≠ some c := by
  by_contra hFull
  push Not at hFull
  choose owner hOwner using fun c : Fin size => hFull c.1 c.2
  have hInj : Function.Injective
      (fun c : Fin size => (⟨owner c, hPoints _ _ (hOwner c)⟩ : Fin size)) := by
    intro c d hEq
    have hSame : owner c = owner d := congrArg Fin.val hEq
    have hPlace := hOwner c
    rw [hSame, hOwner d] at hPlace
    exact Fin.ext (Option.some.inj hPlace).symm
  -- an injection of the slots into the points is onto, so each slot has one point only
  have hSurj := Finite.surjective_of_injective hInj
  obtain ⟨c, hC⟩ := hSurj ⟨x, hLt⟩
  have hX : owner c = x := congrArg Fin.val hC
  obtain ⟨y, hNe, hY⟩ := hAlone c.1 (hX ▸ hOwner c)
  obtain ⟨d, hD⟩ := hSurj ⟨y, hPoints _ _ hY⟩
  have hYd : owner d = y := congrArg Fin.val hD
  have hSlot : some d.1 = some c.1 := (hYd ▸ hOwner d).symm.trans hY
  have hSame : d = c := Fin.ext (Option.some.inj hSlot)
  exact hNe (hYd.symm.trans ((congrArg owner hSame).trans hX))

end Beellama.Verified
