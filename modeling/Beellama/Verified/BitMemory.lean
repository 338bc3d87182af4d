import Mathlib.Data.Nat.Bitwise

/-!
# A memory of bytes that is read and written one bit at a time

`bitAt` is the view of a memory of bytes as a sequence of bits, the least
significant bit of a byte first.  `orAt` is the assignment `m[k] |= x`; with a
single shifted bit it sets one bit of the view and leaves the others
(`bitAt_orAt`).
-/

namespace Beellama.Verified

variable {m : Nat → UInt8} {j k : Nat}

/-- The bit of a memory at an offset. -/
def bitAt (m : Nat → UInt8) (k : Nat) : Bool := (m (k / 8)).toNat.testBit (k % 8)

/-- `m[k] |= x` -/
def orAt (m : Nat → UInt8) (k : Nat) (x : UInt8) : Nat → UInt8 :=
  Function.update m k (m k ||| x)

theorem orAt_of_ne (x : UInt8) (h : j ≠ k) : orAt m k x j = m j := Function.update_of_ne h _ _

/-- The bits of a byte that has only the lowest bit, moved up. -/
theorem testBit_one_shiftLeft (x : UInt8) {s i : Nat} (hs : s < 8) (hi : i < 8) :
    ((x &&& 1) <<< UInt8.ofNat s).toNat.testBit i = (decide (i = s) && x.toNat.testBit 0) := by
  have hShift : (UInt8.ofNat s).toNat % 8 = s := by
    rw [UInt8.toNat_ofNat']
    omega
  rw [UInt8.toNat_shiftLeft, hShift, UInt8.toNat_and, Nat.testBit_mod_two_pow,
    Nat.testBit_shiftLeft, Nat.testBit_and]
  have hOne : ∀ n, Nat.testBit (1 : UInt8).toNat n = decide (n = 0) := fun n => by
    rw [show (1 : UInt8).toNat = 2 ^ 1 - 1 from rfl, Nat.testBit_two_pow_sub_one]
    exact decide_eq_decide.mpr (by omega)
  rw [hOne]
  by_cases hEq : i = s
  · subst hEq
    simp [hi]
  by_cases hLe : s ≤ i
  · simp [hEq, show i - s ≠ 0 by omega]
  · simp [hEq, hLe]

/-- A single bit that is added changes the view at its place only. -/
theorem bitAt_orAt (m : Nat → UInt8) (k : Nat) (x : UInt8) (j : Nat) :
    bitAt (orAt m (k / 8) ((x &&& 1) <<< UInt8.ofNat (k % 8))) j =
      (bitAt m j || (decide (j = k) && x.toNat.testBit 0)) := by
  unfold bitAt
  by_cases hByte : j / 8 = k / 8
  · have hBit : j % 8 = k % 8 ↔ j = k := by omega
    rw [hByte, orAt, Function.update_self, UInt8.toNat_or, Nat.testBit_or,
      testBit_one_shiftLeft x (Nat.mod_lt _ (by decide)) (Nat.mod_lt _ (by decide))]
    simp only [hBit]
  have hNe : j ≠ k := fun h => hByte (by rw [h])
  rw [orAt_of_ne _ hByte]
  simp [hNe]

end Beellama.Verified
