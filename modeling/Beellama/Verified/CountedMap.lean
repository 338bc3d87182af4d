import Mathlib.Data.Finmap
import Mathlib.Data.Finset.Max

/-!
# Counted maps

An ordered map from keys to positive counts, with the operations `incr` and `decr`.  It represents a
counting function when a key is present exactly if its count is not zero, with that count.

* `Represents.incr`, `Represents.decr`: the two operations follow the count.
* `Represents.mem_keys`: the keys are the support of the count.
-/

namespace Beellama.Verified

open Finmap

/-- A map from keys to counts. -/
abbrev CountedMap (κ : Type) := Finmap (fun _ : κ => Nat)

namespace CountedMap

variable {κ : Type} [DecidableEq κ]

/-- `++m[k]`: an absent key is value-initialised to zero first. -/
def incr (m : CountedMap κ) (k : κ) : CountedMap κ :=
  m.insert k ((m.lookup k).getD 0 + 1)

/-- `--m[k]`, erasing the key when its count reaches zero; without the key the map stays as it is.
-/
def decr (m : CountedMap κ) (k : κ) : CountedMap κ :=
  match m.lookup k with
  | none => m
  | some n => if n - 1 = 0 then m.erase k else m.insert k (n - 1)

/-- The map holds exactly the non-zero values of `f`. -/
def Represents (m : CountedMap κ) (f : κ → Nat) : Prop :=
  ∀ k, m.lookup k = if f k = 0 then none else some (f k)

theorem Represents.empty : Represents (∅ : CountedMap κ) (fun _ => 0) := by
  intro k
  simp

variable {m : CountedMap κ} {f g : κ → Nat}

variable (h : Represents m f)

include h

theorem Represents.congr (hfg : ∀ k, f k = g k) : Represents m g := by
  intro k
  rw [h k, hfg k]

theorem Represents.mem_keys (k : κ) : k ∈ m.keys ↔ f k ≠ 0 := by
  rw [Finmap.mem_keys, Finmap.mem_iff]
  constructor
  · rintro ⟨n, hn⟩ hzero
    simp [h k, hzero] at hn
  · intro hne
    exact ⟨f k, by simp [h k, hne]⟩

variable {k : κ}

theorem Represents.incr (hk : g k = f k + 1)
    (hne : ∀ j, j ≠ k → g j = f j) : Represents (m.incr k) g := by
  intro j
  by_cases hj : j = k
  · subst hj
    have hval : (m.lookup j).getD 0 = f j := by
      rw [h j]
      split <;> simp_all
    simp [CountedMap.incr, hval, hk]
  · rw [CountedMap.incr, lookup_insert_of_ne _ hj, h j, hne j hj]

theorem Represents.decr (hk : f k = g k + 1)
    (hne : ∀ j, j ≠ k → g j = f j) : Represents (m.decr k) g := by
  have hlookup : m.lookup k = some (g k + 1) := by
    rw [h k, hk]
    simp
  intro j
  rw [CountedMap.decr, hlookup]
  simp only [Nat.add_sub_cancel]
  by_cases hzero : g k = 0
  · rw [if_pos hzero]
    by_cases hj : j = k
    · subst hj
      rw [lookup_erase, if_pos hzero]
    · rw [lookup_erase_ne hj, h j, hne j hj]
  rw [if_neg hzero]
  by_cases hj : j = k
  · subst hj
    rw [lookup_insert, if_neg hzero]
  · rw [lookup_insert_of_ne _ hj, h j, hne j hj]

end CountedMap

end Beellama.Verified
