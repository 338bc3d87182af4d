import Mathlib.Data.Nat.ModEq

/-!
# The ring buffer of the samplers

`ring_buffer` of `llama-sampler.cpp` holds the last elements that were pushed since it was cleared
(`Holds.window`).
-/

namespace Beellama.Ports

open List

/-- `ring_buffer`; one of capacity 0 throws when it is pushed to, and the samplers push to none. -/
structure RingBuffer (τ : Type) where
  capacity : Nat
  capacity_pos : 0 < capacity
  sz : Nat := 0
  first : Nat := 0
  pos : Nat := 0
  data : Nat → τ

namespace RingBuffer

variable {τ : Type} {b : RingBuffer τ} {l h : List τ} {x : τ}

def pushBack (b : RingBuffer τ) (value : τ) : RingBuffer τ :=
  let b := if b.sz = b.capacity then { b with first := (b.first + 1) % b.capacity }
    else { b with sz := b.sz + 1 }
  { b with data := Function.update b.data b.pos value, pos := (b.pos + 1) % b.capacity }

theorem pushBack_capacity : (b.pushBack x).capacity = b.capacity := by
  simp only [pushBack]
  split <;> rfl

/-- `none` where it throws. -/
def front (b : RingBuffer τ) : Option τ := if b.sz = 0 then none else some (b.data b.first)

/-- `none` where it throws. -/
def rat (b : RingBuffer τ) (i : Nat) : Option τ :=
  if b.sz ≤ i then none else some (b.data ((b.first + b.sz - i - 1) % b.capacity))

def clear (b : RingBuffer τ) : RingBuffer τ := { b with sz := 0, first := 0, pos := 0 }

/-- The last `n` elements. -/
def lastN (n : Nat) (l : List τ) : List τ := l.drop (l.length - n)

theorem lastN_append {n : Nat} (hn : 0 < n) : lastN n (h ++ [x]) = lastN n (lastN n h ++ [x]) := by
  by_cases hLen : h.length < n
  · simp [lastN, Nat.sub_eq_zero_of_le hLen.le]
  rw [lastN, lastN, lastN, length_append, length_append,
    drop_append_of_le_length (by simp; omega),
    drop_append_of_le_length (by simp; omega), drop_drop]
  simp
  omega

/-- The ring holds the elements of a list, oldest first. -/
structure Holds (b : RingBuffer τ) (l : List τ) : Prop where
  sz_eq : b.sz = l.length
  sz_le : b.sz ≤ b.capacity
  first_lt : b.first < b.capacity
  pos_eq : b.pos = (b.first + b.sz) % b.capacity
  get : ∀ i < l.length, l[i]? = some (b.data ((b.first + i) % b.capacity))

theorem slot_ne {n first i j : Nat} (hi : i < n) (hj : j < n) (hNe : i ≠ j) :
    (first + i) % n ≠ (first + j) % n := by
  intro hEq
  have hMod : i % n = j % n := Nat.ModEq.add_left_cancel' first hEq
  rw [Nat.mod_eq_of_lt hi, Nat.mod_eq_of_lt hj] at hMod
  exact hNe hMod

theorem Holds.pushBack (hb : Holds b l) : Holds (b.pushBack x) (lastN b.capacity (l ++ [x])) := by
  obtain ⟨hSz, hLe, hFirst, hPos, hGet⟩ := hb
  by_cases hFull : b.sz = b.capacity
  · have hLast : lastN b.capacity (l ++ [x]) = l.tail ++ [x] := by
      rw [lastN, length_append, ← hSz, hFull, length_singleton, Nat.add_sub_cancel_left,
        drop_append_of_le_length (by omega), drop_one]
    have hCapacity := b.capacity_pos
    rw [hLast]
    simp only [RingBuffer.pushBack, if_pos hFull]
    refine ⟨by simp; omega, hLe, Nat.mod_lt _ hCapacity, ?_, fun i hi => ?_⟩
    · simp [hPos, hFull]
    simp only [length_append, length_tail, length_singleton] at hi
    dsimp only
    rw [Nat.mod_add_mod, hPos, hFull, Nat.add_assoc]
    by_cases hEnd : i + 1 = b.capacity
    · rw [Nat.add_comm 1 i, hEnd, Nat.add_mod_right,
        getElem?_append_right (by simp; omega)]
      simp [show i - (l.length - 1) = 0 by omega]
    rw [Function.update_of_ne, getElem?_append_left (by simp; omega), getElem?_tail,
      Nat.add_comm 1 i]
    · exact hGet _ (by omega)
    · have := @slot_ne _ b.first _ _ (show 1 + i < b.capacity by omega) hCapacity
      simpa using this
  have hLast : lastN b.capacity (l ++ [x]) = l ++ [x] := by
    simp [lastN, Nat.sub_eq_zero_of_le (show l.length + 1 ≤ b.capacity by omega)]
  rw [hLast]
  simp only [RingBuffer.pushBack, if_neg hFull]
  refine ⟨by simp [hSz], by dsimp only; omega, hFirst, by simp [hPos, Nat.add_assoc],
    fun i hi => ?_⟩
  simp only [length_append, length_singleton] at hi
  dsimp only
  by_cases hEnd : i = l.length
  · simp [hEnd, hPos, hSz]
  rw [Function.update_of_ne, getElem?_append_left (by omega)]
  · exact hGet i (by omega)
  · rw [hPos]
    exact slot_ne (by omega) (by omega) (by omega)

theorem clear_holds : Holds b.clear [] :=
  ⟨rfl, Nat.zero_le _, b.capacity_pos, (Nat.zero_mod _).symm, by simp⟩

theorem Holds.rat_eq (hb : Holds b l) (i : Nat) : b.rat i = l.reverse[i]? := by
  obtain ⟨hSz, -, -, -, hGet⟩ := hb
  by_cases hi : b.sz ≤ i
  · rw [rat, if_pos hi, getElem?_eq_none (by simp; omega)]
  rw [rat, if_neg hi, getElem?_reverse (by omega), hGet _ (by omega)]
  congr 3
  omega

end RingBuffer

end Beellama.Ports
