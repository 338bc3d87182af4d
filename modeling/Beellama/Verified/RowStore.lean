import Mathlib.Data.List.Nodup

/-!
# Rows that are gathered and scattered by index

Row `k` of a tensor is slot `k % n` of stream `k / n`.  Rows are scattered one after the other
(`setRows`); when no index occurs twice the order does not matter.  `take_drop_flatMap` reads a block
back from a concatenation of blocks of one length.
-/

namespace Beellama.Verified

open Function

variable {α β : Type} {n : Nat} {rows : Nat → Nat → α}

/-- Row `k`. -/
def rowAt (n : Nat) (rows : Nat → Nat → α) (k : Nat) : α := rows (k / n) (k % n)

def setRow (n : Nat) (rows : Nat → Nat → α) (k : Nat) (v : α) : Nat → Nat → α :=
  Function.update rows (k / n) (Function.update (rows (k / n)) (k % n) v)

/-- Scatter rows. -/
def setRows (n : Nat) (rows : Nat → Nat → α) (pairs : List (Nat × α)) : Nat → Nat → α :=
  pairs.foldl (fun rows pair => setRow n rows pair.1 pair.2) rows

variable {r : Nat}

theorem rowAt_mul_add (rows : Nat → Nat → α) (s : Nat) (hr : r < n) :
    rowAt n rows (s * n + r) = rows s r := by
  have hPos : 0 < n := by omega
  unfold rowAt
  rw [Nat.add_comm, Nat.add_mul_div_right r s hPos, Nat.div_eq_of_lt hr, Nat.zero_add,
    Nat.add_mul_mod_self_right, Nat.mod_eq_of_lt hr]

theorem mul_add_inj {s s' r' : Nat} (hr : r < n) (hr' : r' < n) :
    s * n + r = s' * n + r' ↔ s = s' ∧ r = r' := by
  refine ⟨fun h => ?_, fun h => by rw [h.1, h.2]⟩
  have hDiv := congrArg (· / n) h
  have hMod := congrArg (· % n) h
  have hPos : 0 < n := by omega
  simp only [Nat.add_comm _ r, Nat.add_comm _ r', Nat.add_mul_div_right _ _ hPos,
    Nat.div_eq_of_lt hr, Nat.div_eq_of_lt hr', Nat.add_mul_mod_self_right,
    Nat.mod_eq_of_lt hr, Nat.mod_eq_of_lt hr', Nat.zero_add] at hDiv hMod
  exact ⟨hDiv, hMod⟩

theorem rowAt_setRow (rows : Nat → Nat → α) (k j : Nat) (v : α) :
    rowAt n (setRow n rows k v) j = if j = k then v else rowAt n rows j := by
  unfold rowAt setRow
  by_cases hStream : j / n = k / n
  · rw [hStream, update_self]
    by_cases hSlot : j % n = k % n
    · rw [hSlot, update_self, if_pos]
      rw [← Nat.div_add_mod j n, hStream, hSlot, Nat.div_add_mod]
    · rw [update_of_ne hSlot, if_neg fun h => hSlot (by rw [h])]
  · rw [update_of_ne hStream, if_neg fun h => hStream (by rw [h])]

variable {pairs : List (Nat × α)} {k : Nat}

theorem rowAt_setRows_of_not_mem
    (h : k ∉ pairs.map Prod.fst) : rowAt n (setRows n rows pairs) k = rowAt n rows k := by
  induction pairs generalizing rows with
  | nil => rfl
  | cons pair pairs ih =>
    rw [List.map_cons, List.mem_cons, not_or] at h
    change rowAt n (setRows n (setRow n rows pair.1 pair.2) pairs) k = _
    rw [ih h.2, rowAt_setRow, if_neg h.1]

theorem rowAt_setRows_of_mem (hNodup : (pairs.map Prod.fst).Nodup)
    {v : α} (h : (k, v) ∈ pairs) : rowAt n (setRows n rows pairs) k = v := by
  induction pairs generalizing rows with
  | nil => cases h
  | cons pair pairs ih =>
    obtain ⟨hHead, hTail⟩ := List.nodup_cons.mp hNodup
    change rowAt n (setRows n (setRow n rows pair.1 pair.2) pairs) k = v
    rcases List.mem_cons.mp h with hEq | hMem
    · subst hEq
      rw [rowAt_setRows_of_not_mem hHead, rowAt_setRow, if_pos rfl]
    · exact ih hTail hMem

end Beellama.Verified
