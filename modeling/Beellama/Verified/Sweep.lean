import Mathlib.Data.Finset.Card
import Mathlib.Data.List.Range

/-!
# Loops over the indices below a size

Each turn of a loop over `0, 1, …` rewrites the entry of its own index, so that afterwards every entry was
rewritten once (`sweep_get`); a counter that a turn lowers when its entry meets a predicate was lowered
by the number of these entries (`sweep_count`).
-/

namespace Beellama.Verified

variable {σ β : Type}

/-- The loop over the indices below `n`. -/
def sweep (turn : σ → Nat → σ) (n : Nat) (st : σ) : σ := (List.range n).foldl turn st

theorem sweep_succ (turn : σ → Nat → σ) (n : Nat) (st : σ) :
    sweep turn (n + 1) st = turn (sweep turn n st) n := by
  unfold sweep
  rw [List.range_succ, List.foldl_append]
  rfl

/-- Before turn `i` the loop meets `P i`. -/
theorem sweep_induction {turn : σ → Nat → σ} (P : Nat → σ → Prop) {n : Nat} {st : σ} (h : P 0 st)
    (hTurn : ∀ st i, i < n → P i st → P (i + 1) (turn st i)) : P n (sweep turn n st) := by
  induction n with
  | zero => exact h
  | succ n ih =>
    rw [sweep_succ]
    exact hTurn _ n (Nat.lt_succ_self n) (ih fun st i hLt => hTurn st i (Nat.lt_succ_of_lt hLt))

/-- What every turn keeps, the loop keeps. -/
theorem sweep_keeps {turn : σ → Nat → σ} {P : σ → Prop} {n : Nat} {st : σ} (h : P st)
    (hTurn : ∀ st i, i < n → P st → P (turn st i)) : P (sweep turn n st) :=
  sweep_induction (fun _ => P) h hTurn

section

variable {turn : σ → Nat → σ} (get : σ → Nat → β) (g : Nat → β → β)
  (hOwn : ∀ st i, get (turn st i) i = g i (get st i))
  (hOther : ∀ st i j, j ≠ i → get (turn st i) j = get st j)

include hOwn hOther

theorem sweep_get (n : Nat) (st : σ) (j : Nat) :
    get (sweep turn n st) j = if j < n then g j (get st j) else get st j := by
  induction n with
  | zero => rfl
  | succ n ih =>
    rw [sweep_succ]
    by_cases hLast : j = n
    · rw [if_neg (by omega)] at ih
      rw [if_pos (by omega), ← ih, hLast, hOwn]
    rw [hOther _ _ _ hLast, ih]
    by_cases hLt : j < n
    · rw [if_pos hLt, if_pos (by omega)]
    · rw [if_neg hLt, if_neg (by omega)]

theorem sweep_count (count : σ → Nat) (p : Nat → β → Prop) [∀ i b, Decidable (p i b)]
    (hCount : ∀ st i, count (turn st i) = if p i (get st i) then count st - 1 else count st)
    (n : Nat) (st : σ) :
    count (sweep turn n st) =
      count st - ((Finset.range n).filter fun i => p i (get st i)).card := by
  induction n with
  | zero => rfl
  | succ n ih =>
    have hLast : get (sweep turn n st) n = get st n := by
      rw [sweep_get get g hOwn hOther, if_neg (Nat.lt_irrefl n)]
    rw [sweep_succ, hCount, hLast, ih, Finset.range_add_one, Finset.filter_insert]
    by_cases hMeets : p n (get st n)
    · rw [if_pos hMeets, if_pos hMeets, Finset.card_insert_of_notMem (by simp)]
      omega
    · rw [if_neg hMeets, if_neg hMeets]

end

end Beellama.Verified
