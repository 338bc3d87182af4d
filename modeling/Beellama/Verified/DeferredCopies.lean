import Mathlib.Data.List.Induction

/-!
# Copies that are queued and made later

A copy between two cells of a store `ι → α` is queued as a pair, and the queue is made later in its
order.  After it every cell holds what one cell holds now, its root: `applyCopies_eq`.

* `applyCopies_zero_iff`: when clearing cells before the queue is clearing them afterwards;
* `applyCopies_snoc_iff`: when clearing the target and queueing a copy is making it after the queue.
-/

namespace Beellama.Verified

open List Function

variable {ι α : Type} [DecidableEq ι]

/-- Copy one cell to another. -/
def copyOne (cells : ι → α) (copy : ι × ι) : ι → α :=
  Function.update cells copy.2 (cells copy.1)

/-- Make the queued copies, the oldest first. -/
def applyCopies (queue : List (ι × ι)) (cells : ι → α) : ι → α := queue.foldl copyOne cells

/-- The cell whose present contents a cell will hold once the queue is made. -/
def copyRoot (queue : List (ι × ι)) : ι → ι := applyCopies queue id

theorem applyCopies_snoc (queue : List (ι × ι)) (copy : ι × ι) (cells : ι → α) :
    applyCopies (queue ++ [copy]) cells = copyOne (applyCopies queue cells) copy := by
  unfold applyCopies
  rw [foldl_append]
  rfl

theorem applyCopies_eq (queue : List (ι × ι)) (cells : ι → α) :
    applyCopies queue cells = fun i => cells (copyRoot queue i) := by
  induction queue using reverseRecOn with
  | nil => rfl
  | append_singleton queue copy ih =>
    unfold copyRoot
    rw [applyCopies_snoc, applyCopies_snoc, ih]
    funext i
    by_cases hi : i = copy.2
    · subst hi
      simp only [copyOne, update_self]
      rfl
    · simp only [copyOne, update_of_ne hi]
      rfl

theorem copyRoot_snoc (queue : List (ι × ι)) (copy : ι × ι) (i : ι) :
    copyRoot (queue ++ [copy]) i =
      if i = copy.2 then copyRoot queue copy.1 else copyRoot queue i := by
  unfold copyRoot
  rw [applyCopies_snoc]
  exact update_apply _ _ _ _

variable {queue : List (ι × ι)}

theorem copyRoot_of_not_target {i : ι} (h : ∀ copy ∈ queue, copy.2 ≠ i) : copyRoot queue i = i := by
  induction queue using reverseRecOn with
  | nil => rfl
  | append_singleton queue copy ih =>
    rw [copyRoot_snoc, if_neg fun hi => h copy (by simp) hi.symm]
    exact ih fun copy hCopy => h copy (mem_append_left _ hCopy)

theorem copyRoot_of_forall {Q : ι → Prop}
    (hSource : ∀ copy ∈ queue, Q copy.1) {i : ι} (hi : Q i) : Q (copyRoot queue i) := by
  induction queue using reverseRecOn generalizing i with
  | nil => exact hi
  | append_singleton queue copy ih =>
    have hRest : ∀ copy ∈ queue, Q copy.1 := fun copy hCopy =>
      hSource copy (mem_append_left _ hCopy)
    rw [copyRoot_snoc]
    split
    · exact ih hRest (hSource copy (by simp))
    · exact ih hRest hi

variable [Zero α]

/-- Clear the cells of a set. -/
def zeroCells (P : ι → Prop) [DecidablePred P] (cells : ι → α) : ι → α :=
  fun i => if P i then 0 else cells i

section Zeroing

variable {P : ι → Prop} [DecidablePred P] {queue : List (ι × ι)} {cells : ι → α}

/-- No cell is still to be copied across the border of the set, unless the contents are zero. -/
def ZeroSafe (P : ι → Prop) (queue : List (ι × ι)) (cells : ι → α) : Prop :=
  ∀ i, (P i ↔ P (copyRoot queue i)) ∨ cells (copyRoot queue i) = 0

theorem applyCopies_zero_iff :
    applyCopies queue (zeroCells P cells) = zeroCells P (applyCopies queue cells) ↔
      ZeroSafe P queue cells := by
  rw [applyCopies_eq, applyCopies_eq, funext_iff]
  refine forall_congr' fun i => ?_
  unfold zeroCells
  by_cases hTarget : P i <;> by_cases hSource : P (copyRoot queue i) <;>
    simp [hTarget, hSource, eq_comm]

end Zeroing

omit [DecidableEq ι] in
theorem zeroCells_congr {P Q : ι → Prop} [DecidablePred P] [DecidablePred Q] {cells : ι → α}
    (h : ∀ i, P i ↔ Q i) : zeroCells P cells = zeroCells Q cells := by
  funext i
  unfold zeroCells
  simp [h i]

omit [DecidableEq ι] in
theorem zeroCells_zeroCells (P Q : ι → Prop) [DecidablePred P] [DecidablePred Q] (cells : ι → α) :
    zeroCells P (zeroCells Q cells) = zeroCells (fun i => P i ∨ Q i) cells := by
  funext i
  unfold zeroCells
  by_cases hP : P i <;> simp [hP]

/-- A copy that is queued after its target, with other cells, was cleared.  The copy agrees
with one made after the queue when the cleared cells are not mixed with others and the source
has the contents in question. -/
theorem applyCopies_snoc_iff {P : ι → Prop} [DecidablePred P] {cells : ι → α} {copy : ι × ι}
    (value : α) :
    applyCopies (queue ++ [copy]) (zeroCells P cells) =
        Function.update (zeroCells P (applyCopies queue cells)) copy.2 value ↔
      (∀ i ≠ copy.2, (P i ↔ P (copyRoot queue i)) ∨ cells (copyRoot queue i) = 0) ∧
        zeroCells P cells (copyRoot queue copy.1) = value := by
  rw [applyCopies_eq, applyCopies_eq, funext_iff]
  have hOther : ∀ i, i ≠ copy.2 →
      (zeroCells P cells (copyRoot (queue ++ [copy]) i) =
        update (zeroCells P fun i => cells (copyRoot queue i)) copy.2 value i ↔
        (P i ↔ P (copyRoot queue i)) ∨ cells (copyRoot queue i) = 0) := by
    intro i hi
    rw [copyRoot_snoc, if_neg hi, update_of_ne hi]
    unfold zeroCells
    by_cases hTarget : P i <;> by_cases hSource : P (copyRoot queue i) <;>
      simp [hTarget, hSource, eq_comm]
  have hTarget : zeroCells P cells (copyRoot (queue ++ [copy]) copy.2) =
        update (zeroCells P fun i => cells (copyRoot queue i)) copy.2 value copy.2 ↔
      zeroCells P cells (copyRoot queue copy.1) = value := by
    rw [copyRoot_snoc, if_pos rfl, update_self]
  constructor
  · exact fun h => ⟨fun i hi => (hOther i hi).mp (h i), hTarget.mp (h copy.2)⟩
  rintro ⟨hSafe, hValue⟩ i
  by_cases hi : i = copy.2
  · subst hi
    exact hTarget.mpr hValue
  · exact (hOther i hi).mpr (hSafe i hi)

end Beellama.Verified
