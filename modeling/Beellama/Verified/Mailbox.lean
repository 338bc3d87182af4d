/-!
# A queue that several parties read

A reader takes the first item of its own off one list; what it still has is the list filtered by
its own items.

* `filter_of_find?` — taking an item removes the head of the reader's part.
* `filter_eraseP_of_disjoint` — and leaves the parts of the others alone.
-/

namespace Beellama.Verified

open List

variable {α : Type} {queue : List α} {mine other : α → Bool}

theorem filter_of_find? {a : α} (h : queue.find? mine = some a) :
    queue.filter mine = a :: (queue.eraseP mine).filter mine := by
  induction queue with
  | nil => exact absurd h (by simp)
  | cons b rest ih =>
    by_cases hMine : mine b = true
    · rw [find?_cons_of_pos hMine] at h
      rw [eraseP_cons_of_pos hMine, filter_cons_of_pos hMine, Option.some.inj h]
    rw [find?_cons_of_neg hMine] at h
    rw [eraseP_cons_of_neg hMine, filter_cons_of_neg hMine,
      filter_cons_of_neg hMine]
    exact ih h

theorem filter_eraseP_of_disjoint (h : ∀ a, mine a = true → other a = false) :
    (queue.eraseP mine).filter other = queue.filter other := by
  induction queue with
  | nil => rfl
  | cons b rest ih =>
    by_cases hMine : mine b = true
    · have hOther : ¬ other b = true := by
        rw [h b hMine]
        exact Bool.false_ne_true
      rw [eraseP_cons_of_pos hMine, filter_cons_of_neg hOther]
    rw [eraseP_cons_of_neg hMine]
    by_cases hOther : other b = true
    · rw [filter_cons_of_pos hOther, filter_cons_of_pos hOther, ih]
    · rw [filter_cons_of_neg hOther, filter_cons_of_neg hOther, ih]

end Beellama.Verified
