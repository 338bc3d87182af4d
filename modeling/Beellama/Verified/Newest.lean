import Mathlib.Data.List.Sort
import Mathlib.Data.List.Induction

/-!
# Keeping the greatest elements

A sorted list keeps at most `limit` of the elements that arrive.  Dropping the least ones in the end leaves
the greatest (`newest`); evicting the least element before the new one is inserted leaves them exactly
when the last arrival is one of them (`evicted_perm_iff`).  `Buried` counts how many elements stand
above each old one.
-/

namespace Beellama.Verified

open List

variable {α : Type} {le : α → α → Prop} [DecidableRel le]

/-- Insert after the elements that are not greater. -/
def insertAfter (le : α → α → Prop) [DecidableRel le] (x : α) : List α → List α
  | [] => [x]
  | a :: l => if le a x then a :: insertAfter le x l else x :: a :: l

/-- Evict the least element of a full list, then insert. -/
def evictInsert (le : α → α → Prop) [DecidableRel le] (limit : Nat) (l : List α) (x : α) : List α :=
  insertAfter le x (if limit ≤ l.length then l.tail else l)

/-- All elements, inserted in their order of arrival. -/
def insertAll (le : α → α → Prop) [DecidableRel le] (xs : List α) : List α :=
  xs.foldl (fun l x => insertAfter le x l) []

/-- The greatest elements. -/
def newest (le : α → α → Prop) [DecidableRel le] (limit : Nat) (xs : List α) : List α :=
  (xs.insertionSort le).drop (xs.length - limit)

theorem insertAfter_perm (x : α) (l : List α) : (insertAfter le x l).Perm (x :: l) := by
  induction l with
  | nil => exact List.Perm.refl _
  | cons a l ih =>
    unfold insertAfter
    split
    · exact (ih.cons a).trans (List.Perm.swap x a l)
    · exact List.Perm.refl _

@[simp] theorem insertAfter_length (x : α) (l : List α) :
    (insertAfter le x l).length = l.length + 1 := (insertAfter_perm x l).length_eq

variable {limit : Nat} {l : List α}

theorem evictInsert_length (hLimit : 0 < limit) (hLength : l.length ≤ limit) (x : α) :
    (evictInsert le limit l x).length ≤ limit := by
  unfold evictInsert
  rw [insertAfter_length]
  split
  · rw [length_tail]
    omega
  · omega

variable {x a : α}

theorem mem_evictInsert (h : a ∈ evictInsert le limit l x) : a = x ∨ a ∈ l := by
  rcases mem_cons.mp ((insertAfter_perm x _).mem_iff.mp h) with rfl | hMem
  · exact Or.inl rfl
  split at hMem
  · exact Or.inr (mem_of_mem_tail hMem)
  · exact Or.inr hMem

theorem insertAll_append (xs : List α) (x : α) :
    insertAll le (xs ++ [x]) = insertAfter le x (insertAll le xs) := by
  unfold insertAll
  rw [foldl_append]
  rfl

theorem insertAll_perm (xs : List α) : (insertAll le xs).Perm xs := by
  induction xs using reverseRecOn with
  | nil => exact List.Perm.refl _
  | append_singleton xs x ih =>
    rw [insertAll_append]
    exact ((insertAfter_perm x _).trans (ih.cons x)).trans (perm_append_singleton x xs).symm

section Order

variable [IsTrans α le] [Std.Total le]

theorem insertAfter_sorted (x : α) (h : l.Pairwise le) : (insertAfter le x l).Pairwise le := by
  induction l with
  | nil => exact pairwise_singleton le x
  | cons a l ih =>
    obtain ⟨hFirst, hRest⟩ := pairwise_cons.mp h
    unfold insertAfter
    split
    · rename_i hLe
      refine pairwise_cons.mpr ⟨fun b hb => ?_, ih hRest⟩
      rcases mem_cons.mp ((insertAfter_perm x l).mem_iff.mp hb) with rfl | hMem
      · exact hLe
      · exact hFirst b hMem
    rename_i hNot
    have hLess : le x a := (Std.Total.total a x).resolve_left hNot
    refine pairwise_cons.mpr ⟨fun b hb => ?_, h⟩
    rcases mem_cons.mp hb with rfl | hMem
    · exact hLess
    · exact IsTrans.trans x a b hLess (hFirst b hMem)

theorem insertAll_sorted (xs : List α) : (insertAll le xs).Pairwise le := by
  induction xs using reverseRecOn with
  | nil => exact List.Pairwise.nil
  | append_singleton xs x ih =>
    rw [insertAll_append]
    exact insertAfter_sorted x ih

variable {xs : List α}

/-- On elements that the order tells apart, the insertions sort. -/
theorem insertAll_eq (hAnti : ∀ a ∈ xs, ∀ b ∈ xs, le a b → le b a → a = b) :
    insertAll le xs = xs.insertionSort le := by
  apply List.Perm.eq_of_pairwise _ (insertAll_sorted xs) (pairwise_insertionSort le xs)
    ((insertAll_perm xs).trans (perm_insertionSort le xs).symm)
  intro a b ha hb
  exact hAnti a ((insertAll_perm xs).mem_iff.mp ha) b ((perm_insertionSort le xs).mem_iff.mp hb)

omit [Std.Total le] in
theorem insertAfter_of_not_le (h : (a :: l).Pairwise le) (hNot : ¬ le a x) :
    insertAfter le x l = x :: l := by
  cases l with
  | nil => rfl
  | cons b l =>
    have hb : ¬ le b x := by
      intro hLe
      exact hNot (IsTrans.trans a b x ((pairwise_cons.mp h).1 b mem_cons_self) hLe)
    rw [insertAfter, if_neg hb]

omit [Std.Total le] in
/-- The least element dropped after an insertion among the last elements is the one the whole list
has there. -/
theorem tail_insertAfter_drop (x : α) (h : l.Pairwise le) (k : Nat) :
    (insertAfter le x (l.drop k)).tail = (insertAfter le x l).drop (k + 1) := by
  induction l generalizing k with
  | nil => simp [insertAfter]
  | cons a l ih =>
    cases k with
    | zero => rw [drop_zero, drop_one]
    | succ k =>
      rw [drop_succ_cons, ih (pairwise_cons.mp h).2 k]
      by_cases hLe : le a x
      · rw [insertAfter, if_pos hLe, drop_succ_cons]
      · rw [insertAfter, if_neg hLe, insertAfter_of_not_le h hLe, drop_succ_cons,
          drop_succ_cons, drop_succ_cons]

/-- What the evictions leave: the last arrival, and the greatest of the others. -/
theorem foldl_evictInsert (hLimit : 0 < limit) (xs : List α) (x : α) :
    (xs ++ [x]).foldl (evictInsert le limit) [] =
      insertAfter le x ((insertAll le xs).drop (xs.length + 1 - limit)) := by
  induction xs using reverseRecOn generalizing x with
  | nil =>
    show evictInsert le limit [] x = _
    unfold evictInsert
    simp [insertAll]
  | append_singleton xs y ih =>
    have hLength : (insertAll le xs).length = xs.length := (insertAll_perm xs).length_eq
    rw [foldl_append, ih y]
    show evictInsert le limit _ x = _
    unfold evictInsert
    rw [insertAfter_length, length_drop, length_append, length_singleton,
      insertAll_append]
    by_cases hFull : limit ≤ xs.length + 1
    · have hStep : xs.length + 1 + 1 - limit = xs.length + 1 - limit + 1 := by omega
      rw [if_pos (by omega), tail_insertAfter_drop y (insertAll_sorted xs), hStep]
    have hZero : xs.length + 1 - limit = 0 := by omega
    have hZero' : xs.length + 1 + 1 - limit = 0 := by omega
    rw [if_neg (by omega), hZero, hZero', drop_zero, drop_zero]

omit [Std.Total le] in
/-- An insertion among the last elements of a list is one among all, as far as these elements go,
exactly when it does not come before them. -/
theorem insertAfter_drop_perm_iff (h : l.Pairwise le) (hx : x ∉ l) {k : Nat} :
    (insertAfter le x (l.drop k)).Perm ((insertAfter le x l).drop k) ↔
      k ≤ l.countP fun a => decide (le a x) := by
  induction l generalizing k with
  | nil =>
    cases k with
    | zero => simp
    | succ k => simp [insertAfter]
  | cons a l ih =>
    obtain ⟨hFirst, hRest⟩ := pairwise_cons.mp h
    cases k with
    | zero => simp
    | succ k =>
      rw [drop_succ_cons, countP_cons]
      by_cases hLe : le a x
      · rw [insertAfter, if_pos hLe, drop_succ_cons,
          ih hRest fun hMem => hx (mem_cons_of_mem _ hMem), if_pos (decide_eq_true hLe),
          Nat.add_le_add_iff_right]
      have hNone : l.countP (fun a => decide (le a x)) = 0 := by
        rw [countP_eq_zero]
        intro b hb hbx
        exact hLe (IsTrans.trans a b x (hFirst b hb) (of_decide_eq_true hbx))
      rw [insertAfter, if_neg hLe, drop_succ_cons, if_neg (by simp [hLe])]
      refine iff_of_false (fun hPerm => ?_) (by omega)
      have hMem : x ∈ insertAfter le x (l.drop k) :=
        (insertAfter_perm x _).mem_iff.mpr mem_cons_self
      exact hx (mem_of_mem_drop (hPerm.mem_iff.mp hMem))

/-- The evictions leave the greatest elements exactly when the last arrival is one of them. -/
theorem evicted_perm_iff (hLimit : 0 < limit)
    (hAnti : ∀ a ∈ xs ++ [x], ∀ b ∈ xs ++ [x], le a b → le b a → a = b) (hx : x ∉ xs) :
    ((xs ++ [x]).foldl (evictInsert le limit) []).Perm (newest le limit (xs ++ [x])) ↔
      xs.countP (fun a => decide (¬ le a x)) < limit := by
  have hPerm : (insertAll le xs).Perm xs := insertAll_perm xs
  have hNot : x ∉ insertAll le xs := fun hMem => hx (hPerm.mem_iff.mp hMem)
  have hCount : xs.length = xs.countP (fun a => decide (le a x)) +
      xs.countP (fun a => decide (¬ le a x)) := by
    have hSum := length_eq_countP_add_countP (fun a => decide (le a x)) (l := xs)
    simp only [decide_eq_true_eq] at hSum
    exact hSum
  rw [foldl_evictInsert hLimit, newest, ← insertAll_eq hAnti, insertAll_append, length_append,
    length_singleton, insertAfter_drop_perm_iff (insertAll_sorted xs) hNot,
    hPerm.countP_eq]
  omega

end Order

/-! ## Elements below the greatest -/

/-- The elements above `a`. -/
def countAbove (le : α → α → Prop) [DecidableRel le] (a : α) (l : List α) : Nat :=
  l.countP fun b => decide (¬ le b a)

/-- Every old element has at least `n` elements above it. -/
def Buried (le : α → α → Prop) [DecidableRel le] (old : α → Prop) (n : Nat) (l : List α) : Prop :=
  ∀ a ∈ l, old a → n ≤ countAbove le a l

section Buried

variable {old : α → Prop} {n : Nat} {l : List α}

theorem Buried.nil : Buried le old n [] := fun _ ha => absurd ha not_mem_nil

theorem Buried.zero : Buried le old 0 l := fun _ _ _ => Nat.zero_le _

variable {m : Nat}

theorem Buried.mono {old' : α → Prop} (h : Buried le old n l)
    (hOld : ∀ a ∈ l, old' a → old a) (hm : m ≤ n) : Buried le old' m l :=
  fun a ha haOld => hm.trans (h a ha (hOld a ha haOld))

theorem Buried.perm {l' : List α} (h : Buried le old n l) (hPerm : l.Perm l') :
    Buried le old n l' := by
  intro a ha hOld
  show n ≤ l'.countP _
  rw [← hPerm.countP_eq]
  exact h a (hPerm.mem_iff.mpr ha) hOld

theorem countAbove_cons (a x : α) (l : List α) :
    countAbove le a (x :: l) = countAbove le a l + if le x a then 0 else 1 := by
  unfold countAbove
  by_cases hLe : le x a
  · simp [hLe]
  · simp [hLe]

/-- Of a sorted list, nothing above an element is dropped before the element. -/
theorem countAbove_drop (h : l.Pairwise le) (k : Nat) (ha : a ∈ l.drop k) :
    countAbove le a (l.drop k) = countAbove le a l := by
  have hSplit := take_append_drop k l
  have hNone : (l.take k).countP (fun b => decide (¬ le b a)) = 0 := by
    rw [countP_eq_zero]
    intro b hb
    rw [← hSplit, pairwise_append] at h
    simpa using h.2.2 b hb a ha
  unfold countAbove
  conv_rhs => rw [← hSplit, countP_append, hNone, Nat.zero_add]

theorem Buried.drop (h : Buried le old n l) (hSorted : l.Pairwise le) (k : Nat) :
    Buried le old n (l.drop k) := by
  intro a ha hOld
  rw [countAbove_drop hSorted k ha]
  exact h a (mem_of_mem_drop ha) hOld

/-- Dropping the least elements before a new one joins. -/
theorem Buried.cons_drop (h : Buried le old n (x :: l)) (hSorted : l.Pairwise le)
    (hNew : ¬ old x) (k : Nat) : Buried le old n (x :: l.drop k) := by
  intro a ha hOld
  rcases mem_cons.mp ha with rfl | ha
  · exact absurd hOld hNew
  · rw [countAbove_cons, countAbove_drop hSorted k ha, ← countAbove_cons]
    exact h a (mem_cons_of_mem _ (mem_of_mem_drop ha)) hOld

/-- Dropping one element lowers no count by more than one. -/
theorem countAbove_filter {Q : α → Bool} (hOne : (l.filter fun b => !Q b).length ≤ 1) (a : α) :
    countAbove le a l ≤ countAbove le a (l.filter Q) + 1 := by
  unfold countAbove
  rw [countP_eq_countP_filter_add l _ Q]
  have hLost : (l.filter fun b => !Q b).countP (fun b => decide (¬ le b a)) ≤ 1 :=
    countP_le_length.trans hOne
  omega

section Changed

variable {g : α → α} {P : α → Bool}

/-- A change of the elements leaves what is new and above an old element that stays: it stays as well,
and above that element. -/
def KeepsAbove (le : α → α → Prop) (old : α → Prop) (g : α → α) (P : α → Bool) (l : List α) : Prop :=
  ∀ a ∈ l, old a → P (g a) = true → ∀ b ∈ l, ¬ old b → ¬ le b a → P (g b) = true ∧ ¬ le (g b) (g a)

variable [IsTrans α le] [Std.Total le]

theorem exists_greatest_old (ha : a ∈ l) (hOld : old a) :
    ∃ b ∈ l, old b ∧ ∀ c ∈ l, old c → le c b := by
  induction l generalizing a with
  | nil => cases ha
  | cons x l ih =>
    by_cases hRest : ∃ c ∈ l, old c
    · obtain ⟨c, hc, hcOld⟩ := hRest
      obtain ⟨b, hb, hbOld, hGreatest⟩ := ih hc hcOld
      by_cases hx : old x ∧ ¬ le x b
      · have hbx : le b x := (Std.Total.total b x).resolve_right hx.2
        refine ⟨x, mem_cons_self, hx.1, fun d hd hdOld => ?_⟩
        rcases mem_cons.mp hd with rfl | hd
        · exact (Std.Total.total d d).elim id id
        · exact IsTrans.trans d b x (hGreatest d hd hdOld) hbx
      refine ⟨b, mem_cons_of_mem _ hb, hbOld, fun d hd hdOld => ?_⟩
      rcases mem_cons.mp hd with rfl | hd
      · by_contra hNot
        exact hx ⟨hdOld, hNot⟩
      · exact hGreatest d hd hdOld
    rcases mem_cons.mp ha with rfl | ha
    · refine ⟨a, mem_cons_self, hOld, fun d hd hdOld => ?_⟩
      rcases mem_cons.mp hd with rfl | hd
      · exact (Std.Total.total d d).elim id id
      · exact absurd ⟨d, hd, hdOld⟩ hRest
    · exact absurd ⟨a, ha, hOld⟩ hRest

/-- A change that keeps what is new above the old elements keeps them buried. -/
theorem Buried.map_filter (h : Buried le old n l) (hKeeps : KeepsAbove le old g P l)
    (hOld : ∀ a ∈ l, old (g a) → old a) : Buried le old n ((l.map g).filter P) := by
  intro a' ha' hOld'
  obtain ⟨hMap, hP⟩ := mem_filter.mp ha'
  obtain ⟨a, ha, rfl⟩ := mem_map.mp hMap
  -- what stands above the greatest old element is new
  obtain ⟨b, hb, hbOld, hGreatest⟩ : ∃ b ∈ l, old b ∧ ∀ c ∈ l, old c → le c b :=
    exists_greatest_old ha (hOld a ha hOld')
  apply (h b hb hbOld).trans
  unfold countAbove
  rw [countP_filter, countP_map]
  apply countP_mono_left
  intro c hc hAbove
  have hNotLe : ¬ le c b := of_decide_eq_true hAbove
  have hab : le a b := hGreatest a ha (hOld a ha hOld')
  have hStays := hKeeps a ha (hOld a ha hOld') hP c hc (fun hcOld => hNotLe (hGreatest c hc hcOld))
    fun hca => hNotLe (IsTrans.trans c a b hca hab)
  simp [hStays.1, hStays.2]

end Changed

theorem Buried.newest (h : Buried le old n l) (hSorted : l.Pairwise le)
    (hRefl : ∀ a, le a a) (hm : m ≤ n) : ∀ a ∈ l.drop (l.length - m), ¬ old a := by
  intro a ha hOld
  have hAbove := h a (mem_of_mem_drop ha) hOld
  rw [← countAbove_drop hSorted _ ha] at hAbove
  have hLess : countAbove le a (l.drop (l.length - m)) < (l.drop (l.length - m)).length := by
    apply lt_of_le_of_ne countP_le_length
    intro hEq
    have hAll := countP_eq_length.mp hEq a ha
    simp [hRefl a] at hAll
  rw [length_drop] at hLess
  omega

end Buried

end Beellama.Verified
