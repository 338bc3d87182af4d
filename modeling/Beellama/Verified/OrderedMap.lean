import Mathlib.Data.List.Pairwise
import Mathlib.Algebra.Order.Ring.Int

/-!
# Ordered maps

A map with ordered keys as the list of its entries in key order, the order in
which it is iterated.
-/

namespace Beellama.Verified

open List

/-- A map from ordered keys: its entries, with strictly increasing keys. -/
structure OrderedMap (κ ν : Type) [LinearOrder κ] where
  entries : List (κ × ν)
  sorted : entries.Pairwise fun a b => a.1 < b.1
  deriving DecidableEq

namespace OrderedMap

variable {κ ν : Type} [LinearOrder κ]

def empty : OrderedMap κ ν := ⟨[], List.Pairwise.nil⟩

def find (m : OrderedMap κ ν) (k : κ) : Option ν := m.entries.lookup k

def keys (m : OrderedMap κ ν) : List κ := m.entries.map Prod.fst

/-- The entries with `k` mapped to `v`. -/
def insertEntry (k : κ) (v : ν) : List (κ × ν) → List (κ × ν)
  | [] => [(k, v)]
  | (k', v') :: rest =>
    if k < k' then (k, v) :: (k', v') :: rest
    else if k = k' then (k, v) :: rest
    else (k', v') :: insertEntry k v rest

variable {k : κ} {v : ν}

theorem mem_insertEntry {m : List (κ × ν)} {e : κ × ν}
    (h : e ∈ insertEntry k v m) : e = (k, v) ∨ e ∈ m := by
  induction m with
  | nil => simpa [insertEntry] using h
  | cons e' rest ih =>
    simp only [insertEntry] at h
    split at h
    · simpa using h
    split at h
    · cases mem_cons.mp h with
      | inl hEq => exact Or.inl hEq
      | inr hRest => exact Or.inr (mem_cons_of_mem _ hRest)
    cases mem_cons.mp h with
    | inl hEq => exact Or.inr (hEq ▸ mem_cons_self)
    | inr hRest =>
      cases ih hRest with
      | inl hNew => exact Or.inl hNew
      | inr hOld => exact Or.inr (mem_cons_of_mem _ hOld)

theorem insertEntry_sorted {m : List (κ × ν)}
    (h : m.Pairwise fun a b => a.1 < b.1) :
    (insertEntry k v m).Pairwise fun a b => a.1 < b.1 := by
  induction m with
  | nil => simp [insertEntry]
  | cons e rest ih =>
    obtain ⟨k', v'⟩ := e
    have hHead := (pairwise_cons.mp h).1
    have hRest := (pairwise_cons.mp h).2
    simp only [insertEntry]
    split
    next hLt =>
      refine pairwise_cons.mpr ⟨?_, h⟩
      intro e he
      cases mem_cons.mp he with
      | inl hEq => simpa [hEq] using hLt
      | inr hMem => exact lt_trans hLt (hHead e hMem)
    next hNotLt =>
      split
      next hEq =>
        refine pairwise_cons.mpr ⟨?_, hRest⟩
        intro e he
        exact hEq ▸ hHead e he
      next hNe =>
        refine pairwise_cons.mpr ⟨?_, ih hRest⟩
        intro e he
        cases mem_insertEntry he with
        | inl hNew =>
          have hLt : k' < k := lt_of_le_of_ne (not_lt.mp hNotLt) (Ne.symm hNe)
          simpa [hNew] using hLt
        | inr hOld => exact hHead e hOld

def insert (m : OrderedMap κ ν) (k : κ) (v : ν) : OrderedMap κ ν :=
  ⟨insertEntry k v m.entries, insertEntry_sorted m.sorted⟩

theorem lookup_cons_ne {j : κ} (v : ν) (m : List (κ × ν)) (h : j ≠ k) :
    ((k, v) :: m).lookup j = m.lookup j := by
  rw [lookup_cons, beq_false_of_ne h]

theorem lookup_insertEntry (k : κ) (v : ν) (m : List (κ × ν)) (j : κ) :
    (insertEntry k v m).lookup j = if j = k then some v else m.lookup j := by
  induction m with
  | nil =>
    by_cases hj : j = k
    · simp [insertEntry, hj]
    · rw [insertEntry, lookup_cons_ne v [] hj, if_neg hj]
  | cons e rest ih =>
    obtain ⟨k', v'⟩ := e
    simp only [insertEntry]
    split
    · by_cases hj : j = k
      · simp [hj]
      · rw [lookup_cons_ne v _ hj, if_neg hj]
    next hNotLt =>
      split
      next hEq =>
        by_cases hj : j = k
        · simp [hj]
        · have hj' : j ≠ k' := fun h => hj (h.trans hEq.symm)
          rw [lookup_cons_ne v _ hj, if_neg hj, lookup_cons_ne v' _ hj']
      next hNe =>
        by_cases hj : j = k'
        · have hjk : k' ≠ k := Ne.symm hNe
          simp [hj, hjk]
        · rw [lookup_cons_ne v' _ hj, lookup_cons_ne v' _ hj]
          exact ih

@[simp] theorem find_empty (k : κ) : (empty : OrderedMap κ ν).find k = none := rfl

theorem find_insert (m : OrderedMap κ ν) (k : κ) (v : ν) (j : κ) :
    (m.insert k v).find j = if j = k then some v else m.find j :=
  lookup_insertEntry k v m.entries j

variable {m : OrderedMap κ ν}

theorem mem_entries : (k, v) ∈ m.entries ↔ m.find k = some v := by
  obtain ⟨entries, hSorted⟩ := m
  show (k, v) ∈ entries ↔ entries.lookup k = some v
  induction entries with
  | nil => simp
  | cons e rest ih =>
    obtain ⟨k', v'⟩ := e
    have hHead := (pairwise_cons.mp hSorted).1
    by_cases hk : k = k'
    · have hNot : (k, v) ∉ rest := by
        intro hMem
        have hLt := hHead _ hMem
        rw [hk] at hLt
        exact lt_irrefl _ hLt
      simp [hk] at hNot ⊢
      constructor
      · intro h
        cases h with
        | inl hEq => exact hEq.symm
        | inr hMem => exact absurd hMem hNot
      · intro h
        exact Or.inl h.symm
    rw [lookup_cons_ne v' rest hk, mem_cons]
    simp only [Prod.mk.injEq, hk, false_and, false_or]
    exact ih hSorted.of_cons

theorem insertEntry_last {m : List (κ × ν)} (h : ∀ e ∈ m, e.1 < k) (v : ν) :
    insertEntry k v m = m ++ [(k, v)] := by
  induction m with
  | nil => rfl
  | cons e rest ih =>
    have hLt := h e (by simp)
    rw [insertEntry, if_neg (lt_asymm hLt), if_neg (ne_of_lt hLt).symm,
      ih fun e' he' => h e' (mem_cons_of_mem _ he')]
    rfl

theorem ext_entries {m' : OrderedMap κ ν} (h : m.entries = m'.entries) : m = m' := by
  cases m
  cases h
  rfl

theorem foldl_insert {l : List (κ × ν)} (h : (m.entries ++ l).Pairwise fun a b => a.1 < b.1) :
    (l.foldl (fun m e => m.insert e.1 e.2) m).entries = m.entries ++ l := by
  induction l generalizing m with
  | nil => exact (append_nil _).symm
  | cons e l ih =>
    have hLast : (m.insert e.1 e.2).entries = m.entries ++ [e] :=
      insertEntry_last (fun e' he' => (pairwise_append.mp h).2.2 e' he' e (by simp)) e.2
    rw [foldl_cons, ih, hLast, append_assoc]
    · rfl
    · rw [hLast, append_assoc]
      exact h

end OrderedMap

end Beellama.Verified
