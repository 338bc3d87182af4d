import Mathlib.Data.Nat.Basic
import Mathlib.Data.List.Basic

/-!
# Merging the best pair

Of all neighbouring pieces that have a rank the two with the least rank, the leftmost of them, become one
piece, until no neighbours have a rank.

* `BestMerges.unique` — there is one result.
* `BestMerges.flatten` — the pieces make up the same text before and after.
-/

namespace Beellama.Verified

open List

variable {α : Type} {rank : List α → List α → Option Int} {ps qs : List (List α)} {k : Nat}

/-- The rank of the pieces at `k` and `k + 1`. -/
def pairRank (rank : List α → List α → Option Int) (ps : List (List α)) (k : Nat) : Option Int :=
  match ps[k]?, ps[k + 1]? with
  | some x, some y => rank x y
  | _, _ => none

/-- The pieces at `k` and `k + 1` become one. -/
def mergeAt (ps : List (List α)) (k : Nat) : List (List α) :=
  (ps.set k (ps.getD k [] ++ ps.getD (k + 1) [])).eraseIdx (k + 1)

/-- The pair at `k` comes first: no pair has a lesser rank, none further left the same. -/
structure IsBest (rank : List α → List α → Option Int) (ps : List (List α)) (k : Nat) : Prop where
  ranked : ∃ r, pairRank rank ps k = some r
  least : ∀ r j r', pairRank rank ps k = some r → pairRank rank ps j = some r' →
    r < r' ∨ r = r' ∧ k ≤ j

/-- The pieces that remain when the best pair is merged as long as there is one. -/
inductive BestMerges (rank : List α → List α → Option Int) :
    List (List α) → List (List α) → Prop
  | done {ps : List (List α)} (hNone : ∀ k, pairRank rank ps k = none) : BestMerges rank ps ps
  | merge {ps qs : List (List α)} {k : Nat} (hBest : IsBest rank ps k)
      (hRest : BestMerges rank (mergeAt ps k) qs) : BestMerges rank ps qs

theorem pairRank_eq_some {r : Int} (h : pairRank rank ps k = some r) :
    ∃ x y, ps[k]? = some x ∧ ps[k + 1]? = some y ∧ rank x y = some r := by
  unfold pairRank at h
  split at h
  · rename_i x y hx hy
    exact ⟨x, y, hx, hy, h⟩
  · exact absurd h (by simp)

variable {x y : List α}

variable (hx : ps[k]? = some x) (hy : ps[k + 1]? = some y)

include hx hy

theorem pairRank_of_getElem? : pairRank rank ps k = rank x y := by
  unfold pairRank
  rw [hx, hy]

variable {j : Nat}

omit hx hy in
theorem IsBest.unique (h : IsBest rank ps k) (h' : IsBest rank ps j) : k = j := by
  obtain ⟨r, hr⟩ := h.ranked
  obtain ⟨r', hr'⟩ := h'.ranked
  rcases h.least r j r' hr hr' with hLt | ⟨hEq, hLe⟩
  · rcases h'.least r' k r hr' hr with hGt | ⟨hSame, -⟩
    · omega
    · omega
  rcases h'.least r' k r hr' hr with hGt | ⟨-, hGe⟩
  · omega
  · omega

omit hx hy in
theorem BestMerges.unique {qs' : List (List α)} (h : BestMerges rank ps qs)
    (h' : BestMerges rank ps qs') : qs = qs' := by
  induction h with
  | done hNone =>
    cases h' with
    | done => rfl
    | merge hBest =>
      obtain ⟨r, hr⟩ := hBest.ranked
      rw [hNone] at hr
      exact absurd hr (by simp)
  | merge hBest _ ih =>
    cases h' with
    | done hNone =>
      obtain ⟨r, hr⟩ := hBest.ranked
      rw [hNone] at hr
      exact absurd hr (by simp)
    | merge hBest' hRest' => exact ih (hBest.unique hBest' ▸ hRest')

theorem getElem?_mergeAt (j : Nat) : (mergeAt ps k)[j]? =
      if j < k then ps[j]? else if j = k then some (x ++ y) else ps[j + 1]? := by
  have hLt : k < ps.length := (List.getElem?_eq_some_iff.mp hx).1
  unfold mergeAt
  rw [getElem?_eraseIdx, getD_eq_getElem?_getD, getD_eq_getElem?_getD, hx, hy,
    Option.getD_some, Option.getD_some]
  by_cases hj : j < k
  · rw [if_pos (by omega), if_pos hj, getElem?_set_ne (by omega)]
  rw [if_neg hj]
  by_cases hk : j = k
  · rw [if_pos (by omega), if_pos hk, hk, getElem?_set_self hLt]
  · rw [if_neg (by omega), if_neg hk, getElem?_set_ne (by omega)]

theorem pairRank_mergeAt_of_lt (hj : j + 1 < k) : pairRank rank
    (mergeAt ps k) j = pairRank rank ps j := by
  unfold pairRank
  rw [getElem?_mergeAt hx hy, getElem?_mergeAt hx hy, if_pos (by omega), if_pos hj]

theorem pairRank_mergeAt_of_gt (hj : k < j) : pairRank rank (mergeAt ps k) j = pairRank rank ps
    (j + 1) := by
  unfold pairRank
  rw [getElem?_mergeAt hx hy, getElem?_mergeAt hx hy, if_neg (by omega), if_neg (by omega),
    if_neg (by omega), if_neg (by omega)]

theorem flatten_mergeAt : (mergeAt ps k).flatten = ps.flatten := by
  induction ps generalizing k with
  | nil => exact absurd hx (by simp)
  | cons p ps ih =>
    cases k with
    | zero =>
      cases ps with
      | nil => exact absurd hy (by simp)
      | cons q ps => simp [mergeAt]
    | succ k =>
      have hRest : mergeAt (p :: ps) (k + 1) = p :: mergeAt ps k := by
        unfold mergeAt
        simp
      rw [hRest, flatten_cons, flatten_cons, ih hx hy]

omit hy

omit hx

theorem BestMerges.flatten (h : BestMerges rank ps qs) : qs.flatten = ps.flatten := by
  induction h with
  | done => rfl
  | merge hBest _ ih =>
    obtain ⟨r, hRank⟩ := hBest.ranked
    obtain ⟨x, y, hx, hy, -⟩ := pairRank_eq_some hRank
    rw [ih, flatten_mergeAt hx hy]

end Beellama.Verified
