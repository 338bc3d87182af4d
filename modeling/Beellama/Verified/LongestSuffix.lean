import Mathlib.Data.List.Infix

/-!
# The longest suffix in a set of words

An Aho-Corasick automaton remembers, of all it has read, the longest suffix that
still is in a prefix-closed set of words.  This module has the set-theoretic
side: what one more symbol does to the longest suffix, and how a walk down the
proper suffixes of a word finds it.
-/

namespace Beellama.Verified

open List

variable {α : Type}

/-- A set of words with the prefixes of its members. -/
structure PrefixClosed (N : List α → Prop) : Prop where
  nil : N []
  init : ∀ {u : List α} {c : α}, N (u ++ [c]) → N u

/-- `u` is the longest suffix of `w` in `N`. -/
structure LongestSuffix (N : List α → Prop) (w u : List α) : Prop where
  mem : N u
  suffix : u <:+ w
  longest : ∀ {v : List α}, N v → v <:+ w → v.length ≤ u.length

/-- No suffix of `w` longer than its suffix `u` continues in `N` with `c`: where
the walk down the failure links stands. -/
structure SuffixBound (N : List α → Prop) (w : List α) (c : α) (u : List α) : Prop where
  mem : N u
  suffix : u <:+ w
  bound : ∀ {v : List α}, N (v ++ [c]) → v <:+ w → v.length ≤ u.length

theorem suffix_eq_of_length {u v w : List α} (hu : u <:+ w) (hv : v <:+ w)
    (hLen : u.length = v.length) : u = v :=
  (suffix_of_suffix_length_le hu hv (by omega)).eq_of_length hLen

theorem suffix_tail_of_lt {u v w : List α} (hu : u <:+ w) (hv : v <:+ w)
    (hLen : v.length < u.length) : v <:+ u.tail := by
  have hSuffix : v <:+ u := suffix_of_suffix_length_le hv hu (by omega)
  cases u with
  | nil => simp at hLen
  | cons a u =>
    cases suffix_cons_iff.mp hSuffix with
    | inl hEq =>
      subst hEq
      omega
    | inr hTail => exact hTail

theorem suffix_snoc {v w : List α} {c : α} (h : v <:+ w ++ [c]) :
    v = [] ∨ ∃ v', v = v' ++ [c] ∧ v' <:+ w := by
  obtain rfl | ⟨v', d, rfl⟩ := eq_nil_or_concat v
  · exact Or.inl rfl
  rw [concat_eq_append] at h ⊢
  obtain ⟨t, ht⟩ := h
  rw [← append_assoc] at ht
  have hInit := append_inj_left' ht rfl
  have hLast := append_inj_right' ht rfl
  rw [hLast]
  exact Or.inr ⟨v', rfl, t, hInit⟩

theorem suffix_append_singleton {v w : List α} (c : α) (h : v <:+ w) : v ++ [c] <:+ w ++ [c] := by
  obtain ⟨t, ht⟩ := h
  exact ⟨t, by rw [← ht, append_assoc]⟩

namespace LongestSuffix

variable {N : List α → Prop} {w u v : List α} {c : α}

theorem self (h : N w) : LongestSuffix N w w :=
  ⟨h, suffix_rfl, fun _ hv => hv.length_le⟩

theorem nil (hN : PrefixClosed N) : LongestSuffix N [] [] := self hN.nil

/-- The walk for the next symbol starts at the longest suffix. -/
theorem suffixBound (hN : PrefixClosed N) (h : LongestSuffix N w u) : SuffixBound N w c u :=
  ⟨h.mem, h.suffix, fun hv => h.longest (hN.init hv)⟩

/-- What is a suffix of `w` in `N` is one of the longest suffix. -/
theorem suffix_of_mem (h : LongestSuffix N w u) (hv : N v) (hSuffix : v <:+ w) : v <:+ u :=
  suffix_of_suffix_length_le hSuffix h.suffix (h.longest hv hSuffix)

end LongestSuffix

namespace SuffixBound

variable {N : List α → Prop} {w u f : List α} {c : α}

/-- The walk goes on to the longest proper suffix where `c` does not continue. -/
theorem fail (hN : PrefixClosed N) (h : SuffixBound N w c u) (hStop : ¬N (u ++ [c]))
    (hFail : LongestSuffix N u.tail f) : SuffixBound N w c f where
  mem := hFail.mem
  suffix := (hFail.suffix.trans (tail_suffix u)).trans h.suffix
  bound := by
    intro v hv hSuffix
    have hLe := h.bound hv hSuffix
    have hNe : v.length ≠ u.length := by
      intro hEq
      rw [suffix_eq_of_length hSuffix h.suffix hEq] at hv
      exact hStop hv
    exact hFail.longest (hN.init hv) (suffix_tail_of_lt h.suffix hSuffix (by omega))

/-- The walk ends where `c` continues. -/
theorem found (h : SuffixBound N w c u) (hNext : N (u ++ [c])) :
    LongestSuffix N (w ++ [c]) (u ++ [c]) where
  mem := hNext
  suffix := suffix_append_singleton c h.suffix
  longest := by
    intro v hv hSuffix
    cases suffix_snoc hSuffix with
    | inl hNil => simp [hNil]
    | inr hSnoc =>
      obtain ⟨v', rfl, hSuffix'⟩ := hSnoc
      have hLe := h.bound hv hSuffix'
      simp only [length_append]
      omega

/-- The walk ends at the empty word where `c` does not even start a word. -/
theorem stuck (hN : PrefixClosed N) (h : SuffixBound N w c []) (hStop : ¬N [c]) :
    LongestSuffix N (w ++ [c]) [] where
  mem := hN.nil
  suffix := nil_suffix
  longest := by
    intro v hv hSuffix
    cases suffix_snoc hSuffix with
    | inl hNil => simp [hNil]
    | inr hSnoc =>
      obtain ⟨v', rfl, hSuffix'⟩ := hSnoc
      have hLe := h.bound hv hSuffix'
      have hNil : v' = [] := length_eq_zero_iff.mp (by simpa using hLe)
      rw [hNil] at hv
      exact absurd hv hStop

end SuffixBound

end Beellama.Verified
