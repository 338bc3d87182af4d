import Mathlib.Computability.Language

/-!
# Separated lists

The language of a list of items with a separator between any two, and of the lists that remain when items
are left out: such a text is written by the first item that is there (`optionalStart`), and behind it
each later one comes with its separator or not at all (`optionalTail`).
-/

namespace Beellama.Verified.SeparatedList

open List Language

variable {α ι : Type*} (sep : Language α) (entry : ι → Language α)

/-- The items, each behind a separator. -/
def following : List ι → Language α
  | [] => 1
  | k :: ks => sep * entry k * following ks

/-- The items with separators between them. -/
def joined : List ι → Language α
  | [] => 1
  | k :: ks => entry k * following sep entry ks

/-- The items behind another one, each with its separator or left out. -/
def optionalTail : List ι → Language α
  | [] => 1
  | k :: ks => (1 + sep * entry k) * optionalTail ks

/-- The first item that is not left out, with the items behind it. -/
def optionalStart : List ι → Language α
  | [] => 0
  | k :: ks => entry k * optionalTail sep entry ks + optionalStart ks

variable {sep entry}

variable {entry' : ι → Language α} {ks : List ι}

theorem following_congr
    (h : ∀ k ∈ ks, entry k = entry' k) : following sep entry ks = following sep entry' ks := by
  induction ks with
  | nil => rfl
  | cons k ks ih =>
    rw [following, following, h k mem_cons_self,
      ih fun j hj => h j (mem_cons_of_mem k hj)]

theorem joined_congr
    (h : ∀ k ∈ ks, entry k = entry' k) : joined sep entry ks = joined sep entry' ks := by
  cases ks with
  | nil => rfl
  | cons k ks =>
    rw [joined, joined, h k mem_cons_self,
      following_congr fun j hj => h j (mem_cons_of_mem k hj)]

theorem following_append (ks S : List ι) :
    following sep entry (ks ++ S) = following sep entry ks * following sep entry S := by
  induction ks with
  | nil => exact (one_mul _).symm
  | cons k ks ih =>
    rw [cons_append, following, ih]
    exact (mul_assoc _ _ _).symm

theorem joined_append (h : ks ≠ []) (S : List ι) :
    joined sep entry (ks ++ S) = joined sep entry ks * following sep entry S := by
  cases ks with
  | nil => exact absurd rfl h
  | cons k ks => rw [cons_append, joined, joined, following_append, mul_assoc]

variable {w : List α}

/-- Each item comes with its separator or not at all. -/
theorem mem_optionalTail :
    w ∈ optionalTail sep entry ks ↔ ∃ S, S.Sublist ks ∧ w ∈ following sep entry S := by
  induction ks generalizing w with
  | nil =>
    constructor
    · exact fun h => ⟨[], .slnil, h⟩
    · rintro ⟨S, hS, hw⟩
      rwa [sublist_nil.mp hS] at hw
  | cons k ks ih =>
    rw [optionalTail, add_mul, one_mul]
    constructor
    · rintro (hLeft | hKept)
      · obtain ⟨S, hS, hw⟩ := ih.mp hLeft
        exact ⟨S, hS.cons k, hw⟩
      obtain ⟨u, hu, v, hv, rfl⟩ := mem_mul.mp hKept
      obtain ⟨S, hS, hv⟩ := ih.mp hv
      exact ⟨k :: S, hS.cons_cons k, append_mem_mul hu hv⟩
    rintro ⟨S, hS, hw⟩
    cases hS with
    | cons _ hS => exact Or.inl (ih.mpr ⟨S, hS, hw⟩)
    | @cons_cons S _ _ hS =>
      obtain ⟨u, hu, v, hv, rfl⟩ := mem_mul.mp hw
      exact Or.inr (append_mem_mul hu (ih.mpr ⟨S, hS, hv⟩))

/-- The text begins with some item, and the items behind it may be left out. -/
theorem mem_optionalStart :
    w ∈ optionalStart sep entry ks ↔
      ∃ S, S.Sublist ks ∧ S ≠ [] ∧ w ∈ joined sep entry S := by
  induction ks generalizing w with
  | nil =>
    constructor
    · exact fun h => absurd h (notMem_zero w)
    · rintro ⟨S, hS, hNe, -⟩
      exact absurd (sublist_nil.mp hS) hNe
  | cons k ks ih =>
    constructor
    · rintro (hKept | hLeft)
      · obtain ⟨u, hu, v, hv, rfl⟩ := mem_mul.mp hKept
        obtain ⟨S, hS, hv⟩ := mem_optionalTail.mp hv
        exact ⟨k :: S, hS.cons_cons k, cons_ne_nil k S, append_mem_mul hu hv⟩
      · obtain ⟨S, hS, hNe, hw⟩ := ih.mp hLeft
        exact ⟨S, hS.cons k, hNe, hw⟩
    rintro ⟨S, hS, hNe, hw⟩
    cases hS with
    | cons _ hS => exact Or.inr (ih.mpr ⟨S, hS, hNe, hw⟩)
    | @cons_cons S _ _ hS =>
      obtain ⟨u, hu, v, hv, rfl⟩ := mem_mul.mp hw
      exact Or.inl (append_mem_mul hu (mem_optionalTail.mpr ⟨S, hS, hv⟩))

/-- Without any item in front, every item may be left out. -/
theorem mem_one_add_optionalStart :
    w ∈ 1 + optionalStart sep entry ks ↔ ∃ S, S.Sublist ks ∧ w ∈ joined sep entry S := by
  rw [mem_add, mem_optionalStart]
  constructor
  · rintro (hNone | ⟨S, hS, -, hw⟩)
    · exact ⟨[], nil_sublist ks, hNone⟩
    · exact ⟨S, hS, hw⟩
  rintro ⟨S, hS, hw⟩
  by_cases hNe : S = []
  · rw [hNe] at hw
    exact Or.inl hw
  · exact Or.inr ⟨S, hS, hNe, hw⟩

theorem one_add_sep_mul_optionalStart (ks : List ι) :
    1 + sep * optionalStart sep entry ks = optionalTail sep entry ks := by
  induction ks with
  | nil => rw [optionalStart, optionalTail, mul_zero, add_zero]
  | cons k ks ih =>
    calc 1 + sep * optionalStart sep entry (k :: ks)
        = 1 + (sep * (entry k * optionalTail sep entry ks) +
            sep * optionalStart sep entry ks) := by rw [optionalStart, mul_add]
      _ = (1 + sep * optionalStart sep entry ks) +
            sep * entry k * optionalTail sep entry ks := by
          rw [add_comm (sep * (entry k * _)), ← add_assoc, mul_assoc]
      _ = optionalTail sep entry (k :: ks) := by rw [ih, optionalTail, add_mul, one_mul]

/-- Items that are there, and behind them those that may be left out. -/
theorem mem_joined_mul_optionalTail {later : List ι} (h : ks ≠ []) :
    w ∈ joined sep entry ks * optionalTail sep entry later ↔
      ∃ S, S.Sublist later ∧ w ∈ joined sep entry (ks ++ S) := by
  constructor
  · intro hw
    obtain ⟨u, hu, v, hv, rfl⟩ := mem_mul.mp hw
    obtain ⟨S, hS, hv⟩ := mem_optionalTail.mp hv
    refine ⟨S, hS, ?_⟩
    rw [joined_append h]
    exact append_mem_mul hu hv
  rintro ⟨S, hS, hw⟩
  rw [joined_append h] at hw
  obtain ⟨u, hu, v, hv, rfl⟩ := mem_mul.mp hw
  exact append_mem_mul hu (mem_optionalTail.mpr ⟨S, hS, hv⟩)

/-- A choice between languages stays one in front of others and behind them. -/
theorem mem_between {κ : Type*} {A M B : Language α} {P : κ → Prop} {N : κ → Language α}
    (h : ∀ w, w ∈ M ↔ ∃ S, P S ∧ w ∈ N S) :
    w ∈ A * M * B ↔ ∃ S, P S ∧ w ∈ A * N S * B := by
  constructor
  · intro hw
    obtain ⟨u, hu, b, hb, rfl⟩ := mem_mul.mp hw
    obtain ⟨a, ha, m, hm, rfl⟩ := mem_mul.mp hu
    obtain ⟨S, hS, hm⟩ := (h m).mp hm
    exact ⟨S, hS, append_mem_mul (append_mem_mul ha hm) hb⟩
  rintro ⟨S, hS, hw⟩
  obtain ⟨u, hu, b, hb, rfl⟩ := mem_mul.mp hw
  obtain ⟨a, ha, m, hm, rfl⟩ := mem_mul.mp hu
  exact append_mem_mul (append_mem_mul ha ((h m).mpr ⟨S, hS, hm⟩)) hb

end Beellama.Verified.SeparatedList
