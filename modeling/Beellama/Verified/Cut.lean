import Mathlib.Data.List.Basic

/-!
# Cutting a list from the left

A rule says how long the first piece of a list is and what comes of it.  A run cuts a list as a rule
says just where it finds the piece of the rule at every place the rule comes to (`cut_iff`).
-/

namespace Beellama.Verified

open List

variable {α β : Type} {rule rule' : List α → Nat → β → Prop} {text rest : List α} {outs : List β}
  {n : Nat} {out : β}

/-- The list is cut into pieces, and this comes of them. -/
inductive Cut (rule : List α → Nat → β → Prop) : List α → List β → Prop
  | nil : Cut rule [] []
  | cons {text : List α} {n : Nat} {out : β} {outs : List β} (hText : text ≠ [])
      (hRule : rule text n out) (hCut : Cut rule (text.drop n) outs) : Cut rule text (out :: outs)

/-- What is left of a text after some of its pieces. -/
inductive IsLeft (rule : List α → Nat → β → Prop) (text : List α) : List α → Prop
  | whole : IsLeft rule text text
  | next {rest : List α} {n : Nat} {out : β} (hLeft : IsLeft rule text rest) (hRest : rest ≠ [])
      (hRule : rule rest n out) : IsLeft rule text (rest.drop n)

/-- The longest prefix with a value among those of length 1 to `k`. -/
def LongestUpTo (value : List α → Option β) (rest : List α) (k : Nat) : Option (Nat × β) → Prop
  | none => ∀ m, 0 < m → m ≤ k → value (rest.take m) = none
  | some (n, out) => 0 < n ∧ n ≤ k ∧ value (rest.take n) = some out ∧
      ∀ m, n < m → m ≤ k → value (rest.take m) = none

variable {value : List α → Option β}

theorem LongestUpTo.zero : LongestUpTo value rest 0 none :=
  fun _ hPos hLe => absurd hPos (by omega)

variable {k : Nat} {found : Option (Nat × β)}

section

variable (h : LongestUpTo value rest k found)

include h

theorem LongestUpTo.succ : LongestUpTo value rest (k + 1)
      ((value (rest.take (k + 1))).elim found fun out => some (k + 1, out)) := by
  cases hValue : value (rest.take (k + 1)) with
  | some out => exact ⟨by omega, by omega, hValue, fun m hm hLe => absurd hm (by omega)⟩
  | none =>
    have hNone : ∀ m, ¬m ≤ k → m ≤ k + 1 → value (rest.take m) = none := by
      intro m hm hLe
      rwa [show m = k + 1 by omega]
    cases found with
    | none => exact fun m hPos hLe => if hk : m ≤ k then h m hPos hk else hNone m hk hLe
    | some found =>
      obtain ⟨hPos, hLe, hFound, hMax⟩ := h
      exact ⟨hPos, by omega, hFound,
        fun m hm hLe => if hk : m ≤ k then hMax m hm hk else hNone m hk hLe⟩

theorem LongestUpTo.mono {k' : Nat} (hLe : k ≤ k')
    (hNone : ∀ m, k < m → m ≤ k' → value (rest.take m) = none) :
    LongestUpTo value rest k' found := by
  induction hLe with
  | refl => exact h
  | step hLe ih =>
    have hNext := (ih fun m hm hLe => hNone m hm (by omega)).succ
    rwa [hNone _ (Nat.lt_succ_of_le hLe) (Nat.le_refl _)] at hNext

omit h in
theorem exists_longestUpTo (value : List α → Option β) (rest : List α) (k : Nat) :
    ∃ found, LongestUpTo value rest k found := by
  induction k with
  | zero => exact ⟨none, .zero⟩
  | succ k ih =>
    obtain ⟨found, h⟩ := ih
    exact ⟨_, h.succ⟩

theorem LongestUpTo.unique {found' : Option (Nat × β)} (h' : LongestUpTo value rest k found') :
    found = found' := by
  rcases found with - | ⟨n, out⟩ <;> rcases found' with - | ⟨n', out'⟩
  · rfl
  · obtain ⟨hPos, hLe, hValue, -⟩ := h'
    simp [h n' hPos hLe] at hValue
  · obtain ⟨hPos, hLe, hValue, -⟩ := h
    simp [h' n hPos hLe] at hValue
  obtain ⟨-, hLe, hValue, hMax⟩ := h
  obtain ⟨-, hLe', hValue', hMax'⟩ := h'
  rcases Nat.lt_trichotomy n n' with hlt | rfl | hlt
  · simp [hMax n' hlt hLe'] at hValue'
  · rw [Option.some.inj (hValue.symm.trans hValue')]
  · simp [hMax' n hlt hLe] at hValue

end

theorem Cut.mono (h : Cut rule text outs)
    (hRules : ∀ {rest n out}, rule rest n out → rule' rest n out) : Cut rule' text outs := by
  induction h with
  | nil => exact .nil
  | cons hText hRule _ ih => exact .cons hText (hRules hRule) ih

theorem IsLeft.mono (h : IsLeft rule text rest)
    (hRules : ∀ {rest n out}, rule rest n out → rule' rest n out) : IsLeft rule' text rest := by
  induction h with
  | whole => exact .whole
  | next _ hRest hRule ih => exact ih.next hRest (hRules hRule)

theorem IsLeft.cons (h : IsLeft rule (text.drop n) rest) (hText : text ≠ [])
    (hRule : rule text n out) : IsLeft rule text rest := by
  induction h with
  | whole => exact .next .whole hText hRule
  | next _ hRest hRule ih => exact ih.next hRest hRule

theorem IsLeft.eq_or (h : IsLeft rule text rest) :
    rest = text ∨ ∃ n out, rule text n out ∧ IsLeft rule (text.drop n) rest := by
  induction h with
  | whole => exact .inl rfl
  | next _ hRest hRule ih =>
    obtain rfl | ⟨n, out, hFirst, hLeft⟩ := ih
    · exact .inr ⟨_, _, hRule, .whole⟩
    · exact .inr ⟨n, out, hFirst, hLeft.next hRest hRule⟩

theorem IsLeft.suffix (h : IsLeft rule text rest) : rest <:+ text := by
  induction h with
  | whole => exact suffix_rfl
  | next _ _ _ ih => exact (drop_suffix _ _).trans ih

/-- A rule that finds a piece at every place cuts the list. -/
theorem exists_cut (hPos : ∀ {rest n out}, rule rest n out → 0 < n)
    (hFinds : ∀ rest, IsLeft rule text rest → rest ≠ [] → ∃ n out, rule rest n out) :
    ∃ outs, Cut rule text outs := by
  induction hLen : text.length using Nat.strongRecOn generalizing text with
  | ind len ih =>
    by_cases hText : text = []
    · exact hText ▸ ⟨[], .nil⟩
    obtain ⟨n, out, hRule⟩ := hFinds text .whole hText
    have hShort : (text.drop n).length < len := by
      have := length_pos_iff.mpr hText
      have := hPos hRule
      rw [length_drop]
      omega
    obtain ⟨outs, hCut⟩ := ih _ hShort (fun rest h => hFinds rest (h.cons hText hRule)) rfl
    exact ⟨out :: outs, .cons hText hRule hCut⟩

/-- A run is cut as the rule says where it finds the piece of the rule at every place. -/
theorem cut_iff {run : List α → Nat → β → Prop} (hPos : ∀ {rest n out}, rule rest n out → 0 < n)
    (hUnique : ∀ {rest n out m out'}, rule rest n out → rule rest m out' → n = m)
    (hSize : ∀ {rest n out m}, run rest n out → rule rest m out → n = m) :
    (∃ outs, Cut run text outs ∧ Cut rule text outs) ↔
      ∀ rest, IsLeft rule text rest → rest ≠ [] → ∃ n out, run rest n out ∧ rule rest n out := by
  constructor
  · rintro ⟨outs, hRun, hCut⟩
    have hBoth : Cut (fun rest n out => run rest n out ∧ rule rest n out) text outs := by
      induction hRun with
      | nil => exact .nil
      | cons hText hRun _ ih =>
        cases hCut with
        | cons _ hRule hCut =>
          obtain rfl := hSize hRun hRule
          exact .cons hText ⟨hRun, hRule⟩ (ih hCut)
    clear hRun hCut
    intro rest hLeft hRest
    induction hBoth with
    | nil => exact absurd (suffix_nil.mp hLeft.suffix) hRest
    | cons _ hRule _ ih =>
      obtain rfl | ⟨m, out', hFirst, hLeft⟩ := hLeft.eq_or
      · exact ⟨_, _, hRule⟩
      · exact ih (hUnique hRule.2 hFirst ▸ hLeft)
  intro hFinds
  obtain ⟨outs, hCut⟩ := exists_cut
    (fun h => hPos h.2) fun rest h => hFinds rest (h.mono And.right)
  exact ⟨outs, hCut.mono And.left, hCut.mono And.right⟩

end Beellama.Verified
