import Mathlib.Data.List.Basic
import Mathlib.Order.Fin.Basic
import Mathlib.Tactic.Ring

/-!
# Decimal numerals

Numerals are lists of digits, the first digit first.  `value` is the number a
numeral stands for, `numeral` the canonical numeral of a number, without leading
zeros.  Numerals of one length are ordered as their values are.
-/

namespace Beellama.Verified

open List

namespace Decimal

abbrev Digit := Fin 10

instance neZeroTen : NeZero 10 := ⟨by decide⟩

def value : List Digit → Nat
  | [] => 0
  | d :: ds => d.val * 10 ^ ds.length + value ds

theorem value_cons (d : Digit) (ds : List Digit) :
    value (d :: ds) = d.val * 10 ^ ds.length + value ds := rfl

theorem value_append (a b : List Digit) : value (a ++ b) = value a * 10 ^ b.length + value b := by
  induction a with
  | nil => simp [value]
  | cons d a ih =>
    rw [cons_append, value_cons, value_cons, ih, length_append, Nat.pow_add]
    ring

theorem value_lt (ds : List Digit) : value ds < 10 ^ ds.length := by
  induction ds with
  | nil => exact Nat.one_pos
  | cons d ds ih =>
    have hDigit : d.val + 1 ≤ 10 := d.isLt
    calc value (d :: ds) < d.val * 10 ^ ds.length + 10 ^ ds.length := Nat.add_lt_add_left ih _
      _ = (d.val + 1) * 10 ^ ds.length := by ring
      _ ≤ 10 * 10 ^ ds.length := Nat.mul_le_mul_right _ hDigit
      _ = 10 ^ (d :: ds).length := by rw [length_cons, Nat.pow_succ, Nat.mul_comm]

theorem lead_lt {a b p r s : Nat} (hLead : a < b) (hRest : r < p) : a * p + r < b * p + s := by
  calc a * p + r < a * p + p := Nat.add_lt_add_left hRest _
    _ = (a + 1) * p := by ring
    _ ≤ b * p := Nat.mul_le_mul_right p hLead
    _ ≤ b * p + s := Nat.le_add_right _ _

variable {d : Digit} {ds es : List Digit}

theorem cons_le_cons {e : Digit} (hLength : ds.length = es.length) :
    value (d :: ds) ≤ value (e :: es) ↔ d < e ∨ d = e ∧ value ds ≤ value es := by
  rw [value_cons, value_cons, hLength]
  have hd := value_lt ds
  have he := value_lt es
  rw [hLength] at hd
  rcases lt_trichotomy d e with hLt | hEq | hGt
  · exact iff_of_true (Nat.le_of_lt (lead_lt hLt hd)) (Or.inl hLt)
  · rw [hEq]
    simp
  apply iff_of_false
  · exact Nat.not_le.mpr (lead_lt hGt he)
  rintro (hLt | ⟨hEq, -⟩)
  · exact lt_asymm hLt hGt
  · exact ne_of_gt hGt hEq

theorem value_inj (hLength : ds.length = es.length)
    (hValue : value ds = value es) : ds = es := by
  induction ds generalizing es with
  | nil => exact (length_eq_zero_iff.mp hLength.symm).symm
  | cons d ds ih =>
    cases es with
    | nil => simp at hLength
    | cons e es =>
      have hLength' : ds.length = es.length := by simpa using hLength
      have hLe := (cons_le_cons hLength').mp (Nat.le_of_eq hValue)
      have hGe := (cons_le_cons hLength'.symm).mp (Nat.le_of_eq hValue.symm)
      have hHead : d = e := by
        rcases hLe with hLt | ⟨hEq, -⟩
        · rcases hGe with hGt | ⟨hEq, -⟩
          · exact absurd hLt (lt_asymm hGt)
          · exact hEq.symm
        · exact hEq
      subst hHead
      rw [value_cons, value_cons, hLength'] at hValue
      rw [ih hLength' (Nat.add_left_cancel hValue)]

@[simp] theorem value_zeros (n : Nat) : value (replicate n 0) = 0 := by
  induction n with
  | zero => rfl
  | succ n ih =>
    rw [replicate_succ, value_cons, ih]
    simp

theorem value_nines (n : Nat) : value (replicate n 9) = 10 ^ n - 1 := by
  induction n with
  | zero => rfl
  | succ n ih =>
    have hPos : 0 < 10 ^ n := Nat.pow_pos (by decide)
    rw [replicate_succ, value_cons, ih, length_replicate, Nat.pow_succ]
    show 9 * 10 ^ n + (10 ^ n - 1) = 10 ^ n * 10 - 1
    omega

theorem value_le_nines (ds : List Digit) : value ds ≤ value (replicate ds.length 9) := by
  rw [value_nines]
  have hLt := value_lt ds
  omega

/-! ## Canonical numerals -/

/-- No leading zero, unless it is the only digit. -/
def Canonical (ds : List Digit) : Prop := ds ≠ [] ∧ (ds.head? = some 0 → ds.length = 1)

instance (ds : List Digit) : Decidable (Canonical ds) := inferInstanceAs (Decidable (_ ∧ _))

theorem le_value (ds : List Digit) (h : d ≠ 0) : 10 ^ ds.length ≤ value (d :: ds) := by
  have hPos : 1 ≤ d.val := Nat.one_le_iff_ne_zero.mpr fun hZero => h (Fin.ext hZero)
  calc 10 ^ ds.length = 1 * 10 ^ ds.length := (Nat.one_mul _).symm
    _ ≤ d.val * 10 ^ ds.length := Nat.mul_le_mul_right _ hPos
    _ ≤ value (d :: ds) := Nat.le_add_right _ _

theorem Canonical.length_le (h : Canonical es)
    (hValue : value es ≤ value ds) (hNe : ds ≠ []) : es.length ≤ ds.length := by
  obtain ⟨hNe', hLead⟩ := h
  cases es with
  | nil => exact absurd rfl hNe'
  | cons e es =>
    by_cases hZero : e = 0
    · rw [hLead (by rw [hZero]; rfl)]
      exact length_pos_of_ne_nil hNe
    have hLow := le_value es hZero
    have hHigh := value_lt ds
    have hLt : es.length < ds.length :=
      (Nat.pow_lt_pow_iff_right (by decide : 1 < 10)).mp (by omega)
    exact hLt

theorem Canonical.ext (hd : Canonical ds) (he : Canonical es)
    (hValue : value ds = value es) : ds = es := by
  apply value_inj _ hValue
  have hLe := hd.length_le (Nat.le_of_eq hValue) he.1
  have hGe := he.length_le (Nat.le_of_eq hValue.symm) hd.1
  omega

/-- The digits of a number, for a bound on the number. -/
def numeralFrom : Nat → Nat → List Digit
  | 0, _ => []
  | fuel + 1, n =>
    if n < 10 then [Fin.ofNat 10 n] else numeralFrom fuel (n / 10) ++ [Fin.ofNat 10 (n % 10)]

def numeral (n : Nat) : List Digit := numeralFrom (n + 1) n

variable {n : Nat}

theorem numeralFrom_spec {fuel : Nat} (h : n < fuel) :
    value (numeralFrom fuel n) = n ∧ numeralFrom fuel n ≠ [] ∧
      ((numeralFrom fuel n).head? = some 0 → n = 0) := by
  induction fuel generalizing n with
  | zero => omega
  | succ fuel ih =>
    rw [numeralFrom]
    split
    next hSmall =>
      refine ⟨?_, cons_ne_nil _ _, ?_⟩
      · show n % 10 * 10 ^ 0 + 0 = n
        omega
      intro hHead
      have hZero : Fin.ofNat 10 n = 0 := by simpa using hHead
      have hVal : n % 10 = 0 := congrArg Fin.val hZero
      omega
    next hLarge =>
      obtain ⟨hValue, hNe, hHead⟩ := ih (n := n / 10) (by omega)
      refine ⟨?_, append_ne_nil_of_left_ne_nil hNe _, ?_⟩
      · rw [value_append, hValue]
        show n / 10 * 10 ^ 1 + (n % 10 % 10 * 10 ^ 0 + 0) = n
        omega
      intro hFirst
      rw [head?_append_of_ne_nil _ hNe] at hFirst
      have hZero := hHead hFirst
      omega

@[simp] theorem value_numeral (n : Nat) : value (numeral n) = n :=
  (numeralFrom_spec (Nat.lt_succ_self n)).1

theorem numeral_ne_nil (n : Nat) : numeral n ≠ [] := (numeralFrom_spec (Nat.lt_succ_self n)).2.1

theorem numeral_canonical (n : Nat) : Canonical (numeral n) := by
  refine ⟨numeral_ne_nil n, fun hHead => ?_⟩
  rw [(numeralFrom_spec (Nat.lt_succ_self n)).2.2 hHead]
  rfl

theorem numeral_value (h : Canonical ds) : numeral (value ds) = ds :=
  (numeral_canonical _).ext h (value_numeral _)

theorem numeral_length_le {k : Nat} (hPos : 0 < k) : (numeral n).length ≤ k ↔ n < 10 ^ k := by
  constructor
  · intro h
    have hLt := value_lt (numeral n)
    rw [value_numeral] at hLt
    exact Nat.lt_of_lt_of_le hLt (Nat.pow_le_pow_right (by decide) h)
  intro h
  have hLe := @Canonical.length_le (replicate k 9) _ (numeral_canonical n)
  rw [value_numeral, value_nines, length_replicate] at hLe
  exact hLe (by omega) (by rw [Ne, replicate_eq_nil_iff]; omega)

end Decimal

end Beellama.Verified
