import Beellama.Ports.SchemaIntRange

/-!
# Open integer ranges

For a lower bound `build_min_max_int` descends the digits and passes on the number that those behind the
first stand for.  Zeros behind the first digit are lost on the way, and behind a one no smaller digit
is offered; `exact_iff` says for which bounds the expression is right.
-/

namespace Beellama.Ports

open Beellama.Verified GbnfExpr List Language

namespace SchemaInt

open Decimal GbnfPiece

variable {defs : List UInt8 → Option GbnfExpr}

/-! ## What is written for two bounds -/

/-- The function returns alternatives of the language. -/
def Built (defs : List UInt8 → Option GbnfExpr) (r : Option Alts) (L : Language Nat) : Prop :=
  ∃ alts, r = some alts ∧ AltsWrite defs alts L

theorem minus_writes : Writes defs minus {[0x2D]} := by
  refine ⟨minus_spelled, ?_⟩
  ext w
  exact mem_lang_literal

variable {L : Language Nat}

theorem Built.negated {r : Option Alts} (h : Built defs r L) :
    Built defs (r.map fun alts => [[minus, group alts]]) ({[0x2D]} * L) := by
  obtain ⟨alts, rfl, hAlts⟩ := h
  exact ⟨_, rfl, (minus_writes.pair hAlts.group).one⟩

variable {n : Nat}

theorem numeral_bound (h : n < 10 ^ 19) : (numeral n).length ≤ 19 :=
  (numeral_length_le (by decide)).mpr h

variable {m : Nat}

theorem numeral_mono (h : m ≤ n) : (numeral m).length ≤ (numeral n).length := by
  apply (numeral_canonical m).length_le _ (numeral_ne_nil n)
  rw [value_numeral, value_numeral]
  exact h

theorem loop_writes (hLe : m ≤ n) (hn : n < 10 ^ 19) :
    AltsWrite defs (digitRanges (numeral n) ((numeral n).length - (numeral m).length) (numeral m))
      (coded (between m n)) := by
  have hMono := numeral_mono hLe
  have hBound := numeral_bound hn
  have hWrites := @digitRanges_writes defs (numeral n) (numeral m)
    ((numeral n).length - (numeral m).length) (numeral_canonical n) (numeral_canonical m)
    (by omega) (by omega) (by rw [value_numeral, value_numeral]; exact hLe)
  rwa [value_numeral, value_numeral] at hWrites

section Closed

variable {fuel : Nat} {dec : Nat} {top : Bool}

theorem buildMinMaxInt_between (hLe : m ≤ n) (hn : (n : Int) < int64Max) :
    Built defs (buildMinMaxInt (fuel + 1) m n dec top) (coded (between m n)) := by
  have hMin : (m : Int) ≠ int64Min := by
    rw [int64Min]
    omega
  have hSmall : n < 10 ^ 19 := by
    rw [int64Max] at hn
    omega
  refine ⟨_, ?_, loop_writes hLe hSmall⟩
  have hNot : ¬ ((m : Int) < 0 ∧ (n : Int) < 0) := by omega
  have hNonneg : ¬ (m : Int) < 0 := by omega
  have hMax : max (m : Int) 0 = m := max_eq_left (by omega)
  simp only [buildMinMaxInt]
  rw [if_pos ⟨hMin, ne_of_lt hn⟩, if_neg hNot, hMax]
  rfl

variable {minValue : Int}

theorem buildMinMaxInt_around (hMin : minValue < 0)
    (hPresent : minValue ≠ int64Min) (hn : (n : Int) < int64Max)
    (hNegative : Built defs (buildMinMaxInt fuel 0 (-minValue) dec true) L) :
    Built defs (buildMinMaxInt (fuel + 1) minValue n dec top)
      ({[0x2D]} * L + coded (between 0 n)) := by
  have hSmall : n < 10 ^ 19 := by
    rw [int64Max] at hn
    omega
  obtain ⟨alts, hAlts, hWrites⟩ := hNegative.negated
  refine ⟨_, ?_, hWrites.append (loop_writes (Nat.zero_le n) hSmall)⟩
  have hNot : ¬ (minValue < 0 ∧ (n : Int) < 0) := by omega
  have hMax : max minValue 0 = 0 := max_eq_right (by omega)
  simp only [buildMinMaxInt]
  rw [if_pos ⟨hPresent, ne_of_lt hn⟩, if_neg hNot, if_pos hMin, hMax, hAlts]
  rfl

theorem buildMinMaxInt_below {maxValue : Int} (hMin : minValue < 0)
    (hMax : maxValue < 0) (hPresent : minValue ≠ int64Min)
    (hPositive : Built defs (buildMinMaxInt fuel (-maxValue) (-minValue) dec true) L) :
    Built defs (buildMinMaxInt (fuel + 1) minValue maxValue dec top) ({[0x2D]} * L) := by
  have hUpper : maxValue ≠ int64Max := by
    rw [int64Max]
    omega
  simp only [buildMinMaxInt]
  rw [if_pos ⟨hPresent, hUpper⟩, if_pos ⟨hMin, hMax⟩]
  exact hPositive.negated

end Closed

/-! ## What is written for a lower bound -/

/-- The first digit that is offered. -/
def start (topLevel : Bool) : Digit := if topLevel then 1 else 0

/-- The language of what is written for a lower bound that is not negative. -/
noncomputable def atLeast : Nat → Nat → Nat → Bool → Language Digit
  | 0, _, _, _ => 0
  | fuel + 1, m, decimalsLeft, topLevel =>
    let less := max (decimalsLeft - 1) 1
    if m = 0 then
      if topLevel then oneOf 0 0 + oneOf 1 9 * count 0 less else count 1 decimalsLeft
    else if m ≤ 9 then
      let c : Digit := Fin.ofNat 10 m
      (if start topLevel < c then oneOf (start topLevel) (c - 1) * count 1 less else 0) +
        oneOf c 9 * count 0 less
    else
      let s := numeral m
      let c := s.headD 0
      (if 1 < c then oneOf (start topLevel) (c - 1) * count s.length less else 0) +
        oneOf c c * atLeast fuel (value s.tail) less false +
          if c < 9 then oneOf (c + 1) 9 * count (s.length - 1) less else 0

theorem coded_zero : coded 0 = 0 := map_zero (Language.map digitCode)

theorem coded_ite (c : Prop) [Decidable c] (L : Language Digit) :
    coded (if c then L else 0) = if c then coded L else 0 := by
  split
  · rfl
  · exact coded_zero

theorem numeral_tail (h : 9 < m) :
    (numeral m).tail ≠ [] ∧ (numeral (value (numeral m).tail)).length + 1 ≤ (numeral m).length := by
  have hLength : ¬ (numeral m).length ≤ 1 := fun hShort => by
    have hLt := (numeral_length_le Nat.one_pos).mp hShort
    omega
  have hTail : (numeral m).tail ≠ [] := by
    rw [← length_pos_iff, length_tail]
    omega
  have hLe := (numeral_canonical (value (numeral m).tail)).length_le
    (Nat.le_of_eq (value_numeral _)) hTail
  rw [length_tail] at hLe
  exact ⟨hTail, by omega⟩

theorem buildMinMaxInt_atLeast {fuel dec : Nat} {top : Bool} (hFuel : (numeral m).length ≤ fuel)
    (hBound : fuel < 2 ^ 64) (hDec : dec < 2 ^ 64) :
    Built defs (buildMinMaxInt fuel m int64Max dec top) (coded (atLeast fuel m dec top)) := by
  induction fuel generalizing m dec top with
  | zero =>
    have hPos := length_pos_of_ne_nil (numeral_ne_nil m)
    omega
  | succ fuel ih =>
    have hPresent : (m : Int) ≠ int64Min := by
      rw [int64Min]
      omega
    have hNonneg : ¬ (m : Int) < 0 := by omega
    have hLess : max (dec - 1) 1 < 2 ^ 64 := by omega
    have hNone : ¬ ((m : Int) ≠ int64Min ∧ int64Max ≠ int64Max) := fun h => h.2 rfl
    simp only [buildMinMaxInt, atLeast]
    rw [if_neg hNone, if_pos hPresent, if_neg hNonneg]
    by_cases hZero : m = 0
    · rw [if_pos (by omega), if_pos hZero]
      cases top with
      | true =>
        rw [if_pos rfl, if_pos rfl, coded_add, coded_mul]
        exact ⟨_, rfl, (digitRange_writes 0 0).one.cons
          ((digitRange_writes 1 9).pair (moreDigits_writes (by decide) hLess)).one⟩
      | false =>
        exact ⟨_, rfl, (moreDigits_writes (by decide) hDec).one.one⟩
    rw [if_neg (by omega), if_neg hZero, Int.toNat_natCast]
    by_cases hDigit : m ≤ 9
    · rw [if_pos (by omega), if_pos hDigit, coded_add, coded_ite, coded_mul, coded_mul]
      refine ⟨_, rfl, AltsWrite.ite_append (fun _ => ?_) ?_⟩
      · exact ((digitRange_writes _ _).pair (moreDigits_writes (by decide) hLess)).one
      · exact ((digitRange_writes _ _).pair (moreDigits_writes (by decide) hLess)).one
    rw [if_neg (by omega), if_neg hDigit]
    obtain ⟨-, hTail⟩ := numeral_tail (Nat.not_le.mp hDigit)
    obtain ⟨rest, hRest, hWrites⟩ :=
      @ih (value (numeral m).tail) (max (dec - 1) 1) false (by omega) (by omega) hLess
    rw [hRest, coded_add, coded_add, coded_ite, coded_ite, coded_mul, coded_mul, coded_mul]
    refine ⟨_, rfl, (AltsWrite.ite_append (fun _ => ?_) ?_).append_ite fun _ => ?_⟩
    · exact ((digitRange_writes _ _).pair (moreDigits_writes (by omega) hLess)).one
    · exact ((digitRange_writes _ _).pair hWrites.group).one
    · exact ((digitRange_writes _ _).pair (moreDigits_writes (by omega) hLess)).one

/-! ## The language of a lower bound -/

variable {c d : Digit} {ds : List Digit}

theorem oneOf_self_mul {L : Language Digit} : d :: ds ∈ oneOf c c * L ↔ d = c ∧ ds ∈ L := by
  rw [cons_mem_oneOf_mul, and_comm (a := c ≤ d), ← le_antisymm_iff]

theorem mem_ite {c : Prop} [Decidable c] {L : Language Digit} :
    ds ∈ (if c then L else 0) ↔ c ∧ ds ∈ L := by
  split
  next h => exact (and_iff_right h).symm
  next h => exact iff_of_false (notMem_zero ds) fun hMem => h hMem.1

theorem one_le_iff : 1 ≤ d ∧ d ≤ 9 ↔ d ≠ 0 := by
  revert d
  decide

theorem start_le_pred {top : Bool} :
    start top < c ∧ start top ≤ d ∧ d ≤ c - 1 ↔ start top ≤ d ∧ d < c := by
  cases top <;> revert c d <;> decide

theorem succ_le_iff : c < 9 ∧ c + 1 ≤ d ∧ d ≤ 9 ↔ c < d := by
  revert c d
  decide

section Members

variable {fuel dec : Nat} {top : Bool}

theorem mem_atLeast_zero :
    ds ∈ atLeast (fuel + 1) 0 dec false ↔ 1 ≤ ds.length ∧ ds.length ≤ dec := by
  rw [atLeast, if_pos rfl, if_neg Bool.false_ne_true, mem_count]

theorem cons_mem_atLeast_zero :
    d :: ds ∈ atLeast (fuel + 1) 0 dec true ↔
      d = 0 ∧ ds = [] ∨ d ≠ 0 ∧ ds.length ≤ max (dec - 1) 1 := by
  have hOne : d :: ds ∈ oneOf 0 0 ↔ d = 0 ∧ ds = [] := by
    rw [← mul_one (oneOf 0 0), oneOf_self_mul, mem_one]
  rw [atLeast, if_pos rfl, if_pos rfl, mem_add, hOne, cons_mem_oneOf_mul, mem_count,
    one_le_iff, and_iff_right (Nat.zero_le _)]

theorem nil_not_mem_atLeast : [] ∉ atLeast fuel m dec top := by
  cases fuel with
  | zero => exact notMem_zero []
  | succ fuel =>
    intro h
    rw [atLeast] at h
    split at h
    · split at h
      · rw [← mul_one (oneOf 0 0)] at h
        exact h.elim (nil_not_mem_oneOf_mul _ _ _) (nil_not_mem_oneOf_mul _ _ _)
      · exact absurd (mem_count.mp h).1 (by decide)
    split at h
    · rw [mem_add, mem_ite] at h
      exact h.elim (fun h => nil_not_mem_oneOf_mul _ _ _ h.2) (nil_not_mem_oneOf_mul _ _ _)
    rw [mem_add, mem_add, mem_ite, mem_ite] at h
    exact h.elim (Or.rec (fun h => nil_not_mem_oneOf_mul _ _ _ h.2)
      (nil_not_mem_oneOf_mul _ _ _)) fun h => nil_not_mem_oneOf_mul _ _ _ h.2

theorem cons_mem_atLeast_digit (hc : c ≠ 0) :
    d :: ds ∈ atLeast (fuel + 1) (value [c]) dec top ↔
      (start top ≤ d ∧ d < c) ∧ 1 ≤ ds.length ∧ ds.length ≤ max (dec - 1) 1 ∨
        c ≤ d ∧ ds.length ≤ max (dec - 1) 1 := by
  have hValue : value [c] = c.val := by
    rw [value_cons, length_nil, pow_zero, Nat.mul_one]
    rfl
  have hNonzero : c.val ≠ 0 := fun h => hc (Fin.ext h)
  have hDigit : Fin.ofNat 10 c.val = c := Fin.ext (Nat.mod_eq_of_lt c.isLt)
  have hNine : d ≤ 9 := Fin.le_last d
  rw [hValue, atLeast, if_neg hNonzero, if_pos (Nat.lt_succ_iff.mp c.isLt), hDigit,
    mem_add, mem_ite, cons_mem_oneOf_mul, cons_mem_oneOf_mul, mem_count, mem_count,
    ← and_assoc (a := start top < c), start_le_pred, and_iff_left hNine,
    and_iff_right (Nat.zero_le _)]

variable {rest : List Digit}

theorem canonical_lead {c : Digit} {rest : List Digit} (hs : Canonical (c :: rest))
    (hRest : rest ≠ []) : c ≠ 0 := by
  intro hZero
  have hOne := hs.2 (congrArg some hZero)
  rw [length_cons, Nat.succ_inj, length_eq_zero_iff] at hOne
  exact hRest hOne

theorem cons_mem_atLeast (hs : Canonical (c :: rest))
    (hRest : rest ≠ []) :
    d :: ds ∈ atLeast (fuel + 1) (value (c :: rest)) dec top ↔
      (1 < c ∧ start top ≤ d ∧ d < c) ∧ rest.length + 1 ≤ ds.length ∧
          ds.length ≤ max (dec - 1) 1 ∨
        d = c ∧ ds ∈ atLeast fuel (value rest) (max (dec - 1) 1) false ∨
          c < d ∧ rest.length ≤ ds.length ∧ ds.length ≤ max (dec - 1) 1 := by
  have hLarge : 9 < value (c :: rest) := by
    have hLead := canonical_lead hs hRest
    have hPos := length_pos_of_ne_nil hRest
    calc 9 < 10 ^ 1 := by decide
      _ ≤ 10 ^ rest.length := Nat.pow_le_pow_right (by decide) hPos
      _ ≤ value (c :: rest) := le_value rest hLead
  have hPred : 1 < c ∧ start top ≤ d ∧ d ≤ c - 1 ↔ 1 < c ∧ start top ≤ d ∧ d < c :=
    and_congr_right fun hLt => and_congr_right fun _ => le_pred hLt
  rw [atLeast, if_neg (by omega), if_neg (by omega), numeral_value hs, mem_add,
    mem_add, mem_ite, mem_ite, oneOf_self_mul, cons_mem_oneOf_mul, cons_mem_oneOf_mul,
    mem_count, mem_count, headD_cons, tail_cons, length_cons, Nat.add_sub_cancel,
    ← and_assoc (a := 1 < c), hPred, ← and_assoc (a := c < 9), succ_le_iff, or_assoc]

theorem one_lt (hZero : c ≠ 0) (hOne : c ≠ 1) : 1 < c := by
  revert c
  decide

theorem one_lt_of_lt (hd : d ≠ 0) (hLt : d < c) : 1 < c := by
  revert c d
  decide

/-- The digits between the first and the last. -/
def inner (s : List Digit) : List Digit := s.tail.dropLast

variable {e : Digit}

theorem inner_cons (hRest : rest ≠ []) : inner (c :: e :: rest) = e :: inner (e :: rest) := by
  exact dropLast_cons_of_ne_nil hRest

theorem canonical_rest (hRest : rest ≠ [])
    (hInner : 0 ∉ inner (c :: rest)) : Canonical rest ∧ 0 ∉ inner rest := by
  cases rest with
  | nil => exact absurd rfl hRest
  | cons e rest =>
    by_cases hLast : rest = []
    · rw [hLast]
      exact ⟨⟨cons_ne_nil _ _, fun _ => rfl⟩, not_mem_nil⟩
    rw [inner_cons hLast, mem_cons, not_or] at hInner
    refine ⟨⟨cons_ne_nil _ _, fun hHead => ?_⟩, hInner.2⟩
    exact absurd (Option.some.inj hHead).symm hInner.1

/-- Without a one between the first digit and the last there is none further on, and the
second digit is none unless it is the last. -/
theorem no_one_rest (hRest : rest ≠ [])
    (hInner : 1 ∉ inner (c :: rest)) :
    (e ≠ 0 ∨ rest.length = 1 ∨ rest.head? ≠ some 1) ∧ 1 ∉ inner rest := by
  cases rest with
  | nil => exact absurd rfl hRest
  | cons x rest =>
    by_cases hLast : rest = []
    · rw [hLast]
      exact ⟨Or.inr (Or.inl rfl), not_mem_nil⟩
    rw [inner_cons hLast, mem_cons, not_or] at hInner
    refine ⟨Or.inr (Or.inr fun hHead => ?_), hInner.2⟩
    exact hInner.1 (Option.some.inj hHead).symm

variable {s : List Digit}

theorem exists_mem_atLeast (hs : Canonical s) (hFuel : s.length ≤ fuel)
    (hDec : 1 ≤ dec) : ∃ ds ∈ atLeast fuel (value s) dec top, ds.length ≤ s.length := by
  induction fuel generalizing s dec top with
  | zero => exact absurd (length_eq_zero_iff.mp (Nat.le_zero.mp hFuel)) hs.1
  | succ fuel ih =>
    cases s with
    | nil => exact absurd rfl hs.1
    | cons c rest =>
      by_cases hRest : rest = []
      · rw [hRest]
        by_cases hZero : c = 0
        · rw [hZero]
          refine ⟨[0], ?_, le_rfl⟩
          cases top with
          | true => exact cons_mem_atLeast_zero.mpr (Or.inl ⟨rfl, rfl⟩)
          | false => exact mem_atLeast_zero.mpr ⟨le_rfl, hDec⟩
        · refine ⟨[c], (cons_mem_atLeast_digit hZero).mpr (Or.inr ⟨le_rfl, ?_⟩), le_rfl⟩
          exact Nat.zero_le _
      have hShort := (numeral_canonical (value rest)).length_le
        (Nat.le_of_eq (value_numeral _)) hRest
      rw [length_cons] at hFuel
      obtain ⟨ds, hMem, hLength⟩ := @ih (max (dec - 1) 1) false _
        (numeral_canonical (value rest)) (by omega) (by omega)
      rw [value_numeral] at hMem
      refine ⟨c :: ds, (cons_mem_atLeast hs hRest).mpr (Or.inr (Or.inl ⟨rfl, hMem⟩)), ?_⟩
      rw [length_cons, length_cons]
      omega

/-- Behind a zero between the first digit and the last, something shorter is accepted. -/
theorem exists_shorter_mem (hs : Canonical s) (hFuel : s.length ≤ fuel)
    (hZero : 0 ∈ inner s) : ∃ ds ∈ atLeast fuel (value s) dec top, ds.length < s.length := by
  induction fuel generalizing s dec top with
  | zero => exact absurd (length_eq_zero_iff.mp (Nat.le_zero.mp hFuel)) hs.1
  | succ fuel ih =>
    cases s with
    | nil => exact absurd hZero not_mem_nil
    | cons c rest =>
      cases rest with
      | nil => exact absurd hZero not_mem_nil
      | cons e rest =>
        have hRest : rest ≠ [] := fun hNil => by
          rw [hNil] at hZero
          exact not_mem_nil hZero
        rw [length_cons] at hFuel
        have hTail : ∃ ds ∈ atLeast fuel (value (e :: rest)) (max (dec - 1) 1) false,
            ds.length < (e :: rest).length := by
          by_cases hHead : e = 0
          · have hValue : value (e :: rest) = value rest := by
              rw [hHead]
              exact (congrArg (· + value rest) (Nat.zero_mul _)).trans (Nat.zero_add _)
            have hShort := (numeral_canonical (value rest)).length_le
              (Nat.le_of_eq (value_numeral _)) hRest
            rw [length_cons] at hFuel
            obtain ⟨ds, hMem, hLength⟩ := @exists_mem_atLeast fuel (max (dec - 1) 1) false
              _ (numeral_canonical (value rest)) (by omega) (by omega)
            rw [value_numeral, ← hValue] at hMem
            refine ⟨ds, hMem, ?_⟩
            rw [length_cons]
            omega
          rw [inner_cons hRest, mem_cons] at hZero
          have hLater : 0 ∈ inner (e :: rest) :=
            hZero.resolve_left fun hEq => hHead hEq.symm
          exact ih ⟨cons_ne_nil _ _, fun h => absurd (Option.some.inj h) hHead⟩
            (by omega) hLater
        obtain ⟨ds, hMem, hLength⟩ := hTail
        refine ⟨c :: ds, (cons_mem_atLeast hs (cons_ne_nil _ _)).mpr
          (Or.inr (Or.inl ⟨rfl, hMem⟩)), ?_⟩
        exact Nat.succ_lt_succ hLength

/-- Without such a zero, what is accepted has at least the digits of the bound, and with as
many digits is not less. -/
theorem atLeast_sound (hs : Canonical s) (hInner : 0 ∉ inner s)
    (hMem : ds ∈ atLeast fuel (value s) dec top) :
    s.length ≤ ds.length ∧ (ds.length = s.length → value s ≤ value ds) := by
  induction fuel generalizing s dec top ds with
  | zero => exact absurd hMem (notMem_zero ds)
  | succ fuel ih =>
    cases ds with
    | nil => exact absurd hMem nil_not_mem_atLeast
    | cons d ds =>
      cases s with
      | nil => exact absurd rfl hs.1
      | cons c rest =>
        rw [length_cons, length_cons, Nat.succ_le_succ_iff, Nat.succ_inj]
        by_cases hRest : rest = []
        · rw [hRest] at hMem ⊢
          refine ⟨Nat.zero_le _, fun hLength => ?_⟩
          by_cases hZero : c = 0
          · rw [hZero]
            exact Nat.zero_le _
          have hLe : c ≤ d := by
            cases (cons_mem_atLeast_digit hZero).mp hMem with
            | inl hMore => exact absurd hMore.2.1 (by rw [hLength]; decide)
            | inr hLast => exact hLast.1
          apply (cons_le_cons hLength.symm).mpr
          cases lt_or_eq_of_le hLe with
          | inl hLt => exact Or.inl hLt
          | inr hEq => exact Or.inr ⟨hEq, Nat.zero_le _⟩
        rcases (cons_mem_atLeast hs hRest).mp hMem with hLess | hSame | hMore
        · exact ⟨by omega, fun hLength => absurd hLess.2.1 (by omega)⟩
        · obtain ⟨hCanonical, hRestInner⟩ := canonical_rest hRest hInner
          have hRec := ih hCanonical hRestInner hSame.2
          refine ⟨hRec.1, fun hLength => ?_⟩
          exact (cons_le_cons hLength.symm).mpr
            (Or.inr ⟨hSame.1.symm, hRec.2 hLength⟩)
        · refine ⟨hMore.2.1, fun hLength => ?_⟩
          exact (cons_le_cons hLength.symm).mpr (Or.inl hMore.1)

/-- No number but zero is accepted with a leading zero. -/
theorem lead_ne_zero (hs : Canonical (c :: rest))
    (hc : c ≠ 0)
    (hStart : top = true ∨ rest ≠ [] ∧ (c = 1 ∨ max (dec - 1) 1 < rest.length + 1))
    (hMem : d :: ds ∈ atLeast (fuel + 1) (value (c :: rest)) dec top) : d ≠ 0 := by
  have hBehind : c ≤ d → d ≠ 0 := fun hLe hZero => hc (Fin.le_zero_iff.mp (hZero ▸ hLe))
  have hFirst : top = true → start top ≤ d → d ≠ 0 := by
    intro hTop hLe hZero
    rw [hTop, hZero] at hLe
    exact absurd hLe (by decide)
  by_cases hRest : rest = []
  · rw [hRest] at hMem
    have hTop : top = true := hStart.resolve_right fun h => h.1 hRest
    cases (cons_mem_atLeast_digit hc).mp hMem with
    | inl hMore => exact hFirst hTop hMore.1.1
    | inr hLast => exact hBehind hLast.1
  rcases (cons_mem_atLeast hs hRest).mp hMem with hLess | hSame | hMore
  · rcases hStart with hTop | ⟨-, hOne | hShort⟩
    · exact hFirst hTop hLess.1.2.1
    · exact absurd hLess.1.1 (by rw [hOne]; exact lt_irrefl 1)
    · exact absurd hLess.2.1 (by omega)
  · rw [hSame.1]
    exact hc
  · exact hBehind (le_of_lt hMore.1)

theorem zeros_mem_atLeast (hs : Canonical (c :: rest))
    (hc : c ≠ 0) (hOne : rest ≠ [] → c ≠ 1) (hShort : rest.length + 1 ≤ max (dec - 1) 1) :
    replicate (rest.length + 2) 0 ∈ atLeast (fuel + 1) (value (c :: rest)) dec false := by
  have hPos : 0 < c := Fin.pos_iff_ne_zero.mpr hc
  by_cases hRest : rest = []
  · rw [hRest] at hShort ⊢
    apply (cons_mem_atLeast_digit hc).mpr
    exact Or.inl ⟨⟨Fin.zero_le _, hPos⟩, by simp, hShort⟩
  have hLarge : 1 < c := one_lt hc (hOne hRest)
  apply (cons_mem_atLeast hs hRest).mpr
  rw [length_replicate]
  exact Or.inl ⟨⟨hLarge, Fin.zero_le _, hPos⟩, le_rfl, hShort⟩

/-- Behind a one between the first digit and the last, something with one more digit is
missed. -/
theorem exists_not_mem (hs : Canonical s) (hInner : 0 ∉ inner s)
    (hOne : 1 ∈ inner s) :
    ∃ ds, ds.length = s.length + 1 ∧ ds.head? = s.head? ∧ ds ∉ atLeast fuel (value s) dec top := by
  induction fuel generalizing s dec top with
  | zero =>
    cases s with
    | nil => exact absurd hOne not_mem_nil
    | cons c rest =>
      refine ⟨c :: 0 :: rest, rfl, rfl, ?_⟩
      exact notMem_zero _
  | succ fuel ih =>
    cases s with
    | nil => exact absurd hOne not_mem_nil
    | cons c rest =>
      have hRest : rest ≠ [] := fun hNil => by
        rw [hNil] at hOne
        exact not_mem_nil hOne
      obtain ⟨hCanonical, hRestInner⟩ := canonical_rest hRest hInner
      have hTail : ∃ ds, ds.length = rest.length + 1 ∧
          ds ∉ atLeast fuel (value rest) (max (dec - 1) 1) false := by
        cases rest with
        | nil => exact absurd rfl hRest
        | cons e rest =>
          have hLast : rest ≠ [] := fun hNil => by
            rw [hNil] at hOne
            exact not_mem_nil hOne
          by_cases hHead : e = 1
          · refine ⟨0 :: 0 :: rest, rfl, ?_⟩
            cases fuel with
            | zero => exact notMem_zero _
            | succ fuel =>
              rw [hHead] at hCanonical ⊢
              rw [cons_mem_atLeast hCanonical hLast]
              rintro (hLess | hSame | hMore)
              · exact lt_irrefl 1 hLess.1.1
              · exact absurd hSame.1 (by decide)
              · exact absurd hMore.1 (by decide)
          rw [inner_cons hLast, mem_cons] at hOne
          have hLater := hOne.resolve_left fun hEq => hHead hEq.symm
          obtain ⟨ds, hLength, -, hNot⟩ :=
            @ih (max (dec - 1) 1) false _ hCanonical hRestInner hLater
          exact ⟨ds, hLength, hNot⟩
      obtain ⟨ds, hLength, hNot⟩ := hTail
      refine ⟨c :: ds, by rw [length_cons, hLength, length_cons], rfl, ?_⟩
      rw [cons_mem_atLeast hs hRest]
      rintro (hLess | hSame | hMore)
      · exact lt_irrefl c hLess.1.2.2
      · exact hNot hSame.2
      · exact lt_irrefl c hMore.1

/-- What is accepted: of as many digits as the bound what is not less, and of more digits
everything, where no digit between the first and the last is less than two and there is a
smaller digit to begin with or none that is asked for. -/
theorem mem_atLeast (hs : Canonical s) (hInner : 0 ∉ inner s)
    (hFuel : s.length ≤ fuel) (hNonzero : top = true → value s ≠ 0) (hStart : start top ≤ d)
    (hBudget : ds.length + 1 < dec) (hLength : s.length ≤ ds.length + 1)
    (hValue : ds.length + 1 = s.length → value s ≤ value (d :: ds))
    (hLonger : ds.length + 1 = s.length ∨
      1 ∉ inner s ∧ (d ≠ 0 ∨ s.length = 1 ∨ s.head? ≠ some 1)) :
    d :: ds ∈ atLeast fuel (value s) dec top := by
  induction fuel generalizing s dec top d ds with
  | zero => exact absurd (length_eq_zero_iff.mp (Nat.le_zero.mp hFuel)) hs.1
  | succ fuel ih =>
    cases s with
    | nil => exact absurd rfl hs.1
    | cons c rest =>
      rw [length_cons] at hFuel hLength hValue hLonger
      have hLess : ds.length ≤ max (dec - 1) 1 := by omega
      by_cases hRest : rest = []
      · rw [hRest] at hValue hNonzero ⊢
        by_cases hZero : c = 0
        · rw [hZero] at hNonzero ⊢
          cases top with
          | true => exact absurd rfl (hNonzero rfl)
          | false =>
            apply mem_atLeast_zero.mpr
            rw [length_cons]
            omega
        apply (cons_mem_atLeast_digit hZero).mpr
        by_cases hLow : c ≤ d
        · exact Or.inr ⟨hLow, hLess⟩
        refine Or.inl ⟨⟨hStart, lt_of_not_ge hLow⟩, ?_, hLess⟩
        by_contra hNone
        have hNil : ds = [] := length_eq_zero_iff.mp (by omega)
        have hLe := hValue (by rw [hNil])
        rw [hNil] at hLe
        rcases (cons_le_cons rfl).mp hLe with hLt | hEq
        · exact hLow (le_of_lt hLt)
        · exact hLow (le_of_eq hEq.1)
      obtain ⟨hCanonical, hRestInner⟩ := canonical_rest hRest hInner
      have hLead := canonical_lead hs hRest
      have hSame : ds.length = rest.length → c < d ∨ c = d ∧ value rest ≤ value ds :=
        fun h => (cons_le_cons h.symm).mp (hValue (by rw [h]))
      apply (cons_mem_atLeast hs hRest).mpr
      rcases lt_trichotomy d c with hLt | hEq | hGt
      · have hMore : rest.length + 1 ≤ ds.length := by
          by_contra hNot
          rcases hSame (by omega) with hLt' | hEq'
          · exact lt_asymm hLt hLt'
          · exact ne_of_gt hLt hEq'.1
        have hOne : 1 < c := by
          rcases (hLonger.resolve_left (by omega)).2 with hNe | hShort | hHead
          · exact one_lt_of_lt hNe hLt
          · exact absurd (length_eq_zero_iff.mp (Nat.succ_inj.mp hShort)) hRest
          · exact one_lt hLead fun hEq => hHead (congrArg some hEq)
        exact Or.inl ⟨⟨hOne, hStart, hLt⟩, hMore, hLess⟩
      · refine Or.inr (Or.inl ⟨hEq, ?_⟩)
        cases ds with
        | nil =>
          have hPos := length_pos_of_ne_nil hRest
          rw [length_nil] at hLength
          omega
        | cons e ds =>
          rw [length_cons] at hBudget hLength
          have hTop : false = true → value rest ≠ 0 := fun h => absurd h Bool.false_ne_true
          refine ih hCanonical hRestInner (by omega) hTop (Fin.zero_le e) (by omega)
            (by omega) ?_ ?_
          · intro hSize
            rcases hSame hSize with hLt | hRestLe
            · exact absurd hEq (ne_of_gt hLt)
            · exact hRestLe.2
          rcases hLonger with hSize | ⟨hNone, -⟩
          · exact Or.inl (Nat.succ_inj.mp hSize)
          · exact Or.inr (no_one_rest hRest hNone).symm
      · exact Or.inr (Or.inr ⟨hGt, by omega, hLess⟩)

end Members

end SchemaInt

end Beellama.Ports
