import Beellama.Ports.SchemaIntBounds

/-!
# When an integer range is exact

An expression is exact when the parser can expand it and it accepts only integers inside its bounds, and
the canonical form of every such integer of at most fifteen digits.  With two bounds it is, but for a
bound whose negation is the greatest `int64_t`.  With one it depends on the digits between the first and
the last, and on how many there are (`exact_iff`).
-/

namespace Beellama.Ports

open Beellama.Verified GbnfExpr List Option Language

namespace SchemaInt

open Decimal GbnfPiece

/-! ## Bounds -/

/-- Bounds of 64 bits; the least value as the lower and the greatest as the upper stand for
a bound that is absent. -/
structure IntBounds where
  minValue : Int
  maxValue : Int
  min64 : -2 ^ 63 ≤ minValue
  max64 : maxValue ≤ 2 ^ 63 - 1
  ordered : minValue ≤ maxValue
  present : minValue ≠ int64Min ∨ maxValue ≠ int64Max

/-- The integer is inside the bounds that are present. -/
def IntBounds.Inside (b : IntBounds) (z : Int) : Prop :=
  (b.minValue ≠ int64Min → b.minValue ≤ z) ∧ (b.maxValue ≠ int64Max → z ≤ b.maxValue)

/-- The text is digits, behind a minus or not, that stand for the integer. -/
def Denotes (w : List Nat) (z : Int) : Prop :=
  ∃ ds : List Digit, ds ≠ [] ∧
    (w = ds.map digitCode ∧ z = value ds ∨ w = 0x2D :: ds.map digitCode ∧ z = -(value ds : Int))

/-- The canonical decimal form. -/
def toDecimal (z : Int) : List Nat :=
  if z < 0 then 0x2D :: (numeral z.natAbs).map digitCode else (numeral z.natAbs).map digitCode

/-- What is accepted are integers inside the bounds, and every one of them that has at most fifteen
digits. -/
def ExactLang (b : IntBounds) : Prop :=
  ∃ alts, buildTopLevel b.minValue b.maxValue = some alts ∧ (ofAlts alts).Spelled .alternates ∧
    ∀ defs,
      (∀ w ∈ lang defs (ofAlts alts).expr, ∃ z, Denotes w z ∧ b.Inside z) ∧
      ∀ z, b.Inside z → z.natAbs < 10 ^ 15 → toDecimal z ∈ lang defs (ofAlts alts).expr

/-- The language is exact, and the repetitions of the expression have their bounds in order, so that
the parser can expand them. -/
def Exact (b : IntBounds) : Prop :=
  ExactLang b ∧ ∀ alts, buildTopLevel b.minValue b.maxValue = some alts →
    (ofAlts alts).expr.Bounded

theorem exact_iff_bounded {b : IntBounds} :
    Exact b ↔ ExactLang b ∧ BuildsBounded (buildTopLevel b.minValue b.maxValue) := by
  refine and_congr_right ?_
  rintro ⟨alts, hAlts, -⟩
  rw [hAlts, buildsBounded_some, ← ofAlts_bounded]
  exact ⟨fun h => h alts rfl, fun h _ hEq => Option.some.inj hEq ▸ h⟩

/-! ## Negative and other numerals -/

/-- The numerals behind a minus, and those without. -/
def signed (negative positive : Language Digit) : Language Nat :=
  {[0x2D]} * coded negative + coded positive

variable {N P : Language Digit}

theorem mem_signed {w : List Nat} :
    w ∈ signed N P ↔
      (∃ ds ∈ N, w = 0x2D :: ds.map digitCode) ∨ ∃ ds ∈ P, w = ds.map digitCode := by
  constructor
  · rintro (⟨u, hu, v, ⟨ds, hMem, rfl⟩, rfl⟩ | ⟨ds, hMem, rfl⟩)
    · rw [show u = [0x2D] from hu]
      exact Or.inl ⟨ds, hMem, rfl⟩
    · exact Or.inr ⟨ds, hMem, rfl⟩
  rintro (⟨ds, hMem, rfl⟩ | ⟨ds, hMem, rfl⟩)
  · exact Or.inl ⟨_, rfl, _, map_mem_coded.mpr hMem, rfl⟩
  · exact Or.inr (map_mem_coded.mpr hMem)

theorem minus_ne_digitCode (d : Digit) : 0x2D ≠ digitCode d := by
  rw [digitCode]
  omega

variable {ds : List Digit}

theorem minus_mem_signed : 0x2D :: ds.map digitCode ∈ signed N P ↔ ds ∈ N := by
  rw [mem_signed]
  constructor
  · rintro (⟨es, hMem, hEq⟩ | ⟨es, hMem, hEq⟩)
    · rwa [map_injective_iff.mpr digitCode_injective (cons.inj hEq).2]
    cases es with
    | nil => exact absurd hEq (cons_ne_nil _ _)
    | cons e es => exact absurd (cons.inj hEq).1 (minus_ne_digitCode e)
  · intro h
    exact Or.inl ⟨ds, h, rfl⟩

theorem digits_mem_signed : ds.map digitCode ∈ signed N P ↔ ds ∈ P := by
  rw [mem_signed]
  constructor
  · rintro (⟨es, hMem, hEq⟩ | ⟨es, hMem, hEq⟩)
    · cases ds with
      | nil => exact absurd hEq.symm (cons_ne_nil _ _)
      | cons d ds => exact absurd (cons.inj hEq).1.symm (minus_ne_digitCode d)
    · rwa [map_injective_iff.mpr digitCode_injective hEq]
  · intro h
    exact Or.inr ⟨ds, h, rfl⟩

theorem Denotes.digits {z : Int} (h : Denotes (ds.map digitCode) z) : z = value ds := by
  obtain ⟨es, -, ⟨hEq, hz⟩ | ⟨hEq, -⟩⟩ := h
  · rw [hz, map_injective_iff.mpr digitCode_injective hEq]
  cases ds with
  | nil => exact absurd hEq.symm (cons_ne_nil _ _)
  | cons d ds => exact absurd (cons.inj hEq).1.symm (minus_ne_digitCode d)

theorem Denotes.minus {z : Int} (h : Denotes (0x2D :: ds.map digitCode) z) :
    z = -(value ds : Int) := by
  obtain ⟨es, -, ⟨hEq, -⟩ | ⟨hEq, hz⟩⟩ := h
  · cases es with
    | nil => exact absurd hEq (cons_ne_nil _ _)
    | cons e es => exact absurd (cons.inj hEq).1 (minus_ne_digitCode e)
  · rw [hz, map_injective_iff.mpr digitCode_injective (cons.inj hEq).2]

/-- The languages of the numerals behind a minus and without are exact for the bounds. -/
structure SignedExact (b : IntBounds) (N P : Language Digit) : Prop where
  negative_sound : ∀ ds ∈ N, b.Inside (-(value ds : Int))
  positive_sound : ∀ ds ∈ P, b.Inside (value ds)
  negative_complete : ∀ n : Nat, 0 < n → n < 10 ^ 15 → b.Inside (-(n : Int)) → numeral n ∈ N
  positive_complete : ∀ n : Nat, n < 10 ^ 15 → b.Inside n → numeral n ∈ P

theorem exact_iff_signed {b : IntBounds} (hN : [] ∉ N) (hP : [] ∉ P)
    (hBuilt : ∀ defs, Built defs (buildTopLevel b.minValue b.maxValue) (signed N P)) :
    ExactLang b ↔ SignedExact b N P := by
  obtain ⟨alts, hAlts, hFirst⟩ := hBuilt fun _ => none
  have hLang : ∀ defs, lang defs (ofAlts alts).expr = signed N P := by
    intro defs
    obtain ⟨alts', hAlts', hWrites⟩ := hBuilt defs
    rw [hAlts] at hAlts'
    rw [lang_ofAlts defs hFirst.spelled.1, some.inj hAlts']
    exact hWrites.lang
  constructor
  · rintro ⟨alts', hAlts', -, hAll⟩
    rw [hAlts] at hAlts'
    cases hAlts'
    obtain ⟨hSound, hComplete⟩ := hAll fun _ => none
    rw [hLang] at hSound hComplete
    refine ⟨fun ds hMem => ?_, fun ds hMem => ?_, fun n hPos hn hIn => ?_, fun n hn hIn => ?_⟩
    · obtain ⟨z, hDenotes, hIn⟩ := hSound _ (minus_mem_signed.mpr hMem)
      rwa [hDenotes.minus] at hIn
    · obtain ⟨z, hDenotes, hIn⟩ := hSound _ (digits_mem_signed.mpr hMem)
      rwa [hDenotes.digits] at hIn
    · have hMem := hComplete _ hIn (by omega)
      rw [toDecimal, if_pos (by omega), minus_mem_signed, Int.natAbs_neg]
        at hMem
      exact hMem
    have hMem := hComplete _ hIn (by omega)
    rw [toDecimal, if_neg (by omega), digits_mem_signed, Int.natAbs_natCast] at hMem
    exact hMem
  intro h
  refine ⟨alts, hAlts, ofAlts_spelled hFirst.spelled, fun defs => ⟨fun w hw => ?_, ?_⟩⟩
  · rw [hLang, mem_signed] at hw
    rcases hw with ⟨ds, hMem, rfl⟩ | ⟨ds, hMem, rfl⟩
    · exact ⟨_, ⟨ds, fun hNil => hN (hNil ▸ hMem), Or.inr ⟨rfl, rfl⟩⟩, h.negative_sound ds hMem⟩
    · exact ⟨_, ⟨ds, fun hNil => hP (hNil ▸ hMem), Or.inl ⟨rfl, rfl⟩⟩, h.positive_sound ds hMem⟩
  intro z hIn hz
  rw [hLang, toDecimal]
  split
  next hNeg =>
    rw [minus_mem_signed]
    apply h.negative_complete _ (by omega) hz
    rwa [Int.ofNat_natAbs_of_nonpos (le_of_lt hNeg), neg_neg]
  next hNonneg =>
    rw [digits_mem_signed]
    apply h.positive_complete _ hz
    rwa [Int.natAbs_of_nonneg (by omega)]

/-! ## Bounds that are written exactly -/

/-- No zero between the first digit and the last, and no one if there are less than
fifteen digits. -/
def LowerOk (m : Nat) : Prop :=
  0 ∉ inner (numeral m) ∧ (15 ≤ (numeral m).length ∨ 1 ∉ inner (numeral m))

instance (m : Nat) : Decidable (LowerOk m) := inferInstanceAs (Decidable (_ ∧ _))

/-- The numeral begins with a one and is longer, or is too long for a leading zero. -/
def LeadOk (m : Nat) : Prop :=
  1 < (numeral m).length ∧ (numeral m).head? = some 1 ∨ 16 ≤ (numeral m).length

instance (m : Nat) : Decidable (LeadOk m) := inferInstanceAs (Decidable (_ ∨ _))

/-- A longer numeral without a leading zero stands for a greater number. -/
theorem value_lt_of_length {s ds : List Digit} {d : Digit} (hLead : d ≠ 0)
    (hLength : s.length < (d :: ds).length) : value s < value (d :: ds) := by
  calc value s < 10 ^ s.length := value_lt s
    _ ≤ 10 ^ ds.length := Nat.pow_le_pow_right (by decide) (Nat.lt_succ_iff.mp hLength)
    _ ≤ value (d :: ds) := le_value ds hLead

theorem head_ne_zero {c : Digit} {rest : List Digit} (hs : Canonical (c :: rest))
    (hNonzero : value (c :: rest) ≠ 0) : c ≠ 0 := by
  intro hZero
  have hOne := hs.2 (congrArg some hZero)
  rw [length_cons, Nat.succ_inj, length_eq_zero_iff] at hOne
  rw [hZero, hOne] at hNonzero
  exact hNonzero rfl

section LowerBound

variable {fuel m : Nat} {top : Bool}

/-- Zeros are no numerals of a number that is not zero, whatever else is accepted. -/
theorem lead_of_sound {c : Digit} {rest : List Digit} (hs : Canonical (c :: rest)) (hc : c ≠ 0)
    (hSound : ∀ ds ∈ atLeast (fuel + 1) (value (c :: rest)) 16 false,
      value (c :: rest) ≤ value ds) :
    1 < (c :: rest).length ∧ (c :: rest).head? = some 1 ∨ 16 ≤ (c :: rest).length := by
  rw [length_cons]
  by_contra hNot
  obtain ⟨hHead, hLength⟩ := not_or.mp hNot
  have hOne : rest ≠ [] → c ≠ 1 := by
    intro hRest hEq
    have hPos := length_pos_of_ne_nil hRest
    exact hHead ⟨by omega, congrArg some hEq⟩
  have hZeros := @zeros_mem_atLeast _ fuel 16 _ hs hc hOne (by omega)
  have hLe := hSound _ hZeros
  rw [value_zeros] at hLe
  have hValue := le_value rest hc
  have hPower : 0 < 10 ^ rest.length := Nat.pow_pos (by decide)
  omega

variable (hFuel : (numeral m).length ≤ fuel)

include hFuel

theorem lowerOk_of_exact (hSound : ∀ ds ∈ atLeast fuel m 16 top, m ≤ value ds)
    (hComplete : ∀ n, m ≤ n → n < 10 ^ 15 → numeral n ∈ atLeast fuel m 16 top) : LowerOk m := by
  have hs := numeral_canonical m
  have hValue := value_numeral m
  cases hNumeral : numeral m with
  | nil => exact absurd hNumeral (numeral_ne_nil m)
  | cons c rest =>
    rw [hNumeral] at hs hValue hFuel
    have hLead : rest ≠ [] → c ≠ 0 := canonical_lead hs
    have hNone : ∀ x : Digit, x ∈ inner (c :: rest) → rest ≠ [] := by
      intro x hx hNil
      rw [hNil] at hx
      exact not_mem_nil hx
    have hZero : 0 ∉ inner (c :: rest) := by
      intro hMem
      obtain ⟨ds, hDs, hShort⟩ := @exists_shorter_mem fuel 16 top _ hs hFuel hMem
      rw [hValue] at hDs
      have hLe := hSound ds hDs
      have hLt := value_lt_of_length (hLead (hNone 0 hMem)) hShort
      omega
    rw [LowerOk, hNumeral]
    refine ⟨hZero, ?_⟩
    by_contra hNot
    obtain ⟨hLength, hOne⟩ := not_or.mp hNot
    rw [not_not] at hOne
    obtain ⟨ds, hSize, hHead, hMissed⟩ := @exists_not_mem fuel 16 top _ hs hZero hOne
    cases ds with
    | nil => exact absurd hSize (Nat.succ_ne_zero _).symm
    | cons d ds =>
      have hd : d ≠ 0 := by
        rw [some.inj hHead]
        exact hLead (hNone 1 hOne)
      have hCanonical : Canonical (d :: ds) :=
        ⟨cons_ne_nil _ _, fun h => absurd (some.inj h) hd⟩
      have hGreater : value (c :: rest) < value (d :: ds) :=
        value_lt_of_length hd (by rw [hSize]; exact Nat.lt_succ_self _)
      rw [hValue] at hGreater hMissed
      have hSmall : value (d :: ds) < 10 ^ 15 :=
        Nat.lt_of_lt_of_le (value_lt _) (Nat.pow_le_pow_right (by decide) (by omega))
      apply hMissed
      have hMem := hComplete _ (le_of_lt hGreater) hSmall
      rwa [numeral_value hCanonical] at hMem

omit hFuel in
/-- What is accepted for such a bound is not less than the bound. -/
theorem sound_of_lowerOk (hOk : LowerOk m)
    (hLeadOk : top = true ∨ LeadOk m) : ∀ ds ∈ atLeast fuel m 16 top, m ≤ value ds := by
  intro ds hMem
  by_cases hZero : m = 0
  · omega
  have hs := numeral_canonical m
  have hValue := value_numeral m
  rw [LeadOk] at hLeadOk
  rw [LowerOk] at hOk
  cases hNumeral : numeral m with
  | nil => exact absurd hNumeral (numeral_ne_nil m)
  | cons c rest =>
    rw [hNumeral] at hs hValue hLeadOk hOk
    rw [← hValue] at hMem hZero ⊢
    cases ds with
    | nil => exact absurd hMem nil_not_mem_atLeast
    | cons d ds =>
      cases fuel with
      | zero => exact absurd hMem (notMem_zero _)
      | succ fuel =>
        obtain ⟨hLength, hEqual⟩ := atLeast_sound hs hOk.1 hMem
        have hStart : top = true ∨ rest ≠ [] ∧ (c = 1 ∨ max (16 - 1) 1 < rest.length + 1) := by
          refine hLeadOk.imp_right fun h => ?_
          rw [length_cons] at h
          rcases h with ⟨hLong, hHead⟩ | hLong
          · refine ⟨fun hNil => ?_, Or.inl (some.inj hHead)⟩
            rw [hNil, length_nil] at hLong
            omega
          refine ⟨fun hNil => ?_, Or.inr (by omega)⟩
          rw [hNil, length_nil] at hLong
          omega
        have hd := lead_ne_zero hs (head_ne_zero hs hZero) hStart hMem
        by_cases hSame : (d :: ds).length = (c :: rest).length
        · exact hEqual hSame
        · exact le_of_lt (value_lt_of_length hd (by omega))

theorem complete_of_lowerOk (hm : top = false → m ≠ 0)
    (hOk : LowerOk m) {n : Nat} (hLe : m ≤ n) (hn : n < 10 ^ 15) :
    numeral n ∈ atLeast fuel m 16 top := by
  have hMono := numeral_mono hLe
  have hSize : (numeral n).length ≤ 15 := (numeral_length_le (by decide)).mpr hn
  have hs := numeral_canonical n
  have hValue := value_numeral n
  cases hNumeral : numeral n with
  | nil => exact absurd hNumeral (numeral_ne_nil n)
  | cons d ds =>
    rw [hNumeral] at hs hValue hMono hSize
    rw [length_cons] at hMono hSize
    by_cases hZero : m = 0
    · have hTop : top = true := by
        cases top with
        | true => rfl
        | false => exact absurd hZero (hm rfl)
      cases fuel with
      | zero =>
        have hPos := length_pos_of_ne_nil (numeral_ne_nil m)
        omega
      | succ fuel =>
        rw [hTop, hZero]
        apply cons_mem_atLeast_zero.mpr
        by_cases hd : d = 0
        · have hOne := hs.2 (congrArg some hd)
          exact Or.inl ⟨hd, length_eq_zero_iff.mp (Nat.succ_inj.mp hOne)⟩
        · exact Or.inr ⟨hd, by omega⟩
    have hd : d ≠ 0 := by
      apply head_ne_zero hs
      omega
    have hStart : start top ≤ d := by
      clear hFuel hm hOk hs hValue hNumeral
      cases top <;> revert d <;> decide
    rw [← value_numeral m]
    refine mem_atLeast (numeral_canonical m) hOk.1 hFuel ?_ hStart (by omega) hMono ?_ ?_
    · intro _
      rwa [value_numeral]
    · intro _
      rw [value_numeral, hValue]
      exact hLe
    by_cases hSame : ds.length + 1 = (numeral m).length
    · exact Or.inl hSame
    · exact Or.inr ⟨hOk.2.resolve_left (by omega), Or.inl hd⟩

/-- The numerals for a lower bound are exact if and only if the bound is such. -/
theorem atLeast_exact_iff (hm : top = false → m ≠ 0) :
    ((∀ ds ∈ atLeast fuel m 16 top, m ≤ value ds) ∧
      ∀ n, m ≤ n → n < 10 ^ 15 → numeral n ∈ atLeast fuel m 16 top) ↔
      LowerOk m ∧ (top = true ∨ LeadOk m) := by
  constructor
  · rintro ⟨hSound, hComplete⟩
    refine ⟨lowerOk_of_exact hFuel hSound hComplete, ?_⟩
    cases top with
    | true => exact Or.inl rfl
    | false =>
      refine Or.inr ?_
      have hs := numeral_canonical m
      have hValue := value_numeral m
      rw [LeadOk]
      cases hNumeral : numeral m with
      | nil => exact absurd hNumeral (numeral_ne_nil m)
      | cons c rest =>
        rw [hNumeral] at hs hValue hFuel
        cases fuel with
        | zero => exact absurd hFuel (Nat.not_succ_le_zero _)
        | succ fuel =>
          have hNonzero := hm rfl
          rw [← hValue] at hSound hNonzero
          exact lead_of_sound hs (head_ne_zero hs hNonzero) hSound
  · rintro ⟨hOk, hLead⟩
    exact ⟨sound_of_lowerOk hOk hLead, fun n hLe hn => complete_of_lowerOk hFuel hm hOk hLe hn⟩

end LowerBound

/-! ## The greatest integer behind a lower bound -/

section Cap

variable {fuel dec : Nat} {top : Bool}

theorem atLeast_length_le {s ds : List Digit} (hs : Canonical s) (hDec : 1 ≤ dec)
    (hMem : ds ∈ atLeast fuel (value s) dec top) : ds.length ≤ max dec (s.length + 1) := by
  induction fuel generalizing s dec top ds with
  | zero => exact absurd hMem (notMem_zero ds)
  | succ fuel ih =>
    cases ds with
    | nil => exact Nat.zero_le _
    | cons d ds =>
      cases s with
      | nil => exact absurd rfl hs.1
      | cons c rest =>
        rw [length_cons, length_cons]
        by_cases hRest : rest = []
        · rw [hRest] at hMem ⊢
          by_cases hZero : c = 0
          · rw [hZero] at hMem
            cases top with
            | true =>
              rcases cons_mem_atLeast_zero.mp hMem with hLast | hMore
              · rw [hLast.2]
                exact le_max_of_le_left hDec
              · omega
            | false =>
              have hLength := (mem_atLeast_zero.mp hMem).2
              exact le_max_of_le_left hLength
          rcases (cons_mem_atLeast_digit hZero).mp hMem with hMore | hLast
          · omega
          · omega
        rcases (cons_mem_atLeast hs hRest).mp hMem with hLess | hSame | hMore
        · omega
        · have hShort := (numeral_canonical (value rest)).length_le
            (Nat.le_of_eq (value_numeral _)) hRest
          have hMem' := hSame.2
          rw [← value_numeral (value rest)] at hMem'
          have hRec := ih (numeral_canonical _) (Nat.le_max_right _ _) hMem'
          omega
        · omega

/-- Where no more digits are left than the bound has but two, only the last two digits
may differ. -/
theorem mem_atLeast_append {p ds : List Digit} {x y : Digit} (hs : Canonical (p ++ [x, y]))
    (hInner : 0 ∉ inner (p ++ [x, y])) (hp : p ≠ []) (hDec : dec ≤ p.length) :
    ds ∈ atLeast (p.length + fuel) (value (p ++ [x, y])) dec top ↔
      ∃ t, ds = p ++ t ∧ t ∈ atLeast fuel (value [x, y]) 1 false := by
  induction p generalizing dec top ds with
  | nil => exact absurd rfl hp
  | cons c p ih =>
    have hRest : p ++ [x, y] ≠ [] := append_ne_nil_of_right_ne_nil _ (cons_ne_nil _ _)
    have hCanonical : Canonical (c :: (p ++ [x, y])) := hs
    rw [length_cons] at hDec
    cases ds with
    | nil =>
      apply iff_of_false nil_not_mem_atLeast
      rintro ⟨t, hEq, -⟩
      exact cons_ne_nil _ _ hEq.symm
    | cons d ds =>
      rw [length_cons, Nat.add_right_comm, cons_append,
        cons_mem_atLeast hCanonical hRest, length_append]
      have hLess : ¬ ((1 < c ∧ start top ≤ d ∧ d < c) ∧
          p.length + [x, y].length + 1 ≤ ds.length ∧ ds.length ≤ max (dec - 1) 1) := by
        rintro ⟨-, hLow, hHigh⟩
        rw [length_cons, length_cons] at hLow
        omega
      have hMore : ¬ (c < d ∧ p.length + [x, y].length ≤ ds.length ∧
          ds.length ≤ max (dec - 1) 1) := by
        rintro ⟨-, hLow, hHigh⟩
        rw [length_cons, length_cons, length_nil] at hLow
        omega
      rw [or_iff_right hLess, or_iff_left hMore]
      have hTail : ds ∈ atLeast (p.length + fuel) (value (p ++ [x, y])) (max (dec - 1) 1)
          false ↔ ∃ t, ds = p ++ t ∧ t ∈ atLeast fuel (value [x, y]) 1 false := by
        by_cases hLast : p = []
        · rw [hLast, length_nil] at hDec
          rw [hLast, show max (dec - 1) 1 = 1 by omega, length_nil]
          simp
        obtain ⟨hNext, hRestInner⟩ := canonical_rest hRest hInner
        have hPos := length_pos_of_ne_nil hLast
        exact ih hNext hRestInner hLast (by omega)
      rw [hTail]
      constructor
      · rintro ⟨rfl, t, rfl, hMem⟩
        exact ⟨t, rfl, hMem⟩
      rintro ⟨t, hEq, hMem⟩
      obtain ⟨rfl, rfl⟩ := cons.inj hEq
      exact ⟨rfl, t, rfl, hMem⟩

theorem canonical_pair {x : Digit} (y : Digit) (hx : x ≠ 0) : Canonical [x, y] :=
  ⟨cons_ne_nil _ _, fun hHead => absurd (some.inj hHead) hx⟩

theorem value_pair (x y : Digit) : value [x, y] = x.val * 10 + y.val := by
  simp [value]

theorem nines_mem {x : Digit} (hx : x ≠ 0) : [9, 9] ∈ atLeast (fuel + 2)
    (value [x, 0]) 1 false := by
  apply (cons_mem_atLeast (canonical_pair 0 hx) (cons_ne_nil _ _)).mpr
  by_cases hNine : x = 9
  · refine Or.inr (Or.inl ⟨hNine.symm, ?_⟩)
    exact mem_atLeast_zero.mpr ⟨le_rfl, le_rfl⟩
  refine Or.inr (Or.inr ⟨?_, le_rfl, le_rfl⟩)
  revert x
  decide

theorem more_nines_mem {x y : Digit} (hx : x ≠ 0) (hy : y ≠ 0) :
    [x, 9, 9] ∈ atLeast (fuel + 2) (value [x, y]) 1 false := by
  apply (cons_mem_atLeast (canonical_pair y hx) (cons_ne_nil _ _)).mpr
  refine Or.inr (Or.inl ⟨rfl, (cons_mem_atLeast_digit hy).mpr (Or.inr ⟨Fin.le_last y, le_rfl⟩)⟩)

/-- With one more digit than the bound, the first of the last two is that of the bound. -/
theorem pair_cases {x y : Digit} {t : List Digit} (hx : x ≠ 0)
    (hMem : t ∈ atLeast (fuel + 2) (value [x, y]) 1 false) :
    t.length = 2 ∨ y ≠ 0 ∧ ∃ u, t = x :: u ∧ u.length = 2 := by
  cases t with
  | nil => exact absurd hMem nil_not_mem_atLeast
  | cons d t =>
    have hs := canonical_pair y hx
    rcases (cons_mem_atLeast hs (cons_ne_nil _ _)).mp hMem with hLess | hSame | hMore
    · exact absurd hLess.2.1 (by have hTop := hLess.2.2; simp at hTop ⊢; omega)
    · by_cases hZero : y = 0
      · rw [hZero] at hSame
        obtain ⟨hLow, hHigh⟩ := mem_atLeast_zero.mp hSame.2
        refine Or.inl (congrArg (· + 1) (Nat.le_antisymm hHigh hLow))
      cases t with
      | nil => exact absurd hSame.2 nil_not_mem_atLeast
      | cons e t =>
        have hShort : t.length ≤ 1 := by
          rcases (cons_mem_atLeast_digit hZero).mp hSame.2 with hLow | hHigh
          · exact hLow.2.2
          · exact hHigh.2
        by_cases hOne : t.length = 1
        · exact Or.inr ⟨hZero, e :: t, by rw [hSame.1], by rw [length_cons, hOne]⟩
        · rw [length_cons, length_cons]
          omega
    refine Or.inl (congrArg (· + 1) ?_)
    have hLow : 1 ≤ t.length := hMore.2.1
    omega

/-- The greatest integer with the digits of the bound but the last one, or two behind a
zero, fits into 64 bits. -/
def CapOk (m : Nat) : Prop :=
  if m % 10 = 0 then m / 100 * 100 + 99 ≤ 2 ^ 63 - 1 else m / 10 * 100 + 99 ≤ 2 ^ 63 - 1

instance (m : Nat) : Decidable (CapOk m) := by
  unfold CapOk
  infer_instance

theorem exists_append_pair {s : List Digit} (hLength : 2 ≤ s.length) :
    ∃ p x y, s = p ++ [x, y] ∧ p.length + 2 = s.length := by
  have hDrop : (s.drop (s.length - 2)).length = 2 := by
    rw [length_drop]
    omega
  obtain ⟨x, y, hEq⟩ := length_eq_two.mp hDrop
  refine ⟨s.take (s.length - 2), x, y, ?_, ?_⟩
  · rw [← hEq, take_append_drop]
  · rw [length_take]
    omega

theorem inner_append_pair {p : List Digit} (hp : p ≠ []) (x y : Digit) :
    x ∈ inner (p ++ [x, y]) := by
  cases p with
  | nil => exact absurd rfl hp
  | cons c p =>
    show x ∈ (p ++ [x, y]).dropLast
    simp

theorem value_append_two (p : List Digit) (t : List Digit) (hLength : t.length = 2) :
    value (p ++ t) = value p * 100 + value t := by
  rw [value_append, hLength]
  rfl

theorem cap_iff {p : List Digit} {x y : Digit} (hs : Canonical (p ++ [x, y]))
    (hInner : 0 ∉ inner (p ++ [x, y])) (hLength : 16 ≤ p.length) :
    (∀ ds ∈ atLeast (p.length + (fuel + 2)) (value (p ++ [x, y])) 16 top,
      value ds ≤ 2 ^ 63 - 1) ↔ CapOk (value (p ++ [x, y])) := by
  have hp : p ≠ [] := fun hNil => by
    rw [hNil] at hLength
    exact absurd hLength (by decide)
  have hx : x ≠ 0 := fun hZero => hInner (hZero ▸ inner_append_pair hp x y)
  have hMem : ∀ ds, ds ∈ atLeast (p.length + (fuel + 2)) (value (p ++ [x, y])) 16 top ↔
      ∃ t, ds = p ++ t ∧ t ∈ atLeast (fuel + 2) (value [x, y]) 1 false :=
    fun ds => mem_atLeast_append hs hInner hp hLength
  have hValue : value (p ++ [x, y]) = value p * 100 + (x.val * 10 + y.val) := by
    rw [value_append_two p [x, y] rfl, value_pair]
  have hLast : value (p ++ [x, y]) % 10 = y.val := by omega
  have hTens : value (p ++ [x, y]) / 10 = value p * 10 + x.val := by omega
  have hHundreds : value (p ++ [x, y]) / 100 = value p := by omega
  have hPair : ∀ t : List Digit, t.length = 2 → value t ≤ 99 := by
    intro t ht
    have hLt := value_lt t
    rw [ht] at hLt
    omega
  rw [CapOk, hLast, hHundreds]
  by_cases hZero : y = 0
  · have hVal : y.val = 0 := congrArg Fin.val hZero
    rw [if_pos hVal]
    constructor
    · intro hAll
      have hNines := hAll (p ++ [9, 9]) ((hMem _).mpr ⟨_, rfl, hZero ▸ nines_mem hx⟩)
      rwa [value_append_two p [9, 9] rfl] at hNines
    intro hCap ds hds
    obtain ⟨t, rfl, ht⟩ := (hMem ds).mp hds
    have hTwo := (pair_cases hx ht).resolve_right fun h => h.1 hZero
    rw [value_append_two p t hTwo]
    have hSmall := hPair t hTwo
    omega
  have hNonzero : y.val ≠ 0 := fun h => hZero (Fin.ext h)
  rw [if_neg hNonzero]
  constructor
  · intro hAll
    have hNines := hAll (p ++ [x, 9, 9]) ((hMem _).mpr ⟨_, rfl, more_nines_mem hx hZero⟩)
    rw [value_append] at hNines
    have hThree : value [x, 9, 9] = x.val * 100 + 99 := by simp [value]
    rw [show [x, 9, 9].length = 3 from rfl] at hNines
    omega
  intro hCap ds hds
  obtain ⟨t, rfl, ht⟩ := (hMem ds).mp hds
  rcases pair_cases hx ht with hTwo | ⟨-, u, rfl, hTwo⟩
  · rw [value_append_two p t hTwo]
    have hSmall := hPair t hTwo
    omega
  have hSmall := hPair u hTwo
  rw [value_append, value_cons, length_cons, hTwo]
  omega

/-- What is accepted fits into 64 bits if and only if the greatest such integer does. -/
theorem atLeast_cap_iff {m : Nat} (hm : m < 10 ^ 19) (hFuel : (numeral m).length ≤ fuel)
    (hOk : LowerOk m) :
    (∀ ds ∈ atLeast fuel m 16 top, value ds ≤ 2 ^ 63 - 1) ↔ CapOk m := by
  have hs := numeral_canonical m
  have hValue := value_numeral m
  by_cases hShort : (numeral m).length ≤ 17
  · apply iff_of_true
    · intro ds hds
      rw [← hValue] at hds
      have hLength := atLeast_length_le hs (by decide) hds
      have hLt := value_lt ds
      have hPower : 10 ^ ds.length ≤ 10 ^ 18 := Nat.pow_le_pow_right (by decide) (by omega)
      omega
    have hLt := (numeral_length_le (by decide)).mp hShort
    rw [CapOk]
    split <;> omega
  obtain ⟨p, x, y, hEq, hLength⟩ := exists_append_pair (s := numeral m) (by omega)
  have hInner := hOk.1
  rw [hEq] at hs hInner hValue
  have hIff := @cap_iff (fuel - p.length - 2) top p x y hs hInner (by omega)
  rw [hValue] at hIff
  rw [← hIff, show p.length + (fuel - p.length - 2 + 2) = fuel by omega]

end Cap

/-! ## The bounds for which the expression is exact -/

/-- The bounds whose expression has an exact language. -/
def IntBounds.Plain (b : IntBounds) : Prop :=
  if b.minValue ≠ int64Min ∧ b.maxValue ≠ int64Max then
    b.maxValue < 0 → b.minValue = -int64Max → LowerOk b.maxValue.natAbs ∧ CapOk b.maxValue.natAbs
  else if b.minValue ≠ int64Min then
    if b.minValue < 0 then b.minValue ≠ -int64Max else LowerOk b.minValue.natAbs
  else
    b.maxValue < 0 →
      b.maxValue ≠ int64Min ∧ LowerOk b.maxValue.natAbs ∧ LeadOk b.maxValue.natAbs

/-- The bound whose digits are counted down, if there is one, is short. -/
def IntBounds.ShortBound (b : IntBounds) : Prop :=
  if b.minValue ≠ int64Min ∧ b.maxValue ≠ int64Max then
    b.maxValue < 0 → b.minValue = -int64Max → Short b.maxValue.natAbs
  else if b.minValue ≠ int64Min then 0 ≤ b.minValue → Short b.minValue.natAbs
  else b.maxValue < 0 → Short b.maxValue.natAbs

theorem nil_not_mem_between {m n : Nat} : [] ∉ between m n := fun h => h.1.1 rfl

theorem numeral_mem_between {k m n : Nat} : numeral k ∈ between m n ↔ m ≤ k ∧ k ≤ n := by
  rw [mem_between, value_numeral]
  exact and_iff_right (numeral_canonical k)

variable {defs : List UInt8 → Option GbnfExpr}

theorem built_negative {r : Option Alts}
    {N : Language Digit} (h : Built defs r ({[0x2D]} * coded N)) : Built defs r (signed N 0) := by
  rwa [signed, coded_zero, add_zero]

theorem built_positive {r : Option Alts}
    {P : Language Digit} (h : Built defs r (coded P)) : Built defs r (signed 0 P) := by
  rwa [signed, coded_zero, mul_zero, zero_add]

variable {b : IntBounds}

/-- The magnitudes of the integers between a negative lower bound and zero. -/
noncomputable def magnitudes (m : Nat) : Language Digit :=
  if (m : Int) = int64Max then atLeast 31 0 16 true else between 0 m

theorem magnitudes_built (defs : List UInt8 → Option GbnfExpr) {m : Nat}
    (hm : (m : Int) ≤ int64Max) :
    Built defs (buildMinMaxInt 31 0 m 16 true) (coded (magnitudes m)) := by
  rw [magnitudes]
  split
  next hMax =>
    rw [hMax]
    exact buildMinMaxInt_atLeast (by decide) (by decide) (by decide)
  next hNe => exact buildMinMaxInt_between (Nat.zero_le m) (lt_of_le_of_ne hm hNe)

theorem magnitudes_sound {m : Nat} (hMem : ds ∈ magnitudes m) : ds ≠ [] ∧ value ds ≤ m := by
  rw [magnitudes] at hMem
  split at hMem
  next hMax =>
    refine ⟨fun hNil => nil_not_mem_atLeast (hNil ▸ hMem), ?_⟩
    have hLength := atLeast_length_le (s := [0]) ⟨cons_ne_nil _ _, fun _ => rfl⟩
      (by decide) hMem
    have hLt := value_lt ds
    have hPower : 10 ^ ds.length ≤ 10 ^ 16 := Nat.pow_le_pow_right (by decide) hLength
    rw [int64Max] at hMax
    omega
  next => exact ⟨fun hNil => nil_not_mem_between (hNil ▸ hMem), hMem.2.2⟩

theorem magnitudes_complete {m n : Nat} (hLe : n ≤ m) (hn : n < 10 ^ 15) :
    numeral n ∈ magnitudes m := by
  rw [magnitudes]
  split
  · exact complete_of_lowerOk (by decide) (fun h => absurd h Bool.noConfusion) (by decide)
      (Nat.zero_le n) hn
  · exact numeral_mem_between.mpr ⟨Nat.zero_le n, hLe⟩

section

variable (hMin : b.minValue ≠ int64Min)

include hMin

theorem exact_between (hMax : b.maxValue ≠ int64Max) (hNonneg : 0 ≤ b.minValue) : ExactLang b := by
  obtain ⟨m, hm⟩ := Int.eq_ofNat_of_zero_le hNonneg
  obtain ⟨n, hn⟩ := Int.eq_ofNat_of_zero_le (le_trans hNonneg b.ordered)
  have hOrdered := b.ordered
  have hTop := b.max64
  rw [hn] at hMax hTop
  have hBuilt : ∀ defs, Built defs (buildTopLevel b.minValue b.maxValue)
      (signed 0 (between m n)) := by
    intro defs
    rw [hm, hn]
    exact built_positive (buildMinMaxInt_between (by omega) (lt_of_le_of_ne hTop hMax))
  rw [exact_iff_signed (notMem_zero _) nil_not_mem_between hBuilt]
  refine ⟨fun ds h => absurd h (notMem_zero ds), fun ds h => ?_, fun k hPos _ hIn => ?_,
    fun k _ hIn => ?_⟩
  · obtain ⟨-, hLow, hHigh⟩ := mem_between.mp h
    rw [IntBounds.Inside, hm, hn]
    omega
  · have hLow := hIn.1 hMin
    omega
  have hLow := hIn.1 hMin
  have hHigh := hIn.2 (hn ▸ hMax)
  exact numeral_mem_between.mpr ⟨by omega, by omega⟩

theorem exact_around (hMax : b.maxValue ≠ int64Max)
    (hNeg : b.minValue < 0) (hNonneg : 0 ≤ b.maxValue) : ExactLang b := by
  obtain ⟨m, hm⟩ := Int.eq_ofNat_of_zero_le (Int.neg_nonneg_of_nonpos (le_of_lt hNeg))
  obtain ⟨n, hn⟩ := Int.eq_ofNat_of_zero_le hNonneg
  have hBottom := b.min64
  have hTop := b.max64
  have hSize : (m : Int) ≤ int64Max := by
    rw [int64Min] at hMin
    rw [int64Max]
    omega
  have hBuilt : ∀ defs, Built defs (buildTopLevel b.minValue b.maxValue)
      (signed (magnitudes m) (between 0 n)) := by
    intro defs
    rw [hn] at hMax hTop ⊢
    apply buildMinMaxInt_around hNeg hMin (lt_of_le_of_ne hTop hMax)
    rw [hm]
    exact magnitudes_built defs hSize
  have hNil : [] ∉ magnitudes m := fun h => (magnitudes_sound h).1 rfl
  rw [exact_iff_signed hNil nil_not_mem_between hBuilt]
  refine ⟨fun ds h => ?_, fun ds h => ?_, fun k _ hk hIn => ?_, fun k _ hIn => ?_⟩
  · have hLe := (magnitudes_sound h).2
    exact ⟨fun _ => by omega, fun _ => by omega⟩
  · obtain ⟨-, -, hHigh⟩ := mem_between.mp h
    exact ⟨fun _ => by omega, fun _ => by omega⟩
  · have hLow := hIn.1 hMin
    exact magnitudes_complete (by omega) hk
  · have hHigh := hIn.2 hMax
    exact numeral_mem_between.mpr ⟨Nat.zero_le k, by omega⟩

theorem exact_below (hNeg : b.maxValue < 0) :
    ExactLang b ↔ (b.minValue = -int64Max →
      LowerOk b.maxValue.natAbs ∧ CapOk b.maxValue.natAbs) := by
  have hOrdered := b.ordered
  have hBottom := b.min64
  have hMax : b.maxValue ≠ int64Max := by
    rw [int64Max]
    omega
  have hm : -b.maxValue = (b.maxValue.natAbs : Int) := by omega
  have hn : -b.minValue = (b.minValue.natAbs : Int) := by omega
  generalize b.maxValue.natAbs = m at hm ⊢
  generalize b.minValue.natAbs = n at hn
  have hSize : (n : Int) ≤ int64Max := by
    rw [int64Min] at hMin
    rw [int64Max]
    omega
  have hInside : ∀ k : Nat, b.Inside (-(k : Int)) ↔ m ≤ k ∧ k ≤ n := by
    intro k
    rw [IntBounds.Inside]
    omega
  have hNone : ∀ k : Nat, ¬ b.Inside k := by
    intro k hIn
    have hHigh := hIn.2 hMax
    omega
  by_cases hLeast : b.minValue = -int64Max
  · have hnMax : (n : Int) = int64Max := by omega
    have hmSmall : m < 10 ^ 19 := by
      omega
    have hBuilt : ∀ defs, Built defs (buildTopLevel b.minValue b.maxValue)
        (signed (atLeast 31 m 16 true) 0) := by
      intro defs
      apply built_negative
      apply buildMinMaxInt_below (by omega) hNeg hMin
      rw [hm, hn, hnMax]
      exact buildMinMaxInt_atLeast (le_trans (numeral_bound hmSmall) (by decide)) (by decide)
        (by decide)
    have hFuel : (numeral m).length ≤ 31 := le_trans (numeral_bound hmSmall) (by decide)
    have hExact := @atLeast_exact_iff 31 m true hFuel (fun h => absurd h Bool.noConfusion)
    have hWithin := @atLeast_cap_iff 31 true m hmSmall hFuel
    have hnValue : n = 2 ^ 63 - 1 := by
      rw [int64Max] at hnMax
      omega
    rw [exact_iff_signed nil_not_mem_atLeast (notMem_zero _) hBuilt,
      imp_iff_right hLeast]
    constructor
    · intro h
      have hSound : ∀ ds ∈ atLeast 31 m 16 true, m ≤ value ds ∧ value ds ≤ n :=
        fun ds hds => (hInside _).mp (h.negative_sound ds hds)
      have hOk := (hExact.mp ⟨fun ds hds => (hSound ds hds).1, fun k hLe hk =>
        h.negative_complete k (by omega) hk ((hInside k).mpr ⟨hLe, by omega⟩)⟩).1
      refine ⟨hOk, (hWithin hOk).mp fun ds hds => ?_⟩
      rw [← hnValue]
      exact (hSound ds hds).2
    rintro ⟨hOk, hCap⟩
    obtain ⟨hSound, hComplete⟩ := hExact.mpr ⟨hOk, Or.inl rfl⟩
    have hBelow := (hWithin hOk).mpr hCap
    refine ⟨fun ds hds => (hInside _).mpr ⟨hSound ds hds, ?_⟩, fun ds hds => ?_,
      fun k _ hk hIn => hComplete k ((hInside k).mp hIn).1 hk, fun k _ hIn => ?_⟩
    · rw [hnValue]
      exact hBelow ds hds
    · exact absurd hds (notMem_zero ds)
    · exact absurd hIn (hNone k)
  have hBuilt : ∀ defs, Built defs (buildTopLevel b.minValue b.maxValue)
      (signed (between m n) 0) := by
    intro defs
    apply built_negative
    apply buildMinMaxInt_below (by omega) hNeg hMin
    rw [hm, hn]
    exact buildMinMaxInt_between (by omega) (lt_of_le_of_ne hSize (by omega))
  rw [exact_iff_signed nil_not_mem_between (notMem_zero _) hBuilt]
  refine iff_of_true ⟨fun ds hds => ?_, fun ds hds => ?_, fun k _ _ hIn => ?_,
    fun k _ hIn => absurd hIn (hNone k)⟩ fun h => absurd h hLeast
  · exact (hInside _).mpr (mem_between.mp hds).2
  · exact absurd hds (notMem_zero ds)
  · exact numeral_mem_between.mpr ((hInside k).mp hIn)

theorem exact_lower (hMax : b.maxValue = int64Max)
    (hNonneg : 0 ≤ b.minValue) : ExactLang b ↔ LowerOk b.minValue.natAbs := by
  have hm : b.minValue = (b.minValue.natAbs : Int) := by omega
  have hSmall : b.minValue.natAbs < 10 ^ 19 := by
    have hOrdered := b.ordered
    rw [hMax, int64Max] at hOrdered
    omega
  generalize b.minValue.natAbs = m at hm hSmall
  have hFuel : (numeral m).length ≤ 32 := le_trans (numeral_bound hSmall) (by decide)
  have hBuilt : ∀ defs, Built defs (buildTopLevel b.minValue b.maxValue)
      (signed 0 (atLeast 32 m 16 true)) := by
    intro defs
    rw [hm, hMax]
    exact built_positive (buildMinMaxInt_atLeast hFuel (by decide) (by decide))
  have hInside : ∀ z, b.Inside z ↔ (m : Int) ≤ z := by
    intro z
    rw [IntBounds.Inside, imp_iff_right hMin, hm]
    exact and_iff_left fun h => absurd hMax h
  have hExact := @atLeast_exact_iff 32 m true hFuel (fun h => absurd h Bool.noConfusion)
  rw [exact_iff_signed (notMem_zero _) nil_not_mem_atLeast hBuilt]
  constructor
  · intro h
    refine (hExact.mp ⟨fun ds hds => ?_, fun k hLe hk => ?_⟩).1
    · exact Int.ofNat_le.mp ((hInside _).mp (h.positive_sound ds hds))
    · exact h.positive_complete k hk ((hInside _).mpr (Int.ofNat_le.mpr hLe))
  intro hOk
  obtain ⟨hSound, hComplete⟩ := hExact.mpr ⟨hOk, Or.inl rfl⟩
  refine ⟨fun ds hds => absurd hds (notMem_zero ds), fun ds hds => ?_,
    fun k hPos _ hIn => ?_, fun k hk hIn => ?_⟩
  · exact (hInside _).mpr (Int.ofNat_le.mpr (hSound ds hds))
  · have hLow := (hInside _).mp hIn
    omega
  · exact hComplete k (Int.ofNat_le.mp ((hInside _).mp hIn)) hk

omit hMin in
/-- What is written for no upper bound: zero, and up to sixteen digits behind none. -/
theorem unbounded_writes (defs : List UInt8 → Option GbnfExpr) :
    AltsWrite defs [[digitRange 0 0], [digitRange 1 9, moreDigits 0 (16 - 1)]]
      (coded (atLeast 1 0 16 true)) := by
  rw [atLeast, if_pos rfl, if_pos rfl, coded_add, coded_mul]
  exact (digitRange_writes 0 0).one.cons
    ((digitRange_writes 1 9).pair (moreDigits_writes (by decide) (by decide))).one

theorem exact_lower_negative (hMax : b.maxValue = int64Max)
    (hNeg : b.minValue < 0) : ExactLang b ↔ b.minValue ≠ -int64Max := by
  have hBottom := b.min64
  have hn : -b.minValue = (b.minValue.natAbs : Int) := by omega
  generalize b.minValue.natAbs = n at hn
  have hText : buildTopLevel b.minValue b.maxValue =
      (buildMinMaxInt 31 int64Min n 16 false).map fun alts =>
        [[minus, group alts], [digitRange 0 0], [digitRange 1 9, moreDigits 0 (16 - 1)]] := by
    rw [buildTopLevel, buildMinMaxInt, if_neg fun h => h.2 hMax]
    simp only
    rw [if_pos hMin, if_pos hNeg, hn]
  by_cases hLeast : b.minValue = -int64Max
  · apply iff_of_false _ (not_not_intro hLeast)
    rintro ⟨alts, hAlts, -⟩
    have hnMax : (n : Int) = int64Max := by omega
    have hThrows : buildMinMaxInt 31 int64Min int64Max 16 false = none := by
      rw [buildMinMaxInt, if_neg fun h => h.1 rfl]
      simp only
      rw [if_neg (not_not_intro rfl), if_neg (not_not_intro rfl)]
    rw [hText, hnMax] at hAlts
    exact absurd hAlts (some_ne_none alts).symm
  have hSize : (n : Int) < int64Max := by
    rw [int64Min] at hMin
    rw [int64Max] at hLeast ⊢
    omega
  have hBuilt : ∀ defs, Built defs (buildTopLevel b.minValue b.maxValue)
      (signed (between 0 n) (atLeast 1 0 16 true)) := by
    intro defs
    obtain ⟨alts, hAlts, hWrites⟩ :=
      @buildMinMaxInt_between defs _ _ 29 16 true
        (Nat.zero_le n) hSize
    have hUpper : buildMinMaxInt 31 int64Min n 16 false = some alts := by
      have hCast : ((0 : Nat) : Int) = 0 := rfl
      rw [hCast] at hAlts
      rw [buildMinMaxInt, if_neg fun h => h.1 rfl]
      simp only
      rw [if_pos (ne_of_lt hSize),
        hAlts]
      rfl
    refine ⟨_, by rw [hText, hUpper]; rfl, ?_⟩
    exact (minus_writes.pair hWrites.group).cons (unbounded_writes defs)
  rw [exact_iff_signed nil_not_mem_between nil_not_mem_atLeast hBuilt]
  refine iff_of_true ⟨fun ds hds => ?_, fun ds _ => ?_, fun k _ _ hIn => ?_, fun k hk _ => ?_⟩
    hLeast
  · obtain ⟨-, -, hHigh⟩ := mem_between.mp hds
    exact ⟨fun _ => by omega, fun h => absurd hMax h⟩
  · exact ⟨fun _ => by omega, fun h => absurd hMax h⟩
  · have hLow := hIn.1 hMin
    exact numeral_mem_between.mpr ⟨Nat.zero_le k, by omega⟩
  · exact complete_of_lowerOk (by decide) (fun h => absurd h Bool.noConfusion) (by decide)
      (Nat.zero_le k) hk

end

theorem exact_upper (hMin : b.minValue = int64Min) (hMax : b.maxValue ≠ int64Max)
    (hNonneg : 0 ≤ b.maxValue) : ExactLang b := by
  have hn : b.maxValue = (b.maxValue.natAbs : Int) := by omega
  have hTop := b.max64
  generalize b.maxValue.natAbs = n at hn
  have hSize : (n : Int) < int64Max := by
    rw [int64Max] at hMax ⊢
    omega
  have hBuilt : ∀ defs, Built defs (buildTopLevel b.minValue b.maxValue)
      (signed (oneOf 1 9 * count 0 15) (between 0 n)) := by
    intro defs
    obtain ⟨alts, hAlts, hWrites⟩ :=
      @buildMinMaxInt_between defs _ _ 30 16 true
        (Nat.zero_le n) hSize
    have hCast : ((0 : Nat) : Int) = 0 := rfl
    rw [hCast] at hAlts
    have hText : buildTopLevel b.minValue b.maxValue =
        some ([[minus, digitRange 1 9, moreDigits 0 15]] ++ alts) := by
      rw [buildTopLevel, buildMinMaxInt, if_neg fun h => h.1 hMin]
      rw [if_neg (not_not_intro hMin), if_pos hMax, hn, hAlts]
      rfl
    refine ⟨_, hText, ?_⟩
    rw [signed, coded_mul]
    exact (minus_writes.cons ((digitRange_writes 1 9).pair
      (moreDigits_writes (by decide) (by decide)))).one.append hWrites
  rw [exact_iff_signed (nil_not_mem_oneOf_mul _ _ _) nil_not_mem_between hBuilt]
  refine ⟨fun ds _ => ?_, fun ds hds => ?_, fun k hPos hk _ => ?_, fun k hk hIn => ?_⟩
  · exact ⟨fun h => absurd hMin h, fun _ => by omega⟩
  · obtain ⟨-, -, hHigh⟩ := mem_between.mp hds
    exact ⟨fun h => absurd hMin h, fun _ => by omega⟩
  · have hs := numeral_canonical k
    have hValue := value_numeral k
    have hLength := (numeral_length_le (by decide)).mpr hk
    cases hNumeral : numeral k with
    | nil => exact absurd hNumeral (numeral_ne_nil k)
    | cons d ds =>
      rw [hNumeral] at hs hValue hLength
      rw [length_cons] at hLength
      have hd := head_ne_zero hs (by omega)
      exact cons_mem_oneOf_mul.mpr ⟨one_le_iff.mpr hd, mem_count.mpr ⟨by omega, by omega⟩⟩
  · have hHigh := hIn.2 hMax
    exact numeral_mem_between.mpr ⟨Nat.zero_le k, by omega⟩

theorem exact_upper_negative (hMin : b.minValue = int64Min) (hNeg : b.maxValue < 0) :
    ExactLang b ↔ b.maxValue ≠ int64Min ∧ LowerOk b.maxValue.natAbs ∧ LeadOk b.maxValue.natAbs := by
  have hMax : b.maxValue ≠ int64Max := by
    rw [int64Max]
    omega
  have hOrdered := b.ordered
  have hm : -b.maxValue = (b.maxValue.natAbs : Int) := by omega
  generalize b.maxValue.natAbs = m at hm ⊢
  have hText : buildTopLevel b.minValue b.maxValue =
      if b.maxValue = int64Min then none else
        (buildMinMaxInt 31 m int64Max 16 false).map fun alts => [[minus, group alts]] := by
    rw [buildTopLevel, buildMinMaxInt, if_neg fun h => h.1 hMin]
    rw [if_neg (not_not_intro hMin), if_pos hMax, if_neg (not_le.mpr hNeg), hm]
  by_cases hLeast : b.maxValue = int64Min
  · apply iff_of_false
    · rintro ⟨alts, hAlts, -⟩
      rw [hText, if_pos hLeast] at hAlts
      exact absurd hAlts (some_ne_none alts).symm
    · exact fun h => h.1 hLeast
  rw [if_neg hLeast] at hText
  have hSmall : m < 10 ^ 19 := by
    rw [hMin, int64Min] at hOrdered
    omega
  have hFuel : (numeral m).length ≤ 31 := le_trans (numeral_bound hSmall) (by decide)
  have hPos : m ≠ 0 := by omega
  have hBuilt : ∀ defs, Built defs (buildTopLevel b.minValue b.maxValue)
      (signed (atLeast 31 m 16 false) 0) := by
    intro defs
    rw [hText]
    exact built_negative
      (buildMinMaxInt_atLeast hFuel (by decide) (by decide)).negated
  have hInside : ∀ z, b.Inside z ↔ z ≤ -(m : Int) := by
    intro z
    rw [IntBounds.Inside, imp_iff_right hMax, ← hm, neg_neg]
    exact and_iff_right fun h => absurd hMin h
  have hExact := @atLeast_exact_iff 31 m false hFuel (fun _ => hPos)
  rw [exact_iff_signed nil_not_mem_atLeast (notMem_zero _) hBuilt,
    and_iff_right hLeast]
  constructor
  · intro h
    obtain ⟨hOk, hLead⟩ := hExact.mp ⟨fun ds hds => by
        have hLow := (hInside _).mp (h.negative_sound ds hds)
        omega,
      fun k hLe hk => h.negative_complete k (by omega) hk ((hInside _).mpr (by omega))⟩
    exact ⟨hOk, hLead.resolve_left Bool.false_ne_true⟩
  rintro ⟨hOk, hLead⟩
  obtain ⟨hSound, hComplete⟩ := hExact.mpr ⟨hOk, Or.inr hLead⟩
  refine ⟨fun ds hds => (hInside _).mpr ?_, fun ds hds => ?_, fun k _ hk hIn => ?_,
    fun k _ hIn => ?_⟩
  · have hLow := hSound ds hds
    omega
  · exact absurd hds (notMem_zero ds)
  · have hLow := (hInside _).mp hIn
    exact hComplete k (by omega) hk
  · have hLow := (hInside _).mp hIn
    omega

theorem exactLang_iff (b : IntBounds) : ExactLang b ↔ b.Plain := by
  rw [IntBounds.Plain]
  by_cases hMin : b.minValue = int64Min
  · have hMax : b.maxValue ≠ int64Max := b.present.resolve_left (not_not_intro hMin)
    rw [if_neg fun h => h.1 hMin, if_neg (not_not_intro hMin)]
    by_cases hNeg : b.maxValue < 0
    · rw [imp_iff_right hNeg]
      exact exact_upper_negative hMin hNeg
    · exact iff_of_true (exact_upper hMin hMax (not_lt.mp hNeg)) fun h => absurd h hNeg
  by_cases hMax : b.maxValue = int64Max
  · rw [if_neg fun h => h.2 hMax, if_pos hMin]
    by_cases hNeg : b.minValue < 0
    · rw [if_pos hNeg]
      exact exact_lower_negative hMin hMax hNeg
    · rw [if_neg hNeg]
      exact exact_lower hMin hMax (not_lt.mp hNeg)
  rw [if_pos ⟨hMin, hMax⟩]
  by_cases hNeg : b.maxValue < 0
  · rw [imp_iff_right hNeg]
    exact exact_below hMin hNeg
  refine iff_of_true ?_ fun h => absurd h hNeg
  by_cases hLow : b.minValue < 0
  · exact exact_around hMin hMax hLow (not_lt.mp hNeg)
  · exact exact_between hMin hMax (not_lt.mp hLow)

section

variable (h : b.Plain)

include h

/-- The repetitions for a minimum without a maximum. -/
theorem minimum_bounded (hMin : b.minValue ≠ int64Min) (hMax : b.maxValue = int64Max) :
    BuildsBounded (buildTopLevel b.minValue b.maxValue) ↔
      (0 ≤ b.minValue → Short b.minValue.natAbs) := by
  have hOrdered := b.ordered
  have hBottom := b.min64
  rw [IntBounds.Plain, if_neg fun h => h.2 hMax, if_pos hMin] at h
  rw [hMax] at hOrdered ⊢
  by_cases hNeg : b.minValue < 0
  · rw [if_pos hNeg] at h
    have hn : -b.minValue = (b.minValue.natAbs : Int) := by omega
    have hSize : (b.minValue.natAbs : Int) < int64Max := by
      rw [int64Min] at hMin
      rw [int64Max] at h ⊢
      omega
    refine iff_of_true ?_ fun hLe => absurd hNeg (not_lt.mpr hLe)
    obtain ⟨alts, hAlts, hBounded⟩ := @magnitudes_bounded _ 29 (le_of_lt hSize)
    rw [buildTopLevel, buildMinMaxInt, if_neg fun h => h.2 rfl]
    simp only
    rw [if_pos hMin, if_pos hNeg, hn, buildMinMaxInt, if_neg fun h => h.1 rfl]
    simp only
    rw [if_neg (not_not_intro rfl), if_pos (ne_of_lt hSize), if_pos (Int.natCast_nonneg _), hAlts]
    refine buildsBounded_some.mpr (altsBounded_cons.mpr ⟨pair_bounded.mpr ⟨trivial, ?_⟩,
      altsBounded_cons.mpr ⟨forall_mem_singleton.mpr (digitRange_bounded 0 0),
        altsBounded_cons.mpr ⟨?_, altsBounded_nil⟩⟩⟩)
    · exact group_bounded.mpr hBounded
    · exact (pair_more_bounded (by decide)).mpr (by decide)
  rw [if_neg hNeg] at h
  have hm : b.minValue = (b.minValue.natAbs : Int) := by omega
  have hSmall : b.minValue.natAbs < 10 ^ 19 := by
    rw [int64Max] at hOrdered
    omega
  rw [imp_iff_right (not_lt.mp hNeg), buildTopLevel]
  conv_lhs => rw [hm]
  exact lower_bounded_iff h.1 (le_trans (numeral_bound hSmall) (by decide))

/-- The repetitions for a maximum without a minimum. -/
theorem maximum_bounded (hMin : b.minValue = int64Min) (hMax : b.maxValue ≠ int64Max) :
    BuildsBounded (buildTopLevel b.minValue b.maxValue) ↔
      (b.maxValue < 0 → Short b.maxValue.natAbs) := by
  have hTop := b.max64
  have hBottom := b.ordered
  rw [IntBounds.Plain, if_neg fun h => h.1 hMin, if_neg (not_not_intro hMin)] at h
  rw [buildTopLevel, buildMinMaxInt, if_neg fun h => h.1 hMin]
  simp only
  rw [if_neg (not_not_intro hMin), if_pos hMax]
  by_cases hNeg : b.maxValue < 0
  · obtain ⟨hLeast, hOk, -⟩ := h hNeg
    have hm : -b.maxValue = (b.maxValue.natAbs : Int) := by omega
    have hSmall : b.maxValue.natAbs < 10 ^ 19 := by
      rw [hMin, int64Min] at hBottom
      omega
    rw [imp_iff_right hNeg, if_neg (not_le.mpr hNeg), if_neg hLeast, buildsBounded_negated, hm]
    exact lower_bounded_iff hOk.1 (le_trans (numeral_bound hSmall) (by decide))
  refine iff_of_true ?_ fun h => absurd h hNeg
  have hn : b.maxValue = (b.maxValue.natAbs : Int) := by omega
  have hSize : (b.maxValue.natAbs : Int) ≤ int64Max := by
    rw [int64Max]
    omega
  obtain ⟨alts, hAlts, hBounded⟩ := @magnitudes_bounded _ 30 hSize
  rw [if_pos (not_lt.mp hNeg), hn, hAlts]
  refine buildsBounded_some.mpr (altsBounded_append.mpr ⟨altsBounded_cons.mpr ⟨?_, altsBounded_nil⟩,
    hBounded⟩)
  exact forall_mem_cons.mpr ⟨trivial, (pair_more_bounded (by decide)).mpr (by decide)⟩

/-- The repetitions for two bounds. -/
theorem both_bounded (hMin : b.minValue ≠ int64Min) (hMax : b.maxValue ≠ int64Max) :
    BuildsBounded (buildTopLevel b.minValue b.maxValue) ↔
      (b.maxValue < 0 → b.minValue = -int64Max → Short b.maxValue.natAbs) := by
  have hTop := b.max64
  have hBottom := b.min64
  have hOrdered := b.ordered
  rw [IntBounds.Plain, if_pos ⟨hMin, hMax⟩] at h
  have hn : -b.minValue ≤ int64Max := by
    rw [int64Min] at hMin
    rw [int64Max]
    omega
  by_cases hNeg : b.maxValue < 0
  · have hm : -b.maxValue = (b.maxValue.natAbs : Int) := by omega
    have hk : -b.minValue = (b.minValue.natAbs : Int) := by omega
    rw [imp_iff_right hNeg, buildTopLevel, buildMinMaxInt]
    simp only
    rw [if_pos ⟨hMin, hMax⟩, if_pos ⟨by omega, hNeg⟩, buildsBounded_negated, hm]
    by_cases hLeast : b.minValue = -int64Max
    · have hSmall : b.maxValue.natAbs < 10 ^ 19 := by omega
      rw [imp_iff_right hLeast, hLeast, neg_neg]
      exact lower_bounded_iff (h hNeg hLeast).1.1 (le_trans (numeral_bound hSmall) (by decide))
    refine iff_of_true ?_ fun hEq => absurd hEq hLeast
    rw [hk]
    exact between_bounded (by omega) (by omega)
  refine iff_of_true ?_ fun hLt => absurd hLt hNeg
  obtain ⟨n, hMaxEq⟩ := Int.eq_ofNat_of_zero_le (not_lt.mp hNeg)
  have hSize : (n : Int) < int64Max := by
    rw [hMaxEq] at hMax hTop
    exact lt_of_le_of_ne hTop hMax
  by_cases hLow : b.minValue < 0
  · obtain ⟨m, hm⟩ := Int.eq_ofNat_of_zero_le (show 0 ≤ -b.minValue by omega)
    rw [hm] at hn
    obtain ⟨alts, hAlts, hBounded⟩ := @magnitudes_bounded m 30 hn
    rw [buildTopLevel, buildMinMaxInt]
    simp only
    rw [if_pos ⟨hMin, hMax⟩, if_neg fun h => hNeg h.2, if_pos hLow, hm, hAlts,
      max_eq_right (le_of_lt hLow), hMaxEq]
    have hNumerals : AltsBounded (digitRanges (numeral n)
        ((numeral n).length - (numeral 0).length) (numeral 0)) := by
      refine loop_bounded (Nat.zero_le n) ?_
      rw [int64Max] at hSize
      omega
    refine buildsBounded_some.mpr (altsBounded_append.mpr ⟨altsBounded_cons.mpr
      ⟨pair_bounded.mpr ⟨trivial, group_bounded.mpr hBounded⟩, altsBounded_nil⟩, hNumerals⟩)
  obtain ⟨m, hm⟩ := Int.eq_ofNat_of_zero_le (not_lt.mp hLow)
  rw [buildTopLevel, hm, hMaxEq]
  exact between_bounded (by omega) hSize

end

/-- The expression for bounds is exact if and only if the bounds are plain, and short where digits are
counted down. -/
theorem exact_iff (b : IntBounds) : Exact b ↔ b.Plain ∧ b.ShortBound := by
  rw [exact_iff_bounded, exactLang_iff]
  refine and_congr_right fun h => ?_
  rw [IntBounds.ShortBound]
  by_cases hMin : b.minValue = int64Min
  · rw [if_neg fun h => h.1 hMin, if_neg (not_not_intro hMin)]
    exact maximum_bounded h hMin (b.present.resolve_left (not_not_intro hMin))
  by_cases hMax : b.maxValue = int64Max
  · rw [if_neg fun h => h.2 hMax, if_pos hMin]
    exact minimum_bounded h hMin hMax
  · rw [if_pos ⟨hMin, hMax⟩]
    exact both_bounded h hMin hMax

/-- For a minimum of 105 the digits behind the one are read as 5, so 15 is accepted. -/
theorem minimum_accepts_less :
    (∃ alts, buildTopLevel 105 int64Max = some alts ∧
      [0x31, 0x35] ∈ lang (fun _ => none) (ofAlts alts).expr) ∧
      ¬ Exact ⟨105, int64Max, by decide, by decide, by decide, by decide⟩ := by
  have hMem : [1, 5] ∈ atLeast 32 105 16 true := by
    have hTail : [5] ∈ atLeast 31 (value [5]) 15 false :=
      (cons_mem_atLeast_digit (by decide)).mpr (Or.inr ⟨le_rfl, by decide⟩)
    have hs : Canonical [1, 0, 5] := by decide
    exact (cons_mem_atLeast hs (cons_ne_nil _ _)).mpr (Or.inr (Or.inl ⟨rfl, hTail⟩))
  obtain ⟨alts, hAlts, hWrites⟩ := @buildMinMaxInt_atLeast (fun _ => none)
    105 32 16 true (by decide) (by decide) (by decide)
  have hWord : [0x31, 0x35] ∈ lang (fun _ => none) (ofAlts alts).expr := by
    rw [lang_ofAlts _ hWrites.spelled.1, hWrites.lang]
    exact map_mem_coded.mpr hMem
  refine ⟨⟨alts, hAlts, hWord⟩, ?_⟩
  rintro ⟨⟨alts', hAlts', -, hAll⟩, -⟩
  cases hAlts.symm.trans hAlts'
  obtain ⟨z, hDenotes, hIn⟩ := (hAll fun _ => none).1 _ hWord
  have hValue : z = value [1, 5] := Denotes.digits hDenotes
  have hLow : (105 : Int) ≤ z := hIn.1 (by decide)
  rw [hValue] at hLow
  exact absurd hLow (by decide)

end SchemaInt

end Beellama.Ports
