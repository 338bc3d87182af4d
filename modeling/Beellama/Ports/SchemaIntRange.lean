import Beellama.Ports.SchemaInt

/-!
# Closed integer ranges

`uniform_range` accepts the numerals of one length between its two numerals, leading
zeros included (`uniformRange_writes`).  The loop of `build_min_max_int` over the numbers
of digits accepts the canonical numerals between two numbers that are not negative
(`digitRanges_writes`).
-/

namespace Beellama.Ports

open Beellama.Verified GbnfExpr List Language

namespace SchemaInt

open Decimal GbnfPiece

variable {defs : List UInt8 → Option GbnfExpr}

/-! ## Numerals of one length -/

variable {a b d : Digit}

theorem le_pred (h : a < b) : d ≤ b - 1 ↔ d < b := by
  revert a b d
  decide

theorem range_append {p a b : List Digit} (hLength : a.length = b.length) :
    range (p ++ a) (p ++ b) = {p} * range a b := by
  ext ds
  constructor
  · intro h
    obtain ⟨hSize, hLow, hHigh⟩ := mem_range.mp h
    rw [length_append] at hSize
    have hTake : (ds.take p.length).length = p.length := by
      rw [length_take]
      omega
    have hDrop : (ds.drop p.length).length = a.length := by
      rw [length_drop]
      omega
    have hValue : value ds =
        value (ds.take p.length) * 10 ^ a.length + value (ds.drop p.length) := by
      rw [← hDrop, ← value_append, take_append_drop]
    have hRest := value_lt (ds.drop p.length)
    have hBound := value_lt b
    rw [hDrop] at hRest
    rw [← hLength] at hBound
    rw [value_append, hValue] at hLow
    rw [value_append, hValue, ← hLength] at hHigh
    have hLead : value (ds.take p.length) = value p := by
      apply Nat.le_antisymm
      · by_contra hNot
        exact absurd hHigh (Nat.not_le.mpr (lead_lt (Nat.not_le.mp hNot) hBound))
      · by_contra hNot
        exact absurd hLow (Nat.not_le.mpr (lead_lt (Nat.not_le.mp hNot) hRest))
    rw [hLead] at hLow hHigh
    refine ⟨p, rfl, ds.drop p.length, mem_range.mpr ⟨hDrop, ?_, ?_⟩, ?_⟩
    · exact Nat.le_of_add_le_add_left hLow
    · exact Nat.le_of_add_le_add_left hHigh
    calc p ++ ds.drop p.length = ds.take p.length ++ ds.drop p.length := by
          rw [value_inj hTake hLead]
      _ = ds := take_append_drop _ _
  rintro ⟨u, hu, v, hv, rfl⟩
  rw [show u = p from hu]
  obtain ⟨hSize, hLow, hHigh⟩ := mem_range.mp hv
  refine mem_range.mpr ⟨?_, ?_, ?_⟩
  · rw [length_append, length_append, hSize]
  · rw [value_append, value_append, hSize]
    exact Nat.add_le_add_left hLow _
  · rw [value_append, value_append, hSize, hLength]
    exact Nat.add_le_add_left hHigh _

theorem nil_not_mem_range {a b : Digit} {as bs : List Digit} : [] ∉ range (a :: as) (b :: bs) :=
  fun h => absurd (mem_range.mp h).1 (Nat.succ_ne_zero as.length).symm

theorem cons_mem_range {as bs ds : List Digit} (hLength : as.length = bs.length) :
    d :: ds ∈ range (a :: as) (b :: bs) ↔
      ds.length = as.length ∧ (a < d ∨ a = d ∧ value as ≤ value ds) ∧
        (d < b ∨ d = b ∧ value ds ≤ value bs) := by
  rw [mem_range, length_cons, length_cons, Nat.succ_inj]
  refine and_congr_right fun hSize => and_congr ?_ ?_
  · exact cons_le_cons hSize.symm
  · exact cons_le_cons (hSize.trans hLength)

theorem mem_range_zeros {bs ds : List Digit} {n : Nat} :
    ds ∈ range (replicate n 0) bs ↔ ds.length = n ∧ value ds ≤ value bs := by
  rw [mem_range]
  simp

theorem mem_range_nines {as ds : List Digit} :
    ds ∈ range as (replicate as.length 9) ↔ ds.length = as.length ∧ value as ≤ value ds := by
  refine and_congr_right fun hSize => and_iff_left ?_
  rw [← hSize]
  exact value_le_nines ds

theorem range_one (a b : Digit) : range [a] [b] = oneOf a b := by
  ext ds
  rw [mem_range]
  constructor
  · rintro ⟨hSize, hLow, hHigh⟩
    obtain ⟨d, rfl⟩ := length_eq_one_iff.mp hSize
    simp only [value, length_nil, pow_zero, Nat.mul_one] at hLow hHigh
    exact ⟨d, rfl, Fin.le_def.mpr hLow, Fin.le_def.mpr hHigh⟩
  rintro ⟨d, rfl, hLow, hHigh⟩
  simp only [value, length_nil, pow_zero, Nat.mul_one, Nat.add_zero]
  exact ⟨rfl, Fin.le_def.mp hLow, Fin.le_def.mp hHigh⟩

section Split

variable {a b : Digit} {as bs : List Digit} (hLt : a < b) (hLength : as.length = bs.length)
include hLt hLength

/-- Behind a smaller digit than the last, any digits. -/
theorem range_from_zeros (hZeros : as = replicate as.length 0) :
    range (a :: as) (b :: bs) =
      oneOf a (b - 1) * count as.length as.length +
        oneOf b b * range (replicate as.length 0) bs := by
  ext ds
  cases ds with
  | nil =>
    exact iff_of_false nil_not_mem_range
      (not_or_intro (nil_not_mem_oneOf_mul _ _ _) (nil_not_mem_oneOf_mul _ _ _))
  | cons d ds =>
    have hFrom : value as = 0 := by rw [hZeros, value_zeros]
    rw [mem_add, cons_mem_range hLength, cons_mem_oneOf_mul, cons_mem_oneOf_mul,
      mem_range_zeros, mem_count]
    have hOrder : a ≤ d ↔ a < d ∨ a = d := le_iff_lt_or_eq
    have hBoth : b ≤ d ∧ d ≤ b ↔ d = b := by rw [and_comm]; exact le_antisymm_iff.symm
    grind

/-- Behind the first digit from the numeral up, behind the last up to the numeral, and
between them any digits. -/
theorem range_from_rest :
    range (a :: as) (b :: bs) =
      oneOf a a * range as (replicate as.length 9) +
        ((if a < b - 1 then oneOf (a + 1) (b - 1) * count as.length as.length else 0) +
        oneOf b b * range (replicate as.length 0) bs) := by
  ext ds
  cases ds with
  | nil =>
    refine iff_of_false nil_not_mem_range (not_or_intro (nil_not_mem_oneOf_mul _ _ _)
      (not_or_intro ?_ (nil_not_mem_oneOf_mul _ _ _)))
    split
    · exact nil_not_mem_oneOf_mul _ _ _
    · exact notMem_zero _
  | cons d ds =>
    have hMiddle : d :: ds ∈ (if a < b - 1 then oneOf (a + 1) (b - 1) *
        count as.length as.length else 0 : Language Digit) ↔
        a < d ∧ d < b ∧ ds.length = as.length := by
      split
      next =>
        rw [cons_mem_oneOf_mul, mem_count]
        grind
      next hNot =>
        refine iff_of_false (notMem_zero _) fun h => hNot ?_
        exact lt_of_lt_of_le h.1 ((le_pred hLt).mpr h.2.1)
    have hFirst : a ≤ d ∧ d ≤ a ↔ a = d := le_antisymm_iff.symm
    have hLast : b ≤ d ∧ d ≤ b ↔ d = b := by rw [and_comm]; exact le_antisymm_iff.symm
    rw [mem_add, mem_add, cons_mem_range hLength, cons_mem_oneOf_mul,
      cons_mem_oneOf_mul, mem_range_zeros, mem_range_nines]
    grind

/-- Where the last numeral ends in nines, its digit joins those between. -/
theorem range_to_nines (hNines : bs = replicate as.length 9) :
    range (a :: as) (b :: bs) =
      oneOf a a * range as (replicate as.length 9) +
        oneOf (a + 1) b * count as.length as.length := by
  ext ds
  cases ds with
  | nil =>
    exact iff_of_false nil_not_mem_range
      (not_or_intro (nil_not_mem_oneOf_mul _ _ _) (nil_not_mem_oneOf_mul _ _ _))
  | cons d ds =>
    have hFirst : a ≤ d ∧ d ≤ a ↔ a = d := le_antisymm_iff.symm
    have hTop : ds.length = as.length → value ds ≤ value bs := by
      intro hSize
      rw [hNines, ← hSize]
      exact value_le_nines ds
    rw [mem_add, cons_mem_range hLength, cons_mem_oneOf_mul, cons_mem_oneOf_mul,
      mem_range_nines, mem_count]
    have hOrder : d ≤ b ↔ d < b ∨ d = b := le_iff_lt_or_eq
    grind

end Split

theorem splitRange_writes {uniform : List Digit → List Digit → List GbnfPiece} {a b : Digit}
    {as bs : List Digit} (hLt : a < b) (hLength : as.length = bs.length)
    (hBound : as.length < 2 ^ 64)
    (hLow : ItemsWrite defs (uniform as (replicate as.length 9))
      (coded (range as (replicate as.length 9))))
    (hHigh : ItemsWrite defs (uniform (replicate as.length 0) bs)
      (coded (range (replicate as.length 0) bs))) :
    AltsWrite defs (splitRange uniform a b as bs) (coded (range (a :: as) (b :: bs))) := by
  have hMore : Writes defs (moreDigits as.length as.length)
      (coded (count as.length as.length)) := moreDigits_writes hBound hBound
  have hFirst := (digitRange_writes a a).pair hLow.one.group
  have hLast := (digitRange_writes b b).cons hHigh
  by_cases hZeros : as = replicate as.length 0
  · rw [range_from_zeros hLt hLength hZeros, coded_add, coded_mul, coded_mul]
    have hText : splitRange uniform a b as bs =
        [[digitRange a (b - 1), moreDigits as.length as.length],
          digitRange b b :: uniform (replicate as.length 0) bs] := by
      simp only [splitRange]
      rw [if_pos hZeros, if_neg fun h => (of_decide_eq_true h).1 hZeros]
      rfl
    rw [hText]
    exact ((digitRange_writes a (b - 1)).pair hMore).cons hLast.one
  by_cases hReached : a < b - 1 ∧ bs = replicate as.length 9
  · rw [range_to_nines hLt hLength hReached.2, coded_add, coded_mul, coded_mul]
    have hText : splitRange uniform a b as bs =
        [[digitRange a a, group [uniform as (replicate as.length 9)]],
          [digitRange (a + 1) b, moreDigits as.length as.length]] := by
      simp only [splitRange]
      rw [if_neg hZeros, if_pos hReached.1, if_pos hReached.2,
        if_pos (decide_eq_true ⟨hZeros, hReached⟩)]
      rfl
    rw [hText]
    exact hFirst.cons ((digitRange_writes (a + 1) b).pair hMore).one
  rw [range_from_rest hLt hLength, coded_add, coded_add, coded_mul, coded_mul]
  have hText : splitRange uniform a b as bs =
      [digitRange a a, group [uniform as (replicate as.length 9)]] ::
        ((if a < b - 1 then
          [[digitRange (a + 1) (b - 1), moreDigits as.length as.length]] else []) ++
          [digitRange b b :: uniform (replicate as.length 0) bs]) := by
    have hNot : ¬ decide (as ≠ replicate as.length 0 ∧ a < b - 1 ∧
        bs = replicate as.length 9) = true :=
      fun h => hReached (of_decide_eq_true h).2
    simp only [splitRange]
    rw [if_neg hZeros, if_neg hNot]
    by_cases hGap : a < b - 1
    · rw [if_pos hGap, if_pos hGap, if_neg fun hNines => hReached ⟨hGap, hNines⟩]
      rfl
    · rw [if_neg hGap, if_neg hGap]
      rfl
  have hMiddle := (@digitRange_writes defs (a + 1) (b - 1)).pair hMore
  have hAlts := AltsWrite.ite_append (c := a < b - 1) (fun _ => hMiddle.one) hLast.one
  rw [hText]
  have hIte : coded (if a < b - 1 then oneOf (a + 1) (b - 1) *
      count as.length as.length else 0) = if a < b - 1 then coded (oneOf (a + 1) (b - 1)) *
      coded (count as.length as.length) else 0 := by
    split
    · exact coded_mul _ _
    · exact map_zero (Language.map digitCode)
  rw [hIte]
  exact hFirst.cons hAlts

theorem commonLength_spec (a b : List Digit) :
    a.take (commonLength a b) = b.take (commonLength a b) ∧
      ∀ d as e bs, a.drop (commonLength a b) = d :: as → b.drop (commonLength a b) = e :: bs →
        d ≠ e := by
  induction a generalizing b with
  | nil =>
    refine ⟨rfl, fun d as e bs hDrop => ?_⟩
    exact absurd hDrop (cons_ne_nil d as).symm
  | cons d a ih =>
    cases b with
    | nil =>
      refine ⟨rfl, fun d as e bs _ hDrop => ?_⟩
      exact absurd hDrop (cons_ne_nil e bs).symm
    | cons e b =>
      by_cases hEq : d = e
      · rw [commonLength, if_pos hEq, take_succ_cons, hEq, (ih b).1]
        exact ⟨rfl, (ih b).2⟩
      rw [commonLength, if_neg hEq]
      refine ⟨rfl, fun d' as e' bs hFrom hTo => ?_⟩
      rw [← (cons.inj hFrom).1, ← (cons.inj hTo).1]
      exact hEq

/-- `uniform_range` accepts the numerals of its length between its two numerals. -/
theorem uniformRange_writes {fuel : Nat} {a b : List Digit} (hFuel : a.length < fuel)
    (hLength : a.length = b.length) (hNe : a ≠ []) (hBound : a.length < 2 ^ 64)
    (hLe : value a ≤ value b) :
    ItemsWrite defs (uniformRange fuel a b) (coded (range a b)) := by
  induction fuel generalizing a b with
  | zero => omega
  | succ fuel ih =>
    obtain ⟨hTake, hDiffer⟩ := commonLength_spec a b
    have haSplit := take_append_drop (commonLength a b) a
    have hbSplit := take_append_drop (commonLength a b) b
    rw [← hTake] at hbSplit
    have hDropLength : (a.drop (commonLength a b)).length = (b.drop (commonLength a b)).length := by
      rw [length_drop, length_drop, hLength]
    have haLength : (a.drop (commonLength a b)).length ≤ a.length := by
      rw [length_drop]
      exact Nat.sub_le _ _
    simp only [uniformRange]
    cases ha : a.drop (commonLength a b) with
    | nil =>
      have hEq : b = a := by
        rw [ha] at hDropLength
        rw [ha, append_nil] at haSplit
        rw [length_eq_zero_iff.mp hDropLength.symm, append_nil] at hbSplit
        exact hbSplit.symm.trans haSplit
      have hAll : a.length ≤ commonLength a b := drop_eq_nil_iff.mp ha
      have hPos := length_pos_of_ne_nil hNe
      rw [if_pos (by omega), take_of_length_le hAll, hEq]
      have hOne : range a a = {a} := by
        ext ds
        constructor
        · intro h
          exact value_inj h.1 (Nat.le_antisymm h.2.2 h.2.1)
        intro h
        rw [show ds = a from h]
        exact ⟨rfl, le_rfl, le_rfl⟩
      rw [hOne]
      exact (digitLiteral_writes a).one
    | cons d as =>
      rw [ha] at haSplit haLength hDropLength
      cases hb : b.drop (commonLength a b) with
      | nil =>
        rw [hb] at hDropLength
        exact absurd hDropLength (Nat.succ_ne_zero as.length)
      | cons e bs =>
        rw [hb] at hbSplit hDropLength
        have hSub : as.length = bs.length := Nat.succ_inj.mp hDropLength
        have hLt : d < e := by
          have hBoth : value (a.take (commonLength a b) ++ d :: as) ≤
              value (a.take (commonLength a b) ++ e :: bs) := by
            rw [haSplit, hbSplit]
            exact hLe
          rw [value_append, value_append, hDropLength] at hBoth
          cases (cons_le_cons hSub).mp (Nat.le_of_add_le_add_left hBoth) with
          | inl hLt => exact hLt
          | inr hEq => exact absurd hEq.1 (hDiffer d as e bs ha hb)
        have hRest : Writes defs (if as = [] then digitSpan d e
            else group (splitRange (uniformRange fuel) d e as bs))
            (coded (range (d :: as) (e :: bs))) := by
          rw [length_cons] at haLength
          split
          next hEnd =>
            have hOne : range (d :: as) (e :: bs) = oneOf d e := by
              rw [hEnd, length_eq_zero_iff.mp (hSub.symm.trans (by rw [hEnd]; rfl))]
              exact range_one d e
            rw [hOne]
            exact digitSpan_writes d e
          next hSome =>
            refine (splitRange_writes hLt hSub (by omega) (ih ?_ ?_ hSome ?_ ?_)
              (ih ?_ ?_ ?_ ?_ ?_)).group
            · omega
            · rw [length_replicate]
            · omega
            · exact value_le_nines as
            · rw [length_replicate]
              omega
            · rw [length_replicate, hSub]
            · rwa [Ne, replicate_eq_nil_iff, length_eq_zero_iff]
            · rw [length_replicate]
              omega
            · rw [value_zeros]
              exact Nat.zero_le _
        have hRange : range a b =
            {a.take (commonLength a b)} * range (d :: as) (e :: bs) := by
          rw [← range_append hDropLength, haSplit, hbSplit]
        rw [hRange, coded_mul]
        split
        next => exact (digitLiteral_writes _).cons hRest.one
        next hZero =>
          have hNil : a.take (commonLength a b) = [] := by
            rw [Nat.eq_zero_of_not_pos hZero]
            rfl
          rw [hNil, show coded {[]} = 1 from map_one (Language.map digitCode), one_mul]
          exact hRest.one

/-! ## Canonical numerals between two numbers -/

/-- The canonical numerals of the numbers between two. -/
def between (m n : Nat) : Language Digit := {ds | Canonical ds ∧ m ≤ value ds ∧ value ds ≤ n}

theorem mem_between {m n : Nat} {ds : List Digit} :
    ds ∈ between m n ↔ Canonical ds ∧ m ≤ value ds ∧ value ds ≤ n := Iff.rfl

theorem canonical_of_le {ds es : List Digit} (h : Canonical es) (hLength : ds.length = es.length)
    (hLe : value es ≤ value ds) : Canonical ds := by
  have hNe : ds ≠ [] := by
    intro hNil
    rw [hNil] at hLength
    exact h.1 (length_eq_zero_iff.mp hLength.symm)
  refine ⟨hNe, fun hHead => ?_⟩
  cases ds with
  | nil => exact absurd rfl hNe
  | cons d ds =>
    have hZero : d = 0 := Option.some.inj hHead
    rw [hZero, value_cons] at hLe
    cases es with
    | nil => exact absurd rfl h.1
    | cons e es =>
      rw [hLength]
      apply h.2
      by_contra hLead
      have hLow := le_value es (fun hEq => hLead (congrArg some hEq))
      have hHigh := value_lt ds
      rw [Nat.succ_inj.mp hLength] at hHigh
      omega

/-- For canonical numerals of one length the range is that of the canonical numerals. -/
theorem range_eq_between {a b : List Digit} (ha : Canonical a) (hb : Canonical b)
    (hLength : a.length = b.length) : range a b = between (value a) (value b) := by
  ext ds
  constructor
  · rintro ⟨hSize, hLow, hHigh⟩
    exact ⟨canonical_of_le ha hSize hLow, hLow, hHigh⟩
  rintro ⟨hCanonical, hLow, hHigh⟩
  refine ⟨Nat.le_antisymm ?_ ?_, hLow, hHigh⟩
  · rw [hLength]
    exact hCanonical.length_le hHigh hb.1
  · exact ha.length_le hLow hCanonical.1

theorem canonical_nines {n : Nat} (h : n ≠ 0) : Canonical (replicate n 9) := by
  cases n with
  | zero => exact absurd rfl h
  | succ n =>
    refine ⟨cons_ne_nil _ _, fun hHead => ?_⟩
    exact absurd (Option.some.inj hHead) (by decide)

theorem canonical_power (n : Nat) : Canonical (1 :: replicate n 0) := by
  refine ⟨cons_ne_nil _ _, fun hHead => ?_⟩
  exact absurd (Option.some.inj hHead) (by decide)

theorem value_power (n : Nat) : value (1 :: replicate n 0) = 10 ^ n := by
  rw [value_cons, value_zeros, length_replicate]
  exact Nat.one_mul _

theorem digitRanges_writes {maxS minS : List Digit} {more : Nat} (hMax : Canonical maxS)
    (hMin : Canonical minS) (hLength : maxS.length = minS.length + more)
    (hBound : maxS.length < 2 ^ 64) (hLe : value minS ≤ value maxS) :
    AltsWrite defs (digitRanges maxS more minS) (coded (between (value minS) (value maxS))) := by
  induction more generalizing minS with
  | zero =>
    have hRange := range_eq_between hMin hMax hLength.symm
    rw [← hRange]
    exact (uniformRange_writes (by omega) hLength.symm hMin.1 (by omega) hLe).one
  | succ more ih =>
    have hSize := length_pos_of_ne_nil hMin.1
    have hNines := canonical_nines (Nat.ne_of_gt hSize)
    have hNext : (1 :: replicate minS.length (0 : Digit)).length = minS.length + 1 := by
      rw [length_cons, length_replicate]
    have hPower : 10 ^ minS.length ≤ value maxS := by
      cases hMaxS : maxS with
      | nil => exact absurd hMaxS hMax.1
      | cons d ds =>
        rw [hMaxS, length_cons] at hLength
        have hLead : d ≠ 0 := by
          intro hZero
          have hOne := hMax.2 (by rw [hMaxS, hZero]; rfl)
          rw [hMaxS, length_cons] at hOne
          omega
        calc 10 ^ minS.length ≤ 10 ^ ds.length :=
              Nat.pow_le_pow_right (by decide) (by omega)
          _ ≤ value (d :: ds) := le_value ds hLead
    have hFirst : ItemsWrite defs
        (uniformRange (minS.length + 1) minS (replicate minS.length 9))
        (coded (between (value minS) (10 ^ minS.length - 1))) := by
      have hWrites := @uniformRange_writes defs (minS.length + 1) minS
        (replicate minS.length 9) (Nat.lt_succ_self _) length_replicate.symm hMin.1
        (by omega) (value_le_nines minS)
      rwa [range_eq_between hMin hNines length_replicate.symm, value_nines] at hWrites
    have hRest := ih (canonical_power minS.length) (by omega)
      (by rw [value_power]; exact hPower)
    rw [value_power] at hRest
    have hSum : between (value minS) (value maxS) =
        between (value minS) (10 ^ minS.length - 1) +
          between (10 ^ minS.length) (value maxS) := by
      have hLow := value_lt minS
      ext ds
      rw [mem_add, mem_between, mem_between, mem_between]
      grind
    rw [hSum, coded_add]
    exact hFirst.cons hRest

end SchemaInt

end Beellama.Ports
