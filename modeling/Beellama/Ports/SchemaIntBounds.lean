import Beellama.Ports.SchemaIntOpen

/-!
# Repetitions in integer ranges

For a lower bound the number of further digits is counted down from 15 along the digits of the bound,
while the least number of them is how many are left: a bound of more digits is written with reversed
bounds such as `{16,15}`, which the parser expands for ever.
-/

namespace Beellama.Ports

open Beellama.Verified GbnfExpr GrammarParser List

/-! ## Written alternatives -/

namespace GbnfPiece

/-- The repetitions of all items have bounds in order, below the threshold. -/
def AltsBounded (alts : Alts) : Prop := ∀ items ∈ alts, ∀ p ∈ items, p.expr.Bounded

theorem ofItems_bounded (items : List GbnfPiece) :
    (ofItems items).expr.Bounded ↔ ∀ p ∈ items, p.expr.Bounded := by
  cases items with
  | nil => exact iff_of_true trivial fun p hp => absurd hp not_mem_nil
  | cons item items =>
    rw [ofItems, forall_mem_cons]
    induction items generalizing item with
    | nil => exact (and_iff_left fun p hp => absurd hp not_mem_nil).symm
    | cons next items ih =>
      rw [foldl_cons, ih, forall_mem_cons, ← and_assoc]
      rfl

theorem ofAlts_bounded (alts : Alts) : (ofAlts alts).expr.Bounded ↔ AltsBounded alts := by
  cases alts with
  | nil => exact iff_of_true trivial fun items hItems => absurd hItems not_mem_nil
  | cons items alts =>
    rw [ofAlts, AltsBounded, forall_mem_cons, ← ofItems_bounded]
    generalize ofItems items = p
    induction alts generalizing p with
    | nil => exact (and_iff_left fun p hp => absurd hp not_mem_nil).symm
    | cons next alts ih =>
      rw [foldl_cons, ih, forall_mem_cons, ← ofItems_bounded, ← and_assoc]
      rfl

variable {alts more : Alts} {items : List GbnfPiece} {p : GbnfPiece}

theorem altsBounded_cons :
    AltsBounded (items :: alts) ↔ (∀ p ∈ items, p.expr.Bounded) ∧ AltsBounded alts := forall_mem_cons

theorem altsBounded_append : AltsBounded (alts ++ more) ↔ AltsBounded alts ∧ AltsBounded more :=
  forall_mem_append

theorem altsBounded_nil : AltsBounded [] := fun _ hItems => absurd hItems not_mem_nil

theorem altsBounded_ite {c : Prop} [Decidable c] :
    AltsBounded (if c then alts else []) ↔ (c → AltsBounded alts) := by
  by_cases h : c
  · rw [if_pos h, imp_iff_right h]
  · rw [if_neg h]
    exact iff_of_true altsBounded_nil fun hc => absurd hc h

theorem group_bounded : (group alts).expr.Bounded ↔ AltsBounded alts := ofAlts_bounded alts

theorem pair_bounded {q : GbnfPiece} :
    (∀ r ∈ [p, q], r.expr.Bounded) ↔ p.expr.Bounded ∧ q.expr.Bounded := by
  rw [forall_mem_cons, forall_mem_singleton]

end GbnfPiece

namespace SchemaInt

open Decimal GbnfPiece

/-! ## Pieces -/

theorem digitSpan_bounded (a b : Digit) : (digitSpan a b).expr.Bounded := cons_ne_nil _ _

theorem digitRange_bounded (a b : Digit) : (digitRange a b).expr.Bounded := by
  rw [digitRange]
  split
  · exact cons_ne_nil _ _
  · exact digitSpan_bounded a b

variable {m n : Nat}

/-- Further digits are bounded when their least number is not above the greatest. -/
theorem moreDigits_bounded (hn : n ≤ maxRepetitionThreshold) :
    (moreDigits m n).expr.Bounded ↔ m ≤ n := by
  rw [moreDigits]
  split
  next hOne => exact iff_of_true (digitSpan_bounded 0 9) (le_of_eq hOne.1)
  next =>
    constructor
    · exact fun h => (h.2.2 n rfl).1
    intro h
    refine ⟨digitSpan_bounded 0 9, h.trans hn, fun k hk => ?_⟩
    cases hk
    exact ⟨h, hn⟩

theorem pair_more_bounded {a b : Digit} (hn : n ≤ maxRepetitionThreshold) :
    (∀ p ∈ [digitRange a b, moreDigits m n], p.expr.Bounded) ↔ m ≤ n := by
  rw [pair_bounded, moreDigits_bounded hn]
  exact and_iff_right (digitRange_bounded a b)

/-! ## Two bounds -/

theorem splitRange_bounded {uniform : List Digit → List Digit → List GbnfPiece} {a b : Digit}
    {as bs : List Digit} (hLength : as.length ≤ maxRepetitionThreshold)
    (hUniform : ∀ from' to', from'.length = as.length →
      ∀ p ∈ uniform from' to', p.expr.Bounded) : AltsBounded (splitRange uniform a b as bs) := by
  have hMore : ∀ c d : Digit, ∀ p ∈ [digitRange c d, moreDigits as.length as.length],
      p.expr.Bounded := fun c d => (pair_more_bounded hLength).mpr le_rfl
  unfold splitRange
  dsimp only
  rw [altsBounded_append]
  constructor
  · split
    · exact altsBounded_cons.mpr ⟨hMore a (b - 1), altsBounded_nil⟩
    refine altsBounded_cons.mpr ⟨pair_bounded.mpr ⟨digitRange_bounded a a, ?_⟩,
      altsBounded_ite.mpr fun _ => altsBounded_cons.mpr ⟨hMore _ _, altsBounded_nil⟩⟩
    exact group_bounded.mpr (altsBounded_cons.mpr ⟨hUniform as _ rfl, altsBounded_nil⟩)
  split
  · exact altsBounded_nil
  refine altsBounded_cons.mpr ⟨forall_mem_cons.mpr ⟨digitRange_bounded b b, ?_⟩,
    altsBounded_nil⟩
  exact hUniform _ _ length_replicate

theorem uniformRange_bounded (fuel : Nat) {a b : List Digit}
    (hLength : a.length ≤ maxRepetitionThreshold) :
    ∀ p ∈ uniformRange fuel a b, p.expr.Bounded := by
  induction fuel generalizing a b with
  | zero => exact fun p hp => absurd hp not_mem_nil
  | succ fuel ih =>
    simp only [uniformRange]
    rw [forall_mem_append]
    constructor
    · split
      · exact forall_mem_singleton.mpr trivial
      · exact fun p hp => absurd hp not_mem_nil
    have hShorter : (a.drop (commonLength a b)).length ≤ a.length := by
      rw [length_drop]
      exact Nat.sub_le _ _
    split
    · rename_i d as e bs ha hb
      rw [ha, length_cons] at hShorter
      intro p hp
      rw [mem_singleton.mp hp]
      split
      · exact digitSpan_bounded d e
      · refine group_bounded.mpr (splitRange_bounded (by omega) fun from' to' hEq => ih ?_)
        omega
    · exact fun p hp => absurd hp not_mem_nil

theorem digitRanges_bounded {maxS minS : List Digit} {more : Nat}
    (hLength : minS.length + more ≤ maxRepetitionThreshold) :
    AltsBounded (digitRanges maxS more minS) := by
  induction more generalizing minS with
  | zero => exact altsBounded_cons.mpr ⟨uniformRange_bounded _ hLength, altsBounded_nil⟩
  | succ more ih =>
    refine altsBounded_cons.mpr ⟨uniformRange_bounded _ (by omega), ih ?_⟩
    rw [length_cons, length_replicate]
    omega

/-- The function returns alternatives that are bounded. -/
def BuildsBounded (r : Option Alts) : Prop := ∃ alts, r = some alts ∧ AltsBounded alts

theorem buildsBounded_some {alts : Alts} : BuildsBounded (some alts) ↔ AltsBounded alts :=
  ⟨fun ⟨_, hEq, h⟩ => Option.some.inj hEq ▸ h, fun h => ⟨alts, rfl, h⟩⟩

theorem buildsBounded_map {r : Option Alts} {f : Alts → Alts} :
    BuildsBounded (r.map f) ↔ ∃ alts, r = some alts ∧ AltsBounded (f alts) := by
  cases r with
  | none => exact iff_of_false (fun ⟨_, h, _⟩ => by cases h) fun ⟨_, h, _⟩ => by cases h
  | some alts =>
    exact buildsBounded_some.trans ⟨fun h => ⟨alts, rfl, h⟩, fun ⟨_, hEq, h⟩ => by cases hEq; exact h⟩

/-- Alternatives behind a minus. -/
theorem buildsBounded_negated {r : Option Alts} :
    BuildsBounded (r.map fun alts => [[minus, group alts]]) ↔ BuildsBounded r := by
  rw [buildsBounded_map]
  refine exists_congr fun alts => and_congr_right fun _ => ?_
  rw [altsBounded_cons, pair_bounded, group_bounded]
  exact ⟨fun h => h.1.2, fun h => ⟨⟨trivial, h⟩, altsBounded_nil⟩⟩

variable {fuel dec : Nat} {top : Bool}

theorem loop_bounded (hLe : m ≤ n) (hn : n < 10 ^ 19) : AltsBounded
    (digitRanges (numeral n) ((numeral n).length - (numeral m).length) (numeral m)) := by
  have hMono := numeral_mono hLe
  have hBound := numeral_bound hn
  refine digitRanges_bounded ?_
  rw [maxRepetitionThreshold]
  omega

theorem between_bounded (hLe : m ≤ n) (hn : (n : Int) < int64Max) :
    BuildsBounded (buildMinMaxInt (fuel + 1) m n dec top) := by
  obtain ⟨alts, hAlts, -⟩ := @buildMinMaxInt_between (fun _ => none) n m fuel dec top hLe hn
  have hMin : (m : Int) ≠ int64Min := by
    rw [int64Min]
    omega
  have hNot : ¬ ((m : Int) < 0 ∧ (n : Int) < 0) := by omega
  have hNonneg : ¬ (m : Int) < 0 := by omega
  have hMax : max (m : Int) 0 = m := max_eq_left (by omega)
  refine ⟨alts, hAlts, ?_⟩
  simp only [buildMinMaxInt] at hAlts
  rw [if_pos ⟨hMin, ne_of_lt hn⟩, if_neg hNot, hMax, if_neg hNonneg] at hAlts
  rw [← Option.some.inj hAlts]
  refine loop_bounded hLe ?_
  rw [int64Max] at hn
  omega

/-- The magnitudes up to a bound, also when it is the one that stands for none. -/
theorem magnitudes_bounded (hn : (n : Int) ≤ int64Max) :
    BuildsBounded (buildMinMaxInt (fuel + 1) 0 n 16 true) := by
  rcases lt_or_eq_of_le hn with hLt | hEq
  · exact @between_bounded 0 n fuel 16 true (Nat.zero_le n) hLt
  rw [hEq, buildMinMaxInt]
  simp only
  rw [if_neg fun h => h.2 rfl, if_pos (by decide), if_neg (by decide), if_pos trivial,
    if_pos trivial]
  refine buildsBounded_some.mpr (altsBounded_cons.mpr
    ⟨forall_mem_singleton.mpr (digitRange_bounded 0 0), altsBounded_cons.mpr ⟨?_, altsBounded_nil⟩⟩)
  exact (pair_more_bounded (by decide)).mpr (by decide)

/-! ## One bound -/

variable {s rest : List Digit} {c : Digit}

/-- One digit of a lower bound. -/
theorem lower_step (hs : Canonical (c :: rest)) (hRest : rest ≠ []) (hDec : dec ≤ 16) :
    BuildsBounded (buildMinMaxInt (fuel + 1) (value (c :: rest)) int64Max dec top) ↔
      (1 < c → rest.length + 1 ≤ max (dec - 1) 1) ∧
        BuildsBounded (buildMinMaxInt fuel (value rest) int64Max (max (dec - 1) 1) false) ∧
          (c < 9 → rest.length ≤ max (dec - 1) 1) := by
  have hLess : max (dec - 1) 1 ≤ maxRepetitionThreshold := by
    rw [maxRepetitionThreshold]
    omega
  have hLarge : 9 < value (c :: rest) := by
    have hLead := canonical_lead hs hRest
    have hPos := length_pos_of_ne_nil hRest
    calc 9 < 10 ^ 1 := by decide
      _ ≤ 10 ^ rest.length := Nat.pow_le_pow_right (by decide) hPos
      _ ≤ value (c :: rest) := le_value rest hLead
  have hNumeral := numeral_value hs
  generalize value (c :: rest) = m at hLarge hNumeral ⊢
  have hMin : (m : Int) ≠ int64Min := by
    rw [int64Min]
    omega
  rw [buildMinMaxInt]
  simp only
  rw [if_neg fun h => h.2 rfl, if_pos hMin, if_neg (by omega), if_neg (by omega),
    if_neg (by omega), Int.toNat_natCast, hNumeral, headD_cons, tail_cons, length_cons,
    Nat.add_sub_cancel]
  generalize hr : buildMinMaxInt fuel (value rest) int64Max (max (dec - 1) 1) false = r
  cases r with
  | none =>
    refine iff_of_false ?_ ?_
    · rintro ⟨_, h, _⟩
      cases h
    · rintro ⟨-, ⟨_, h, _⟩, -⟩
      cases h
  | some alts =>
    refine buildsBounded_some.trans ?_
    rw [altsBounded_append, altsBounded_append, altsBounded_ite, altsBounded_ite, altsBounded_cons,
      altsBounded_cons, altsBounded_cons, pair_more_bounded hLess, pair_more_bounded hLess,
      pair_bounded, group_bounded, buildsBounded_some, and_assoc]
    refine and_congr ?_ (and_congr ?_ ?_)
    · exact imp_congr_right fun _ => and_iff_left altsBounded_nil
    · exact ⟨fun h => h.1.2, fun h => ⟨⟨digitRange_bounded c c, h⟩, altsBounded_nil⟩⟩
    · exact imp_congr_right fun _ => and_iff_left altsBounded_nil

/-- The last digit of a lower bound. -/
theorem lower_last (hDec : dec ≤ 16) (hPos : 1 ≤ dec) (c : Digit) :
    BuildsBounded (buildMinMaxInt (fuel + 1) (value [c]) int64Max dec top) := by
  have hLess : max (dec - 1) 1 ≤ maxRepetitionThreshold := by
    rw [maxRepetitionThreshold]
    omega
  have hThreshold : dec ≤ maxRepetitionThreshold := by
    rw [maxRepetitionThreshold]
    omega
  have hValue : value [c] < 10 := value_lt [c]
  generalize value [c] = m at hValue
  have hMin : (m : Int) ≠ int64Min := by
    rw [int64Min]
    omega
  rw [buildMinMaxInt]
  simp only
  rw [if_neg fun h => h.2 rfl, if_pos hMin, if_neg (by omega)]
  by_cases hZero : (m : Int) = 0
  · rw [if_pos hZero]
    cases top with
    | true =>
      refine buildsBounded_some.mpr (altsBounded_cons.mpr ⟨forall_mem_singleton.mpr
        (digitRange_bounded 0 0), altsBounded_cons.mpr ⟨?_, altsBounded_nil⟩⟩)
      exact (pair_more_bounded hLess).mpr (Nat.zero_le _)
    | false =>
      refine buildsBounded_some.mpr (altsBounded_cons.mpr ⟨?_, altsBounded_nil⟩)
      exact forall_mem_singleton.mpr ((moreDigits_bounded hThreshold).mpr hPos)
  rw [if_neg hZero, if_pos (by omega)]
  refine buildsBounded_some.mpr (altsBounded_append.mpr ⟨altsBounded_ite.mpr fun _ => ?_, ?_⟩)
  · exact altsBounded_cons.mpr ⟨(pair_more_bounded hLess).mpr (le_max_right _ _), altsBounded_nil⟩
  · exact altsBounded_cons.mpr ⟨(pair_more_bounded hLess).mpr (Nat.zero_le _), altsBounded_nil⟩

/-- While the count lasts, the repetitions of a lower bound are in order when a digit is left over or
all digits but the last are ones. -/
theorem lower_bounded (hs : Canonical s) (hInner : 0 ∉ inner s) (hFuel : s.length ≤ fuel)
    (hLength : s.length ≤ dec) (hDec : dec ≤ 16) :
    BuildsBounded (buildMinMaxInt fuel (value s) int64Max dec top) ↔
      s.length + 1 ≤ dec ∨ ∀ d ∈ s.dropLast, d = 1 := by
  induction fuel generalizing s dec top with
  | zero => exact absurd (length_eq_zero_iff.mp (Nat.le_zero.mp hFuel)) hs.1
  | succ fuel ih =>
    cases s with
    | nil => exact absurd rfl hs.1
    | cons c rest =>
      rw [length_cons] at hFuel hLength ⊢
      by_cases hRest : rest = []
      · subst hRest
        exact iff_of_true (lower_last hDec (by omega) c) (Or.inr fun d hd => absurd hd not_mem_nil)
      obtain ⟨hCanonical, hRestInner⟩ := canonical_rest hRest hInner
      have hPos := length_pos_of_ne_nil hRest
      have hMax : max (dec - 1) 1 = dec - 1 := by omega
      rw [lower_step hs hRest hDec, hMax,
        ih hCanonical hRestInner (by omega) (by omega) (by omega),
        dropLast_cons_of_ne_nil hRest, forall_mem_cons]
      by_cases hRoom : rest.length + 1 + 1 ≤ dec
      · exact iff_of_true ⟨fun _ => by omega, Or.inl (by omega), fun _ => by omega⟩ (Or.inl hRoom)
      have hLead := canonical_lead hs hRest
      rw [or_iff_right hRoom, or_iff_right (by omega)]
      constructor
      · rintro ⟨hFirst, hOnes, -⟩
        refine ⟨?_, hOnes⟩
        by_contra hOne
        have hLe := hFirst (one_lt hLead hOne)
        omega
      · rintro ⟨rfl, hOnes⟩
        exact ⟨fun h => absurd h (lt_irrefl 1), hOnes, fun _ => by omega⟩

/-- At most fifteen digits, or sixteen of which all but the last are ones. -/
def Short (m : Nat) : Prop :=
  (numeral m).length ≤ 15 ∨ (numeral m).length = 16 ∧ ∀ d ∈ (numeral m).dropLast, d = 1

instance (m : Nat) : Decidable (Short m) := inferInstanceAs (Decidable (_ ∨ _))

example : ¬Short 2345678923456789 ∧ Short 1111111111111115 := by decide

theorem lower_bounded_iff (hInner : 0 ∉ inner (numeral m)) (hFuel : (numeral m).length ≤ fuel) :
    BuildsBounded (buildMinMaxInt fuel m int64Max 16 top) ↔ Short m := by
  have hs := numeral_canonical m
  have hValue := value_numeral m
  rw [Short, ← hValue, numeral_value hs]
  generalize numeral m = s at hs hInner hFuel
  by_cases hLength : s.length ≤ 16
  · rw [lower_bounded hs hInner hFuel hLength le_rfl]
    constructor
    · rintro (hRoom | hOnes)
      · exact Or.inl (by omega)
      by_cases hRoom : s.length ≤ 15
      · exact Or.inl hRoom
      · exact Or.inr ⟨by omega, hOnes⟩
    · exact Or.imp (fun h => by omega) And.right
  refine iff_of_false (fun h => ?_) (by omega)
  cases s with
  | nil => exact hs.1 rfl
  | cons c rest =>
    cases fuel with
    | zero => cases hFuel
    | succ fuel =>
      have hRest : rest ≠ [] := fun hNil => hLength (by rw [hNil]; exact Nat.succ_le_of_lt (by decide))
      obtain ⟨hFirst, -, hLast⟩ := (lower_step hs hRest le_rfl).mp h
      rw [length_cons] at hLength
      -- more digits are asked for than counted, behind a one as well as behind more
      by_cases hOne : c = 1
      · have hLe := hLast (by rw [hOne]; decide)
        omega
      · have hLe := hFirst (one_lt (canonical_lead hs hRest) hOne)
        omega

end SchemaInt

end Beellama.Ports
