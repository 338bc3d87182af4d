import Beellama.Ports.GrammarPiece
import Beellama.Verified.Decimal

/-!
# Grammars for integer ranges (`build_min_max_int`)

The function of `src/common/json-schema-to-grammar.cpp`.  The model gives the pieces it writes, each
with its text and the expression that the text spells.  A bound that is the least or the greatest
`int64_t` is absent.
-/

namespace Beellama.Ports

open Beellama.Verified GbnfExpr GrammarParser List Language GbnfGrammar

namespace SchemaInt

open Decimal GbnfPiece

/-! ## Pieces -/

/-- The character of a digit. -/
def digitCode (d : Digit) : Nat := 0x30 + d.val

def digitByte (d : Digit) : UInt8 := (digitCode d).toUInt8

/-- `"-"` -/
def minus : GbnfPiece := ⟨.literal [0x2D], bytes "\"-\""⟩

/-- Digits between quotes. -/
def digitLiteral (ds : List Digit) : GbnfPiece :=
  ⟨.literal (ds.map digitCode), bytes "\"" ++ ds.map digitByte ++ bytes "\""⟩

/-- `[a-b]` -/
def digitSpan (a b : Digit) : GbnfPiece :=
  ⟨.charClass false [⟨digitCode a, some (digitCode b)⟩],
    bytes "[" ++ [digitByte a] ++ bytes "-" ++ [digitByte b] ++ bytes "]"⟩

/-- `digit_range` -/
def digitRange (a b : Digit) : GbnfPiece :=
  if a = b then ⟨.charClass false [⟨digitCode a, none⟩], bytes "[" ++ [digitByte a] ++ bytes "]"⟩
  else digitSpan a b

/-- `more_digits`; no caller asks for an unbounded number. -/
def moreDigits (minDigits maxDigits : Nat) : GbnfPiece :=
  if minDigits = maxDigits ∧ minDigits = 1 then digitSpan 0 9
  else
    ⟨.repetition (digitSpan 0 9).expr minDigits (some maxDigits),
      (digitSpan 0 9).text ++ bytes "\x7b" ++ decimal minDigits ++
        (if maxDigits ≠ minDigits then bytes "," ++ decimal maxDigits else []) ++ bytes "\x7d"⟩

/-- The number of the leading digits that are the same. -/
def commonLength : List Digit → List Digit → Nat
  | a :: fromS, b :: toS => if a = b then commonLength fromS toS + 1 else 0
  | _, _ => 0

/-- The alternatives in the parentheses of `uniform_range`, behind digits that differ. -/
def splitRange (uniformRange : List Digit → List Digit → List GbnfPiece) (a b : Digit)
    (fromSub toSub : List Digit) : Alts :=
  let subLen := fromSub.length
  let subZeros := List.replicate subLen 0
  let subNines := List.replicate subLen 9
  let toReached := decide (fromSub ≠ subZeros ∧ a < b - 1 ∧ toSub = subNines)
  (if fromSub = subZeros then [[digitRange a (b - 1), moreDigits subLen subLen]]
    else
      [digitRange a a, group [uniformRange fromSub subNines]] ::
        if a < b - 1 then
          [[digitRange (a + 1) (if toSub = subNines then b else b - 1), moreDigits subLen subLen]]
        else []) ++
    if toReached then [] else [digitRange b b :: uniformRange subZeros toSub]

/-- `uniform_range`, to the length of the numerals. -/
def uniformRange : Nat → List Digit → List Digit → List GbnfPiece
  | 0, _, _ => []
  | fuel + 1, fromS, toS =>
    let i := commonLength fromS toS
    (if 0 < i then [digitLiteral (fromS.take i)] else []) ++
      match fromS.drop i, toS.drop i with
      | a :: fromSub, b :: toSub =>
        [if fromSub = [] then digitSpan a b
         else group (splitRange (uniformRange fuel) a b fromSub toSub)]
      | _, _ => []

/-- The loop over the numbers of digits below that of the greatest. -/
def digitRanges (maxS : List Digit) : Nat → List Digit → Alts
  | 0, minS => [uniformRange (maxS.length + 1) minS maxS]
  | more + 1, minS =>
    uniformRange (minS.length + 1) minS (List.replicate minS.length 9) ::
      digitRanges maxS more (1 :: List.replicate minS.length 0)

def int64Min : Int := -2 ^ 63

def int64Max : Int := 2 ^ 63 - 1

/-- `build_min_max_int`, to a depth of recursion; `none` where it throws and where a
negation overflows. -/
def buildMinMaxInt : Nat → Int → Int → Nat → Bool → Option Alts
  | 0, _, _, _, _ => none
  | fuel + 1, minValue, maxValue, decimalsLeft, topLevel =>
    let hasMin := minValue ≠ int64Min
    let hasMax := maxValue ≠ int64Max
    if hasMin ∧ hasMax then
      if minValue < 0 ∧ maxValue < 0 then
        (buildMinMaxInt fuel (-maxValue) (-minValue) decimalsLeft true).map fun alts =>
          [[minus, group alts]]
      else do
        let negative ←
          if minValue < 0 then
            (buildMinMaxInt fuel 0 (-minValue) decimalsLeft true).map fun alts =>
              [[minus, group alts]]
          else some []
        let minS := numeral (max minValue 0).toNat
        let maxS := numeral maxValue.toNat
        some (negative ++ digitRanges maxS (maxS.length - minS.length) minS)
    else
      let lessDecimals := max (decimalsLeft - 1) 1
      if hasMin then
        if minValue < 0 then
          (buildMinMaxInt fuel int64Min (-minValue) decimalsLeft false).map fun alts =>
            [[minus, group alts], [digitRange 0 0],
              [digitRange 1 9, moreDigits 0 (decimalsLeft - 1)]]
        else if minValue = 0 then
          if topLevel then some [[digitRange 0 0], [digitRange 1 9, moreDigits 0 lessDecimals]]
          else some [[moreDigits 1 decimalsLeft]]
        else if minValue ≤ 9 then
          let c : Digit := Fin.ofNat 10 minValue.toNat
          let rangeStart : Digit := if topLevel then 1 else 0
          some ((if rangeStart < c then
              [[digitRange rangeStart (c - 1), moreDigits 1 lessDecimals]] else []) ++
            [[digitRange c 9, moreDigits 0 lessDecimals]])
        else do
          let minS := numeral minValue.toNat
          let len := minS.length
          let c := minS.headD 0
          let rest ← buildMinMaxInt fuel (value minS.tail) int64Max lessDecimals false
          some ((if 1 < c then
              [[digitRange (if topLevel then 1 else 0) (c - 1), moreDigits len lessDecimals]]
              else []) ++
            [[digitRange c c, group rest]] ++
            if c < 9 then [[digitRange (c + 1) 9, moreDigits (len - 1) lessDecimals]] else [])
      else if hasMax then
        if 0 ≤ maxValue then
          (buildMinMaxInt fuel 0 maxValue decimalsLeft true).map fun alts =>
            (if topLevel then [[minus, digitRange 1 9, moreDigits 0 lessDecimals]] else []) ++ alts
        else if maxValue = int64Min then none
        else
          (buildMinMaxInt fuel (-maxValue) int64Max decimalsLeft false).map fun alts =>
            [[minus, group alts]]
      else none

/-- The call of `visit`, whose result is put in parentheses. -/
def buildTopLevel (minValue maxValue : Int) : Option Alts :=
  buildMinMaxInt 32 minValue maxValue 16 true

/-- The texts for a minimum of 25 and for -123 to 42. -/
example : (buildTopLevel 25 int64Max).map (fun alts => (group alts).text) =
    some (bytes ("([1] [0-9]\x7b2,15\x7d | [2] ([0-4] [0-9]\x7b1,14\x7d | " ++
      "[5-9] [0-9]\x7b0,14\x7d) | [3-9] [0-9]\x7b1,15\x7d)")) := by decide +kernel

example : (buildTopLevel (-123) 42).map (fun alts => (group alts).text) =
    some (bytes ("(\"-\" ([0-9] | ([1-8] [0-9] | [9] [0-9]) | \"1\" ([0-1] [0-9] | " ++
      "[2] [0-3])) | [0-9] | ([1-3] [0-9] | [4] [0-2]))")) := by decide +kernel

/-! ## The text is spelled -/

theorem digitByte_toNat (d : Digit) : (digitByte d).toNat = digitCode d := by
  revert d
  decide

theorem digitByte_spells (d : Digit) : SpellsChar (digitCode d) [digitByte d] := by
  rw [← digitByte_toNat]
  apply spellsChar_plain
  · revert d
    decide
  · revert d
    decide

theorem minus_spelled : minus.Spelled .item := by
  intro nested
  have hChars : SpellsChars [0x2D] ([0x2D] ++ []) :=
    .cons (spellsChar_plain (by decide) (by decide)) (by decide) .nil
  exact .literal hChars blanks_nil

theorem digitChars_spells (ds : List Digit) :
    SpellsChars (ds.map digitCode) (ds.map digitByte) := by
  induction ds with
  | nil => exact .nil
  | cons d ds ih =>
    have hQuote : [digitByte d].head? ≠ some '"'.toUInt8 := by
      revert d
      decide
    exact .cons (digitByte_spells d) hQuote ih

theorem digitLiteral_spelled (ds : List Digit) : (digitLiteral ds).Spelled .item := by
  intro nested
  have hLiteral : Spells nested .item (.literal (ds.map digitCode))
      (bytes "\"" ++ ds.map digitByte ++ bytes "\"" ++ []) :=
    .literal (digitChars_spells ds) blanks_nil
  rw [append_nil] at hLiteral
  exact hLiteral

theorem digitByte_plain (d : Digit) : [digitByte d].head? ≠ some ']'.toUInt8 := by
  revert d
  decide

theorem digitByte_ne_caret (d : Digit) : some (digitByte d) ≠ some '^'.toUInt8 := by
  revert d
  decide

theorem digitSpan_spelled (a b : Digit) : (digitSpan a b).Spelled .item := by
  intro nested
  have hItems : SpellsItems [⟨digitCode a, some (digitCode b)⟩]
      ([digitByte a] ++ bytes "-" ++ [digitByte b] ++ []) :=
    .range (digitByte_spells a) (digitByte_plain a) (digitByte_spells b) (digitByte_plain b) .nil
  have hClass :=
    @Spells.charClass nested _ _ [] hItems (digitByte_ne_caret a) blanks_nil
  simpa [digitSpan] using hClass

theorem digitRange_spelled (a b : Digit) : (digitRange a b).Spelled .item := by
  rw [digitRange]
  split
  · intro nested
    have hItems : SpellsItems [⟨digitCode a, none⟩] ([digitByte a] ++ []) :=
      .single (digitByte_spells a) (digitByte_plain a) (by simp) .nil
    have hClass :=
      @Spells.charClass nested _ _ [] hItems (digitByte_ne_caret a) blanks_nil
    exact hClass
  · exact digitSpan_spelled a b

variable {n : Nat}

theorem spellsNat_decimal (h : n < 2 ^ 64) : SpellsNat n (decimal n) := by
  have hValue : digitsValue (decimal n) = n := decimalFrom_value (Nat.lt_succ_self n)
  refine ⟨?_, decimalFrom_digit _ n, ?_⟩
  · rw [decimal, decimalFrom]
    split
    · exact cons_ne_nil _ _
    · exact append_ne_nil_of_right_ne_nil _ (cons_ne_nil _ _)
  · show (if digitsValue (decimal n) < 2 ^ 64 then some (digitsValue (decimal n)) else none) = _
    rw [hValue, if_pos h]

variable {m : Nat}

theorem moreDigits_spelled (hm : m < 2 ^ 64) (hn : n < 2 ^ 64) :
    (moreDigits m n).Spelled .item := by
  rw [moreDigits]
  split
  · exact digitSpan_spelled 0 9
  intro nested
  have hMin := spellsNat_decimal hm
  have hMax := spellsNat_decimal hn
  have hNil : Blanks nested [] := blanks_nil
  by_cases hEq : n = m
  · have hBounds := SpellsBounds.exactly hNil hMin hNil hNil
    have hRepeat := Spells.repetition (digitSpan_spelled 0 9 nested) hBounds
    rw [if_neg (not_not_intro hEq)]
    simp only [append_nil] at hRepeat ⊢
    rw [hEq]
    exact hRepeat
  have hBounds := SpellsBounds.between hNil hMin hNil hNil hMax hNil hNil
  have hRepeat := Spells.repetition (digitSpan_spelled 0 9 nested) hBounds
  rw [if_pos hEq]
  simp only [append_assoc] at hRepeat ⊢
  exact hRepeat

/-! ## The languages of the pieces -/

/-- A language of numerals, in characters. -/
def coded (L : Language Digit) : Language Nat := Language.map digitCode L

variable {L : Language Digit}

theorem mem_coded {w : List Nat} :
    w ∈ coded L ↔ ∃ ds ∈ L, ds.map digitCode = w := Iff.rfl

theorem coded_add (L M : Language Digit) : coded (L + M) = coded L + coded M :=
  map_add (Language.map digitCode) L M

theorem coded_mul (L M : Language Digit) : coded (L * M) = coded L * coded M :=
  map_mul (Language.map digitCode) L M

theorem digitCode_injective : Function.Injective digitCode := by
  intro d e h
  apply Fin.ext
  exact Nat.add_left_cancel h

variable {ds : List Digit}

theorem map_mem_coded : ds.map digitCode ∈ coded L ↔ ds ∈ L := by
  constructor
  · intro h
    obtain ⟨es, hMem, hEq⟩ := mem_coded.mp h
    rwa [← map_injective_iff.mpr digitCode_injective hEq]
  · intro h
    exact mem_coded.mpr ⟨ds, h, rfl⟩

/-- One digit of a range. -/
def oneOf (a b : Digit) : Language Digit := {ds | ∃ d, ds = [d] ∧ a ≤ d ∧ d ≤ b}

/-- Any digits, of a number between the bounds. -/
def count (m n : Nat) : Language Digit := {ds | m ≤ ds.length ∧ ds.length ≤ n}

/-- The numerals between two of one length. -/
def range (fromS toS : List Digit) : Language Digit :=
  {ds | ds.length = fromS.length ∧ value fromS ≤ value ds ∧ value ds ≤ value toS}

variable {a b : Digit}

theorem mem_oneOf :
    ds ∈ oneOf a b ↔ ∃ d, ds = [d] ∧ a ≤ d ∧ d ≤ b := Iff.rfl

theorem mem_count :
    ds ∈ count m n ↔ m ≤ ds.length ∧ ds.length ≤ n := Iff.rfl

theorem mem_range {fromS toS : List Digit} :
    ds ∈ range fromS toS ↔
      ds.length = fromS.length ∧ value fromS ≤ value ds ∧ value ds ≤ value toS := Iff.rfl

theorem nil_not_mem_oneOf_mul (a b : Digit) (L : Language Digit) : [] ∉ oneOf a b * L := by
  intro h
  obtain ⟨u, hu, v, hv, hEq⟩ := mem_mul.mp h
  obtain ⟨d, rfl, -, -⟩ := mem_oneOf.mp hu
  exact cons_ne_nil _ _ hEq

theorem cons_mem_oneOf_mul {d : Digit} : d :: ds ∈ oneOf a b * L ↔ (a ≤ d ∧ d ≤ b) ∧ ds ∈ L := by
  constructor
  · intro h
    obtain ⟨u, hu, v, hv, hEq⟩ := mem_mul.mp h
    obtain ⟨e, rfl, hLow, hHigh⟩ := mem_oneOf.mp hu
    obtain ⟨rfl, rfl⟩ := cons.inj hEq
    exact ⟨⟨hLow, hHigh⟩, hv⟩
  · intro h
    exact append_mem_mul (mem_oneOf.mpr ⟨d, rfl, h.1⟩) h.2

theorem mem_oneOf_pow {k : Nat} : ds ∈ oneOf 0 9 ^ k ↔ ds.length = k := by
  induction k generalizing ds with
  | zero => rw [pow_zero, mem_one, length_eq_zero_iff]
  | succ k ih =>
    rw [pow_succ']
    cases ds with
    | nil => exact iff_of_false (nil_not_mem_oneOf_mul _ _ _) (Nat.succ_ne_zero k).symm
    | cons d ds =>
      rw [cons_mem_oneOf_mul, ih, length_cons, Nat.succ_inj]
      exact and_iff_right ⟨Fin.zero_le d, Fin.le_last d⟩

variable {defs : List UInt8 → Option GbnfExpr}

theorem digitLiteral_writes (ds : List Digit) : Writes defs (digitLiteral ds) (coded {ds}) := by
  refine ⟨digitLiteral_spelled ds, ?_⟩
  ext w
  rw [digitLiteral, mem_lang_literal]
  constructor
  · rintro rfl
    exact ⟨ds, rfl, rfl⟩
  · rintro ⟨es, rfl, rfl⟩
    rfl

/-- A class of the digits between two, however it is written. -/
theorem lang_digitClass {items : List ClassItem}
    (hItems : ∀ c, (∃ item ∈ items, item.Contains c) ↔ digitCode a ≤ c ∧ c ≤ digitCode b) :
    lang defs (.charClass false items) = coded (oneOf a b) := by
  ext w
  rw [mem_lang_class]
  constructor
  · rintro ⟨c, rfl, hClass⟩
    obtain ⟨hLow, hHigh⟩ := (hItems c).mp (hClass.mpr rfl)
    have hDigit : c - 0x30 < 10 := by
      rw [digitCode] at hHigh
      omega
    have hCode : digitCode ⟨c - 0x30, hDigit⟩ = c := by
      rw [digitCode] at hLow ⊢
      show 0x30 + (c - 0x30) = c
      omega
    refine ⟨[⟨c - 0x30, hDigit⟩], mem_oneOf.mpr ⟨_, rfl, ?_, ?_⟩, by rw [map_singleton, hCode]⟩
    · rw [← hCode] at hLow
      exact Fin.le_def.mpr (Nat.le_of_add_le_add_left hLow)
    · rw [← hCode] at hHigh
      exact Fin.le_def.mpr (Nat.le_of_add_le_add_left hHigh)
  rintro ⟨ds, hMem, rfl⟩
  obtain ⟨d, rfl, hLow, hHigh⟩ := mem_oneOf.mp hMem
  refine ⟨digitCode d, rfl, iff_of_true ((hItems _).mpr ⟨?_, ?_⟩) rfl⟩
  · exact Nat.add_le_add_left (Fin.le_def.mp hLow) _
  · exact Nat.add_le_add_left (Fin.le_def.mp hHigh) _

theorem digitSpan_writes (a b : Digit) : Writes defs (digitSpan a b) (coded (oneOf a b)) := by
  refine ⟨digitSpan_spelled a b, lang_digitClass fun c => ?_⟩
  simp [ClassItem.Contains]

theorem digitRange_writes (a b : Digit) : Writes defs (digitRange a b) (coded (oneOf a b)) := by
  refine ⟨digitRange_spelled a b, ?_⟩
  rw [digitRange]
  split
  next hEq =>
    refine lang_digitClass fun c => ?_
    rw [← hEq]
    simp [ClassItem.Contains]
    omega
  next => exact (digitSpan_writes a b).lang

theorem moreDigits_writes (hm : m < 2 ^ 64) (hn : n < 2 ^ 64) :
    Writes defs (moreDigits m n) (coded (count m n)) := by
  refine ⟨moreDigits_spelled hm hn, ?_⟩
  rw [moreDigits]
  split
  next hOne =>
    rw [(digitSpan_writes 0 9).lang]
    congr 1
    ext ds
    rw [← pow_one (oneOf 0 9), mem_oneOf_pow, mem_count]
    omega
  next =>
    ext w
    rw [mem_lang_repetition, (digitSpan_writes 0 9).lang]
    constructor
    · rintro ⟨k, hMin, hMax, hPow⟩
      rw [coded, ← map_pow] at hPow
      obtain ⟨ds, hMem, hEq⟩ := hPow
      have hLength : ds.length = k := mem_oneOf_pow.mp hMem
      exact mem_coded.mpr ⟨ds, mem_count.mpr ⟨hLength ▸ hMin, hLength ▸ hMax n rfl⟩, hEq⟩
    intro h
    obtain ⟨ds, hMem, hEq⟩ := mem_coded.mp h
    obtain ⟨hMin, hMax⟩ := mem_count.mp hMem
    refine ⟨ds.length, hMin, fun b hb => Option.some.inj hb ▸ hMax, ?_⟩
    rw [coded, ← map_pow]
    exact ⟨ds, mem_oneOf_pow.mpr rfl, hEq⟩

end SchemaInt

end Beellama.Ports
