import Beellama.Ports.GrammarParser
import Mathlib.Data.List.TakeWhile

/-!
# Grammar expressions and their text

The expressions of GBNF, the texts that spell them, and what the parser makes of
such a text.  `compile` is the parser without the text: it has the same effect on the
rule under construction and on the symbols.  On every spelling of an expression
`parse_alternates` comes to what `compile` says (`parseAlternates_spells`), exceptions
included.
-/

namespace Beellama.Ports

open GrammarParser GrammarElement List Option

/-- A member of a class: a character, or a range of them. -/
structure ClassItem where
  low : Nat
  high : Option Nat := none
  deriving DecidableEq, Repr

/-- The expressions of a rule. -/
inductive GbnfExpr
  | literal (chars : List Nat)
  | charClass (negated : Bool) (items : List ClassItem)
  | any
  | ref (name : List UInt8)
  | group (e : GbnfExpr)
  | empty
  | seq (e f : GbnfExpr)
  | alt (e f : GbnfExpr)
  /-- `{minTimes,maxTimes}`, without a maximum for `none` -/
  | repetition (e : GbnfExpr) (minTimes : Nat) (maxTimes : Option Nat)
  deriving DecidableEq, Repr

namespace GbnfExpr

/-! ## Texts -/

/-- Blanks, and ends of lines where the parser is nested in a group. -/
def Blank (nested : Bool) (c : UInt8) : Prop :=
  c = ' '.toUInt8 ∨ c = '\t'.toUInt8 ∨ nested = true ∧ (c = '\r'.toUInt8 ∨ c = '\n'.toUInt8)

/-- A text that `parse_char` reads as a character, whatever follows. -/
def SpellsChar (c : Nat) (t : List UInt8) : Prop :=
  t ≠ [] ∧ ∀ rest, parseChar (t ++ rest) = some (c, rest)

/-- The characters of a literal; a quote is escaped. -/
inductive SpellsChars : List Nat → List UInt8 → Prop
  | nil : SpellsChars [] []
  | cons {c : Nat} {chars : List Nat} {t u : List UInt8} (hChar : SpellsChar c t)
      (hHead : t.head? ≠ some '"'.toUInt8) (hRest : SpellsChars chars u) :
      SpellsChars (c :: chars) (t ++ u)

/-- The members of a class; a closing bracket is escaped, and behind a single character
a hyphen that is not the last of the class. -/
inductive SpellsItems : List ClassItem → List UInt8 → Prop
  | nil : SpellsItems [] []
  | single {c : Nat} {items : List ClassItem} {t u : List UInt8} (hChar : SpellsChar c t)
      (hHead : t.head? ≠ some ']'.toUInt8)
      (hHyphen : u.head? = some '-'.toUInt8 → u = bytes "-") (hRest : SpellsItems items u) :
      SpellsItems (⟨c, none⟩ :: items) (t ++ u)
  | range {low high : Nat} {items : List ClassItem} {t t' u : List UInt8}
      (hLow : SpellsChar low t) (hHead : t.head? ≠ some ']'.toUInt8) (hHigh : SpellsChar high t')
      (hHead' : t'.head? ≠ some ']'.toUInt8) (hRest : SpellsItems items u) :
      SpellsItems (⟨low, some high⟩ :: items) (t ++ bytes "-" ++ t' ++ u)

/-- A decimal number of 64 bits. -/
def SpellsNat (n : Nat) (digits : List UInt8) : Prop :=
  digits ≠ [] ∧ (∀ c ∈ digits, isDigitChar c = true) ∧ stoull digits = some n

/-- A text of blanks. -/
def Blanks (nested : Bool) (t : List UInt8) : Prop := ∀ c ∈ t, Blank nested c

/-- The operators behind an item, with the bounds they stand for. -/
inductive SpellsBounds (nested : Bool) : Nat → Option Nat → List UInt8 → Prop
  | star {sp : List UInt8} (hSp : Blanks nested sp) :
      SpellsBounds nested 0 none (bytes "*" ++ sp)
  | plus {sp : List UInt8} (hSp : Blanks nested sp) :
      SpellsBounds nested 1 none (bytes "+" ++ sp)
  | optional {sp : List UInt8} (hSp : Blanks nested sp) :
      SpellsBounds nested 0 (some 1) (bytes "?" ++ sp)
  | exactly {n : Nat} {sp₁ sp₂ sp₃ ds : List UInt8} (h₁ : Blanks nested sp₁) (hNat : SpellsNat n ds)
      (h₂ : Blanks nested sp₂) (h₃ : Blanks nested sp₃) :
      SpellsBounds nested n (some n) (bytes "\x7b" ++ sp₁ ++ ds ++ sp₂ ++ bytes "\x7d" ++ sp₃)
  | atLeast {m : Nat} {sp₁ sp₂ sp₃ sp₄ ds : List UInt8} (h₁ : Blanks nested sp₁)
      (hNat : SpellsNat m ds) (h₂ : Blanks nested sp₂) (h₃ : Blanks nested sp₃)
      (h₄ : Blanks nested sp₄) :
      SpellsBounds nested m none
        (bytes "\x7b" ++ sp₁ ++ ds ++ sp₂ ++ bytes "," ++ sp₃ ++ bytes "\x7d" ++ sp₄)
  | between {m n : Nat} {sp₁ sp₂ sp₃ sp₄ sp₅ ds ds' : List UInt8} (h₁ : Blanks nested sp₁)
      (hMin : SpellsNat m ds) (h₂ : Blanks nested sp₂) (h₃ : Blanks nested sp₃)
      (hMax : SpellsNat n ds') (h₄ : Blanks nested sp₄) (h₅ : Blanks nested sp₅) :
      SpellsBounds nested m (some n)
        (bytes "\x7b" ++ sp₁ ++ ds ++ sp₂ ++ bytes "," ++ sp₃ ++ ds' ++ sp₄ ++ bytes "\x7d" ++ sp₅)

/-- Items, sequences of items, and alternatives of sequences. -/
inductive Level
  | item
  | sequence
  | alternates
  deriving DecidableEq, Repr

/-- Two names do not run into each other. -/
def Apart (t u : List UInt8) : Prop :=
  ∀ c d, t.getLast? = some c → u.head? = some d → isWordChar c = true → isWordChar d = false

/-- The texts of an expression: blanks may stand behind every token. -/
inductive Spells : Bool → Level → GbnfExpr → List UInt8 → Prop
  | literal {nested : Bool} {chars : List Nat} {t sp : List UInt8} (hChars : SpellsChars chars t)
      (hSp : Blanks nested sp) :
      Spells nested .item (.literal chars) (bytes "\"" ++ t ++ bytes "\"" ++ sp)
  | charClass {nested : Bool} {items : List ClassItem} {t sp : List UInt8}
      (hItems : SpellsItems items t) (hHead : t.head? ≠ some '^'.toUInt8)
      (hSp : Blanks nested sp) :
      Spells nested .item (.charClass false items) (bytes "[" ++ t ++ bytes "]" ++ sp)
  | negated {nested : Bool} {items : List ClassItem} {t sp : List UInt8}
      (hItems : SpellsItems items t) (hSp : Blanks nested sp) :
      Spells nested .item (.charClass true items) (bytes "[^" ++ t ++ bytes "]" ++ sp)
  | any {nested : Bool} {sp : List UInt8} (hSp : Blanks nested sp) :
      Spells nested .item .any (bytes "." ++ sp)
  | ref {nested : Bool} {name sp : List UInt8} (hName : name ≠ [])
      (hWord : ∀ c ∈ name, isWordChar c = true) (hSp : Blanks nested sp) :
      Spells nested .item (.ref name) (name ++ sp)
  | group {nested : Bool} {e : GbnfExpr} {t sp sp' : List UInt8} (hSp : Blanks true sp)
      (hBody : Spells true .alternates e t) (hSp' : Blanks nested sp') :
      Spells nested .item (.group e) (bytes "(" ++ sp ++ t ++ bytes ")" ++ sp')
  | repetition {nested : Bool} {e : GbnfExpr} {m : Nat} {n : Option Nat} {t o : List UInt8}
      (hBody : Spells nested .item e t) (hBounds : SpellsBounds nested m n o) :
      Spells nested .item (.repetition e m n) (t ++ o)
  | empty {nested : Bool} : Spells nested .sequence .empty []
  | single {nested : Bool} {e : GbnfExpr} {t : List UInt8} (hItem : Spells nested .item e t) :
      Spells nested .sequence e t
  | seq {nested : Bool} {e f : GbnfExpr} {t u : List UInt8} (hFirst : Spells nested .sequence e t)
      (hNext : Spells nested .item f u) (hApart : Apart t u) :
      Spells nested .sequence (.seq e f) (t ++ u)
  | one {nested : Bool} {e : GbnfExpr} {t : List UInt8} (hSequence : Spells nested .sequence e t) :
      Spells nested .alternates e t
  | alt {nested : Bool} {e f : GbnfExpr} {t u sp : List UInt8}
      (hFirst : Spells nested .alternates e t) (hSp : Blanks true sp)
      (hNext : Spells nested .sequence f u) (hLast : nested = true ∨ u ≠ []) :
      Spells nested .alternates (.alt e f) (t ++ bytes "|" ++ sp ++ u)

/-! ## What the parser makes of an expression -/

/-- The elements of a class: the first has the type of the class, the others are
alternatives to it. -/
def classElements (startType : Gretype) : List ClassItem → List GrammarElement
  | [] => []
  | item :: items =>
    ⟨startType, item.low⟩ ::
      ((match item.high with
        | none => []
        | some high => [⟨.charRngUpper, high⟩]) ++ classElements .charAlt items)

/-- `MAX_REPETITION_THRESHOLD` as the upper bound of a repetition. -/
def boundedMax (maxTimes : Option Nat) : Option Nat :=
  maxTimes.filter fun n => decide (n ≤ maxRepetitionThreshold)

/-- The parser on an expression. -/
def compile (ruleName : List UInt8) :
    GbnfExpr → SequenceState → GrammarParser → Option (SequenceState × GrammarParser)
  | literal chars, s, p => some (s.begin (s.rule ++ chars.map (⟨.char, ·⟩)), p)
  | charClass negated items, s, p =>
    some (s.begin (s.rule ++ classElements (if negated then .charNot else .char) items), p)
  | any, s, p => some (s.begin (s.rule ++ [⟨.charAny, 0⟩]), p)
  | ref name, s, p =>
    let r := p.getSymbolId name
    some (s.begin (s.rule ++ [⟨.ruleRef, r.1⟩]), r.2)
  | group e, s, p =>
    let r := p.generateSymbolId ruleName
    (compile ruleName e ⟨[], 0, 1⟩ r.2).map fun x =>
      let p' := x.2.addRule r.1 (x.1.rule ++ [⟨.endOfRule, 0⟩])
      ({ s.begin (s.rule ++ [⟨.ruleRef, r.1⟩]) with
        nPrevRules := max 1 (p'.symbolIds.length - p.symbolIds.length) }, p')
  | empty, s, p => some (s, p)
  | seq e f, s, p => (compile ruleName e s p).bind fun x => compile ruleName f x.1 x.2
  | alt e f, s, p =>
    (compile ruleName e s p).bind fun x =>
      compile ruleName f ⟨x.1.rule ++ [⟨.alt, 0⟩], x.1.rule.length + 1, 1⟩ x.2
  | repetition e minTimes maxTimes, s, p =>
    (compile ruleName e s p).bind fun x =>
      if maxRepetitionThreshold < minTimes then none
      else handleRepetitions ruleName minTimes (boundedMax maxTimes) x.1 x.2

/-- The depth of groups. -/
def depth : GbnfExpr → Nat
  | group e => e.depth + 1
  | repetition e _ _ => e.depth
  | seq e f | alt e f => max e.depth f.depth
  | _ => 0

/-! ## Blanks -/

/-- A byte that `parse_space` does not skip. -/
def Solid (c : UInt8) : Prop :=
  c ≠ ' '.toUInt8 ∧ c ≠ '\t'.toUInt8 ∧ c ≠ '#'.toUInt8 ∧ c ≠ '\r'.toUInt8 ∧ c ≠ '\n'.toUInt8

instance (c : UInt8) : Decidable (Solid c) := inferInstanceAs (Decidable (_ ∧ _))

/-- A text at which `parse_space` stands still. -/
def Stops (nested : Bool) (rest : List UInt8) : Prop := parseSpace rest nested = rest

variable {nested : Bool} {sp : List UInt8}

theorem parseSpace_blanks (h : Blanks nested sp)
    (rest : List UInt8) : parseSpace (sp ++ rest) nested = parseSpace rest nested := by
  induction sp with
  | nil => rfl
  | cons c sp ih =>
    have hRest := ih fun d hd => h d (mem_cons_of_mem _ hd)
    rw [← hRest]
    show parseSpaceFrom nested false (c :: (sp ++ rest)) = parseSpaceFrom nested false (sp ++ rest)
    rcases h c mem_cons_self with rfl | rfl | ⟨rfl, hEnd⟩
    · rw [parseSpaceFrom, if_neg (by decide), if_neg (by decide), if_pos (Or.inl rfl)]
    · rw [parseSpaceFrom, if_neg (by decide), if_neg (by decide), if_pos (Or.inr rfl)]
    · rw [parseSpaceFrom, if_pos hEnd, if_pos rfl]

variable {c : UInt8}

theorem stops_solid (h : Solid c) (rest : List UInt8) : Stops nested (c :: rest) := by
  obtain ⟨hSpace, hTab, hHash, hCr, hNl⟩ := h
  show parseSpaceFrom nested false (c :: rest) = c :: rest
  rw [parseSpaceFrom, if_neg (by simp [hCr, hNl]), if_neg (by simp), if_neg (by simp [hSpace, hTab]),
    if_neg hHash]

theorem stops_nil : Stops nested [] := rfl

variable {rest : List UInt8}

theorem Stops.behind (hSp : Blanks nested sp)
    (h : Stops nested rest) : parseSpace (sp ++ rest) nested = rest :=
  (parseSpace_blanks hSp rest).trans h

theorem solid_of_word (h : isWordChar c = true) : Solid c := by
  refine ⟨?_, ?_, ?_, ?_, ?_⟩
  all_goals
    rintro rfl
    revert h
    decide

theorem not_word_of_blank (h : Blank nested c) : isWordChar c = false := by
  rcases h with rfl | rfl | ⟨-, rfl | rfl⟩ <;> decide

/-! ## Tokens -/

section Bytes

@[simp] theorem bytes_quote : bytes "\"" = ['"'.toUInt8] := rfl

@[simp] theorem bytes_bracket : bytes "[" = ['['.toUInt8] := rfl

@[simp] theorem bytes_caret : bytes "[^" = ['['.toUInt8, '^'.toUInt8] := rfl

@[simp] theorem bytes_closing : bytes "]" = [']'.toUInt8] := rfl

@[simp] theorem bytes_hyphen : bytes "-" = ['-'.toUInt8] := rfl

@[simp] theorem bytes_dot : bytes "." = ['.'.toUInt8] := rfl

@[simp] theorem bytes_open : bytes "(" = ['('.toUInt8] := rfl

@[simp] theorem bytes_close : bytes ")" = [')'.toUInt8] := rfl

@[simp] theorem bytes_bar : bytes "|" = ['|'.toUInt8] := rfl

@[simp] theorem bytes_star : bytes "*" = ['*'.toUInt8] := rfl

@[simp] theorem bytes_plus : bytes "+" = ['+'.toUInt8] := rfl

@[simp] theorem bytes_question : bytes "?" = ['?'.toUInt8] := rfl

@[simp] theorem bytes_brace : bytes "\x7b" = ['{'.toUInt8] := rfl

@[simp] theorem bytes_braceClosing : bytes "\x7d" = ['}'.toUInt8] := rfl

@[simp] theorem bytes_comma : bytes "," = [','.toUInt8] := rfl

end Bytes

theorem spellsChar_plain (h : c.toNat < 0x80) (hEscape : c ≠ '\\'.toUInt8) :
    SpellsChar c.toNat [c] := by
  refine ⟨cons_ne_nil c [], fun rest => ?_⟩
  show (if c = '\\'.toUInt8 then _ else some (decodeUtf8Char c rest)) = _
  rw [if_neg hEscape]
  have hLen : c.toNat < 0xC0 := by omega
  simp only [decodeUtf8Char, if_pos hLen]
  rw [show 2 ^ (8 - 1) = 128 from rfl, Nat.mod_eq_of_lt h]
  rfl

variable {t : List UInt8} {fuel : Nat}

theorem literalLoop_spells {chars : List Nat} (h : SpellsChars chars t)
    (hFuel : t.length < fuel) (rest : List UInt8) (rule : GrammarRule) :
    literalLoop fuel (t ++ '"'.toUInt8 :: rest) rule =
      some (rule ++ chars.map (⟨.char, ·⟩), rest) := by
  induction h generalizing fuel rule with
  | nil =>
    obtain ⟨fuel, rfl⟩ : ∃ n, fuel = n + 1 := ⟨fuel - 1, by simp at hFuel; omega⟩
    rw [nil_append, literalLoop]
    simp
  | @cons c chars t u hChar hHead _ ih =>
    obtain ⟨hNe, hParse⟩ := hChar
    obtain ⟨fuel, rfl⟩ : ∃ n, fuel = n + 1 := ⟨fuel - 1, by omega⟩
    obtain ⟨b, t, rfl⟩ := exists_cons_of_ne_nil hNe
    have hNot : ¬b = '"'.toUInt8 := by simpa using hHead
    have hRead := hParse (u ++ '"'.toUInt8 :: rest)
    simp only [append_assoc, cons_append] at hRead ⊢
    rw [literalLoop, if_neg hNot, hRead]
    simp only [bind_eq_bind, bind_some]
    rw [ih (by simp only [length_append, length_cons] at hFuel; omega)]
    simp

variable {start : Nat}

theorem classType_append {rule : GrammarRule} (h : start ≤ rule.length)
    (e : GrammarElement) (startType : Gretype) :
    (if start < (rule ++ [e]).length then Gretype.charAlt else startType) = .charAlt := by
  apply if_pos
  rw [length_append, length_singleton]
  omega

theorem classLoop_spells {startType : Gretype} {items : List ClassItem}
    (h : SpellsItems items t) (hFuel : t.length < fuel)
    (rest : List UInt8) (rule : GrammarRule) (hStart : start ≤ rule.length) :
    classLoop startType start fuel (t ++ ']'.toUInt8 :: rest) rule =
      some (rule ++ classElements (if start < rule.length then .charAlt else startType) items,
        rest) := by
  induction h generalizing fuel rule with
  | nil =>
    obtain ⟨fuel, rfl⟩ : ∃ n, fuel = n + 1 := ⟨fuel - 1, by simp at hFuel; omega⟩
    rw [nil_append, classLoop]
    simp [classElements]
  | @single c items t u hChar hHead hHyphen _ ih =>
    obtain ⟨hNe, hParse⟩ := hChar
    obtain ⟨fuel, rfl⟩ : ∃ n, fuel = n + 1 := ⟨fuel - 1, by omega⟩
    obtain ⟨b, t, rfl⟩ := exists_cons_of_ne_nil hNe
    have hNot : ¬b = ']'.toUInt8 := by simpa using hHead
    have hRead := hParse (u ++ ']'.toUInt8 :: rest)
    -- the hyphen of a range does not follow
    have hNoRange : ¬((u ++ ']'.toUInt8 :: rest).head? = some '-'.toUInt8 ∧
        (u ++ ']'.toUInt8 :: rest)[1]? ≠ some ']'.toUInt8) := by
      rintro ⟨hFirst, hSecond⟩
      cases u with
      | nil =>
        rw [nil_append, head?_cons] at hFirst
        exact absurd hFirst (by decide)
      | cons d u =>
        rw [hHyphen (by simpa using hFirst)] at hSecond
        exact hSecond rfl
    simp only [append_assoc, cons_append] at hRead ⊢
    rw [classLoop, if_neg hNot, hRead]
    simp only [bind_eq_bind, bind_some]
    rw [if_neg hNoRange, ih (by simp only [length_append, length_cons] at hFuel; omega)
      _ (by rw [length_append]; omega), classType_append hStart]
    simp [classElements]
  | @range low high items t t' u hLow hHead hHigh hHead' _ ih =>
    obtain ⟨hNe, hParse⟩ := hLow
    obtain ⟨hNe', hParse'⟩ := hHigh
    obtain ⟨fuel, rfl⟩ : ∃ n, fuel = n + 1 := ⟨fuel - 1, by omega⟩
    obtain ⟨b, t, rfl⟩ := exists_cons_of_ne_nil hNe
    obtain ⟨b', t', rfl⟩ := exists_cons_of_ne_nil hNe'
    have hNot : ¬b = ']'.toUInt8 := by simpa using hHead
    have hNot' : ¬b' = ']'.toUInt8 := by simpa using hHead'
    have hRead := hParse ('-'.toUInt8 :: b' :: (t' ++ (u ++ ']'.toUInt8 :: rest)))
    have hRead' := hParse' (u ++ ']'.toUInt8 :: rest)
    simp only [bytes_hyphen, append_assoc, cons_append, nil_append] at hRead hRead' ⊢
    rw [classLoop, if_neg hNot, hRead]
    simp only [bind_eq_bind, bind_some]
    rw [if_pos ⟨rfl, by simpa using hNot'⟩, tail_cons, hRead']
    simp only [bind_some]
    rw [ih (by simp only [bytes_hyphen, length_append, length_cons] at hFuel; omega) _
      (by simp only [length_append]; omega), classType_append (by rw [length_append]; omega)]
    simp [classElements]

theorem span_append {α : Type} {f : α → Bool} {l rest : List α} (h : ∀ c ∈ l, f c = true)
    (hRest : ∀ d, rest.head? = some d → f d = false) :
    (l ++ rest).takeWhile f = l ∧ (l ++ rest).dropWhile f = rest := by
  rw [takeWhile_append_of_pos h, dropWhile_append_of_pos h]
  cases rest with
  | nil => simp
  | cons d rest =>
    have hStop : ¬f d = true := by simp [hRest d rfl]
    rw [takeWhile_cons_of_neg hStop, dropWhile_cons_of_neg hStop]
    simp

theorem parseName_word {name : List UInt8} (hName : name ≠ [])
    (hWord : ∀ c ∈ name, isWordChar c = true)
    (hRest : ∀ d, rest.head? = some d → isWordChar d = false) :
    parseName (name ++ rest) = some (name, rest) := by
  obtain ⟨hTake, hDrop⟩ := span_append hWord hRest
  rw [parseName, hTake, hDrop, if_neg hName]

variable {n : Nat} {digits : List UInt8}

theorem decimalFrom_digit (fuel n : Nat) : ∀ c ∈ decimalFrom fuel n, isDigitChar c = true := by
  induction fuel generalizing n with
  | zero => exact fun c hc => absurd hc not_mem_nil
  | succ fuel ih =>
    intro c hc
    have hDigit : ∀ d < 10, isDigitChar (0x30 + d).toUInt8 = true := by decide
    rw [decimalFrom] at hc
    split at hc
    next hSmall =>
      rw [mem_singleton.mp hc]
      exact hDigit n hSmall
    next =>
      cases mem_append.mp hc with
      | inl hBefore => exact ih _ c hBefore
      | inr hLast =>
        rw [mem_singleton.mp hLast]
        exact hDigit (n % 10) (by omega)

theorem parseInt_digits (h : SpellsNat n digits)
    (hRest : ∀ d, rest.head? = some d → isDigitChar d = false) :
    parseInt (digits ++ rest) = some (n, rest) := by
  obtain ⟨hNe, hDigits, hValue⟩ := h
  obtain ⟨hTake, hDrop⟩ := span_append hDigits hRest
  rw [parseInt, hTake, hDrop, if_neg hNe, hValue, map_some]

theorem not_digit_of_blank (h : Blank nested c) : isDigitChar c = false := by
  rcases h with rfl | rfl | ⟨-, rfl | rfl⟩ <;> decide

theorem solid_of_digit (h : isDigitChar c = true) : Solid c :=
  solid_of_word (by simp [isWordChar, h])

/-- A number ends where blanks follow, up to a byte that is no digit. -/
theorem parseInt_blanks
    (h : SpellsNat n digits) (hSp : Blanks nested sp) (hEnd : isDigitChar c = false) :
    parseInt (digits ++ (sp ++ c :: rest)) = some (n, sp ++ c :: rest) := by
  apply parseInt_digits h
  intro d hHead
  cases sp with
  | nil =>
    have hEq : c = d := by simpa using hHead
    rw [← hEq]
    exact hEnd
  | cons b sp =>
    have hEq : b = d := by simpa using hHead
    rw [← hEq]
    exact not_digit_of_blank (hSp b mem_cons_self)

variable {sp₂ sp₃ ds : List UInt8}

theorem parseBounds_exactly
    (hNat : SpellsNat n ds) (h₂ : Blanks nested sp₂) (h₃ : Blanks nested sp₃)
    (hStops : Stops nested rest) :
    parseBounds (ds ++ (sp₂ ++ '}'.toUInt8 :: (sp₃ ++ rest))) nested = some (n, some n, rest) := by
  rw [parseBounds, parseInt_blanks hNat h₂ (by decide)]
  simp only [bind_eq_bind, bind_some]
  rw [Stops.behind h₂ (stops_solid (by decide) _)]
  show (if _ then _ else _) = _
  rw [if_pos rfl, hStops.behind h₃]

variable {m : Nat} {sp₄ : List UInt8}

theorem parseBounds_atLeast
    (hNat : SpellsNat m ds) (h₂ : Blanks nested sp₂) (h₃ : Blanks nested sp₃)
    (h₄ : Blanks nested sp₄) (hStops : Stops nested rest) :
    parseBounds (ds ++ (sp₂ ++ ','.toUInt8 :: (sp₃ ++ '}'.toUInt8 :: (sp₄ ++ rest)))) nested =
      some (m, none, rest) := by
  rw [parseBounds, parseInt_blanks hNat h₂ (by decide)]
  simp only [bind_eq_bind, bind_some]
  rw [Stops.behind h₂ (stops_solid (by decide) _)]
  show (if _ then _ else _) = _
  rw [if_neg (by decide), if_pos rfl, Stops.behind h₃ (stops_solid (by decide) _)]
  show (if isDigitChar '}'.toUInt8 = true then _ else _) = _
  rw [if_neg (by decide)]
  show (if _ then _ else _) = _
  rw [if_pos rfl, hStops.behind h₄]

theorem parseBounds_between {sp₅ ds' : List UInt8}
    (hMin : SpellsNat m ds) (h₂ : Blanks nested sp₂) (h₃ : Blanks nested sp₃)
    (hMax : SpellsNat n ds') (h₄ : Blanks nested sp₄) (h₅ : Blanks nested sp₅)
    (hStops : Stops nested rest) :
    parseBounds (ds ++ (sp₂ ++ ','.toUInt8 :: (sp₃ ++ (ds' ++ (sp₄ ++ '}'.toUInt8 :: (sp₅ ++ rest))))))
      nested = some (m, some n, rest) := by
  obtain ⟨d, ds', rfl⟩ := exists_cons_of_ne_nil hMax.1
  have hDigit : isDigitChar d = true := hMax.2.1 d mem_cons_self
  rw [parseBounds, parseInt_blanks hMin h₂ (by decide)]
  simp only [bind_eq_bind, bind_some]
  rw [Stops.behind h₂ (stops_solid (by decide) _)]
  show (if _ then _ else _) = _
  rw [Stops.behind h₃ (by
    exact stops_solid (solid_of_digit hDigit) _)]
  show (if isDigitChar d = true then _ else _) = _
  rw [if_pos hDigit, parseInt_blanks hMax h₄ (by decide), map_some]
  simp only [bind_some]
  rw [Stops.behind h₄ (stops_solid (by decide) _)]
  show (if _ then _ else _) = _
  rw [if_pos rfl, hStops.behind h₅]

end GbnfExpr

end Beellama.Ports
