import Beellama.Ports.GrammarLang
import Beellama.Ports.GrammarText
import Mathlib.Computability.Language

/-!
# The languages of expressions and of the rules made of them

`GbnfExpr.Generates` is the language of an expression whose references are other expressions; what
the recogniser derives from a rule is the language of its alternates (`ruleLang_eq`).  `Compiled`
relates an expression to symbols that stand for it.  When every named rule stands for its expression,
both sides have the same language (`derivable_iff_generates`).
-/

namespace Beellama.Ports

open GrammarParser Grammar List Option

/-! ## Expressions -/

/-- The characters of a member of a class. -/
def ClassItem.Contains (item : ClassItem) (c : Nat) : Prop :=
  match item.high with
  | none => c = item.low
  | some high => item.low ≤ c ∧ c ≤ high

variable {e : GbnfExpr} {n : Option Nat} {w : List Nat}

namespace GbnfExpr

/-- The language of an expression; the definitions are those of the references. -/
inductive Generates (defs : List UInt8 → Option GbnfExpr) : GbnfExpr → List Nat → Prop
  | literal {chars : List Nat} : Generates defs (.literal chars) chars
  | charClass {negated : Bool} {items : List ClassItem} {c : Nat}
      (hClass : (∃ item ∈ items, item.Contains c) ↔ negated = false) :
      Generates defs (.charClass negated items) [c]
  | any {c : Nat} : Generates defs .any [c]
  | ref {name : List UInt8} {e : GbnfExpr} {w : List Nat} (hDef : defs name = some e)
      (hBody : Generates defs e w) : Generates defs (.ref name) w
  | group {e : GbnfExpr} {w : List Nat} (hBody : Generates defs e w) :
      Generates defs (.group e) w
  | empty : Generates defs .empty []
  | seq {e f : GbnfExpr} {u v : List Nat} (hFirst : Generates defs e u)
      (hNext : Generates defs f v) : Generates defs (.seq e f) (u ++ v)
  | altLeft {e f : GbnfExpr} {w : List Nat} (hLeft : Generates defs e w) :
      Generates defs (.alt e f) w
  | altRight {e f : GbnfExpr} {w : List Nat} (hRight : Generates defs f w) :
      Generates defs (.alt e f) w
  | repetition {e : GbnfExpr} {m : Nat} {n : Option Nat} {ws : List (List Nat)}
      (hMin : m ≤ ws.length) (hMax : ∀ b ∈ n, ws.length ≤ b)
      (hTimes : ∀ w ∈ ws, Generates defs e w) : Generates defs (.repetition e m n) ws.flatten

/-- The language of an expression as a set. -/
def lang (defs : List UInt8 → Option GbnfExpr) (e : GbnfExpr) : Language Nat :=
  {w | Generates defs e w}

variable {defs : List UInt8 → Option GbnfExpr}

theorem generates_repetition {m : Nat} :
    Generates defs (.repetition e m n) w ↔
      ∃ k, m ≤ k ∧ (∀ b ∈ n, k ≤ b) ∧ w ∈ lang defs e ^ k := by
  constructor
  · intro h
    cases h with
    | @repetition _ _ _ ws hMin hMax hTimes =>
      exact ⟨ws.length, hMin, hMax, Language.mem_pow.mpr ⟨ws, rfl, rfl, hTimes⟩⟩
  intro h
  obtain ⟨k, hMin, hMax, hPow⟩ := h
  obtain ⟨ws, rfl, rfl, hTimes⟩ := Language.mem_pow.mp hPow
  exact Generates.repetition hMin hMax hTimes

end GbnfExpr

/-! ## Symbols -/

/-- A symbol of an alternate. -/
inductive GrammarSym
  | charClass (negated : Bool) (item : ClassItem) (items : List ClassItem)
  | any
  | ref (id : Nat)
  deriving DecidableEq, Repr

namespace GrammarSym

/-- The elements of a symbol. -/
def elements : GrammarSym → List GrammarElement
  | charClass negated item items =>
    GbnfExpr.classElements (if negated then .charNot else .char) (item :: items)
  | any => [⟨.charAny, 0⟩]
  | ref id => [⟨.ruleRef, id⟩]

/-- A single character. -/
def char (c : Nat) : GrammarSym := charClass false ⟨c, none⟩ []

/-- The language of a symbol, for languages of the rules. -/
def lang (L : Nat → Language Nat) : GrammarSym → Language Nat
  | charClass negated item items =>
    {w | ∃ c, w = [c] ∧ ((∃ i ∈ item :: items, i.Contains c) ↔ negated = false)}
  | any => {w | ∃ c, w = [c]}
  | ref id => L id

end GrammarSym

variable {L : Nat → Language Nat}

namespace Grammar

/-- The elements of symbols. -/
def encode (syms : List GrammarSym) : List GrammarElement := syms.flatMap GrammarSym.elements

/-- The elements of alternates. -/
def encodeAlts : List (List GrammarSym) → List GrammarElement
  | [] => []
  | [a] => encode a
  | a :: b :: alts => encode a ++ ⟨.alt, 0⟩ :: encodeAlts (b :: alts)

/-- A rule is made of alternates. -/
def RuleIs (rules : GrammarRules) (r : Nat) (alts : List (List GrammarSym)) : Prop :=
  alts ≠ [] ∧ rules.getD r [] = encodeAlts alts ++ [endElement]

/-- The language of symbols one after the other. -/
def seqLang (L : Nat → Language Nat) (syms : List GrammarSym) : Language Nat :=
  (syms.map (GrammarSym.lang L)).prod

/-- The language of alternates. -/
def altLang (L : Nat → Language Nat) (alts : List (List GrammarSym)) : Language Nat :=
  {w | ∃ a ∈ alts, w ∈ seqLang L a}

/-- What is derived from a rule. -/
def ruleLang (rules : GrammarRules) (r : Nat) : Language Nat := {w | Derivable rules r w}

variable {rules : GrammarRules} {p : GrammarPos}

@[simp] theorem encode_nil : encode [] = [] := rfl

theorem encode_cons (sym : GrammarSym) (syms : List GrammarSym) :
    encode (sym :: syms) = sym.elements ++ encode syms := rfl

@[simp] theorem encode_append (a b : List GrammarSym) : encode (a ++ b) = encode a ++ encode b := by
  simp [encode]

theorem encode_flatten (l : List (List GrammarSym)) :
    encode l.flatten = (l.map encode).flatten := by
  induction l with
  | nil => rfl
  | cons a l ih => rw [flatten_cons, encode_append, ih, map_cons, flatten_cons]

theorem encodeAlts_append {alts : List (List GrammarSym)} (h : alts ≠ []) (b : List GrammarSym) :
    encodeAlts (alts ++ [b]) = encodeAlts alts ++ ⟨.alt, 0⟩ :: encode b := by
  induction alts with
  | nil => exact absurd rfl h
  | cons a alts ih =>
    cases alts with
    | nil => rfl
    | cons a' alts =>
      have hRest := ih (cons_ne_nil _ _)
      simp only [cons_append, encodeAlts] at hRest ⊢
      rw [hRest]
      simp

theorem elements_ne_nil (sym : GrammarSym) : sym.elements ≠ [] := by
  cases sym <;> simp [GrammarSym.elements, GbnfExpr.classElements]

variable {syms : List GrammarSym}

theorem encode_eq_nil : encode syms = [] ↔ syms = [] := by
  cases syms with
  | nil => simp
  | cons sym syms => simp [encode_cons, elements_ne_nil]

theorem seqLang_nil (L : Nat → Language Nat) : seqLang L [] = 1 := rfl

theorem seqLang_cons (L : Nat → Language Nat) (sym : GrammarSym) (syms : List GrammarSym) :
    seqLang L (sym :: syms) = sym.lang L * seqLang L syms := by
  simp [seqLang]

theorem seqLang_append (L : Nat → Language Nat) (a b : List GrammarSym) :
    seqLang L (a ++ b) = seqLang L a * seqLang L b := by
  simp [seqLang]

theorem seqLang_replicate (L : Nat → Language Nat) (m : Nat) (a : List GrammarSym) :
    seqLang L (replicate m a).flatten = seqLang L a ^ m := by
  induction m with
  | zero => rfl
  | succ m ih => rw [replicate_succ, flatten_cons, seqLang_append, ih, pow_succ']

theorem seqLang_ref (L : Nat → Language Nat) (r : Nat) : seqLang L [.ref r] = L r := by
  rw [seqLang_cons, seqLang_nil, mul_one]
  rfl

/-! ## Classes of a symbol -/

/-- The item of a class that the recogniser sees in a member. -/
def memberItem (item : ClassItem) : CharItem := .range item.low (item.high.getD item.low)

theorem memberItem_contains (item : ClassItem) (c : Nat) :
    (memberItem item).contains c = true ↔ item.Contains c := by
  obtain ⟨low, high⟩ := item
  cases high with
  | none =>
    simp only [memberItem, getD_none, CharItem.contains, Bool.and_eq_true,
      decide_eq_true_eq, ClassItem.Contains]
    omega
  | some high => simp [memberItem, CharItem.contains, ClassItem.Contains]

theorem classItems_cons (e : GrammarElement) (rest : List GrammarElement) :
    classItems (e :: rest) =
      if (rest.headD endElement).type = .charRngUpper then
        .range e.value (rest.headD endElement).value ::
          if (rest.tail.headD endElement).type = .charAlt then classItems rest.tail else []
      else charItem e :: if (rest.headD endElement).type = .charAlt then classItems rest else [] := by
  cases rest with
  | nil => rfl
  | cons e₁ rest => rfl

theorem classLength_cons (e : GrammarElement) (rest : List GrammarElement) :
    classLength (e :: rest) =
      if (rest.headD endElement).type = .charRngUpper then
        2 + if (rest.tail.headD endElement).type = .charAlt then classLength rest.tail else 0
      else 1 + if (rest.headD endElement).type = .charAlt then classLength rest else 0 := by
  cases rest with
  | nil => rfl
  | cons e₁ rest => rfl

variable {startType : Gretype} {rest : List GrammarElement}

/-- What the recogniser reads of the elements of a class: its members, and all of it. -/
theorem class_elements (hType : startType ≠ .charAny)
    (item : ClassItem) (items : List ClassItem)
    (hRest : (rest.headD endElement).isClassPart = false) :
    classItems (GbnfExpr.classElements startType (item :: items) ++ rest) =
        (item :: items).map memberItem ∧
      classLength (GbnfExpr.classElements startType (item :: items) ++ rest) =
        (GbnfExpr.classElements startType (item :: items)).length := by
  simp only [GrammarElement.isClassPart, decide_eq_false_iff_not, not_or] at hRest
  induction items generalizing startType item with
  | nil =>
    obtain ⟨low, high⟩ := item
    cases high with
    | none =>
      simp only [GbnfExpr.classElements, cons_append, nil_append]
      rw [classItems_cons, classLength_cons, if_neg hRest.2, if_neg hRest.1, if_neg hRest.2,
        if_neg hRest.1]
      simp [charItem, hType, memberItem]
    | some high =>
      simp only [GbnfExpr.classElements, append_nil, cons_append, nil_append]
      rw [classItems_cons, classLength_cons, headD_cons, tail_cons,
        if_neg hRest.1, if_neg hRest.1]
      simp [memberItem]
  | cons item' items ih =>
    obtain ⟨hItems, hLength⟩ := @ih .charAlt (by decide) item'
    obtain ⟨low, high⟩ := item
    have hHead : ∀ l : List GrammarElement,
        ((GbnfExpr.classElements .charAlt (item' :: items) ++ l).headD endElement).type =
          .charAlt := fun _ => rfl
    cases high with
    | none =>
      rw [GbnfExpr.classElements]
      simp only [nil_append, cons_append]
      rw [classItems_cons, classLength_cons, if_neg (by rw [hHead]; decide), if_pos (hHead _),
        if_neg (by rw [hHead]; decide), if_pos (hHead _), hItems]
      refine ⟨by simp [charItem, hType, memberItem], ?_⟩
      rw [length_cons]
      omega
    | some high =>
      rw [GbnfExpr.classElements]
      simp only [nil_append, cons_append]
      rw [classItems_cons, classLength_cons, headD_cons, tail_cons, if_pos rfl,
        if_pos (hHead _), if_pos rfl, if_pos (hHead _), hItems, hLength]
      refine ⟨by simp [memberItem], ?_⟩
      simp only [length_cons]
      omega

/-! ## What is derived from symbols -/

theorem elements_head (sym : GrammarSym) (rest : List GrammarElement) :
    ((sym.elements ++ rest).headD endElement).isClassPart = false ∧
      ((sym.elements ++ rest).headD endElement).isEndOfSequence = false := by
  cases sym with
  | charClass negated item items =>
    cases negated
    · exact ⟨rfl, rfl⟩
    · exact ⟨rfl, rfl⟩
  | any => exact ⟨rfl, rfl⟩
  | ref id => exact ⟨rfl, rfl⟩

theorem not_classPart_of_end {e : GrammarElement} (h : e.isEndOfSequence = true) :
    e.isClassPart = false := by
  obtain ⟨type, value⟩ := e
  cases type <;> first | rfl | cases h

/-- Behind symbols and in front of the end of an alternate no part of a class stands. -/
theorem encode_not_classPart (syms : List GrammarSym)
    (hRest : (rest.headD endElement).isEndOfSequence = true) :
    ((encode syms ++ rest).headD endElement).isClassPart = false := by
  cases syms with
  | nil => exact not_classPart_of_end hRest
  | cons sym syms =>
    rw [encode_cons, append_assoc]
    exact (elements_head sym _).1

theorem derives_char (hHead : (elem rules p).isCharHead = true) :
    Derives rules p w ↔
      ∃ c v, w = c :: v ∧ InClass rules p c ∧ Derives rules (classEnd rules p) v := by
  constructor
  · intro h
    cases h with
    | done hEnd => simp [not_end_of_charHead hHead] at hEnd
    | char _ hClass hRest => exact ⟨_, _, rfl, hClass, hRest⟩
    | ref hRef => exact absurd hRef (not_ref_of_charHead hHead)
  intro h
  obtain ⟨c, v, rfl, hClass, hRest⟩ := h
  exact Derives.char hHead hClass hRest

theorem derives_ref (hRef : (elem rules p).type = .ruleRef) :
    Derives rules p w ↔
      ∃ u ∈ ruleLang rules (elem rules p).value, ∃ v, Derives rules p.succ v ∧ u ++ v = w := by
  constructor
  · intro h
    cases h with
    | done hEnd => simp [not_end_of_ref hRef] at hEnd
    | char hHead => exact absurd hRef (not_ref_of_charHead hHead)
    | ref _ hAlt hBody hRest => exact ⟨_, ⟨_, hAlt, hBody⟩, _, hRest, rfl⟩
  intro h
  obtain ⟨u, ⟨b, hAlt, hBody⟩, v, hRest, rfl⟩ := h
  exact Derives.ref hRef hAlt hBody hRest

/-- The elements at a pointer to symbols. -/
def At (rules : GrammarRules) (p : GrammarPos) (syms : List GrammarSym) : Prop :=
  ∃ rest, suffix rules p = encode syms ++ rest ∧ (rest.headD endElement).isEndOfSequence = true

theorem At.nil (h : At rules p []) : (elem rules p).isEndOfSequence = true := by
  obtain ⟨rest, hSuffix, hRest⟩ := h
  rw [elem, hSuffix]
  exact hRest

/-- A class stands at the pointer, and the other symbols behind it. -/
theorem At.charClass {negated : Bool} {item : ClassItem} {items : List ClassItem}
    (h : At rules p (.charClass negated item items :: syms)) :
    (elem rules p).isCharHead = true ∧
      (∀ c, InClass rules p c ↔ ((∃ i ∈ item :: items, i.Contains c) ↔ negated = false)) ∧
      At rules (classEnd rules p) syms := by
  obtain ⟨rest, hSuffix, hRest⟩ := h
  rw [encode_cons, append_assoc] at hSuffix
  have hNext := encode_not_classPart syms hRest
  have hType : (if negated then Gretype.charNot else .char) ≠ .charAny := by
    cases negated <;> decide
  obtain ⟨hItems, hLength⟩ := class_elements hType item items hNext
  have hElem : elem rules p = ⟨if negated then .charNot else .char, item.low⟩ := by
    rw [elem, hSuffix]
    rfl
  refine ⟨?_, ?_, ?_, ?_⟩
  · rw [hElem]
    cases negated <;> rfl
  · intro c
    have hPositive : (elem rules p).isPositiveChar = true ↔ negated = false := by
      rw [hElem]
      cases negated <;> simp [GrammarElement.isPositiveChar]
    rw [InClass, hPositive, hSuffix, GrammarSym.elements, hItems]
    simp only [List.mem_map, exists_exists_and_eq_and, memberItem_contains]
  · exact rest
  · refine ⟨?_, hRest⟩
    rw [classEnd, suffix_drop, hSuffix, GrammarSym.elements, hLength, drop_left]

theorem At.any (h : At rules p (.any :: syms)) :
    (elem rules p).isCharHead = true ∧ (∀ c, InClass rules p c) ∧
      At rules (classEnd rules p) syms := by
  obtain ⟨rest, hSuffix, hRest⟩ := h
  rw [encode_cons] at hSuffix
  have hNext := encode_not_classPart syms hRest
  simp only [GrammarElement.isClassPart, decide_eq_false_iff_not, not_or] at hNext
  have hElem : elem rules p = ⟨.charAny, 0⟩ := by
    rw [elem, hSuffix]
    rfl
  simp only [GrammarSym.elements, cons_append, nil_append] at hSuffix
  refine ⟨?_, ?_, rest, ?_, hRest⟩
  · rw [hElem]
    rfl
  · intro c
    rw [InClass, hElem, hSuffix, classItems_cons, if_neg hNext.2]
    simp [charItem, CharItem.contains, GrammarElement.isPositiveChar]
  · rw [classEnd, suffix_drop, hSuffix, classLength_cons, if_neg hNext.2, if_neg hNext.1]
    rfl

theorem At.ref {id : Nat} (h : At rules p (.ref id :: syms)) :
    elem rules p = ⟨.ruleRef, id⟩ ∧ At rules p.succ syms := by
  obtain ⟨rest, hSuffix, hRest⟩ := h
  refine ⟨by rw [elem, hSuffix]; rfl, rest, ?_, hRest⟩
  rw [GrammarPos.succ, suffix_drop, hSuffix]
  rfl

theorem derives_iff_seqLang (h : At rules p syms) :
    Derives rules p w ↔ w ∈ seqLang (ruleLang rules) syms := by
  induction syms generalizing p w with
  | nil =>
    rw [derives_end h.nil, seqLang_nil, Language.mem_one]
  | cons sym syms ih =>
    cases sym with
    | charClass negated item items =>
      obtain ⟨hHead, hClass, hBehind⟩ := h.charClass
      rw [derives_char hHead]
      constructor
      · intro hDerives
        obtain ⟨c, v, rfl, hIn, hRest⟩ := hDerives
        exact ⟨[c], ⟨c, rfl, (hClass c).mp hIn⟩, v, (ih hBehind).mp hRest, rfl⟩
      intro hProduct
      obtain ⟨_, ⟨c, rfl, hIn⟩, v, hRest, rfl⟩ := hProduct
      exact ⟨c, v, rfl, (hClass c).mpr hIn, (ih hBehind).mpr hRest⟩
    | any =>
      obtain ⟨hHead, hClass, hBehind⟩ := h.any
      rw [derives_char hHead]
      constructor
      · intro hDerives
        obtain ⟨c, v, rfl, _, hRest⟩ := hDerives
        exact ⟨[c], ⟨c, rfl⟩, v, (ih hBehind).mp hRest, rfl⟩
      intro hProduct
      obtain ⟨_, ⟨c, rfl⟩, v, hRest, rfl⟩ := hProduct
      exact ⟨c, v, rfl, hClass c, (ih hBehind).mpr hRest⟩
    | ref id =>
      obtain ⟨hElem, hBehind⟩ := h.ref
      rw [derives_ref (by rw [hElem]), hElem]
      constructor
      · intro hDerives
        obtain ⟨u, hBody, v, hRest, rfl⟩ := hDerives
        exact ⟨u, hBody, v, (ih hBehind).mp hRest, rfl⟩
      intro hProduct
      obtain ⟨u, hBody, v, hRest, rfl⟩ := hProduct
      exact ⟨u, hBody, v, (ih hBehind).mpr hRest, rfl⟩

/-! ## The alternates of a rule -/

theorem classElements_not_end
    (hType : startType = .char ∨ startType = .charNot ∨ startType = .charAlt)
    (items : List ClassItem) :
    ∀ e ∈ GbnfExpr.classElements startType items, e.isEndOfSequence = false := by
  induction items generalizing startType with
  | nil => simp [GbnfExpr.classElements]
  | cons item items ih =>
    intro e hMem
    rcases mem_cons.mp hMem with rfl | hMem
    · rcases hType with rfl | rfl | rfl <;> rfl
    rcases mem_append.mp hMem with hMem | hMem
    · obtain ⟨low, high⟩ := item
      cases high with
      | none => simp at hMem
      | some high =>
        rw [mem_singleton.mp hMem]
        rfl
    · exact ih (Or.inr (Or.inr rfl)) e hMem

theorem encode_not_end {e : GrammarElement} (h : e ∈ encode syms) : e.isEndOfSequence = false := by
  obtain ⟨sym, -, hMem⟩ := mem_flatMap.mp h
  cases sym with
  | charClass negated item items =>
    refine classElements_not_end ?_ _ e hMem
    cases negated
    · exact Or.inl rfl
    · exact Or.inr (Or.inl rfl)
  | any =>
    rw [mem_singleton.mp hMem]
    rfl
  | ref id =>
    rw [mem_singleton.mp hMem]
    rfl

theorem alternatesFrom_append {elems : List GrammarElement}
    (h : ∀ e ∈ elems, e.isEndOfSequence = false) (off : Nat) (rest : List GrammarElement) :
    alternatesFrom off (elems ++ rest) = alternatesFrom (off + elems.length) rest := by
  induction elems generalizing off with
  | nil => rfl
  | cons e elems ih =>
    rw [cons_append, alternatesFrom_cons (h e mem_cons_self),
      ih fun e' hMem => h e' (mem_cons_of_mem _ hMem), length_cons]
    congr 1
    omega

/-- The alternates of a rule stand at the offsets that are scanned for. -/
theorem alternatesFrom_at {r : Nat} {alts : List (List GrammarSym)} (hNe : alts ≠ [])
    {pre : List GrammarElement}
    (hRule : rules.getD r [] = pre ++ (encodeAlts alts ++ [endElement])) :
    (∀ off ∈ pre.length :: alternatesFrom pre.length (encodeAlts alts ++ [endElement]),
      ∃ a ∈ alts, At rules ⟨r, off⟩ a) ∧
    (∀ a ∈ alts, ∃ off ∈ pre.length :: alternatesFrom pre.length (encodeAlts alts ++ [endElement]),
      At rules ⟨r, off⟩ a) := by
  induction alts generalizing pre with
  | nil => exact absurd rfl hNe
  | cons a alts ih =>
    have hHead : ∀ rest, encodeAlts (a :: alts) ++ [endElement] = encode a ++ rest →
        (rest.headD endElement).isEndOfSequence = true → At rules ⟨r, pre.length⟩ a := by
      intro rest hEq hEnd
      refine ⟨rest, ?_, hEnd⟩
      rw [suffix, hRule, drop_left, hEq]
    cases alts with
    | nil =>
      have hAt := hHead [endElement] rfl rfl
      have hNone : alternatesFrom pre.length (encodeAlts [a] ++ [endElement]) = [] := by
        rw [encodeAlts, alternatesFrom_append (fun e => encode_not_end)]
        rfl
      rw [hNone]
      constructor
      · intro off hOff
        rw [mem_singleton.mp hOff]
        exact ⟨a, mem_singleton_self a, hAt⟩
      intro b hMem
      rw [mem_singleton.mp hMem]
      exact ⟨_, mem_singleton_self _, hAt⟩
    | cons b alts =>
      have hSplit : encodeAlts (a :: b :: alts) ++ [endElement] =
          encode a ++ ⟨.alt, 0⟩ :: (encodeAlts (b :: alts) ++ [endElement]) := by
        rw [encodeAlts, append_assoc, cons_append]
      have hAt := hHead _ hSplit rfl
      have hBehind : rules.getD r [] =
          (pre ++ encode a ++ [⟨.alt, 0⟩]) ++ (encodeAlts (b :: alts) ++ [endElement]) := by
        rw [hRule, hSplit]
        simp
      obtain ⟨hOffs, hAlts⟩ := ih (cons_ne_nil b alts) hBehind
      have hLater : alternatesFrom pre.length (encodeAlts (a :: b :: alts) ++ [endElement]) =
          (pre ++ encode a ++ [⟨.alt, 0⟩] : GrammarRule).length ::
            alternatesFrom (pre ++ encode a ++ [⟨.alt, 0⟩] : GrammarRule).length
              (encodeAlts (b :: alts) ++ [endElement]) := by
        rw [hSplit, alternatesFrom_append (fun e => encode_not_end), alternatesFrom]
        simp [Nat.add_assoc]
      rw [hLater]
      constructor
      · intro off hOff
        rcases mem_cons.mp hOff with rfl | hOff
        · exact ⟨a, mem_cons_self, hAt⟩
        · obtain ⟨c, hMem, hAt'⟩ := hOffs off hOff
          exact ⟨c, mem_cons_of_mem a hMem, hAt'⟩
      intro c hMem
      rcases mem_cons.mp hMem with rfl | hMem
      · exact ⟨_, mem_cons_self, hAt⟩
      · obtain ⟨off, hOff, hAt'⟩ := hAlts c hMem
        exact ⟨off, mem_cons_of_mem _ hOff, hAt'⟩

/-- The pointers to the alternates of a rule stand at its symbols, and at all of them. -/
theorem alternates_at {r : Nat} {alts : List (List GrammarSym)} (h : RuleIs rules r alts) :
    (∀ b ∈ alternates rules r, ∃ a ∈ alts, At rules b a) ∧
      ∀ a ∈ alts, ∃ b ∈ alternates rules r, At rules b a := by
  obtain ⟨hNe, hRule⟩ := h
  have hOffs := @alternatesFrom_at rules r alts hNe [] hRule
  rw [← hRule] at hOffs
  constructor
  · intro b hMem
    obtain ⟨off, hOff, rfl⟩ := mem_map.mp hMem
    exact hOffs.1 off hOff
  intro a hMem
  obtain ⟨off, hOff, hAt⟩ := hOffs.2 a hMem
  exact ⟨⟨r, off⟩, mem_map.mpr ⟨off, hOff, rfl⟩, hAt⟩

theorem ruleLang_eq {r : Nat} {alts : List (List GrammarSym)} (h : RuleIs rules r alts) :
    ruleLang rules r = altLang (ruleLang rules) alts := by
  obtain ⟨hOffs, hAlts⟩ := alternates_at h
  ext w
  constructor
  · intro hWord
    obtain ⟨b, hMem, hDerives⟩ := hWord
    obtain ⟨a, hAlt, hAt⟩ := hOffs b hMem
    exact ⟨a, hAlt, (derives_iff_seqLang hAt).mp hDerives⟩
  intro hWord
  obtain ⟨a, hAlt, hSeq⟩ := hWord
  obtain ⟨b, hMem, hAt⟩ := hAlts a hAlt
  exact ⟨b, hMem, (derives_iff_seqLang hAt).mpr hSeq⟩

/-- What is derived at symbols is in their product, for languages of the rules that contain what
their alternates derive. -/
theorem derives_le (hMeant : ∀ r b u, b ∈ alternates rules r →
      (∀ a, At rules b a → u ∈ seqLang L a) → u ∈ L r)
    (h : Derives rules p w) (hAt : At rules p syms) :
    w ∈ seqLang L syms := by
  induction h generalizing syms with
  | @done p hEnd =>
    cases syms with
    | nil => exact Language.nil_mem_one
    | cons sym syms =>
      obtain ⟨rest, hSuffix, -⟩ := hAt
      rw [elem, hSuffix, encode_cons, append_assoc, (elements_head sym _).2] at hEnd
      cases hEnd
  | @char p c w hHead hClass hRest ih =>
    cases syms with
    | nil =>
      have hNot := not_end_of_charHead hHead
      rw [hAt.nil] at hNot
      cases hNot
    | cons sym syms =>
      cases sym with
      | charClass negated item items =>
        obtain ⟨-, hIn, hBehind⟩ := hAt.charClass
        exact ⟨[c], ⟨c, rfl, (hIn c).mp hClass⟩, w, ih hBehind, rfl⟩
      | any =>
        obtain ⟨-, -, hBehind⟩ := hAt.any
        exact ⟨[c], ⟨c, rfl⟩, w, ih hBehind, rfl⟩
      | ref id =>
        obtain ⟨hElem, -⟩ := hAt.ref
        rw [hElem] at hHead
        cases hHead
  | @ref p b u v hRef hAlt hBody hRest ihBody ihRest =>
    cases syms with
    | nil =>
      have hNot := not_end_of_ref hRef
      rw [hAt.nil] at hNot
      cases hNot
    | cons sym syms =>
      rw [seqLang_cons]
      cases sym with
      | charClass negated item items =>
        obtain ⟨hHead, -, -⟩ := hAt.charClass
        exact absurd hRef (not_ref_of_charHead hHead)
      | any =>
        obtain ⟨hHead, -, -⟩ := hAt.any
        exact absurd hRef (not_ref_of_charHead hHead)
      | ref id =>
        obtain ⟨hElem, hBehind⟩ := hAt.ref
        rw [hElem] at hAlt
        exact ⟨u, hMeant id b u hAlt fun a => ihBody, v, ihRest hBehind, rfl⟩

end Grammar

/-! ## Rules made of an expression -/

namespace GrammarParser

/-- The symbols whose names the parser has made up. -/
def Generated (p : GrammarParser) (r : Nat) : Prop :=
  ∃ name, (name, r) ∈ p.symbolIds ∧ '_'.toUInt8 ∈ name

/-- Behind the copies of a repetition: a chain of rules for at most `n` more, without a maximum a
rule that refers to itself. -/
inductive RepeatTail (p : GrammarParser) (a : List GrammarSym) :
    Option Nat → List GrammarSym → Prop
  | unbounded {r : Nat} (hGenerated : p.Generated r)
      (hRule : RuleIs p.rules r [a ++ [.ref r], []]) : RepeatTail p a none [.ref r]
  | zero : RepeatTail p a (some 0) []
  | succ {n r : Nat} {tail : List GrammarSym} (hTail : RepeatTail p a (some n) tail)
      (hGenerated : p.Generated r) (hRule : RuleIs p.rules r [a ++ tail, []]) :
      RepeatTail p a (some (n + 1)) [.ref r]

/-- Alternates that stand for an expression. -/
inductive Compiled (p : GrammarParser) : GbnfExpr → List (List GrammarSym) → Prop
  | literal {chars : List Nat} : Compiled p (.literal chars) [chars.map GrammarSym.char]
  | charClass {negated : Bool} {item : ClassItem} {items : List ClassItem} :
      Compiled p (.charClass negated (item :: items)) [[.charClass negated item items]]
  | any : Compiled p .any [[.any]]
  | ref {name : List UInt8} {r : Nat} (hName : '_'.toUInt8 ∉ name)
      (hId : p.symbolIds.lookup name = some r) : Compiled p (.ref name) [[.ref r]]
  | group {e : GbnfExpr} {r : Nat} {alts : List (List GrammarSym)} (hGenerated : p.Generated r)
      (hRule : RuleIs p.rules r alts) (hBody : Compiled p e alts) :
      Compiled p (.group e) [[.ref r]]
  | empty : Compiled p .empty [[]]
  | seq {e f : GbnfExpr} {a b : List GrammarSym} (hFirst : Compiled p e [a])
      (hNext : Compiled p f [b]) : Compiled p (.seq e f) [a ++ b]
  | alt {e f : GbnfExpr} {alts : List (List GrammarSym)} {b : List GrammarSym}
      (hFirst : Compiled p e alts) (hNext : Compiled p f [b]) :
      Compiled p (.alt e f) (alts ++ [b])
  | repetition {e : GbnfExpr} {m : Nat} {n : Option Nat} {a tail : List GrammarSym}
      (hBody : Compiled p e [a]) (hMin : ∀ b ∈ n, m ≤ b)
      (hTail : RepeatTail p a (n.map (· - m)) tail) :
      Compiled p (.repetition e m n) [(List.replicate m a).flatten ++ tail]

/-- Every named rule stands for the definition of its name. -/
def Realises (p : GrammarParser) (defs : List UInt8 → Option GbnfExpr) : Prop :=
  ∀ name r, '_'.toUInt8 ∉ name → p.symbolIds.lookup name = some r →
    ∃ e alts, defs name = some e ∧ RuleIs p.rules r alts ∧ Compiled p e alts

variable {p : GrammarParser} {defs : List UInt8 → Option GbnfExpr}

/-! ## The rules derive what the expression generates -/

variable {a : List GrammarSym}

theorem mem_altLang_single : w ∈ altLang L [a] ↔ w ∈ seqLang L a := by
  constructor
  · intro h
    obtain ⟨b, hMem, hWord⟩ := h
    rwa [mem_singleton.mp hMem] at hWord
  · intro h
    exact ⟨a, mem_singleton_self a, h⟩

variable {tail : List GrammarSym}

/-- The alternates of a rule behind a copy: one more copy and the tail, or nothing. -/
theorem mem_altLang_tail :
    w ∈ altLang L [a ++ tail, []] ↔ w ∈ seqLang L a * seqLang L tail ∨ w = [] := by
  rw [← seqLang_append, ← Language.mem_one]
  constructor
  · intro h
    obtain ⟨b, hMem, hWord⟩ := h
    rcases mem_cons.mp hMem with rfl | hMem
    · exact Or.inl hWord
    · rw [mem_singleton.mp hMem] at hWord
      exact Or.inr hWord
  rintro (hWord | hWord)
  · exact ⟨_, mem_cons_self, hWord⟩
  · exact ⟨[], by simp, hWord⟩

/-- A chain of rules derives any admissible number of copies. -/
theorem RepeatTail.derives (h : RepeatTail p a n tail) {k : Nat} (hMax : ∀ b ∈ n, k ≤ b)
    (hWord : w ∈ seqLang (ruleLang p.rules) a ^ k) : w ∈ seqLang (ruleLang p.rules) tail := by
  induction k generalizing n tail w with
  | zero =>
    subst hWord
    cases h with
    | zero => exact Language.nil_mem_one
    | unbounded hGenerated hRule =>
      rw [seqLang_ref, ruleLang_eq hRule, mem_altLang_tail]
      exact Or.inr rfl
    | succ hTail hGenerated hRule =>
      rw [seqLang_ref, ruleLang_eq hRule, mem_altLang_tail]
      exact Or.inr rfl
  | succ k ih =>
    rw [pow_succ'] at hWord
    obtain ⟨u, hCopy, v, hRest, rfl⟩ := hWord
    cases h with
    | zero =>
      have hLe := hMax 0 rfl
      omega
    | unbounded hGenerated hRule =>
      have hTail := ih (RepeatTail.unbounded hGenerated hRule) (fun b hb => nomatch hb) hRest
      rw [seqLang_ref, ruleLang_eq hRule, mem_altLang_tail]
      exact Or.inl (Language.append_mem_mul hCopy hTail)
    | @succ n _ _ hTail hGenerated hRule =>
      have hLe := hMax (n + 1) rfl
      have hBehind := ih hTail (fun b hb => by
        obtain rfl : n = b := by simpa using hb
        omega) hRest
      rw [seqLang_ref, ruleLang_eq hRule, mem_altLang_tail]
      exact Or.inl (Language.append_mem_mul hCopy hBehind)

variable (hReal : p.Realises defs)

include hReal

/-- What an expression generates is derived from the symbols that stand for it. -/
theorem Compiled.derives (hWord : e.Generates defs w) {alts : List (List GrammarSym)}
    (h : Compiled p e alts) :
    w ∈ altLang (ruleLang p.rules) alts := by
  induction hWord generalizing alts with
  | @literal chars =>
    cases h
    rw [mem_altLang_single]
    induction chars with
    | nil => exact Language.nil_mem_one
    | cons c chars ih =>
      refine ⟨[c], ⟨c, rfl, ?_⟩, chars, ih, rfl⟩
      simp [ClassItem.Contains]
  | @charClass negated items c hClass =>
    cases h
    rw [mem_altLang_single, seqLang_cons, seqLang_nil, mul_one]
    exact ⟨c, rfl, hClass⟩
  | @any c =>
    cases h
    rw [mem_altLang_single, seqLang_cons, seqLang_nil, mul_one]
    exact ⟨c, rfl⟩
  | @ref name e w hDef hBody ih =>
    cases h with
    | ref hName hId =>
      obtain ⟨e', alts, hDef', hRule, hCompiled⟩ := hReal name _ hName hId
      obtain rfl : e = e' := by
        rw [hDef] at hDef'
        exact some.inj hDef'
      rw [mem_altLang_single, seqLang_ref, ruleLang_eq hRule]
      exact ih hCompiled
  | group hBody ih =>
    cases h with
    | group hGenerated hRule hCompiled =>
      rw [mem_altLang_single, seqLang_ref, ruleLang_eq hRule]
      exact ih hCompiled
  | empty =>
    cases h
    rw [mem_altLang_single]
    exact Language.nil_mem_one
  | seq hFirst hNext ihFirst ihNext =>
    cases h with
    | seq hCompiled hCompiled' =>
      rw [mem_altLang_single, seqLang_append]
      exact Language.append_mem_mul (mem_altLang_single.mp (ihFirst hCompiled))
        (mem_altLang_single.mp (ihNext hCompiled'))
  | altLeft hLeft ih =>
    cases h with
    | alt hCompiled hCompiled' =>
      obtain ⟨a, hMem, hSeq⟩ := ih hCompiled
      exact ⟨a, mem_append_left _ hMem, hSeq⟩
  | altRight hRight ih =>
    cases h with
    | alt hCompiled hCompiled' =>
      exact ⟨_, mem_append_right _ (mem_singleton_self _),
        mem_altLang_single.mp (ih hCompiled')⟩
  | @repetition e m n ws hMin hMax hTimes ih =>
    cases h with
    | @repetition _ _ _ a tail hBody hBounds hTail =>
      have hPow : ws.flatten ∈ seqLang (ruleLang p.rules) a ^ ws.length :=
        Language.mem_pow.mpr ⟨ws, rfl, rfl, fun w hMem => mem_altLang_single.mp (ih w hMem hBody)⟩
      rw [mem_altLang_single, seqLang_append, seqLang_replicate]
      rw [show ws.length = m + (ws.length - m) by omega, pow_add] at hPow
      obtain ⟨u, hCopies, v, hRest, hEq⟩ := hPow
      rw [← hEq]
      refine Language.append_mem_mul hCopies (hTail.derives ?_ hRest)
      intro b hb
      obtain ⟨n', hn', rfl⟩ := map_eq_some_iff.mp hb
      have hLe := hMax n' hn'
      omega

/-! ## The expression generates what the rules derive -/

/-- What a rule is meant for. -/
inductive Implements (p : GrammarParser) : Nat → GbnfExpr → Prop
  | body {r : Nat} {e : GbnfExpr} {alts : List (List GrammarSym)} (hRule : RuleIs p.rules r alts)
      (hCompiled : Compiled p e alts) : Implements p r e
  | tail {r : Nat} {e : GbnfExpr} {a : List GrammarSym} {n : Option Nat}
      (hBody : Compiled p e [a]) (hTail : RepeatTail p a n [.ref r]) :
      Implements p r (.repetition e 0 n)

/-- The strings that all expressions generate that a rule is meant for. -/
def intended (p : GrammarParser) (defs : List UInt8 → Option GbnfExpr) (r : Nat) : Language Nat :=
  {w | ∀ e, Implements p r e → e.Generates defs w}

omit hReal in
theorem RepeatTail.generates (h : RepeatTail p a n tail) (hBody : Compiled p e [a])
    (hWord : w ∈ seqLang (p.intended defs) tail) : (GbnfExpr.repetition e 0 n).Generates defs w := by
  cases h with
  | zero =>
    subst hWord
    exact GbnfExpr.generates_repetition.mpr ⟨0, le_rfl, by simp, Language.nil_mem_one⟩
  | unbounded hGenerated hRule =>
    rw [seqLang_ref] at hWord
    exact hWord _ (Implements.tail hBody (RepeatTail.unbounded hGenerated hRule))
  | succ hTail hGenerated hRule =>
    rw [seqLang_ref] at hWord
    exact hWord _ (Implements.tail hBody (RepeatTail.succ hTail hGenerated hRule))

theorem Compiled.generates {alts : List (List GrammarSym)} (h : Compiled p e alts)
    (hWord : w ∈ altLang (p.intended defs) alts) : e.Generates defs w := by
  induction h generalizing w with
  | @literal chars =>
    rw [mem_altLang_single] at hWord
    obtain rfl : w = chars := by
      induction chars generalizing w with
      | nil => exact hWord
      | cons c chars ih =>
        obtain ⟨_, ⟨c', rfl, hIn⟩, v, hRest, rfl⟩ := hWord
        have hChar : c' = c := by simpa [ClassItem.Contains] using hIn
        rw [hChar, ih hRest]
        rfl
    exact GbnfExpr.Generates.literal
  | charClass =>
    rw [mem_altLang_single, seqLang_cons, seqLang_nil, mul_one] at hWord
    obtain ⟨c, rfl, hIn⟩ := hWord
    exact GbnfExpr.Generates.charClass hIn
  | any =>
    rw [mem_altLang_single, seqLang_cons, seqLang_nil, mul_one] at hWord
    obtain ⟨c, rfl⟩ := hWord
    exact GbnfExpr.Generates.any
  | ref hName hId =>
    obtain ⟨e, alts, hDef, hRule, hCompiled⟩ := hReal _ _ hName hId
    rw [mem_altLang_single, seqLang_ref] at hWord
    exact GbnfExpr.Generates.ref hDef (hWord e (Implements.body hRule hCompiled))
  | group hGenerated hRule hBody ih =>
    rw [mem_altLang_single, seqLang_ref] at hWord
    exact GbnfExpr.Generates.group (hWord _ (Implements.body hRule hBody))
  | empty =>
    rw [mem_altLang_single, seqLang_nil] at hWord
    subst hWord
    exact GbnfExpr.Generates.empty
  | seq hFirst hNext ihFirst ihNext =>
    rw [mem_altLang_single, seqLang_append] at hWord
    obtain ⟨u, hu, v, hv, rfl⟩ := hWord
    exact GbnfExpr.Generates.seq (ihFirst (mem_altLang_single.mpr hu))
      (ihNext (mem_altLang_single.mpr hv))
  | alt hFirst hNext ihFirst ihNext =>
    obtain ⟨a, hMem, hSeq⟩ := hWord
    rcases mem_append.mp hMem with hMem | hMem
    · exact GbnfExpr.Generates.altLeft (ihFirst ⟨a, hMem, hSeq⟩)
    · rw [mem_singleton.mp hMem] at hSeq
      exact GbnfExpr.Generates.altRight (ihNext (mem_altLang_single.mpr hSeq))
  | @repetition e m n a tail hBody hMin hTail ih =>
    rw [mem_altLang_single, seqLang_append, seqLang_replicate, Language.mem_mul] at hWord
    obtain ⟨u, hCopies, v, hRest, rfl⟩ := hWord
    obtain ⟨ws, rfl, rfl, hCopy⟩ := Language.mem_pow.mp hCopies
    obtain ⟨k, -, hMax, hPow⟩ := GbnfExpr.generates_repetition.mp (hTail.generates hBody hRest)
    refine GbnfExpr.generates_repetition.mpr ⟨ws.length + k, by omega, ?_, ?_⟩
    · intro b hb
      have hLe := hMax (b - ws.length) (map_eq_some_iff.mpr ⟨b, hb, rfl⟩)
      have hLower := hMin b hb
      omega
    rw [pow_add]
    refine Language.append_mem_mul (Language.mem_pow.mpr ⟨ws, rfl, rfl, fun x hx => ?_⟩) hPow
    exact ih (mem_altLang_single.mpr (hCopy x hx))

theorem Implements.generates {r : Nat}
    (h : Implements p r e) {b : GrammarPos} (hAlt : b ∈ alternates p.rules r) {u : List Nat}
    (hWord : ∀ a, At p.rules b a → u ∈ seqLang (p.intended defs) a) : e.Generates defs u := by
  -- a chain of rules goes on with one more copy and the rest of the chain, or ends
  have hChain : ∀ {e : GbnfExpr} {a tail : List GrammarSym} {n k : Option Nat},
      Compiled p e [a] → RepeatTail p a n tail → RuleIs p.rules r [a ++ tail, []] →
      (∀ x, (∀ b ∈ n, x ≤ b) → ∀ b ∈ k, x + 1 ≤ b) →
      (GbnfExpr.repetition e 0 k).Generates defs u := by
    intro e a tail n k hBody hTail hRule hMore
    obtain ⟨c, hMem, hAt⟩ := (alternates_at hRule).1 b hAlt
    rcases mem_altLang_tail.mp ⟨c, hMem, hWord c hAt⟩ with hSplit | rfl
    · obtain ⟨x, hCopy, y, hRest, rfl⟩ := Language.mem_mul.mp hSplit
      obtain ⟨j, -, hMax, hPow⟩ := GbnfExpr.generates_repetition.mp (hTail.generates hBody hRest)
      refine GbnfExpr.generates_repetition.mpr ⟨j + 1, Nat.zero_le _, hMore j hMax, ?_⟩
      rw [pow_succ']
      exact Language.append_mem_mul (hBody.generates hReal (mem_altLang_single.mpr hCopy)) hPow
    · exact GbnfExpr.generates_repetition.mpr
        ⟨0, le_rfl, fun b _ => Nat.zero_le b, Language.nil_mem_one⟩
  cases h with
  | body hRule hCompiled =>
    obtain ⟨a, hMem, hAt⟩ := (alternates_at hRule).1 b hAlt
    exact hCompiled.generates hReal ⟨a, hMem, hWord a hAt⟩
  | tail hBody hTail =>
    cases hTail with
    | unbounded hGenerated hRule =>
      exact hChain hBody (RepeatTail.unbounded hGenerated hRule) hRule (by simp)
    | @succ n _ _ hTail hGenerated hRule =>
      refine hChain hBody hTail hRule fun x hx b hb => ?_
      have hLe := hx n rfl
      obtain rfl : n + 1 = b := by simpa using hb
      omega

/-- The rule of a name derives the language of its definition. -/
theorem derivable_iff_generates {r : Nat}
    {alts : List (List GrammarSym)} (hRule : RuleIs p.rules r alts) (hCompiled : Compiled p e alts)
    (w : List Nat) : Derivable p.rules r w ↔ e.Generates defs w := by
  constructor
  · intro h
    obtain ⟨b, hAlt, hDerives⟩ := h
    have hMeant : ∀ r b u, b ∈ alternates p.rules r →
        (∀ a, At p.rules b a → u ∈ seqLang (p.intended defs) a) → u ∈ p.intended defs r :=
      fun r b u hMem hSeq e' hImplements => hImplements.generates hReal hMem hSeq
    refine (Implements.body hRule hCompiled).generates hReal hAlt fun a hAt => ?_
    exact derives_le hMeant hDerives hAt
  intro h
  have hWord : w ∈ ruleLang p.rules r := by
    rw [ruleLang_eq hRule]
    exact hCompiled.derives hReal h
  exact hWord

end GrammarParser

end Beellama.Ports
