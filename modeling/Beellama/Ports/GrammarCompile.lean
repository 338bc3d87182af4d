import Beellama.Ports.GrammarMeaning
import Beellama.Ports.GrammarSpell

/-!
# From the text of a grammar to its rules

The rules that the parser makes up have names that no name of a grammar can be, with an underscore and
their id.  So `compile` only adds rules with new ids (`Step`), and the elements it adds stand for the
expression (`compile_parsed`).  It fails where a repetition is applied to a literal without characters
or to a repetition without repeats.
-/

namespace Beellama.Ports

open GrammarParser Grammar List Option

variable {n : Option Nat} {m : Nat} {alts : List (List GrammarSym)} {e : GbnfExpr}
  {sym : GrammarSym} {s : SequenceState} {p : GrammarParser}

namespace GrammarParser

/-! ## Names -/

/-- The value of decimal digits. -/
def digitsValue (digits : List UInt8) : Nat :=
  digits.foldl (fun value c => value * 10 + (c.toNat - 0x30)) 0

theorem digitsValue_append (digits : List UInt8) (c : UInt8) :
    digitsValue (digits ++ [c]) = digitsValue digits * 10 + (c.toNat - 0x30) := by
  simp [digitsValue]

theorem digit_toNat {n : Nat} (h : n < 10) : (0x30 + n).toUInt8.toNat = 0x30 + n := by
  show (0x30 + n) % 256 = 0x30 + n
  omega

theorem decimalFrom_value {fuel n : Nat} (h : n < fuel) : digitsValue (decimalFrom fuel n) = n := by
  induction fuel generalizing n with
  | zero => omega
  | succ fuel ih =>
    rw [decimalFrom]
    split
    next hSmall =>
      rw [← nil_append [_], digitsValue_append, digit_toNat hSmall]
      show 0 * 10 + (0x30 + n - 0x30) = n
      omega
    next hLarge =>
      rw [digitsValue_append, ih (by omega), digit_toNat (by omega)]
      omega

theorem decimal_injective {n : Nat} (h : decimal m = decimal n) : m = n := by
  have hValue := congrArg digitsValue h
  rwa [decimal, decimal, decimalFrom_value (Nat.lt_succ_self m),
    decimalFrom_value (Nat.lt_succ_self n)] at hValue

/-- The name of a generated symbol. -/
def generatedName (base : List UInt8) (id : Nat) : List UInt8 := base ++ bytes "_" ++ decimal id

theorem underscore_mem_generatedName (base : List UInt8) (id : Nat) :
    '_'.toUInt8 ∈ generatedName base id := by
  simp [generatedName, bytes]

variable {base : List UInt8} {id : Nat}

theorem generatedName_injective {base' : List UInt8} {id' : Nat}
    (hBase : '_'.toUInt8 ∉ base) (hBase' : '_'.toUInt8 ∉ base')
    (h : generatedName base id = generatedName base' id') : id = id' := by
  have hDrop : ∀ {b : List UInt8} (i : Nat), '_'.toUInt8 ∉ b →
      (generatedName b i).dropWhile (· ≠ '_'.toUInt8) = '_'.toUInt8 :: decimal i := by
    intro b i hb
    rw [generatedName, append_assoc,
      dropWhile_append_of_pos (fun c hc => by simpa using ne_of_mem_of_not_mem hc hb)]
    rfl
  have hEq := congrArg (dropWhile (· ≠ '_'.toUInt8)) h
  rw [hDrop id hBase, hDrop id' hBase'] at hEq
  exact decimal_injective (cons.inj hEq).2

variable {name : List UInt8}

theorem underscore_notMem_word (h : ∀ c ∈ name, isWordChar c = true) : '_'.toUInt8 ∉ name := by
  intro hMem
  have hFalse := h _ hMem
  revert hFalse
  decide

/-! ## The symbols and rules of the parser -/

/-- The ids number the symbols, no name is used twice, and names that are not given are made of a
name and their id. -/
structure Tidy (names : List (List UInt8)) (p : GrammarParser) : Prop where
  ids : p.symbolIds.map Prod.snd = List.range p.symbolIds.length
  nodup : (p.symbolIds.map Prod.fst).Nodup
  shape : ∀ name id, (name, id) ∈ p.symbolIds →
    name ∈ names ∨ ∃ base, '_'.toUInt8 ∉ base ∧ name = generatedName base id
  length_le : p.rules.length ≤ p.symbolIds.length
  refs : ∀ r, ∀ e ∈ p.rules.getD r [], e.type = .ruleRef → e.value < p.symbolIds.length

variable {names : List (List UInt8)} {p q : GrammarParser}

theorem Tidy.id_lt (h : Tidy names p) (hMem : (name, id) ∈ p.symbolIds) :
    id < p.symbolIds.length := by
  have hId : id ∈ p.symbolIds.map Prod.snd := mem_map.mpr ⟨_, hMem, rfl⟩
  rwa [h.ids, mem_range] at hId

theorem Tidy.name_unique (h : Tidy names p) {name' : List UInt8}
    (hMem : (name, id) ∈ p.symbolIds) (hMem' : (name', id) ∈ p.symbolIds) : name = name' := by
  have hNodup : (p.symbolIds.map Prod.snd).Nodup := h.ids ▸ nodup_range
  have hEq := inj_on_of_nodup_map hNodup hMem hMem' rfl
  exact congrArg Prod.fst hEq

variable {l : List (List UInt8 × Nat)}

theorem mem_of_lookup (h : l.lookup name = some id) : (name, id) ∈ l := by
  induction l with
  | nil => simp at h
  | cons entry l ih =>
    rw [lookup_cons] at h
    split at h
    next hEq =>
      rw [beq_iff_eq.mp hEq, ← some.inj h]
      exact mem_cons_self
    next => exact mem_cons_of_mem _ (ih h)

theorem lookup_eq_none : l.lookup name = none ↔ ∀ id, (name, id) ∉ l := by
  induction l with
  | nil => simp
  | cons entry l ih =>
    obtain ⟨name', id'⟩ := entry
    rw [lookup_cons]
    split
    next hEq =>
      constructor
      · intro hFalse
        cases hFalse
      intro hNot
      refine absurd ?_ (hNot id')
      rw [beq_iff_eq.mp hEq]
      exact mem_cons_self
    next hNe =>
      rw [ih]
      have hDistinct : name ≠ name' := by simpa using hNe
      simp [hDistinct]

/-- A later state of the parser: generated rules that have elements keep them. -/
structure Extends (p q : GrammarParser) : Prop where
  symbolIds : p.symbolIds <+: q.symbolIds
  rules : ∀ r, p.Generated r → p.rules.getD r [] ≠ [] → q.rules.getD r [] = p.rules.getD r []

variable {r : Nat}

theorem Extends.generated (h : Extends p q) (hGenerated : p.Generated r) : q.Generated r := by
  obtain ⟨name, hMem, hName⟩ := hGenerated
  exact ⟨name, h.symbolIds.subset hMem, hName⟩

theorem Extends.ruleIs (h : Extends p q) (hGenerated : p.Generated r)
    (hRule : RuleIs p.rules r alts) : RuleIs q.rules r alts := by
  refine ⟨hRule.1, ?_⟩
  rw [h.rules r hGenerated (by rw [hRule.2]; simp), hRule.2]

theorem lookup_of_isPrefix {l' : List (List UInt8 × Nat)} (h : l <+: l')
    (hId : l.lookup name = some id) : l'.lookup name = some id := by
  obtain ⟨rest, rfl⟩ := h
  rw [lookup_append, hId]
  rfl

variable {a tail : List GrammarSym}

theorem RepeatTail.mono (h : Extends p q) (hTail : RepeatTail p a n tail) :
    RepeatTail q a n tail := by
  induction hTail with
  | unbounded hGenerated hRule =>
    exact RepeatTail.unbounded (h.generated hGenerated) (h.ruleIs hGenerated hRule)
  | zero => exact RepeatTail.zero
  | succ hTail hGenerated hRule ih =>
    exact RepeatTail.succ ih (h.generated hGenerated) (h.ruleIs hGenerated hRule)

theorem Compiled.mono (h : Extends p q) (hCompiled : Compiled p e alts) : Compiled q e alts := by
  induction hCompiled with
  | literal => exact Compiled.literal
  | charClass => exact Compiled.charClass
  | any => exact Compiled.any
  | ref hName hId => exact Compiled.ref hName (lookup_of_isPrefix h.symbolIds hId)
  | group hGenerated hRule hBody ih =>
    exact Compiled.group (h.generated hGenerated) (h.ruleIs hGenerated hRule) ih
  | empty => exact Compiled.empty
  | seq hFirst hNext ihFirst ihNext => exact Compiled.seq ihFirst ihNext
  | alt hFirst hNext ihFirst ihNext => exact Compiled.alt ihFirst ihNext
  | repetition hBody hMin hTail ih => exact Compiled.repetition ih hMin (hTail.mono h)

theorem Generated.lt (h : Tidy names p) (hGenerated : p.Generated r) : r < p.symbolIds.length := by
  obtain ⟨name, hMem, -⟩ := hGenerated
  exact h.id_lt hMem

theorem RepeatTail.ref_lt (h : Tidy names p)
    (hTail : RepeatTail p a n tail) (hMem : GrammarSym.ref id ∈ tail) :
    id < p.symbolIds.length := by
  cases hTail with
  | zero => simp at hMem
  | unbounded hGenerated hRule | succ hTail hGenerated hRule =>
    obtain rfl : id = _ := by simpa using hMem
    exact hGenerated.lt h

theorem Compiled.ref_lt (h : Tidy names p) (hCompiled : Compiled p e alts) (hAlt : a ∈ alts)
    (hMem : GrammarSym.ref id ∈ a) : id < p.symbolIds.length := by
  induction hCompiled generalizing a with
  | literal =>
    rw [mem_singleton.mp hAlt] at hMem
    simp [GrammarSym.char] at hMem
  | charClass | any | empty =>
    rw [mem_singleton.mp hAlt] at hMem
    simp at hMem
  | ref hName hId =>
    rw [mem_singleton.mp hAlt] at hMem
    obtain rfl : id = _ := by simpa using hMem
    exact h.id_lt (mem_of_lookup hId)
  | group hGenerated hRule hBody ih =>
    rw [mem_singleton.mp hAlt] at hMem
    obtain rfl : id = _ := by simpa using hMem
    exact hGenerated.lt h
  | seq hFirst hNext ihFirst ihNext =>
    rw [mem_singleton.mp hAlt] at hMem
    rcases mem_append.mp hMem with hMem | hMem
    · exact ihFirst (mem_singleton_self _) hMem
    · exact ihNext (mem_singleton_self _) hMem
  | alt hFirst hNext ihFirst ihNext =>
    rcases mem_append.mp hAlt with hAlt | hAlt
    · exact ihFirst hAlt hMem
    · exact ihNext hAlt hMem
  | repetition hBody hMin hTail ih =>
    rw [mem_singleton.mp hAlt] at hMem
    rcases mem_append.mp hMem with hMem | hMem
    · obtain ⟨b, hCopy, hMem⟩ := mem_flatten.mp hMem
      rw [eq_of_mem_replicate hCopy] at hMem
      exact ih (mem_singleton_self _) hMem
    · exact hTail.ref_lt h hMem

variable {e : GrammarElement}

theorem ref_of_mem_elements (hMem : e ∈ sym.elements)
    (hRef : e.type = .ruleRef) : sym = .ref e.value := by
  have hClass : ∀ (items : List ClassItem) (startType : Gretype),
      startType = .char ∨ startType = .charNot ∨ startType = .charAlt →
      e ∈ GbnfExpr.classElements startType items → False := by
    intro items
    induction items with
    | nil => simp [GbnfExpr.classElements]
    | cons item items ih =>
      intro startType hType hMem
      rcases mem_cons.mp hMem with rfl | hMem
      · rcases hType with rfl | rfl | rfl <;> cases hRef
      rcases mem_append.mp hMem with hMem | hMem
      · obtain ⟨low, high⟩ := item
        cases high with
        | none => simp at hMem
        | some high =>
          rw [mem_singleton.mp hMem] at hRef
          cases hRef
      · exact ih .charAlt (Or.inr (Or.inr rfl)) hMem
  cases sym with
  | charClass negated item items =>
    refine absurd hMem (hClass _ _ ?_)
    cases negated
    · exact Or.inl rfl
    · exact Or.inr (Or.inl rfl)
  | any =>
    rw [mem_singleton.mp hMem] at hRef
    cases hRef
  | ref id => rw [mem_singleton.mp hMem]

theorem ref_of_mem_encodeAlts (hMem : e ∈ encodeAlts alts) (hRef : e.type = .ruleRef) :
    ∃ a ∈ alts, GrammarSym.ref e.value ∈ a := by
  have hEncode : ∀ {a : List GrammarSym}, e ∈ encode a → GrammarSym.ref e.value ∈ a := by
    intro a hIn
    obtain ⟨sym, hSym, hElem⟩ := mem_flatMap.mp hIn
    rwa [ref_of_mem_elements hElem hRef] at hSym
  induction alts with
  | nil => simp [encodeAlts] at hMem
  | cons a alts ih =>
    cases alts with
    | nil => exact ⟨a, mem_singleton_self a, hEncode hMem⟩
    | cons b alts =>
      rcases mem_append.mp hMem with hIn | hIn
      · exact ⟨a, mem_cons_self, hEncode hIn⟩
      rcases mem_cons.mp hIn with rfl | hIn
      · cases hRef
      · obtain ⟨c, hAlt, hSym⟩ := ih hIn
        exact ⟨c, mem_cons_of_mem _ hAlt, hSym⟩

/-! ## Steps of the parser -/

/-- When a part of a rule is read, rules that were there stay as they are, and what was made up
since has elements. -/
structure Step (names : List (List UInt8)) (p q : GrammarParser) : Prop where
  tidy : Tidy names q
  symbolIds : p.symbolIds <+: q.symbolIds
  kept : ∀ r < p.symbolIds.length, q.rules.getD r [] = p.rules.getD r []
  complete : ∀ r, p.symbolIds.length ≤ r → q.Generated r → q.rules.getD r [] ≠ []

theorem Step.refl (h : Tidy names p) : Step names p p :=
  ⟨h, prefix_rfl, fun _ _ => rfl, fun _ hLe hGenerated => absurd (hGenerated.lt h) (by omega)⟩

theorem Step.generated_of_lt (h : Step names p q) (hLt : r < p.symbolIds.length)
    (hGenerated : q.Generated r) : p.Generated r := by
  obtain ⟨name, hMem, hName⟩ := hGenerated
  obtain ⟨rest, hEq⟩ := h.symbolIds
  refine ⟨name, ?_, hName⟩
  -- the symbol of an id stands at the id
  obtain ⟨i, hi, hAt⟩ := mem_iff_getElem.mp hMem
  have hId : (q.symbolIds.map Prod.snd)[i]? = some i := by
    rw [h.tidy.ids, getElem?_range hi]
  have hEqId : i = r := by
    rw [getElem?_map, getElem?_eq_getElem hi, hAt] at hId
    exact (some.inj hId).symm
  have hGet : p.symbolIds[i]? = some (name, r) := by
    rw [← getElem?_append_left (show i < p.symbolIds.length by omega), hEq,
      getElem?_eq_getElem hi, hAt]
  exact mem_of_getElem? hGet

theorem Step.length_le (h : Step names p q) : p.symbolIds.length ≤ q.symbolIds.length :=
  h.symbolIds.length_le

theorem Step.trans {q' : GrammarParser} (h : Step names p q) (h' : Step names q q') :
    Step names p q' := by
  have hLe := h.length_le
  refine ⟨h'.tidy, h.symbolIds.trans h'.symbolIds, fun r hr => ?_, fun r hr hGenerated => ?_⟩
  · rw [h'.kept r (by omega), h.kept r hr]
  by_cases hLt : r < q.symbolIds.length
  · rw [h'.kept r hLt]
    exact h.complete r hr (h'.generated_of_lt hLt hGenerated)
  · exact h'.complete r (by omega) hGenerated

theorem Step.extends (hTidy : Tidy names p) (h : Step names p q) : Extends p q :=
  ⟨h.symbolIds, fun r hGenerated _ => h.kept r (hGenerated.lt hTidy)⟩

theorem addRule_getD (p : GrammarParser) (r : Nat) (rule : GrammarRule) (r' : Nat) :
    (p.addRule r rule).rules.getD r' [] = if r' = r then rule else p.rules.getD r' [] := by
  have hLength : r < (p.rules ++ replicate (r + 1 - p.rules.length) []).length := by
    rw [length_append, length_replicate]
    omega
  have hPad : (p.rules ++ replicate (r + 1 - p.rules.length) []).getD r' [] =
      p.rules.getD r' [] := by
    simp only [getD_eq_getElem?_getD]
    by_cases hLt : r' < p.rules.length
    · rw [getElem?_append_left hLt]
    rw [getElem?_append_right (by omega), getElem?_eq_none (l := p.rules) (by omega),
      getElem?_replicate]
    split <;> rfl
  show ((p.rules ++ replicate (r + 1 - p.rules.length) []).set r rule).getD r' [] = _
  rw [getD_eq_getElem?_getD, getElem?_set]
  by_cases hEq : r' = r
  · rw [if_pos hEq.symm, if_pos hEq, if_pos hLength]
    rfl
  · rw [if_neg (Ne.symm hEq), if_neg hEq, ← getD_eq_getElem?_getD, hPad]

theorem addRule_length (rule : GrammarRule) (hLt : r < p.symbolIds.length)
    (hLe : p.rules.length ≤ p.symbolIds.length) :
    (p.addRule r rule).rules.length ≤ p.symbolIds.length := by
  show ((p.rules ++ replicate (r + 1 - p.rules.length) []).set r rule).length ≤ _
  rw [length_set, length_append, length_replicate]
  omega

variable {rule : GrammarRule}

section

variable (h : Tidy names p)

include h

theorem Tidy.addRule (hLt : r < p.symbolIds.length)
    (hRefs : ∀ e ∈ rule, e.type = .ruleRef → e.value < p.symbolIds.length) :
    Tidy names (p.addRule r rule) := by
  refine ⟨h.ids, h.nodup, h.shape, addRule_length rule hLt h.length_le, fun r' e hMem => ?_⟩
  rw [addRule_getD] at hMem
  split at hMem
  · exact hRefs e hMem
  · exact h.refs r' e hMem

theorem Tidy.addSymbol (hNew : ∀ id, (name, id) ∉ p.symbolIds)
    (hShape : name ∈ names ∨ ∃ base, '_'.toUInt8 ∉ base ∧
      name = generatedName base p.symbolIds.length) :
    Tidy names { p with symbolIds := p.symbolIds ++ [(name, p.symbolIds.length)] } := by
  refine ⟨?_, ?_, fun name' id hMem => ?_, ?_, fun r e hMem hRef => ?_⟩
  · simp only [map_append, map_cons, map_nil, length_append,
      length_singleton, h.ids, range_succ]
  · simp only [map_append, map_cons, map_nil]
    rw [nodup_append]
    refine ⟨h.nodup, nodup_singleton _, fun a ha b hb => ?_⟩
    rintro rfl
    obtain ⟨entry, hEntry, rfl⟩ := mem_map.mp ha
    rw [mem_singleton] at hb
    exact hNew entry.2 (hb ▸ hEntry)
  · rcases mem_append.mp hMem with hMem | hMem
    · exact h.shape name' id hMem
    · obtain ⟨rfl, rfl⟩ := Prod.mk.inj (mem_singleton.mp hMem)
      exact hShape
  · have hLe := h.length_le
    simp only [length_append]
    omega
  have hLt := h.refs r e hMem hRef
  simp only [length_append, length_singleton]
  omega

theorem Tidy.getD_of_le (hLe : p.symbolIds.length ≤ r) : p.rules.getD r [] = [] := by
  rw [getD_eq_getElem?_getD, getElem?_eq_none (by
    have hLength := h.length_le
    omega)]
  rfl

variable (hNames : ∀ x ∈ names, '_'.toUInt8 ∉ x)

include hNames

theorem getSymbolId_step (hName : name ∈ names) :
    Step names p (p.getSymbolId name).2 ∧
      (p.getSymbolId name).2.symbolIds.lookup name = some (p.getSymbolId name).1 ∧
      (p.getSymbolId name).2.rules = p.rules := by
  rw [getSymbolId]
  cases hLookup : p.symbolIds.lookup name with
  | some id => exact ⟨Step.refl h, hLookup, rfl⟩
  | none =>
    have hTidy := h.addSymbol (lookup_eq_none.mp hLookup) (Or.inl hName)
    refine ⟨⟨hTidy, prefix_append _ _, fun r _ => rfl, fun r hLe hGenerated => ?_⟩, ?_, rfl⟩
    · have hLt := hGenerated.lt hTidy
      simp only [length_append, length_singleton] at hLt
      obtain rfl : r = p.symbolIds.length := by omega
      obtain ⟨name', hMem, hUnderscore⟩ := hGenerated
      have hEq : name' = name := hTidy.name_unique hMem (by simp)
      exact absurd (hEq ▸ hUnderscore) (hNames name hName)
    · rw [lookup_append, hLookup]
      simp

variable (hBase : '_'.toUInt8 ∉ base)

include hBase

theorem generateSymbolId_spec :
    p.generateSymbolId base = (p.symbolIds.length,
        { p with symbolIds := p.symbolIds ++
          [(generatedName base p.symbolIds.length, p.symbolIds.length)] }) ∧
      Tidy names (p.generateSymbolId base).2 ∧
      (p.generateSymbolId base).2.Generated p.symbolIds.length := by
  have hNew : ∀ id, (generatedName base p.symbolIds.length, id) ∉ p.symbolIds := by
    intro id hMem
    rcases h.shape _ _ hMem with hName | ⟨base', hBase', hEq⟩
    · exact hNames _ hName (underscore_mem_generatedName base _)
    have hId := generatedName_injective hBase hBase' hEq
    have hLt := h.id_lt hMem
    omega
  have hEq : p.generateSymbolId base = (p.symbolIds.length,
      { p with symbolIds := p.symbolIds ++
        [(generatedName base p.symbolIds.length, p.symbolIds.length)] }) := by
    rw [generateSymbolId, setSymbolId, if_neg]
    · rfl
    rw [show base ++ bytes "_" ++ decimal p.symbolIds.length =
      generatedName base p.symbolIds.length from rfl, lookup_eq_none.mpr hNew]
    decide
  refine ⟨hEq, ?_, ?_⟩
  · rw [hEq]
    exact h.addSymbol hNew (Or.inr ⟨base, hBase, rfl⟩)
  · rw [hEq]
    exact ⟨generatedName base p.symbolIds.length, by simp, underscore_mem_generatedName base _⟩

/-- A symbol is made up, and its rule is added when what it refers to is there. -/
theorem generateRule_step {q : GrammarParser}
    (hStep : Step names (p.generateSymbolId base).2 q) (hRule : rule ≠ [])
    (hRefs : ∀ e ∈ rule, e.type = .ruleRef → e.value < q.symbolIds.length) :
    Step names p (q.addRule p.symbolIds.length rule) ∧
      Extends q (q.addRule p.symbolIds.length rule) ∧
      (q.addRule p.symbolIds.length rule).Generated p.symbolIds.length := by
  obtain ⟨hEq, hTidy, hGenerated⟩ := generateSymbolId_spec h hNames hBase
  have hPrefix : p.symbolIds <+: (p.generateSymbolId base).2.symbolIds := by
    rw [hEq]
    exact prefix_append _ _
  have hLength : (p.generateSymbolId base).2.symbolIds.length = p.symbolIds.length + 1 := by
    rw [hEq]
    simp
  have hLe := hStep.length_le
  have hNone : q.rules.getD p.symbolIds.length [] = [] := by
    rw [hStep.kept _ (by omega)]
    exact h.getD_of_le le_rfl
  refine ⟨⟨hStep.tidy.addRule (by omega) hRefs, hPrefix.trans hStep.symbolIds, fun r hr => ?_,
    fun r hr hGen => ?_⟩, ⟨prefix_rfl, fun r _ hNe => ?_⟩, ?_⟩
  · rw [addRule_getD, if_neg (by omega), hStep.kept r (by omega), hEq]
  · rw [addRule_getD]
    split
    · exact hRule
    · exact hStep.complete r (by omega) hGen
  · rw [addRule_getD, if_neg]
    rintro rfl
    exact hNe hNone
  · exact (hStep.extends hTidy).generated hGenerated

/-! ## Repetitions -/

/-- The symbol of the last rule of a chain. -/
def tailSyms : Option Nat → List GrammarSym
  | none => []
  | some id => [.ref id]

omit h hNames hBase in
theorem ref_mem_rule (hMem : e ∈ encodeAlts [a ++ tail, []] ++ [endElement])
    (hRef : e.type = .ruleRef) :
    GrammarSym.ref e.value ∈ a ∨ GrammarSym.ref e.value ∈ tail := by
  rcases mem_append.mp hMem with hMem | hMem
  · obtain ⟨b, hAlt, hSym⟩ := ref_of_mem_encodeAlts hMem hRef
    rcases mem_cons.mp hAlt with rfl | hAlt
    · exact mem_append.mp hSym
    · rw [mem_singleton.mp hAlt] at hSym
      simp at hSym
  · rw [mem_singleton.mp hMem] at hRef
    cases hRef

variable (hRefs : ∀ id, GrammarSym.ref id ∈ a → id < p.symbolIds.length)

include hRefs

theorem repeatRule_step (hTail : ∀ id, GrammarSym.ref id ∈ tail → id ≤ p.symbolIds.length) :
    let q := (p.generateSymbolId base).2.addRule p.symbolIds.length
      (encode (a ++ tail) ++ [⟨.alt, 0⟩, ⟨.endOfRule, 0⟩])
    Step names p q ∧ q.Generated p.symbolIds.length ∧
      RuleIs q.rules p.symbolIds.length [a ++ tail, []] := by
  obtain ⟨hEq, hTidy, -⟩ := generateSymbolId_spec h hNames hBase
  have hRule : encode (a ++ tail) ++ [⟨.alt, 0⟩, ⟨.endOfRule, 0⟩] =
      encodeAlts [a ++ tail, []] ++ [endElement] := by
    simp [encodeAlts, endElement]
  have hLength : (p.generateSymbolId base).2.symbolIds.length = p.symbolIds.length + 1 := by
    rw [hEq]
    simp
  obtain ⟨hStep, -, hGenerated⟩ := generateRule_step h hNames hBase (Step.refl hTidy)
    (show encode (a ++ tail) ++ [⟨.alt, 0⟩, ⟨.endOfRule, 0⟩] ≠ [] by simp) (fun e hMem hRef => by
      rw [hRule] at hMem
      rcases ref_mem_rule hMem hRef with hSym | hSym
      · have hLt := hRefs _ hSym
        omega
      · have hLe := hTail _ hSym
        omega)
  refine ⟨hStep, hGenerated, by simp, ?_⟩
  rw [addRule_getD, if_pos rfl, hRule]

omit h hRefs in
theorem addRepeats_bounded (n : Nat) {i : Nat} {last : Option Nat}
    (h : Tidy names p)
    (hRefs : ∀ id, GrammarSym.ref id ∈ a → id < p.symbolIds.length)
    (hLast : last = none ↔ i = 0) (hTail : RepeatTail p a (some i) (tailSyms last)) :
    let r := addRepeats base (encode a) false n i last p
    Step names p r.2 ∧ RepeatTail r.2 a (some (i + n)) (tailSyms r.1) := by
  induction n generalizing i last p with
  | zero => exact ⟨Step.refl h, hTail⟩
  | succ n ih =>
    intro r
    obtain ⟨hEq, -, -⟩ := generateSymbolId_spec h hNames hBase
    obtain ⟨hStep, hGenerated, hRule⟩ := repeatRule_step h hNames hBase hRefs
      (fun id hMem => le_of_lt (hTail.ref_lt h hMem))
    have hNext : encode a ++ (if 0 < i ∨ false = true then
          [(⟨.ruleRef, if false = true then (p.generateSymbolId base).1 else last.getD 0⟩ :
            GrammarElement)] else []) = encode (a ++ tailSyms last) := by
      cases last with
      | none => simp [hLast.mp rfl, tailSyms]
      | some id =>
        have hPos : 0 < i := by
          have hNe : i ≠ 0 := fun hZero => by simpa using hLast.mpr hZero
          omega
        simp [hPos, tailSyms, encode_cons, GrammarSym.elements]
    have hExtends := hStep.extends h
    have hLe := hStep.length_le
    obtain ⟨hSteps, hChain⟩ := ih hStep.tidy
      (fun id hMem => lt_of_lt_of_le (hRefs id hMem) hLe)
      (show some p.symbolIds.length = none ↔ i + 1 = 0 by simp)
      (RepeatTail.succ (hTail.mono hExtends) hGenerated hRule)
    have hr : r = addRepeats base (encode a) false n (i + 1) (some p.symbolIds.length)
        ((p.generateSymbolId base).2.addRule p.symbolIds.length
          (encode (a ++ tailSyms last) ++ [⟨.alt, 0⟩, ⟨.endOfRule, 0⟩])) := by
      show addRepeats base (encode a) false (n + 1) i last p = _
      rw [addRepeats, ← hNext, hEq]
    rw [hr, show i + (n + 1) = i + 1 + n by omega]
    exact ⟨hStep.trans hSteps, hChain⟩

theorem addRepeats_unbounded :
    let r := addRepeats base (encode a) true 1 0 none p
    Step names p r.2 ∧ RepeatTail r.2 a none (tailSyms r.1) := by
  intro r
  obtain ⟨hEq, -, -⟩ := generateSymbolId_spec h hNames hBase
  obtain ⟨hStep, hGenerated, hRule⟩ := repeatRule_step h hNames hBase hRefs
    (show ∀ id, GrammarSym.ref id ∈ [GrammarSym.ref p.symbolIds.length] → id ≤ _ by simp)
  have hr : r = (some p.symbolIds.length, (p.generateSymbolId base).2.addRule p.symbolIds.length
      (encode (a ++ [.ref p.symbolIds.length]) ++ [⟨.alt, 0⟩, ⟨.endOfRule, 0⟩])) := by
    show addRepeats base (encode a) true 1 0 none p = _
    rw [addRepeats, hEq]
    simp [addRepeats, encode_cons, GrammarSym.elements]
  rw [hr]
  exact ⟨hStep, RepeatTail.unbounded hGenerated hRule⟩

omit h hNames hBase hRefs in
theorem repeat_eq_nil (hNe : a ≠ [])
    (hMin : ∀ b ∈ n, m ≤ b) (hTail : RepeatTail p a (n.map (· - m)) tail) :
    (replicate m a).flatten ++ tail = [] ↔ n = some 0 := by
  generalize hTimes : n.map (· - m) = times at hTail
  constructor
  · intro hEmpty
    obtain ⟨hCopies, rfl⟩ := append_eq_nil_iff.mp hEmpty
    obtain rfl : m = 0 := by
      cases m with
      | zero => rfl
      | succ m => simp [hNe] at hCopies
    cases hTail
    simpa using hTimes
  rintro rfl
  obtain rfl : m = 0 := Nat.le_zero.mp (hMin 0 rfl)
  obtain rfl : some 0 = times := hTimes
  cases hTail
  rfl

/-- `handle_repetitions` behind a symbol of elements: copies, and a tail for those that
may be left out. -/
theorem handleRepetitions_parsed (hRule : s.rule = rule ++ encode a)
    (hStart : s.lastSymStart = rule.length)
    (hMin : ∀ b ∈ n, m ≤ b) (hMax : ∀ b ∈ n, b ≤ maxRepetitionThreshold)
    (hBelow : s.nPrevRules * totalRules m n < maxRepetitionThreshold) (hNe : a ≠ []) :
    ∃ x tail, handleRepetitions base m n s p = some x ∧ Step names p x.2 ∧
      RepeatTail x.2 a (n.map (· - m)) tail ∧
      x.1.rule = rule ++ encode ((replicate m a).flatten ++ tail) ∧
      x.1.lastSymStart = rule.length := by
  have hSome : ¬s.lastSymStart = s.rule.length := by
    have hLength : (encode a).length ≠ 0 := by
      intro hZero
      exact hNe (encode_eq_nil.mp (length_eq_zero_iff.mp hZero))
    rw [hRule, length_append]
    omega
  have hPrev : s.rule.drop s.lastSymStart = encode a := by rw [hRule, hStart, drop_left]
  -- the copies that are not optional
  have hCopies : (if m = 0 then s.rule.take s.lastSymStart
      else s.rule ++ (replicate (m - 1) (encode a)).flatten) =
      rule ++ encode (replicate m a).flatten := by
    rw [encode_flatten, map_replicate]
    cases m with
    | zero =>
      rw [hRule, hStart, take_left]
      exact (append_nil rule).symm
    | succ m =>
      rw [if_neg (Nat.succ_ne_zero m), hRule, Nat.add_sub_cancel, replicate_succ,
        flatten_cons, append_assoc]
  -- the rules for the others
  obtain ⟨r, hr, hStep, hTail⟩ : ∃ r,
      addRepeats base (encode a) n.isNone (optionalTimes m n) 0 none p = r ∧ Step names p r.2 ∧
        RepeatTail r.2 a (n.map (· - m)) (tailSyms r.1) := by
    cases n with
    | none =>
      obtain ⟨hStep, hTail⟩ := addRepeats_unbounded h hNames hBase hRefs
      exact ⟨_, rfl, hStep, hTail⟩
    | some b =>
      have hLe := hMin b rfl
      have hBound := hMax b rfl
      rw [maxRepetitionThreshold] at hBound
      have hTimes : optionalTimes m (some b) = b - m := by
        show (b + 2 ^ 64 - m) % 2 ^ 64 = b - m
        omega
      obtain ⟨hStep, hTail⟩ := addRepeats_bounded hNames hBase (b - m) h hRefs
        (show none = none ↔ 0 = 0 by simp)
        (RepeatTail.zero : RepeatTail p a (some 0) (tailSyms none))
      refine ⟨_, rfl, ?_⟩
      simp only [hTimes]
      rw [Nat.zero_add] at hTail
      exact ⟨hStep, hTail⟩
  have hState : handleRepetitions base m n s p =
      some ({ s with
        rule := rule ++ encode ((replicate m a).flatten ++ tailSyms r.1)
        nPrevRules := s.nPrevRules * totalRules m n }, r.2) := by
    unfold handleRepetitions
    rw [if_neg hSome]
    simp only [hPrev]
    rw [if_neg (by omega), hCopies, hr]
    cases r.1 with
    | none => simp [tailSyms]
    | some id => simp [tailSyms, encode_cons, GrammarSym.elements]
  exact ⟨_, tailSyms r.1, hState, hStep, hTail, rfl, hStart⟩

end

theorem handleRepetitions_nil
    (h : s.lastSymStart = s.rule.length) : handleRepetitions base m n s p = none := by
  rw [handleRepetitions, if_pos h]

end GrammarParser

/-! ## What the parser makes of an expression -/

namespace GbnfExpr

/-- An item without elements: a literal without characters, or no repeats at all. -/
def isVoid : GbnfExpr → Bool
  | literal chars => chars.isEmpty
  | repetition _ _ maxTimes => maxTimes == some 0
  | _ => false

/-- No repetition is applied to an item without elements. -/
def Repeatable : GbnfExpr → Prop
  | group e => e.Repeatable
  | seq e f | alt e f => e.Repeatable ∧ f.Repeatable
  | repetition e _ _ => e.isVoid = false ∧ e.Repeatable
  | _ => True

/-- Classes have members, and the bounds of repetitions are in order and no larger than
`MAX_REPETITION_THRESHOLD`. -/
def Bounded : GbnfExpr → Prop
  | charClass _ items => items ≠ []
  | group e => e.Bounded
  | seq e f | alt e f => e.Bounded ∧ f.Bounded
  | repetition e minTimes maxTimes => e.Bounded ∧ minTimes ≤ maxRepetitionThreshold ∧
      ∀ n ∈ maxTimes, minTimes ≤ n ∧ n ≤ maxRepetitionThreshold
  | _ => True

/-- The repetitions stay below the threshold; how many rules a group stands for depends on the
symbols before it. -/
def BelowThreshold (ruleName : List UInt8) : GbnfExpr → SequenceState → GrammarParser → Prop
  | group e, _, p => e.BelowThreshold ruleName ⟨[], 0, 1⟩ (p.generateSymbolId ruleName).2
  | seq e f, s, p => e.BelowThreshold ruleName s p ∧
      ∀ x, e.compile ruleName s p = some x → f.BelowThreshold ruleName x.1 x.2
  | alt e f, s, p => e.BelowThreshold ruleName s p ∧
      ∀ x, e.compile ruleName s p = some x →
        f.BelowThreshold ruleName ⟨x.1.rule ++ [⟨.alt, 0⟩], x.1.rule.length + 1, 1⟩ x.2
  | repetition e minTimes maxTimes, s, p => e.BelowThreshold ruleName s p ∧
      ∀ x, e.compile ruleName s p = some x →
        x.1.nPrevRules * totalRules minTimes maxTimes < maxRepetitionThreshold
  | _, _, _ => True

/-- The names that an expression refers to. -/
def references : GbnfExpr → List (List UInt8)
  | ref name => [name]
  | group e | repetition e _ _ => e.references
  | seq e f | alt e f => e.references ++ f.references
  | _ => []

/-- The effect of the parser on an expression. -/
structure Parsed (names : List (List UInt8)) (level : Level) (e : GbnfExpr) (s : SequenceState)
    (p : GrammarParser) (x : SequenceState × GrammarParser) (alts : List (List GrammarSym)) :
    Prop where
  step : Step names p x.2
  compiled : Compiled x.2 e alts
  rule : x.1.rule = s.rule ++ encodeAlts alts
  ne_nil : alts ≠ []
  single : level ≠ .alternates → ∃ a, alts = [a]
  /-- the last symbol is the item -/
  item : level = .item → x.1.lastSymStart = s.rule.length ∧ (alts = [[]] ↔ e.isVoid = true)

theorem boundedMax_eq (h : ∀ b ∈ n, b ≤ maxRepetitionThreshold) : boundedMax n = n := by
  cases n with
  | none => rfl
  | some b => simp [boundedMax, h b rfl]

variable {names : List (List UInt8)} {ruleName : List UInt8}

variable {level : Level}

theorem Parsed.symbol
    {p q : GrammarParser} {n : Nat} (hStep : Step names p q) (hCompiled : Compiled q e [[sym]])
    (hVoid : e.isVoid = false) :
    Parsed names level e s p (⟨s.rule ++ sym.elements, s.rule.length, n⟩, q) [[sym]] := by
  refine ⟨hStep, hCompiled, ?_, by simp, fun _ => ⟨_, rfl⟩, fun _ => ⟨rfl, by simp [hVoid]⟩⟩
  simp [encodeAlts, encode_cons]

theorem encode_chars (chars : List Nat) :
    encode (chars.map GrammarSym.char) = chars.map (⟨.char, ·⟩) := by
  induction chars with
  | nil => rfl
  | cons c chars ih =>
    rw [map_cons, encode_cons, ih]
    rfl

theorem ref_lt_of_rule (h : Tidy names p) (hCompiled : Compiled p e alts) {elem : GrammarElement}
    (hMem : elem ∈ encodeAlts alts ++ [endElement]) (hRef : elem.type = .ruleRef) :
    elem.value < p.symbolIds.length := by
  rcases mem_append.mp hMem with hMem | hMem
  · obtain ⟨a, hAlt, hSym⟩ := ref_of_mem_encodeAlts hMem hRef
    exact hCompiled.ref_lt h hAlt hSym
  · rw [mem_singleton.mp hMem] at hRef
    cases hRef

variable {x : SequenceState × GrammarParser}

theorem Parsed.sequence (h : Parsed names level e s p x alts) (hLevel : level ≠ .alternates) :
    Parsed names .sequence e s p x alts :=
  ⟨h.step, h.compiled, h.rule, h.ne_nil, fun _ => h.single hLevel, fun hItem => nomatch hItem⟩

theorem Parsed.alternates (h : Parsed names level e s p x alts) :
    Parsed names .alternates e s p x alts :=
  ⟨h.step, h.compiled, h.rule, h.ne_nil, fun hLevel => absurd rfl hLevel,
    fun hItem => nomatch hItem⟩

theorem Parsed.literal {chars : List Nat} (h : Tidy names p) :
    Parsed names level (.literal chars) s p
      (s.begin (s.rule ++ chars.map (⟨.char, ·⟩)), p) [chars.map GrammarSym.char] := by
  refine ⟨Step.refl h, Compiled.literal, ?_, by simp, fun _ => ⟨_, rfl⟩, fun _ => ⟨rfl, ?_⟩⟩
  · rw [encodeAlts, encode_chars]
    rfl
  · simp [isVoid]

variable {y : SequenceState × GrammarParser}

variable (hNames : ∀ x ∈ names, '_'.toUInt8 ∉ x)

include hNames

/-- A group is a rule of its own. -/
theorem Parsed.group (hBase : '_'.toUInt8 ∉ ruleName) (h : Tidy names p) {n : Nat}
    (hBody : Parsed names .alternates e ⟨[], 0, 1⟩ (p.generateSymbolId ruleName).2 y alts) :
    Parsed names .item (.group e) s p
      (⟨s.rule ++ [⟨.ruleRef, p.symbolIds.length⟩], s.rule.length, n⟩,
        y.2.addRule p.symbolIds.length (y.1.rule ++ [⟨.endOfRule, 0⟩]))
      [[.ref p.symbolIds.length]] := by
  have hRule : y.1.rule ++ [⟨.endOfRule, 0⟩] = encodeAlts alts ++ [endElement] := by
    rw [hBody.rule]
    rfl
  rw [hRule]
  obtain ⟨hStep, hExtends, hGenerated⟩ := generateRule_step h hNames hBase hBody.step
    (show encodeAlts alts ++ [endElement] ≠ [] by simp)
    (fun elem => ref_lt_of_rule hBody.step.tidy hBody.compiled)
  refine Parsed.symbol hStep (Compiled.group hGenerated ⟨hBody.ne_nil, ?_⟩
    (hBody.compiled.mono hExtends)) rfl
  rw [addRule_getD, if_pos rfl]

variable {f : GbnfExpr} {alts' : List (List GrammarSym)}

omit hNames in
theorem Parsed.seq (h : Parsed names .sequence e s p x alts)
    (hNext : Parsed names .sequence f x.1 x.2 y alts') :
    ∃ alts'', Parsed names .sequence (.seq e f) s p y alts'' := by
  obtain ⟨a, rfl⟩ := h.single (by decide)
  obtain ⟨b, rfl⟩ := hNext.single (by decide)
  refine ⟨[a ++ b], h.step.trans hNext.step, ?_, ?_, by simp, fun _ => ⟨_, rfl⟩,
    fun hItem => nomatch hItem⟩
  · exact Compiled.seq (h.compiled.mono (hNext.step.extends h.step.tidy)) hNext.compiled
  · rw [hNext.rule, h.rule]
    simp [encodeAlts]

omit hNames in
theorem Parsed.alt {start : Nat} (h : Parsed names .alternates e s p x alts)
    (hNext : Parsed names .sequence f ⟨x.1.rule ++ [⟨.alt, 0⟩], start, 1⟩ x.2 y alts') :
    ∃ alts'', Parsed names .alternates (.alt e f) s p y alts'' := by
  obtain ⟨b, rfl⟩ := hNext.single (by decide)
  refine ⟨alts ++ [b], h.step.trans hNext.step, ?_, ?_, by simp, fun hLevel => absurd rfl hLevel,
    fun hItem => nomatch hItem⟩
  · exact Compiled.alt (h.compiled.mono (hNext.step.extends h.step.tidy)) hNext.compiled
  · rw [hNext.rule, h.rule, encodeAlts_append h.ne_nil]
    simp [encodeAlts]

/-- A repetition applies to the item before it, unless that has no elements. -/
theorem Parsed.repetition (hBase : '_'.toUInt8 ∉ ruleName)
    (h : Parsed names .item e s p y alts) (hMin : ∀ b ∈ n, m ≤ b)
    (hMax : ∀ b ∈ n, b ≤ maxRepetitionThreshold)
    (hBelow : y.1.nPrevRules * totalRules m n < maxRepetitionThreshold) :
    (e.isVoid = false → ∃ x alts', handleRepetitions ruleName m n y.1 y.2 = some x ∧
      Parsed names .item (.repetition e m n) s p x alts') ∧
      (e.isVoid = true → handleRepetitions ruleName m n y.1 y.2 = none) := by
  obtain ⟨a, rfl⟩ := h.single (by decide)
  obtain ⟨hStart, hVoid⟩ := h.item rfl
  constructor
  · intro hElements
    have hNe : a ≠ [] := by
      rintro rfl
      rw [hVoid.mp rfl] at hElements
      cases hElements
    obtain ⟨x, tail, hx, hStep, hTail, hRule, hStart'⟩ := handleRepetitions_parsed h.step.tidy hNames
      hBase (fun id hMem => h.compiled.ref_lt h.step.tidy (mem_singleton_self a) hMem) h.rule
      hStart hMin hMax hBelow hNe
    have hCompiled := h.compiled.mono (hStep.extends h.step.tidy)
    refine ⟨x, [(replicate m a).flatten ++ tail], hx, h.step.trans hStep,
      Compiled.repetition hCompiled hMin hTail, hRule, by simp, fun _ => ⟨_, rfl⟩, fun _ => ⟨hStart', ?_⟩⟩
    rw [cons.injEq, repeat_eq_nil hNe hMin hTail]
    simp [isVoid]
  intro hEmpty
  have hNil : a = [] := by simpa using hVoid.mpr hEmpty
  apply handleRepetitions_nil
  rw [hStart, h.rule, hNil]
  simp [encodeAlts]

/-- The parser succeeds when no repetition is applied to an item without elements, and what it adds
stands for the expression. -/
theorem compile_parsed (hBase : '_'.toUInt8 ∉ ruleName) {nested : Bool} {t : List UInt8}
    (hSpells : Spells nested level e t) (hRefs : ∀ x ∈ e.references, x ∈ names)
    (hBounded : e.Bounded) (h : Tidy names p) (hBelow : e.BelowThreshold ruleName s p) :
    (e.Repeatable → ∃ x, e.compile ruleName s p = some x) ∧
      ∀ x, e.compile ruleName s p = some x →
        e.Repeatable ∧ ∃ alts, Parsed names level e s p x alts := by
  induction hSpells generalizing s p with
  | @literal nested chars t sp hChars hSp =>
    refine ⟨fun _ => ⟨_, rfl⟩, fun x hx => ⟨trivial, [chars.map GrammarSym.char], ?_⟩⟩
    obtain rfl := some.inj hx
    exact Parsed.literal h
  | @charClass nested items t sp hItems hHead hSp =>
    obtain ⟨item, items, rfl⟩ := exists_cons_of_ne_nil hBounded
    refine ⟨fun _ => ⟨_, rfl⟩, fun x hx => ⟨trivial, [[.charClass false item items]], ?_⟩⟩
    obtain rfl := some.inj hx
    exact Parsed.symbol (Step.refl h) Compiled.charClass rfl
  | @negated nested items t sp hItems hSp =>
    obtain ⟨item, items, rfl⟩ := exists_cons_of_ne_nil hBounded
    refine ⟨fun _ => ⟨_, rfl⟩, fun x hx => ⟨trivial, [[.charClass true item items]], ?_⟩⟩
    obtain rfl := some.inj hx
    exact Parsed.symbol (Step.refl h) Compiled.charClass rfl
  | @any nested sp hSp =>
    refine ⟨fun _ => ⟨_, rfl⟩, fun x hx => ⟨trivial, [[.any]], ?_⟩⟩
    obtain rfl := some.inj hx
    exact Parsed.symbol (Step.refl h) Compiled.any rfl
  | @ref nested name sp hName hWord hSp =>
    obtain ⟨hStep, hId, -⟩ := getSymbolId_step h hNames (hRefs name (mem_singleton_self _))
    refine ⟨fun _ => ⟨_, rfl⟩, fun x hx => ⟨trivial, [[.ref (p.getSymbolId name).1]], ?_⟩⟩
    obtain rfl := some.inj hx
    exact Parsed.symbol hStep (Compiled.ref (underscore_notMem_word hWord) hId) rfl
  | @group nested e t sp sp' hSp hBody hSp' ih =>
    obtain ⟨hEq, hTidy, -⟩ := generateSymbolId_spec h hNames hBase
    obtain ⟨hSucceeds, hParsed⟩ := ih hRefs hBounded hTidy hBelow
    refine ⟨fun hRepeatable => ?_, fun x hx => ?_⟩
    · obtain ⟨y, hy⟩ := hSucceeds hRepeatable
      exact ⟨_, by rw [compile, hy]; rfl⟩
    obtain ⟨y, hy, rfl⟩ := map_eq_some_iff.mp hx
    obtain ⟨hRepeatable, alts, hAlts⟩ := hParsed y hy
    refine ⟨hRepeatable, [[.ref p.symbolIds.length]], ?_⟩
    have hId : (p.generateSymbolId ruleName).1 = p.symbolIds.length := by rw [hEq]
    exact Parsed.group hNames hBase h hAlts
  | @repetition nested e m n t o hBody hBounds ih =>
    obtain ⟨hInner, hMin, hOrder⟩ := hBounded
    obtain ⟨hBelowInner, hBelow⟩ := hBelow
    obtain ⟨hSucceeds, hParsed⟩ := ih hRefs hInner h hBelowInner
    have hCompile : (GbnfExpr.repetition e m n).compile ruleName s p =
        (e.compile ruleName s p).bind fun y => handleRepetitions ruleName m n y.1 y.2 := by
      rw [compile, boundedMax_eq fun b hb => (hOrder b hb).2]
      simp only [if_neg (show ¬maxRepetitionThreshold < m by omega)]
    rw [hCompile]
    refine ⟨fun hRepeatable => ?_, fun x hx => ?_⟩
    · obtain ⟨y, hy⟩ := hSucceeds hRepeatable.2
      obtain ⟨-, alts, hAlts⟩ := hParsed y hy
      obtain ⟨x, -, hx, -⟩ := (hAlts.repetition hNames hBase (fun b hb => (hOrder b hb).1)
        (fun b hb => (hOrder b hb).2) (hBelow y hy)).1 hRepeatable.1
      exact ⟨x, by rw [hy]; exact hx⟩
    obtain ⟨y, hy, hx⟩ := bind_eq_some_iff.mp hx
    obtain ⟨hRepeatable, alts, hAlts⟩ := hParsed y hy
    obtain ⟨hElements, hEmpty⟩ := hAlts.repetition hNames hBase (fun b hb => (hOrder b hb).1)
      (fun b hb => (hOrder b hb).2) (hBelow y hy)
    cases hVoid : e.isVoid with
    | true =>
      rw [hEmpty hVoid] at hx
      cases hx
    | false =>
      obtain ⟨x', alts', hx', hParsed'⟩ := hElements hVoid
      rw [hx] at hx'
      obtain rfl := some.inj hx'
      exact ⟨⟨hVoid, hRepeatable⟩, alts', hParsed'⟩
  | empty =>
    refine ⟨fun _ => ⟨_, rfl⟩, fun x hx => ⟨trivial, [[]], ?_⟩⟩
    obtain rfl := some.inj hx
    exact ⟨Step.refl h, Compiled.empty, by simp [encodeAlts], by simp, fun _ => ⟨_, rfl⟩,
      fun hItem => by cases hItem⟩
  | single hItem ih =>
    obtain ⟨hSucceeds, hParsed⟩ := ih hRefs hBounded h hBelow
    refine ⟨hSucceeds, fun x hx => ?_⟩
    obtain ⟨hRepeatable, alts, hAlts⟩ := hParsed x hx
    exact ⟨hRepeatable, alts, hAlts.sequence (by decide)⟩
  | @seq nested e f t u hFirst hNext hApart ihFirst ihNext =>
    obtain ⟨hLeft, hRight⟩ := hBounded
    obtain ⟨hBelowLeft, hBelowRight⟩ := hBelow
    obtain ⟨hSucceeds, hParsed⟩ := ihFirst
      (fun x hx => hRefs x (mem_append_left _ hx)) hLeft h hBelowLeft
    have hSecond : ∀ x, e.compile ruleName s p = some x → _ := fun x hx =>
      ihNext (fun x hx => hRefs x (mem_append_right _ hx)) hRight
        (hParsed x hx).2.choose_spec.step.tidy (hBelowRight x hx)
    refine ⟨fun hRepeatable => ?_, fun y hy => ?_⟩
    · obtain ⟨x, hx⟩ := hSucceeds hRepeatable.1
      obtain ⟨y, hy⟩ := (hSecond x hx).1 hRepeatable.2
      exact ⟨y, by rw [compile, hx]; exact hy⟩
    obtain ⟨x, hx, hy⟩ := bind_eq_some_iff.mp hy
    obtain ⟨hRepeatable, alts, hAlts⟩ := hParsed x hx
    obtain ⟨hRepeatable', alts', hAlts'⟩ := (hSecond x hx).2 y hy
    exact ⟨⟨hRepeatable, hRepeatable'⟩, hAlts.seq (hAlts'.sequence (by decide))⟩
  | one hSequence ih =>
    obtain ⟨hSucceeds, hParsed⟩ := ih hRefs hBounded h hBelow
    refine ⟨hSucceeds, fun x hx => ?_⟩
    obtain ⟨hRepeatable, alts, hAlts⟩ := hParsed x hx
    exact ⟨hRepeatable, alts, hAlts.alternates⟩
  | @alt nested e f t u sp hFirst hSp hNext hLast ihFirst ihNext =>
    obtain ⟨hLeft, hRight⟩ := hBounded
    obtain ⟨hBelowLeft, hBelowRight⟩ := hBelow
    obtain ⟨hSucceeds, hParsed⟩ := ihFirst
      (fun x hx => hRefs x (mem_append_left _ hx)) hLeft h hBelowLeft
    have hSecond : ∀ x, e.compile ruleName s p = some x → _ := fun x hx =>
      ihNext (fun x hx => hRefs x (mem_append_right _ hx)) hRight
        (hParsed x hx).2.choose_spec.step.tidy (hBelowRight x hx)
    refine ⟨fun hRepeatable => ?_, fun y hy => ?_⟩
    · obtain ⟨x, hx⟩ := hSucceeds hRepeatable.1
      obtain ⟨y, hy⟩ := (hSecond x hx).1 hRepeatable.2
      exact ⟨y, by rw [compile, hx]; exact hy⟩
    obtain ⟨x, hx, hy⟩ := bind_eq_some_iff.mp hy
    obtain ⟨hRepeatable, alts, hAlts⟩ := hParsed x hx
    obtain ⟨hRepeatable', alts', hAlts'⟩ := (hSecond x hx).2 y hy
    exact ⟨⟨hRepeatable, hRepeatable'⟩, hAlts.alt hAlts'⟩

end GbnfExpr

end Beellama.Ports
