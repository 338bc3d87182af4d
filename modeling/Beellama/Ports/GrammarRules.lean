import Beellama.Ports.GrammarCompile

/-!
# Whole grammars

Where a name is defined twice, the last definition counts (`definition`).  On the text of a grammar
whose references are defined, `parse` succeeds exactly when no repetition is applied to an item without
elements, and then every rule derives the language of its definition (`parse_means_iff`).
-/

namespace Beellama.Ports

open GrammarParser Grammar List Option GrammarParser

/-- A rule of a grammar: its name and its expression. -/
structure GbnfRule where
  name : List UInt8
  expr : GbnfExpr
  deriving DecidableEq, Repr

/-- The rules of a grammar. -/
abbrev GbnfGrammar := List GbnfRule

namespace GbnfGrammar

open GbnfExpr

/-- The last definition of a name. -/
def definition (g : GbnfGrammar) (name : List UInt8) : Option GbnfExpr :=
  (g.reverse.find? fun rule => rule.name = name).map GbnfRule.expr

/-- All names that are referred to are defined. -/
def Closed (g : GbnfGrammar) : Prop :=
  ∀ rule ∈ g, ∀ name ∈ rule.expr.references, name ∈ g.map GbnfRule.name

/-- The end of a line. -/
def LineEnd (t : List UInt8) : Prop := t = bytes "\n" ∨ t = bytes "\r" ∨ t = bytes "\r\n"

/-- The text of a rule up to the end of its line. -/
inductive SpellsRule : GbnfRule → List UInt8 → Prop
  | rule {name sp sp' t : List UInt8} {e : GbnfExpr} (hName : name ≠ [])
      (hWord : ∀ c ∈ name, isWordChar c = true) (hSp : Blanks false sp) (hSp' : Blanks true sp')
      (hBody : Spells false .alternates e t) (hNe : t ≠ []) :
      SpellsRule ⟨name, e⟩ (name ++ sp ++ bytes "::=" ++ sp' ++ t)

/-- The text of rules; the last one may end with the text. -/
inductive SpellsRules : GbnfGrammar → List UInt8 → Prop
  | nil : SpellsRules [] []
  | last {rule : GbnfRule} {t : List UInt8} (hRule : SpellsRule rule t) : SpellsRules [rule] t
  | cons {rule : GbnfRule} {g : GbnfGrammar} {t nl sp u : List UInt8} (hRule : SpellsRule rule t)
      (hEnd : LineEnd nl) (hSp : Blanks true sp) (hRest : SpellsRules g u) :
      SpellsRules (rule :: g) (t ++ nl ++ sp ++ u)

/-- The text of a grammar, a C string. -/
def SpellsGrammar (g : GbnfGrammar) (text : List UInt8) : Prop :=
  0 ∉ text ∧ ∃ sp t, Blanks true sp ∧ SpellsRules g t ∧ text = sp ++ t

/-! ## The parser on rules -/

/-- The parser on a rule. -/
def compileRule (rule : GbnfRule) (p : GrammarParser) : Option GrammarParser :=
  (rule.expr.compile rule.name ⟨[], 0, 1⟩ (p.getSymbolId rule.name).2).map fun x =>
    x.2.addRule (p.getSymbolId rule.name).1 (x.1.rule ++ [⟨.endOfRule, 0⟩])

/-- The parser on the rules of a grammar. -/
def compileRules : GbnfGrammar → GrammarParser → Option GrammarParser
  | [], p => some p
  | rule :: g, p => (compileRule rule p).bind (compileRules g)

/-- The repetitions of the rules stay below the threshold. -/
def BelowThreshold : GbnfGrammar → GrammarParser → Prop
  | [], _ => True
  | rule :: g, p =>
    rule.expr.BelowThreshold rule.name ⟨[], 0, 1⟩ (p.getSymbolId rule.name).2 ∧
      ∀ q, compileRule rule p = some q → BelowThreshold g q

variable {vocab : Option (List UInt8 → List Nat)}

theorem LineEnd.ends {nl : List UInt8} (h : LineEnd nl) (rest : List UInt8) :
    Ends false (nl ++ rest) ∧ (nl ++ rest).head? ≠ some '|'.toUInt8 := by
  rcases h with rfl | rfl | rfl
  · refine ⟨fun c hc => Or.inr (Or.inr ⟨rfl, Or.inr ?_⟩), ?_⟩
    · exact (some.inj hc).symm
    · show some '\n'.toUInt8 ≠ _
      decide
  · refine ⟨fun c hc => Or.inr (Or.inr ⟨rfl, Or.inl ?_⟩), ?_⟩
    · exact (some.inj hc).symm
    · show some '\r'.toUInt8 ≠ _
      decide
  refine ⟨fun c hc => Or.inr (Or.inr ⟨rfl, Or.inl ?_⟩), ?_⟩
  · exact (some.inj hc).symm
  · show some '\r'.toUInt8 ≠ _
    decide

/-- What `parse_rule` does behind the alternates. -/
def afterRule (r : List UInt8 × GrammarParser) : Option (List UInt8 × GrammarParser) :=
  match r.1 with
  | [] => some ([], r.2)
  | c :: src =>
    if c = '\r'.toUInt8 then
      some (parseSpace (if src.head? = some '\n'.toUInt8 then src.tail else src) true, r.2)
    else if c = '\n'.toUInt8 then some (parseSpace src true, r.2)
    else none

variable {t : List UInt8}

theorem SpellsRule.ne_nil {rule : GbnfRule} (h : SpellsRule rule t) : t ≠ [] := by
  cases h with
  | rule hName hWord hSp hSp' hBody hNe => simp [hNe]

theorem SpellsRule.length_pos {rule : GbnfRule} (h : SpellsRule rule t) : 0 < t.length :=
  length_pos_iff.mpr h.ne_nil

theorem SpellsRule.parse {rule : GbnfRule} {t rest : List UInt8} (h : SpellsRule rule t)
    (hEnds : Ends false rest) (hLast : rest.head? ≠ some '|'.toUInt8) (p : GrammarParser) :
    parseRule vocab (t ++ rest) p = (compileRule rule p).bind fun q => afterRule (rest, q) := by
  cases h with
  | @rule name sp sp' t e hName hWord hSp hSp' hBody hNe =>
    obtain ⟨c, t, rfl⟩ := exists_cons_of_ne_nil hNe
    have hColon : Stops false (bytes "::=" ++ (sp' ++ (c :: t ++ rest))) :=
      stops_solid (by decide) _
    have hHead : ∀ d, (sp ++ (bytes "::=" ++ (sp' ++ (c :: t ++ rest)))).head? = some d →
        isWordChar d = false := by
      intro d hd
      cases sp with
      | nil =>
        obtain rfl : ':'.toUInt8 = d := some.inj hd
        decide
      | cons b sp =>
        obtain rfl : b = d := by simpa using hd
        exact not_word_of_blank (hSp b mem_cons_self)
    have hStops : Stops true (c :: t ++ rest) := hBody.stops fun hEmpty => nomatch hEmpty
    simp only [append_assoc]
    rw [parseRule, parseName_word hName hWord hHead]
    simp only [bind_eq_bind, bind_some]
    rw [hColon.behind hSp, show (bytes "::=" ++ (sp' ++ (c :: t ++ rest))).drop 3 =
      sp' ++ (c :: t ++ rest) from rfl, hStops.behind hSp']
    rw [parseAlternates_spells hBody (by
      have hDepth := hBody.depth_le
      rw [length_append]
      omega) hEnds hLast]
    simp only [compileRule]
    cases e.compile name ⟨[], 0, 1⟩ (p.getSymbolId name).2 with
    | none => rfl
    | some x => rfl

theorem SpellsRule.stops {rule : GbnfRule} (h : SpellsRule rule t)
    (rest : List UInt8) : Stops true (t ++ rest) := by
  cases h with
  | rule hName hWord hSp hSp' hBody hNe =>
    obtain ⟨c, name, rfl⟩ := exists_cons_of_ne_nil hName
    exact stops_solid (solid_of_word (hWord c mem_cons_self)) _

variable {g : GbnfGrammar}

theorem SpellsRules.stops (h : SpellsRules g t) : Stops true t := by
  cases h with
  | nil => exact stops_nil
  | last hRule =>
    have hStops := hRule.stops []
    rwa [append_nil] at hStops
  | cons hRule hEnd hSp hRest =>
    simp only [append_assoc]
    exact hRule.stops _

theorem afterRule_cr (src : List UInt8) (p : GrammarParser) :
    afterRule ('\r'.toUInt8 :: src, p) =
      some (parseSpace (if src.head? = some '\n'.toUInt8 then src.tail else src) true, p) := by
  simp only [afterRule]
  rw [if_pos trivial]

theorem afterRule_nl (src : List UInt8) (p : GrammarParser) :
    afterRule ('\n'.toUInt8 :: src, p) = some (parseSpace src true, p) := by
  simp only [afterRule]
  rw [if_neg (by decide), if_pos trivial]

theorem afterRule_lineEnd {nl sp u : List UInt8} (hEnd : LineEnd nl) (hSp : Blanks true sp)
    (hStops : Stops true u) (p : GrammarParser) :
    afterRule (nl ++ (sp ++ u), p) = some (u, p) := by
  have hBehind : parseSpace (sp ++ u) true = u := hStops.behind hSp
  rcases hEnd with rfl | rfl | rfl
  · exact (afterRule_nl (sp ++ u) p).trans (by rw [hBehind])
  · refine (afterRule_cr (sp ++ u) p).trans ?_
    split
    next hNewline =>
      -- the newline is a blank as well
      obtain ⟨rest, hText⟩ : ∃ rest, sp ++ u = '\n'.toUInt8 :: rest :=
        head?_eq_some_iff.mp hNewline
      have hTail : parseSpace (sp ++ u).tail true = parseSpace (sp ++ u) true := by
        rw [hText]
        rfl
      rw [hTail, hBehind]
    next => rw [hBehind]
  · refine (afterRule_cr ('\n'.toUInt8 :: (sp ++ u)) p).trans ?_
    rw [if_pos (head?_cons ..), tail_cons, hBehind]

theorem SpellsRules.parse (h : SpellsRules g t) {fuel : Nat}
    (hFuel : t.length < fuel) (p : GrammarParser) :
    parseRules vocab fuel t p = compileRules g p := by
  induction h generalizing fuel p with
  | nil =>
    obtain ⟨fuel, rfl⟩ : ∃ n, fuel = n + 1 := ⟨fuel - 1, by omega⟩
    rfl
  | @last rule t hRule =>
    obtain ⟨fuel, rfl⟩ : ∃ n, fuel = n + 2 :=
      ⟨fuel - 2, by
        have hPos := hRule.length_pos
        omega⟩
    have hParse : parseRule vocab (t ++ []) p =
        (compileRule rule p).bind fun q => afterRule ([], q) :=
      hRule.parse (fun c hc => by simp at hc) (by simp) p
    rw [append_nil] at hParse
    rw [parseRules, if_neg hRule.ne_nil, hParse, compileRules]
    cases compileRule rule p with
    | none => rfl
    | some q => rfl
  | @cons rule g t nl sp u hRule hEnd hSp hRest ih =>
    obtain ⟨fuel, rfl⟩ : ∃ n, fuel = n + 1 := ⟨fuel - 1, by omega⟩
    obtain ⟨hEnds, hLast⟩ := hEnd.ends (sp ++ u)
    have hPos := hRule.length_pos
    have hNe : t ++ nl ++ sp ++ u ≠ [] := by simp [hRule.ne_nil]
    rw [parseRules, if_neg hNe, append_assoc, append_assoc, hRule.parse hEnds hLast,
      compileRules]
    cases compileRule rule p with
    | none => rfl
    | some q =>
      simp only [bind_eq_bind, bind_some]
      rw [afterRule_lineEnd hEnd hSp hRest.stops]
      apply ih
      simp only [length_append] at hFuel
      omega

/-- On the text of a grammar `parse` comes to its rules, if all of them are defined. -/
theorem parse_spells {text : List UInt8} (h : SpellsGrammar g text) :
    GrammarParser.parse vocab text =
      (compileRules g {}).bind fun p => if allDefined p.rules then some p else none := by
  obtain ⟨hNul, sp, t, hSp, hRules, rfl⟩ := h
  have hText : (sp ++ t).takeWhile (· ≠ 0) = sp ++ t := by
    rw [takeWhile_eq_self_iff]
    intro c hc
    simpa using ne_of_mem_of_not_mem hc hNul
  rw [parse, hText]
  simp only [hRules.stops.behind hSp]
  rw [hRules.parse (Nat.lt_succ_self _)]
  rfl

/-! ## The rules of a grammar -/

/-- What is known of the parser behind some rules, the last one first. -/
structure Reads (names : List (List UInt8)) (done : GbnfGrammar) (p : GrammarParser) : Prop where
  tidy : Tidy names p
  complete : ∀ r, p.Generated r → p.rules.getD r [] ≠ []
  known : ∀ rule ∈ done, ∃ r, p.symbolIds.lookup rule.name = some r
  realised : ∀ name r e, p.symbolIds.lookup name = some r →
    (done.find? fun rule => rule.name = name).map GbnfRule.expr = some e →
    ∃ alts, RuleIs p.rules r alts ∧ Compiled p e alts

theorem Reads.nil (names : List (List UInt8)) : Reads names [] {} := by
  refine ⟨⟨rfl, nodup_nil, by simp, le_rfl, by simp⟩, ?_, by simp, by simp⟩
  intro r hGenerated
  obtain ⟨name, hMem, -⟩ := hGenerated
  simp at hMem

theorem Reads.rule {names : List (List UInt8)} {done : GbnfGrammar} {p q : GrammarParser}
    (hNames : ∀ x ∈ names, '_'.toUInt8 ∉ x) (h : Reads names done p) {rule : GbnfRule}
    (hName : rule.name ∈ names) {x : SequenceState × GrammarParser}
    {alts : List (List GrammarSym)}
    (hParsed : Parsed names .alternates rule.expr ⟨[], 0, 1⟩ (p.getSymbolId rule.name).2 x alts)
    (hq : x.2.addRule (p.getSymbolId rule.name).1 (x.1.rule ++ [⟨.endOfRule, 0⟩]) = q) :
    Reads names (rule :: done) q := by
  obtain ⟨hStep, hId, -⟩ := getSymbolId_step h.tidy hNames hName
  have hSteps := hStep.trans hParsed.step
  have hTidy := hParsed.step.tidy
  -- the symbol of the rule is not one that is made up
  have hLookup := lookup_of_isPrefix hParsed.step.symbolIds hId
  have hMem := mem_of_lookup hLookup
  have hNamed : ¬x.2.Generated (p.getSymbolId rule.name).1 := by
    rintro ⟨name, hOther, hUnderscore⟩
    rw [hTidy.name_unique hOther hMem] at hUnderscore
    exact hNames _ hName hUnderscore
  have hRule : x.1.rule ++ [⟨.endOfRule, 0⟩] = encodeAlts alts ++ [endElement] := by
    rw [hParsed.rule]
    rfl
  rw [hRule] at hq
  have hExtends : Extends x.2 q := by
    refine ⟨hq ▸ prefix_rfl, fun r hGenerated _ => ?_⟩
    rw [← hq, addRule_getD, if_neg]
    rintro rfl
    exact hNamed hGenerated
  have hExtendsAll : Extends p q := by
    have hFirst := hSteps.extends h.tidy
    refine ⟨hFirst.symbolIds.trans hExtends.symbolIds, fun r hGenerated hNe => ?_⟩
    have hSame := hFirst.rules r hGenerated hNe
    rw [hExtends.rules r (hFirst.generated hGenerated) (by rwa [hSame]), hSame]
  have hSymbols : q.symbolIds = x.2.symbolIds := hq ▸ rfl
  refine ⟨?_, fun r hGenerated => ?_, ?_, fun name r e hr he => ?_⟩
  · rw [← hq]
    exact hTidy.addRule (hTidy.id_lt hMem) fun elem => ref_lt_of_rule hTidy hParsed.compiled
  · have hGenerated' : x.2.Generated r := by
      obtain ⟨name, hIn, hUnderscore⟩ := hGenerated
      exact ⟨name, hSymbols ▸ hIn, hUnderscore⟩
    have hNe : x.2.rules.getD r [] ≠ [] := by
      by_cases hLt : r < p.symbolIds.length
      · rw [hSteps.kept r hLt]
        exact h.complete r (hSteps.generated_of_lt hLt hGenerated')
      · exact hSteps.complete r (by omega) hGenerated'
    rwa [hExtends.rules r hGenerated' hNe]
  · intro rule' hDone
    rcases mem_cons.mp hDone with rfl | hDone
    · exact ⟨_, hSymbols ▸ hLookup⟩
    · obtain ⟨r, hr⟩ := h.known rule' hDone
      exact ⟨r, lookup_of_isPrefix hExtendsAll.symbolIds hr⟩
  rw [hSymbols] at hr
  rw [find?_cons] at he
  split at he
  next hSame =>
    -- the definition that has just been read
    have hEq : rule.name = name := by simpa using hSame
    rw [← hEq, hLookup] at hr
    obtain rfl := some.inj hr
    obtain rfl := some.inj he
    refine ⟨alts, ⟨hParsed.ne_nil, ?_⟩, hParsed.compiled.mono hExtends⟩
    rw [← hq, addRule_getD, if_pos rfl]
  next hOther =>
    have hNe : rule.name ≠ name := by simpa using hOther
    obtain ⟨rule', hFind, -⟩ := map_eq_some_iff.mp he
    have hEq : rule'.name = name := by simpa using find?_some hFind
    obtain ⟨r', hr'⟩ := h.known rule' (mem_of_find?_eq_some hFind)
    rw [hEq] at hr'
    obtain rfl : r' = r := by
      rw [lookup_of_isPrefix hSteps.symbolIds hr'] at hr
      exact some.inj hr
    obtain ⟨alts', hRule', hCompiled'⟩ := h.realised name r' e hr' he
    refine ⟨alts', ⟨hRule'.1, ?_⟩, hCompiled'.mono hExtendsAll⟩
    have hDistinct : r' ≠ (p.getSymbolId rule.name).1 := by
      rintro rfl
      exact hNe (hTidy.name_unique hMem (mem_of_lookup hr))
    rw [← hq, addRule_getD, if_neg hDistinct,
      hSteps.kept r' (h.tidy.id_lt (mem_of_lookup hr')), hRule'.2]

/-- A rule that the parser can read. -/
structure Readable (names : List (List UInt8)) (rule : GbnfRule) : Prop where
  name : rule.name ∈ names
  refs : ∀ x ∈ rule.expr.references, x ∈ names
  bounded : rule.expr.Bounded
  spelled : ∃ t, Spells false .alternates rule.expr t

/-- The rules are read up to a repetition of an item without elements. -/
theorem compileRules_reads {names : List (List UInt8)} (hNames : ∀ x ∈ names, '_'.toUInt8 ∉ x)
    (hReadable : ∀ rule ∈ g, Readable names rule) {done : GbnfGrammar}
    {p : GrammarParser} (h : Reads names done p) (hBelow : BelowThreshold g p) :
    ((∀ rule ∈ g, rule.expr.Repeatable) → ∃ q, compileRules g p = some q) ∧
      ∀ q, compileRules g p = some q →
        (∀ rule ∈ g, rule.expr.Repeatable) ∧ Reads names (g.reverse ++ done) q := by
  induction g generalizing done p with
  | nil =>
    refine ⟨fun _ => ⟨p, rfl⟩, fun q hq => ⟨by simp, ?_⟩⟩
    obtain rfl := some.inj hq
    exact h
  | cons rule g ih =>
    obtain ⟨hBelowRule, hBelowRest⟩ := hBelow
    obtain ⟨hName, hRefs, hBounded, t, hSpells⟩ := hReadable rule mem_cons_self
    obtain ⟨hStep, -, -⟩ := getSymbolId_step h.tidy hNames hName
    obtain ⟨hSucceeds, hParsed⟩ := compile_parsed hNames (hNames _ hName) hSpells hRefs hBounded
      hStep.tidy hBelowRule
    have hRest : ∀ q, compileRule rule p = some q →
        rule.expr.Repeatable ∧ Reads names (rule :: done) q := by
      intro q hq
      obtain ⟨x, hx, hAdd⟩ := map_eq_some_iff.mp hq
      obtain ⟨hRepeatable, alts, hAlts⟩ := hParsed x hx
      exact ⟨hRepeatable, h.rule hNames hName hAlts hAdd⟩
    have hNext : ∀ q, compileRule rule p = some q → _ := fun q hq =>
      ih (fun rule' hMem => hReadable rule' (mem_cons_of_mem _ hMem)) (hRest q hq).2
        (hBelowRest q hq)
    constructor
    · intro hRepeatable
      obtain ⟨x, hx⟩ := hSucceeds (hRepeatable rule mem_cons_self)
      have hq : compileRule rule p = some _ := map_eq_some_iff.mpr ⟨x, hx, rfl⟩
      obtain ⟨q', hq'⟩ := (hNext _ hq).1 fun rule' hMem =>
        hRepeatable rule' (mem_cons_of_mem _ hMem)
      exact ⟨q', by rw [compileRules, hq]; exact hq'⟩
    intro q' hq'
    obtain ⟨q, hq, hRun⟩ := bind_eq_some_iff.mp hq'
    obtain ⟨hRepeatable, hReads⟩ := (hNext q hq).2 q' hRun
    refine ⟨fun rule' hMem => ?_, ?_⟩
    · rcases mem_cons.mp hMem with rfl | hMem
      · exact (hRest q hq).1
      · exact hRepeatable rule' hMem
    · rw [reverse_cons, append_assoc]
      exact hReads

/-! ## The meaning of a grammar -/

/-- The symbols and rules are those of the grammar: no id and no name is used twice, every
symbol has a rule of its own, and every rule derives the language of its definition. -/
structure Means (g : GbnfGrammar) (p : GrammarParser) : Prop where
  ids : (p.symbolIds.map Prod.snd).Nodup
  names : (p.symbolIds.map Prod.fst).Nodup
  rules : ∀ name r, (name, r) ∈ p.symbolIds → r < p.rules.length
  language : ∀ name e, definition g name = some e →
    ∃ r, p.symbolIds.lookup name = some r ∧
      ∀ w, Derivable p.rules r w ↔ e.Generates (definition g) w

variable {names : List (List UInt8)} {g : GbnfGrammar} {p : GrammarParser}

theorem definition_of_mem {name : List UInt8} (h : name ∈ g.map GbnfRule.name) :
    ∃ e, definition g name = some e := by
  obtain ⟨rule, hMem, rfl⟩ := mem_map.mp h
  cases hFind : g.reverse.find? fun rule' => rule'.name = rule.name with
  | none =>
    have hNot := find?_eq_none.mp hFind rule (mem_reverse.mpr hMem)
    simp at hNot
  | some rule' => exact ⟨rule'.expr, by rw [definition, hFind]; rfl⟩

section

variable (h : Reads (g.map GbnfRule.name) g.reverse p)

include h

theorem Reads.rule_ne_nil {name : List UInt8}
    {r : Nat} (hMem : (name, r) ∈ p.symbolIds) : p.rules.getD r [] ≠ [] := by
  rcases h.tidy.shape name r hMem with hName | ⟨base, -, rfl⟩
  · obtain ⟨e, he⟩ := definition_of_mem hName
    obtain ⟨rule, hRule, rfl⟩ := mem_map.mp hName
    obtain ⟨r', hr'⟩ := h.known rule (mem_reverse.mpr hRule)
    obtain rfl : r' = r := by
      have hEq := inj_on_of_nodup_map h.tidy.nodup (mem_of_lookup hr') hMem rfl
      exact congrArg Prod.snd hEq
    obtain ⟨alts, hIs, -⟩ := h.realised _ r' e hr' he
    rw [hIs.2]
    simp
  · exact h.complete r ⟨_, hMem, underscore_mem_generatedName base r⟩

theorem Reads.rules_length : p.rules.length = p.symbolIds.length := by
  apply le_antisymm h.tidy.length_le
  by_contra hLt
  have hId : p.rules.length ∈ p.symbolIds.map Prod.snd := by
    rw [h.tidy.ids, mem_range]
    omega
  obtain ⟨⟨name, r⟩, hMem, hr⟩ := mem_map.mp hId
  refine h.rule_ne_nil hMem ?_
  rw [show r = p.rules.length from hr]
  simp

theorem Reads.allDefined : GrammarParser.allDefined p.rules = true := by
  have hRules : ∀ r < p.rules.length, p.rules.getD r [] ≠ [] := by
    intro r hr
    have hId : r ∈ p.symbolIds.map Prod.snd := by
      rwa [h.tidy.ids, List.mem_range, ← h.rules_length]
    obtain ⟨⟨name, r'⟩, hMem, rfl⟩ := List.mem_map.mp hId
    exact h.rule_ne_nil hMem
  rw [GrammarParser.allDefined, List.all_eq_true]
  intro rule hMem
  obtain ⟨r, hr, rfl⟩ := List.mem_iff_getElem.mp hMem
  have hGet : p.rules.getD r [] = p.rules[r] := by
    rw [List.getD_eq_getElem?_getD, List.getElem?_eq_getElem hr]
    rfl
  rw [Bool.and_eq_true]
  constructor
  · have hNe := hRules r hr
    rw [hGet] at hNe
    simpa using hNe
  rw [List.all_eq_true]
  intro e he
  by_cases hRef : e.type = .ruleRef
  · have hLt := h.tidy.refs r e (hGet ▸ he) hRef
    rw [← h.rules_length] at hLt
    have hNe := hRules e.value hLt
    simp only [hRef, ne_eq, not_true_eq_false, decide_false, Bool.false_or, Bool.and_eq_true,
      decide_eq_true_eq, Bool.not_eq_true', List.isEmpty_eq_false_iff]
    exact ⟨hLt, hNe⟩
  · simp [hRef]

theorem Reads.means : Means g p := by
  have hRealises : p.Realises (definition g) := by
    intro name r hName hId
    have hIn : name ∈ g.map GbnfRule.name := by
      rcases h.tidy.shape name r (mem_of_lookup hId) with hIn | ⟨base, -, rfl⟩
      · exact hIn
      · exact absurd (underscore_mem_generatedName base r) hName
    obtain ⟨e, he⟩ := definition_of_mem hIn
    obtain ⟨alts, hRule, hCompiled⟩ := h.realised name r e hId he
    exact ⟨e, alts, he, hRule, hCompiled⟩
  refine ⟨h.tidy.ids ▸ nodup_range, h.tidy.nodup, fun name r hMem => ?_, fun name e he => ?_⟩
  · rw [h.rules_length]
    exact h.tidy.id_lt hMem
  obtain ⟨rule, hFind, -⟩ := map_eq_some_iff.mp he
  have hEq : rule.name = name := by simpa using find?_some hFind
  obtain ⟨r, hr⟩ := h.known rule (mem_of_find?_eq_some hFind)
  rw [hEq] at hr
  obtain ⟨alts, hRule, hCompiled⟩ := h.realised name r e hr he
  exact ⟨r, hr, derivable_iff_generates hRealises hRule hCompiled⟩

end

theorem SpellsRules.spelled (h : SpellsRules g t) {rule : GbnfRule}
    (hMem : rule ∈ g) : (∀ c ∈ rule.name, isWordChar c = true) ∧
      ∃ u, Spells false .alternates rule.expr u := by
  have hRule : ∀ {rule : GbnfRule} {t : List UInt8}, SpellsRule rule t →
      (∀ c ∈ rule.name, isWordChar c = true) ∧ ∃ u, Spells false .alternates rule.expr u := by
    intro rule t h
    cases h with
    | rule hName hWord hSp hSp' hBody hNe => exact ⟨hWord, _, hBody⟩
  induction h with
  | nil => simp at hMem
  | last h =>
    rw [mem_singleton.mp hMem]
    exact hRule h
  | cons h hEnd hSp hRest ih =>
    rcases mem_cons.mp hMem with rfl | hMem
    · exact hRule h
    · exact ih hMem

/-- GBNF compilation preserves meaning, as long as no repetition is applied to an item
without elements: `parse` throws at such a repetition. -/
theorem parse_means_iff {text : List UInt8} (hSpells : SpellsGrammar g text) (hClosed : Closed g)
    (hBounded : ∀ rule ∈ g, rule.expr.Bounded) (hBelow : BelowThreshold g {}) :
    (∃ p, GrammarParser.parse vocab text = some p ∧ Means g p) ↔
      ∀ rule ∈ g, rule.expr.Repeatable := by
  obtain ⟨-, sp, t, -, hRules, -⟩ := id hSpells
  have hNames : ∀ x ∈ g.map GbnfRule.name, '_'.toUInt8 ∉ x := by
    intro x hx
    obtain ⟨rule, hMem, rfl⟩ := mem_map.mp hx
    exact underscore_notMem_word (hRules.spelled hMem).1
  have hReadable : ∀ rule ∈ g, Readable (g.map GbnfRule.name) rule := fun rule hMem =>
    ⟨mem_map.mpr ⟨rule, hMem, rfl⟩, hClosed rule hMem, hBounded rule hMem,
      (hRules.spelled hMem).2⟩
  obtain ⟨hSucceeds, hReads⟩ := compileRules_reads hNames hReadable (Reads.nil _) hBelow
  rw [parse_spells hSpells]
  constructor
  · intro h
    obtain ⟨p, hp, -⟩ := h
    obtain ⟨q, hq, -⟩ := bind_eq_some_iff.mp hp
    exact (hReads q hq).1
  intro hRepeatable
  obtain ⟨p, hp⟩ := hSucceeds hRepeatable
  have hRead := (hReads p hp).2
  rw [append_nil] at hRead
  refine ⟨p, ?_, hRead.means⟩
  rw [hp]
  simp only [bind_some]
  rw [if_pos hRead.allDefined]

/-- `root ::= "ab"* [c-d]` -/
def copies : GbnfGrammar :=
  [⟨bytes "root", .seq (.repetition (.literal [0x61, 0x62]) 0 none)
    (.charClass false [⟨0x63, some 0x64⟩])⟩]

theorem blanks_nil {nested : Bool} : Blanks nested [] := fun _ hc => nomatch hc

theorem blanks_space {nested : Bool} : Blanks nested (bytes " ") := by
  intro c hc
  left
  simpa [bytes] using hc

theorem root_word : ∀ c ∈ bytes "root", isWordChar c = true := all_eq_true.mp rfl

theorem copies_spells : SpellsGrammar copies (bytes "root ::= \"ab\"* [c-d]") := by
  have hLiteral : SpellsChars [0x61, 0x62] (bytes "a" ++ (bytes "b" ++ [])) :=
    .cons (spellsChar_plain (by decide) (by decide)) (by decide)
      (.cons (spellsChar_plain (by decide) (by decide)) (by decide) .nil)
  have hItems : SpellsItems [⟨0x63, some 0x64⟩] (bytes "c" ++ bytes "-" ++ bytes "d" ++ []) :=
    .range (spellsChar_plain (by decide) (by decide)) (by decide)
      (spellsChar_plain (by decide) (by decide)) (by decide) .nil
  have hBody := Spells.one (.seq
    (.single (.repetition (.literal hLiteral blanks_nil) (.star (@blanks_space false))))
    (.charClass hItems (by decide) blanks_nil) (by
      intro c d _ hd _
      obtain rfl : '['.toUInt8 = d := some.inj hd
      decide))
  exact ⟨by decide, [], _, blanks_nil, .last (.rule (by decide) root_word blanks_space
    blanks_space hBody (by decide)), by decide⟩

/-- The grammar keeps its meaning. -/
theorem copies_means : ∃ p, GrammarParser.parse none (bytes "root ::= \"ab\"* [c-d]") = some p ∧
    Means copies p := by
  refine (parse_means_iff copies_spells ?_ ?_ ?_).mpr ?_
  · intro rule hMem name hName
    rw [mem_singleton.mp hMem] at hName
    simp [references] at hName
  · intro rule hMem
    rw [mem_singleton.mp hMem]
    exact ⟨⟨trivial, by decide, by simp⟩, by simp [Bounded]⟩
  · refine ⟨⟨⟨trivial, fun x hx => ?_⟩, fun _ _ => trivial⟩, fun _ _ => trivial⟩
    obtain rfl := some.inj hx
    decide
  intro rule hMem
  rw [mem_singleton.mp hMem]
  exact ⟨⟨rfl, trivial⟩, trivial⟩

/-- `root ::= ""*` -/
def voidCopies : GbnfGrammar := [⟨bytes "root", .repetition (.literal []) 0 none⟩]

/-- The language of the grammar is the empty string, and `parse` throws. -/
theorem voidCopies_fails : SpellsGrammar voidCopies (bytes "root ::= \"\"*") ∧ Closed voidCopies ∧
    (∀ rule ∈ voidCopies, rule.expr.Bounded) ∧ BelowThreshold voidCopies {} ∧
    ¬∃ p, GrammarParser.parse none (bytes "root ::= \"\"*") = some p ∧ Means voidCopies p := by
  refine ⟨?_, ?_, ?_, ?_, ?_⟩
  · have hBody := Spells.one (.single (.repetition (.literal .nil blanks_nil)
      (.star (@blanks_nil false))))
    exact ⟨by decide, [], _, blanks_nil, .last (.rule (by decide) root_word blanks_space
      blanks_space hBody (by decide)), by decide⟩
  · intro rule hMem name hName
    rw [mem_singleton.mp hMem] at hName
    simp [references] at hName
  · intro rule hMem
    rw [mem_singleton.mp hMem]
    exact ⟨trivial, by decide, by simp⟩
  · refine ⟨⟨trivial, fun x hx => ?_⟩, fun _ _ => trivial⟩
    obtain rfl := some.inj hx
    decide
  have hNone : parse none (bytes "root ::= \"\"*") = none := by decide
  rintro ⟨p, hp, -⟩
  rw [hNone] at hp
  cases hp

end GbnfGrammar

end Beellama.Ports
