import Beellama.Ports.GrammarText

/-!
# The parser on the text of an expression

On every text that spells an expression `parse_sequence` and `parse_alternates` come to
what `compile` says, exceptions included, and stop behind it (`parseAlternates_spells`).
The proof follows the spelling; every turn of the loop of `parse_sequence` reads one
token with the blanks behind it.
-/

namespace Beellama.Ports

open GrammarParser GrammarElement List Option

namespace GbnfExpr

/-! ## Spelled texts -/

variable {m : Nat} {n : Option Nat} {t : List UInt8} {nested : Bool}

theorem SpellsBounds.head (h : SpellsBounds nested m n t) :
    ∃ c src, t = c :: src ∧ Solid c ∧ isWordChar c = false := by
  cases h with
  | star hSp => exact ⟨'*'.toUInt8, _, rfl, by decide, by decide⟩
  | plus hSp => exact ⟨'+'.toUInt8, _, rfl, by decide, by decide⟩
  | optional hSp => exact ⟨'?'.toUInt8, _, rfl, by decide, by decide⟩
  | exactly h₁ hNat h₂ h₃ => exact ⟨'{'.toUInt8, _, rfl, by decide, by decide⟩
  | atLeast h₁ hNat h₂ h₃ h₄ => exact ⟨'{'.toUInt8, _, rfl, by decide, by decide⟩
  | between h₁ hMin h₂ h₃ hMax h₄ h₅ => exact ⟨'{'.toUInt8, _, rfl, by decide, by decide⟩

variable {e : GbnfExpr}

theorem Spells.item_ne_nil (h : Spells nested .item e t) : t ≠ [] := by
  generalize hLevel : Level.item = level at h
  induction h with
  | ref hName hWord hSp => exact append_ne_nil_of_left_ne_nil hName _
  | repetition hBody hBounds ih => exact append_ne_nil_of_left_ne_nil (ih hLevel) _
  | literal _ _ | charClass _ _ _ | negated _ _ | any _ | group _ _ _ => simp
  | empty | single _ | seq _ _ _ | one _ | alt _ _ _ _ => cases hLevel

variable {level : Level} {c : UInt8}

theorem Spells.solid (h : Spells nested level e t) (hHead : t.head? = some c) : Solid c := by
  induction h with
  | literal hChars hSp | charClass hItems hFirst hSp | negated hItems hSp | any hSp
  | group hSp hBody hSp' ih =>
    simp only [bytes_quote, bytes_bracket, bytes_caret, bytes_dot, bytes_open, cons_append,
      head?_cons, some.injEq] at hHead
    rw [← hHead]
    decide
  | @ref nested name sp hName hWord hSp =>
    obtain ⟨d, name, rfl⟩ := exists_cons_of_ne_nil hName
    obtain rfl : d = c := by simpa using hHead
    exact solid_of_word (hWord d mem_cons_self)
  | @repetition nested e m n t o hBody hBounds ih =>
    obtain ⟨d, t, rfl⟩ := exists_cons_of_ne_nil hBody.item_ne_nil
    exact ih (by simpa using hHead)
  | empty => simp at hHead
  | single hItem ih => exact ih hHead
  | @seq nested e f t u hFirst hNext hApart ihFirst ihNext =>
    cases t with
    | nil => exact ihNext hHead
    | cons d t => exact ihFirst (by simpa using hHead)
  | one hSequence ih => exact ih hHead
  | @alt nested e f t u sp hFirst hSp hNext hLast ihFirst ihNext =>
    cases t with
    | nil =>
      obtain rfl : '|'.toUInt8 = c := by simpa using hHead
      decide
    | cons d t => exact ihFirst (by simpa using hHead)

theorem Spells.depth_le (h : Spells nested level e t) : e.depth ≤ t.length := by
  induction h with
  | literal _ _ | charClass _ _ _ | negated _ _ | any _ | ref _ _ _ | empty => exact Nat.zero_le _
  | group hSp hBody hSp' ih =>
    simp only [depth, bytes_open, length_append, length_cons]
    omega
  | repetition hBody hBounds ih =>
    rw [depth, length_append]
    omega
  | single _ ih | one _ ih => exact ih
  | seq hFirst hNext hApart ihFirst ihNext =>
    rw [depth, length_append]
    omega
  | alt hFirst hSp hNext hLast ihFirst ihNext =>
    simp only [depth, length_append]
    omega

variable {rest : List UInt8}

/-- `parse_space` stands still in front of a spelled text, if it does behind it. -/
theorem Spells.stops {nested skip : Bool}
    (h : Spells nested level e t) (hRest : t = [] → Stops skip rest) : Stops skip (t ++ rest) := by
  cases t with
  | nil => exact hRest rfl
  | cons c t => exact stops_solid (h.solid rfl) _

/-! ## Tokens -/

variable {sp : List UInt8}

section Run

variable {vocab : Option (List UInt8 → List Nat)} {inner : ParseAlternates}
variable {ruleName : List UInt8} {nested : Bool}

variable {src : List UInt8}

theorem sequenceLoop_token {s : SequenceState}
    {p : GrammarParser} {r : Option (SequenceState × GrammarParser)}
    (h : sequenceStep vocab inner ruleName nested c src s p =
      r.map fun x => some (rest, x.1, x.2)) (fuel : Nat) :
    sequenceLoop vocab inner ruleName nested (fuel + 1) (c :: src) s p =
      r.bind fun x => sequenceLoop vocab inner ruleName nested fuel rest x.1 x.2 := by
  rw [sequenceLoop, h]
  cases r <;> rfl

theorem sequenceStep_literal {chars : List Nat}
    (hChars : SpellsChars chars t) (hSp : Blanks nested sp) (hStops : Stops nested rest)
    (s : SequenceState) (p : GrammarParser) :
    sequenceStep vocab inner ruleName nested '"'.toUInt8 (t ++ '"'.toUInt8 :: (sp ++ rest)) s p =
      (compile ruleName (.literal chars) s p).map fun x => some (rest, x.1, x.2) := by
  simp only [sequenceStep]
  rw [if_pos trivial, literalLoop_spells hChars (by rw [length_append]; omega)]
  simp only [bind_eq_bind, bind_some, compile, map_some]
  rw [hStops.behind hSp]

theorem sequenceStep_class (negated : Bool) {items : List ClassItem}
    (hItems : SpellsItems items t) (hHead : negated = false → t.head? ≠ some '^'.toUInt8)
    (hSp : Blanks nested sp) (hStops : Stops nested rest) (s : SequenceState) (p : GrammarParser) :
    sequenceStep vocab inner ruleName nested '['.toUInt8
        ((if negated then ['^'.toUInt8] else []) ++ (t ++ ']'.toUInt8 :: (sp ++ rest))) s p =
      (compile ruleName (.charClass negated items) s p).map fun x => some (rest, x.1, x.2) := by
  have hType : ∀ startType : Gretype,
      (if s.rule.length < s.rule.length then Gretype.charAlt else startType) = startType :=
    fun startType => if_neg (lt_irrefl _)
  simp only [sequenceStep]
  rw [if_neg (by decide), if_pos trivial]
  cases negated with
  | true =>
    simp only [if_true, cons_append, nil_append, head?_cons, tail_cons]
    rw [classLoop_spells hItems (by rw [length_append]; omega) _ _ le_rfl]
    simp only [bind_eq_bind, bind_some, compile, map_some, if_true]
    rw [hStops.behind hSp, hType]
  | false =>
    have hNot : ¬(t ++ ']'.toUInt8 :: (sp ++ rest)).head? = some '^'.toUInt8 := by
      cases t with
      | nil =>
        rw [nil_append, head?_cons]
        decide
      | cons b t => exact hHead rfl
    simp only [Bool.false_eq_true, if_false, nil_append, if_neg hNot]
    rw [classLoop_spells hItems (by rw [length_append]; omega) _ _ le_rfl]
    simp only [bind_eq_bind, bind_some, compile, map_some,
      Bool.false_eq_true, if_false]
    rw [hStops.behind hSp, hType]

theorem sequenceStep_any (hSp : Blanks nested sp)
    (hStops : Stops nested rest) (s : SequenceState) (p : GrammarParser) :
    sequenceStep vocab inner ruleName nested '.'.toUInt8 (sp ++ rest) s p =
      (compile ruleName .any s p).map fun x => some (rest, x.1, x.2) := by
  simp only [sequenceStep]
  rw [if_neg (by decide), if_neg (by decide), if_neg (by decide), if_neg (by decide), hStops.behind hSp]
  rfl

theorem sequenceStep_ref {name : List UInt8}
    (hWord : ∀ d ∈ c :: name, isWordChar d = true) (hSp : Blanks nested sp)
    (hStops : Stops nested rest) (hApart : Apart (c :: name ++ sp) rest) (s : SequenceState)
    (p : GrammarParser) :
    sequenceStep vocab inner ruleName nested c (name ++ (sp ++ rest)) s p =
      (compile ruleName (.ref (c :: name)) s p).map fun x => some (rest, x.1, x.2) := by
  have hFirst : isWordChar c = true := hWord c mem_cons_self
  have hNot : ∀ d : UInt8, isWordChar d = false → ¬c = d := by
    rintro d hOther rfl
    rw [hOther] at hFirst
    cases hFirst
  have hEnd : ∀ d, (sp ++ rest).head? = some d → isWordChar d = false := by
    intro d hHead
    cases sp with
    | nil =>
      obtain ⟨b, hLast⟩ : ∃ b, (c :: name).getLast? = some b :=
        ⟨_, getLast?_eq_some_getLast (cons_ne_nil c name)⟩
      refine hApart b d (by simpa using hLast) hHead ?_
      exact hWord b (mem_of_getLast? hLast)
    | cons b sp =>
      obtain rfl : b = d := by simpa using hHead
      exact not_word_of_blank (hSp b mem_cons_self)
  have hName := parseName_word (cons_ne_nil c name) hWord hEnd
  simp only [sequenceStep]
  rw [if_neg (hNot _ (by decide)), if_neg (hNot _ (by decide)),
    if_neg (not_or.mpr ⟨hNot _ (by decide), hNot _ (by decide)⟩), if_pos hFirst,
    ← cons_append, hName]
  simp only [bind_eq_bind, bind_some, compile, map_some]
  rw [hStops.behind hSp]

theorem sequenceStep_brace (hParse : parseBounds (parseSpace src nested) nested = some (m, n, rest))
    (s : SequenceState) (p : GrammarParser) :
    sequenceStep vocab inner ruleName nested '{'.toUInt8 src s p =
      (if maxRepetitionThreshold < m then none
        else handleRepetitions ruleName m (boundedMax n) s p).map fun x =>
          some (rest, x.1, x.2) := by
  simp only [sequenceStep]
  rw [if_neg (by decide), if_neg (by decide), if_neg (by decide), if_neg (by decide), hParse]
  simp only [bind_eq_bind, bind_some]
  by_cases hMin : maxRepetitionThreshold < m
  · rw [if_pos hMin, if_pos hMin]
    rfl
  · rw [if_neg hMin, if_neg hMin]
    rfl

theorem sequenceStep_bounds
    (hBounds : SpellsBounds nested m n (c :: src)) (hStops : Stops nested rest)
    (s : SequenceState) (p : GrammarParser) :
    sequenceStep vocab inner ruleName nested c (src ++ rest) s p =
      (if maxRepetitionThreshold < m then none
        else handleRepetitions ruleName m (boundedMax n) s p).map fun x =>
          some (rest, x.1, x.2) := by
  generalize hText : c :: src = text at hBounds
  cases hBounds with
  | star hSp =>
    simp only [bytes_star] at hText
    obtain ⟨rfl, rfl⟩ := cons.inj hText
    simp only [sequenceStep]
    rw [if_neg (by decide), if_neg (by decide), if_neg (by decide), if_neg (by decide),
      if_pos trivial, if_neg (by decide), hStops.behind hSp]
    rfl
  | plus hSp =>
    simp only [bytes_plus, cons_append, nil_append] at hText
    obtain ⟨rfl, rfl⟩ := cons.inj hText
    simp only [sequenceStep]
    rw [if_neg (by decide), if_neg (by decide), if_neg (by decide), if_neg (by decide),
      if_neg (by decide), hStops.behind hSp]
    rfl
  | optional hSp =>
    simp only [bytes_question, cons_append, nil_append] at hText
    obtain ⟨rfl, rfl⟩ := cons.inj hText
    simp only [sequenceStep]
    rw [if_neg (by decide), if_neg (by decide), if_neg (by decide), if_neg (by decide),
      if_pos trivial, if_neg (by decide), hStops.behind hSp]
    rfl
  | exactly h₁ hNat h₂ h₃ =>
    simp only [bytes_brace, cons_append,
      nil_append] at hText
    obtain ⟨rfl, rfl⟩ := cons.inj hText
    obtain ⟨d, ds, rfl⟩ := exists_cons_of_ne_nil hNat.1
    apply sequenceStep_brace
    simp only [append_assoc, cons_append]
    rw [Stops.behind h₁ (stops_solid (solid_of_digit (hNat.2.1 d mem_cons_self)) _)]
    exact parseBounds_exactly hNat h₂ h₃ hStops
  | atLeast h₁ hNat h₂ h₃ h₄ =>
    simp only [bytes_brace, append_assoc, cons_append,
      nil_append] at hText
    obtain ⟨rfl, rfl⟩ := cons.inj hText
    obtain ⟨d, ds, rfl⟩ := exists_cons_of_ne_nil hNat.1
    apply sequenceStep_brace
    simp only [append_assoc, cons_append]
    rw [Stops.behind h₁ (stops_solid (solid_of_digit (hNat.2.1 d mem_cons_self)) _)]
    exact parseBounds_atLeast hNat h₂ h₃ h₄ hStops
  | between h₁ hMin h₂ h₃ hMax h₄ h₅ =>
    simp only [bytes_brace, bytes_braceClosing, bytes_comma, append_assoc, cons_append,
      nil_append] at hText
    obtain ⟨rfl, rfl⟩ := cons.inj hText
    obtain ⟨d, ds, rfl⟩ := exists_cons_of_ne_nil hMin.1
    apply sequenceStep_brace
    simp only [append_assoc, cons_append]
    rw [Stops.behind h₁ (stops_solid (solid_of_digit (hMin.2.1 d mem_cons_self)) _)]
    exact parseBounds_between hMin h₂ h₃ hMax h₄ h₅ hStops

end Run

/-! ## Sequences and alternates -/

/-- The loop of `parse_sequence` on the text of an expression, whatever follows it. -/
def SequenceRuns (vocab : Option (List UInt8 → List Nat)) (inner : ParseAlternates)
    (ruleName : List UInt8) (nested : Bool) (e : GbnfExpr) (t : List UInt8) : Prop :=
  ∃ k ≤ t.length, ∀ fuel rest s p, Stops nested rest → Apart t rest →
    sequenceLoop vocab inner ruleName nested (fuel + k) (t ++ rest) s p =
      (compile ruleName e s p).bind fun x =>
        sequenceLoop vocab inner ruleName nested fuel rest x.1 x.2

/-- The end of a sequence. -/
def Ends (nested : Bool) (rest : List UInt8) : Prop :=
  ∀ c, rest.head? = some c → c = '|'.toUInt8 ∨ c = ')'.toUInt8 ∨
    nested = false ∧ (c = '\r'.toUInt8 ∨ c = '\n'.toUInt8)

/-- `parse_alternates` on the text of an expression, up to its last loop. -/
def AlternatesRuns (vocab : Option (List UInt8 → List Nat)) (inner : ParseAlternates)
    (ruleName : List UInt8) (nested : Bool) (e : GbnfExpr) (t : List UInt8) : Prop :=
  ∃ k ≤ t.length, ∀ fuel rest p, Ends nested rest →
    ((parseSequence vocab inner (t ++ rest) ruleName [] nested p).bind fun x =>
      alternatesLoop vocab inner ruleName nested (fuel + k) x.1 x.2.1 x.2.2) =
      (compile ruleName e ⟨[], 0, 1⟩ p).bind fun x =>
        alternatesLoop vocab inner ruleName nested fuel rest x.1.rule x.2

theorem Ends.not_word (h : Ends nested rest)
    (hHead : rest.head? = some c) : isWordChar c = false := by
  rcases h c hHead with rfl | rfl | ⟨-, rfl | rfl⟩ <;> decide

theorem Ends.stops (h : Ends nested rest) : Stops nested rest := by
  cases rest with
  | nil => exact stops_nil
  | cons c rest =>
    rcases h c rfl with rfl | rfl | ⟨rfl, hEnd⟩
    · exact stops_solid (by decide) rest
    · exact stops_solid (by decide) rest
    · show parseSpaceFrom false false (c :: rest) = c :: rest
      rw [parseSpaceFrom, if_pos hEnd, if_neg (by decide)]

theorem Ends.apart (h : Ends nested rest) (t : List UInt8) : Apart t rest :=
  fun _ _ _ hHead _ => h.not_word hHead

section Run

variable {vocab : Option (List UInt8 → List Nat)} {inner : ParseAlternates}
variable {ruleName : List UInt8} {nested : Bool}

theorem SequenceRuns.token (h : ∀ rest s p, Stops nested rest → Apart (c :: t) rest →
      sequenceStep vocab inner ruleName nested c (t ++ rest) s p =
        (compile ruleName e s p).map fun x => some (rest, x.1, x.2)) :
    SequenceRuns vocab inner ruleName nested e (c :: t) := by
  refine ⟨1, by rw [length_cons]; omega, fun fuel rest s p hStops hApart => ?_⟩
  exact sequenceLoop_token (h rest s p hStops hApart) fuel

theorem sequenceLoop_ends (h : Ends nested rest) (fuel : Nat)
    (s : SequenceState) (p : GrammarParser) :
    sequenceLoop vocab inner ruleName nested (fuel + 1) rest s p = some (rest, s.rule, p) := by
  cases rest with
  | nil => rfl
  | cons c rest =>
    have hStep : sequenceStep vocab inner ruleName nested c rest s p = some none := by
      rcases h c rfl with rfl | rfl | ⟨-, rfl | rfl⟩
      all_goals
        simp only [sequenceStep]
        rw [if_neg (by decide), if_neg (by decide), if_neg (by decide), if_neg (by decide),
          if_neg (by decide), if_neg (by decide), if_neg (by decide), if_neg (by decide),
          if_neg (by decide), if_neg (by decide)]
    rw [sequenceLoop, hStep]

variable (h : SequenceRuns vocab inner ruleName nested e t)

include h

theorem SequenceRuns.parseSequence (hEnds : Ends nested rest)
    (rule : GrammarRule) (p : GrammarParser) :
    GrammarParser.parseSequence vocab inner (t ++ rest) ruleName rule nested p =
      (compile ruleName e ⟨rule, rule.length, 1⟩ p).map fun x => (rest, x.1.rule, x.2) := by
  obtain ⟨k, hk, hRun⟩ := h
  obtain ⟨fuel, hFuel⟩ : ∃ fuel, (t ++ rest).length + 1 = fuel + 1 + k :=
    ⟨(t ++ rest).length - k, by rw [length_append]; omega⟩
  rw [GrammarParser.parseSequence, hFuel, hRun _ _ _ _ hEnds.stops (hEnds.apart t)]
  simp only [sequenceLoop_ends hEnds]
  cases compile ruleName e ⟨rule, rule.length, 1⟩ p <;> rfl

theorem SequenceRuns.alternates : AlternatesRuns vocab inner ruleName nested e t := by
  refine ⟨0, Nat.zero_le _, fun fuel rest p hEnds => ?_⟩
  rw [h.parseSequence hEnds]
  cases compile ruleName e ⟨[], 0, 1⟩ p <;> rfl

variable {f : GbnfExpr} {u : List UInt8}

omit h in
theorem AlternatesRuns.alt (h : AlternatesRuns vocab inner ruleName nested e t)
    (hNext : SequenceRuns vocab inner ruleName nested f u) (hSp : Blanks true sp)
    (hStops : ∀ rest, Ends nested rest → Stops true (u ++ rest)) :
    AlternatesRuns vocab inner ruleName nested (.alt e f) (t ++ bytes "|" ++ sp ++ u) := by
  obtain ⟨k, hk, hRun⟩ := h
  refine ⟨k + 1, ?_, fun fuel rest p hEnds => ?_⟩
  · rw [bytes_bar]
    simp only [length_append, length_singleton]
    omega
  have hBar : Ends nested ('|'.toUInt8 :: (sp ++ (u ++ rest))) := by
    intro c hHead
    left
    simpa using hHead.symm
  have hFirst := hRun (fuel + 1) ('|'.toUInt8 :: (sp ++ (u ++ rest))) p hBar
  simp only [bytes_bar, append_assoc, cons_append, nil_append]
  rw [show fuel + (k + 1) = fuel + 1 + k by omega, hFirst, compile]
  cases compile ruleName e ⟨[], 0, 1⟩ p with
  | none => rfl
  | some x =>
    simp only [bind_some]
    rw [alternatesLoop, tail_cons, (hStops rest hEnds).behind hSp,
      hNext.parseSequence hEnds, length_append, length_singleton]
    cases compile ruleName f ⟨x.1.rule ++ [⟨.alt, 0⟩], x.1.rule.length + 1, 1⟩ x.2 <;> rfl

omit h in
theorem SequenceRuns.empty : SequenceRuns vocab inner ruleName nested .empty [] :=
  ⟨0, le_rfl, fun _ _ _ _ _ _ => rfl⟩

theorem SequenceRuns.seq (hNext : SequenceRuns vocab inner ruleName nested f u) (hNe : u ≠ [])
    (hStops : ∀ rest, Stops nested (u ++ rest)) (hApart : Apart t u) :
    SequenceRuns vocab inner ruleName nested (.seq e f) (t ++ u) := by
  obtain ⟨k, hk, hRun⟩ := h
  obtain ⟨k', hk', hRun'⟩ := hNext
  refine ⟨k + k', by rw [length_append]; omega, fun fuel rest s p hRest hBehind => ?_⟩
  have hFirst : Apart t (u ++ rest) := by
    intro c d hLast hHead
    refine hApart c d hLast ?_
    rwa [head?_append_of_ne_nil _ hNe] at hHead
  have hSecond : Apart u rest := by
    intro c d hLast
    refine hBehind c d ?_
    rwa [getLast?_append_of_ne_nil _ hNe]
  rw [append_assoc, show fuel + (k + k') = fuel + k' + k by omega,
    hRun _ _ _ _ (hStops rest) hFirst, compile]
  cases compile ruleName e s p with
  | none => rfl
  | some x =>
    exact hRun' _ _ _ _ hRest hSecond

theorem SequenceRuns.repetition {o : List UInt8} (hBounds : SpellsBounds nested m n o) :
    SequenceRuns vocab inner ruleName nested (.repetition e m n) (t ++ o) := by
  obtain ⟨k, hk, hRun⟩ := h
  obtain ⟨c, src, rfl, hSolid, hNotWord⟩ := hBounds.head
  refine ⟨k + 1, by rw [length_append, length_cons]; omega,
    fun fuel rest s p hRest hBehind => ?_⟩
  have hApart : Apart t (c :: (src ++ rest)) := by
    intro b d _ hHead _
    obtain rfl : c = d := by simpa using hHead
    exact hNotWord
  rw [append_assoc, cons_append, show fuel + (k + 1) = fuel + 1 + k by omega,
    hRun _ _ _ _ (stops_solid hSolid _) hApart, compile]
  cases compile ruleName e s p with
  | none => rfl
  | some x =>
    exact sequenceLoop_token (sequenceStep_bounds hBounds hRest x.1 x.2) fuel

omit h

theorem SequenceRuns.group {e : GbnfExpr} {t sp sp' : List UInt8}
    (h : ∀ rest ruleId p, inner (t ++ ')'.toUInt8 :: rest) ruleName ruleId true p =
      (compile ruleName e ⟨[], 0, 1⟩ p).map fun x =>
        (')'.toUInt8 :: rest, x.2.addRule ruleId (x.1.rule ++ [⟨.endOfRule, 0⟩])))
    (hSp : Blanks true sp) (hStops : ∀ rest, Stops true (t ++ ')'.toUInt8 :: rest))
    (hSp' : Blanks nested sp') :
    SequenceRuns vocab inner ruleName nested (.group e) (bytes "(" ++ sp ++ t ++ bytes ")" ++ sp') := by
  simp only [bytes_open, bytes_close, append_assoc, cons_append, nil_append]
  apply SequenceRuns.token
  intro rest s p hRest hApart
  simp only [sequenceStep, append_assoc, cons_append]
  rw [if_neg (by decide), if_neg (by decide), if_neg (by decide), if_neg (by decide),
    if_pos trivial, (hStops _).behind hSp, h, compile]
  cases compile ruleName e ⟨[], 0, 1⟩ (p.generateSymbolId ruleName).2 with
  | none => rfl
  | some x =>
    simp only [bind_eq_bind, map_some, bind_some]
    rw [if_pos trivial, hRest.behind hSp']

variable {depth : Nat}

theorem AlternatesRuns.parseAlternates
    (h : AlternatesRuns vocab (parseAlternates vocab depth) ruleName nested e t)
    (hEnds : Ends nested rest) (hLast : rest.head? ≠ some '|'.toUInt8) (ruleId : Nat)
    (p : GrammarParser) :
    GrammarParser.parseAlternates vocab (depth + 1) (t ++ rest) ruleName ruleId nested p =
      (compile ruleName e ⟨[], 0, 1⟩ p).map fun x =>
        (rest, x.2.addRule ruleId (x.1.rule ++ [⟨.endOfRule, 0⟩])) := by
  obtain ⟨k, hk, hRun⟩ := h
  obtain ⟨fuel, hFuel⟩ : ∃ fuel, (t ++ rest).length + 1 = fuel + 1 + k :=
    ⟨(t ++ rest).length - k, by rw [length_append]; omega⟩
  have hRuns := hRun (fuel + 1) rest p hEnds
  have hEnd : ∀ (rule : GrammarRule) (p : GrammarParser),
      alternatesLoop vocab (GrammarParser.parseAlternates vocab depth) ruleName nested (fuel + 1)
        rest rule p = some (rest, rule, p) := by
    intro rule p
    rw [alternatesLoop, if_neg hLast]
  simp only [hEnd] at hRuns
  show ((GrammarParser.parseSequence vocab (GrammarParser.parseAlternates vocab depth) (t ++ rest)
    ruleName [] nested p).bind fun x => (alternatesLoop vocab
      (GrammarParser.parseAlternates vocab depth) ruleName nested ((t ++ rest).length + 1) x.1 x.2.1
      x.2.2).bind fun y => some (y.1, y.2.2.addRule ruleId (y.2.1 ++ [⟨.endOfRule, 0⟩]))) = _
  rw [← bind_assoc, hFuel, hRuns]
  cases compile ruleName e ⟨[], 0, 1⟩ p <;> rfl

/-- What the parser does on the text of an expression of a level. -/
def Level.Runs (vocab : Option (List UInt8 → List Nat)) (inner : ParseAlternates)
    (ruleName : List UInt8) (nested : Bool) (e : GbnfExpr) (t : List UInt8) : Level → Prop
  | .item | .sequence => SequenceRuns vocab inner ruleName nested e t
  | .alternates => AlternatesRuns vocab inner ruleName nested e t

/-- The parser reads the text of an expression of any level as the expression. -/
theorem Spells.runs (h : Spells nested level e t) (hDepth : e.depth ≤ depth) :
    level.Runs vocab (GrammarParser.parseAlternates vocab depth) ruleName nested e t := by
  induction h generalizing depth with
  | @literal nested chars t sp hChars hSp =>
    simp only [bytes_quote, cons_append, nil_append]
    apply SequenceRuns.token
    intro rest s p hRest _
    simp only [append_assoc]
    exact sequenceStep_literal hChars hSp hRest s p
  | @charClass nested items t sp hItems hHead hSp =>
    simp only [bytes_bracket, append_assoc, cons_append]
    apply SequenceRuns.token
    intro rest s p hRest _
    simp only [append_assoc]
    exact sequenceStep_class false hItems (fun _ => hHead) hSp hRest s p
  | @negated nested items t sp hItems hSp =>
    simp only [bytes_caret, bytes_closing, append_assoc, cons_append, nil_append]
    apply SequenceRuns.token
    intro rest s p hRest _
    simp only [append_assoc, cons_append]
    exact sequenceStep_class true hItems (fun hFalse => Bool.noConfusion hFalse) hSp hRest s p
  | @any nested sp hSp =>
    apply SequenceRuns.token
    intro rest s p hRest _
    exact sequenceStep_any hSp hRest s p
  | @ref nested name sp hName hWord hSp =>
    obtain ⟨c, name, rfl⟩ := exists_cons_of_ne_nil hName
    rw [cons_append]
    apply SequenceRuns.token
    intro rest s p hRest hApart
    rw [append_assoc]
    exact sequenceStep_ref hWord hSp hRest hApart s p
  | @group nested e t sp sp' hSp hBody hSp' ih =>
    obtain ⟨depth, rfl⟩ : ∃ n, depth = n + 1 := ⟨depth - 1, by rw [GbnfExpr.depth] at hDepth; omega⟩
    have hInner : AlternatesRuns vocab (GrammarParser.parseAlternates vocab depth) ruleName true
        e t := ih (Nat.le_of_succ_le_succ hDepth)
    have hClose : ∀ rest, Ends true (')'.toUInt8 :: rest) := by
      intro rest c hHead
      right
      simpa using hHead.symm
    refine SequenceRuns.group (fun rest ruleId p => ?_) hSp (fun rest => ?_) hSp'
    · exact hInner.parseAlternates (hClose rest) (by rw [head?_cons]; decide) ruleId p
    · exact hBody.stops fun _ => (hClose rest).stops
  | repetition hBody hBounds ih => exact SequenceRuns.repetition (ih hDepth) hBounds
  | empty => exact SequenceRuns.empty
  | single hItem ih => exact ih hDepth
  | @seq nested e f t u hFirst hNext hApart ihFirst ihNext =>
    have hNe := hNext.item_ne_nil
    refine SequenceRuns.seq (ihFirst (le_trans (le_max_left _ _) hDepth))
      (ihNext (le_trans (le_max_right _ _) hDepth)) hNe (fun rest => ?_) hApart
    exact hNext.stops fun hEmpty => absurd hEmpty hNe
  | one hSequence ih => exact SequenceRuns.alternates (ih hDepth)
  | @alt nested e f t u sp hFirst hSp hNext hLast ihFirst ihNext =>
    refine AlternatesRuns.alt (ihFirst (le_trans (le_max_left _ _) hDepth))
      (ihNext (le_trans (le_max_right _ _) hDepth)) hSp fun rest hEnds => ?_
    apply hNext.stops
    intro hEmpty
    -- a last empty alternative stands in a group, where no end of line follows
    rcases hLast with rfl | hNe
    · exact hEnds.stops
    · exact absurd hEmpty hNe

/-- `parse_alternates` on the text of an expression, up to an end of alternates. -/
theorem parseAlternates_spells (h : Spells nested .alternates e t) (hDepth : e.depth < depth)
    (hEnds : Ends nested rest) (hLast : rest.head? ≠ some '|'.toUInt8) (ruleId : Nat)
    (p : GrammarParser) :
    GrammarParser.parseAlternates vocab depth (t ++ rest) ruleName ruleId nested p =
      (compile ruleName e ⟨[], 0, 1⟩ p).map fun x =>
        (rest, x.2.addRule ruleId (x.1.rule ++ [⟨.endOfRule, 0⟩])) := by
  obtain ⟨depth, rfl⟩ : ∃ n, depth = n + 1 := ⟨depth - 1, by omega⟩
  have hRuns : AlternatesRuns vocab (GrammarParser.parseAlternates vocab depth) ruleName nested
      e t := h.runs (Nat.le_of_lt_succ hDepth)
  exact hRuns.parseAlternates hEnds hLast ruleId p

end Run

end GbnfExpr

end Beellama.Ports
