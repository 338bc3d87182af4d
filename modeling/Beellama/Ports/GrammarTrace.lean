import Beellama.Ports.GrammarParser
import Beellama.Verified.Metered
import Beellama.Verified.StateTriple

/-!
# What the GBNF parser does on the way

The parser of `GrammarParser` once more, method by method, counting the calls of `add_rule` and keeping
the bounds of each repetition, also when it throws.  An exception of the source is `thrown`;
`exhausted` is the end of a loop counter, which the source does not have.
-/

namespace Beellama.Ports

open Beellama.Verified Option GrammarParser

/-- How a parse stops without a result. -/
inductive ParseStop
  | thrown
  | exhausted
  deriving DecidableEq, Repr

/-- A repetition that `handle_repetitions` has expanded, with the rules it added. -/
structure Expansion where
  minTimes : Nat
  maxTimes : Option Nat
  added : Nat
  deriving DecidableEq, Repr

/-- The parser with the number of rules added and the repetitions expanded. -/
structure ParseTrace where
  parser : GrammarParser := {}
  added : Nat := 0
  expansions : List Expansion := []
  deriving DecidableEq, Repr

abbrev TraceM := EStateM ParseStop ParseTrace

namespace GrammarTrace

open GrammarParser (isWordChar isDigitChar parseChar parseToken parseName parseInt parseSpace
  parseBounds maxRepetitionThreshold totalRules optionalTimes allDefined SequenceState)

/-- A result, or an exception of the source. -/
def orThrow {α : Type} : Option α → TraceM α
  | some a => pure a
  | none => throw .thrown

/-! ## Symbols and rules -/

def getSymbolId (name : List UInt8) : TraceM Nat := fun t =>
  .ok (t.parser.getSymbolId name).1 { t with parser := (t.parser.getSymbolId name).2 }

def generateSymbolId (baseName : List UInt8) : TraceM Nat := fun t =>
  .ok (t.parser.generateSymbolId baseName).1
    { t with parser := (t.parser.generateSymbolId baseName).2 }

def addRule (ruleId : Nat) (rule : GrammarRule) : TraceM Unit := fun t =>
  .ok () { t with parser := t.parser.addRule ruleId rule, added := t.added + 1 }

def addRepeats (ruleName : List UInt8) (prevRule : GrammarRule) (noMax : Bool) :
    Nat → Nat → Option Nat → TraceM (Option Nat)
  | 0, _, lastRecRuleId => pure lastRecRuleId
  | n + 1, i, lastRecRuleId => do
      let recRuleId ← generateSymbolId ruleName
      let next := if 0 < i ∨ noMax then
        [⟨.ruleRef, if noMax then recRuleId else lastRecRuleId.getD 0⟩] else []
      addRule recRuleId (prevRule ++ next ++ [⟨.alt, 0⟩, ⟨.endOfRule, 0⟩])
      addRepeats ruleName prevRule noMax n (i + 1) (some recRuleId)

def handleRepetitions (ruleName : List UInt8) (minTimes : Nat) (maxTimes : Option Nat)
    (s : SequenceState) : TraceM SequenceState :=
  if s.lastSymStart = s.rule.length then throw .thrown
  else if maxRepetitionThreshold ≤ s.nPrevRules * totalRules minTimes maxTimes then throw .thrown
  else do
    let prevRule := s.rule.drop s.lastSymStart
    let rule :=
      if minTimes = 0 then s.rule.take s.lastSymStart
      else s.rule ++ (List.replicate (minTimes - 1) prevRule).flatten
    let before ← get
    let last ← addRepeats ruleName prevRule maxTimes.isNone (optionalTimes minTimes maxTimes) 0 none
    modify fun t => { t with
      expansions := t.expansions ++ [⟨minTimes, maxTimes, t.added - before.added⟩] }
    let rule :=
      match last with
      | some id => rule ++ [⟨.ruleRef, id⟩]
      | none => rule
    return { s with rule := rule, nPrevRules := s.nPrevRules * totalRules minTimes maxTimes }

/-! ## Sequences -/

def literalLoop : Nat → List UInt8 → GrammarRule → TraceM (GrammarRule × List UInt8)
  | 0, _, _ => throw .exhausted
  | _ + 1, [], _ => throw .thrown
  | fuel + 1, c :: src, rule =>
    if c = '"'.toUInt8 then pure (rule, src)
    else do
      let r ← orThrow (parseChar (c :: src))
      literalLoop fuel r.2 (rule ++ [⟨.char, r.1⟩])

def classLoop (startType : Gretype) (start : Nat) :
    Nat → List UInt8 → GrammarRule → TraceM (GrammarRule × List UInt8)
  | 0, _, _ => throw .exhausted
  | _ + 1, [], _ => throw .thrown
  | fuel + 1, c :: src, rule =>
    if c = ']'.toUInt8 then pure (rule, src)
    else do
      let r ← orThrow (parseChar (c :: src))
      let rule := rule ++ [⟨if start < rule.length then .charAlt else startType, r.1⟩]
      if r.2.head? = some '-'.toUInt8 ∧ r.2[1]? ≠ some ']'.toUInt8 then do
        let e ← orThrow (parseChar r.2.tail)
        classLoop startType start fuel e.2 (rule ++ [⟨.charRngUpper, e.1⟩])
      else classLoop startType start fuel r.2 rule

abbrev ParseAlternates := List UInt8 → List UInt8 → Nat → Bool → TraceM (List UInt8)

/-- One turn of the loop of `parse_sequence` at a byte of the text: `none` where the loop ends. -/
def sequenceStep (vocab : Option (List UInt8 → List Nat)) (parseAlternates : ParseAlternates)
    (ruleName : List UInt8) (isNested : Bool) (c : UInt8) (src : List UInt8) (s : SequenceState) :
    TraceM (Option (List UInt8 × SequenceState)) :=
  let operator (minTimes : Nat) (maxTimes : Option Nat) (src : List UInt8) :
      TraceM (Option (List UInt8 × SequenceState)) := do
    let s ← handleRepetitions ruleName minTimes maxTimes s
    return some (src, s)
  if c = '"'.toUInt8 then do
    let r ← literalLoop (src.length + 1) src s.rule
    return some (parseSpace r.2 isNested, s.begin r.1)
  else if c = '['.toUInt8 then do
    let start :=
      if src.head? = some '^'.toUInt8 then (Gretype.charNot, src.tail) else (Gretype.char, src)
    let r ← classLoop start.1 s.rule.length (start.2.length + 1) start.2 s.rule
    return some (parseSpace r.2 isNested, s.begin r.1)
  else if c = '<'.toUInt8 ∨ c = '!'.toUInt8 then do
    let r ← orThrow (parseToken vocab (if c = '!'.toUInt8 then src else c :: src))
    let type := if c = '!'.toUInt8 then Gretype.tokenNot else Gretype.token
    return some (parseSpace r.2 isNested, s.begin (s.rule ++ [⟨type, r.1⟩]))
  else if isWordChar c then do
    let r ← orThrow (parseName (c :: src))
    let refRuleId ← getSymbolId r.1
    return some (parseSpace r.2 isNested, s.begin (s.rule ++ [⟨.ruleRef, refRuleId⟩]))
  else if c = '('.toUInt8 then do
    let before ← get
    let subRuleId ← generateSymbolId ruleName
    let rest ← parseAlternates (parseSpace src true) ruleName subRuleId true
    let after ← get
    let s := { s.begin (s.rule ++ [⟨.ruleRef, subRuleId⟩]) with
      nPrevRules := max 1 (after.parser.symbolIds.length - before.parser.symbolIds.length) }
    match rest with
    | [] => throw .thrown
    | c :: src =>
      if c = ')'.toUInt8 then return some (parseSpace src isNested, s) else throw .thrown
  else if c = '.'.toUInt8 then
    return some (parseSpace src isNested, s.begin (s.rule ++ [⟨.charAny, 0⟩]))
  else if c = '*'.toUInt8 then operator 0 none (parseSpace src isNested)
  else if c = '+'.toUInt8 then operator 1 none (parseSpace src isNested)
  else if c = '?'.toUInt8 then operator 0 (some 1) (parseSpace src isNested)
  else if c = '{'.toUInt8 then do
    let b ← orThrow (parseBounds (parseSpace src isNested) isNested)
    if maxRepetitionThreshold < b.1 then throw .thrown
    else operator b.1 (b.2.1.filter fun n => decide (n ≤ maxRepetitionThreshold)) b.2.2
  else return none

def sequenceLoop (vocab : Option (List UInt8 → List Nat)) (parseAlternates : ParseAlternates)
    (ruleName : List UInt8) (isNested : Bool) :
    Nat → List UInt8 → SequenceState → TraceM (List UInt8 × GrammarRule)
  | 0, _, _ => throw .exhausted
  | _ + 1, [], s => pure ([], s.rule)
  | fuel + 1, c :: src, s => do
      match ← sequenceStep vocab parseAlternates ruleName isNested c src s with
      | none => pure (c :: src, s.rule)
      | some next => sequenceLoop vocab parseAlternates ruleName isNested fuel next.1 next.2

def parseSequence (vocab : Option (List UInt8 → List Nat)) (parseAlternates : ParseAlternates)
    (src : List UInt8) (ruleName : List UInt8) (rule : GrammarRule) (isNested : Bool) :
    TraceM (List UInt8 × GrammarRule) :=
  sequenceLoop vocab parseAlternates ruleName isNested (src.length + 1) src ⟨rule, rule.length, 1⟩

def alternatesLoop (vocab : Option (List UInt8 → List Nat)) (parseAlternates : ParseAlternates)
    (ruleName : List UInt8) (isNested : Bool) :
    Nat → List UInt8 → GrammarRule → TraceM (List UInt8 × GrammarRule)
  | 0, _, _ => throw .exhausted
  | fuel + 1, src, rule =>
    if src.head? = some '|'.toUInt8 then do
      let r ← parseSequence vocab parseAlternates (parseSpace src.tail true) ruleName
        (rule ++ [⟨.alt, 0⟩]) isNested
      alternatesLoop vocab parseAlternates ruleName isNested fuel r.1 r.2
    else pure (src, rule)

def parseAlternates (vocab : Option (List UInt8 → List Nat)) : Nat → ParseAlternates
  | 0 => fun _ _ _ _ => throw .exhausted
  | depth + 1 => fun src ruleName ruleId isNested => do
      let first ← parseSequence vocab (parseAlternates vocab depth) src ruleName [] isNested
      let r ← alternatesLoop vocab (parseAlternates vocab depth) ruleName isNested
        (src.length + 1) first.1 first.2
      addRule ruleId (r.2 ++ [⟨.endOfRule, 0⟩])
      return r.1

/-! ## Grammars -/

def parseRule (vocab : Option (List UInt8 → List Nat)) (src : List UInt8) :
    TraceM (List UInt8) := do
  let n ← orThrow (parseName src)
  let ruleId ← getSymbolId n.1
  let src := parseSpace n.2 false
  if src.take 3 = bytes "::=" then do
    let src := parseSpace (src.drop 3) true
    match ← parseAlternates vocab (src.length + 1) src n.1 ruleId false with
    | [] => return []
    | c :: src =>
      if c = '\r'.toUInt8 then
        return parseSpace (if src.head? = some '\n'.toUInt8 then src.tail else src) true
      else if c = '\n'.toUInt8 then return parseSpace src true
      else throw .thrown
  else throw .thrown

def parseRules (vocab : Option (List UInt8 → List Nat)) : Nat → List UInt8 → TraceM Unit
  | 0, _ => throw .exhausted
  | fuel + 1, src =>
    if src = [] then pure ()
    else do
      let rest ← parseRule vocab src
      parseRules vocab fuel rest

/-- `parse`, up to the exception that it catches. -/
def parse (vocab : Option (List UInt8 → List Nat)) (text : List UInt8) : TraceM Unit := do
  let src := parseSpace (text.takeWhile (· ≠ 0)) true
  parseRules vocab (src.length + 1) src
  let t ← get
  if allDefined t.parser.rules then pure () else throw .thrown

end GrammarTrace

end Beellama.Ports
