import Beellama.Ports.Grammar
import Mathlib.Algebra.Order.Ring.Int

/-!
# The GBNF parser (`llama_grammar_parser`)

The parser of `src/src/llama-grammar.cpp`.  A position in the text is the list of the bytes from it on,
up to the first NUL, and an exception is `none`.  A group becomes a rule of its own, and a repetition
rewrites what the last symbol has added to the rule, with rules of its own for the repeats that may
be left out.
-/

namespace Beellama.Ports

/-- The bytes of an ASCII string. -/
def bytes (s : String) : List UInt8 := s.toList.map Char.toUInt8

/-- `llama_grammar_parser`; the vocabulary is the tokenization of a token text.  The ids are
exact below 2^32 symbols, each of which takes an entry of the map. -/
structure GrammarParser where
  symbolIds : List (List UInt8 × Nat) := []
  rules : GrammarRules := []
  deriving DecidableEq, Repr

namespace GrammarParser

open GrammarElement

/-! ## Characters and words -/

def isDigitChar (c : UInt8) : Bool := decide (0x30 ≤ c.toNat) && decide (c.toNat ≤ 0x39)

def isWordChar (c : UInt8) : Bool :=
  decide (0x61 ≤ c.toNat) && decide (c.toNat ≤ 0x7A) ||
    decide (0x41 ≤ c.toNat) && decide (c.toNat ≤ 0x5A) || c == '-'.toUInt8 || isDigitChar c

/-- The value of a hexadecimal digit. -/
def hexValue (c : UInt8) : Option Nat :=
  if 0x61 ≤ c.toNat ∧ c.toNat ≤ 0x66 then some (c.toNat - 0x61 + 10)
  else if 0x41 ≤ c.toNat ∧ c.toNat ≤ 0x46 then some (c.toNat - 0x41 + 10)
  else if 0x30 ≤ c.toNat ∧ c.toNat ≤ 0x39 then some (c.toNat - 0x30)
  else none

/-- `parse_hex`, with the value so far. -/
def parseHex : Nat → List UInt8 → Nat → Option (Nat × List UInt8)
  | 0, src, value => some (value, src)
  | _ + 1, [], _ => none
  | size + 1, c :: src, value =>
    match hexValue c with
    | some d => parseHex size src (value * 16 + d)
    | none => none

/-- `parse_space`; in a comment everything up to the end of the line is skipped. -/
def parseSpaceFrom (newlineOk : Bool) : Bool → List UInt8 → List UInt8
  | _, [] => []
  | inComment, c :: src =>
    if c = '\r'.toUInt8 ∨ c = '\n'.toUInt8 then
      if newlineOk then parseSpaceFrom newlineOk false src else c :: src
    else if inComment then parseSpaceFrom newlineOk true src
    else if c = ' '.toUInt8 ∨ c = '\t'.toUInt8 then parseSpaceFrom newlineOk false src
    else if c = '#'.toUInt8 then parseSpaceFrom newlineOk true src
    else c :: src

def parseSpace (src : List UInt8) (newlineOk : Bool) : List UInt8 :=
  parseSpaceFrom newlineOk false src

/-- `parse_name` -/
def parseName (src : List UInt8) : Option (List UInt8 × List UInt8) :=
  if src.takeWhile isWordChar = [] then none
  else some (src.takeWhile isWordChar, src.dropWhile isWordChar)

/-- `std::stoull`, which throws out of the range of 64 bits. -/
def stoull (digits : List UInt8) : Option Nat :=
  let value := digits.foldl (fun value c => value * 10 + (c.toNat - 0x30)) 0
  if value < 2 ^ 64 then some value else none

/-- `parse_int` and the value of the integer. -/
def parseInt (src : List UInt8) : Option (Nat × List UInt8) :=
  if src.takeWhile isDigitChar = [] then none
  else (stoull (src.takeWhile isDigitChar)).map fun value => (value, src.dropWhile isDigitChar)

/-- The continuation bytes that `decode_utf8` reads, at most `n`. -/
def decodeFollowing : Nat → List UInt8 → Nat → Nat × List UInt8
  | 0, src, value => (value, src)
  | _ + 1, [], value => (value, [])
  | n + 1, c :: src, value => decodeFollowing n src (value * 0x40 + c.toNat % 0x40)

/-- `decode_utf8` of one code point, behind its first byte. -/
def decodeUtf8Char (firstByte : UInt8) (src : List UInt8) : Nat × List UInt8 :=
  let len := if firstByte.toNat < 0xC0 then 1 else if firstByte.toNat < 0xE0 then 2
    else if firstByte.toNat < 0xF0 then 3 else 4
  decodeFollowing (len - 1) src (firstByte.toNat % 2 ^ (8 - len))

/-- `parse_char` -/
def parseChar : List UInt8 → Option (Nat × List UInt8)
  | [] => none
  | c :: src =>
    if c = '\\'.toUInt8 then
      match src with
      | [] => none
      | e :: src =>
        if e = 'x'.toUInt8 then parseHex 2 src 0
        else if e = 'u'.toUInt8 then parseHex 4 src 0
        else if e = 'U'.toUInt8 then parseHex 8 src 0
        else if e = 't'.toUInt8 then some ('\t'.toNat, src)
        else if e = 'r'.toUInt8 then some ('\r'.toNat, src)
        else if e = 'n'.toUInt8 then some ('\n'.toNat, src)
        else if e ∈ bytes "\\\"[]" then some (e.toNat, src)
        else none
    else some (decodeUtf8Char c src)

/-- `parse_token`, for the tokens of a vocabulary that a text is tokenized to. -/
def parseToken (vocab : Option (List UInt8 → List Nat)) (src : List UInt8) :
    Option (Nat × List UInt8) :=
  match src with
  | [] => none
  | c :: rest =>
    if c ≠ '<'.toUInt8 then none
    else if rest.head? = some '['.toUInt8 then do
      let (tokenId, src) ← parseInt rest.tail
      if src.take 2 = bytes "]>" then some (tokenId % 2 ^ 32, src.drop 2) else none
    else
      match vocab with
      | none => none
      | some tokenize =>
        let name := src.takeWhile (· ≠ '>'.toUInt8)
        if name = src then none
        else
          match tokenize (name ++ bytes ">") with
          | [token] => some (token, src.drop (name.length + 1))
          | _ => none

/-! ## Symbols and rules -/

/-- `get_symbol_id` -/
def getSymbolId (p : GrammarParser) (name : List UInt8) : Nat × GrammarParser :=
  match p.symbolIds.lookup name with
  | some id => (id, p)
  | none =>
    (p.symbolIds.length, { p with symbolIds := p.symbolIds ++ [(name, p.symbolIds.length)] })

/-- The decimal digits of a number, the first ones first. -/
def decimalFrom : Nat → Nat → List UInt8
  | 0, _ => []
  | fuel + 1, n =>
    if n < 10 then [(0x30 + n).toUInt8]
    else decimalFrom fuel (n / 10) ++ [(0x30 + n % 10).toUInt8]

/-- `std::to_string` -/
def decimal (n : Nat) : List UInt8 := decimalFrom (n + 1) n

/-- `symbol_ids[name] = id` -/
def setSymbolId (ids : List (List UInt8 × Nat)) (name : List UInt8) (id : Nat) :
    List (List UInt8 × Nat) :=
  if (ids.lookup name).isSome then
    ids.map fun entry => if entry.1 = name then (name, id) else entry
  else ids ++ [(name, id)]

/-- `generate_symbol_id` -/
def generateSymbolId (p : GrammarParser) (baseName : List UInt8) : Nat × GrammarParser :=
  let nextId := p.symbolIds.length
  (nextId, { p with
    symbolIds := setSymbolId p.symbolIds (baseName ++ bytes "_" ++ decimal nextId) nextId })

/-- `add_rule` -/
def addRule (p : GrammarParser) (ruleId : Nat) (rule : GrammarRule) : GrammarParser :=
  let rules := p.rules ++ List.replicate (ruleId + 1 - p.rules.length) []
  { p with rules := rules.set ruleId rule }

/-- `MAX_REPETITION_THRESHOLD` -/
def maxRepetitionThreshold : Nat := 2000

/-! ## Sequences -/

/-- The rule under construction, where its last symbol starts, and the number of rules that symbol
stands for. -/
structure SequenceState where
  rule : GrammarRule
  lastSymStart : Nat
  nPrevRules : Nat := 1
  deriving DecidableEq, Repr

/-- The loop of `handle_repetitions` that adds `n` optional repeats, with the last rule added. -/
def addRepeats (ruleName : List UInt8) (prevRule : GrammarRule) (noMax : Bool) :
    Nat → Nat → Option Nat → GrammarParser → Option Nat × GrammarParser
  | 0, _, lastRecRuleId, p => (lastRecRuleId, p)
  | n + 1, i, lastRecRuleId, p =>
    let (recRuleId, p) := p.generateSymbolId ruleName
    let next := if 0 < i ∨ noMax then
      [⟨.ruleRef, if noMax then recRuleId else lastRecRuleId.getD 0⟩] else []
    let recRule := prevRule ++ next ++ [⟨.alt, 0⟩, ⟨.endOfRule, 0⟩]
    addRepeats ruleName prevRule noMax n (i + 1) (some recRuleId) (p.addRule recRuleId recRule)

/-- `total_rules` of `handle_repetitions` -/
def totalRules (minTimes : Nat) (maxTimes : Option Nat) : Nat :=
  match maxTimes with
  | some (n + 1) => n + 1
  | _ => if 0 < minTimes then minTimes else 1

/-- `n_opt` of `handle_repetitions`, the difference of two unsigned numbers of 64 bits. -/
def optionalTimes (minTimes : Nat) (maxTimes : Option Nat) : Nat :=
  match maxTimes with
  | none => 1
  | some maxTimes => (maxTimes + 2 ^ 64 - minTimes) % 2 ^ 64

/-- `handle_repetitions`, without a maximum for `none`. -/
def handleRepetitions (ruleName : List UInt8) (minTimes : Nat) (maxTimes : Option Nat)
    (s : SequenceState) (p : GrammarParser) : Option (SequenceState × GrammarParser) :=
  if s.lastSymStart = s.rule.length then none
  else
    let prevRule := s.rule.drop s.lastSymStart
    let totalRules := totalRules minTimes maxTimes
    if maxRepetitionThreshold ≤ s.nPrevRules * totalRules then none
    else
      let rule :=
        if minTimes = 0 then s.rule.take s.lastSymStart
        else s.rule ++ (List.replicate (minTimes - 1) prevRule).flatten
      let nOpt := optionalTimes minTimes maxTimes
      let r := addRepeats ruleName prevRule maxTimes.isNone nOpt 0 none p
      let rule :=
        match r.1 with
        | some id => rule ++ [⟨.ruleRef, id⟩]
        | none => rule
      some ({ s with rule := rule, nPrevRules := s.nPrevRules * totalRules }, r.2)

/-- The characters of a literal up to its closing quote, as elements. -/
def literalLoop : Nat → List UInt8 → GrammarRule → Option (GrammarRule × List UInt8)
  | 0, _, _ => none
  | _ + 1, [], _ => none
  | fuel + 1, c :: src, rule =>
    if c = '"'.toUInt8 then some (rule, src)
    else do
      let (chr, src) ← parseChar (c :: src)
      literalLoop fuel src (rule ++ [⟨.char, chr⟩])

/-- The members of a class up to its closing bracket, as elements; the first has the
type of the class. -/
def classLoop (startType : Gretype) (start : Nat) :
    Nat → List UInt8 → GrammarRule → Option (GrammarRule × List UInt8)
  | 0, _, _ => none
  | _ + 1, [], _ => none
  | fuel + 1, c :: src, rule =>
    if c = ']'.toUInt8 then some (rule, src)
    else do
      let (chr, src) ← parseChar (c :: src)
      let rule := rule ++ [⟨if start < rule.length then .charAlt else startType, chr⟩]
      if src.head? = some '-'.toUInt8 ∧ src[1]? ≠ some ']'.toUInt8 then do
        let (endchr, src) ← parseChar src.tail
        classLoop startType start fuel src (rule ++ [⟨.charRngUpper, endchr⟩])
      else classLoop startType start fuel src rule

/-- The bounds of a repetition behind its brace, with the text behind the closing
one. -/
def parseBounds (src : List UInt8) (isNested : Bool) : Option (Nat × Option Nat × List UInt8) := do
  let (minTimes, src) ← parseInt src
  let src := parseSpace src isNested
  match src with
  | [] => none
  | c :: src =>
    if c = '}'.toUInt8 then some (minTimes, some minTimes, parseSpace src isNested)
    else if c = ','.toUInt8 then do
      let src := parseSpace src isNested
      let (maxTimes, src) ←
        if (src.head?.map isDigitChar).getD false then
          (parseInt src).map fun r => (some r.1, parseSpace r.2 isNested)
        else some (none, src)
      match src with
      | [] => none
      | c :: src =>
        if c = '}'.toUInt8 then some (minTimes, maxTimes, parseSpace src isNested) else none
    else none

/-- A parse of the alternates of a rule, nested ones, with the text behind them. -/
abbrev ParseAlternates :=
  List UInt8 → List UInt8 → Nat → Bool → GrammarParser → Option (List UInt8 × GrammarParser)

/-- A symbol starts at the end of the rule. -/
def SequenceState.begin (s : SequenceState) (rule : GrammarRule) : SequenceState :=
  ⟨rule, s.rule.length, 1⟩

/-- One turn of the loop of `parse_sequence` at a byte of the text: `some none` where
the loop ends. -/
def sequenceStep (vocab : Option (List UInt8 → List Nat)) (parseAlternates : ParseAlternates)
    (ruleName : List UInt8) (isNested : Bool) (c : UInt8) (src : List UInt8) (s : SequenceState)
    (p : GrammarParser) : Option (Option (List UInt8 × SequenceState × GrammarParser)) :=
  let operator (minTimes : Nat) (maxTimes : Option Nat) (src : List UInt8) :=
    (handleRepetitions ruleName minTimes maxTimes s p).map fun r => some (src, r.1, r.2)
  if c = '"'.toUInt8 then do
    let (rule, src) ← literalLoop (src.length + 1) src s.rule
    some (some (parseSpace src isNested, s.begin rule, p))
  else if c = '['.toUInt8 then do
    let (startType, src) :=
      if src.head? = some '^'.toUInt8 then (Gretype.charNot, src.tail) else (Gretype.char, src)
    let (rule, src) ← classLoop startType s.rule.length (src.length + 1) src s.rule
    some (some (parseSpace src isNested, s.begin rule, p))
  else if c = '<'.toUInt8 ∨ c = '!'.toUInt8 then do
    let (tokenId, rest) ← parseToken vocab (if c = '!'.toUInt8 then src else c :: src)
    let type := if c = '!'.toUInt8 then Gretype.tokenNot else Gretype.token
    some (some (parseSpace rest isNested, s.begin (s.rule ++ [⟨type, tokenId⟩]), p))
  else if isWordChar c then do
    let (name, src) ← parseName (c :: src)
    let (refRuleId, p) := p.getSymbolId name
    some (some (parseSpace src isNested, s.begin (s.rule ++ [⟨.ruleRef, refRuleId⟩]), p))
  else if c = '('.toUInt8 then do
    -- parse nested alternates into synthesized rule
    let nRulesBefore := p.symbolIds.length
    let (subRuleId, p) := p.generateSymbolId ruleName
    let (src, p) ← parseAlternates (parseSpace src true) ruleName subRuleId true p
    let s := { s.begin (s.rule ++ [⟨.ruleRef, subRuleId⟩]) with
      nPrevRules := max 1 (p.symbolIds.length - nRulesBefore) }
    match src with
    | [] => none
    | c :: src => if c = ')'.toUInt8 then some (some (parseSpace src isNested, s, p)) else none
  else if c = '.'.toUInt8 then
    some (some (parseSpace src isNested, s.begin (s.rule ++ [⟨.charAny, 0⟩]), p))
  else if c = '*'.toUInt8 then operator 0 none (parseSpace src isNested)
  else if c = '+'.toUInt8 then operator 1 none (parseSpace src isNested)
  else if c = '?'.toUInt8 then operator 0 (some 1) (parseSpace src isNested)
  else if c = '{'.toUInt8 then do
    let (minTimes, maxTimes, src) ← parseBounds (parseSpace src isNested) isNested
    if maxRepetitionThreshold < minTimes then none
    else
      operator minTimes
        (maxTimes.filter fun n => decide (n ≤ maxRepetitionThreshold)) src
  else some none

/-- The loop of `parse_sequence`. -/
def sequenceLoop (vocab : Option (List UInt8 → List Nat)) (parseAlternates : ParseAlternates)
    (ruleName : List UInt8) (isNested : Bool) :
    Nat → List UInt8 → SequenceState → GrammarParser →
      Option (List UInt8 × GrammarRule × GrammarParser)
  | 0, _, _, _ => none
  | _ + 1, [], s, p => some ([], s.rule, p)
  | fuel + 1, c :: src, s, p =>
    match sequenceStep vocab parseAlternates ruleName isNested c src s p with
    | none => none
    | some none => some (c :: src, s.rule, p)
    | some (some (src, s, p)) => sequenceLoop vocab parseAlternates ruleName isNested fuel src s p

/-- `parse_sequence`, with the rule that it adds to. -/
def parseSequence (vocab : Option (List UInt8 → List Nat)) (parseAlternates : ParseAlternates)
    (src : List UInt8) (ruleName : List UInt8) (rule : GrammarRule) (isNested : Bool)
    (p : GrammarParser) : Option (List UInt8 × GrammarRule × GrammarParser) :=
  sequenceLoop vocab parseAlternates ruleName isNested (src.length + 1) src ⟨rule, rule.length, 1⟩ p

/-- The loop of `parse_alternates` behind a sequence. -/
def alternatesLoop (vocab : Option (List UInt8 → List Nat)) (parseAlternates : ParseAlternates)
    (ruleName : List UInt8) (isNested : Bool) :
    Nat → List UInt8 → GrammarRule → GrammarParser →
      Option (List UInt8 × GrammarRule × GrammarParser)
  | 0, _, _, _ => none
  | fuel + 1, src, rule, p =>
    if src.head? = some '|'.toUInt8 then do
      let (src, rule, p) ← parseSequence vocab parseAlternates (parseSpace src.tail true) ruleName
        (rule ++ [⟨.alt, 0⟩]) isNested p
      alternatesLoop vocab parseAlternates ruleName isNested fuel src rule p
    else some (src, rule, p)

/-- `parse_alternates`, to a depth of nesting. -/
def parseAlternates (vocab : Option (List UInt8 → List Nat)) : Nat → ParseAlternates
  | 0 => fun _ _ _ _ _ => none
  | depth + 1 => fun src ruleName ruleId isNested p => do
      let (pos, rule, p) ←
        parseSequence vocab (parseAlternates vocab depth) src ruleName [] isNested p
      let (pos, rule, p) ← alternatesLoop vocab (parseAlternates vocab depth) ruleName isNested
        (src.length + 1) pos rule p
      some (pos, p.addRule ruleId (rule ++ [⟨.endOfRule, 0⟩]))

/-! ## Grammars -/

/-- `parse_rule` -/
def parseRule (vocab : Option (List UInt8 → List Nat)) (src : List UInt8) (p : GrammarParser) :
    Option (List UInt8 × GrammarParser) := do
  let (name, src) ← parseName src
  let (ruleId, p) := p.getSymbolId name
  let src := parseSpace src false
  if src.take 3 = bytes "::=" then do
    let src := parseSpace (src.drop 3) true
    let (src, p) ← parseAlternates vocab (src.length + 1) src name ruleId false p
    match src with
    | [] => some ([], p)
    | c :: src =>
      if c = '\r'.toUInt8 then
        some (parseSpace (if src.head? = some '\n'.toUInt8 then src.tail else src) true, p)
      else if c = '\n'.toUInt8 then some (parseSpace src true, p)
      else none
  else none

/-- The loop of `parse` over the rules of the text. -/
def parseRules (vocab : Option (List UInt8 → List Nat)) :
    Nat → List UInt8 → GrammarParser → Option GrammarParser
  | 0, _, _ => none
  | fuel + 1, src, p =>
    if src = [] then some p
    else do
      let (src, p) ← parseRule vocab src p
      parseRules vocab fuel src p

/-- The check of `parse` that all rules are defined. -/
def allDefined (rules : GrammarRules) : Bool :=
  rules.all fun rule => !rule.isEmpty && rule.all fun e =>
    e.type ≠ .ruleRef || decide (e.value < rules.length) && !(rules.getD e.value []).isEmpty

/-- `parse`, `none` where it reports failure. A missing rule throws only when its name is among the
symbols, as every reference's is. -/
def parse (vocab : Option (List UInt8 → List Nat)) (text : List UInt8) : Option GrammarParser := do
  let src := parseSpace (text.takeWhile (· ≠ 0)) true
  let p ← parseRules vocab (src.length + 1) src {}
  if allDefined p.rules then some p else none

end GrammarParser

end Beellama.Ports
