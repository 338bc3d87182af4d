import Beellama.Ports.Trie

/-!
# The PEG executor

`parser_executor` of `src/common/peg-parser.cpp`.  Parsers stand in an arena and refer to their
children by index.  A parse threads the AST arena: nodes are added, and never taken away, also when
the parse fails.  The recursion through the arena runs on fuel.
-/

namespace Beellama.Ports

/-! ## Results and AST nodes -/

/-- `common_peg_parse_result_type` -/
inductive PegResultType
  | fail
  | success
  | needMoreInput
  deriving DecidableEq, Repr

/-- `common_peg_parse_result`; `stop` is its `end`. -/
structure PegResult where
  type : PegResultType
  start : Nat
  stop : Nat
  nodes : List Nat := []
  deriving DecidableEq, Repr

/-- `common_peg_ast_node`; `stop` is its `end`. -/
structure PegAstNode where
  id : Nat
  rule : List UInt8
  tag : List UInt8
  start : Nat
  stop : Nat
  text : List UInt8
  children : List Nat
  isPartial : Bool
  deriving DecidableEq, Repr

/-- `common_peg_ast_arena` -/
abbrev PegAst := List PegAstNode

/-- `common_peg_parse_context`, without its AST arena. -/
structure PegContext where
  input : List UInt8
  /-- `is_lenient()` -/
  lenient : Bool
  deriving DecidableEq, Repr

/-- The result of two arguments. -/
def PegResult.here (type : PegResultType) (start : Nat) : PegResult := ⟨type, start, start, []⟩

/-- The result of three arguments. -/
def PegResult.span (type : PegResultType) (start stop : Nat) : PegResult := ⟨type, start, stop, []⟩

/-- `add_node` -/
def PegAst.addNode (ast : PegAst) (rule tag : List UInt8) (start stop : Nat) (text : List UInt8)
    (children : List Nat) (isPartial : Bool) : PegAst :=
  ast ++ [⟨ast.length, rule, tag, start, stop, text, children, isPartial⟩]

/-! ## Parsers -/

/-- `common_peg_chars_parser::char_range` -/
structure CharRange where
  start : Nat
  stop : Nat
  deriving DecidableEq, Repr

def CharRange.contains (range : CharRange) (codepoint : Nat) : Bool :=
  decide (range.start ≤ codepoint) && decide (codepoint ≤ range.stop)

/-- `common_peg_parser_variant` -/
inductive PegParser
  | epsilonParser
  | startParser
  | endParser
  | literalParser (literal : List UInt8)
  | sequenceParser (children : List Nat)
  | choiceParser (children : List Nat)
  /-- `max_count` is -1 for unbounded -/
  | repetitionParser (child : Nat) (minCount maxCount : Int)
  | andParser (child : Nat)
  | notParser (child : Nat)
  | anyParser
  | spaceParser
  | charsParser (pattern : List UInt8) (ranges : List CharRange) (negated : Bool)
      (minCount maxCount : Int)
  | stringParser (delimiter : UInt8)
  | untilParser (delimiters : List (List UInt8))
  | schemaParser (child : Nat)
  | ruleParser (name : List UInt8) (child : Nat)
  | refParser (name : List UInt8)
  | atomicParser (child : Nat)
  | tagParser (child : Nat) (tag : List UInt8)
  | gbnfParser (child : Nat) (grammar : List UInt8)
  | acParser (child : Nat) (delimiters : List (List UInt8))
  deriving DecidableEq, Repr

/-- `common_peg_arena` -/
structure PegArena where
  parsers : List PegParser
  rules : List (List UInt8 × Nat)
  deriving DecidableEq, Repr

namespace PegArena

/-- `get_rule`, which throws where there is none. -/
def getRule (arena : PegArena) (name : List UInt8) : Option Nat := arena.rules.lookup name

end PegArena

namespace Peg

open PegResult

/-! ## Parsers without children -/

/-- The loop of the literal parser. -/
def literalLoop (ctx : PegContext) (start : Nat) : List UInt8 → Nat → PegResult
  | [], pos => span .success start pos
  | c :: literal, pos =>
    match ctx.input[pos]? with
    | none => if ctx.lenient then span .needMoreInput start pos else here .fail start
    | some b => if b ≠ c then here .fail start else literalLoop ctx start literal (pos + 1)

def parseAny (ctx : PegContext) (start : Nat) : PegResult :=
  match commonParseUtf8Codepoint ctx.input start with
  | .incomplete => if ctx.lenient then here .needMoreInput start else here .fail start
  | .invalid => here .fail start
  | .success _ bytes => span .success start (start + bytes)

/-- `std::isspace` -/
def isSpace (c : UInt8) : Bool := c == 0x20 || decide (0x09 ≤ c.toNat) && decide (c.toNat ≤ 0x0D)

/-- The loop of the space parser over the bytes left. -/
def skipSpace : List UInt8 → Nat → Nat
  | [], pos => pos
  | c :: rest, pos => if isSpace c then skipSpace rest (pos + 1) else pos

def parseSpace (ctx : PegContext) (start : Nat) : PegResult :=
  span .success start (skipSpace (ctx.input.drop start) start)

/-- The code point matches the character class. -/
def charsMatches (ranges : List CharRange) (negated : Bool) (codepoint : Nat) : Bool :=
  ranges.any (CharRange.contains · codepoint) != negated

/-- The check behind the loop of the chars parser. -/
def charsFinish (ctx : PegContext) (start : Nat) (minCount : Int) (pos matchCount : Nat) :
    PegResult :=
  if (matchCount : Int) < minCount then
    if ctx.input.length ≤ pos ∧ ctx.lenient then span .needMoreInput start pos
    else span .fail start pos
  else span .success start pos

/-- The loop of the chars parser. -/
def charsLoop (ctx : PegContext) (start : Nat) (ranges : List CharRange) (negated : Bool)
    (minCount maxCount : Int) : Nat → Nat → Nat → PegResult
  | 0, pos, matchCount => charsFinish ctx start minCount pos matchCount
  | fuel + 1, pos, matchCount =>
    if maxCount = -1 ∨ (matchCount : Int) < maxCount then
      match commonParseUtf8Codepoint ctx.input pos with
      | .incomplete =>
        if minCount ≤ matchCount then span .success start pos
        else if ctx.lenient then span .needMoreInput start pos
        else here .fail start
      | .invalid => if minCount ≤ matchCount then span .success start pos else here .fail start
      | .success codepoint bytes =>
        if charsMatches ranges negated codepoint then
          charsLoop ctx start ranges negated minCount maxCount fuel (pos + bytes)
            (matchCount + 1)
        else charsFinish ctx start minCount pos matchCount
    else charsFinish ctx start minCount pos matchCount

def isHexDigit (c : UInt8) : Bool :=
  decide (0x30 ≤ c.toNat) && decide (c.toNat ≤ 0x39) ||
    decide (0x61 ≤ c.toNat) && decide (c.toNat ≤ 0x66) ||
      decide (0x41 ≤ c.toNat) && decide (c.toNat ≤ 0x46)

/-- The loop of `handle_unicode_escape`, with the position it leaves. -/
def unicodeEscapeLoop (ctx : PegContext) (start : Nat) : Nat → Nat → PegResult × Nat
  | 0, pos => (span .success start pos, pos)
  | n + 1, pos =>
    match ctx.input[pos]? with
    | none =>
      (if ctx.lenient then span .needMoreInput start pos else here .fail start, pos)
    | some c =>
      if isHexDigit c then unicodeEscapeLoop ctx start n (pos + 1) else (here .fail start, pos)

def handleUnicodeEscape (ctx : PegContext) (start pos : Nat) : PegResult × Nat :=
  -- consume 'u'
  unicodeEscapeLoop ctx start 4 (pos + 1)

/-- The characters that may follow a backslash, besides the delimiter and `u`. -/
def escapedChars : List UInt8 := "\\/bfnrt".toList.map Char.toUInt8

def handleEscapeSequence (ctx : PegContext) (start pos : Nat) (delimiter : UInt8) :
    PegResult × Nat :=
  match ctx.input[pos + 1]? with
  | none =>
    -- suppress unmatched '\'
    if ctx.lenient then (span .needMoreInput start pos, pos) else (here .fail start, pos + 1)
  | some c =>
    if c = delimiter ∨ c ∈ escapedChars then (span .success start (pos + 2), pos + 2)
    else if c = 'u'.toUInt8 then
      let r := handleUnicodeEscape ctx start (pos + 1)
      -- suppress incomplete sequence
      if r.1.type = .needMoreInput then (span .needMoreInput start pos, pos) else r
    else (here .fail start, pos + 1)

/-- The loop of the string parser. -/
def stringLoop (ctx : PegContext) (start : Nat) (delimiter : UInt8) : Nat → Nat → PegResult
  | 0, pos => span .fail start pos
  | fuel + 1, pos =>
    match ctx.input[pos]? with
    | none => span (if ctx.lenient then .needMoreInput else .fail) start pos
    | some c =>
      -- the closing delimiter is not consumed
      if c = delimiter then span .success start pos
      else if c = '\\'.toUInt8 then
        let r := handleEscapeSequence ctx start pos delimiter
        if r.1.type = .success then stringLoop ctx start delimiter fuel r.2 else r.1
      else
        match commonParseUtf8Codepoint ctx.input pos with
        | .incomplete => if ctx.lenient then span .needMoreInput start pos else here .fail start
        | .invalid => here .fail start
        | .success _ bytes => stringLoop ctx start delimiter fuel (pos + bytes)

/-- The loop of the until parser; at its head `last_valid_pos` is `pos`. -/
def untilLoop (ctx : PegContext) (matcher : CommonTrie) (start : Nat) : Nat → Nat → PegResult
  | 0, pos => span .fail start pos
  | fuel + 1, pos =>
    if pos < ctx.input.length then
      match commonParseUtf8Codepoint ctx.input pos with
      | .incomplete => if ctx.lenient then span .needMoreInput start pos else here .fail start
      | .invalid => here .fail start
      | .success _ bytes =>
        match matcher.checkAt ctx.input pos with
        | .completeMatch => span .success start pos
        | .partialMatch => span .success start pos
        | .noMatch => untilLoop ctx matcher start fuel (pos + bytes)
    else if pos = ctx.input.length ∧ ctx.lenient then span .needMoreInput start pos
    else span .success start pos

/-! ## Parsers with children -/

/-- A parse of a parser of the arena, `none` where it does not return. -/
abbrev PegParse := Nat → PegAst → Nat → Option (PegResult × PegAst)

/-- The loop of the sequence parser. -/
def sequenceLoop (parse : PegParse) (start : Nat) :
    List Nat → Nat → List Nat → PegAst → Option (PegResult × PegAst)
  | [], pos, nodes, ast => some (⟨.success, start, pos, nodes⟩, ast)
  | child :: children, pos, nodes, ast => do
      let (result, ast) ← parse child ast pos
      match result.type with
      | .fail => some (span .fail start result.stop, ast)
      | .needMoreInput =>
        some (⟨.needMoreInput, start, result.stop, nodes ++ result.nodes⟩, ast)
      | .success => sequenceLoop parse start children result.stop (nodes ++ result.nodes) ast

/-- The loop of the choice parser. -/
def choiceLoop (parse : PegParse) (start : Nat) :
    List Nat → PegAst → Option (PegResult × PegAst)
  | [], ast => some (here .fail start, ast)
  | child :: children, ast => do
      let (result, ast) ← parse child ast start
      match result.type with
      | .fail => choiceLoop parse start children ast
      | _ => some (result, ast)

/-- The check behind the loop of the repetition parser. -/
def repetitionFinish (ctx : PegContext) (start : Nat) (minCount : Int) (pos matchCount : Nat)
    (nodes : List Nat) : PegResult :=
  if 0 < minCount ∧ (matchCount : Int) < minCount then
    if ctx.input.length ≤ pos ∧ ctx.lenient then ⟨.needMoreInput, start, pos, nodes⟩
    else span .fail start pos
  else ⟨.success, start, pos, nodes⟩

/-- The loop of the repetition parser. -/
def repetitionLoop (ctx : PegContext) (parse : PegParse) (start child : Nat)
    (minCount maxCount : Int) :
    Nat → Nat → Nat → List Nat → PegAst → Option (PegResult × PegAst)
  | 0, _, _, _, _ => none
  | fuel + 1, pos, matchCount, nodes, ast =>
    if (maxCount = -1 ∨ (matchCount : Int) < maxCount) ∧ pos < ctx.input.length then do
      let (result, ast) ← parse child ast pos
      match result.type with
      | .success =>
        -- prevent infinite loop on empty matches
        if result.stop = pos then
          some (repetitionFinish ctx start minCount pos matchCount nodes, ast)
        else
          repetitionLoop ctx parse start child minCount maxCount fuel result.stop
            (matchCount + 1) (nodes ++ result.nodes) ast
      | .needMoreInput =>
        some (⟨.needMoreInput, start, result.stop, nodes ++ result.nodes⟩, ast)
      | .fail => some (repetitionFinish ctx start minCount pos matchCount nodes, ast)
    else some (repetitionFinish ctx start minCount pos matchCount nodes, ast)

/-- The result of the not parser, for the result of its child. -/
def negate (start : Nat) (type : PegResultType) : PegResult :=
  match type with
  | .success => here .fail start
  | .needMoreInput => here .needMoreInput start
  | .fail => here .success start

/-- The node that the rule parser and the tag parser make of a result. -/
def wrap (ctx : PegContext) (rule tag : List UInt8) (r : PegResult × PegAst) : PegResult × PegAst :=
  let (result, ast) := r
  if result.type = .fail then r
  else
    let text :=
      if result.start < ctx.input.length then
        (ctx.input.drop result.start).take (result.stop - result.start)
      else []
    (⟨result.type, result.start, result.stop, [ast.length]⟩,
      PegAst.addNode ast rule tag result.start result.stop text result.nodes
        (result.type = .needMoreInput))

/-- The nodes of a partial result are not passed on. -/
def clearPartial (result : PegResult) : PegResult :=
  if result.type = .needMoreInput then { result with nodes := [] } else result

/-- `parser_executor` on a parser of the arena, for the parse of its children. -/
def execute (arena : PegArena) (ctx : PegContext) (parse : PegParse) (p : PegParser)
    (ast : PegAst) (start : Nat) : Option (PegResult × PegAst) :=
  match p with
  | .epsilonParser => some (here .success start, ast)
  | .startParser => some (here (if start = 0 then .success else .fail) start, ast)
  | .endParser => some (here (if ctx.input.length ≤ start then .success else .fail) start, ast)
  | .literalParser literal => some (literalLoop ctx start literal start, ast)
  | .sequenceParser children => sequenceLoop parse start children start [] ast
  | .choiceParser children => choiceLoop parse start children ast
  | .repetitionParser child minCount maxCount =>
    repetitionLoop ctx parse start child minCount maxCount (ctx.input.length - start + 1) start 0
      [] ast
  | .andParser child => (parse child ast start).map fun r => (here r.1.type start, r.2)
  | .notParser child => (parse child ast start).map fun r => (negate start r.1.type, r.2)
  | .anyParser => some (parseAny ctx start, ast)
  | .spaceParser => some (parseSpace ctx start, ast)
  | .charsParser _ ranges negated minCount maxCount =>
    some (charsLoop ctx start ranges negated minCount maxCount (ctx.input.length - start + 1)
      start 0, ast)
  | .stringParser delimiter =>
    some (stringLoop ctx start delimiter (ctx.input.length - start + 1) start, ast)
  | .untilParser delimiters =>
    some (untilLoop ctx (CommonTrie.ofWords delimiters) start (ctx.input.length - start + 1)
      start, ast)
  | .ruleParser name child => (parse child ast start).map (wrap ctx name [])
  | .tagParser child tag => (parse child ast start).map (wrap ctx [] tag)
  | .refParser name => (arena.getRule name).bind fun id => parse id ast start
  | .atomicParser child => (parse child ast start).map fun r => (clearPartial r.1, r.2)
  | .schemaParser child | .gbnfParser child _ | .acParser child _ => parse child ast start

end Peg

/-- `common_peg_arena::parse`; `none` where the depth is used up, and where the source throws. -/
def PegArena.parse (arena : PegArena) (ctx : PegContext) : Nat → Peg.PegParse
  | 0 => fun _ _ _ => none
  | depth + 1 => fun id ast start =>
    (arena.parsers[id]?).bind fun p => Peg.execute arena ctx (arena.parse ctx depth) p ast start

end Beellama.Ports
