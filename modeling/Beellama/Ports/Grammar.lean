import Beellama.Verified.Worklist

/-!
# Grammars as rule sets, and the pushdown recogniser

The element-level part of `src/src/llama-grammar.cpp`.  A pointer to an element is its rule and its
offset, and a stack is a list with its top first.  The work list of `llama_grammar_advance_stack` runs
on fuel, since nothing in the code bounds it; a loop may also end in `GGML_ABORT`.
-/

namespace Beellama.Ports

open Beellama.Verified

/-- `llama_gretype` -/
inductive Gretype
  | endOfRule
  | alt
  | ruleRef
  | char
  | charNot
  | charRngUpper
  | charAlt
  | charAny
  | token
  | tokenNot
  deriving DecidableEq, Repr

/-- `llama_grammar_element` -/
structure GrammarElement where
  type : Gretype
  /-- code point, rule id or token id -/
  value : Nat := 0
  deriving DecidableEq, Repr

abbrev GrammarRule := List GrammarElement

abbrev GrammarRules := List GrammarRule

/-- `const llama_grammar_element *` -/
structure GrammarPos where
  rule : Nat
  off : Nat
  deriving DecidableEq, Repr

/-- `llama_grammar_stack`, top first. -/
abbrev GrammarStack := List GrammarPos

namespace GrammarElement

/-- `llama_grammar_is_end_of_sequence` -/
def isEndOfSequence (e : GrammarElement) : Bool :=
  match e.type with
  | .endOfRule | .alt => true
  | _ => false

/-- The head of a character class, which `llama_grammar_match_char` asserts. -/
def isCharHead (e : GrammarElement) : Bool :=
  match e.type with
  | .char | .charNot | .charAny => true
  | _ => false

def isToken (e : GrammarElement) : Bool :=
  match e.type with
  | .token | .tokenNot => true
  | _ => false

/-- `is_positive_char` -/
def isPositiveChar (e : GrammarElement) : Bool := e.type = .char ∨ e.type = .charAny

end GrammarElement

/-- The element that stands behind every rule. -/
def endElement : GrammarElement := ⟨.endOfRule, 0⟩

namespace GrammarPos

/-- `pos + n` -/
def advance (p : GrammarPos) (n : Nat) : GrammarPos := ⟨p.rule, p.off + n⟩

def succ (p : GrammarPos) : GrammarPos := p.advance 1

end GrammarPos

namespace Grammar

/-- The elements of a rule from a pointer on. -/
def suffix (rules : GrammarRules) (p : GrammarPos) : List GrammarElement :=
  (rules.getD p.rule []).drop p.off

/-- `*pos` -/
def elem (rules : GrammarRules) (p : GrammarPos) : GrammarElement :=
  (suffix rules p).headD endElement

/-! ## Character classes -/

/-- The loop of `llama_grammar_match_char` over the elements from `pos` on: whether
one of them matches, and how many were read. -/
def matchLoop (chr : Nat) : List GrammarElement → Bool → Nat → Bool × Nat
  | [], found, n => (found, n)
  | [e], found, n =>
    (found || (if e.type = .charAny then true else e.value == chr), n + 1)
  | e :: e₁ :: rest, found, n =>
    if e₁.type = .charRngUpper then
      -- inclusive range, e.g. [a-z]
      let found := found || (e.value ≤ chr && chr ≤ e₁.value)
      if (rest.headD endElement).type = .charAlt then matchLoop chr rest found (n + 2)
      else (found, n + 2)
    else
      let found := found || (if e.type = .charAny then true else e.value == chr)
      if e₁.type = .charAlt then matchLoop chr (e₁ :: rest) found (n + 1) else (found, n + 1)

/-- `llama_grammar_match_char` -/
def matchChar (rules : GrammarRules) (p : GrammarPos) (chr : Nat) : Bool × GrammarPos :=
  let r := matchLoop chr (suffix rules p) false 0
  (r.1 == (elem rules p).isPositiveChar, p.advance r.2)

/-! ## Stacks -/

/-- Push a pointer, unless it is at the end of its alternate. -/
def push (rules : GrammarRules) (p : GrammarPos) (s : GrammarStack) : GrammarStack :=
  if (elem rules p).isEndOfSequence then s else p :: s

/-- Offsets of the alternates that follow the element scanned. -/
def alternatesFrom : Nat → List GrammarElement → List Nat
  | _, [] => []
  | off, e :: rest =>
    match e.type with
    | .endOfRule => []
    | .alt => (off + 1) :: alternatesFrom (off + 1) rest
    | _ => alternatesFrom (off + 1) rest

/-- The alternates of a rule, as pointers to their first elements. -/
def alternates (rules : GrammarRules) (rule : Nat) : List GrammarPos :=
  (0 :: alternatesFrom 0 (rules.getD rule [])).map (⟨rule, ·⟩)

/-- What replaces a stack in `llama_grammar_advance_stack`: stacks, none where it is kept, or
`GGML_ABORT`. -/
def expand (rules : GrammarRules) (s : GrammarStack) : Option (List GrammarStack) :=
  match s with
  | [] => some []
  | p :: rest =>
    match (elem rules p).type with
    | .ruleRef =>
      some ((alternates rules (elem rules p).value).map fun subpos =>
        push rules subpos (push rules p.succ rest))
    | .char | .charNot | .charAny | .token | .tokenNot => some []
    -- end of alternate, or the middle of a character class
    | .endOfRule | .alt | .charRngUpper | .charAlt => none

/-- The stacks that are kept: empty, or at a terminal. -/
def isFinal (rules : GrammarRules) (s : GrammarStack) : Bool :=
  match s with
  | [] => true
  | p :: _ => (elem rules p).isCharHead || (elem rules p).isToken

/-- `llama_grammar_advance_stack` -/
def advanceStack (rules : GrammarRules) (fuel : Nat) (stack : GrammarStack)
    (newStacks : List GrammarStack) : WorklistResult GrammarStack :=
  worklist (expand rules) (isFinal rules) fuel [stack] [] newStacks

/-- `llama_grammar_accept_chr` -/
def acceptChr (rules : GrammarRules) (fuel : Nat) (stack : GrammarStack) (chr : Nat)
    (newStacks : List GrammarStack) : WorklistResult GrammarStack :=
  match stack with
  | [] => .done newStacks
  | p :: rest =>
    if (elem rules p).isToken then .done newStacks
    else if ¬(elem rules p).isCharHead then .aborted
    else
      let m := matchChar rules p chr
      if m.1 then advanceStack rules fuel (push rules m.2 rest) newStacks
      else .done newStacks

/-- `llama_grammar_accept` -/
def accept (rules : GrammarRules) (fuel : Nat) (current : List GrammarStack) (chr : Nat) :
    WorklistResult GrammarStack :=
  current.foldl (fun r stack => r.bind (acceptChr rules fuel stack chr)) (.done [])

/-- `llama_grammar_accept` for each code point in turn. -/
def acceptAll (rules : GrammarRules) (fuel : Nat) (current : List GrammarStack) (w : List Nat) :
    WorklistResult GrammarStack :=
  w.foldl (fun r chr => r.bind fun current => accept rules fuel current chr) (.done current)

/-! ## The check for left recursion -/

/-- `rules_visited`, `rules_in_progress` and `rules_may_be_empty` -/
structure LeftRecursionState where
  visited : List Bool
  inProgress : List Bool
  mayBeEmpty : List Bool
  deriving DecidableEq, Repr

/-- The first loop of `llama_grammar_detect_left_recursion`: the rule has an
alternate without elements. -/
def hasEmptyAlternate : Bool → List GrammarElement → Bool
  | _, [] => false
  | atRuleStart, e :: rest =>
    if e.isEndOfSequence then (if atRuleStart then true else hasEmptyAlternate true rest)
    else hasEmptyAlternate false rest

/-- The second loop: recurse into the leftmost nonterminals. -/
def detectLoop (visit : Nat → LeftRecursionState → Bool × LeftRecursionState) :
    List GrammarElement → Bool → LeftRecursionState → Bool × LeftRecursionState
  | [], _, st => (false, st)
  | e :: rest, recurse, st =>
    if e.type = .ruleRef ∧ recurse then
      let r := visit e.value st
      if r.1 then r else detectLoop visit rest (r.2.mayBeEmpty.getD e.value false) r.2
    else detectLoop visit rest e.isEndOfSequence st

/-- `llama_grammar_detect_left_recursion`; a call deeper than there are rules has met a rule in
progress. -/
def detectLeftRecursion (rules : GrammarRules) :
    Nat → Nat → LeftRecursionState → Bool × LeftRecursionState
  | 0, _, st => (true, st)
  | fuel + 1, ruleIndex, st =>
    if st.inProgress.getD ruleIndex false then (true, st)
    else
      let rule := rules.getD ruleIndex []
      let st := { st with inProgress := st.inProgress.set ruleIndex true }
      let st :=
        if hasEmptyAlternate true rule then
          { st with mayBeEmpty := st.mayBeEmpty.set ruleIndex true }
        else st
      let r := detectLoop (detectLeftRecursion rules fuel) rule true st
      if r.1 then r
      else
        (false, { r.2 with
          inProgress := r.2.inProgress.set ruleIndex false
          visited := r.2.visited.set ruleIndex true })

/-- The loop of `llama_grammar_init_impl` over the rules from `i` on; the answer
is whether a left recursion was detected. -/
def checkFrom (rules : GrammarRules) (st : LeftRecursionState) : List Nat → Bool
  | [] => false
  | i :: rest =>
    if st.visited.getD i false then checkFrom rules st rest
    else
      let r := detectLeftRecursion rules (rules.length + 1) i st
      if r.1 then true else checkFrom rules r.2 rest

/-- The check with the rules that may be empty known beforehand; the code knows
none. -/
def leftRecursionWith (rules : GrammarRules) (mayBeEmpty : List Bool) : Bool :=
  checkFrom rules
    ⟨List.replicate rules.length false, List.replicate rules.length false, mayBeEmpty⟩
    (List.range rules.length)

def leftRecursion (rules : GrammarRules) : Bool :=
  leftRecursionWith rules (List.replicate rules.length false)

/-! ## Initialisation -/

/-- A rule definition copied into a vector. -/
def copyRule (rule : GrammarRule) : GrammarRule :=
  rule.takeWhile (fun e => e.type ≠ .endOfRule) ++ [endElement]

/-- All rule references point to rules. -/
def validRefs (rules : GrammarRules) : Bool :=
  rules.all fun rule => rule.all fun e => e.type ≠ .ruleRef || decide (e.value < rules.length)

/-- The rule set passes the checks of `llama_grammar_init_impl`. -/
def accepted (rules : GrammarRules) : Bool := validRefs rules && !leftRecursion rules

/-- The initial stacks: every alternate of the start rule. -/
def initialStacks (rules : GrammarRules) (fuel : Nat) (start : Nat) : WorklistResult GrammarStack :=
  (alternates rules start).foldl
    (fun r pos => r.bind fun current => advanceStack rules fuel (push rules pos []) current)
    (.done [])

/-- `llama_grammar_init_impl`: the rules and the stacks of the new grammar, `none`
for `nullptr`. -/
def initImpl (fuel : Nat) (rules : GrammarRules) (start : Nat) :
    Option (GrammarRules × WorklistResult GrammarStack) :=
  let vecRules := rules.map copyRule
  if accepted vecRules then some (vecRules, initialStacks vecRules fuel start) else none

end Grammar

end Beellama.Ports
