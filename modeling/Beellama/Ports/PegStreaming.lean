import Beellama.Ports.PegResult

/-!
# Streaming: the lenient parse of a part against the strict parse of the whole

Up to the end of a part, a parse goes as that of the whole text does: failures before the end are those
of the whole, and so are successes that leave input over (`Streams`).  The until parser breaks this:
it takes the start of a delimiter at the end of the part for a delimiter (`Settled`).
-/

namespace Beellama.Ports

open Peg PegResult

namespace Peg

variable {p s : List UInt8}

/-! ## Delimiters in a part and in the whole -/

variable {t : CommonTrie} {fuel fuel' : Nat}

/-- What the trie says in the part without coming to its end, it says in the whole. -/
theorem checkFrom_of_isPrefix (hTree : t.Tree) (hPrefix : p <+: s)
    (hWhole : Untruncated p) {current pos : Nat} (hFuel : p.length < pos + fuel)
    (hFuel' : s.length < pos + fuel') (hPos : pos ≤ p.length)
    (hStart : current ≠ 0 ∨ pos < p.length) (h : t.checkFrom p fuel current pos ≠ .partialMatch) :
    t.checkFrom s fuel' current pos = t.checkFrom p fuel current pos := by
  have hLength := hPrefix.length_le
  induction fuel generalizing fuel' current pos with
  | zero => omega
  | succ fuel ih =>
    obtain ⟨fuel', rfl⟩ : ∃ n, fuel' = n + 1 := ⟨fuel' - 1, by omega⟩
    simp only [CommonTrie.checkFrom] at h ⊢
    by_cases hLt : pos < p.length
    · rw [if_pos hLt] at h ⊢
      rw [if_pos (by omega), codepoint_of_isPrefix hPrefix hWhole hLt]
      cases hCode : commonParseUtf8Codepoint p pos with
      | incomplete => rfl
      | invalid => rfl
      | success codepoint n =>
        have hBounds := codepoint_bounds hCode
        rw [hCode] at h
        simp only at h ⊢
        cases hChild : t.child current codepoint with
        | none => rfl
        | some v =>
          have hGt := hTree.child_gt hChild
          rw [hChild] at h
          simp only at h ⊢
          by_cases hPattern : (t.node v).pattern.isSome = true
          · rw [if_pos hPattern, if_pos hPattern]
          rw [if_neg hPattern] at h
          rw [if_neg hPattern, if_neg hPattern]
          exact ih (by omega) (by omega) hBounds.2 (Or.inl (by omega)) h
    · rw [if_neg hLt, if_pos (hStart.resolve_right hLt)] at h
      exact absurd rfl h

variable {delimiters : List (List UInt8)} {pos : Nat}

theorem checkAt_of_isPrefix (hPrefix : p <+: s) (hWhole : Untruncated p) (hLt : pos < p.length)
    (h : (CommonTrie.ofWords delimiters).checkAt p pos ≠ .partialMatch) :
    (CommonTrie.ofWords delimiters).checkAt s pos = (CommonTrie.ofWords delimiters).checkAt p pos :=
  checkFrom_of_isPrefix (CommonTrie.build_tree _) hPrefix hWhole (by omega) (by omega) (by omega)
    (Or.inr hLt) h

/-- Where the part ends in the start of a delimiter, a delimiter stands in the whole,
or its start at the end. -/
def Settled (p s : List UInt8) (delimiters : List (List UInt8)) : Prop :=
  ∀ pos < p.length, (CommonTrie.ofWords delimiters).checkAt p pos = .partialMatch →
    (CommonTrie.ofWords delimiters).checkAt s pos ≠ .noMatch

/-! ## A lenient parse of the part and a strict parse of the whole -/

/-- The contexts of the two parses. -/
abbrev part (p : List UInt8) : PegContext := ⟨p, true⟩

abbrev whole (s : List UInt8) : PegContext := ⟨s, false⟩

/-- A result of the lenient parse of the part, against the strict parse of the whole
from the same position. -/
structure Agrees (p : List UInt8) (start : Nat) (r : PegResult)
    (strict : PegAst → Option (PegResult × PegAst)) : Prop where
  bounds : r.type = .success → start ≤ r.stop ∧ r.stop ≤ p.length
  fail : r.type = .fail → start < p.length ∧
    ∀ ast, ∃ r' ast', strict ast = some (r', ast') ∧ r'.type = .fail
  success : r.type = .success → r.stop < p.length →
    ∀ ast, ∃ r' ast', strict ast = some (r', ast') ∧ r'.type = .success ∧ r'.stop = r.stop

/-- A lenient parse and a strict one, from the same positions. -/
def Streams (p : List UInt8) (lenient strict : PegParse) : Prop :=
  ∀ id ast start r ast', start ≤ p.length → lenient id ast start = some (r, ast') →
    Agrees p start r fun ast => strict id ast start

/-! ## Parsers without children -/

/-- The lenient result against a strict one. -/
structure LeafAgrees (p : List UInt8) (start : Nat) (r r' : PegResult) : Prop where
  fail : r.type = .fail → start < p.length ∧ r'.type = .fail
  success : r.type = .success → r.stop < p.length → r'.type = .success ∧ r'.stop = r.stop

variable {r r' : PegResult}

theorem LeafAgrees.agrees {start : Nat} (h : LeafAgrees p start r r')
    (hLeaf : Leaf (part p) start r) : Agrees p start r fun ast => some (r', ast) where
  bounds := fun hSuccess => (hLeaf.bounds (by simp [hSuccess])).2
  fail := fun hFail => ⟨(h.fail hFail).1, fun ast => ⟨r', ast, rfl, (h.fail hFail).2⟩⟩
  success := fun hSuccess hStop ast =>
    ⟨r', ast, rfl, (h.success hSuccess hStop).1, (h.success hSuccess hStop).2⟩

variable {start pos : Nat}

theorem leafAgrees_more (stop : Nat) : LeafAgrees p start (span .needMoreInput start stop) r' :=
  ⟨fun h => by contradiction, fun h => by contradiction⟩

variable {stop : Nat}

theorem leafAgrees_fail {stop' : Nat} (hLt : start < p.length) :
    LeafAgrees p start (span .fail start stop) (span .fail start stop') :=
  ⟨fun _ => ⟨hLt, rfl⟩, fun h => by contradiction⟩

theorem leafAgrees_success (stop : Nat) :
    LeafAgrees p start (span .success start stop) (span .success start stop) :=
  ⟨fun h => by contradiction, fun _ _ => ⟨rfl, rfl⟩⟩

theorem leafAgrees_end (hStop : p.length ≤ stop) :
    LeafAgrees p start (span .success start stop) r' :=
  ⟨fun h => by contradiction, fun _ hLt => absurd hLt (Nat.not_lt.mpr hStop)⟩

variable (hPrefix : p <+: s)

include hPrefix

theorem getElem?_of_isPrefix (hLt : pos < p.length) : s[pos]? = p[pos]? := by
  obtain ⟨more, rfl⟩ := hPrefix
  exact List.getElem?_append_left hLt

theorem literalLoop_agrees (literal : List UInt8) (hLe : start ≤ pos) (hPos : pos ≤ p.length) :
    LeafAgrees p start (literalLoop (part p) start literal pos)
      (literalLoop (whole s) start literal pos) := by
  induction literal generalizing pos with
  | nil => exact leafAgrees_success pos
  | cons c literal ih =>
    simp only [literalLoop]
    cases hAt : p[pos]? with
    | none => exact leafAgrees_more pos
    | some b =>
      have hLt := (List.getElem?_eq_some_iff.mp hAt).1
      rw [getElem?_of_isPrefix hPrefix hLt, hAt]
      simp only
      split
      · exact leafAgrees_fail (by omega)
      · exact ih (by omega) (by omega)

theorem parseAny_agrees (hWhole : Untruncated p) :
    LeafAgrees p start (parseAny (part p) start) (parseAny (whole s) start) := by
  simp only [parseAny]
  by_cases hLt : start < p.length
  · rw [codepoint_of_isPrefix hPrefix hWhole hLt]
    cases hCode : commonParseUtf8Codepoint p start with
    | incomplete => exact leafAgrees_more start
    | invalid => exact leafAgrees_fail hLt
    | success codepoint bytes => exact leafAgrees_success _
  · rw [codepoint_at_end (Nat.le_of_not_lt hLt)]
    exact leafAgrees_more start

omit hPrefix in
/-- The check behind the loop, at the same position. -/
theorem charsFinish_agrees (minCount : Int) (matchCount : Nat) (hLe : start ≤ pos) :
    LeafAgrees p start (charsFinish (part p) start minCount pos matchCount)
      (charsFinish (whole s) start minCount pos matchCount) := by
  simp only [charsFinish]
  split
  next =>
    by_cases hEnd : p.length ≤ pos
    · rw [if_pos (by simp [hEnd])]
      exact leafAgrees_more pos
    · rw [if_neg (by simp [hEnd]), if_neg (by simp)]
      exact leafAgrees_fail (by omega)
  next => exact leafAgrees_success pos

variable {matchCount : Nat}

theorem charsLoop_agrees (hWhole : Untruncated p) (ranges : List CharRange)
    (negated : Bool) (minCount maxCount : Int)
    (hFuel : p.length < pos + fuel) (hFuel' : s.length < pos + fuel') (hLe : start ≤ pos)
    (hPos : pos ≤ p.length) :
    LeafAgrees p start
      (charsLoop (part p) start ranges negated minCount maxCount fuel pos matchCount)
      (charsLoop (whole s) start ranges negated minCount maxCount fuel' pos matchCount) := by
  have hLength := hPrefix.length_le
  induction fuel generalizing fuel' pos matchCount with
  | zero => omega
  | succ fuel ih =>
    obtain ⟨fuel', rfl⟩ : ∃ n, fuel' = n + 1 := ⟨fuel' - 1, by omega⟩
    simp only [charsLoop]
    split
    next =>
      by_cases hLt : pos < p.length
      · rw [codepoint_of_isPrefix hPrefix hWhole hLt]
        cases hCode : commonParseUtf8Codepoint p pos with
        | incomplete => exact absurd hCode (hWhole pos hLt)
        | invalid =>
          simp only
          split
          · exact leafAgrees_success pos
          · exact leafAgrees_fail (by omega)
        | success codepoint bytes =>
          have hBounds := codepoint_bounds hCode
          simp only
          split
          · exact ih (by omega) (by omega) (by omega) hBounds.2
          · exact charsFinish_agrees minCount matchCount hLe
      rw [codepoint_at_end (Nat.le_of_not_lt hLt)]
      by_cases hCount : minCount ≤ matchCount
      · rw [if_pos hCount]
        exact leafAgrees_end (Nat.le_of_not_lt hLt)
      · rw [if_neg hCount]
        exact leafAgrees_more pos
    next => exact charsFinish_agrees minCount matchCount hLe

theorem untilLoop_agrees (hWhole : Untruncated p) (hSettled : Settled p s delimiters)
    (hFuel : p.length < pos + fuel) (hFuel' : s.length < pos + fuel') (hLe : start ≤ pos)
    (hPos : pos ≤ p.length) :
    LeafAgrees p start (untilLoop (part p) (CommonTrie.ofWords delimiters) start fuel pos)
      (untilLoop (whole s) (CommonTrie.ofWords delimiters) start fuel' pos) := by
  have hLength := hPrefix.length_le
  induction fuel generalizing fuel' pos with
  | zero => omega
  | succ fuel ih =>
    obtain ⟨fuel', rfl⟩ : ∃ n, fuel' = n + 1 := ⟨fuel' - 1, by omega⟩
    simp only [untilLoop]
    by_cases hLt : pos < p.length
    · rw [if_pos hLt, if_pos (show pos < s.length by omega),
        codepoint_of_isPrefix hPrefix hWhole hLt]
      cases hCode : commonParseUtf8Codepoint p pos with
      | incomplete => exact absurd hCode (hWhole pos hLt)
      | invalid => exact leafAgrees_fail (by omega)
      | success codepoint bytes =>
        have hBounds := codepoint_bounds hCode
        cases hCheck : (CommonTrie.ofWords delimiters).checkAt p pos with
        | noMatch =>
          rw [checkAt_of_isPrefix hPrefix hWhole hLt (by simp [hCheck]), hCheck]
          exact ih (by omega) (by omega) (by omega) hBounds.2
        | completeMatch =>
          rw [checkAt_of_isPrefix hPrefix hWhole hLt (by simp [hCheck]), hCheck]
          exact leafAgrees_success pos
        | partialMatch =>
          -- the whole has a delimiter here, or the start of one
          have hNot := hSettled pos hLt hCheck
          cases hWholeCheck : (CommonTrie.ofWords delimiters).checkAt s pos with
          | noMatch => exact absurd hWholeCheck hNot
          | completeMatch => exact leafAgrees_success pos
          | partialMatch => exact leafAgrees_success pos
    · rw [if_neg hLt, if_pos (by simp; omega)]
      exact leafAgrees_more pos

/-! ## Parsers with children -/

omit hPrefix

variable {lenient strict : PegParse}

variable {result : PegResult} {first : PegAst → Option (PegResult × PegAst)}
  {next : PegResult × PegAst → Option (PegResult × PegAst)}

/-- Behind a child that succeeds both go on from its end; at the end of the part, the lenient parse
goes on alone. -/
theorem Agrees.bind (h : Agrees p pos result first)
    (hSuccess : result.type = .success)
    (hNext : ∀ r', r'.type = .success → r'.stop = result.stop →
      Agrees p result.stop r fun ast => next (r', ast)) :
    Agrees p pos r fun ast => (first ast).bind next := by
  obtain ⟨hLe, hStop⟩ := h.bounds hSuccess
  have hAlone := hNext result hSuccess rfl
  refine ⟨fun hType => ?_, fun hFail => ?_, fun hType hEnd ast => ?_⟩
  · have hBounds := hAlone.bounds hType
    omega
  · have hLt := (hAlone.fail hFail).1
    refine ⟨by omega, fun ast => ?_⟩
    obtain ⟨r', ast', hRun, hType, hEq⟩ := h.success hSuccess hLt ast
    obtain ⟨r₂, ast₂, hRun', hBoth⟩ := ((hNext r' hType hEq).fail hFail).2 ast'
    exact ⟨r₂, ast₂, by rw [hRun, Option.bind_some, hRun'], hBoth⟩
  have hBounds := hAlone.bounds hType
  obtain ⟨r', ast', hRun, hType', hEq⟩ := h.success hSuccess (by omega) ast
  obtain ⟨r₂, ast₂, hRun', hBoth⟩ := (hNext r' hType' hEq).success hType hEnd ast'
  exact ⟨r₂, ast₂, by rw [hRun, Option.bind_some, hRun'], hBoth⟩

theorem Agrees.bind_fail (h : Agrees p pos result first)
    (hFail : result.type = .fail)
    (hNext : ∀ r', r'.type = .fail → pos < p.length → Agrees p pos r fun ast => next (r', ast)) :
    Agrees p pos r fun ast => (first ast).bind next := by
  obtain ⟨hLt, hStrict⟩ := h.fail hFail
  have hAlone := hNext result hFail hLt
  refine ⟨hAlone.bounds, fun hType => ⟨hLt, fun ast => ?_⟩, fun hType hEnd ast => ?_⟩
  · obtain ⟨r', ast', hRun, hType'⟩ := hStrict ast
    obtain ⟨r₂, ast₂, hRun', hBoth⟩ := ((hNext r' hType' hLt).fail hType).2 ast'
    exact ⟨r₂, ast₂, by rw [hRun, Option.bind_some, hRun'], hBoth⟩
  obtain ⟨r', ast', hRun, hType'⟩ := hStrict ast
  obtain ⟨r₂, ast₂, hRun', hBoth⟩ := (hNext r' hType' hLt).success hType hEnd ast'
  exact ⟨r₂, ast₂, by rw [hRun, Option.bind_some, hRun'], hBoth⟩

variable {strictRun : PegAst → Option (PegResult × PegAst)}

theorem agrees_more (hMore : r.type = .needMoreInput) : Agrees p pos r strictRun where
  bounds := fun hType => by rw [hMore] at hType; contradiction
  fail := fun hType => by rw [hMore] at hType; contradiction
  success := fun hType => by rw [hMore] at hType; contradiction

theorem agrees_fail (hFail : r.type = .fail) (hLt : pos < p.length)
    (hStrict : ∀ ast, ∃ r' ast', strictRun ast = some (r', ast') ∧ r'.type = .fail) :
    Agrees p pos r strictRun where
  bounds := fun hType => by rw [hFail] at hType; contradiction
  fail := fun _ => ⟨hLt, hStrict⟩
  success := fun hType => by rw [hFail] at hType; contradiction

variable {children nodes : List Nat} {ast ast' : PegAst}

theorem sequenceLoop_agrees (hStreams : Streams p lenient strict) (hPos : pos ≤ p.length)
    (h : sequenceLoop lenient start children pos nodes ast = some (r, ast')) (nodes' : List Nat) :
    Agrees p pos r fun ast => sequenceLoop strict start children pos nodes' ast := by
  induction children generalizing pos nodes nodes' ast with
  | nil =>
    obtain ⟨rfl, -⟩ := h
    exact ⟨fun _ => ⟨Nat.le_refl _, hPos⟩, fun hFail => by contradiction,
      fun _ _ ast => ⟨_, ast, rfl, rfl, rfl⟩⟩
  | cons child children ih =>
    obtain ⟨⟨result, ast₁⟩, hChild, hRest⟩ := Option.bind_eq_some_iff.mp h
    have hAgrees := hStreams child ast pos result ast₁ hPos hChild
    simp only at hRest
    split at hRest
    next hFail =>
      obtain ⟨rfl, -⟩ := hRest
      refine hAgrees.bind_fail hFail fun r' hType hLt => agrees_fail rfl hLt fun ast => ?_
      simp only [hType]
      exact ⟨_, _, rfl, rfl⟩
    next hMore =>
      simp only [Option.some.injEq] at hRest
      obtain ⟨rfl, -⟩ := hRest
      exact agrees_more rfl
    next hSuccess =>
      refine hAgrees.bind hSuccess fun r' hType hEq => ?_
      simp only [hType, hEq]
      exact ih (hAgrees.bounds hSuccess).2 hRest _

theorem choiceLoop_agrees (hStreams : Streams p lenient strict) (hStart : start ≤ p.length)
    (hNil : children = [] → start < p.length)
    (h : choiceLoop lenient start children ast = some (r, ast')) :
    Agrees p start r fun ast => choiceLoop strict start children ast := by
  induction children generalizing ast with
  | nil =>
    obtain ⟨rfl, -⟩ := h
    exact agrees_fail rfl (hNil rfl) fun ast => ⟨_, ast, rfl, rfl⟩
  | cons child children ih =>
    obtain ⟨⟨result, ast₁⟩, hChild, hRest⟩ := Option.bind_eq_some_iff.mp h
    have hAgrees := hStreams child ast start result ast₁ hStart hChild
    simp only at hRest
    split at hRest
    next hFail =>
      refine hAgrees.bind_fail hFail fun r' hType hLt => ?_
      simp only [hType]
      exact ih (fun _ => hLt) hRest
    next hNot =>
      simp only [Option.some.injEq, Prod.mk.injEq] at hRest
      obtain ⟨rfl, -⟩ := hRest
      cases hType : result.type with
      | fail => exact absurd hType hNot
      | needMoreInput => exact agrees_more hType
      | success =>
        refine hAgrees.bind hType fun r' hType' hEq => ?_
        simp only [hType']
        exact ⟨fun _ => ⟨Nat.le_refl _, (hAgrees.bounds hType).2⟩,
          fun hFail => absurd hFail hNot, fun _ _ ast => ⟨r', ast, rfl, hType', hEq⟩⟩

/-- The checks behind the two loops, at the same position. -/
theorem repetitionFinish_agrees (hPos : pos ≤ p.length) (minCount : Int) (matchCount : Nat)
    (nodes nodes' : List Nat) :
    Agrees p pos (repetitionFinish (part p) start minCount pos matchCount nodes) fun ast =>
      some (repetitionFinish (whole s) start minCount pos matchCount nodes', ast) := by
  simp only [repetitionFinish]
  split
  next =>
    by_cases hEnd : p.length ≤ pos
    · rw [if_pos (by simp [hEnd])]
      exact agrees_more rfl
    · rw [if_neg (by simp [hEnd]), if_neg (by simp)]
      exact agrees_fail rfl (by omega) fun ast => ⟨_, ast, rfl, rfl⟩
  next =>
    exact ⟨fun _ => ⟨Nat.le_refl _, hPos⟩, fun hFail => by contradiction,
      fun _ _ ast => ⟨_, ast, rfl, rfl, rfl⟩⟩

/-- At the end of the part the lenient loop does not fail, and leaves nothing over. -/
theorem repetitionFinish_end (hPos : pos = p.length)
    (minCount : Int) (matchCount : Nat) (nodes : List Nat) :
    Agrees p pos (repetitionFinish (part p) start minCount pos matchCount nodes) strictRun := by
  simp only [repetitionFinish]
  split
  next =>
    rw [if_pos (by simp [hPos])]
    exact agrees_more rfl
  next =>
    exact ⟨fun _ => ⟨Nat.le_refl _, Nat.le_of_eq hPos⟩, fun hFail => by contradiction,
      fun _ hEnd => absurd hPos (Nat.ne_of_lt hEnd)⟩

theorem repetitionLoop_agrees (hPrefix : p <+: s) (hStreams : Streams p lenient strict)
    {child : Nat} {minCount maxCount : Int}
    (hFuel' : s.length < pos + fuel') (hPos : pos ≤ p.length)
    (h : repetitionLoop (part p) lenient start child minCount maxCount fuel pos matchCount nodes
      ast = some (r, ast')) (nodes' : List Nat) :
    Agrees p pos r fun ast =>
      repetitionLoop (whole s) strict start child minCount maxCount fuel' pos matchCount nodes'
        ast := by
  have hLength := hPrefix.length_le
  induction fuel generalizing fuel' pos matchCount nodes nodes' ast with
  | zero => contradiction
  | succ fuel ih =>
    obtain ⟨fuel', rfl⟩ : ∃ n, fuel' = n + 1 := ⟨fuel' - 1, by omega⟩
    simp only [repetitionLoop] at h ⊢
    by_cases hMax : maxCount = -1 ∨ (matchCount : Int) < maxCount
    · by_cases hLt : pos < p.length
      · rw [if_pos ⟨hMax, hLt⟩] at h
        simp only [if_pos (And.intro hMax (show pos < s.length by omega))]
        obtain ⟨⟨result, ast₁⟩, hChild, hRest⟩ := Option.bind_eq_some_iff.mp h
        have hAgrees := hStreams child ast pos result ast₁ hPos hChild
        simp only at hRest
        split at hRest
        next hSuccess =>
          have hBounds := hAgrees.bounds hSuccess
          refine hAgrees.bind hSuccess fun r' hType hEq => ?_
          simp only [hType, hEq]
          split at hRest
          next hEmpty =>
            obtain ⟨rfl, -⟩ := hRest
            simp only [if_pos hEmpty]
            rw [hEmpty]
            exact repetitionFinish_agrees hPos minCount matchCount nodes nodes'
          next hMoved =>
            simp only [if_neg hMoved]
            exact ih (by omega) hBounds.2 hRest _
        next hMore =>
          simp only [Option.some.injEq] at hRest
          obtain ⟨rfl, -⟩ := hRest
          exact agrees_more rfl
        next hFail =>
          simp only [Option.some.injEq, Prod.mk.injEq] at hRest
          obtain ⟨rfl, -⟩ := hRest
          refine hAgrees.bind_fail hFail fun r' hType _ => ?_
          simp only [hType]
          exact repetitionFinish_agrees hPos minCount matchCount nodes nodes'
      rw [if_neg (fun hBoth => hLt hBoth.2)] at h
      obtain ⟨rfl, -⟩ := h
      exact repetitionFinish_end (by omega) minCount matchCount nodes
    rw [if_neg (fun hBoth => hMax hBoth.1)] at h
    simp only [Option.some.injEq, Prod.mk.injEq] at h
    obtain ⟨rfl, -⟩ := h
    simp only [if_neg (fun hBoth : _ ∧ _ => hMax hBoth.1)]
    exact repetitionFinish_agrees hPos minCount matchCount nodes nodes'

/-! ## The streaming law -/

/-- The parsers of the law: no lookahead, no start and no end, and no empty choice. -/
def Streamable : PegParser → Bool
  | .literalParser _ | .sequenceParser _ | .repetitionParser .. | .charsParser .. | .anyParser
  | .untilParser _ | .ruleParser .. | .refParser _ | .tagParser .. | .atomicParser _ => true
  | .choiceParser children => children ≠ []
  | _ => false

/-- What keeps the type and the end of a result keeps the agreement. -/
theorem Agrees.map (h : Agrees p pos r strictRun) {f f' : PegResult × PegAst → PegResult × PegAst}
    (hf : ∀ x, (f x).1.type = x.1.type ∧ (f x).1.stop = x.1.stop)
    (hf' : ∀ x, (f' x).1.type = x.1.type ∧ (f' x).1.stop = x.1.stop) (ast : PegAst) :
    Agrees p pos (f (r, ast)).1 fun ast => (strictRun ast).map f' := by
  obtain ⟨hType, hStop⟩ := hf (r, ast)
  refine ⟨fun hSuccess => ?_, fun hFail => ?_, fun hSuccess hEnd ast => ?_⟩
  · rw [hStop]
    exact h.bounds (hType.symm.trans hSuccess)
  · obtain ⟨hLt, hStrict⟩ := h.fail (hType.symm.trans hFail)
    refine ⟨hLt, fun ast => ?_⟩
    obtain ⟨r', ast', hRun, hType'⟩ := hStrict ast
    exact ⟨_, _, by rw [hRun]; rfl, (hf' (r', ast')).1.trans hType'⟩
  rw [hStop] at hEnd ⊢
  obtain ⟨r', ast', hRun, hType', hEq⟩ := h.success (hType.symm.trans hSuccess) hEnd ast
  exact ⟨_, _, by rw [hRun]; rfl, (hf' (r', ast')).1.trans hType',
    (hf' (r', ast')).2.trans hEq⟩

theorem wrap_keeps (ctx : PegContext) (rule tag : List UInt8) (x : PegResult × PegAst) :
    (wrap ctx rule tag x).1.type = x.1.type ∧ (wrap ctx rule tag x).1.stop = x.1.stop := by
  simp only [wrap]
  split
  · exact ⟨rfl, rfl⟩
  · exact ⟨rfl, rfl⟩

theorem clearPartial_keeps (result : PegResult) :
    (clearPartial result).type = result.type ∧ (clearPartial result).stop = result.stop := by
  simp only [clearPartial]
  split
  · exact ⟨rfl, rfl⟩
  · exact ⟨rfl, rfl⟩

variable {arena : PegArena}

theorem execute_agrees (hPrefix : p <+: s) (hWhole : Untruncated p)
    (hStreams : Streams p lenient strict) {parser : PegParser} (hKind : Streamable parser = true)
    (hSettled : ∀ delimiters, parser = .untilParser delimiters → Settled p s delimiters)
    (hStart : start ≤ p.length)
    (h : execute arena (part p) lenient parser ast start = some (r, ast')) :
    Agrees p start r fun ast => execute arena (whole s) strict parser ast start := by
  have hLeaf : ∀ r₁ r', LeafAgrees p start r₁ r' → Leaf (part p) start r₁ →
      some (r₁, ast) = some (r, ast') → Agrees p start r fun ast => some (r', ast) := by
    intro r₁ r' hAgrees hLeaf hEq
    obtain ⟨rfl, -⟩ := hEq
    exact hAgrees.agrees hLeaf
  cases parser with
  | literalParser literal =>
    exact hLeaf _ _ (literalLoop_agrees hPrefix literal (Nat.le_refl _) hStart)
      (literalLoop_leaf literal (Nat.le_refl _) hStart) h
  | anyParser => exact hLeaf _ _ (parseAny_agrees hPrefix hWhole) (parseAny_leaf hStart) h
  | charsParser pattern ranges negated minCount maxCount =>
    exact hLeaf _ _
      (charsLoop_agrees hPrefix hWhole ranges negated minCount maxCount (by simp; omega)
        (by simp; omega) (Nat.le_refl _) hStart)
      (charsLoop_leaf ranges negated minCount maxCount _ (Nat.le_refl _) hStart) h
  | untilParser delimiters =>
    exact hLeaf _ _
      (untilLoop_agrees hPrefix hWhole (hSettled delimiters rfl) (by simp; omega)
        (by simp; omega) (Nat.le_refl _) hStart)
      (untilLoop_leaf _ _ (Nat.le_refl _) hStart) h
  | sequenceParser children => exact sequenceLoop_agrees hStreams hStart h []
  | choiceParser children =>
    refine choiceLoop_agrees hStreams hStart ?_ h
    intro hNil
    exact absurd hNil (by simpa [Streamable] using hKind)
  | repetitionParser child minCount maxCount =>
    exact repetitionLoop_agrees hPrefix hStreams (by simp; omega) hStart h []
  | ruleParser name child =>
    obtain ⟨⟨r₁, ast₁⟩, hChild, hEq⟩ := Option.map_eq_some_iff.mp h
    obtain rfl : (wrap (part p) name [] (r₁, ast₁)).1 = r := congrArg Prod.fst hEq
    exact (hStreams child ast start r₁ ast₁ hStart hChild).map (wrap_keeps _ name [])
      (wrap_keeps _ name []) ast₁
  | tagParser child tag =>
    obtain ⟨⟨r₁, ast₁⟩, hChild, hEq⟩ := Option.map_eq_some_iff.mp h
    obtain rfl : (wrap (part p) [] tag (r₁, ast₁)).1 = r := congrArg Prod.fst hEq
    exact (hStreams child ast start r₁ ast₁ hStart hChild).map (wrap_keeps _ [] tag)
      (wrap_keeps _ [] tag) ast₁
  | refParser name =>
    obtain ⟨id, hRule, hChild⟩ := Option.bind_eq_some_iff.mp h
    simp only [execute, hRule]
    exact hStreams id ast start r ast' hStart hChild
  | atomicParser child =>
    obtain ⟨⟨r₁, ast₁⟩, hChild, hEq⟩ := Option.map_eq_some_iff.mp h
    obtain rfl : clearPartial r₁ = r := congrArg Prod.fst hEq
    have hKeeps := fun x : PegResult × PegAst => clearPartial_keeps x.1
    exact (hStreams child ast start r₁ ast₁ hStart hChild).map
      (f := fun x => (clearPartial x.1, x.2)) hKeeps hKeeps ast₁
  | epsilonParser | startParser | endParser | andParser child | notParser child | spaceParser
  | stringParser delimiter | schemaParser child | gbnfParser child grammar
  | acParser child delimiters => simp [Streamable] at hKind

/-- Every lenient parse of the part agrees with the strict parse of the whole. -/
theorem parse_streams (hPrefix : p <+: s) (hWhole : Untruncated p)
    (hKind : ∀ parser ∈ arena.parsers, Streamable parser = true)
    (hSettled : ∀ delimiters, .untilParser delimiters ∈ arena.parsers → Settled p s delimiters)
    (depth : Nat) : Streams p (arena.parse (part p) depth) (arena.parse (whole s) depth) := by
  induction depth with
  | zero =>
    intro id ast start r ast' _ h
    contradiction
  | succ depth ih =>
    intro id ast start r ast' hStart h
    obtain ⟨parser, hAt, hExecute⟩ := Option.bind_eq_some_iff.mp h
    have hMem := List.mem_of_getElem? hAt
    simp only [PegArena.parse, hAt]
    refine execute_agrees hPrefix hWhole ih (hKind parser hMem) ?_ hStart hExecute
    intro delimiters hEq
    exact hSettled delimiters (hEq ▸ hMem)

theorem literalLoop_of_drop (ctx : PegContext) {literal rest : List UInt8} {start pos : Nat}
    (h : ctx.input.drop pos = literal ++ rest) :
    literalLoop ctx start literal pos = span .success start (pos + literal.length) := by
  induction literal generalizing pos with
  | nil => rfl
  | cons c literal ih =>
    have hAt : ctx.input[pos]? = some c := by
      rw [← List.head?_drop, h]
      rfl
    have hNext : ctx.input.drop (pos + 1) = literal ++ rest := by
      rw [← List.tail_drop, h]
      rfl
    simp only [literalLoop, hAt, ne_eq, not_true_eq_false, if_false]
    rw [ih hNext, List.length_cons, Nat.add_assoc, Nat.add_comm 1]

/-- The strict until parser never fails on code points, and moves on where no delimiter
stands. -/
theorem untilLoop_strict (matcher : CommonTrie) (start : Nat) (fuel : Nat)
    (hText : DecodesUtf8 (s.drop pos)) (hPos : pos ≤ s.length) (hFuel : s.length < pos + fuel) :
    ∃ stop, untilLoop (whole s) matcher start fuel pos = span .success start stop ∧ pos ≤ stop ∧
      stop ≤ s.length ∧ (pos < s.length → matcher.checkAt s pos = .noMatch → pos < stop) := by
  induction fuel generalizing pos with
  | zero => omega
  | succ fuel ih =>
    simp only [untilLoop]
    by_cases hLt : pos < s.length
    · rw [if_pos hLt]
      generalize hDrop : s.drop pos = bytes at hText
      cases hText with
      | nil =>
        rw [List.drop_eq_nil_iff] at hDrop
        omega
      | @cons _ codepoint n hHead hRest =>
        subst hDrop
        have hCode : commonParseUtf8Codepoint s pos = .success codepoint n := hHead
        have hBounds := codepoint_bounds hCode
        rw [List.drop_drop] at hRest
        rw [hCode]
        cases hCheck : matcher.checkAt s pos with
        | noMatch =>
          obtain ⟨stop, hRun, hLe, hStop, -⟩ := ih hRest hBounds.2 (by omega)
          exact ⟨stop, hRun, by omega, hStop, fun _ _ => by omega⟩
        | completeMatch =>
          exact ⟨pos, rfl, Nat.le_refl _, hPos, fun _ hNo => by contradiction⟩
        | partialMatch =>
          exact ⟨pos, rfl, Nat.le_refl _, hPos, fun _ hNo => by contradiction⟩
    · rw [if_neg hLt, if_neg (by simp)]
      exact ⟨pos, rfl, Nat.le_refl _, hPos, fun h => absurd h hLt⟩

/-- Where a code point cannot be read, no delimiter begins. -/
theorem checkAt_invalid (h : commonParseUtf8Codepoint s pos = .invalid) :
    t.checkAt s pos = .noMatch := by
  simp only [CommonTrie.checkAt, CommonTrie.checkFrom, h]
  split
  · rfl
  · rfl

/-- The text up to a position, and behind it some text up to a delimiter. -/
def someUntil (p : List UInt8) (pos : Nat) (delimiters : List (List UInt8)) : PegArena :=
  ⟨[.literalParser (p.take pos), .untilParser delimiters, .repetitionParser 1 1 1,
    .sequenceParser [0, 2]], []⟩

/-- Its parse fails where the until parser stops at once. -/
theorem someUntil_parse {ctx : PegContext}
    (hLiteral : literalLoop ctx 0 (p.take pos) 0 = span .success 0 pos)
    (hUntil : untilLoop ctx (CommonTrie.ofWords delimiters) pos (ctx.input.length - pos + 1) pos =
      span .success pos stop) (hLt : pos < ctx.input.length) :
    (someUntil p pos delimiters).parse ctx 3 3 [] 0 =
      some (if stop = pos then span .fail 0 pos else span .success 0 stop, []) := by
  have hRun : (someUntil p pos delimiters).parse ctx 1 1 [] pos =
      some (span .success pos stop, []) := congrArg (fun r => some (r, [])) hUntil
  obtain ⟨k, hk⟩ : ∃ k, ctx.input.length - pos + 1 = k + 1 + 1 :=
    ⟨ctx.input.length - pos - 1, by omega⟩
  have hNot : ¬ctx.input.length ≤ pos := by omega
  have hRepeat : (someUntil p pos delimiters).parse ctx 2 2 [] pos =
      some (if stop = pos then span .fail pos pos else span .success pos stop, []) := by
    show repetitionLoop ctx ((someUntil p pos delimiters).parse ctx 1) pos 1 1 1
      (ctx.input.length - pos + 1) pos 0 [] [] = _
    rw [hk, repetitionLoop, if_pos ⟨Or.inr (by decide), hLt⟩, hRun]
    by_cases hStop : stop = pos
    · simp [hStop, span, repetitionFinish, hNot]
    · simp [hStop, span, repetitionLoop, repetitionFinish]
  have hTwo : (someUntil p pos delimiters).parse ctx 2 0 [] 0 = some (span .success 0 pos, []) :=
    congrArg (fun r => some (r, [])) hLiteral
  show sequenceLoop ((someUntil p pos delimiters).parse ctx 2) 0 [0, 2] 0 [] [] = _
  by_cases hStop : stop = pos
  · rw [if_pos hStop] at hRepeat ⊢
    simp [sequenceLoop, hTwo, hRepeat, span]
  · rw [if_neg hStop] at hRepeat ⊢
    simp [sequenceLoop, hTwo, hRepeat, span]

/-- Where an until parser takes the start of a delimiter at the end of the part for one, a parser
that needs text before the delimiter fails on the part only. -/
theorem someUntil_breaks (hPrefix : p <+: s)
    (hPart : DecodesUtf8 p) (hText : DecodesUtf8 s) (hLt : pos < p.length)
    (hPartial : (CommonTrie.ofWords delimiters).checkAt p pos = .partialMatch)
    (hNone : (CommonTrie.ofWords delimiters).checkAt s pos = .noMatch) :
    (∃ r ast, (someUntil p pos delimiters).parse (part p) 3 3 [] 0 = some (r, ast) ∧
        r.type = .fail) ∧
      ∃ r ast, (someUntil p pos delimiters).parse (whole s) 3 3 [] 0 = some (r, ast) ∧
        r.type = .success := by
  have hLength := hPrefix.length_le
  obtain ⟨codepoint, n, hCode⟩ :
      ∃ codepoint n, commonParseUtf8Codepoint p pos = .success codepoint n := by
    rcases hPart.drop pos hLt with hInvalid | ⟨-, hSuccess⟩
    · rw [checkAt_invalid hInvalid] at hPartial
      contradiction
    · exact hSuccess
  have hDecodes : DecodesUtf8 (s.drop pos) := by
    have hSame := codepoint_of_isPrefix hPrefix hPart.untruncated hLt
    rcases hText.drop pos (by omega) with hInvalid | ⟨hDecodes, -⟩
    · rw [hCode] at hSame
      exact absurd (hSame.symm.trans hInvalid) (by simp)
    · exact hDecodes
  have hTake : (p.take pos).length = pos := by
    rw [List.length_take]
    omega
  have hLiteral : ∀ text : List UInt8, p <+: text → ∀ lenient,
      literalLoop ⟨text, lenient⟩ 0 (p.take pos) 0 = span .success 0 pos := by
    intro text hBegins lenient
    obtain ⟨more, rfl⟩ := hBegins
    have hDrop : (p ++ more).drop 0 = p.take pos ++ (p.drop pos ++ more) := by
      rw [List.drop_zero, ← List.append_assoc, List.take_append_drop]
    rw [literalLoop_of_drop ⟨p ++ more, lenient⟩ hDrop, hTake, Nat.zero_add]
  constructor
  · have hUntil : untilLoop (part p) (CommonTrie.ofWords delimiters) pos (p.length - pos + 1) pos =
        span .success pos pos := by
      simp only [untilLoop, if_pos hLt, hCode, hPartial]
    refine ⟨span .fail 0 pos, [], ?_, rfl⟩
    rw [someUntil_parse (hLiteral p List.prefix_rfl true) hUntil hLt, if_pos rfl]
  obtain ⟨stop, hUntil, -, -, hMoved⟩ := untilLoop_strict (CommonTrie.ofWords delimiters) pos
    (s.length - pos + 1) hDecodes (by omega) (by omega)
  have hNe := hMoved (by omega) hNone
  refine ⟨span .success 0 stop, [], ?_, rfl⟩
  rw [someUntil_parse (hLiteral s hPrefix false) hUntil (by show pos < s.length; omega),
    if_neg (by omega)]

/-- **The streaming law.**  For a text, its part up to a code point and the delimiters of
the until parsers, the lenient parse of the part fails only where the strict parse of
the whole does, for all parsers of the kinds of the law, exactly when the start of a
delimiter that ends the part is one in the whole too. -/
theorem streaming_iff (p s : List UInt8) (hPrefix : p <+: s) (hPart : DecodesUtf8 p)
    (hText : DecodesUtf8 s) (lists : List (List (List UInt8))) :
    (∀ arena : PegArena, (∀ parser ∈ arena.parsers, Streamable parser = true) →
      (∀ delimiters, .untilParser delimiters ∈ arena.parsers → delimiters ∈ lists) →
      ∀ depth id ast r ast', arena.parse (part p) depth id ast 0 = some (r, ast') →
        r.type = .fail →
          ∃ r' ast', arena.parse (whole s) depth id ast 0 = some (r', ast') ∧ r'.type = .fail) ↔
      ∀ delimiters ∈ lists, Settled p s delimiters := by
  constructor
  · intro hLaw delimiters hMem pos hLt hPartial hNone
    obtain ⟨⟨r, ast, hLenient, hFail⟩, r', ast', hStrict, hSuccess⟩ :=
      someUntil_breaks hPrefix hPart hText hLt hPartial hNone
    obtain ⟨r₂, ast₂, hRun, hFail'⟩ := hLaw (someUntil p pos delimiters)
      (by simp [someUntil, Streamable]) (by simpa [someUntil] using hMem) 3 3 [] r ast hLenient hFail
    rw [hStrict, Option.some.injEq, Prod.mk.injEq] at hRun
    rw [← hRun.1, hSuccess] at hFail'
    contradiction
  intro hSettled arena hKind hLists depth id ast r ast' hLenient hFail
  have hStreams := parse_streams hPrefix hPart.untruncated hKind
    (fun delimiters hMem => hSettled delimiters (hLists delimiters hMem)) depth
  exact ((hStreams id ast 0 r ast' (Nat.zero_le _) hLenient).fail hFail).2 ast

/-- The text `a</t>b` and its part up to the `/`. -/
theorem streaming_tag :
    (∀ arena : PegArena, (∀ parser ∈ arena.parsers, Streamable parser = true) →
      (∀ delimiters, .untilParser delimiters ∈ arena.parsers →
        delimiters ∈ [[[0x3C, 0x2F, 0x74, 0x3E]]]) →
      ∀ depth id ast r ast', arena.parse (part [0x61, 0x3C, 0x2F]) depth id ast 0 = some (r, ast') →
        r.type = .fail →
          ∃ r' ast', arena.parse (whole [0x61, 0x3C, 0x2F, 0x74, 0x3E, 0x62]) depth id ast 0 =
            some (r', ast') ∧ r'.type = .fail) ↔
      ∀ delimiters ∈ [[[0x3C, 0x2F, 0x74, 0x3E]]],
        Settled [0x61, 0x3C, 0x2F] [0x61, 0x3C, 0x2F, 0x74, 0x3E, 0x62] delimiters := by
  refine streaming_iff [0x61, 0x3C, 0x2F] [0x61, 0x3C, 0x2F, 0x74, 0x3E, 0x62] (by decide) ?_ ?_ _
  · exact .cons rfl (.cons rfl (.cons rfl .nil))
  · exact .cons rfl (.cons rfl (.cons rfl (.cons rfl (.cons rfl (.cons rfl .nil)))))

/-- Some text up to `ab` or `c`, and then a `c`. -/
def untilThenC : PegArena :=
  ⟨[.untilParser [[0x61, 0x62], [0x63]], .literalParser [0x63], .sequenceParser [0, 1]], []⟩

/-- The part `xa` ends in the start of the delimiter `ab`; in `xac` none stands there,
and the text up to the `c` is longer. -/
theorem untilThenC_breaks :
    (∀ parser ∈ untilThenC.parsers, Streamable parser = true) ∧
      (untilThenC.parse (part [0x78, 0x61]) 2 2 [] 0 = some (⟨.fail, 0, 1, []⟩, [])) ∧
      untilThenC.parse (whole [0x78, 0x61, 0x63]) 2 2 [] 0 = some (⟨.success, 0, 3, []⟩, []) := by
  decide

end Peg

end Beellama.Ports
