import Beellama.Ports.Grammar
import Mathlib.Data.List.GetD
import Mathlib.Data.List.TakeWhile
import Mathlib.Algebra.Order.BigOperators.Group.List
import Mathlib.Algebra.Order.Group.Nat

/-!
# Left recursion and the termination of `llama_grammar_advance_stack`

`llama_grammar_detect_left_recursion` knows a rule as possibly empty only when one of its alternates
has no elements, so a rule that is empty through other rules hides what stands behind it.  With these
rules known beforehand the same check is exact: a rule that it has left unharmed has finitely many
leftmost descents (`detect_acc`), and a stack is expanded along such descents only (`acc_push`).
-/

namespace Beellama.Ports

open Beellama.Verified Grammar List

namespace Grammar

variable {rules : GrammarRules} {p : GrammarPos} {r : Nat}

/-! ## Leftmost derivations -/

/-- What stands at a pointer derives the empty string. -/
inductive Nullable (rules : GrammarRules) : GrammarPos → Prop
  | done {p : GrammarPos} (hEnd : (elem rules p).isEndOfSequence = true) : Nullable rules p
  | ref {p b : GrammarPos} (hRef : (elem rules p).type = .ruleRef)
      (hAlt : b ∈ alternates rules (elem rules p).value) (hBody : Nullable rules b)
      (hRest : Nullable rules p.succ) : Nullable rules p

/-- One of the alternates of a rule derives the empty string. -/
def RuleNullable (rules : GrammarRules) (r : Nat) : Prop :=
  ∃ b ∈ alternates rules r, Nullable rules b

/-- The rule stands leftmost in a sentential form that a pointer derives, past
nullable rules. -/
inductive LeftOf (rules : GrammarRules) : GrammarPos → Nat → Prop
  | here {p : GrammarPos} (hRef : (elem rules p).type = .ruleRef) :
      LeftOf rules p (elem rules p).value
  | skip {p : GrammarPos} {r : Nat} (hRef : (elem rules p).type = .ruleRef)
      (hNull : RuleNullable rules (elem rules p).value) (hRest : LeftOf rules p.succ r) :
      LeftOf rules p r

/-- `B` stands leftmost in what `A` derives in one step. -/
def LeftCalls (rules : GrammarRules) (A B : Nat) : Prop :=
  ∃ b ∈ alternates rules A, LeftOf rules b B

/-- Some rule derives itself leftmost. -/
def LeftRecursive (rules : GrammarRules) : Prop :=
  ∃ A, Relation.TransGen (LeftCalls rules) A A

/-- The leftmost descents from a rule are finite. -/
abbrev LeftAcc (rules : GrammarRules) (A : Nat) : Prop :=
  Acc (fun B A => LeftCalls rules A B) A

variable {A : Nat}

theorem not_transGen_of_acc (h : LeftAcc rules A) : ¬Relation.TransGen (LeftCalls rules) A A := by
  induction h with
  | intro A _ ih =>
    intro hCycle
    obtain ⟨B, hStep, hBack⟩ := Relation.TransGen.head'_iff.mp hCycle
    exact ih B hStep (Relation.TransGen.tail' hBack hStep)

/-! ## Stacks are expanded along leftmost descents -/

/-- A stack whose expansions are finite. -/
abbrev StackAcc (rules : GrammarRules) (s : GrammarStack) : Prop :=
  Acc (fun a b => Child (expand rules) b a) s

/-- The alternates of a rule may be pushed on any stack that they leave. -/
def Pushable (rules : GrammarRules) (r : Nat) : Prop :=
  ∀ b ∈ alternates rules r, ∀ rest, (Nullable rules b → StackAcc rules rest) →
    StackAcc rules (push rules b rest)

theorem elem_of_le (h : (rules.getD p.rule []).length ≤ p.off) : elem rules p = endElement := by
  rw [elem, suffix, drop_eq_nil_of_le h]
  rfl

variable {rest s' : GrammarStack}

theorem child_ref (hRef : (elem rules p).type = .ruleRef) :
    Child (expand rules) (p :: rest) s' ↔
      ∃ b ∈ alternates rules (elem rules p).value,
        push rules b (push rules p.succ rest) = s' := by
  simp only [Child, expand, hRef, Option.some.injEq]
  constructor
  · intro h
    obtain ⟨next, rfl, hMem⟩ := h
    exact mem_map.mp hMem
  · intro h
    exact ⟨_, rfl, mem_map.mpr h⟩

theorem not_child_nil {s' : GrammarStack} : ¬Child (expand rules) [] s' := by
  rintro ⟨next, hExpand, hMem⟩
  obtain rfl := Option.some.inj hExpand
  simp at hMem

theorem child_top (h : Child (expand rules) (p :: rest) s') : (elem rules p).type = .ruleRef := by
  obtain ⟨next, hExpand, hMem⟩ := h
  simp only [expand] at hExpand
  split at hExpand
  all_goals simp_all

/-- A pointer is expanded along its leftmost references; what is below is reached
only when the pointer is nullable. -/
theorem acc_push (hGood : ∀ B, LeftOf rules p B → Pushable rules B)
    (hRest : Nullable rules p → StackAcc rules rest) : StackAcc rules (push rules p rest) := by
  induction hLen : (rules.getD p.rule []).length - p.off generalizing p with
  | zero =>
    have hEnd : (elem rules p).isEndOfSequence = true := by
      rw [elem_of_le (by omega)]
      rfl
    rw [push, if_pos hEnd]
    exact hRest (Nullable.done hEnd)
  | succ n ih =>
    by_cases hEnd : (elem rules p).isEndOfSequence = true
    · rw [push, if_pos hEnd]
      exact hRest (Nullable.done hEnd)
    rw [push, if_neg hEnd]
    refine Acc.intro _ ?_
    intro s' hChild
    have hRef := child_top hChild
    obtain ⟨b, hAlt, rfl⟩ := (child_ref hRef).mp hChild
    refine hGood _ (LeftOf.here hRef) b hAlt _ ?_
    intro hBody
    have hNull : RuleNullable rules (elem rules p).value := ⟨b, hAlt, hBody⟩
    refine ih ?_ ?_ ?_
    · intro B hLeft
      exact hGood B (LeftOf.skip hRef hNull hLeft)
    · intro hSucc
      exact hRest (Nullable.ref hRef hAlt hBody hSucc)
    · show (rules.getD p.rule []).length - (p.off + 1) = n
      omega

theorem pushable_of_acc (h : LeftAcc rules r) : Pushable rules r := by
  induction h with
  | intro A _ ih =>
    intro b hAlt rest hRest
    exact acc_push (fun B hLeft => ih B ⟨b, hAlt, hLeft⟩) hRest

theorem leftAcc_of_le (h : rules.length ≤ r) : LeftAcc rules r := by
  refine Acc.intro _ ?_
  intro B hCall
  obtain ⟨b, hAlt, hLeft⟩ := hCall
  have hRule : rules.getD r [] = [] := getD_eq_default _ _ h
  obtain ⟨off, -, rfl⟩ := mem_map.mp hAlt
  have hElem : elem rules ⟨r, off⟩ = endElement := elem_of_le (by
    rw [hRule]
    exact Nat.zero_le off)
  cases hLeft with
  | here hRef =>
    rw [hElem] at hRef
    contradiction
  | skip hRef =>
    rw [hElem] at hRef
    contradiction

/-- A rule whose alternates all begin with a terminal calls nothing. -/
theorem leftAcc_of_terminal (h : ∀ b ∈ alternates rules r, (elem rules b).type ≠ .ruleRef) :
    LeftAcc rules r := by
  refine Acc.intro _ ?_
  intro B hCall
  obtain ⟨b, hAlt, hLeft⟩ := hCall
  cases hLeft with
  | here hRef => exact absurd hRef (h b hAlt)
  | skip hRef => exact absurd hRef (h b hAlt)

/-- Without infinite leftmost descents all stacks have finite expansions. -/
theorem stackAcc (h : ∀ r < rules.length, LeftAcc rules r) (s : GrammarStack) :
    StackAcc rules s := by
  have hAll : ∀ B, Pushable rules B := by
    intro B
    by_cases hB : B < rules.length
    · exact pushable_of_acc (h B hB)
    · exact pushable_of_acc (leftAcc_of_le (Nat.le_of_not_lt hB))
  induction s with
  | nil =>
    refine Acc.intro _ ?_
    intro s' hChild
    obtain ⟨next, hExpand, hMem⟩ := hChild
    simp only [expand, Option.some.injEq] at hExpand
    rw [← hExpand] at hMem
    simp at hMem
  | cons p rest ih =>
    by_cases hEnd : (elem rules p).isEndOfSequence = true
    · refine Acc.intro _ ?_
      intro s' hChild
      have hRef := child_top hChild
      simp [GrammarElement.isEndOfSequence, hRef] at hEnd
    · have hPush := acc_push (p := p) (fun B _ => hAll B) (fun _ => ih)
      rwa [push, if_neg hEnd] at hPush

/-- A pointer to an element of the rules. -/
def InRules (rules : GrammarRules) (p : GrammarPos) : Prop :=
  p.off < (rules.getD p.rule []).length

/-- `llama_grammar_advance_stack` terminates on every stack of element pointers. -/
def AdvanceTerminates (rules : GrammarRules) : Prop :=
  ∀ (stack : GrammarStack) (newStacks : List GrammarStack), (∀ p ∈ stack, InRules rules p) →
    ∃ fuel, advanceStack rules fuel stack newStacks ≠ .running

theorem advanceTerminates_of_leftAcc (h : ∀ r < rules.length, LeftAcc rules r) :
    AdvanceTerminates rules :=
  fun stack newStacks _ => Worklist.ends (stackAcc h stack) newStacks

/-! ## The leftmost references of a rule -/

/-- An end element stands at the end only, as in every rule that
`llama_grammar_init_impl` has copied. -/
def EndsOnce (elems : List GrammarElement) : Prop :=
  ∀ pre e rest, elems = pre ++ e :: rest → e.type = .endOfRule → rest = []

variable {e : GrammarElement}

theorem EndsOnce.tail {rest : List GrammarElement}
    (h : EndsOnce (e :: rest)) : EndsOnce rest := by
  intro pre e' rest' hEq hEnd
  exact h (e :: pre) e' rest' (by rw [hEq]; rfl) hEnd

theorem copyRule_endsOnce (rule : GrammarRule) : EndsOnce (copyRule rule) := by
  intro pre e rest hEq hEnd
  by_contra hNe
  have hLast : rest = rest.dropLast ++ [rest.getLast hNe] := (dropLast_append_getLast hNe).symm
  have hInit : rule.takeWhile (fun e => e.type ≠ .endOfRule) = pre ++ e :: rest.dropLast := by
    have hBoth : rule.takeWhile (fun e => e.type ≠ .endOfRule) ++ [endElement] =
        (pre ++ e :: rest.dropLast) ++ [rest.getLast hNe] := by
      rw [append_assoc, cons_append, ← hLast]
      exact hEq
    exact append_inj_left' hBoth rfl
  have hMem : e ∈ rule.takeWhile (fun e => e.type ≠ .endOfRule) := by
    rw [hInit]
    simp
  have hNot := mem_takeWhile_imp hMem
  simp [hEnd] at hNot

/-- The rules that the check recurses into, for a given set of nullable rules. -/
def leftRefs (nul : Nat → Bool) : List GrammarElement → Bool → List Nat
  | [], _ => []
  | e :: rest, recurse =>
    if e.type = .ruleRef ∧ recurse then e.value :: leftRefs nul rest (nul e.value)
    else leftRefs nul rest e.isEndOfSequence

variable {B : Nat}

theorem leftOf_iff : LeftOf rules p B ↔ (elem rules p).type = .ruleRef ∧
    (B = (elem rules p).value ∨
      RuleNullable rules (elem rules p).value ∧ LeftOf rules p.succ B) := by
  constructor
  · intro h
    cases h with
    | here hRef => exact ⟨hRef, Or.inl rfl⟩
    | skip hRef hNull hRest => exact ⟨hRef, Or.inr ⟨hNull, hRest⟩⟩
  intro h
  obtain ⟨hRef, rfl | ⟨hNull, hRest⟩⟩ := h
  · exact LeftOf.here hRef
  · exact LeftOf.skip hRef hNull hRest

variable {pre : List GrammarElement}

theorem elem_append {rest : List GrammarElement}
    (hRule : rules.getD r [] = pre ++ e :: rest) : elem rules ⟨r, pre.length⟩ = e := by
  show (((rules.getD r []).drop pre.length).headD endElement) = e
  rw [hRule, drop_left]
  rfl

theorem not_leftOf_end {off : Nat} (h : (rules.getD r []).length ≤ off) :
    ¬LeftOf rules ⟨r, off⟩ B := by
  intro hLeft
  obtain ⟨hRef, -⟩ := leftOf_iff.mp hLeft
  rw [elem_of_le h] at hRef
  contradiction

variable {nul : Nat → Bool} {elems : List GrammarElement} {flag : Bool}

theorem mem_leftRefs (hRule : rules.getD r [] = pre ++ elems) (hEnds : EndsOnce elems)
    (hNul : ∀ e ∈ elems, e.type = .ruleRef → (nul e.value = true ↔ RuleNullable rules e.value)) :
    B ∈ leftRefs nul elems flag ↔ flag = true ∧ LeftOf rules ⟨r, pre.length⟩ B ∨
      ∃ off ∈ alternatesFrom pre.length elems, LeftOf rules ⟨r, off⟩ B := by
  induction elems generalizing pre flag with
  | nil =>
    have hNot : ¬LeftOf rules ⟨r, pre.length⟩ B := not_leftOf_end (by rw [hRule]; simp)
    simp [leftRefs, alternatesFrom, hNot]
  | cons e rest ih =>
    have hElem := elem_append hRule
    have hRule' : rules.getD r [] = (pre ++ [e]) ++ rest := by
      rw [hRule]
      simp
    have hLength : (pre ++ [e]).length = pre.length + 1 := by simp
    have ih' : ∀ flag, B ∈ leftRefs nul rest flag ↔
        flag = true ∧ LeftOf rules ⟨r, pre.length + 1⟩ B ∨
          ∃ off ∈ alternatesFrom (pre.length + 1) rest, LeftOf rules ⟨r, off⟩ B := by
      intro flag
      rw [← hLength]
      exact ih hRule' hEnds.tail fun e' he' => hNul e' (mem_cons_of_mem _ he')
    simp only [leftRefs]
    split
    next hRef =>
      have hAlts : alternatesFrom pre.length (e :: rest) = alternatesFrom (pre.length + 1) rest := by
        simp [alternatesFrom, hRef.1]
      have hHere : LeftOf rules ⟨r, pre.length⟩ B ↔
          B = e.value ∨ nul e.value = true ∧ LeftOf rules ⟨r, pre.length + 1⟩ B := by
        rw [leftOf_iff, hElem, hNul e mem_cons_self hRef.1]
        exact and_iff_right hRef.1
      rw [mem_cons, ih', hAlts, hHere]
      simp only [hRef.2, true_and]
      exact or_assoc.symm
    next hNotRef =>
      have hFirst : ¬(flag = true ∧ LeftOf rules ⟨r, pre.length⟩ B) := by
        intro h
        obtain ⟨hRef, -⟩ := leftOf_iff.mp h.2
        rw [hElem] at hRef
        exact hNotRef ⟨hRef, h.1⟩
      rw [ih', or_iff_right hFirst]
      by_cases hAlt : e.type = .alt
      · have hEnd : e.isEndOfSequence = true := by simp [GrammarElement.isEndOfSequence, hAlt]
        simp [alternatesFrom, hAlt, hEnd]
      by_cases hEndType : e.type = .endOfRule
      · have hNil : rest = [] := hEnds [] e rest rfl hEndType
        have hNot : ¬LeftOf rules ⟨r, pre.length + 1⟩ B :=
          not_leftOf_end (by rw [hRule, hNil]; simp)
        subst hNil
        simp [alternatesFrom, hEndType, hNot]
      have hEnd : e.isEndOfSequence = false := by
        simp only [GrammarElement.isEndOfSequence]
      have hAlts : alternatesFrom pre.length (e :: rest) =
          alternatesFrom (pre.length + 1) rest := by
        simp only [alternatesFrom]
      rw [hEnd, hAlts]
      simp

theorem mem_leftRefs_rule (hEnds : EndsOnce (rules.getD r []))
    (hNul : ∀ e ∈ rules.getD r [], e.type = .ruleRef →
      (nul e.value = true ↔ RuleNullable rules e.value)) :
    B ∈ leftRefs nul (rules.getD r []) true ↔ LeftCalls rules r B := by
  have hMem : B ∈ leftRefs nul (rules.getD r []) true ↔ true = true ∧ LeftOf rules ⟨r, 0⟩ B ∨
      ∃ off ∈ alternatesFrom 0 (rules.getD r []), LeftOf rules ⟨r, off⟩ B :=
    mem_leftRefs (nil_append _).symm hEnds hNul
  rw [hMem]
  simp only [LeftCalls, alternates, map_cons, mem_cons, mem_map, true_and]
  constructor
  · intro h
    rcases h with hFirst | ⟨off, hOff, hLeft⟩
    · exact ⟨_, Or.inl rfl, hFirst⟩
    · exact ⟨_, Or.inr ⟨off, hOff, rfl⟩, hLeft⟩
  intro h
  obtain ⟨b, rfl | ⟨off, hOff, rfl⟩, hLeft⟩ := h
  · exact Or.inl hLeft
  · exact Or.inr ⟨off, hOff, hLeft⟩

/-! ## The check with exact knowledge -/

open Classical in
/-- The rules that derive the empty string, directly or through other rules. -/
noncomputable def nullableRules (rules : GrammarRules) : List Bool :=
  (List.range rules.length).map fun r => decide (RuleNullable rules r)

theorem nullableRules_getD (h : r < rules.length) :
    (nullableRules rules).getD r false = true ↔ RuleNullable rules r := by
  simp [nullableRules, h]

/-- What a call that detects nothing does to the state: only rules with finite
descents become visited. -/
structure Undetected (rules : GrammarRules) (st st' : LeftRecursionState) : Prop where
  mayBeEmpty : st'.mayBeEmpty = st.mayBeEmpty
  inProgress : st'.inProgress = st.inProgress
  visited : ∀ v, st'.visited.getD v false = true →
    st.visited.getD v false = true ∨ LeftAcc rules v

theorem Undetected.refl (st : LeftRecursionState) : Undetected rules st st :=
  ⟨rfl, rfl, fun _ => Or.inl⟩

variable {st : LeftRecursionState}

theorem Undetected.trans {st' st'' : LeftRecursionState} (h : Undetected rules st st')
    (h' : Undetected rules st' st'') : Undetected rules st st'' where
  mayBeEmpty := h'.mayBeEmpty.trans h.mayBeEmpty
  inProgress := h'.inProgress.trans h.inProgress
  visited := by
    intro v hv
    rcases h'.visited v hv with hMid | hAcc
    · exact h.visited v hMid
    · exact Or.inr hAcc

variable {visit : Nat → LeftRecursionState → Bool × LeftRecursionState} {progress : List Bool}

/-- The loop detects nothing when none of its calls does, and then each has been
made. -/
theorem detectLoop_undetected
    {nul : List Bool} {Q : Nat → Prop}
    (hVisit : ∀ B < rules.length, ∀ st, st.mayBeEmpty = nul → st.inProgress = progress →
      (visit B st).1 = false → Q B ∧ Undetected rules st (visit B st).2)
    (hRefs : ∀ e ∈ elems, e.type = .ruleRef → e.value < rules.length)
    (hMay : st.mayBeEmpty = nul) (hProgress : st.inProgress = progress)
    (h : (detectLoop visit elems flag st).1 = false) :
    Undetected rules st (detectLoop visit elems flag st).2 ∧
      ∀ B ∈ leftRefs (fun v => nul.getD v false) elems flag, Q B := by
  induction elems generalizing flag st with
  | nil => exact ⟨Undetected.refl st, by simp [leftRefs]⟩
  | cons e rest ih =>
    have hRefs' : ∀ e ∈ rest, e.type = .ruleRef → e.value < rules.length :=
      fun e' he' => hRefs e' (mem_cons_of_mem _ he')
    simp only [detectLoop] at h ⊢
    simp only [leftRefs]
    split at h
    next hRef =>
      have hLt := hRefs e mem_cons_self hRef.1
      rw [if_pos hRef, if_pos hRef]
      cases hCall : (visit e.value st).1 with
      | true =>
        rw [if_pos hCall] at h
        rw [hCall] at h
        contradiction
      | false =>
        obtain ⟨hQ, hUndetected⟩ := hVisit e.value hLt st hMay hProgress hCall
        have hMay' := hUndetected.mayBeEmpty.trans hMay
        rw [if_neg (by simp [hCall])] at h
        obtain ⟨hRest, hCalls⟩ := ih hRefs' hMay' (hUndetected.inProgress.trans hProgress) h
        rw [hMay'] at hCalls
        refine ⟨hUndetected.trans hRest, ?_⟩
        intro B hB
        rcases mem_cons.mp hB with hEq | hMem
        · exact hEq ▸ hQ
        · exact hCalls B hMem
    next hRef =>
      rw [if_neg hRef, if_neg hRef]
      exact ih hRefs' hMay hProgress h

/-- The rules are as `llama_grammar_init_impl` has copied and validated them. -/
structure WellRead (rules : GrammarRules) : Prop where
  ends : ∀ r, EndsOnce (rules.getD r [])
  refs : ∀ r, ∀ e ∈ rules.getD r [], e.type = .ruleRef → e.value < rules.length

theorem wellRead_of_validRefs {source : GrammarRules}
    (h : validRefs (source.map copyRule) = true) : WellRead (source.map copyRule) where
  ends := by
    intro r
    by_cases hr : r < (source.map copyRule).length
    · rw [getD_eq_getElem _ _ hr, getElem_map]
      exact copyRule_endsOnce _
    rw [getD_eq_default _ _ (Nat.le_of_not_lt hr)]
    intro pre e rest hEq
    simp at hEq
  refs := by
    intro r e he hRef
    by_cases hr : r < (source.map copyRule).length
    · rw [getD_eq_getElem _ _ hr] at he
      have hRule := all_eq_true.mp h _ (getElem_mem hr)
      have hElem := all_eq_true.mp hRule e he
      simpa [hRef] using hElem
    · rw [getD_eq_default _ _ (Nat.le_of_not_lt hr)] at he
      simp at he

theorem WellRead.leftCalls_iff (h : WellRead rules) :
    B ∈ leftRefs (fun v => (nullableRules rules).getD v false) (rules.getD A []) true ↔
      LeftCalls rules A B :=
  mem_leftRefs_rule (h.ends A) fun e he hRef => nullableRules_getD (h.refs A e he hRef)

theorem WellRead.lt_of_leftCalls (h : WellRead rules) (hCall : LeftCalls rules A B) :
    B < rules.length := by
  have hRefs : ∀ (nul : Nat → Bool) (elems : List GrammarElement) (flag : Bool),
      B ∈ leftRefs nul elems flag → ∃ e ∈ elems, e.type = .ruleRef ∧ e.value = B := by
    intro nul elems
    induction elems with
    | nil => simp [leftRefs]
    | cons e rest ih =>
      intro flag hB
      simp only [leftRefs] at hB
      split at hB
      next hRef =>
        rcases mem_cons.mp hB with hEq | hMem
        · exact ⟨e, mem_cons_self, hRef.1, hEq.symm⟩
        · obtain ⟨e', he', hOk⟩ := ih _ hMem
          exact ⟨e', mem_cons_of_mem _ he', hOk⟩
      next =>
        obtain ⟨e', he', hOk⟩ := ih _ hB
        exact ⟨e', mem_cons_of_mem _ he', hOk⟩
  obtain ⟨e, he, hRef, rfl⟩ := hRefs _ _ _ (h.leftCalls_iff.mpr hCall)
  exact h.refs A e he hRef

theorem alternatesFrom_cons (hEnd : e.isEndOfSequence = false) (off : Nat)
    (rest : List GrammarElement) :
    alternatesFrom off (e :: rest) = alternatesFrom (off + 1) rest := by
  simp only [alternatesFrom]
  split
  next hType => simp [GrammarElement.isEndOfSequence, hType] at hEnd
  next hType => simp [GrammarElement.isEndOfSequence, hType] at hEnd
  next => rfl

/-- An alternate that the scan finds empty begins at its own end. -/
theorem hasEmptyAlternate_spec (hRule : rules.getD r [] = pre ++ elems) (hEnds : EndsOnce elems)
    (hEmpty : hasEmptyAlternate flag elems = true) :
    flag = true ∧ (elem rules ⟨r, pre.length⟩).isEndOfSequence = true ∨
      ∃ off ∈ alternatesFrom pre.length elems, (elem rules ⟨r, off⟩).isEndOfSequence = true := by
  induction elems generalizing pre flag with
  | nil => simp [hasEmptyAlternate] at hEmpty
  | cons e rest ih =>
    have hElem := elem_append hRule
    have hRule' : rules.getD r [] = (pre ++ [e]) ++ rest := by
      rw [hRule]
      simp
    have hLength : (pre ++ [e]).length = pre.length + 1 := by simp
    simp only [hasEmptyAlternate] at hEmpty
    cases hEnd : e.isEndOfSequence with
    | true =>
      rw [if_pos hEnd] at hEmpty
      cases flag with
      | true => exact Or.inl ⟨rfl, by rw [hElem]; exact hEnd⟩
      | false =>
        have hRest := ih hRule' hEnds.tail hEmpty
        rw [hLength] at hRest
        by_cases hAlt : e.type = .alt
        · have hAlts : alternatesFrom pre.length (e :: rest) =
              (pre.length + 1) :: alternatesFrom (pre.length + 1) rest := by
            simp [alternatesFrom, hAlt]
          rw [hAlts]
          rcases hRest with ⟨-, hHere⟩ | ⟨off, hOff, hThere⟩
          · exact Or.inr ⟨_, mem_cons_self, hHere⟩
          · exact Or.inr ⟨off, mem_cons_of_mem _ hOff, hThere⟩
        have hType : e.type = .endOfRule := by
          simp only [GrammarElement.isEndOfSequence] at hEnd
          split at hEnd
          next hType => exact hType
          next hType => exact absurd hType hAlt
          next => contradiction
        rw [hEnds [] e rest rfl hType] at hEmpty
        simp [hasEmptyAlternate] at hEmpty
    | false =>
      rw [if_neg (by simp [hEnd])] at hEmpty
      rw [alternatesFrom_cons hEnd]
      have hRest := ih hRule' hEnds.tail hEmpty
      rw [hLength] at hRest
      rcases hRest with ⟨hFlag, -⟩ | hThere
      · contradiction
      · exact Or.inr hThere

/-- The first loop of the check marks only rules that derive the empty string. -/
theorem ruleNullable_of_hasEmptyAlternate (hEnds : EndsOnce (rules.getD r []))
    (hEmpty : hasEmptyAlternate true (rules.getD r []) = true) : RuleNullable rules r := by
  have hFound := hasEmptyAlternate_spec (nil_append _).symm hEnds hEmpty
  rcases hFound with ⟨-, hFirst⟩ | ⟨off, hOff, hEnd⟩
  · exact ⟨⟨r, 0⟩, by simp [alternates], Nullable.done hFirst⟩
  · refine ⟨⟨r, off⟩, ?_, Nullable.done hEnd⟩
    exact mem_map.mpr ⟨off, mem_cons_of_mem _ hOff, rfl⟩

variable {l : List Bool} {i : Nat}

theorem set_of_getD (h : l.getD i false = true) : l.set i true = l := by
  have hi : i < l.length := by
    by_contra hNot
    rw [getD_eq_default _ _ (Nat.le_of_not_lt hNot)] at h
    contradiction
  rw [getD_eq_getElem _ _ hi] at h
  rw [← h, set_getElem_self]

theorem set_false_of_getD (h : ¬l.getD i false = true) : l.set i false = l := by
  by_cases hi : i < l.length
  · rw [getD_eq_getElem _ _ hi, Bool.not_eq_true] at h
    rw [← h, set_getElem_self]
  · exact set_eq_of_length_le (Nat.le_of_not_lt hi)

variable (hRead : WellRead rules)

include hRead

theorem entered_state (hr : r < rules.length)
    (hMay : st.mayBeEmpty = nullableRules rules) :
    (if hasEmptyAlternate true (rules.getD r []) then
        { st with
          inProgress := st.inProgress.set r true
          mayBeEmpty := st.mayBeEmpty.set r true }
      else { st with inProgress := st.inProgress.set r true }) =
      { st with inProgress := st.inProgress.set r true } := by
  split
  next hEmpty =>
    have hNull := ruleNullable_of_hasEmptyAlternate (hRead.ends r) hEmpty
    have hSame : st.mayBeEmpty.set r true = st.mayBeEmpty := by
      refine set_of_getD ?_
      rw [hMay]
      exact (nullableRules_getD hr).mpr hNull
    rw [hSame]
  next => rfl

/-- A call that detects nothing has come to all references of its rule, and their
descents are finite. -/
theorem detect_acc (fuel : Nat) {r : Nat}
    (hr : r < rules.length) (hMay : st.mayBeEmpty = nullableRules rules)
    (h : (detectLeftRecursion rules fuel r st).1 = false) :
    LeftAcc rules r ∧ Undetected rules st (detectLeftRecursion rules fuel r st).2 := by
  induction fuel generalizing r st with
  | zero => contradiction
  | succ fuel ih =>
    simp only [detectLeftRecursion] at h ⊢
    by_cases hProgress : st.inProgress.getD r false = true
    · rw [if_pos hProgress] at h
      contradiction
    rw [if_neg hProgress] at h ⊢
    rw [entered_state hRead hr hMay] at h ⊢
    generalize hEntered : ({ st with
      inProgress := st.inProgress.set r true } : LeftRecursionState) = entered at h ⊢
    have hMay' : entered.mayBeEmpty = nullableRules rules := by
      rw [← hEntered]
      exact hMay
    have hInProgress : entered.inProgress = st.inProgress.set r true := by rw [← hEntered]
    have hVisited : entered.visited = st.visited := by rw [← hEntered]
    cases hLoop : (detectLoop (detectLeftRecursion rules fuel) (rules.getD r []) true
        entered).1 with
    | true =>
      rw [if_pos hLoop, hLoop] at h
      contradiction
    | false =>
      obtain ⟨hUndetected, hCalls⟩ :=
        detectLoop_undetected (Q := LeftAcc rules)
          (fun B hB st' hSt' _ hCall => ih hB hSt' hCall) (hRead.refs r) hMay' rfl hLoop
      have hAcc : LeftAcc rules r := by
        refine Acc.intro _ ?_
        intro B hCall
        exact hCalls B (hRead.leftCalls_iff.mpr hCall)
      refine ⟨hAcc, ?_, ?_, ?_⟩
      · exact hUndetected.mayBeEmpty.trans (hMay'.trans hMay.symm)
      · rw [hUndetected.inProgress, hInProgress, set_set]
        exact set_false_of_getD hProgress
      intro v hv
      by_cases hEq : v = r
      · exact Or.inr (hEq ▸ hAcc)
      have hv' : ((detectLoop (detectLeftRecursion rules fuel) (rules.getD r []) true
          entered).2.visited.set r true).getD v false = true := hv
      rw [getD_eq_getElem?_getD, getElem?_set_ne (Ne.symm hEq)] at hv'
      rw [← hVisited]
      exact hUndetected.visited v hv'

omit hRead in
/-- The loop detects nothing when no call for a leftmost reference does. -/
theorem detectLoop_false
    {nul : List Bool}
    (hVisit : ∀ B ∈ leftRefs (fun v => nul.getD v false) elems flag,
      ∀ st, st.mayBeEmpty = nul → st.inProgress = progress →
        (visit B st).1 = false ∧ Undetected rules st (visit B st).2)
    (hMay : st.mayBeEmpty = nul) (hProgress : st.inProgress = progress) :
    (detectLoop visit elems flag st).1 = false := by
  induction elems generalizing flag st with
  | nil => rfl
  | cons e rest ih =>
    simp only [leftRefs] at hVisit
    simp only [detectLoop]
    split
    next hRef =>
      rw [if_pos hRef] at hVisit
      obtain ⟨hCall, hUndetected⟩ := hVisit e.value mem_cons_self st hMay hProgress
      have hMay' := hUndetected.mayBeEmpty.trans hMay
      rw [if_neg (by simp [hCall]), hMay']
      exact ih (fun B hB => hVisit B (mem_cons_of_mem _ hB)) hMay'
        (hUndetected.inProgress.trans hProgress)
    next hRef =>
      rw [if_neg hRef] at hVisit
      exact ih hVisit hMay hProgress

/-- Without left recursion no call meets a rule in progress, and the fuel is enough: each call has
one more ancestor in progress. -/
theorem detect_false (hNot : ¬LeftRecursive rules) (fuel : Nat) {r : Nat} (hr : r < rules.length)
    (hMay : st.mayBeEmpty = nullableRules rules) (hLength : st.inProgress.length = rules.length)
    (hAncestors : ∀ v, st.inProgress.getD v false = true →
      Relation.TransGen (LeftCalls rules) v r) (hFuel : st.inProgress.count false < fuel) :
    (detectLeftRecursion rules fuel r st).1 = false := by
  induction fuel generalizing r st with
  | zero => omega
  | succ fuel ih =>
    have hProgress : ¬st.inProgress.getD r false = true := fun h => hNot ⟨r, hAncestors r h⟩
    have hrLt : r < st.inProgress.length := by
      rw [hLength]
      exact hr
    simp only [detectLeftRecursion]
    rw [if_neg hProgress, entered_state hRead hr hMay]
    generalize hEntered : ({ st with
      inProgress := st.inProgress.set r true } : LeftRecursionState) = entered
    have hMay' : entered.mayBeEmpty = nullableRules rules := by
      rw [← hEntered]
      exact hMay
    have hInProgress : entered.inProgress = st.inProgress.set r true := by rw [← hEntered]
    have hFalse : st.inProgress[r] = false := by
      rw [getD_eq_getElem _ _ hrLt] at hProgress
      simpa using hProgress
    have hCount : (st.inProgress.set r true).count false + 1 = st.inProgress.count false := by
      have hPos : 0 < st.inProgress.count false :=
        count_pos_iff.mpr (hFalse ▸ getElem_mem hrLt)
      rw [count_set hrLt, hFalse]
      simp
      omega
    have hLoop : (detectLoop (detectLeftRecursion rules fuel) (rules.getD r []) true
        entered).1 = false := by
      refine @detectLoop_false rules _ _ _ _ _ _ ?_ hMay' rfl
      intro B hB st' hMayB hProgressB
      have hCall := hRead.leftCalls_iff.mp hB
      have hBLt := hRead.lt_of_leftCalls hCall
      have hAncestorsB : ∀ v, st'.inProgress.getD v false = true →
          Relation.TransGen (LeftCalls rules) v B := by
        intro v hv
        rw [hProgressB, hInProgress] at hv
        by_cases hEq : v = r
        · exact hEq ▸ Relation.TransGen.single hCall
        · rw [getD_eq_getElem?_getD, getElem?_set_ne (Ne.symm hEq)] at hv
          exact (hAncestors v hv).tail hCall
      have hDone := ih hBLt hMayB (by rw [hProgressB, hInProgress, length_set]; exact hLength)
        hAncestorsB (by rw [hProgressB, hInProgress]; omega)
      exact ⟨hDone, (detect_acc hRead fuel hBLt hMayB hDone).2⟩
    rw [if_neg (by rw [hLoop]; decide)]

variable {todo : List Nat}

theorem checkFrom_acc (hTodo : ∀ r ∈ todo, r < rules.length)
    (hMay : st.mayBeEmpty = nullableRules rules)
    (hVisited : ∀ v, st.visited.getD v false = true → LeftAcc rules v)
    (h : checkFrom rules st todo = false) : ∀ r ∈ todo, LeftAcc rules r := by
  induction todo generalizing st with
  | nil => simp
  | cons i rest ih =>
    have hRest : ∀ r ∈ rest, r < rules.length := fun r hr => hTodo r (mem_cons_of_mem _ hr)
    simp only [checkFrom] at h
    split at h
    next hSeen =>
      intro r hr
      rcases mem_cons.mp hr with hEq | hMem
      · exact hEq ▸ hVisited i hSeen
      · exact ih hRest hMay hVisited h r hMem
    next =>
      split at h
      next => contradiction
      next hCall =>
        have hCall' := Bool.not_eq_true _ ▸ hCall
        obtain ⟨hAcc, hUndetected⟩ := detect_acc hRead (rules.length + 1)
          (hTodo i mem_cons_self) hMay hCall'
        intro r hr
        rcases mem_cons.mp hr with hEq | hMem
        · exact hEq ▸ hAcc
        refine ih hRest (hUndetected.mayBeEmpty.trans hMay) ?_ h r hMem
        intro v hv
        rcases hUndetected.visited v hv with hOld | hNew
        · exact hVisited v hOld
        · exact hNew

theorem checkFrom_false (hNot : ¬LeftRecursive rules) (hTodo : ∀ r ∈ todo, r < rules.length)
    (hMay : st.mayBeEmpty = nullableRules rules)
    (hProgress : st.inProgress = replicate rules.length false) :
    checkFrom rules st todo = false := by
  induction todo generalizing st with
  | nil => rfl
  | cons i rest ih =>
    have hRest : ∀ r ∈ rest, r < rules.length := fun r hr => hTodo r (mem_cons_of_mem _ hr)
    simp only [checkFrom]
    split
    next => exact ih hRest hMay hProgress
    next =>
      have hi := hTodo i mem_cons_self
      have hCall : (detectLeftRecursion rules (rules.length + 1) i st).1 = false := by
        refine detect_false hRead hNot _ hi hMay (by rw [hProgress, length_replicate]) ?_ ?_
        · intro v hv
          rw [hProgress, getD_eq_getElem?_getD, getElem?_replicate] at hv
          split at hv <;> simp at hv
        · rw [hProgress, count_replicate_self]
          omega
      have hUndetected := (detect_acc hRead _ hi hMay hCall).2
      rw [if_neg (by simp [hCall])]
      exact ih hRest (hUndetected.mayBeEmpty.trans hMay) (hUndetected.inProgress.trans hProgress)

omit hRead in
theorem mem_range_lt {n : Nat} : ∀ r ∈ range n, r < n := fun _ => mem_range.mp

theorem leftAcc_of_check (h : leftRecursionWith rules (nullableRules rules) = false) :
    ∀ r < rules.length, LeftAcc rules r := by
  intro r hr
  refine checkFrom_acc hRead mem_range_lt rfl ?_ h r (mem_range.mpr hr)
  intro v hv
  rw [getD_eq_getElem?_getD, getElem?_replicate] at hv
  split at hv <;> simp at hv

omit hRead

theorem not_leftRecursive_of_leftAcc (h : ∀ r < rules.length, LeftAcc rules r) :
    ¬LeftRecursive rules := by
  intro hCycle
  obtain ⟨A, hA⟩ := hCycle
  by_cases hLt : A < rules.length
  · exact not_transGen_of_acc (h A hLt) hA
  · exact not_transGen_of_acc (leftAcc_of_le (Nat.le_of_not_lt hLt)) hA

/-- **Accepted grammars.**  On a rule set that `llama_grammar_init_impl` accepts,
`llama_grammar_advance_stack` terminates on every stack and no rule is left
recursive if and only if the check also passes the rule set when it knows all
nullable rules beforehand. -/
theorem accepted_terminates_iff (source : GrammarRules)
    (h : accepted (source.map copyRule) = true) :
    AdvanceTerminates (source.map copyRule) ∧ ¬LeftRecursive (source.map copyRule) ↔
      leftRecursionWith (source.map copyRule) (nullableRules (source.map copyRule)) = false := by
  have hRefs : validRefs (source.map copyRule) = true := by
    simp only [accepted, Bool.and_eq_true] at h
    exact h.1
  have hRead := wellRead_of_validRefs hRefs
  constructor
  · intro hBoth
    exact checkFrom_false hRead hBoth.2 mem_range_lt rfl rfl
  intro hCheck
  have hAcc := leftAcc_of_check hRead hCheck
  exact ⟨advanceTerminates_of_leftAcc hAcc, not_leftRecursive_of_leftAcc hAcc⟩

/-- `root ::= "a" root | ""`: recursion, but none on the left. -/
def rightRecursive : GrammarRules :=
  [[⟨.char, 0x61⟩, ⟨.ruleRef, 0⟩, ⟨.alt, 0⟩]]

/-- The check accepts the grammar, and the stacks settle. -/
theorem rightRecursive_terminates : AdvanceTerminates (rightRecursive.map copyRule) ∧
    ¬LeftRecursive (rightRecursive.map copyRule) ↔
      leftRecursionWith (rightRecursive.map copyRule)
        (nullableRules (rightRecursive.map copyRule)) = false :=
  accepted_terminates_iff rightRecursive (by decide)

/-- `root ::= a root "x" | "y"`, `a ::= b`, `b ::= "" | "b"`: `a` is empty through `b` only. -/
def hiddenRecursion : GrammarRules :=
  [[⟨.ruleRef, 1⟩, ⟨.ruleRef, 0⟩, ⟨.char, 0x78⟩, ⟨.alt, 0⟩, ⟨.char, 0x79⟩],
   [⟨.ruleRef, 2⟩],
   [⟨.alt, 0⟩, ⟨.char, 0x62⟩]]

/-- The rules of `hiddenRecursion` as the grammar holds them. -/
abbrev hiddenRules : GrammarRules := hiddenRecursion.map copyRule

/-- Each time around, one more `"x"` stays on the stack. -/
theorem hiddenRecursion_reach (n : Nat) :
    Reach (expand hiddenRules) [⟨0, 0⟩] (⟨0, 0⟩ :: replicate n ⟨0, 2⟩) := by
  induction n with
  | zero => exact Relation.ReflTransGen.refl
  | succ n ih =>
    have hRoot : Child (expand hiddenRules) (⟨0, 0⟩ :: replicate n ⟨0, 2⟩)
        (⟨1, 0⟩ :: ⟨0, 1⟩ :: replicate n ⟨0, 2⟩) :=
      ⟨_, rfl, mem_cons_self⟩
    have hEmpty : Child (expand hiddenRules) (⟨1, 0⟩ :: ⟨0, 1⟩ :: replicate n ⟨0, 2⟩)
        (⟨0, 1⟩ :: replicate n ⟨0, 2⟩) :=
      ⟨_, rfl, mem_cons_self⟩
    have hAgain : Child (expand hiddenRules) (⟨0, 1⟩ :: replicate n ⟨0, 2⟩)
        (⟨0, 0⟩ :: ⟨0, 2⟩ :: replicate n ⟨0, 2⟩) :=
      ⟨_, rfl, mem_cons_self⟩
    exact ((ih.tail hRoot).tail hEmpty).tail hAgain

/-- The pointers that stacks of `hiddenRecursion` hold. -/
def hiddenPositions : List GrammarPos := [⟨0, 0⟩, ⟨0, 1⟩, ⟨0, 2⟩, ⟨0, 4⟩, ⟨1, 0⟩, ⟨2, 1⟩]

variable {s : GrammarStack}

theorem mem_push {p q : GrammarPos} (h : q ∈ push rules p s) :
    q = p ∧ (elem rules p).isEndOfSequence = false ∨ q ∈ s := by
  rw [push] at h
  split at h
  next => exact Or.inr h
  next hEnd =>
    rcases mem_cons.mp h with hEq | hRest
    · exact Or.inl ⟨hEq, by simpa using hEnd⟩
    · exact Or.inr hRest

/-- The positions are closed under the references that stand at them. -/
theorem hiddenPositions_closed : ∀ p ∈ hiddenPositions,
    ((elem hiddenRules p).type = .ruleRef ∨ (elem hiddenRules p).type = .char) ∧
      ((elem hiddenRules p).type = .ruleRef →
        ((elem hiddenRules p.succ).isEndOfSequence = false → p.succ ∈ hiddenPositions) ∧
        ∀ b ∈ alternates hiddenRules (elem hiddenRules p).value,
          (elem hiddenRules b).isEndOfSequence = false → b ∈ hiddenPositions) := by
  decide

theorem hiddenRecursion_positions
    (h : Reach (expand hiddenRules) [⟨0, 0⟩] s) : ∀ p ∈ s, p ∈ hiddenPositions := by
  induction h with
  | refl => decide
  | @tail s s' _ hChild ih =>
    cases s with
    | nil => exact absurd hChild not_child_nil
    | cons p rest =>
      have hRef := child_top hChild
      obtain ⟨-, hClosed⟩ := hiddenPositions_closed p (ih p mem_cons_self)
      obtain ⟨hSucc, hAlts⟩ := hClosed hRef
      obtain ⟨b, hAlt, rfl⟩ := (child_ref hRef).mp hChild
      intro q hq
      rcases mem_push hq with ⟨rfl, hEnd⟩ | hq'
      · exact hAlts q hAlt hEnd
      rcases mem_push hq' with ⟨rfl, hEnd⟩ | hRest
      · exact hSucc hEnd
      · exact ih q (mem_cons_of_mem _ hRest)

theorem hiddenRecursion_expand (h : Reach (expand hiddenRules) [⟨0, 0⟩] s) :
    expand hiddenRules s ≠ none := by
  cases s with
  | nil => simp [expand]
  | cons p rest =>
    have hp := hiddenRecursion_positions h p mem_cons_self
    rcases (hiddenPositions_closed p hp).1 with hRef | hChar
    · simp [expand, hRef]
    · simp [expand, hChar]

/-- The check accepts `hiddenRecursion`, and `llama_grammar_advance_stack` never
comes to an end on its start symbol. -/
theorem hiddenRecursion_diverges : accepted hiddenRules = true ∧ LeftRecursive hiddenRules ∧
    ∀ fuel, advanceStack hiddenRules fuel [⟨0, 0⟩] [] = .running := by
  refine ⟨by decide, ?_, ?_⟩
  · have hA : RuleNullable hiddenRules 1 :=
      ⟨⟨1, 0⟩, by decide, Nullable.ref (by decide) (b := ⟨2, 0⟩) (by decide)
        (Nullable.done (by decide)) (Nullable.done (by decide))⟩
    have hRoot : LeftOf hiddenRules ⟨0, 1⟩ 0 := LeftOf.here (p := ⟨0, 1⟩) (by decide)
    exact ⟨0, Relation.TransGen.single
      ⟨⟨0, 0⟩, by decide, LeftOf.skip (by decide) hA hRoot⟩⟩
  intro fuel
  cases hRun : advanceStack hiddenRules fuel [⟨0, 0⟩] [] with
  | running => rfl
  | aborted =>
    obtain ⟨t, ht, x, hReach, hNone⟩ := Worklist.reach_of_aborted hRun
    rw [mem_singleton.mp ht] at hReach
    exact absurd hNone (hiddenRecursion_expand hReach)
  | done out =>
    -- the stacks that were seen would be a finite list with stacks of any length
    obtain ⟨seen, hSeen⟩ := Worklist.reach_seen hRun
    have hMem := (hSeen _ (hiddenRecursion_reach (seen.map length).sum)).1
    have hLe := le_sum_of_mem (mem_map_of_mem (f := length) hMem)
    simp only [length_cons, length_replicate] at hLe
    omega

end Grammar

end Beellama.Ports
