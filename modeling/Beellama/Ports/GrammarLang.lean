import Beellama.Ports.GrammarRecursion
import Mathlib.Tactic.IntervalCases

/-!
# The language of a rule set, and what the recogniser decides

A stack derives what its pointers derive from the top down.  `llama_grammar_advance_stack` replaces
it by stacks at a terminal that together derive the same strings (`advanceStack_spec`), and
`llama_grammar_accept` takes the derivative by one code point; the stacks after a string derive
exactly its continuations (`recognise_spec`).
-/

namespace Beellama.Ports

open Beellama.Verified List

variable {s s' : GrammarStack} {u v w : List Nat} {c : Nat}

namespace Grammar

/-! ## Character classes -/

/-- One item of a character class. -/
inductive CharItem
  | any
  | range (low high : Nat)
  deriving DecidableEq, Repr

def CharItem.contains (c : Nat) : CharItem → Bool
  | any => true
  | range low high => decide (low ≤ c) && decide (c ≤ high)

/-- A single element of a class. -/
def charItem (e : GrammarElement) : CharItem :=
  if e.type = .charAny then .any else .range e.value e.value

/-- The items of the class at the head: an upper bound makes a range, an alternate adds an item. -/
def classItems : List GrammarElement → List CharItem
  | [] => []
  | [e] => [charItem e]
  | e :: e₁ :: rest =>
    if e₁.type = .charRngUpper then
      .range e.value e₁.value ::
        if (rest.headD endElement).type = .charAlt then classItems rest else []
    else charItem e :: if e₁.type = .charAlt then classItems (e₁ :: rest) else []

/-- The number of elements of the class. -/
def classLength : List GrammarElement → Nat
  | [] => 0
  | [_] => 1
  | _ :: e₁ :: rest =>
    if e₁.type = .charRngUpper then
      2 + if (rest.headD endElement).type = .charAlt then classLength rest else 0
    else 1 + if e₁.type = .charAlt then classLength (e₁ :: rest) else 0

variable {rules : GrammarRules} {p : GrammarPos}

/-- The class at a pointer matches a code point. -/
def InClass (rules : GrammarRules) (p : GrammarPos) (c : Nat) : Prop :=
  (∃ item ∈ classItems (suffix rules p), item.contains c = true) ↔
    (elem rules p).isPositiveChar = true

instance (rules : GrammarRules) (p : GrammarPos) (c : Nat) : Decidable (InClass rules p c) :=
  inferInstanceAs (Decidable (_ ↔ _))

/-- The pointer behind the class. -/
def classEnd (rules : GrammarRules) (p : GrammarPos) : GrammarPos :=
  p.advance (classLength (suffix rules p))

theorem charItem_contains (e : GrammarElement) (c : Nat) :
    (charItem e).contains c = if e.type = .charAny then true else e.value == c := by
  simp only [charItem]
  split
  · rfl
  rw [Bool.eq_iff_iff]
  simp only [CharItem.contains, Bool.and_eq_true, decide_eq_true_eq, beq_iff_eq]
  omega

theorem matchLoop_eq (c : Nat) (elems : List GrammarElement) (found : Bool) (n : Nat) :
    matchLoop c elems found n =
      (found || (classItems elems).any (CharItem.contains c), n + classLength elems) := by
  induction elems using classItems.induct generalizing found n with
  | case1 => simp [matchLoop, classItems, classLength]
  | case2 e => simp [matchLoop, classItems, classLength, charItem_contains]
  | case3 e e₁ rest hRange ih =>
    simp only [matchLoop, classItems, classLength]
    rw [if_pos hRange, if_pos hRange]
    split
    · rw [ih]
      simp only [any_cons, CharItem.contains, Bool.or_assoc, Nat.add_assoc]
    · simp [CharItem.contains]
  | case4 e e₁ rest hRange ih =>
    simp only [matchLoop, classItems, classLength]
    rw [if_neg hRange, if_neg hRange]
    split
    · rw [ih]
      simp only [any_cons, charItem_contains, Bool.or_assoc, Nat.add_assoc]
    · simp [charItem_contains]

/-- `llama_grammar_match_char` decides the class and steps behind it. -/
theorem matchChar_spec (rules : GrammarRules) (p : GrammarPos) (c : Nat) :
    ((matchChar rules p c).1 = true ↔ InClass rules p c) ∧
      (matchChar rules p c).2 = classEnd rules p := by
  simp only [matchChar, matchLoop_eq, Bool.false_or, Nat.zero_add, classEnd, and_true]
  rw [beq_iff_eq, Bool.eq_iff_iff, any_eq_true]
  rfl

/-! ## Derivations -/

/-- The code points derived between a pointer and the end of its alternate. -/
inductive Derives (rules : GrammarRules) : GrammarPos → List Nat → Prop
  | done {p : GrammarPos} (hEnd : (elem rules p).isEndOfSequence = true) : Derives rules p []
  | char {p : GrammarPos} {c : Nat} {w : List Nat} (hHead : (elem rules p).isCharHead = true)
      (hClass : InClass rules p c) (hRest : Derives rules (classEnd rules p) w) :
      Derives rules p (c :: w)
  | ref {p b : GrammarPos} {u v : List Nat} (hRef : (elem rules p).type = .ruleRef)
      (hAlt : b ∈ alternates rules (elem rules p).value) (hBody : Derives rules b u)
      (hRest : Derives rules p.succ v) : Derives rules p (u ++ v)

/-- A rule derives a string by one of its alternates. -/
def Derivable (rules : GrammarRules) (r : Nat) (w : List Nat) : Prop :=
  ∃ b ∈ alternates rules r, Derives rules b w

/-- The pointers of a stack derive a string one after the other. -/
inductive StackDerives (rules : GrammarRules) : GrammarStack → List Nat → Prop
  | nil : StackDerives rules [] []
  | cons {p : GrammarPos} {s : GrammarStack} {u v : List Nat} (hTop : Derives rules p u)
      (hRest : StackDerives rules s v) : StackDerives rules (p :: s) (u ++ v)

theorem StackDerives.append (h : StackDerives rules s u)
    (h' : StackDerives rules s' v) : StackDerives rules (s ++ s') (u ++ v) := by
  induction h with
  | nil => exact h'
  | cons hTop _ ih =>
    rw [append_assoc]
    exact StackDerives.cons hTop ih

theorem not_end_of_ref (h : (elem rules p).type = .ruleRef) :
    (elem rules p).isEndOfSequence = false := by
  simp [GrammarElement.isEndOfSequence, h]

theorem not_end_of_charHead (h : (elem rules p).isCharHead = true) :
    (elem rules p).isEndOfSequence = false := by
  simp only [GrammarElement.isCharHead] at h
  split at h <;> simp_all [GrammarElement.isEndOfSequence]

theorem not_ref_of_charHead (h : (elem rules p).isCharHead = true) :
    (elem rules p).type ≠ .ruleRef := by
  intro hRef
  simp [GrammarElement.isCharHead, hRef] at h

theorem derives_end (hEnd : (elem rules p).isEndOfSequence = true) :
    Derives rules p w ↔ w = [] := by
  constructor
  · intro h
    cases h with
    | done => rfl
    | char hHead => simp [not_end_of_charHead hHead] at hEnd
    | ref hRef => simp [not_end_of_ref hRef] at hEnd
  · intro h
    exact h ▸ Derives.done hEnd

theorem stackDerives_push :
    StackDerives rules (push rules p s) w ↔
      ∃ u v, w = u ++ v ∧ Derives rules p u ∧ StackDerives rules s v := by
  rw [push]
  split
  next hEnd =>
    constructor
    · intro h
      exact ⟨[], w, rfl, Derives.done hEnd, h⟩
    intro h
    obtain ⟨u, v, rfl, hTop, hRest⟩ := h
    rw [(derives_end hEnd).mp hTop]
    exact hRest
  next =>
    constructor
    · intro h
      cases h with
      | cons hTop hRest => exact ⟨_, _, rfl, hTop, hRest⟩
    intro h
    obtain ⟨u, v, rfl, hTop, hRest⟩ := h
    exact StackDerives.cons hTop hRest

/-- At a class, a string is derived by one of its characters. -/
theorem stackDerives_char (hHead : (elem rules p).isCharHead = true) :
    StackDerives rules (p :: s) (c :: w) ↔
      InClass rules p c ∧ StackDerives rules (push rules (classEnd rules p) s) w := by
  rw [stackDerives_push]
  constructor
  · intro h
    generalize hWord : c :: w = word at h
    cases h with
    | cons hTop hRest =>
      cases hTop with
      | done hEnd => simp [not_end_of_charHead hHead] at hEnd
      | char _ hClass hBody =>
        obtain ⟨rfl, rfl⟩ := hWord
        exact ⟨hClass, _, _, rfl, hBody, hRest⟩
      | ref hRef => exact absurd hRef (not_ref_of_charHead hHead)
  intro h
  obtain ⟨hClass, u, v, rfl, hBody, hRest⟩ := h
  exact StackDerives.cons (Derives.char hHead hClass hBody) hRest

theorem not_stackDerives_nil (hHead : (elem rules p).isCharHead = true) :
    ¬StackDerives rules (p :: s) [] := by
  intro h
  generalize hWord : ([] : List Nat) = word at h
  cases h with
  | cons hTop hRest =>
    cases hTop with
    | done hEnd => simp [not_end_of_charHead hHead] at hEnd
    | char => simp at hWord
    | ref hRef => exact absurd hRef (not_ref_of_charHead hHead)

theorem not_stackDerives_token
    (hToken : (elem rules p).isToken = true) : ¬StackDerives rules (p :: s) w := by
  intro h
  cases h with
  | cons hTop hRest =>
    cases hTop with
    | done hEnd =>
      simp only [GrammarElement.isToken] at hToken
      split at hToken <;> simp_all [GrammarElement.isEndOfSequence]
    | char hHead =>
      simp only [GrammarElement.isToken] at hToken
      split at hToken <;> simp_all [GrammarElement.isCharHead]
    | ref hRef => simp [GrammarElement.isToken, hRef] at hToken

/-! ## Advancing a stack -/

theorem stackDerives_of_child (hChild : Child (expand rules) s s') (h : StackDerives rules s' w) :
    StackDerives rules s w := by
  cases s with
  | nil => exact absurd hChild not_child_nil
  | cons p rest =>
    have hRef := child_top hChild
    obtain ⟨b, hAlt, rfl⟩ := (child_ref hRef).mp hChild
    obtain ⟨u, v, rfl, hBody, hTail⟩ := stackDerives_push.mp h
    obtain ⟨u', v', rfl, hSucc, hRest⟩ := stackDerives_push.mp hTail
    rw [← append_assoc]
    exact StackDerives.cons (Derives.ref hRef hAlt hBody hSucc) hRest

theorem stackDerives_of_reach (hReach : Reach (expand rules) s s') (h : StackDerives rules s' w) :
    StackDerives rules s w := by
  induction hReach with
  | refl => exact h
  | tail _ hChild ih => exact ih (stackDerives_of_child hChild h)

/-- A derivation is followed to its first character, or to what is below when it
derives nothing. -/
theorem Derives.reach (h : Derives rules p u) (rest : GrammarStack) :
    u = [] ∧ Reach (expand rules) (push rules p rest) rest ∨
      ∃ c u' q mid, u = c :: u' ∧ (elem rules q).isCharHead = true ∧ InClass rules q c ∧
        Reach (expand rules) (push rules p rest) (q :: (mid ++ rest)) ∧
        StackDerives rules (push rules (classEnd rules q) mid) u' := by
  induction h generalizing rest with
  | done hEnd =>
    rw [push, if_pos hEnd]
    exact Or.inl ⟨rfl, Relation.ReflTransGen.refl⟩
  | @char p c w hHead hClass hRest ih =>
    rw [push, if_neg (by simp [not_end_of_charHead hHead])]
    refine Or.inr ⟨c, w, p, [], rfl, hHead, hClass, Relation.ReflTransGen.refl, ?_⟩
    exact stackDerives_push.mpr ⟨w, [], (append_nil w).symm, hRest, StackDerives.nil⟩
  | @ref p b u v hRef hAlt hBody hRest ihBody ihRest =>
    have hPush : push rules p rest = p :: rest := by
      rw [push, if_neg (by simp [not_end_of_ref hRef])]
    have hChild : Child (expand rules) (push rules p rest)
        (push rules b (push rules p.succ rest)) := by
      rw [hPush]
      exact (child_ref hRef).mpr ⟨b, hAlt, rfl⟩
    rcases ihBody (push rules p.succ rest) with
      ⟨rfl, hLeft⟩ | ⟨c, u', q, mid, rfl, hHead, hClass, hLeft, hTail⟩
    · have hBehind := Relation.ReflTransGen.head hChild hLeft
      rcases ihRest rest with ⟨rfl, hNext⟩ | ⟨c, v', q, mid, rfl, hHead, hClass, hNext, hTail⟩
      · exact Or.inl ⟨rfl, hBehind.trans hNext⟩
      · exact Or.inr ⟨c, v', q, mid, rfl, hHead, hClass, hBehind.trans hNext, hTail⟩
    have hMid : ∃ mid', mid ++ push rules p.succ rest = mid' ++ rest ∧
        ∀ w, StackDerives rules (push rules (classEnd rules q) mid) w →
          StackDerives rules (push rules (classEnd rules q) mid') (w ++ v) := by
      refine ⟨mid ++ push rules p.succ [], ?_, ?_⟩
      · rw [append_assoc]
        simp only [push]
        split <;> rfl
      intro w hw
      obtain ⟨x, y, rfl, hx, hy⟩ := stackDerives_push.mp hw
      rw [append_assoc]
      refine stackDerives_push.mpr ⟨x, y ++ v, rfl, hx, hy.append ?_⟩
      exact stackDerives_push.mpr ⟨v, [], (append_nil v).symm, hRest, StackDerives.nil⟩
    obtain ⟨mid', hEq, hDerives⟩ := hMid
    refine Or.inr ⟨c, u' ++ v, q, mid', rfl, hHead, hClass, ?_, hDerives u' hTail⟩
    rw [← hEq]
    exact Relation.ReflTransGen.head hChild hLeft

/-! ## Where the pointers of a stack stand -/

end Grammar

namespace GrammarElement

/-- An element that only modifies the one before it. -/
def isClassPart (e : GrammarElement) : Bool := e.type = .charAlt ∨ e.type = .charRngUpper

/-- What may stand behind an element: a part of a class only where the comments of
`llama_gretype` put it. -/
def MayFollow (prev next : GrammarElement) : Prop :=
  (next.type = .charAlt →
    prev.type = .char ∨ prev.type = .charNot ∨ prev.type = .charAlt ∨ prev.type = .charRngUpper) ∧
  (next.type = .charRngUpper →
    prev.type = .char ∨ prev.type = .charNot ∨ prev.type = .charAlt)

end GrammarElement

namespace Grammar

open GrammarElement

/-- Parts of classes stand in classes only, within every rule. -/
structure WellFormed (rules : GrammarRules) : Prop where
  first : ∀ r, (elem rules ⟨r, 0⟩).isClassPart = false
  follow : ∀ p, MayFollow (elem rules p) (elem rules p.succ)

/-- The pointers stand at elements, not at the end of an alternate nor inside of a class. -/
def Placed (rules : GrammarRules) (s : GrammarStack) : Prop :=
  ∀ p ∈ s, (elem rules p).isEndOfSequence = false ∧
    (WellFormed rules → (elem rules p).isClassPart = false)

theorem not_classPart_of_follow {prev next : GrammarElement} (h : MayFollow prev next)
    (hType : prev.type = .alt ∨ prev.type = .ruleRef) : next.isClassPart = false := by
  simp only [isClassPart, decide_eq_false_iff_not, not_or]
  constructor
  · intro hAlt
    have hPrev := h.1 hAlt
    rcases hType with hType | hType <;> simp [hType] at hPrev
  intro hRange
  have hPrev := h.2 hRange
  rcases hType with hType | hType <;> simp [hType] at hPrev

theorem Placed.tail (h : Placed rules (p :: s)) : Placed rules s :=
  fun q hq => h q (mem_cons_of_mem _ hq)

theorem placed_push
    (hPos : WellFormed rules → (elem rules p).isClassPart = false) (hRest : Placed rules s) :
    Placed rules (push rules p s) := by
  intro q hq
  rcases mem_push hq with ⟨rfl, hEnd⟩ | hMem
  · exact ⟨hEnd, hPos⟩
  · exact hRest q hMem

variable {elems : List GrammarElement}

theorem alternatesFrom_spec {off off' : Nat} (h : off' ∈ alternatesFrom off elems) :
    ∃ n e, elems[n]? = some e ∧ e.type = .alt ∧ off' = off + n + 1 := by
  induction elems generalizing off with
  | nil => simp [alternatesFrom] at h
  | cons e rest ih =>
    have hLater : off' ∈ alternatesFrom (off + 1) rest →
        ∃ n e', (e :: rest)[n]? = some e' ∧ e'.type = .alt ∧ off' = off + n + 1 := by
      intro hMem
      obtain ⟨n, e', hAt, hType, hOff⟩ := ih hMem
      exact ⟨n + 1, e', by simpa using hAt, hType, by omega⟩
    simp only [alternatesFrom] at h
    split at h
    next => simp at h
    next hAlt =>
      rcases mem_cons.mp h with hEq | hMem
      · exact ⟨0, e, rfl, hAlt, by omega⟩
      · exact hLater hMem
    next => exact hLater h

variable {r : Nat}

theorem elem_of_getElem? {n : Nat} {e : GrammarElement} (h : (rules.getD r [])[n]? = some e) :
    elem rules ⟨r, n⟩ = e := by
  show (((rules.getD r []).drop n).headD endElement) = e
  rw [headD_eq_head?_getD, head?_drop, h]
  rfl

variable {b : GrammarPos}

theorem alternates_not_classPart (hWell : WellFormed rules)
    (hAlt : b ∈ alternates rules r) : (elem rules b).isClassPart = false := by
  obtain ⟨off, hOff, rfl⟩ := mem_map.mp hAlt
  rcases mem_cons.mp hOff with hZero | hMem
  · rw [hZero]
    exact hWell.first r
  obtain ⟨n, e, hAt, hType, hEq⟩ := alternatesFrom_spec hMem
  have hFollow := hWell.follow ⟨r, n⟩
  rw [elem_of_getElem? hAt] at hFollow
  have hSucc : GrammarPos.succ ⟨r, n⟩ = ⟨r, off⟩ := by
    rw [hEq]
    simp [GrammarPos.succ, GrammarPos.advance]
  rw [hSucc] at hFollow
  exact not_classPart_of_follow hFollow (Or.inl hType)

theorem placed_child (h : Placed rules s)
    (hChild : Child (expand rules) s s') : Placed rules s' := by
  cases s with
  | nil => exact absurd hChild not_child_nil
  | cons p rest =>
    have hRef := child_top hChild
    obtain ⟨b, hAlt, rfl⟩ := (child_ref hRef).mp hChild
    refine placed_push (fun hWell => alternates_not_classPart hWell hAlt) ?_
    refine placed_push ?_ h.tail
    intro hWell
    exact not_classPart_of_follow (hWell.follow p) (Or.inr hRef)

theorem placed_reach (h : Placed rules s)
    (hReach : Reach (expand rules) s s') : Placed rules s' := by
  induction hReach with
  | refl => exact h
  | tail _ hChild ih => exact placed_child ih hChild

theorem expand_ne_none (hWell : WellFormed rules) (h : Placed rules s) : expand rules s ≠ none := by
  cases s with
  | nil => simp [expand]
  | cons p rest =>
    obtain ⟨hEnd, hPart⟩ := h p mem_cons_self
    have hPart' := hPart hWell
    simp only [isClassPart] at hPart'
    simp only [isEndOfSequence] at hEnd
    simp only [expand]
    split <;> simp_all

theorem suffix_drop (rules : GrammarRules) (p : GrammarPos) (n : Nat) :
    suffix rules (p.advance n) = (suffix rules p).drop n := by
  simp only [suffix, GrammarPos.advance, drop_drop]

theorem classEnd_not_classPart (hWell : WellFormed rules) :
    (elem rules (classEnd rules p)).isClassPart = false := by
  have hScan : ∀ (elems : List GrammarElement) (p : GrammarPos), suffix rules p = elems →
      (elems ≠ [] → ((elems.drop (classLength elems)).headD endElement).isClassPart = false) := by
    intro elems
    induction elems using classItems.induct with
    | case1 =>
      intro p _ hNe
      exact absurd rfl hNe
    | case2 e =>
      intro p _ _
      rfl
    | case3 e e₁ rest hRange ih =>
      intro p hSuffix _
      have hNext : suffix rules (p.advance 2) = rest := by rw [suffix_drop, hSuffix]; rfl
      simp only [classLength]
      rw [if_pos hRange]
      split
      next hAlt =>
        have hNe : rest ≠ [] := by
          intro hNil
          rw [hNil] at hAlt
          contradiction
        rw [Nat.add_comm]
        exact ih (p.advance 2) hNext hNe
      next hAlt =>
        -- two bounds do not follow each other
        have hFollow := hWell.follow p.succ
        have hHere : elem rules p.succ = e₁ := by
          rw [elem, GrammarPos.succ, suffix_drop, hSuffix]
          rfl
        have hThere : elem rules p.succ.succ = rest.headD endElement := by
          show (suffix rules (p.advance 2)).headD endElement = _
          rw [hNext]
        rw [hHere, hThere] at hFollow
        simp only [isClassPart, decide_eq_false_iff_not, not_or]
        refine ⟨hAlt, ?_⟩
        intro hBound
        have hPrev := hFollow.2 hBound
        simp [hRange] at hPrev
    | case4 e e₁ rest hRange ih =>
      intro p hSuffix _
      simp only [classLength]
      rw [if_neg hRange]
      split
      next hAlt =>
        have hNext : suffix rules (p.advance 1) = e₁ :: rest := by rw [suffix_drop, hSuffix]; rfl
        rw [Nat.add_comm]
        exact ih (p.advance 1) hNext (by simp)
      next hAlt =>
        simp only [isClassPart, decide_eq_false_iff_not, not_or]
        exact ⟨hAlt, hRange⟩
  by_cases hNil : suffix rules p = []
  · rw [elem, classEnd, suffix_drop, hNil]
    rfl
  · rw [elem, classEnd, suffix_drop]
    exact hScan _ p rfl hNil

/-! ## The stacks after advancing -/

theorem isFinal_iff : isFinal rules s = true ↔
    s = [] ∨ ∃ p rest, s = p :: rest ∧
      ((elem rules p).isCharHead = true ∨ (elem rules p).isToken = true) := by
  cases s with
  | nil => simp [isFinal]
  | cons p rest => simp [isFinal]

/-- A string is derived by a final stack that the stack comes to. -/
theorem reach_final (h : StackDerives rules s w)
    (hPlaced : Placed rules s) :
    ∃ t, Reach (expand rules) s t ∧ isFinal rules t = true ∧ StackDerives rules t w := by
  induction h with
  | nil => exact ⟨[], Relation.ReflTransGen.refl, rfl, StackDerives.nil⟩
  | @cons p s u v hTop hRest ih =>
    have hPush : push rules p s = p :: s := by
      rw [push, if_neg (by simp [(hPlaced p mem_cons_self).1])]
    rcases hTop.reach s with ⟨rfl, hReach⟩ | ⟨c, u', q, mid, rfl, hHead, hClass, hReach, hTail⟩
    · rw [hPush] at hReach
      obtain ⟨t, hNext, hFinal, hDerives⟩ := ih hPlaced.tail
      exact ⟨t, hReach.trans hNext, hFinal, hDerives⟩
    rw [hPush] at hReach
    refine ⟨_, hReach, by simp [isFinal, hHead], ?_⟩
    obtain ⟨x, y, rfl, hx, hy⟩ := stackDerives_push.mp hTail
    refine (stackDerives_char hHead).mpr ⟨hClass, stackDerives_push.mpr ?_⟩
    exact ⟨x, y ++ v, append_assoc x y v, hx, hy.append hRest⟩

/-- A set of stacks derives what one of them derives. -/
def StacksDerive (rules : GrammarRules) (current : List GrammarStack) (w : List Nat) : Prop :=
  ∃ s ∈ current, StackDerives rules s w

/-- The stacks of a grammar: distinct, placed, and final. -/
structure StacksOk (rules : GrammarRules) (current : List GrammarStack) : Prop where
  nodup : current.Nodup
  placed : ∀ s ∈ current, Placed rules s
  final : ∀ s ∈ current, isFinal rules s = true

theorem StacksOk.nil : StacksOk rules [] := ⟨nodup_nil, by simp, by simp⟩

variable {fuel : Nat} {out out' : List GrammarStack}

/-- `llama_grammar_advance_stack` adds final stacks that together derive what the
stack derives. -/
theorem advanceStack_spec (hPlaced : Placed rules s) (hOut : StacksOk rules out)
    (h : advanceStack rules fuel s out = .done out') :
    StacksOk rules out' ∧
      ∀ w, StacksDerive rules out' w ↔ StacksDerive rules out w ∨ StackDerives rules s w := by
  have hOrigin : ∀ t ∈ out', t ∈ out ∨ isFinal rules t = true ∧ Reach (expand rules) s t := by
    intro t ht
    rcases Worklist.sound h ht with hOld | ⟨hFinal, t', ht', hReach⟩
    · exact Or.inl hOld
    · rw [mem_singleton.mp ht'] at hReach
      exact Or.inr ⟨hFinal, hReach⟩
  refine ⟨⟨Worklist.nodup h hOut.nodup, ?_, ?_⟩, ?_⟩
  · intro t ht
    rcases hOrigin t ht with hOld | ⟨-, hReach⟩
    · exact hOut.placed t hOld
    · exact placed_reach hPlaced hReach
  · intro t ht
    rcases hOrigin t ht with hOld | ⟨hFinal, -⟩
    · exact hOut.final t hOld
    · exact hFinal
  intro w
  constructor
  · intro hDerives
    obtain ⟨t, ht, hw⟩ := hDerives
    rcases hOrigin t ht with hOld | ⟨-, hReach⟩
    · exact Or.inl ⟨t, hOld, hw⟩
    · exact Or.inr (stackDerives_of_reach hReach hw)
  intro hDerives
  rcases hDerives with ⟨t, ht, hw⟩ | hStack
  · exact ⟨t, Worklist.out_subset h ht, hw⟩
  · obtain ⟨t, hReach, hFinal, hw⟩ := reach_final hStack hPlaced
    exact ⟨t, Worklist.complete h hReach hFinal, hw⟩

theorem advanceStack_ne_aborted (hWell : WellFormed rules) (hPlaced : Placed rules s) :
    advanceStack rules fuel s out ≠ .aborted := by
  intro h
  obtain ⟨t, ht, x, hReach, hNone⟩ := Worklist.reach_of_aborted h
  rw [mem_singleton.mp ht] at hReach
  exact expand_ne_none hWell (placed_reach hPlaced hReach) hNone

theorem advanceStack_settles (hTerm : AdvanceTerminates rules)
    (hPlaced : Placed rules s) (out : List GrammarStack) :
    ∃ r, Settles (fun fuel => advanceStack rules fuel s out) r := by
  have hIn : ∀ p ∈ s, InRules rules p := by
    intro p hp
    by_contra hOut
    have hEnd := (hPlaced p hp).1
    rw [elem_of_le (Nat.le_of_not_lt hOut)] at hEnd
    contradiction
  obtain ⟨n, hn⟩ := hTerm s out hIn
  exact ⟨advanceStack rules n s out, hn, n, fun fuel hFuel => Worklist.mono hFuel hn⟩

/-! ## Accepting a code point -/

theorem placed_behind (h : Placed rules (p :: s)) :
    Placed rules (push rules (classEnd rules p) s) :=
  placed_push (fun hWell => classEnd_not_classPart hWell) h.tail

theorem charHead_of_final (hFinal : isFinal rules (p :: s) = true)
    (hToken : ¬(elem rules p).isToken = true) : (elem rules p).isCharHead = true := by
  simp only [isFinal, Bool.or_eq_true] at hFinal
  exact hFinal.resolve_right hToken

/-- `llama_grammar_accept_chr` adds the stacks of the derivative. -/
theorem acceptChr_spec (hPlaced : Placed rules s) (hOut : StacksOk rules out)
    (h : acceptChr rules fuel s c out = .done out') :
    StacksOk rules out' ∧
      ∀ w, StacksDerive rules out' w ↔ StacksDerive rules out w ∨ StackDerives rules s (c :: w) := by
  cases s with
  | nil =>
    simp only [acceptChr, WorklistResult.done.injEq] at h
    subst h
    refine ⟨hOut, fun w => (or_iff_left ?_).symm⟩
    intro hDerives
    cases hDerives
  | cons p rest =>
    simp only [acceptChr] at h
    split at h
    next hToken =>
      rw [WorklistResult.done.injEq] at h
      subst h
      exact ⟨hOut, fun w => (or_iff_left (not_stackDerives_token hToken)).symm⟩
    next =>
      split at h
      next => contradiction
      next hHead =>
        have hHead' : (elem rules p).isCharHead = true := by simpa using hHead
        obtain ⟨hMatch, hEnd⟩ := matchChar_spec rules p c
        rw [hEnd] at h
        split at h
        next hMatches =>
          obtain ⟨hOk, hDerive⟩ := advanceStack_spec (placed_behind hPlaced) hOut h
          refine ⟨hOk, fun w => ?_⟩
          rw [hDerive w, stackDerives_char hHead', and_iff_right (hMatch.mp hMatches)]
        next hMatches =>
          rw [WorklistResult.done.injEq] at h
          subst h
          refine ⟨hOut, fun w => (or_iff_left ?_).symm⟩
          rw [stackDerives_char hHead']
          exact fun hBoth => hMatches (hMatch.mpr hBoth.1)

theorem acceptChr_settles (hTerm : AdvanceTerminates rules)
    (hPlaced : Placed rules s) (c : Nat) (out : List GrammarStack) :
    ∃ r, Settles (fun fuel => acceptChr rules fuel s c out) r := by
  cases s with
  | nil => exact ⟨.done out, Settles.const (by simp)⟩
  | cons p rest =>
    simp only [acceptChr]
    split
    · exact ⟨.done out, Settles.const (by simp)⟩
    split
    · exact ⟨.aborted, Settles.const (by simp)⟩
    rw [(matchChar_spec rules p c).2]
    split
    · exact advanceStack_settles hTerm (placed_behind hPlaced) out
    · exact ⟨.done out, Settles.const (by simp)⟩

theorem acceptChr_ne_aborted (hWell : WellFormed rules)
    (hPlaced : Placed rules s) (hFinal : isFinal rules s = true) :
    acceptChr rules fuel s c out ≠ .aborted := by
  cases s with
  | nil => simp [acceptChr]
  | cons p rest =>
    simp only [acceptChr]
    split
    next => simp
    next hToken =>
      rw [if_neg (by simpa using charHead_of_final hFinal hToken), (matchChar_spec rules p c).2]
      split
      · exact advanceStack_ne_aborted hWell (placed_behind hPlaced)
      · simp

variable {current : List GrammarStack}

/-- `llama_grammar_accept` takes the derivative of the stacks. -/
theorem accept_spec (hOk : StacksOk rules current)
    (h : accept rules fuel current c = .done out) :
    StacksOk rules out ∧ ∀ w, StacksDerive rules out w ↔ StacksDerive rules current (c :: w) := by
  have hThread : thread (fun s => acceptChr rules fuel s c) current [] = .done out := h
  obtain ⟨hOut, hDerive⟩ := thread_union (D := StacksDerive rules)
    (fun s hs out out' hOut hAccept => acceptChr_spec (hOk.placed s hs) hOut hAccept)
    StacksOk.nil hThread
  refine ⟨hOut, fun w => (hDerive w).trans (or_iff_right ?_)⟩
  intro hNone
  obtain ⟨t, ht, -⟩ := hNone
  simp at ht

theorem accept_settles (hTerm : AdvanceTerminates rules) (hOk : StacksOk rules current) (c : Nat) :
    ∃ r, Settles (fun fuel => accept rules fuel current c) r :=
  Settles.thread (I := StacksOk rules) (f := fun fuel s => acceptChr rules fuel s c)
    (fun s hs out hOut => ⟨acceptChr_settles hTerm (hOk.placed s hs) c out,
      fun _ _ hAccept => (acceptChr_spec (hOk.placed s hs) hOut hAccept).1⟩)
    StacksOk.nil

theorem accept_ne_aborted (hWell : WellFormed rules)
    (hOk : StacksOk rules current) (c : Nat) : accept rules fuel current c ≠ .aborted :=
  thread_ne_aborted (I := StacksOk rules)
    (fun s hs _ hOut => ⟨acceptChr_ne_aborted hWell (hOk.placed s hs) (hOk.final s hs),
      fun _ hAccept => (acceptChr_spec (hOk.placed s hs) hOut hAccept).1⟩)
    StacksOk.nil

/-! ## Whole inputs -/

theorem acceptAll_cons {c : Nat} (h : acceptAll rules fuel current (c :: w) = .done out) :
    ∃ mid, accept rules fuel current c = .done mid ∧ acceptAll rules fuel mid w = .done out :=
  WorklistResult.of_bind ((thread_cons c w current).symm.trans h)

theorem acceptAll_spec
    (hOk : StacksOk rules current) (h : acceptAll rules fuel current w = .done out) :
    StacksOk rules out ∧ ∀ v, StacksDerive rules out v ↔ StacksDerive rules current (w ++ v) := by
  induction w generalizing current with
  | nil =>
    have hEq : current = out := by simpa [acceptAll] using h
    subst hEq
    exact ⟨hOk, fun v => Iff.rfl⟩
  | cons c w ih =>
    obtain ⟨mid, hAccept, hCons⟩ := acceptAll_cons h
    obtain ⟨hMid, hDerive⟩ := accept_spec hOk hAccept
    obtain ⟨hOut, hRest⟩ := ih hMid hCons
    exact ⟨hOut, fun v => (hRest v).trans (hDerive (w ++ v))⟩

theorem acceptAll_settles (hTerm : AdvanceTerminates rules)
    (hOk : StacksOk rules current) (w : List Nat) :
    ∃ r, Settles (fun fuel => acceptAll rules fuel current w) r :=
  Settles.thread (I := StacksOk rules) (f := fun fuel c out => accept rules fuel out c)
    (fun c _ _ hOut => ⟨accept_settles hTerm hOut c, fun _ _ h => (accept_spec hOut h).1⟩) hOk

theorem acceptAll_ne_aborted (hWell : WellFormed rules)
    (hOk : StacksOk rules current) (w : List Nat) :
    acceptAll rules fuel current w ≠ .aborted :=
  thread_ne_aborted (I := StacksOk rules)
    (fun c _ _ hOut => ⟨accept_ne_aborted hWell hOut c, fun _ h => (accept_spec hOut h).1⟩) hOk

theorem placed_alternate (hAlt : b ∈ alternates rules r) : Placed rules (push rules b []) :=
  placed_push (fun hWell => alternates_not_classPart hWell hAlt) (by simp [Placed])

theorem derivable_iff :
    Derivable rules r w ↔ ∃ b ∈ alternates rules r, StackDerives rules (push rules b []) w := by
  constructor
  · intro h
    obtain ⟨b, hAlt, hDerives⟩ := h
    exact ⟨b, hAlt, stackDerives_push.mpr
      ⟨w, [], (append_nil w).symm, hDerives, StackDerives.nil⟩⟩
  intro h
  obtain ⟨b, hAlt, hDerives⟩ := h
  obtain ⟨u, v, rfl, hBody, hNil⟩ := stackDerives_push.mp hDerives
  cases hNil
  rw [append_nil]
  exact ⟨b, hAlt, hBody⟩

variable {start : Nat}

theorem initialStacks_spec (h : initialStacks rules fuel start = .done out) :
    StacksOk rules out ∧ ∀ w, StacksDerive rules out w ↔ Derivable rules start w := by
  have hThread : thread (fun pos out => advanceStack rules fuel (push rules pos []) out)
      (alternates rules start) [] = .done out := h
  obtain ⟨hOut, hDerive⟩ := thread_union (D := StacksDerive rules)
    (fun b hAlt out out' hOut h => advanceStack_spec (placed_alternate hAlt) hOut h)
    StacksOk.nil hThread
  refine ⟨hOut, fun w => ?_⟩
  rw [hDerive w, derivable_iff]
  refine or_iff_right ?_
  intro hNone
  obtain ⟨t, ht, -⟩ := hNone
  simp at ht

theorem initialStacks_settles (hTerm : AdvanceTerminates rules) (start : Nat) :
    ∃ r, Settles (fun fuel => initialStacks rules fuel start) r :=
  Settles.thread (I := StacksOk rules)
    (fun _ hAlt out hOut => ⟨advanceStack_settles hTerm (placed_alternate hAlt) out,
      fun _ _ h => (advanceStack_spec (placed_alternate hAlt) hOut h).1⟩)
    StacksOk.nil

theorem initialStacks_ne_aborted (hWell : WellFormed rules) (fuel start : Nat) :
    initialStacks rules fuel start ≠ .aborted :=
  thread_ne_aborted (I := StacksOk rules)
    (fun _ hAlt _ hOut => ⟨advanceStack_ne_aborted hWell (placed_alternate hAlt),
      fun _ h => (advanceStack_spec (placed_alternate hAlt) hOut h).1⟩)
    StacksOk.nil

/-- Initialise a grammar and accept a string; a rule set that is not accepted gives
no grammar. -/
def recognise (fuel : Nat) (source : GrammarRules) (start : Nat) (w : List Nat) :
    WorklistResult GrammarStack :=
  match initImpl fuel source start with
  | none => .aborted
  | some g => g.2.bind fun current => acceptAll g.1 fuel current w

/-! ## Continuations -/

/-- A string over an alphabet. -/
def Over (D : Nat → Prop) (w : List Nat) : Prop := ∀ c ∈ w, D c

variable {D : Nat → Prop}

theorem Over.append (hu : Over D u) (hv : Over D v) : Over D (u ++ v) := by
  intro c hc
  rcases mem_append.mp hc with hMem | hMem
  · exact hu c hMem
  · exact hv c hMem

/-- Every rule derives a string over the alphabet, and every class has a character
of it. -/
structure Productive (rules : GrammarRules) (D : Nat → Prop) : Prop where
  rule : ∀ r < rules.length, ∃ w, Over D w ∧ Derivable rules r w
  charClass : ∀ p, (elem rules p).isCharHead = true → ∃ c, D c ∧ InClass rules p c

theorem classLength_pos (h : elems ≠ []) : 0 < classLength elems := by
  match elems, h with
  | [_], _ => simp [classLength]
  | _ :: _ :: _, _ =>
    simp only [classLength]
    split <;> omega

theorem kind_cases (e : GrammarElement) : e.isEndOfSequence = true ∨ e.isClassPart = true ∨
    e.type = .ruleRef ∨ e.isToken = true ∨ e.isCharHead = true := by
  obtain ⟨type, value⟩ := e
  cases type <;> simp [isEndOfSequence, isClassPart, isToken, isCharHead]

/-- From every place a string over the alphabet is derived. -/
theorem exists_derives (hRead : WellRead rules) (hWell : WellFormed rules)
    (hTokens : ∀ p, (elem rules p).isToken = false) (hProd : Productive rules D)
    (p : GrammarPos) (hPart : (elem rules p).isClassPart = false) :
    ∃ w, Over D w ∧ Derives rules p w := by
  induction hLen : (rules.getD p.rule []).length - p.off using Nat.strongRecOn generalizing p with
  | ind n ih =>
    by_cases hOut : (rules.getD p.rule []).length ≤ p.off
    · refine ⟨[], by simp [Over], Derives.done ?_⟩
      rw [elem_of_le hOut]
      rfl
    have hNext : ∀ k, 0 < k → (elem rules (p.advance k)).isClassPart = false →
        ∃ w, Over D w ∧ Derives rules (p.advance k) w := by
      intro k hk hPart'
      refine ih ((rules.getD p.rule []).length - (p.off + k)) (by omega) (p.advance k) hPart' rfl
    cases hEnd : (elem rules p).isEndOfSequence with
    | true => exact ⟨[], by simp [Over], Derives.done hEnd⟩
    | false =>
      by_cases hRef : (elem rules p).type = .ruleRef
      · have hMem : elem rules p ∈ rules.getD p.rule [] := by
          rw [elem, suffix, headD_eq_head?_getD, head?_drop,
            getElem?_eq_getElem (by omega)]
          exact getElem_mem _
        obtain ⟨u, hu, b, hAlt, hBody⟩ := hProd.rule _ (hRead.refs _ _ hMem hRef)
        obtain ⟨v, hv, hRest⟩ := hNext 1 (by omega)
          (not_classPart_of_follow (hWell.follow p) (Or.inr hRef))
        exact ⟨u ++ v, hu.append hv, Derives.ref hRef hAlt hBody hRest⟩
      have hHead : (elem rules p).isCharHead = true := by
        rcases kind_cases (elem rules p) with hKind | hKind | hKind | hKind | hKind
        · simp [hKind] at hEnd
        · simp [hKind] at hPart
        · exact absurd hKind hRef
        · simp [hTokens p] at hKind
        · exact hKind
      obtain ⟨c, hc, hClass⟩ := hProd.charClass p hHead
      have hNe : suffix rules p ≠ [] := by
        rw [suffix, Ne, drop_eq_nil_iff]
        exact hOut
      obtain ⟨v, hv, hRest⟩ := hNext _ (classLength_pos hNe) (classEnd_not_classPart hWell)
      refine ⟨c :: v, ?_, Derives.char hHead hClass hRest⟩
      intro d hd
      rcases mem_cons.mp hd with hEq | hMem
      · exact hEq ▸ hc
      · exact hv d hMem

theorem exists_stackDerives (hRead : WellRead rules) (hWell : WellFormed rules)
    (hTokens : ∀ p, (elem rules p).isToken = false) (hProd : Productive rules D)
    (hPlaced : Placed rules s) : ∃ w, Over D w ∧ StackDerives rules s w := by
  induction s with
  | nil => exact ⟨[], by simp [Over], StackDerives.nil⟩
  | cons p s ih =>
    obtain ⟨u, hu, hTop⟩ := exists_derives hRead hWell hTokens hProd p
      ((hPlaced p mem_cons_self).2 hWell)
    obtain ⟨v, hv, hRest⟩ := ih hPlaced.tail
    exact ⟨u ++ v, hu.append hv, StackDerives.cons hTop hRest⟩

/-! ## The recogniser -/

/-- No duplicates, the empty stack exactly for a derivable string, and some stack exactly for a
prefix of one. -/
structure Decides (rules : GrammarRules) (start : Nat) (w : List Nat)
    (current : List GrammarStack) : Prop where
  nodup : current.Nodup
  empty : [] ∈ current ↔ Derivable rules start w
  live : ∀ D : Nat → Prop, WellFormed rules → Productive rules D →
    (current ≠ [] ↔ ∃ v, Over D v ∧ Derivable rules start (w ++ v))

theorem decides_of_spec (hRead : WellRead rules) (hTokens : ∀ p, (elem rules p).isToken = false)
    (hOk : StacksOk rules current)
    (hDerive : ∀ v, StacksDerive rules current v ↔ Derivable rules start (w ++ v)) :
    Decides rules start w current where
  nodup := hOk.nodup
  empty := by
    have hNil := hDerive []
    rw [append_nil] at hNil
    rw [← hNil]
    constructor
    · intro hMem
      exact ⟨[], hMem, StackDerives.nil⟩
    intro hDerives
    obtain ⟨s, hs, hEmpty⟩ := hDerives
    -- a final stack that derives the empty string is empty
    rcases isFinal_iff.mp (hOk.final s hs) with rfl | ⟨p, rest, rfl, hHead | hToken⟩
    · exact hs
    · exact absurd hEmpty (not_stackDerives_nil hHead)
    · exact absurd hEmpty (not_stackDerives_token hToken)
  live := by
    intro D hWell hProd
    constructor
    · intro hNe
      obtain ⟨s, hs⟩ := exists_mem_of_ne_nil current hNe
      obtain ⟨v, hv, hDerives⟩ := exists_stackDerives hRead hWell hTokens hProd (hOk.placed s hs)
      exact ⟨v, hv, (hDerive v).mp ⟨s, hs, hDerives⟩⟩
    intro hEx hNil
    obtain ⟨v, -, hDerivable⟩ := hEx
    obtain ⟨s, hs, -⟩ := (hDerive v).mpr hDerivable
    rw [hNil] at hs
    simp at hs

/-- What holds of the end of a rule and of every element of the source holds at every position. -/
theorem elem_of_source {P : GrammarElement → Prop} {source : GrammarRules} (hEnd : P endElement)
    (h : ∀ rule ∈ source, ∀ e ∈ rule, P e) (p : GrammarPos) : P (elem (source.map copyRule) p) := by
  rw [elem, suffix, headD_eq_head?_getD, head?_drop]
  cases hAt : ((source.map copyRule).getD p.rule [])[p.off]? with
  | none => exact hEnd
  | some e =>
    have hMem := mem_of_getElem? hAt
    by_cases hRule : p.rule < (source.map copyRule).length
    · rw [getD_eq_getElem _ _ hRule, getElem_map] at hMem
      rcases mem_append.mp hMem with hBody | hLast
      · exact h _ (getElem_mem _) e ((takeWhile_sublist _).subset hBody)
      · rw [mem_singleton.mp hLast]
        exact hEnd
    · rw [getD_eq_default _ _ (Nat.le_of_not_lt hRule)] at hMem
      simp at hMem

theorem not_token_of_source {source : GrammarRules}
    (h : ∀ rule ∈ source, ∀ e ∈ rule, e.isToken = false) (p : GrammarPos) :
    (elem (source.map copyRule) p).isToken = false :=
  elem_of_source (P := fun e => e.isToken = false) rfl h p

/-- **The pushdown recogniser.**  For a rule set without tokens that
`llama_grammar_init_impl` accepts and on which `llama_grammar_advance_stack`
terminates, the run over any string comes to an end, in a well-formed rule set
without aborting, and the stacks then decide the string and its continuations. -/
theorem recognise_decides (source : GrammarRules) (start : Nat) (w : List Nat)
    (hTokens : ∀ rule ∈ source, ∀ e ∈ rule, e.isToken = false)
    (hAccepted : accepted (source.map copyRule) = true)
    (hTerm : AdvanceTerminates (source.map copyRule)) :
    ∃ r, Settles (fun fuel => recognise fuel source start w) r ∧
      (WellFormed (source.map copyRule) → r ≠ .aborted) ∧
      ∀ current, r = .done current → Decides (source.map copyRule) start w current := by
  have hRead : WellRead (source.map copyRule) := by
    simp only [accepted, Bool.and_eq_true] at hAccepted
    exact wellRead_of_validRefs hAccepted.1
  have hRun : ∀ fuel, recognise fuel source start w =
      (initialStacks (source.map copyRule) fuel start).bind fun current =>
        acceptAll (source.map copyRule) fuel current w := by
    intro fuel
    simp only [recognise, initImpl, hAccepted, if_true]
  obtain ⟨r, hInit⟩ := initialStacks_settles hTerm start
  obtain ⟨r', hSettles, hDone⟩ := Settles.bind hInit
    (g := fun current fuel => acceptAll (source.map copyRule) fuel current w) (by
      intro current hCurrent
      obtain ⟨fuel, hAt⟩ := Settles.of_done (hCurrent ▸ hInit)
      exact acceptAll_settles hTerm (initialStacks_spec hAt).1 w)
  simp only [← hRun] at hSettles
  refine ⟨r', hSettles, ?_, ?_⟩
  · intro hWell hAborted
    obtain ⟨fuel, hAt⟩ := Settles.of_aborted (hAborted ▸ hSettles)
    rw [hRun] at hAt
    cases hStacks : initialStacks (source.map copyRule) fuel start with
    | running =>
      rw [hStacks] at hAt
      contradiction
    | aborted => exact initialStacks_ne_aborted hWell fuel start hStacks
    | done current =>
      rw [hStacks] at hAt
      exact acceptAll_ne_aborted hWell (initialStacks_spec hStacks).1 w hAt
  intro current hCurrent
  obtain ⟨before, hBefore, hAccept⟩ := hDone current hCurrent
  obtain ⟨fuel, hAtInit⟩ := Settles.of_done (hBefore ▸ hInit)
  obtain ⟨fuel', hAtAccept⟩ := Settles.of_done hAccept
  obtain ⟨hOk, hInitial⟩ := initialStacks_spec hAtInit
  obtain ⟨hOk', hAfter⟩ := acceptAll_spec hOk hAtAccept
  exact decides_of_spec hRead (not_token_of_source hTokens) hOk'
    fun v => (hAfter v).trans (hInitial (w ++ v))

theorem rightRecursive_leftAcc :
    ∀ r < (rightRecursive.map copyRule).length, LeftAcc (rightRecursive.map copyRule) r :=
  fun r hr => leftAcc_of_terminal (by
    have hLt : r < 1 := hr
    interval_cases r
    decide)

/-- `root ::= "a" root | ""` on the string `aa`. -/
theorem rightRecursive_decides :
    ∃ r, Settles (fun fuel => recognise fuel rightRecursive 0 [0x61, 0x61]) r ∧
      (WellFormed (rightRecursive.map copyRule) → r ≠ .aborted) ∧
      ∀ current, r = .done current →
        Decides (rightRecursive.map copyRule) 0 [0x61, 0x61] current :=
  recognise_decides rightRecursive 0 [0x61, 0x61] (by decide) (by decide)
    (advanceTerminates_of_leftAcc rightRecursive_leftAcc)

/-- `root ::= "ba" | "c" [z-a]`, with a class that matches nothing. -/
def deadClass : GrammarRules :=
  [[⟨.char, 0x62⟩, ⟨.char, 0x61⟩, ⟨.alt, 0⟩,
    ⟨.char, 0x63⟩, ⟨.char, 0x7A⟩, ⟨.charRngUpper, 0x61⟩]]

/-- The rules of `deadClass` as the grammar holds them. -/
abbrev deadRules : GrammarRules := deadClass.map copyRule

theorem deadClass_leftAcc : ∀ r < deadRules.length, LeftAcc deadRules r :=
  fun r hr => leftAcc_of_terminal (by
    have hLt : r < 1 := hr
    interval_cases r
    decide)

/-- After `c` there is a stack, but nothing that begins with `c` is derivable,
although the only rule derives `ba`. -/
theorem deadClass_live :
    (accepted deadRules = true ∧ AdvanceTerminates deadRules ∧ Derivable deadRules 0 [0x62, 0x61]) ∧
      recognise 8 deadClass 0 [0x63] = .done [[⟨0, 4⟩]] ∧
      ∀ v, ¬Derivable deadRules 0 (0x63 :: v) := by
  refine ⟨⟨by decide, advanceTerminates_of_leftAcc deadClass_leftAcc, ?_⟩, by decide, ?_⟩
  · refine ⟨⟨0, 0⟩, by decide, Derives.char (by decide) (by decide) ?_⟩
    exact Derives.char (by decide) (by decide) (Derives.done (by decide))
  intro v hDerivable
  obtain ⟨b, hAlt, hDerives⟩ := derivable_iff.mp hDerivable
  have hCases : b = ⟨0, 0⟩ ∨ b = ⟨0, 3⟩ := by
    simpa [alternates, alternatesFrom, deadClass, copyRule, endElement] using hAlt
  rcases hCases with rfl | rfl
  · have hClass := ((stackDerives_char (by decide)).mp hDerives).1
    exact absurd hClass (by decide)
  have hRest := ((stackDerives_char (by decide)).mp hDerives).2
  cases v with
  | nil => exact not_stackDerives_nil (by decide) hRest
  | cons d v =>
    have hClass := ((stackDerives_char (by decide)).mp hRest).1
    have hItem := hClass.mpr (by decide)
    have hItems : classItems (suffix deadRules ⟨0, 4⟩) = [.range 0x7A 0x61] := by decide
    obtain ⟨item, hMem, hContains⟩ := hItem
    have hMem' : item ∈ classItems (suffix deadRules ⟨0, 4⟩) := hMem
    rw [hItems, mem_singleton] at hMem'
    rw [hMem'] at hContains
    simp only [CharItem.contains, Bool.and_eq_true, decide_eq_true_eq] at hContains
    omega

end Grammar

end Beellama.Ports
