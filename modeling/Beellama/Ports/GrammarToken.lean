import Beellama.Ports.GrammarLang
import Beellama.Ports.Unicode
import Beellama.Verified.Run

/-!
# Token filter and token acceptor

The decoding of a piece behind a pending partial sequence, the filter
`llama_grammar_reject_candidates` and `llama_grammar_accept_token` of `src/src/llama-grammar.cpp`.  The
filter recurses over the code points left of the candidates, the acceptor over those of one token;
both follow the same paths (`Path`), and `Passes` is what the filter asks of a path.
-/

namespace Beellama.Ports

open Beellama.Verified GrammarElement List

/-- `llama_partial_utf8` -/
structure PartialUtf8 where
  value : Nat := 0
  /-- -1 indicates an invalid sequence -/
  nRemain : Int := 0
  deriving DecidableEq, Repr

/-! ## Decoding -/

/-- The first loop of `decode_utf8`: the bytes left of a pending sequence; `none`
where another byte than a continuation byte comes. -/
def decodePending : List UInt8 → Nat → Int → Option (List UInt8 × Nat × Int)
  | [], value, n => some ([], value, n)
  | c :: rest, value, n =>
    if c.toNat ≠ 0 ∧ 0 < n then
      if isContinuation c then decodePending rest (value * 0x40 + c.toNat % 0x40) (n - 1)
      else none
    else some (c :: rest, value, n)

/-- `lookup[highbits] - 1` -/
def remainingAfter (firstByte : UInt8) : Int :=
  if firstByte.toNat < 0x80 then 0
  else if firstByte.toNat < 0xC0 then -1
  else if firstByte.toNat < 0xE0 then 1
  else if firstByte.toNat < 0xF0 then 2
  else 3

/-- The inner loop: the bytes that follow a first byte, of any kind. -/
def decodeRest : List UInt8 → Nat → Int → List UInt8 × Nat × Int
  | [], value, n => ([], value, n)
  | c :: rest, value, n =>
    if c.toNat ≠ 0 ∧ 0 < n then decodeRest rest (value * 0x40 + c.toNat % 0x40) (n - 1)
    else (c :: rest, value, n)

/-- The second loop of `decode_utf8`, with the code points so far; the answer has
the terminating 0.  The fuel bounds the bytes left. -/
def decodeLoop : Nat → List UInt8 → List Nat → Nat → Int → List Nat × PartialUtf8
  | 0, _, codePoints, value, n => (codePoints ++ [0], ⟨value, n⟩)
  | fuel + 1, bytes, codePoints, value, n =>
    match bytes with
    | [] => (codePoints ++ [0], ⟨value, n⟩)
    | c :: rest =>
      if c.toNat = 0 then (codePoints ++ [0], ⟨value, n⟩)
      else
        let n := remainingAfter c
        if n < 0 then ([0], ⟨0, n⟩)
        else
          -- `first_byte & ((1 << (7 - n_remain)) - 1)`
          let r := decodeRest rest (c.toNat % 2 ^ (7 - n.toNat)) n
          let codePoints := if r.2.2 = 0 then codePoints ++ [r.2.1] else codePoints
          decodeLoop fuel r.1 codePoints r.2.1 r.2.2

/-- `decode_utf8` behind a pending sequence. -/
def decodeUtf8 (src : List UInt8) (partialStart : PartialUtf8) : List Nat × PartialUtf8 :=
  match decodePending src partialStart.value partialStart.nRemain with
  | none => ([0], ⟨0, -1⟩)
  | some (bytes, value, n) =>
    let codePoints := if 0 < partialStart.nRemain ∧ n = 0 then [value] else []
    decodeLoop (bytes.length + 1) bytes codePoints value n

/-! ## The filter -/

/-- `llama_grammar_candidate`: the pointer to its code points is a list and a
position. -/
structure GrammarCandidate where
  index : Nat
  codePoints : List Nat
  pos : Nat
  partialUtf8 : PartialUtf8
  /-- `static_cast<uint32_t>(id)` -/
  id : Nat
  deriving DecidableEq, Repr

/-- `*tok.code_points` -/
def GrammarCandidate.codePoint (tok : GrammarCandidate) : Nat := tok.codePoints.getD tok.pos 0

namespace Grammar

/-- The loop of `llama_grammar_match_partial_char`: `some` when an element of the class decides,
with the answer for a positive class. -/
def matchPartialLoop (low high : Nat) : List GrammarElement → Bool
  | [] => false
  | [e] => if e.type = .charAny then true else decide (low ≤ e.value) && decide (e.value ≤ high)
  | e :: e₁ :: rest =>
    if e₁.type = .charRngUpper then
      if e.value ≤ high ∧ low ≤ e₁.value then true
      else if (rest.headD endElement).type = .charAlt then matchPartialLoop low high rest
      else false
    else if e.type = .charAny then true
    else if low ≤ e.value ∧ e.value ≤ high then true
    else if e₁.type = .charAlt then matchPartialLoop low high (e₁ :: rest)
    else false

/-- `llama_grammar_match_partial_char`.  A hit answers `is_positive_char`, except for
`.`, which answers true and is positive. -/
def matchPartialChar (rules : GrammarRules) (p : GrammarPos) (partialUtf8 : PartialUtf8) : Bool :=
  let n := partialUtf8.nRemain
  if n < 0 ∨ n = 1 ∧ partialUtf8.value < 2 then false
  else
    let low := partialUtf8.value * 2 ^ (n.toNat * 6)
    let high := low + (2 ^ (n.toNat * 6) - 1)
    let low := if low = 0 then (if n = 2 then 2 ^ 11 else if n = 3 then 2 ^ 16 else low) else low
    matchPartialLoop low high (suffix rules p) == (elem rules p).isPositiveChar

/-- `llama_grammar_match_token` -/
def matchToken (rules : GrammarRules) (p : GrammarPos) (id : Nat) : Bool :=
  match (elem rules p).type with
  | .token => (elem rules p).value == id
  | .tokenNot => (elem rules p).value != id
  | _ => false

/-- `llama_grammar_reject_candidates`, for the filter of one stack. -/
def rejectCandidatesWith
    (rejectForStack : GrammarStack → List GrammarCandidate → WorklistResult GrammarCandidate)
    (current : List GrammarStack) (candidates : List GrammarCandidate) :
    WorklistResult GrammarCandidate :=
  -- GGML_ASSERT(!stacks.empty())
  if current = [] then .aborted
  else if candidates = [] then .done []
  else current.foldl (fun r stack => r.bind (rejectForStack stack)) (.done candidates)

/-- `llama_grammar_reject_candidates_for_stack`, to a depth of recursion. -/
def rejectCandidatesForStack (rules : GrammarRules) (fuel : Nat) :
    Nat → GrammarStack → List GrammarCandidate → WorklistResult GrammarCandidate
  | 0, _, _ => .running
  | depth + 1, stack, candidates =>
    match stack with
    | [] => .done (candidates.filter fun tok => tok.codePoint ≠ 0 ∨ tok.partialUtf8.nRemain ≠ 0)
    | p :: rest =>
      if (elem rules p).isToken then
        .done (candidates.filter fun tok =>
          if tok.codePoint = 0 then tok.partialUtf8.nRemain ≠ 0
          else ¬matchToken rules p tok.id)
      else if ¬(elem rules p).isCharHead then .aborted
      else
        let rejects := candidates.filter fun tok =>
          if tok.codePoint = 0 then
            tok.partialUtf8.nRemain ≠ 0 ∧ ¬matchPartialChar rules p tok.partialUtf8
          else ¬(matchChar rules p tok.codePoint).1
        let nextCandidates := (candidates.filter fun tok =>
          tok.codePoint ≠ 0 ∧ (matchChar rules p tok.codePoint).1).map
            fun tok => { tok with pos := tok.pos + 1 }
        let stackAfter := push rules (matchChar rules p 0).2 rest
        (advanceStack rules fuel stackAfter []).bind fun nextStacks =>
          (rejectCandidatesWith (rejectCandidatesForStack rules fuel depth) nextStacks
            nextCandidates).bind fun nextRejects =>
              .done (rejects ++ nextRejects.map fun tok => { tok with pos := tok.pos - 1 })

/-- `llama_grammar_reject_candidates` -/
def rejectCandidates (rules : GrammarRules) (fuel depth : Nat) (current : List GrammarStack)
    (candidates : List GrammarCandidate) : WorklistResult GrammarCandidate :=
  rejectCandidatesWith (rejectCandidatesForStack rules fuel depth) current candidates

/-! ## The acceptor -/

/-- The stacks and the pending sequence of `llama_grammar`. -/
structure TokenState where
  current : List GrammarStack
  partialUtf8 : PartialUtf8 := {}
  deriving DecidableEq, Repr

/-- Add the stacks that survive, each once. -/
def addSurviving (stacksNew surviving : List GrammarStack) : List GrammarStack :=
  surviving.foldl (fun out s => if s ∈ out then out else out ++ [s]) stacksNew

/-- The body of the loop of `llama_grammar_accept_token` over the stacks. -/
def acceptTokenStack (rules : GrammarRules) (fuel : Nat) (id : Nat) (codePoints : List Nat)
    (stack : GrammarStack) (stacksNew : List GrammarStack) : WorklistResult GrammarStack :=
  match stack with
  | [] => .done stacksNew
  | p :: rest =>
    if (elem rules p).isToken then
      if matchToken rules p id then advanceStack rules fuel (push rules p.succ rest) stacksNew
      else .done stacksNew
    else
      (acceptAll rules fuel [stack] codePoints).bind fun surviving =>
        .done (addSurviving stacksNew surviving)

/-- `llama_grammar_accept_token`: the stacks it leaves, from which it throws when
there are none. -/
def acceptToken (rules : GrammarRules) (fuel : Nat) (st : TokenState) (id : Nat)
    (piece : List UInt8) : WorklistResult GrammarStack :=
  let codePoints := (decodeUtf8 piece st.partialUtf8).1.dropLast
  st.current.foldl (fun r stack => r.bind (acceptTokenStack rules fuel id codePoints stack))
    (.done [])

/-- The candidate that `llama_grammar_apply_impl` makes of a token. -/
def candidateOf (st : TokenState) (index id : Nat) (piece : List UInt8) : GrammarCandidate :=
  let decoded := decodeUtf8 piece st.partialUtf8
  ⟨index, decoded.1, 0, decoded.2, id⟩

/-! ## Paths of code points -/

variable {rules : GrammarRules}

/-- One of the stacks that a stack is advanced to. -/
def AdvancesTo (rules : GrammarRules) (s t : GrammarStack) : Prop :=
  Reach (expand rules) s t ∧ isFinal rules t = true

/-- The stack takes a code point and is advanced. -/
def StepChr (rules : GrammarRules) (s : GrammarStack) (c : Nat) (t : GrammarStack) : Prop :=
  ∃ p rest, s = p :: rest ∧ (elem rules p).isToken = false ∧ (elem rules p).isCharHead = true ∧
    InClass rules p c ∧ AdvancesTo rules (push rules (classEnd rules p) rest) t

/-- The stack takes the code points one after the other. -/
def Path (rules : GrammarRules) : GrammarStack → List Nat → GrammarStack → Prop
  | s, [], t => s = t
  | s, c :: w, t => ∃ m, StepChr rules s c m ∧ Path rules m w t

variable {s t : GrammarStack} {out' : List GrammarStack} {out : List GrammarStack} {fuel : Nat}

theorem mem_advanceStack (h : advanceStack rules fuel s out = .done out') :
    t ∈ out' ↔ t ∈ out ∨ AdvancesTo rules s t := by
  constructor
  · intro ht
    rcases Worklist.sound h ht with hOld | ⟨hFinal, s', hs', hReach⟩
    · exact Or.inl hOld
    · rw [mem_singleton.mp hs'] at hReach
      exact Or.inr ⟨hReach, hFinal⟩
  intro ht
  rcases ht with hOld | ⟨hReach, hFinal⟩
  · exact Worklist.out_subset h hOld
  · exact Worklist.complete h hReach hFinal

variable {c : Nat}

theorem mem_acceptChr (h : acceptChr rules fuel s c out = .done out') :
    t ∈ out' ↔ t ∈ out ∨ StepChr rules s c t := by
  cases s with
  | nil =>
    simp only [acceptChr, WorklistResult.done.injEq] at h
    subst h
    refine (or_iff_left ?_).symm
    intro hStep
    obtain ⟨p, rest, hEq, -⟩ := hStep
    contradiction
  | cons p rest =>
    simp only [acceptChr] at h
    split at h
    next hToken =>
      rw [WorklistResult.done.injEq] at h
      subst h
      refine (or_iff_left ?_).symm
      intro hStep
      obtain ⟨p', rest', hEq, hNot, -⟩ := hStep
      rw [← (cons.inj hEq).1, hToken] at hNot
      contradiction
    next hToken =>
      split at h
      next => contradiction
      next hHead =>
        obtain ⟨hMatch, hEnd⟩ := matchChar_spec rules p c
        rw [hEnd] at h
        split at h
        next hMatches =>
          rw [mem_advanceStack h]
          refine or_congr_right ?_
          constructor
          · intro hNext
            exact ⟨p, rest, rfl, by simpa using hToken, by simpa using hHead,
              hMatch.mp hMatches, hNext⟩
          intro hStep
          obtain ⟨p', rest', hEq, -, -, -, hNext⟩ := hStep
          rw [(cons.inj hEq).1, (cons.inj hEq).2]
          exact hNext
        next hMatches =>
          rw [WorklistResult.done.injEq] at h
          subst h
          refine (or_iff_left ?_).symm
          intro hStep
          obtain ⟨p', rest', hEq, -, -, hClass, -⟩ := hStep
          rw [← (cons.inj hEq).1] at hClass
          exact hMatches (hMatch.mpr hClass)

variable {current : List GrammarStack}

theorem mem_accept (h : accept rules fuel current c = .done out) :
    t ∈ out ↔ ∃ s ∈ current, StepChr rules s c t := by
  have hThread : thread (fun s => acceptChr rules fuel s c) current [] = .done out := h
  have hUnion := (thread_union (I := fun _ => True) (D := fun out t => t ∈ out)
    (Q := fun s t => StepChr rules s c t)
    (fun s _ out out' _ hAccept => ⟨trivial, fun t => mem_acceptChr hAccept⟩) trivial hThread).2 t
  simpa using hUnion

theorem mem_acceptAll {w : List Nat} (h : acceptAll rules fuel current w = .done out) :
    t ∈ out ↔ ∃ s ∈ current, Path rules s w t := by
  induction w generalizing current with
  | nil =>
    have hEq : current = out := by simpa [acceptAll] using h
    simp [hEq, Path]
  | cons c w ih =>
    obtain ⟨mid, hAccept, hCons⟩ := acceptAll_cons h
    rw [ih hCons]
    simp only [mem_accept hAccept, Path]
    constructor
    · intro hEx
      obtain ⟨m, ⟨s, hs, hStep⟩, hPath⟩ := hEx
      exact ⟨s, hs, m, hStep, hPath⟩
    intro hEx
    obtain ⟨s, hs, m, hStep, hPath⟩ := hEx
    exact ⟨m, ⟨s, hs, hStep⟩, hPath⟩

/-! ## What the acceptor leaves -/

variable {surviving : List GrammarStack}

theorem mem_addSurviving : t ∈ addSurviving out surviving ↔ t ∈ out ∨ t ∈ surviving := by
  rw [addSurviving]
  induction surviving generalizing out with
  | nil => simp
  | cons s surviving ih =>
    rw [foldl_cons, ih, mem_cons]
    by_cases hs : s ∈ out
    · rw [if_pos hs]
      constructor
      · exact Or.imp_right Or.inr
      intro h
      rcases h with hOut | hEq | hRest
      · exact Or.inl hOut
      · exact Or.inl (hEq ▸ hs)
      · exact Or.inr hRest
    · rw [if_neg hs, mem_append, mem_singleton]
      exact or_assoc

/-- What a stack leaves behind a token: it takes the id, or all code points. -/
def Takes (rules : GrammarRules) (id : Nat) (codePoints : List Nat) (s t : GrammarStack) : Prop :=
  ∃ p rest, s = p :: rest ∧
    ((elem rules p).isToken = true ∧ matchToken rules p id = true ∧
        AdvancesTo rules (push rules p.succ rest) t ∨
      (elem rules p).isToken = false ∧ Path rules s codePoints t)

variable {id : Nat} {codePoints : List Nat}

theorem mem_acceptTokenStack (h : acceptTokenStack rules fuel id codePoints s out = .done out') :
    t ∈ out' ↔ t ∈ out ∨ Takes rules id codePoints s t := by
  cases s with
  | nil =>
    simp only [acceptTokenStack, WorklistResult.done.injEq] at h
    subst h
    refine (or_iff_left ?_).symm
    intro hTakes
    obtain ⟨p, rest, hEq, -⟩ := hTakes
    contradiction
  | cons p rest =>
    have hTakes : Takes rules id codePoints (p :: rest) t ↔
        (elem rules p).isToken = true ∧ matchToken rules p id = true ∧
            AdvancesTo rules (push rules p.succ rest) t ∨
          (elem rules p).isToken = false ∧ Path rules (p :: rest) codePoints t := by
      constructor
      · intro hEx
        obtain ⟨p', rest', hEq, hOr⟩ := hEx
        cases hEq
        exact hOr
      · intro hOr
        exact ⟨p, rest, rfl, hOr⟩
    rw [hTakes]
    simp only [acceptTokenStack] at h
    split at h
    next hToken =>
      split at h
      next hMatch => simp [mem_advanceStack h, hToken, hMatch]
      next hMatch =>
        rw [WorklistResult.done.injEq] at h
        simp [← h, hToken, hMatch]
    next hToken =>
      obtain ⟨surviving, hAll, h⟩ := WorklistResult.of_bind h
      have hEq : addSurviving out surviving = out' := by
        simpa [WorklistResult.bind] using h
      rw [← hEq, mem_addSurviving, mem_acceptAll hAll]
      simp [hToken]

variable {st : TokenState}

theorem mem_acceptToken {piece : List UInt8} (h : acceptToken rules fuel st id piece = .done out) :
    t ∈ out ↔
      ∃ s ∈ st.current, Takes rules id (decodeUtf8 piece st.partialUtf8).1.dropLast s t := by
  have hThread : thread
      (acceptTokenStack rules fuel id (decodeUtf8 piece st.partialUtf8).1.dropLast) st.current [] =
        .done out := h
  have hUnion := (thread_union (I := fun _ => True) (D := fun out t => t ∈ out)
    (Q := Takes rules id (decodeUtf8 piece st.partialUtf8).1.dropLast)
    (fun s _ out out' _ hAccept => ⟨trivial, fun t => mem_acceptTokenStack hAccept⟩)
    trivial hThread).2 t
  simpa using hUnion

/-! ## What the filter lets pass -/

/-- At the end of its full code points a candidate passes, when its partial
sequence can go on. -/
def PassesEnd (rules : GrammarRules) (partialUtf8 : PartialUtf8) (s : GrammarStack) : Prop :=
  partialUtf8.nRemain = 0 ∨ ∃ p rest, s = p :: rest ∧ (elem rules p).isToken = false ∧
    matchPartialChar rules p partialUtf8 = true

/-- The filter of a stack lets a candidate with these code points left pass. -/
def Passes (rules : GrammarRules) (partialUtf8 : PartialUtf8) (id : Nat) :
    List Nat → GrammarStack → Prop
  | [], s => PassesEnd rules partialUtf8 s
  | c :: codePoints, s =>
    if c = 0 then PassesEnd rules partialUtf8 s
    else
      (∃ p rest, s = p :: rest ∧ (elem rules p).isToken = true ∧ matchToken rules p id = true) ∨
        ∃ t, StepChr rules s c t ∧ Passes rules partialUtf8 id codePoints t

/-- The candidate passes the filter of a stack from where it stands. -/
def GrammarCandidate.Passes (rules : GrammarRules) (tok : GrammarCandidate) (s : GrammarStack) :
    Prop :=
  Grammar.Passes rules tok.partialUtf8 tok.id (tok.codePoints.drop tok.pos) s

/-- The candidate behind its code point. -/
def GrammarCandidate.next (tok : GrammarCandidate) : GrammarCandidate :=
  { tok with pos := tok.pos + 1 }

/-- A token element on top that matches the id. -/
def TokenTop (rules : GrammarRules) (id : Nat) (s : GrammarStack) : Prop :=
  ∃ p rest, s = p :: rest ∧ (elem rules p).isToken = true ∧ matchToken rules p id = true

variable {tok : GrammarCandidate}

theorem candidate_passes_iff :
    GrammarCandidate.Passes rules tok s ↔
      if tok.codePoint = 0 then PassesEnd rules tok.partialUtf8 s
      else TokenTop rules tok.id s ∨
        ∃ t, StepChr rules s tok.codePoint t ∧
          GrammarCandidate.Passes rules (GrammarCandidate.next tok) t := by
  have hNext : tok.codePoints.drop (tok.pos + 1) = (tok.codePoints.drop tok.pos).tail := by
    rw [tail_drop]
  have hHead : tok.codePoint = (tok.codePoints.drop tok.pos).headD 0 := by
    rw [headD_eq_head?_getD, head?_drop, GrammarCandidate.codePoint,
      getD_eq_getElem?_getD]
  simp only [GrammarCandidate.Passes, GrammarCandidate.next, hNext, hHead]
  cases tok.codePoints.drop tok.pos with
  | nil => rfl
  | cons c rest => rfl

/-- A filter keeps the candidates that do not pass. -/
def Filters (rules : GrammarRules) (s : GrammarStack) (candidates rejects : List GrammarCandidate) :
    Prop :=
  ∀ tok, tok ∈ rejects ↔ tok ∈ candidates ∧ ¬GrammarCandidate.Passes rules tok s

variable {candidates rejects : List GrammarCandidate}

/-- The filters of the stacks one after the other keep what passes none of them. -/
theorem rejectCandidatesWith_spec
    {rejectForStack : GrammarStack → List GrammarCandidate → WorklistResult GrammarCandidate}
    (hFilters : ∀ s ∈ current, ∀ out out', rejectForStack s out = .done out' →
      Filters rules s out out')
    (h : rejectCandidatesWith rejectForStack current candidates = .done rejects)
    (tok : GrammarCandidate) :
    tok ∈ rejects ↔ tok ∈ candidates ∧ ∀ s ∈ current, ¬GrammarCandidate.Passes rules tok s := by
  simp only [rejectCandidatesWith] at h
  split at h
  next => contradiction
  next =>
    split at h
    next hNone =>
      rw [WorklistResult.done.injEq] at h
      simp [← h, hNone]
    next =>
      have hThread : thread rejectForStack current candidates = .done rejects := h
      have hUnion := (thread_union (I := fun _ => True) (D := fun out tok => tok ∉ out)
        (Q := fun s tok => GrammarCandidate.Passes rules tok s) (by
          intro s hs out out' _ hReject
          refine ⟨trivial, fun tok => ?_⟩
          rw [hFilters s hs out out' hReject tok, not_and_or, not_not]) trivial hThread).2 tok
      rw [← not_iff_not, hUnion, not_and_or]
      simp only [not_forall, not_not, exists_prop]

variable {partialUtf8 : PartialUtf8} {p : GrammarPos} {rest : GrammarStack}

theorem passesEnd_char (hToken : (elem rules p).isToken = false) :
    PassesEnd rules partialUtf8 (p :: rest) ↔
      partialUtf8.nRemain = 0 ∨ matchPartialChar rules p partialUtf8 = true := by
  refine or_congr_right ?_
  constructor
  · intro h
    obtain ⟨p', rest', hEq, -, hMatch⟩ := h
    cases hEq
    exact hMatch
  · intro h
    exact ⟨p, rest, rfl, hToken, h⟩

theorem passesEnd_token (hToken : (elem rules p).isToken = true) :
    PassesEnd rules partialUtf8 (p :: rest) ↔ partialUtf8.nRemain = 0 := by
  refine or_iff_left ?_
  intro h
  obtain ⟨p', rest', hEq, hNot, -⟩ := h
  cases hEq
  rw [hToken] at hNot
  contradiction

theorem passesEnd_nil : PassesEnd rules partialUtf8 [] ↔ partialUtf8.nRemain = 0 := by
  refine or_iff_left ?_
  intro h
  obtain ⟨p, rest, hEq, -⟩ := h
  contradiction

/-- At a class, a candidate passes by its code point and the stacks behind it. -/
theorem stepChr_cons :
    StepChr rules (p :: rest) c t ↔ (elem rules p).isToken = false ∧
      (elem rules p).isCharHead = true ∧ InClass rules p c ∧
        AdvancesTo rules (push rules (classEnd rules p) rest) t := by
  constructor
  · intro h
    obtain ⟨p', rest', hEq, hAll⟩ := h
    cases hEq
    exact hAll
  · intro h
    exact ⟨p, rest, rfl, h⟩

theorem tokenTop_cons :
    TokenTop rules id (p :: rest) ↔
      (elem rules p).isToken = true ∧ matchToken rules p id = true := by
  constructor
  · intro h
    obtain ⟨p', rest', hEq, hAll⟩ := h
    cases hEq
    exact hAll
  · intro h
    exact ⟨p, rest, rfl, h⟩

/-- The rejects that come back from the next code point are candidates again. -/
theorem mem_map_prev {nextRejects : List GrammarCandidate} {P : GrammarCandidate → Prop}
    (hNext : ∀ tok, tok ∈ nextRejects ↔ tok ∈ candidates.map GrammarCandidate.next ∧ P tok)
    (tok : GrammarCandidate) :
    tok ∈ nextRejects.map (fun tok => { tok with pos := tok.pos - 1 }) ↔
      tok ∈ candidates ∧ P (GrammarCandidate.next tok) := by
  constructor
  · intro h
    obtain ⟨x, hx, rfl⟩ := mem_map.mp h
    obtain ⟨hMem, hP⟩ := (hNext x).mp hx
    obtain ⟨y, hy, rfl⟩ := mem_map.mp hMem
    exact ⟨hy, hP⟩
  intro h
  obtain ⟨hMem, hP⟩ := h
  exact mem_map.mpr ⟨_, (hNext _).mpr ⟨mem_map_of_mem hMem, hP⟩, rfl⟩

variable {depth : Nat}

/-- `llama_grammar_reject_candidates_for_stack` keeps the candidates that do not
pass. -/
theorem rejectCandidatesForStack_spec
    (h : rejectCandidatesForStack rules fuel depth s candidates = .done rejects) :
    Filters rules s candidates rejects := by
  induction depth generalizing s candidates rejects with
  | zero => contradiction
  | succ depth ih =>
    intro tok
    rw [candidate_passes_iff]
    cases s with
    | nil =>
      simp only [rejectCandidatesForStack, WorklistResult.done.injEq] at h
      rw [← h, mem_filter, passesEnd_nil]
      refine and_congr_right fun _ => ?_
      by_cases hZero : tok.codePoint = 0
      · simp [hZero]
      have hNot : ¬(TokenTop rules tok.id [] ∨
          ∃ t, StepChr rules [] tok.codePoint t ∧
            GrammarCandidate.Passes rules (GrammarCandidate.next tok) t) := by
        simp [TokenTop, StepChr]
      simp [hZero, hNot]
    | cons p rest =>
      simp only [rejectCandidatesForStack] at h
      split at h
      next hToken =>
        rw [WorklistResult.done.injEq] at h
        rw [← h, mem_filter, passesEnd_token hToken, tokenTop_cons]
        by_cases hZero : tok.codePoint = 0
        · simp [hZero]
        · simp [hZero, hToken, stepChr_cons]
      next hToken =>
        have hNotToken : (elem rules p).isToken = false := by simpa using hToken
        split at h
        next => contradiction
        next hHead =>
          have hCharHead : (elem rules p).isCharHead = true := by simpa using hHead
          rw [(matchChar_spec rules p 0).2] at h
          obtain ⟨nextStacks, hAdvance, h⟩ := WorklistResult.of_bind h
          simp only [WorklistResult.bind] at h
          split at h
          next => contradiction
          next => contradiction
          next nextRejects hNext =>
            rw [WorklistResult.done.injEq] at h
            have hSpec := rejectCandidatesWith_spec
              (fun t _ out out' hReject => ih hReject) hNext
            have hMatch := (matchChar_spec rules p tok.codePoint).1
            have hAfter : ∀ t, t ∈ nextStacks ↔
                AdvancesTo rules (push rules (classEnd rules p) rest) t := by
              intro t
              rw [mem_advanceStack hAdvance]
              simp
            rw [← h, mem_append, mem_map_prev hSpec, mem_filter, mem_filter,
              passesEnd_char hNotToken, tokenTop_cons]
            by_cases hZero : tok.codePoint = 0
            · simp [hZero]
            simp only [hZero, stepChr_cons, hNotToken, hCharHead, ← hMatch, ← hAfter]
            by_cases hTakes : (matchChar rules p tok.codePoint).1 = true
            · simp [hTakes, hZero]
            · simp [hTakes]

/-- `llama_grammar_reject_candidates` keeps the candidates that pass no stack. -/
theorem rejectCandidates_spec
    (h : rejectCandidates rules fuel depth current candidates = .done rejects)
    (tok : GrammarCandidate) :
    tok ∈ rejects ↔ tok ∈ candidates ∧ ∀ s ∈ current, ¬GrammarCandidate.Passes rules tok s :=
  rejectCandidatesWith_spec (fun _ _ _ _ hReject => rejectCandidatesForStack_spec hReject) h tok

/-! ## The filter and the acceptor come to an end -/

/-- Every stack that is placed comes to a final stack, when its expansions are
finite. -/
theorem exists_advancesTo (hWell : WellFormed rules) (hAcc : StackAcc rules s)
    (hPlaced : Placed rules s) : ∃ t, AdvancesTo rules s t := by
  induction hAcc with
  | intro s _ ih =>
    by_cases hFinal : isFinal rules s = true
    · exact ⟨s, Relation.ReflTransGen.refl, hFinal⟩
    cases s with
    | nil => simp [isFinal] at hFinal
    | cons p rest =>
      obtain ⟨hEnd, hPart⟩ := hPlaced p mem_cons_self
      simp only [isFinal, Bool.or_eq_true, not_or] at hFinal
      have hRef : (elem rules p).type = .ruleRef := by
        rcases kind_cases (elem rules p) with hKind | hKind | hKind | hKind | hKind
        · simp [hKind] at hEnd
        · simp [hPart hWell] at hKind
        · exact hKind
        · exact absurd hKind hFinal.2
        · exact absurd hKind hFinal.1
      have hChild : Child (expand rules) (p :: rest)
          (push rules ⟨(elem rules p).value, 0⟩ (push rules p.succ rest)) :=
        (child_ref hRef).mpr ⟨_, mem_map.mpr ⟨0, mem_cons_self, rfl⟩, rfl⟩
      obtain ⟨t, hReach, hFinalT⟩ := ih _ hChild (placed_child hPlaced hChild)
      exact ⟨t, Relation.ReflTransGen.head hChild hReach, hFinalT⟩

/-- The rules were initialised from a rule set without left recursion, its classes built as
`llama_gretype` says. -/
structure Sound (rules : GrammarRules) : Prop where
  wellFormed : WellFormed rules
  leftAcc : ∀ r < rules.length, LeftAcc rules r

/-- `llama_grammar_advance_stack` adds a stack at least. -/
theorem Sound.advanceStack (hSound : Sound rules) (hPlaced : Placed rules s)
    (hOut : StacksOk rules out) :
    ∃ out', Settles (fun fuel => Grammar.advanceStack rules fuel s out) (.done out') ∧
      StacksOk rules out' ∧ out' ≠ [] := by
  have hTerm := advanceTerminates_of_leftAcc hSound.leftAcc
  obtain ⟨r, hSettles⟩ := advanceStack_settles hTerm hPlaced out
  cases r with
  | running => exact absurd rfl hSettles.1
  | aborted =>
    obtain ⟨fuel, hAt⟩ := Settles.of_aborted hSettles
    exact absurd hAt (advanceStack_ne_aborted hSound.wellFormed hPlaced)
  | done out' =>
    obtain ⟨fuel, hAt⟩ := Settles.of_done hSettles
    refine ⟨out', hSettles, (advanceStack_spec hPlaced hOut hAt).1, ?_⟩
    obtain ⟨t, hAdvances⟩ :=
      exists_advancesTo hSound.wellFormed (stackAcc hSound.leftAcc s) hPlaced
    exact ne_nil_of_mem ((mem_advanceStack hAt).mpr (Or.inr hAdvances))

theorem rejectCandidatesWith_settles
    (rejectForStack : Nat → GrammarStack → List GrammarCandidate → WorklistResult GrammarCandidate)
    (candidates : List GrammarCandidate) (hNe : current ≠ [])
    (hStep : candidates ≠ [] → ∀ s ∈ current, ∀ out, out ⊆ candidates →
      ∃ out', Settles (fun fuel => rejectForStack fuel s out) (.done out') ∧ out' ⊆ out) :
    ∃ rejects, Settles (fun fuel => rejectCandidatesWith (rejectForStack fuel) current candidates)
      (.done rejects) := by
  simp only [rejectCandidatesWith, if_neg hNe]
  by_cases hNone : candidates = []
  · simp only [if_pos hNone]
    exact ⟨[], Settles.const (by simp)⟩
  simp only [if_neg hNone]
  obtain ⟨rejects, hSettles, -⟩ := Settles.thread_done (I := (· ⊆ candidates))
    (f := rejectForStack) (l := current) candidates (by
      intro s hs out hOut
      obtain ⟨out', hSettles, hSub⟩ := hStep hNone s hs out hOut
      exact ⟨out', hSettles, List.Subset.trans hSub hOut⟩) (List.Subset.refl _)
  exact ⟨rejects, hSettles⟩

/-- The candidate has no more than `left` code points left. -/
def GrammarCandidate.Within (left : Nat) (tok : GrammarCandidate) : Prop :=
  tok.codePoints.length ≤ tok.pos + left

theorem pos_lt_of_codePoint (h : tok.codePoint ≠ 0) : tok.pos < tok.codePoints.length := by
  by_contra hOut
  refine h ?_
  rw [GrammarCandidate.codePoint, getD_eq_default _ _ (Nat.le_of_not_lt hOut)]

variable {left : Nat}

theorem within_next {P : GrammarCandidate → Bool}
    (hLeft : ∀ tok ∈ candidates, GrammarCandidate.Within left tok)
    (hP : ∀ tok, P tok = true → tok.codePoint ≠ 0) :
    ∀ tok ∈ (candidates.filter P).map GrammarCandidate.next,
      0 < left ∧ GrammarCandidate.Within (left - 1) tok := by
  intro tok hTok
  obtain ⟨x, hx, rfl⟩ := mem_map.mp hTok
  obtain ⟨hMem, hPx⟩ := mem_filter.mp hx
  have hPos := pos_lt_of_codePoint (hP x hPx)
  have hWithin : x.codePoints.length ≤ x.pos + left := hLeft x hMem
  constructor
  · omega
  · show x.codePoints.length ≤ x.pos + 1 + (left - 1)
    omega

theorem filters_subset (h : Filters rules s candidates rejects) : rejects ⊆ candidates :=
  fun tok hTok => ((h tok).mp hTok).1

/-- The filter of a stack comes to an end, when the candidates have fewer code
points left than it recurses. -/
theorem rejectCandidatesForStack_settles (hSound : Sound rules)
    (hDepth : left < depth) (hPlaced : Placed rules s)
    (hFinal : isFinal rules s = true)
    (hLeft : ∀ tok ∈ candidates, GrammarCandidate.Within left tok) :
    ∃ rejects, Settles (fun fuel => rejectCandidatesForStack rules fuel depth s candidates)
      (.done rejects) := by
  induction depth generalizing left s candidates with
  | zero => omega
  | succ depth ih =>
    cases s with
    | nil => exact ⟨_, Settles.const (by simp)⟩
    | cons p rest =>
      simp only [rejectCandidatesForStack]
      split
      next => exact ⟨_, Settles.const (by simp)⟩
      next hToken =>
        have hHead : ¬¬(elem rules p).isCharHead = true :=
          not_not.mpr (charHead_of_final hFinal hToken)
        simp only [if_neg hHead, (matchChar_spec rules p 0).2]
        obtain ⟨nextStacks, hAdvance, hOk, hNe⟩ :=
          hSound.advanceStack (placed_behind hPlaced) StacksOk.nil
        obtain ⟨nextRejects, hNext⟩ := rejectCandidatesWith_settles
          (fun fuel => rejectCandidatesForStack rules fuel depth)
          ((candidates.filter fun tok =>
            tok.codePoint ≠ 0 ∧ (matchChar rules p tok.codePoint).1).map GrammarCandidate.next)
          hNe (by
            intro hSome t ht out hOut
            have hWithin := within_next (P := fun tok =>
              tok.codePoint ≠ 0 ∧ (matchChar rules p tok.codePoint).1) hLeft (by
                intro tok hTok
                exact (of_decide_eq_true hTok).1)
            obtain ⟨tok, hTok⟩ := exists_mem_of_ne_nil _ hSome
            have hPos := (hWithin tok hTok).1
            obtain ⟨out', hSettles⟩ := ih (by omega) (hOk.placed t ht) (hOk.final t ht)
              (fun tok hTok => (hWithin tok (hOut hTok)).2)
            obtain ⟨fuel, hAt⟩ := Settles.of_done hSettles
            exact ⟨out', hSettles, filters_subset (rejectCandidatesForStack_spec hAt)⟩)
        exact ⟨_, Settles.bind_done hAdvance
          (Settles.bind_done hNext (Settles.const (by simp)))⟩

theorem rejectCandidates_settles (hSound : Sound rules)
    (hOk : StacksOk rules current) (hNe : current ≠ []) (candidates : List GrammarCandidate) :
    ∃ depth rejects, Settles (fun fuel => rejectCandidates rules fuel depth current candidates)
      (.done rejects) := by
  obtain ⟨left, hLeft⟩ : ∃ left, ∀ tok ∈ candidates, GrammarCandidate.Within left tok := by
    refine ⟨(candidates.map fun tok => tok.codePoints.length).sum, ?_⟩
    intro tok hTok
    have hLe := single_le_sum (l := candidates.map fun tok => tok.codePoints.length)
      (by simp) _ (mem_map_of_mem hTok)
    show tok.codePoints.length ≤ tok.pos + _
    omega
  refine ⟨left + 1, ?_⟩
  refine rejectCandidatesWith_settles (fun fuel => rejectCandidatesForStack rules fuel (left + 1))
    candidates hNe ?_
  intro _ s hs out hOut
  obtain ⟨out', hSettles⟩ := rejectCandidatesForStack_settles hSound (Nat.lt_succ_self left)
    (hOk.placed s hs) (hOk.final s hs) (fun tok hTok => hLeft tok (hOut hTok))
  obtain ⟨fuel, hAt⟩ := Settles.of_done hSettles
  exact ⟨out', hSettles, filters_subset (rejectCandidatesForStack_spec hAt)⟩

theorem not_classPart_of_token {prev next : GrammarElement} (h : MayFollow prev next)
    (hToken : prev.isToken = true) : next.isClassPart = false := by
  obtain ⟨type, value⟩ := prev
  simp only [isClassPart, decide_eq_false_iff_not, not_or]
  constructor
  · intro hAlt
    have hPrev := h.1 hAlt
    cases type <;> simp [isToken] at hToken hPrev
  intro hRange
  have hPrev := h.2 hRange
  cases type <;> simp [isToken] at hToken hPrev

theorem addSurviving_ok (hOut : StacksOk rules out)
    (hSurviving : StacksOk rules surviving) : StacksOk rules (addSurviving out surviving) where
  nodup := by
    have hNodup := hOut.nodup
    clear hSurviving hOut
    rw [addSurviving]
    induction surviving generalizing out with
    | nil => exact hNodup
    | cons s surviving ih =>
      rw [foldl_cons]
      by_cases hs : s ∈ out
      · rw [if_pos hs]
        exact ih hNodup
      rw [if_neg hs]
      refine ih (nodup_append.mpr ⟨hNodup, by simp, ?_⟩)
      intro a ha b hb hEq
      rw [mem_singleton.mp hb] at hEq
      exact hs (hEq ▸ ha)
  placed := fun s hs => (mem_addSurviving.mp hs).elim (hOut.placed s) (hSurviving.placed s)
  final := fun s hs => (mem_addSurviving.mp hs).elim (hOut.final s) (hSurviving.final s)

theorem Sound.acceptAll (hSound : Sound rules) (hOk : StacksOk rules current) (w : List Nat) :
    ∃ out, Settles (fun fuel => Grammar.acceptAll rules fuel current w) (.done out) ∧
      StacksOk rules out := by
  obtain ⟨r, hSettles⟩ := acceptAll_settles (advanceTerminates_of_leftAcc hSound.leftAcc) hOk w
  cases r with
  | running => exact absurd rfl hSettles.1
  | aborted =>
    obtain ⟨fuel, hAt⟩ := Settles.of_aborted hSettles
    exact absurd hAt (acceptAll_ne_aborted hSound.wellFormed hOk w)
  | done out =>
    obtain ⟨fuel, hAt⟩ := Settles.of_done hSettles
    exact ⟨out, hSettles, (acceptAll_spec hOk hAt).1⟩

theorem placed_behind_token
    (hToken : (elem rules p).isToken = true) (hPlaced : Placed rules (p :: rest)) :
    Placed rules (push rules p.succ rest) :=
  placed_push (fun hWell => not_classPart_of_token (hWell.follow p) hToken) hPlaced.tail

theorem StacksOk.single (hPlaced : Placed rules s)
    (hFinal : isFinal rules s = true) : StacksOk rules [s] where
  nodup := by simp
  placed := fun _ ht => mem_singleton.mp ht ▸ hPlaced
  final := fun _ ht => mem_singleton.mp ht ▸ hFinal

theorem acceptTokenStack_ok (hPlaced : Placed rules s) (hFinal : isFinal rules s = true)
    (hOut : StacksOk rules out)
    (h : acceptTokenStack rules fuel id codePoints s out = .done out') : StacksOk rules out' := by
  cases s with
  | nil =>
    simp only [acceptTokenStack, WorklistResult.done.injEq] at h
    exact h ▸ hOut
  | cons p rest =>
    simp only [acceptTokenStack] at h
    split at h
    next hToken =>
      split at h
      next => exact (advanceStack_spec (placed_behind_token hToken hPlaced) hOut h).1
      next =>
        rw [WorklistResult.done.injEq] at h
        exact h ▸ hOut
    next =>
      obtain ⟨surviving, hAll, h⟩ := WorklistResult.of_bind h
      simp only [WorklistResult.done.injEq] at h
      exact h ▸ addSurviving_ok hOut
        (acceptAll_spec (StacksOk.single hPlaced hFinal) hAll).1

theorem acceptTokenStack_settles (hSound : Sound rules)
    (hPlaced : Placed rules s) (hFinal : isFinal rules s = true) (id : Nat) (codePoints : List Nat)
    (hOut : StacksOk rules out) :
    ∃ out', Settles (fun fuel => acceptTokenStack rules fuel id codePoints s out) (.done out') := by
  cases s with
  | nil => exact ⟨out, Settles.const (by simp)⟩
  | cons p rest =>
    simp only [acceptTokenStack]
    split
    next hToken =>
      split
      next =>
        obtain ⟨out', hSettles, -⟩ :=
          hSound.advanceStack (placed_behind_token hToken hPlaced) hOut
        exact ⟨out', hSettles⟩
      next => exact ⟨out, Settles.const (by simp)⟩
    next hToken =>
      obtain ⟨surviving, hSettles, -⟩ :=
        hSound.acceptAll (StacksOk.single hPlaced hFinal) codePoints
      exact ⟨_, Settles.bind_done hSettles (Settles.const (by simp))⟩

theorem acceptToken_settles (hSound : Sound rules) (hOk : StacksOk rules st.current) (id : Nat)
    (piece : List UInt8) :
    ∃ out, Settles (fun fuel => acceptToken rules fuel st id piece) (.done out) := by
  obtain ⟨out, hSettles, -⟩ := Settles.thread_done (I := StacksOk rules)
    (l := st.current) [] (by
      intro s hs out hOut
      obtain ⟨out', hStack⟩ := acceptTokenStack_settles hSound (hOk.placed s hs) (hOk.final s hs)
        id (decodeUtf8 piece st.partialUtf8).1.dropLast hOut
      obtain ⟨fuel, hAt⟩ := Settles.of_done hStack
      exact ⟨out', hStack,
        acceptTokenStack_ok (hOk.placed s hs) (hOk.final s hs) hOut hAt⟩) StacksOk.nil
  exact ⟨out, hSettles⟩

theorem acceptToken_ok {piece : List UInt8} (hOk : StacksOk rules st.current)
    (h : acceptToken rules fuel st id piece = .done out) : StacksOk rules out := by
  have hThread : thread
      (acceptTokenStack rules fuel id (decodeUtf8 piece st.partialUtf8).1.dropLast) st.current [] =
        .done out := h
  exact (thread_union (I := StacksOk rules) (D := fun out t => t ∈ out)
    (Q := Takes rules id (decodeUtf8 piece st.partialUtf8).1.dropLast) (by
      intro s hs out out' hOut hAccept
      exact ⟨acceptTokenStack_ok (hOk.placed s hs) (hOk.final s hs) hOut hAccept,
        fun t => mem_acceptTokenStack hAccept⟩) StacksOk.nil hThread).1

/-! ## The two agree -/

/-- The code points of a decoded piece end with a 0. -/
theorem decodeUtf8_terminated (src : List UInt8) (partialStart : PartialUtf8) :
    (decodeUtf8 src partialStart).1 = (decodeUtf8 src partialStart).1.dropLast ++ [0] := by
  have hLoop : ∀ fuel bytes codePoints value n, ∃ l,
      (decodeLoop fuel bytes codePoints value n).1 = l ++ [0] := by
    intro fuel
    induction fuel with
    | zero => exact fun _ codePoints _ _ => ⟨codePoints, rfl⟩
    | succ fuel ih =>
      intro bytes codePoints value n
      simp only [decodeLoop]
      split
      · exact ⟨codePoints, rfl⟩
      split
      · exact ⟨codePoints, rfl⟩
      split
      · exact ⟨[], rfl⟩
      · exact ih _ _ _ _
  have hEnds : ∃ l, (decodeUtf8 src partialStart).1 = l ++ [0] := by
    simp only [decodeUtf8]
    split
    · exact ⟨[], rfl⟩
    · exact hLoop _ _ _ _ _
  obtain ⟨l, hl⟩ := hEnds
  rw [hl, dropLast_concat]

/-- What passes goes the whole way, when no token element stands in it. -/
theorem path_of_passes (hNonzero : 0 ∉ codePoints)
    (hNone : ∀ u v t, codePoints = u ++ v → v ≠ [] → Path rules s u t → ¬TokenTop rules id t)
    (h : Passes rules partialUtf8 id (codePoints ++ [0]) s) :
    ∃ t, Path rules s codePoints t ∧ PassesEnd rules partialUtf8 t := by
  induction codePoints generalizing s with
  | nil =>
    have hEnd : PassesEnd rules partialUtf8 s := by simpa [Passes] using h
    exact ⟨s, rfl, hEnd⟩
  | cons c codePoints ih =>
    have hc : c ≠ 0 := fun hEq => hNonzero (hEq ▸ mem_cons_self)
    simp only [cons_append, Passes, if_neg hc] at h
    rcases h with hToken | ⟨m, hStep, hRest⟩
    · exact absurd hToken (hNone [] (c :: codePoints) s rfl (by simp) rfl)
    obtain ⟨t, hPath, hEnd⟩ := ih (fun hMem => hNonzero (mem_cons_of_mem _ hMem)) (by
      intro u v t hEq hNe hPath
      exact hNone (c :: u) v t (by rw [hEq, cons_append]) hNe ⟨m, hStep, hPath⟩) hRest
    exact ⟨t, ⟨m, hStep, hPath⟩, hEnd⟩

theorem passes_of_path (hWhole : partialUtf8.nRemain = 0) (h : Path rules s codePoints t) :
    Passes rules partialUtf8 id (codePoints ++ [0]) s := by
  induction codePoints generalizing s with
  | nil => simp [Passes, PassesEnd, hWhole]
  | cons c codePoints ih =>
    obtain ⟨m, hStep, hPath⟩ := h
    rw [cons_append, Passes]
    split
    · exact Or.inl hWhole
    · exact Or.inr ⟨m, hStep, ih hPath⟩

/-- A token at a state on which the filter and the acceptor decide alike. -/
structure Fits (rules : GrammarRules) (st : TokenState) (id : Nat) (piece : List UInt8) : Prop where
  /-- no code point is the terminator -/
  nonzero : 0 ∉ (decodeUtf8 piece st.partialUtf8).1.dropLast
  /-- the piece decodes to code points, or to the start of a sequence -/
  progress : (decodeUtf8 piece st.partialUtf8).1.dropLast = [] →
    (decodeUtf8 piece st.partialUtf8).2.nRemain ≠ 0
  /-- what ends on a complete code point leaves nothing pending -/
  whole : EndsComplete piece → (decodeUtf8 piece st.partialUtf8).2.nRemain = 0
  /-- no token element that matches stands in the middle of the code points -/
  noToken : ∀ s ∈ st.current, ∀ u v t, (decodeUtf8 piece st.partialUtf8).1.dropLast = u ++ v →
    u ≠ [] → v ≠ [] → Path rules s u t → ¬TokenTop rules id t

/-- What the filter lets pass, the acceptor takes. -/
theorem takes_of_passes (hSound : Sound rules) {piece : List UInt8}
    (hFits : Fits rules st id piece) (hs : s ∈ st.current) (hPlaced : Placed rules s)
    (h : Passes rules (decodeUtf8 piece st.partialUtf8).2 id (decodeUtf8 piece st.partialUtf8).1 s) :
    ∃ t, Takes rules id (decodeUtf8 piece st.partialUtf8).1.dropLast s t := by
  rw [decodeUtf8_terminated] at h
  by_cases hTop : TokenTop rules id s
  · obtain ⟨p, rest, rfl, hToken, hMatch⟩ := hTop
    obtain ⟨t, hAdvances⟩ := exists_advancesTo hSound.wellFormed (stackAcc hSound.leftAcc _)
      (placed_behind_token hToken hPlaced)
    exact ⟨t, p, rest, rfl, Or.inl ⟨hToken, hMatch, hAdvances⟩⟩
  obtain ⟨t, hPath, hEnd⟩ := path_of_passes hFits.nonzero (by
    intro u v t hEq hNe hPath
    by_cases hu : u = []
    · subst hu
      exact hPath ▸ hTop
    · exact hFits.noToken s hs u v t hEq hu hNe hPath) h
  cases hWord : (decodeUtf8 piece st.partialUtf8).1.dropLast with
  | nil =>
    -- nothing was decoded: the partial sequence passes at a class
    have hRemain := hFits.progress hWord
    rw [hWord] at hPath
    have hEq : s = t := hPath
    subst hEq
    obtain ⟨p, rest, rfl, hToken, -⟩ := hEnd.resolve_left hRemain
    exact ⟨p :: rest, p, rest, rfl, Or.inr ⟨hToken, rfl⟩⟩
  | cons c w =>
    rw [hWord] at hPath
    obtain ⟨m, hStep, hRest⟩ := hPath
    obtain ⟨p, rest, rfl, hToken, hBoth⟩ := hStep
    exact ⟨t, p, rest, rfl, Or.inr ⟨hToken, m, ⟨p, rest, rfl, hToken, hBoth⟩, hRest⟩⟩

/-- What the acceptor takes with nothing left pending, the filter lets pass. -/
theorem passes_of_takes {piece : List UInt8}
    (hWhole : (decodeUtf8 piece st.partialUtf8).2.nRemain = 0)
    (h : Takes rules id (decodeUtf8 piece st.partialUtf8).1.dropLast s t) :
    Passes rules (decodeUtf8 piece st.partialUtf8).2 id (decodeUtf8 piece st.partialUtf8).1 s := by
  rw [decodeUtf8_terminated]
  obtain ⟨p, rest, rfl, hCases⟩ := h
  rcases hCases with ⟨hToken, hMatch, -⟩ | ⟨-, hPath⟩
  · cases (decodeUtf8 piece st.partialUtf8).1.dropLast with
    | nil => simp [Passes, PassesEnd, hWhole]
    | cons c w =>
      rw [cons_append, Passes]
      split
      · exact Or.inl hWhole
      · exact Or.inl ⟨p, rest, rfl, hToken, hMatch⟩
  · exact passes_of_path hWhole hPath

/-! ## Runs -/

/-- What changes the stacks of a grammar. -/
inductive TokenOp
  | token (id : Nat) (piece : List UInt8)
  | str (piece : List UInt8)
  deriving DecidableEq, Repr

/-- `llama_grammar_accept_token` or `llama_grammar_accept_str`, with the stacks that
they leave. -/
def TokenOp.accept (rules : GrammarRules) (fuel : Nat) (st : TokenState) :
    TokenOp → WorklistResult GrammarStack
  | token id piece => acceptToken rules fuel st id piece
  | str piece => acceptAll rules fuel st.current (decodeUtf8 piece st.partialUtf8).1.dropLast

/-- The piece of an operation. -/
def TokenOp.piece : TokenOp → List UInt8
  | token _ piece => piece
  | str piece => piece

/-- The operation returns: it leaves a stack. -/
def TokenOp.Returns (rules : GrammarRules) (op : TokenOp) (st st' : TokenState) : Prop :=
  ∃ fuel out, op.accept rules fuel st = .done out ∧ out ≠ [] ∧
    st' = ⟨out, (decodeUtf8 op.piece st.partialUtf8).2⟩

/-- The state of a grammar that `llama_grammar_init_impl` has made. -/
def TokenStart (rules : GrammarRules) (start : Nat) (st : TokenState) : Prop :=
  ∃ fuel current, initialStacks rules fuel start = .done current ∧ st = ⟨current, {}⟩

/-- The states that the operations lead to. -/
abbrev TokenRun (rules : GrammarRules) (start : Nat) : TokenState → Prop :=
  Run (TokenStart rules start) (TokenOp.Returns rules) fun _ _ => True

/-- The stacks of a grammar in use: as they are built, and one at least. -/
structure TokenState.Ok (rules : GrammarRules) (st : TokenState) : Prop where
  stacksOk : StacksOk rules st.current
  nonempty : st.current ≠ []

variable {start : Nat}

theorem TokenStart.ok (hSound : Sound rules) (h : TokenStart rules start st) :
    TokenState.Ok rules st := by
  obtain ⟨fuel, current, hInit, rfl⟩ := h
  refine ⟨(initialStacks_spec hInit).1, ?_⟩
  have hThread : thread (fun pos out => advanceStack rules fuel (push rules pos []) out)
      (alternates rules start) [] = .done current := hInit
  have hMem := (thread_union (I := fun _ => True) (D := fun out t => t ∈ out)
    (Q := fun b t => AdvancesTo rules (push rules b []) t)
    (fun _ _ _ _ _ hAdvance => ⟨trivial, fun _ => mem_advanceStack hAdvance⟩) trivial hThread).2
  have hAlt : (⟨start, 0⟩ : GrammarPos) ∈ alternates rules start :=
    mem_map.mpr ⟨0, mem_cons_self, rfl⟩
  obtain ⟨t, hAdvances⟩ := exists_advancesTo hSound.wellFormed (stackAcc hSound.leftAcc _)
    (placed_alternate hAlt)
  exact ne_nil_of_mem ((hMem t).mpr (Or.inr ⟨_, hAlt, hAdvances⟩))

theorem TokenOp.Returns.ok {op : TokenOp} {st st' : TokenState} (hOk : TokenState.Ok rules st)
    (h : op.Returns rules st st') : TokenState.Ok rules st' := by
  obtain ⟨fuel, out, hAccept, hNe, rfl⟩ := h
  refine ⟨?_, hNe⟩
  cases op with
  | token id piece => exact acceptToken_ok hOk.stacksOk hAccept
  | str piece => exact (acceptAll_spec hOk.stacksOk hAccept).1

theorem TokenRun.ok (hSound : Sound rules) (h : TokenRun rules start st) : TokenState.Ok rules st :=
  Run.invariant h (fun _ hStart => hStart.ok hSound) fun _ _ _ hOk _ hStep => hStep.ok hOk

/-- The filter rejects a token or not, the acceptor leaves a stack or throws; both
come to an end. -/
def FilterAgrees (rules : GrammarRules) (st : TokenState) (index id : Nat) (piece : List UInt8)
    (candidates : List GrammarCandidate) : Prop :=
  ∃ depth rejects out,
    Settles (fun fuel => rejectCandidates rules fuel depth st.current candidates) (.done rejects) ∧
    Settles (fun fuel => acceptToken rules fuel st id piece) (.done out) ∧
    (candidateOf st index id piece ∉ rejects → out ≠ []) ∧
    (candidateOf st index id piece ∈ rejects → EndsComplete piece → out = [])

/-- **The token filter and the token acceptor.**  In every state of a run, for every
token that fits it, the acceptor leaves a stack when the filter does not reject the
token, and none when it rejects a token that ends on a complete code point. -/
theorem TokenRun.filterAgrees {source : GrammarRules} {start : Nat} {st : TokenState}
    (hSound : Sound (source.map copyRule)) (hRun : TokenRun (source.map copyRule) start st)
    {index id : Nat} {piece : List UInt8} (hFits : Fits (source.map copyRule) st id piece)
    {candidates : List GrammarCandidate} (hMem : candidateOf st index id piece ∈ candidates) :
    FilterAgrees (source.map copyRule) st index id piece candidates := by
  obtain ⟨hOk, hNe⟩ := TokenRun.ok hSound hRun
  obtain ⟨depth, rejects, hFilter⟩ := rejectCandidates_settles hSound hOk hNe candidates
  obtain ⟨out, hAccept⟩ := acceptToken_settles hSound hOk id piece
  obtain ⟨fuel, hFilterAt⟩ := Settles.of_done hFilter
  obtain ⟨fuel', hAcceptAt⟩ := Settles.of_done hAccept
  have hRejects := rejectCandidates_spec hFilterAt (candidateOf st index id piece)
  rw [and_iff_right hMem] at hRejects
  have hOut := fun t => mem_acceptToken (t := t) hAcceptAt
  refine ⟨depth, rejects, out, hFilter, hAccept, ?_, ?_⟩
  · intro hNot
    rw [hRejects] at hNot
    obtain ⟨s, hs, hPass⟩ : ∃ s ∈ st.current,
        GrammarCandidate.Passes (source.map copyRule) (candidateOf st index id piece) s := by
      by_contra hNone
      exact hNot fun s hs hPass => hNone ⟨s, hs, hPass⟩
    obtain ⟨t, hTakes⟩ := takes_of_passes hSound hFits hs (hOk.placed s hs) hPass
    exact ne_nil_of_mem ((hOut t).mpr ⟨s, hs, hTakes⟩)
  intro hReject hEnds
  rw [hRejects] at hReject
  refine eq_nil_iff_forall_not_mem.mpr ?_
  intro t ht
  obtain ⟨s, hs, hTakes⟩ := (hOut t).mp ht
  exact hReject s hs (passes_of_takes (hFits.whole hEnds) hTakes)

theorem wellFormed_of_plain {source : GrammarRules}
    (h : ∀ rule ∈ source, ∀ e ∈ rule, e.isClassPart = false) :
    WellFormed (source.map copyRule) := by
  have hPlain := elem_of_source (P := fun e => e.isClassPart = false) rfl h
  refine ⟨fun r => hPlain ⟨r, 0⟩, ?_⟩
  intro p
  have hNext := hPlain p.succ
  simp only [isClassPart, decide_eq_false_iff_not, not_or] at hNext
  exact ⟨fun hAlt => absurd hAlt hNext.1, fun hRange => absurd hRange hNext.2⟩

theorem rightRecursive_sound : Sound (rightRecursive.map copyRule) :=
  ⟨wellFormed_of_plain (by decide), rightRecursive_leftAcc⟩

theorem rightRecursive_start : TokenRun (rightRecursive.map copyRule) 0 ⟨[[⟨0, 0⟩], []], {}⟩ :=
  Run.start ⟨8, _, by decide, rfl⟩

/-- `root ::= "a" root | ""` and a token for `a`. -/
theorem rightRecursive_agrees :
    FilterAgrees (rightRecursive.map copyRule) ⟨[[⟨0, 0⟩], []], {}⟩ 0 7 [0x61]
      [candidateOf ⟨[[⟨0, 0⟩], []], {}⟩ 0 7 [0x61]] :=
  TokenRun.filterAgrees rightRecursive_sound rightRecursive_start
    { nonzero := by decide
      progress := by decide
      whole := fun _ => by decide
      noToken := by
        intro s _ u v t hEq hu hv
        have hLength := congrArg length hEq
        have hOne : (decodeUtf8 [0x61] {}).1.dropLast.length = 1 := by decide
        rw [hOne, length_append] at hLength
        have hLu := length_pos_of_ne_nil hu
        have hLv := length_pos_of_ne_nil hv
        omega }
    mem_cons_self

/-- `root ::= "a" <[5]>`: a token behind a character. -/
def tokenBehind : GrammarRules := [[⟨.char, 0x61⟩, ⟨.token, 5⟩]]

theorem tokenBehind_leftAcc :
    ∀ r < (tokenBehind.map copyRule).length, LeftAcc (tokenBehind.map copyRule) r :=
  fun r hr => leftAcc_of_terminal (by
    have hLt : r < 1 := hr
    interval_cases r
    decide)

/-- The token 5 has the piece `ab`: the filter compares its id behind the `a`, the acceptor goes on
with the `b` and throws. -/
theorem tokenBehind_throws :
    (Sound (tokenBehind.map copyRule) ∧ TokenRun (tokenBehind.map copyRule) 0 ⟨[[⟨0, 0⟩]], {}⟩) ∧
      rejectCandidates (tokenBehind.map copyRule) 8 8 [[⟨0, 0⟩]]
        [candidateOf ⟨[[⟨0, 0⟩]], {}⟩ 0 5 [0x61, 0x62]] = .done [] ∧
      acceptToken (tokenBehind.map copyRule) 8 ⟨[[⟨0, 0⟩]], {}⟩ 5 [0x61, 0x62] = .done [] :=
  ⟨⟨⟨wellFormed_of_plain (by decide), tokenBehind_leftAcc⟩, Run.start ⟨8, _, by decide, rfl⟩⟩,
    by decide, by decide⟩

end Grammar

end Beellama.Ports
