import Beellama.Ports.GrammarTrace

/-!
# How many rules a grammar can make

Every turn of a loop of the GBNF parser reads a byte, so the loop counters never run out.  A group and
a rule add one rule, and a repetition adds the difference of its bounds, in unsigned numbers of 64
bits: at most the threshold where the minimum is at most the maximum, and almost `2 ^ 64` rules where
it is above (`bounded_iff_ordered`).
-/

namespace Beellama.Ports

open Beellama.Verified List Option

variable {src : List UInt8} {b : Nat × Option Nat × List UInt8} {isNested : Bool}
  {maxTimes : Option Nat} {minTimes : Nat}

namespace GrammarParser

/-! ## What the readers consume -/

theorem parseSpaceFrom_length (newlineOk inComment : Bool) (src : List UInt8) :
    (parseSpaceFrom newlineOk inComment src).length ≤ src.length := by
  induction src generalizing inComment with
  | nil => exact Nat.le_refl _
  | cons c src ih =>
    have hSkip : ∀ b, (parseSpaceFrom newlineOk b src).length ≤ (c :: src).length := fun b =>
      Nat.le_succ_of_le (ih b)
    have hStay : (c :: src).length ≤ (c :: src).length := Nat.le_refl _
    unfold parseSpaceFrom
    repeat' split
    all_goals first | exact hSkip _ | exact hStay

theorem parseSpace_length (src : List UInt8) (newlineOk : Bool) :
    (parseSpace src newlineOk).length ≤ src.length :=
  parseSpaceFrom_length newlineOk false src

theorem dropWhile_length_lt {p : UInt8 → Bool} (h : src.takeWhile p ≠ []) :
    (src.dropWhile p).length < src.length := by
  have hSplit := congrArg length (takeWhile_append_dropWhile (p := p) (l := src))
  rw [length_append] at hSplit
  have hTaken := length_pos_iff.mpr h
  omega

theorem parseName_length {r : List UInt8 × List UInt8}
    (h : parseName src = some r) : r.2.length < src.length := by
  unfold parseName at h
  split at h
  · cases h
  rename_i hName
  cases h
  exact dropWhile_length_lt hName

variable {r : Nat × List UInt8}

theorem parseInt_length (h : parseInt src = some r) : r.2.length < src.length := by
  unfold parseInt at h
  split at h
  · cases h
  rename_i hDigits
  cases hValue : stoull (src.takeWhile isDigitChar) with
  | none => rw [hValue] at h; cases h
  | some value =>
    rw [hValue] at h
    cases h
    exact dropWhile_length_lt hDigits

theorem parseHex_length {size : Nat} {value : Nat} (h : parseHex size src value = some r) :
    r.2.length ≤ src.length := by
  induction size generalizing src value with
  | zero => cases h; exact Nat.le_refl _
  | succ size ih =>
    cases src with
    | nil => cases h
    | cons c src =>
      unfold parseHex at h
      split at h
      · exact Nat.le_succ_of_le (ih h)
      · cases h

theorem decodeFollowing_length (n : Nat) (src : List UInt8) (value : Nat) :
    (decodeFollowing n src value).2.length ≤ src.length := by
  induction n generalizing src value with
  | zero => exact Nat.le_refl _
  | succ n ih =>
    cases src with
    | nil => exact Nat.le_refl _
    | cons c src => exact Nat.le_succ_of_le (ih src _)

theorem parseChar_length (h : parseChar src = some r) : r.2.length < src.length := by
  cases src with
  | nil => cases h
  | cons c src =>
    unfold parseChar at h
    simp only at h
    by_cases hEscape : c = '\\'.toUInt8
    · rw [if_pos hEscape] at h
      cases src with
      | nil => cases h
      | cons e src =>
        have hHex : ∀ size, parseHex size src 0 = some r → r.2.length < (c :: e :: src).length :=
          fun size hRead => Nat.lt_succ_of_le (Nat.le_succ_of_le (parseHex_length hRead))
        have hTwo : ∀ n, some (n, src) = some r → r.2.length < (c :: e :: src).length := by
          intro n hRead
          cases hRead
          exact Nat.lt_succ_of_lt (Nat.lt_succ_self _)
        simp only at h
        repeat' split at h
        all_goals first | exact hHex _ h | exact hTwo _ h | cases h
    rw [if_neg hEscape] at h
    cases h
    exact Nat.lt_succ_of_le (decodeFollowing_length _ _ _)

theorem parseToken_length {vocab : Option (List UInt8 → List Nat)}
    (h : parseToken vocab src = some r) : r.2.length < src.length := by
  cases src with
  | nil => cases h
  | cons c rest =>
    unfold parseToken at h
    simp only at h
    split at h
    · cases h
    split at h
    · cases hId : parseInt rest.tail with
      | none => rw [hId] at h; cases h
      | some n =>
        rw [hId] at h
        simp only [bind_eq_bind, bind_some] at h
        split at h
        · cases h
          have hRead := parseInt_length hId
          have hTail := length_tail (l := rest)
          show (n.2.drop 2).length < rest.length + 1
          rw [length_drop]
          omega
        · cases h
    cases vocab with
    | none => cases h
    | some tokenize =>
      simp only at h
      split at h
      · cases h
      split at h
      · cases h
        rw [length_drop, length_cons]
        omega
      · cases h

theorem closingBrace_length (h : (match src with
      | [] => none
      | c :: src =>
        if c = '}'.toUInt8 then some (minTimes, maxTimes, parseSpace src isNested) else none) =
      some b) : b.2.2.length ≤ src.length := by
  cases src with
  | nil => cases h
  | cons c src =>
    simp only at h
    split at h
    · cases h
      exact Nat.le_succ_of_le (parseSpace_length src isNested)
    · cases h

theorem parseBounds_length (h : parseBounds src isNested = some b) : b.2.2.length ≤ src.length := by
  unfold parseBounds at h
  cases hMin : parseInt src with
  | none => rw [hMin] at h; cases h
  | some m =>
    rw [hMin] at h
    simp only [bind_eq_bind, bind_some] at h
    have hRead := parseInt_length hMin
    have hSpace := parseSpace_length m.2 isNested
    cases hRest : parseSpace m.2 isNested with
    | nil => rw [hRest] at h; cases h
    | cons c rest =>
      rw [hRest] at h hSpace
      rw [length_cons] at hSpace
      simp only at h
      split at h
      · cases h
        have hEnd := parseSpace_length rest isNested
        show (parseSpace rest isNested).length ≤ src.length
        omega
      split at h
      · have hComma := parseSpace_length rest isNested
        split at h
        · cases hMax : parseInt (parseSpace rest isNested) with
          | none => rw [hMax] at h; cases h
          | some n =>
            rw [hMax] at h
            simp only [map_some, bind_some] at h
            have hMore := parseInt_length hMax
            have hLast := parseSpace_length n.2 isNested
            have hClose := closingBrace_length h
            omega
        · have hClose := closingBrace_length h
          omega
      · cases h

end GrammarParser

/-! ## What an expansion adds -/

/-- The minimum of the repetition is at most its maximum. -/
def Expansion.Ordered (e : Expansion) : Prop := ∀ n ∈ e.maxTimes, e.minTimes ≤ n

/-- The bounds have passed the tests of `parse_sequence`, and the loop has added as many rules as
it counts. -/
structure Expansion.Counted (e : Expansion) : Prop where
  added : e.added = GrammarParser.optionalTimes e.minTimes e.maxTimes
  minTimes : e.minTimes ≤ GrammarParser.maxRepetitionThreshold
  maxTimes : ∀ n ∈ e.maxTimes, n ≤ GrammarParser.maxRepetitionThreshold

/-- A difference that does not wrap is within the threshold, one that wraps is far above it. -/
theorem Expansion.Counted.added_le_iff {e : Expansion} (h : e.Counted) :
    e.added ≤ GrammarParser.maxRepetitionThreshold ↔ e.Ordered := by
  obtain ⟨minTimes, maxTimes, added⟩ := e
  have hAdded : added = GrammarParser.optionalTimes minTimes maxTimes := h.added
  have hMin : minTimes ≤ 2000 := h.minTimes
  have hMax := h.maxTimes
  subst hAdded
  cases maxTimes with
  | none => exact ⟨fun _ _ hMem => (not_mem_none _ hMem).elim,
      fun _ => show 1 ≤ 2000 by omega⟩
  | some n =>
    have hN : n ≤ 2000 := hMax n rfl
    show (n + 2 ^ 64 - minTimes) % 2 ^ 64 ≤ 2000 ↔ ∀ k ∈ some n, minTimes ≤ k
    constructor
    · intro hLe k hK
      cases hK
      omega
    intro hOrdered
    have hLe := hOrdered n rfl
    omega

/-- From one state of the parser to another `n` bytes later: the repetitions expanded, and the rules
added where their bounds are in order. -/
def Grows (t t' : ParseTrace) (n : Nat) : Prop :=
  ∃ new, t'.expansions = t.expansions ++ new ∧ (∀ e ∈ new, e.Counted) ∧
    ((∀ e ∈ new, e.Ordered) → t'.added ≤ t.added + GrammarParser.maxRepetitionThreshold * n)

/-- The rules added, paid for by the bytes read. -/
def growth : Meter ParseTrace where
  Cost := Grows
  refl t := ⟨[], (List.append_nil _).symm, fun _ h => (List.not_mem_nil h).elim, fun _ => by omega⟩
  trans := by
    rintro t t' t'' m n ⟨first, hFirst, hCounted, hAdded⟩ ⟨second, hSecond, hCounted', hAdded'⟩
    refine ⟨first ++ second, by rw [hSecond, hFirst, List.append_assoc], ?_, fun hOrdered => ?_⟩
    · intro e he
      exact (List.mem_append.mp he).elim (hCounted e) (hCounted' e)
    have hOne := hAdded fun e he => hOrdered e (List.mem_append_left _ he)
    have hTwo := hAdded' fun e he => hOrdered e (List.mem_append_right _ he)
    rw [Nat.mul_add]
    omega
  mono := by
    rintro t t' m n ⟨new, hNew, hCounted, hAdded⟩ hLe
    refine ⟨new, hNew, hCounted, fun hOrdered => Nat.le_trans (hAdded hOrdered) ?_⟩
    exact Nat.add_le_add_left (Nat.mul_le_mul_left _ hLe) _

namespace GrammarTrace

open GrammarParser

/-- The method reads from `avail` bytes down to `left`, throws only what the source does, and adds
no more rules than what it has read allows. -/
abbrev Consumes {α : Type} (avail : Nat) (x : TraceM α) (left : α → Nat) (Q : α → Prop) : Prop :=
  Pays growth (· = ParseStop.thrown) avail x left Q

theorem orThrow_consumes {α : Type} {avail : Nat} {o : Option α} {left : α → Nat} {Q : α → Prop}
    (h : ∀ a, o = some a → left a ≤ avail ∧ Q a) : Consumes avail (orThrow o) left Q := by
  cases o with
  | none => exact Pays.throw rfl
  | some a => exact Pays.pure (h a rfl).2 (h a rfl).1

theorem get_consumes (avail : Nat) :
    Consumes avail (get : TraceM ParseTrace) (fun _ => avail) fun _ => True :=
  Pays.spend (n := 0) (fun t t' _ h => by
    cases h
    exact growth.refl t) fun t => ⟨_, _, rfl⟩

theorem getSymbolId_consumes (avail : Nat) (name : List UInt8) :
    Consumes avail (getSymbolId name) (fun _ => avail) fun _ => True :=
  Pays.spend (n := 0) (fun t t' _ h => by
    cases h
    exact growth.refl t) fun t => ⟨_, _, rfl⟩

theorem generateSymbolId_consumes (avail : Nat) (baseName : List UInt8) :
    Consumes avail (generateSymbolId baseName) (fun _ => avail) fun _ => True :=
  Pays.spend (n := 0) (fun t t' _ h => by
    cases h
    exact growth.refl t) fun t => ⟨_, _, rfl⟩

theorem addRule_consumes (avail ruleId : Nat) (rule : GrammarRule) :
    Consumes (avail + 1) (addRule ruleId rule) (fun _ => avail) fun _ => True := by
  apply Pays.spend
  · intro t t' _ h
    cases h
    refine ⟨[], (append_nil _).symm, fun _ h => (not_mem_nil h).elim, fun _ => ?_⟩
    show t.added + 1 ≤ t.added + 2000 * 1
    omega
  · intro t
    exact ⟨_, _, rfl⟩

theorem addRepeats_run (ruleName : List UInt8) (prevRule : GrammarRule) (noMax : Bool) (n : Nat) :
    ∀ (i : Nat) (last : Option Nat) (t : ParseTrace),
      ∃ r t', addRepeats ruleName prevRule noMax n i last t = .ok r t' ∧
        t'.added = t.added + n ∧ t'.expansions = t.expansions := by
  induction n with
  | zero => intro i last t; exact ⟨last, t, rfl, rfl, rfl⟩
  | succ n ih =>
    intro i last t
    obtain ⟨r, t', hRun, hAdded, hExpansions⟩ := ih (i + 1)
      (some (t.parser.generateSymbolId ruleName).1) _
    refine ⟨r, t', hRun, ?_, hExpansions⟩
    rw [hAdded]
    show t.added + 1 + n = t.added + (n + 1)
    omega

theorem handleRepetitions_run (ruleName : List UInt8) {s : SequenceState}
    (hStart : s.lastSymStart ≠ s.rule.length)
    (hTotal : s.nPrevRules * totalRules minTimes maxTimes < maxRepetitionThreshold)
    (t : ParseTrace) :
    ∃ s' t', handleRepetitions ruleName minTimes maxTimes s t = .ok s' t' ∧
      t'.added = t.added + optionalTimes minTimes maxTimes ∧
      t'.expansions =
        t.expansions ++ [⟨minTimes, maxTimes, optionalTimes minTimes maxTimes⟩] := by
  unfold handleRepetitions
  rw [if_neg hStart, if_neg (Nat.not_le.mpr hTotal)]
  obtain ⟨r, t', hRun, hAdded, hExpansions⟩ := addRepeats_run ruleName
    (s.rule.drop s.lastSymStart) maxTimes.isNone (optionalTimes minTimes maxTimes) 0 none t
  rw [run_bind (run_get t), run_bind hRun]
  refine ⟨_, _, rfl, hAdded, ?_⟩
  show t'.expansions ++ [⟨minTimes, maxTimes, t'.added - t.added⟩] = _
  rw [hExpansions, hAdded, Nat.add_sub_cancel_left]

theorem handleRepetitions_consumes {avail : Nat} (ruleName : List UInt8) (s : SequenceState)
    (hMin : minTimes ≤ maxRepetitionThreshold)
    (hMax : ∀ n ∈ maxTimes, n ≤ maxRepetitionThreshold) :
    Consumes (avail + 1) (handleRepetitions ruleName minTimes maxTimes s) (fun _ => avail)
      fun _ => True := by
  by_cases hStart : s.lastSymStart = s.rule.length
  · unfold handleRepetitions
    rw [if_pos hStart]
    exact Pays.throw rfl
  by_cases hTotal : maxRepetitionThreshold ≤ s.nPrevRules * totalRules minTimes maxTimes
  · unfold handleRepetitions
    rw [if_neg hStart, if_pos hTotal]
    exact Pays.throw rfl
  intro t
  obtain ⟨s', t', hRun, hAdded, hExpansions⟩ := handleRepetitions_run ruleName hStart
    (Nat.not_le.mp hTotal) t
  rw [hRun]
  refine ⟨trivial, Nat.le_succ _, ?_⟩
  have hCounted : Expansion.Counted ⟨minTimes, maxTimes, optionalTimes minTimes maxTimes⟩ :=
    ⟨rfl, hMin, hMax⟩
  refine ⟨_, hExpansions, ?_, fun hOrdered => ?_⟩
  · intro e he
    rw [mem_singleton.mp he]
    exact hCounted
  have hLe : optionalTimes minTimes maxTimes ≤ 2000 :=
    hCounted.added_le_iff.mpr (hOrdered _ (mem_singleton.mpr rfl))
  show t'.added ≤ t.added + 2000 * (avail + 1 - avail)
  omega

/-! ## What the methods consume -/

theorem literalLoop_consumes (n : Nat) : ∀ (src : List UInt8) (rule : GrammarRule),
    src.length < n → Consumes src.length (literalLoop n src rule) (fun r => r.2.length)
      fun _ => True := by
  induction n with
  | zero => intro src rule h; omega
  | succ n ih =>
    intro src rule hFuel
    cases src with
    | nil => exact Pays.throw rfl
    | cons c src =>
      rw [length_cons] at hFuel
      apply Pays.ite
      · intro _
        exact Pays.pure trivial (Nat.le_succ _)
      intro _
      apply Pays.bind (orThrow_consumes fun r hRead =>
        ⟨Nat.le_of_lt (parseChar_length hRead), parseChar_length hRead⟩)
      intro r hLt _
      rw [length_cons] at hLt
      exact ih r.2 _ (by omega)

theorem classLoop_consumes (startType : Gretype) (start n : Nat) :
    ∀ (src : List UInt8) (rule : GrammarRule), src.length < n →
      Consumes src.length (classLoop startType start n src rule) (fun r => r.2.length)
        fun _ => True := by
  induction n with
  | zero => intro src rule h; omega
  | succ n ih =>
    intro src rule hFuel
    cases src with
    | nil => exact Pays.throw rfl
    | cons c src =>
      rw [length_cons] at hFuel
      apply Pays.ite
      · intro _
        exact Pays.pure trivial (Nat.le_succ _)
      intro _
      apply Pays.bind (orThrow_consumes fun r hRead =>
        ⟨Nat.le_of_lt (parseChar_length hRead), parseChar_length hRead⟩)
      intro r hLt _
      rw [length_cons] at hLt
      apply Pays.ite
      · intro _
        have hTail := length_tail (l := r.2)
        have hRange : Consumes r.2.length (orThrow (parseChar r.2.tail)) (fun e => e.2.length)
            fun e => e.2.length ≤ r.2.length := orThrow_consumes fun e hRead => by
          have hLess := parseChar_length hRead
          omega
        apply Pays.bind hRange
        intro e hLe _
        exact ih e.2 _ (by omega)
      · intro _
        exact ih r.2 _ (by omega)

/-- A parse of alternates that, on texts shorter than `depth`, adds its rule for one more byte than
it reads. -/
def ConsumesTo (depth : Nat) (x : ParseAlternates) : Prop :=
  ∀ src ruleName ruleId isNested, src.length < depth →
    Consumes (src.length + 1) (x src ruleName ruleId isNested) List.length fun _ => True

section Sequences

variable {vocab : Option (List UInt8 → List Nat)} {depth : Nat} {x : ParseAlternates}
  (hAlternates : ConsumesTo depth x) (ruleName : List UInt8) (isNested : Bool)

/-- The bytes left by a turn of the loop, which ends where it stands. -/
def leftBy (len : Nat) : Option (List UInt8 × SequenceState) → Nat
  | none => len
  | some next => next.1.length

theorem operator_consumes {len minTimes : Nat} (s : SequenceState)
    (hLen : src.length ≤ len) (hMin : minTimes ≤ maxRepetitionThreshold)
    (hMax : ∀ n ∈ maxTimes, n ≤ maxRepetitionThreshold) :
    Consumes (len + 1)
      (handleRepetitions ruleName minTimes maxTimes s >>= fun s => pure (some (src, s)))
      (leftBy (len + 1)) fun r => leftBy 0 r ≤ len := by
  apply Pays.bind (handleRepetitions_consumes ruleName s hMin hMax)
  intro s' _ _
  exact Pays.pure hLen hLen

include hAlternates

theorem sequenceStep_consumes (c : UInt8) (src : List UInt8) (s : SequenceState)
    (hDepth : src.length < depth) :
    Consumes (src.length + 1) (sequenceStep vocab x ruleName isNested c src s)
      (leftBy (src.length + 1)) fun r => leftBy 0 r ≤ src.length := by
  have hSpace := parseSpace_length src isNested
  have hDone : ∀ {len : Nat} {rest : List UInt8} (s : SequenceState), rest.length ≤ src.length →
      rest.length ≤ len →
      Consumes len (pure (some (parseSpace rest isNested, s)) : TraceM _) (leftBy (src.length + 1))
        fun r => leftBy 0 r ≤ src.length := by
    intro len rest s hRest hLen
    have hRead := parseSpace_length rest isNested
    exact Pays.pure (Nat.le_trans hRead hRest) (Nat.le_trans hRead hLen)
  apply Pays.ite
  · intro _
    apply Pays.bind ((literalLoop_consumes _ src s.rule (Nat.lt_succ_self _)).frame 1)
    intro r _ hLe
    exact hDone _ (Nat.le_of_succ_le_succ hLe) (Nat.le_succ _)
  intro _
  apply Pays.ite
  · intro _
    have hClass : ∀ (startType : Gretype) (rest : List UInt8), rest.length ≤ src.length →
        Consumes (src.length + 1)
          (classLoop startType s.rule.length (rest.length + 1) rest s.rule >>= fun r =>
            pure (some (parseSpace r.2 isNested, s.begin r.1))) (leftBy (src.length + 1))
          fun r => leftBy 0 r ≤ src.length := by
      intro startType rest hRest
      have hLoop := classLoop_consumes startType s.rule.length _ rest s.rule (Nat.lt_succ_self _)
      apply Pays.bind (hLoop.within.imp (Nat.le_succ_of_le hRest) (fun _ _ => Nat.le_refl _)
        fun _ h => h)
      intro r hLe _
      exact hDone _ (Nat.le_trans hLe hRest) (Nat.le_refl _)
    split
    · exact hClass .charNot src.tail (by rw [length_tail]; omega)
    · exact hClass .char src (Nat.le_refl _)
  intro _
  apply Pays.ite
  · intro _
    have hToken : Consumes (src.length + 1)
        (orThrow (parseToken vocab (if c = '!'.toUInt8 then src else c :: src)))
        (fun r => r.2.length) fun r => r.2.length ≤ src.length := by
      apply orThrow_consumes
      intro r hRead
      have hLess := parseToken_length hRead
      split at hLess
      · omega
      · rw [length_cons] at hLess
        omega
    apply Pays.bind hToken
    intro r hLe _
    exact hDone _ hLe (Nat.le_refl _)
  intro _
  apply Pays.ite
  · intro _
    have hName : Consumes (src.length + 1) (orThrow (parseName (c :: src)))
        (fun r => r.2.length) fun r => r.2.length ≤ src.length := by
      apply orThrow_consumes
      intro r hRead
      have hLess := parseName_length hRead
      rw [length_cons] at hLess
      omega
    apply Pays.bind hName
    intro r hLe _
    apply Pays.bind (getSymbolId_consumes _ r.1)
    intro id _ _
    exact hDone _ hLe (Nat.le_refl _)
  intro _
  apply Pays.ite
  · intro _
    have hInner := parseSpace_length src true
    apply Pays.bind (get_consumes _)
    intro before _ _
    apply Pays.bind (generateSymbolId_consumes _ ruleName)
    intro subRuleId _ _
    apply Pays.bind ((hAlternates (parseSpace src true) ruleName subRuleId true (by omega)).imp
      (Nat.succ_le_succ hInner) (fun _ _ => Nat.le_refl _) fun _ h => h)
    intro rest _ hRest
    apply Pays.bind (get_consumes _)
    intro after _ _
    cases rest with
    | nil => exact Pays.throw rfl
    | cons c rest =>
      apply Pays.ite
      · intro _
        exact hDone _ (Nat.le_of_succ_le_succ hRest) (Nat.le_succ _)
      · intro _
        exact Pays.throw rfl
  intro _
  apply Pays.ite
  · intro _
    exact hDone _ (Nat.le_refl _) (Nat.le_succ _)
  intro _
  apply Pays.ite
  · intro _
    exact operator_consumes ruleName s hSpace (by decide) fun _ h => (not_mem_none _ h).elim
  intro _
  apply Pays.ite
  · intro _
    exact operator_consumes ruleName s hSpace (by decide) fun _ h => (not_mem_none _ h).elim
  intro _
  apply Pays.ite
  · intro _
    exact operator_consumes ruleName s hSpace (by decide) fun _ h => by cases h; decide
  intro _
  apply Pays.ite
  · intro _
    have hBounds : Consumes (src.length + 1)
        (orThrow (parseBounds (parseSpace src isNested) isNested)) (fun _ => src.length + 1)
        fun b => b.2.2.length ≤ src.length := by
      apply orThrow_consumes
      intro b hRead
      exact ⟨Nat.le_refl _, Nat.le_trans (parseBounds_length hRead) hSpace⟩
    apply Pays.bind hBounds
    intro b hLe _
    apply Pays.ite
    · intro _
      exact Pays.throw rfl
    intro hMin
    apply operator_consumes ruleName s hLe (Nat.not_lt.mp hMin)
    intro n hMem
    rw [mem_def, filter_eq_some_iff] at hMem
    exact of_decide_eq_true hMem.2
  intro _
  exact Pays.pure (Nat.zero_le _) (Nat.le_refl _)

theorem sequenceLoop_consumes (n : Nat) : ∀ (src : List UInt8) (s : SequenceState),
    src.length < n → src.length ≤ depth →
    Consumes src.length (sequenceLoop vocab x ruleName isNested n src s) (fun r => r.1.length)
      fun _ => True := by
  induction n with
  | zero => intro src s h; omega
  | succ n ih =>
    intro src s hFuel hDepth
    cases src with
    | nil => exact Pays.pure trivial (Nat.le_refl _)
    | cons c src =>
      rw [length_cons] at hFuel hDepth ⊢
      apply Pays.bind (sequenceStep_consumes hAlternates ruleName isNested c src s hDepth)
      intro r hRead hLeft
      cases r with
      | none => exact Pays.pure trivial (Nat.le_refl _)
      | some next =>
        have hNext : next.1.length ≤ src.length := hRead
        exact ih next.1 next.2 (by omega) (by omega)

theorem parseSequence_consumes (src : List UInt8) (rule : GrammarRule)
    (hDepth : src.length ≤ depth) :
    Consumes src.length (parseSequence vocab x src ruleName rule isNested) (fun r => r.1.length)
      fun _ => True :=
  sequenceLoop_consumes hAlternates ruleName isNested _ src _ (Nat.lt_succ_self _) hDepth

theorem alternatesLoop_consumes (n : Nat) : ∀ (src : List UInt8) (rule : GrammarRule),
    src.length < n → src.length ≤ depth →
    Consumes src.length (alternatesLoop vocab x ruleName isNested n src rule)
      (fun r => r.1.length) fun _ => True := by
  induction n with
  | zero => intro src rule h; omega
  | succ n ih =>
    intro src rule hFuel hDepth
    apply Pays.ite
    · intro hBar
      have hTail : src.tail.length < src.length := by
        cases src with
        | nil => cases hBar
        | cons c src => exact Nat.lt_succ_self _
      have hSpace := parseSpace_length src.tail true
      have hSequence := @parseSequence_consumes vocab depth x hAlternates ruleName isNested
        (parseSpace src.tail true) (rule ++ [⟨.alt, 0⟩]) (by omega)
      apply Pays.bind (hSequence.within.imp (by omega) (fun _ _ => Nat.le_refl _) fun _ h => h)
      intro r hRead _
      exact ih r.1 r.2 (by omega) (by omega)
    · intro _
      exact Pays.pure trivial (Nat.le_refl _)

end Sequences

section

variable (vocab : Option (List UInt8 → List Nat))

include vocab

theorem parseAlternates_consumes (depth : Nat) :
    ConsumesTo depth (parseAlternates vocab depth) := by
  induction depth with
  | zero => intro src ruleName ruleId isNested h; omega
  | succ depth ih =>
    intro src ruleName ruleId isNested hDepth
    have hFirst := @parseSequence_consumes vocab depth _ ih ruleName isNested src []
      (Nat.le_of_lt_succ hDepth)
    apply Pays.bind (hFirst.within.frame 1)
    intro first hRead _
    have hRest := @alternatesLoop_consumes vocab depth _ ih ruleName isNested (src.length + 1)
      first.1 first.2 (by omega) (by omega)
    apply Pays.bind (hRest.frame 1)
    intro r _ _
    apply Pays.bind (addRule_consumes _ ruleId _)
    intro _ _ _
    exact Pays.pure trivial (Nat.le_refl _)

theorem parseRule_consumes (src : List UInt8) :
    Consumes src.length (parseRule vocab src) length fun rest => rest.length < src.length := by
  have hName : Consumes src.length (orThrow (parseName src)) (fun _ => src.length)
      fun n => n.2.length < src.length :=
    orThrow_consumes fun n hRead => ⟨Nat.le_refl _, parseName_length hRead⟩
  apply Pays.bind hName
  intro n hLess _
  apply Pays.bind (getSymbolId_consumes _ n.1)
  intro ruleId _ _
  apply Pays.ite
  · intro hDefines
    have hLong : (bytes "::=").length ≤ (parseSpace n.2 false).length := by
      rw [← hDefines]
      exact length_take_le' _ _
    have hThree : (bytes "::=").length = 3 := rfl
    have hSpace := parseSpace_length n.2 false
    have hBody := parseSpace_length ((parseSpace n.2 false).drop 3) true
    rw [length_drop] at hBody
    have hRules := parseAlternates_consumes vocab _ (parseSpace ((parseSpace n.2 false).drop 3) true)
      n.1 ruleId false (Nat.lt_succ_self _)
    apply Pays.bind (hRules.within.imp (by omega) (fun _ _ => Nat.le_refl _) fun _ h => h)
    intro rest hRead _
    have hDone : ∀ next : List UInt8, next.length ≤ rest.length →
        Consumes rest.length (pure (parseSpace next true) : TraceM _) length
          fun rest => rest.length < src.length := by
      intro next hNext
      have hEnd := parseSpace_length next true
      exact Pays.pure (by omega) (by omega)
    cases rest with
    | nil => exact Pays.pure (by rw [length_nil]; omega) (Nat.le_refl _)
    | cons c rest =>
      apply Pays.ite
      · intro _
        apply hDone
        split
        · rw [length_tail, length_cons]
          omega
        · exact Nat.le_succ _
      intro _
      apply Pays.ite
      · intro _
        exact hDone rest (Nat.le_succ _)
      · intro _
        exact Pays.throw rfl
  · intro _
    exact Pays.throw rfl

theorem parseRules_consumes (n : Nat) :
    ∀ src : List UInt8, src.length < n →
      Consumes src.length (parseRules vocab n src) (fun _ => 0) fun _ => True := by
  induction n with
  | zero => intro src h; omega
  | succ n ih =>
    intro src hFuel
    apply Pays.ite
    · intro _
      exact Pays.pure trivial (Nat.zero_le _)
    intro _
    apply Pays.bind (parseRule_consumes vocab src)
    intro rest hLess _
    exact ih rest (by omega)

theorem parse_consumes (text : List UInt8) :
    Consumes (text.takeWhile (· ≠ 0)).length (parse vocab text) (fun _ => 0) fun _ => True := by
  have hSpace := parseSpace_length (text.takeWhile (· ≠ 0)) true
  apply Pays.bind ((parseRules_consumes vocab _ _ (Nat.lt_succ_self _)).imp hSpace
    (fun _ _ => Nat.le_refl _) fun _ h => h)
  intro _ _ _
  apply Pays.bind (get_consumes _)
  intro t _ _
  apply Pays.ite
  · intro _
    exact Pays.pure trivial (Nat.le_refl _)
  · intro _
    exact Pays.throw rfl

/-! ## Bounded parses -/

/-- The state in which a parse stops, with a result or without one. -/
def stopped {α : Type} : EStateM.Result ParseStop ParseTrace α → ParseTrace
  | .ok _ t => t
  | .error _ t => t

/-- The parse stops by itself, and no repetition, and not all rules together for each byte, are
above the threshold. -/
def Bounded (vocab : Option (List UInt8 → List Nat)) (text : List UInt8) : Prop :=
  (∀ t, parse vocab text {} ≠ .error .exhausted t) ∧
    (∀ e ∈ (stopped (parse vocab text {})).expansions, e.added ≤ maxRepetitionThreshold) ∧
    (stopped (parse vocab text {})).added ≤
      maxRepetitionThreshold * (text.takeWhile (· ≠ 0)).length

theorem parse_grows (text : List UInt8) :
    (∀ t, parse vocab text {} ≠ .error .exhausted t) ∧
      Grows {} (stopped (parse vocab text {})) (text.takeWhile (· ≠ 0)).length := by
  have hRun := parse_consumes vocab text {}
  cases hCase : parse vocab text {} with
  | error e t =>
    rw [hCase] at hRun
    refine ⟨fun t' h => ?_, hRun.2⟩
    cases h
    exact ParseStop.noConfusion hRun.1
  | ok a t =>
    rw [hCase] at hRun
    exact ⟨fun t' h => (by cases h), hRun.2.2⟩

end

/-- A parse is bounded exactly when every repetition that it expands has its bounds in order. -/
theorem bounded_iff_ordered (vocab : Option (List UInt8 → List Nat)) (text : List UInt8) :
    Bounded vocab text ↔
      ∀ e ∈ (stopped (parse vocab text {})).expansions, e.Ordered := by
  obtain ⟨hStops, new, hNew, hCounted, hAdded⟩ := parse_grows vocab text
  have hAll : (stopped (parse vocab text {})).expansions = new := hNew
  constructor
  · intro hBounded e he
    exact (hCounted e (hAll ▸ he)).added_le_iff.mp (hBounded.2.1 e he)
  intro hOrdered
  refine ⟨hStops, fun e he => (hCounted e (hAll ▸ he)).added_le_iff.mpr (hOrdered e he), ?_⟩
  have hTotal := hAdded fun e he => hOrdered e (hAll.symm ▸ he)
  rw [Nat.zero_add] at hTotal
  exact hTotal

/-- `root ::= "a"{2,1}` -/
def reversedBounds : List UInt8 := bytes "root ::= \"a\"\x7b2,1\x7d"

/-- The state of `parse_sequence` behind the literal of `reversedBounds`. -/
def behindLiteral : SequenceState := ⟨[⟨.char, 0x61⟩], 0, 1⟩

theorem sequenceStep_braces {vocab : Option (List UInt8 → List Nat)} {x : ParseAlternates}
    {ruleName src : List UInt8} {s s' : SequenceState} {t t' : ParseTrace}
    (hBounds : parseBounds (parseSpace src isNested) isNested = some b)
    (hMin : ¬ maxRepetitionThreshold < b.1) (hRun : handleRepetitions ruleName b.1
      (b.2.1.filter fun n => decide (n ≤ maxRepetitionThreshold)) s t = .ok s' t') :
    sequenceStep vocab x ruleName isNested '{'.toUInt8 src s t = .ok (some (b.2.2, s')) t' := by
  unfold sequenceStep
  rw [if_neg (by decide), if_neg (by decide), if_neg (by decide), if_neg (by decide),
    if_neg (by decide), if_neg (by decide), if_neg (by decide), if_neg (by decide),
    if_neg (by decide), if_pos rfl, hBounds]
  simp only [orThrow, bind, EStateM.bind, pure, EStateM.pure, hMin, if_false, hRun]

theorem sequenceLoop_next {vocab : Option (List UInt8 → List Nat)} {x : ParseAlternates}
    {ruleName : List UInt8} {c : UInt8} {s : SequenceState}
    {t t' : ParseTrace} {next : List UInt8 × SequenceState}
    (h : sequenceStep vocab x ruleName isNested c src s t = .ok (some next) t') (n : Nat) :
    sequenceLoop vocab x ruleName isNested (n + 1) (c :: src) s t =
      sequenceLoop vocab x ruleName isNested n next.1 next.2 t' := by
  conv_lhs => unfold sequenceLoop
  simp only [bind, EStateM.bind, h]

theorem reversedBounds_sequence (x : ParseAlternates) (ruleName : List UInt8) (t : ParseTrace) :
    ∃ rule t', parseSequence none x (bytes "\"a\"\x7b2,1\x7d") ruleName [] false t =
        .ok ([], rule) t' ∧ t'.expansions = t.expansions ++ [⟨2, some 1, 2 ^ 64 - 1⟩] := by
  obtain ⟨s', t', hRun, -, hExpansions⟩ :
      ∃ s' t', handleRepetitions ruleName 2 (some 1) behindLiteral t = .ok s' t' ∧ _ ∧ _ :=
    handleRepetitions_run ruleName (by decide) (by decide) t
  have hLiteral : sequenceStep none x ruleName false '"'.toUInt8 (bytes "a\"\x7b2,1\x7d")
      ⟨[], 0, 1⟩ t = .ok (some (bytes "\x7b2,1\x7d", behindLiteral)) t := rfl
  have hBrace : sequenceStep none x ruleName false '{'.toUInt8 (bytes "2,1\x7d") behindLiteral t =
      .ok (some ([], s')) t' :=
    sequenceStep_braces (b := (2, some 1, [])) rfl (by decide) hRun
  refine ⟨s'.rule, t', ?_, hExpansions⟩
  have hFirst : bytes "\"a\"\x7b2,1\x7d" = '"'.toUInt8 :: bytes "a\"\x7b2,1\x7d" := rfl
  have hSecond : bytes "\x7b2,1\x7d" = '{'.toUInt8 :: bytes "2,1\x7d" := rfl
  have hLength : (bytes "a\"\x7b2,1\x7d").length = 7 := rfl
  unfold parseSequence
  rw [hFirst, length_cons, length_nil, sequenceLoop_next hLiteral]
  rw [hSecond, sequenceLoop_next hBrace]
  rfl

theorem parseAlternates_single {vocab : Option (List UInt8 → List Nat)} {depth ruleId : Nat}
    {src ruleName : List UInt8} {rule : GrammarRule} {t t' : ParseTrace}
    (h : parseSequence vocab (parseAlternates vocab depth) src ruleName [] isNested t =
      .ok ([], rule) t') :
    parseAlternates vocab (depth + 1) src ruleName ruleId isNested t =
      .ok [] { t' with
        parser := t'.parser.addRule ruleId (rule ++ [⟨.endOfRule, 0⟩]), added := t'.added + 1 } := by
  conv_lhs => unfold parseAlternates
  simp only [bind, EStateM.bind, h]
  rfl

theorem parseRule_single {vocab : Option (List UInt8 → List Nat)} {src name rest : List UInt8}
    {t t' : ParseTrace} (hName : parseName src = some (name, rest))
    (hDefines : (parseSpace rest false).take 3 = bytes "::=")
    (hRun : parseAlternates vocab ((parseSpace ((parseSpace rest false).drop 3) true).length + 1)
        (parseSpace ((parseSpace rest false).drop 3) true) name (t.parser.getSymbolId name).1 false
        { t with parser := (t.parser.getSymbolId name).2 } = .ok [] t') :
    parseRule vocab src t = .ok [] t' := by
  unfold parseRule
  rw [hName]
  simp only [orThrow, bind, EStateM.bind, pure, EStateM.pure, getSymbolId, hDefines, if_true, hRun]

theorem parse_single {vocab : Option (List UInt8 → List Nat)} {text src : List UInt8}
    {t : ParseTrace} (hSrc : parseSpace (text.takeWhile (· ≠ 0)) true = src) (hText : src ≠ [])
    (hRun : parseRule vocab src {} = .ok [] t) : stopped (parse vocab text {}) = t := by
  obtain ⟨n, hN⟩ : ∃ n, src.length = n + 1 :=
    Nat.exists_eq_succ_of_ne_zero (mt length_eq_zero_iff.mp hText)
  have hRules : parseRules vocab (src.length + 1) src {} = .ok () t := by
    rw [hN]
    conv_lhs => unfold parseRules
    rw [if_neg hText]
    simp only [bind, EStateM.bind, hRun]
    rfl
  unfold parse
  rw [hSrc]
  rw [run_bind hRules, run_bind (run_get t)]
  split
  · rfl
  · rfl

/-- The difference of the bounds `{2,1}` is `2 ^ 64 - 1`, and the loop would add as many rules. -/
theorem reversedBounds_not_bounded : ¬ Bounded none reversedBounds := by
  obtain ⟨rule, t, hRun, hExpansions⟩ := reversedBounds_sequence
    (parseAlternates none (bytes "\"a\"\x7b2,1\x7d").length) (bytes "root")
    { parser := ⟨[(bytes "root", 0)], []⟩ }
  have hRule := @parseRule_single none reversedBounds (bytes "root")
    (bytes " ::= \"a\"\x7b2,1\x7d") {} _ rfl (by decide) (parseAlternates_single hRun)
  have hStopped := @parse_single none reversedBounds reversedBounds _ rfl (by decide) hRule
  intro hBounded
  have hAdded := hBounded.2.1 ⟨2, some 1, 2 ^ 64 - 1⟩ (by
    rw [hStopped]
    rw [hExpansions]
    exact mem_singleton.mpr rfl)
  exact absurd hAdded (by decide)

end GrammarTrace

end Beellama.Ports
