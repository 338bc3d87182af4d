import Beellama.Ports.PegStreaming
import Beellama.Verified.Utf8

/-!
# Where the until parser stops

`until` is written `(!delim .)*` in `src/common/peg-parser.h`, but the parser also stops where the rest
of the input is the start of a delimiter, in a strict parse as in a lenient one.  A delimiter begins
only where a code point does, so the first delimiter of the bytes is that of the code points.
-/

namespace Beellama.Ports

open Beellama.Verified List

/-- The bytes encode code points. -/
def ValidUtf8 (s : List UInt8) : Prop :=
  ∃ cps : List Nat, (∀ c ∈ cps, IsScalar c) ∧ cps.flatMap Utf8.encode = s

/-! ## Reading an encoded text -/

theorem IsScalar.lt {c : Nat} (h : IsScalar c) : c < 0x110000 := by
  cases h with
  | inl hLow => omega
  | inr hHigh => exact hHigh.2

/-- The code point is read back from its encoding. -/
theorem parseUtf8Head_encode {c : Nat} (h : c < 0x110000) (rest : List UInt8) :
    parseUtf8Head (Utf8.encode c ++ rest) = .success c (Utf8.encode c).length := by
  have hLead := Utf8.lead_lt h
  have hLeadNat := Utf8.lead_toNat h
  have hLe := Utf8.following_le c
  have hContinuation : ∀ n, isContinuation (0x80 + c / 64 ^ n % 64).toUInt8 = true := by
    intro n
    rw [isContinuation, Utf8.continuation_toNat]
    simp only [Bool.and_eq_true, decide_eq_true_eq]
    omega
  have hDigit : ∀ n, (0x80 + c / 64 ^ n % 64) % 0x40 = c / 64 ^ n % 64 := by
    intro n
    omega
  unfold Utf8.encode
  generalize Utf8.following c = k at hLead hLeadNat hLe ⊢
  obtain rfl | rfl | rfl | rfl : k = 0 ∨ k = 1 ∨ k = 2 ∨ k = 3 := by omega
  · simp only [Utf8.leadMark, Utf8.continuations, cons_append,
      parseUtf8Head] at hLead hLeadNat ⊢
    rw [hLeadNat, if_pos (by simpa using hLead)]
    simp
  · simp only [Utf8.leadMark, Utf8.continuations, cons_append, nil_append,
      parseUtf8Head] at hLead hLeadNat ⊢
    have hBound : c / 64 ^ 1 < 0x20 := by simpa using hLead
    rw [hLeadNat, if_neg (by omega), if_neg (by omega), if_pos (by omega),
      if_pos (hContinuation 0), Utf8.continuation_toNat, hDigit]
    congr 1
    omega
  · simp only [Utf8.leadMark, Utf8.continuations, cons_append, nil_append,
      parseUtf8Head] at hLead hLeadNat ⊢
    have hBound : c / 64 ^ 2 < 0x10 := by simpa using hLead
    rw [hLeadNat, if_neg (by omega), if_neg (by omega), if_neg (by omega), if_pos (by omega),
      if_pos (by rw [hContinuation 1, hContinuation 0]; rfl), Utf8.continuation_toNat,
      Utf8.continuation_toNat, hDigit, hDigit]
    congr 1
    omega
  simp only [Utf8.leadMark, Utf8.continuations, cons_append, nil_append,
    parseUtf8Head] at hLead hLeadNat ⊢
  rw [hLeadNat, if_neg (by omega), if_neg (by omega), if_neg (by omega), if_neg (by omega),
    if_pos (by omega), if_pos (by rw [hContinuation 2, hContinuation 1, hContinuation 0]; rfl),
    Utf8.continuation_toNat, Utf8.continuation_toNat, Utf8.continuation_toNat, hDigit, hDigit]
  congr 1
  omega

/-- A text begins another as code points where its bytes do. -/
theorem flatMap_encode_isPrefix_iff {x y : List Nat} (hx : ∀ c ∈ x, IsScalar c)
    (hy : ∀ c ∈ y, IsScalar c) :
    x.flatMap Utf8.encode <+: y.flatMap Utf8.encode ↔ x <+: y := by
  induction x generalizing y with
  | nil => exact iff_of_true nil_prefix nil_prefix
  | cons c x ih =>
    cases y with
    | nil => simp [Utf8.encode]
    | cons d y =>
      have hc := IsScalar.lt (hx c mem_cons_self)
      have hd := IsScalar.lt (hy d mem_cons_self)
      have hTail := ih (fun e he => hx e (mem_cons_of_mem _ he))
        (fun e he => hy e (mem_cons_of_mem _ he))
      rw [flatMap_cons, flatMap_cons, cons_prefix_cons]
      constructor
      · intro h
        obtain ⟨more, hMore⟩ := h
        -- both texts are read at their first code point
        have hRead := parseUtf8Head_encode hd (y.flatMap Utf8.encode)
        rw [← hMore, append_assoc, parseUtf8Head_encode hc] at hRead
        have hEq : c = d := by
          rw [Utf8ParseResult.success.injEq] at hRead
          exact hRead.1
        subst hEq
        rw [append_assoc, append_cancel_left_eq] at hMore
        exact ⟨rfl, hTail.mp ⟨more, hMore⟩⟩
      intro h
      rw [h.1, prefix_append_right_inj]
      exact hTail.mpr h.2

theorem encode_lead {c : Nat} (h : c < 0x110000) (rest : List UInt8) :
    ∃ b more, Utf8.encode c ++ rest = b :: more ∧ isContinuation b = false := by
  refine ⟨_, _, rfl, ?_⟩
  have hRead := parseUtf8Head_encode h rest
  rw [Utf8.encode, cons_append] at hRead
  rw [Bool.eq_false_iff]
  intro hContinuation
  simp only [isContinuation, Bool.and_eq_true, decide_eq_true_eq] at hContinuation
  simp only [parseUtf8Head] at hRead
  rw [if_neg (by omega), if_pos hContinuation.2] at hRead
  contradiction

variable {s : List UInt8}

theorem ValidUtf8.drop (h : ValidUtf8 s) {k : Nat}
    (hTake : ValidUtf8 (s.take k)) : ValidUtf8 (s.drop k) := by
  obtain ⟨cps, hScalar, hText⟩ := h
  obtain ⟨before, hBefore, hStart⟩ := hTake
  have hPrefix : before.flatMap Utf8.encode <+: cps.flatMap Utf8.encode := by
    rw [hStart, hText]
    exact take_prefix k s
  obtain ⟨rest, rfl⟩ := (flatMap_encode_isPrefix_iff hBefore hScalar).mp hPrefix
  refine ⟨rest, fun c hc => hScalar c (mem_append_right _ hc), ?_⟩
  rw [flatMap_append, hStart] at hText
  exact append_cancel_left (hText.trans (take_append_drop k s).symm)

variable {cps : List Nat}

/-- The first code point of what is left of a text. -/
theorem text_step {c pos : Nat} (hc : c < 0x110000)
    (hText : s.drop pos = (c :: cps).flatMap Utf8.encode) :
    pos < s.length ∧ commonParseUtf8Codepoint s pos = .success c (Utf8.encode c).length ∧
      s.drop (pos + (Utf8.encode c).length) = cps.flatMap Utf8.encode := by
  rw [flatMap_cons] at hText
  refine ⟨Nat.lt_of_not_le fun hLe => ?_, ?_, ?_⟩
  · rw [drop_eq_nil_of_le hLe] at hText
    exact absurd hText.symm (by simp [Utf8.encode])
  · rw [commonParseUtf8Codepoint, hText]
    exact parseUtf8Head_encode hc _
  · rw [← drop_drop, hText, drop_left]

theorem symbolsFrom_text {word : List UInt8} (h : ∀ c ∈ cps, IsScalar c)
    {fuel pos : Nat} (hText : word.drop pos = cps.flatMap Utf8.encode)
    (hFuel : word.length ≤ pos + fuel) : CommonTrie.symbolsFrom word fuel pos = cps := by
  induction cps generalizing fuel pos with
  | nil =>
    have hLe : word.length ≤ pos := drop_eq_nil_iff.mp hText
    cases fuel with
    | zero => rfl
    | succ fuel => rw [CommonTrie.symbolsFrom, if_neg (by omega)]
  | cons c cps ih =>
    obtain ⟨hLt, hRead, hRest⟩ := text_step (IsScalar.lt (h c mem_cons_self)) hText
    obtain ⟨fuel, rfl⟩ : ∃ n, fuel = n + 1 := ⟨fuel - 1, by omega⟩
    have hLength := Utf8.encode_length c
    rw [CommonTrie.symbolsFrom, if_pos hLt, hRead]
    exact congrArg (c :: ·) (ih (fun d hd => h d (mem_cons_of_mem _ hd)) hRest (by omega))

theorem symbols_text (h : ∀ c ∈ cps, IsScalar c) :
    CommonTrie.symbols (cps.flatMap Utf8.encode) = cps :=
  symbolsFrom_text h rfl (by omega)

/-! ## What the trie says -/

/-- A word begins the text, or the text begins a word. -/
def matchOf (ws : List (List Nat)) (text : List Nat) : TrieMatch :=
  if ws.any (·.isPrefixOf text) then .completeMatch
  else if text ≠ [] ∧ ws.any (text.isPrefixOf ·) then .partialMatch
  else .noMatch

section MatchOf

variable {ws : List (List Nat)} {text : List Nat}

theorem matchOf_complete (h : ∃ w ∈ ws, w <+: text) : matchOf ws text = .completeMatch := by
  rw [matchOf, if_pos]
  simpa using h

theorem matchOf_begun (hNot : ∀ w ∈ ws, ¬w <+: text) (hNe : text ≠ [])
    (h : ∃ w ∈ ws, text <+: w) : matchOf ws text = .partialMatch := by
  rw [matchOf, if_neg (by simpa using hNot), if_pos]
  exact ⟨hNe, by simpa using h⟩

theorem matchOf_none (hNot : ∀ w ∈ ws, ¬w <+: text)
    (h : text = [] ∨ ∀ w ∈ ws, ¬text <+: w) : matchOf ws text = .noMatch := by
  rw [matchOf, if_neg (by simpa using hNot), if_neg]
  intro hBoth
  cases h with
  | inl hNil => exact hBoth.1 hNil
  | inr hNone =>
    have hAny : ∃ w ∈ ws, text <+: w := by simpa using hBoth.2
    obtain ⟨w, hw, hPrefix⟩ := hAny
    exact hNone w hw hPrefix

theorem matchOf_cases (ws : List (List Nat)) (text : List Nat) :
    (matchOf ws text = .completeMatch ∧ ∃ w ∈ ws, w <+: text) ∨
      (matchOf ws text = .partialMatch ∧ (∀ w ∈ ws, ¬w <+: text) ∧ ∃ w ∈ ws, text <+: w) ∨
      (matchOf ws text = .noMatch ∧ (∀ w ∈ ws, ¬w <+: text) ∧
        (text = [] ∨ ∀ w ∈ ws, ¬text <+: w)) := by
  by_cases hBegins : ∃ w ∈ ws, w <+: text
  · exact Or.inl ⟨matchOf_complete hBegins, hBegins⟩
  have hNot : ∀ w ∈ ws, ¬w <+: text := fun w hw h => hBegins ⟨w, hw, h⟩
  right
  by_cases hEnds : text ≠ [] ∧ ∃ w ∈ ws, text <+: w
  · exact Or.inl ⟨matchOf_begun hNot hEnds.1 hEnds.2, hNot, hEnds.2⟩
  have hNone : text = [] ∨ ∀ w ∈ ws, ¬text <+: w := by
    by_cases hNil : text = []
    · exact Or.inl hNil
    · exact Or.inr fun w hw h => hEnds ⟨hNil, w, hw, h⟩
  exact Or.inr ⟨matchOf_none hNot hNone, hNot, hNone⟩

end MatchOf

variable {ws : List (List Nat)}

/-- `check_at` from the node of `before`: no word ends on the way to it. -/
theorem checkFrom_text {before cps : List Nat}
    (hScalar : ∀ c ∈ cps, IsScalar c) {fuel current pos : Nat}
    (hWalk : (CommonTrie.build ws).walk before = some current)
    (hNone : ∀ w ∈ ws, ¬w <+: before) (hText : s.drop pos = cps.flatMap Utf8.encode)
    (hPos : pos ≤ s.length) (hFuel : s.length < pos + fuel) :
    (CommonTrie.build ws).checkFrom s fuel current pos = matchOf ws (before ++ cps) := by
  have hTree := CommonTrie.build_tree ws
  induction cps generalizing before fuel current pos with
  | nil =>
    have hLe : s.length ≤ pos := drop_eq_nil_iff.mp hText
    obtain ⟨fuel, rfl⟩ : ∃ n, fuel = n + 1 := ⟨fuel - 1, by omega⟩
    rw [append_nil, CommonTrie.checkFrom]
    simp only [if_neg (Nat.not_lt.mpr hLe)]
    by_cases hRoot : before = []
    · have hZero : current = 0 := by
        rw [hRoot] at hWalk
        exact (Option.some.inj hWalk).symm
      rw [if_neg (by simpa using hZero), matchOf_none hNone (Or.inl hRoot)]
    rw [if_pos (hTree.ne_root hWalk hRoot)]
    have hNode := (CommonTrie.build_isNode ws before).mp ⟨current, hWalk⟩
    rw [matchOf_begun hNone hRoot (hNode.resolve_left hRoot)]
  | cons c cps ih =>
    have hc := IsScalar.lt (hScalar c mem_cons_self)
    have hAppend : before ++ c :: cps = (before ++ [c]) ++ cps := by simp
    obtain ⟨hLt, hRead, hRest⟩ := text_step hc hText
    obtain ⟨fuel, rfl⟩ : ∃ n, fuel = n + 1 := ⟨fuel - 1, by omega⟩
    have hLength := Utf8.encode_length c
    rw [CommonTrie.checkFrom]
    simp only [if_pos hLt, hRead]
    cases hChild : (CommonTrie.build ws).child current c with
    | none =>
      -- no word goes on with this code point
      have hStuck : ∀ w ∈ ws, ¬before ++ [c] <+: w := by
        intro w hw hPrefix
        obtain ⟨u, hu⟩ := (CommonTrie.build_isNode ws _).mpr (Or.inr ⟨w, hw, hPrefix⟩)
        obtain ⟨v, hv, hNext⟩ := CommonTrie.walk_snoc_eq_some.mp hu
        rw [hWalk] at hv
        rw [← Option.some.inj hv, hChild] at hNext
        contradiction
      refine (matchOf_none ?_ (Or.inr ?_)).symm
      · intro w hw hPrefix
        rw [hAppend] at hPrefix
        cases prefix_or_prefix_of_prefix hPrefix (prefix_append _ cps) with
        | inl hShort =>
          cases prefix_concat_iff.mp (by simpa using hShort) with
          | inl hEq => exact hStuck w hw (by rw [hEq])
          | inr hOld => exact hNone w hw hOld
        | inr hLong => exact hStuck w hw hLong
      intro w hw hPrefix
      rw [hAppend] at hPrefix
      exact hStuck w hw ((prefix_append _ cps).trans hPrefix)
    | some v =>
      have hNext : (CommonTrie.build ws).walk (before ++ [c]) = some v :=
        CommonTrie.walk_snoc_eq_some.mpr ⟨current, hWalk, hChild⟩
      have hWord : ((CommonTrie.build ws).node v).pattern.isSome ↔ before ++ [c] ∈ ws := by
        rw [← CommonTrie.build_isWord, CommonTrie.isWord_iff, CommonTrie.patternOf_eq hNext]
      simp only
      by_cases hMem : before ++ [c] ∈ ws
      · rw [if_pos (hWord.mpr hMem), hAppend]
        exact (matchOf_complete ⟨_, hMem, prefix_append _ cps⟩).symm
      rw [if_neg (fun h => hMem (hWord.mp h)), hAppend]
      refine ih (fun d hd => hScalar d (mem_cons_of_mem _ hd)) hNext ?_ hRest
        (codepoint_bounds hRead).2 (by omega)
      intro w hw hPrefix
      cases prefix_concat_iff.mp (by simpa using hPrefix) with
      | inl hEq => exact hMem (hEq ▸ hw)
      | inr hOld => exact hNone w hw hOld

/-- `check_at` says of the code points left what they say of the words. -/
theorem checkAt_text (hNe : ∀ w ∈ ws, w ≠ []) (hScalar : ∀ c ∈ cps, IsScalar c) {pos : Nat}
    (hText : s.drop pos = cps.flatMap Utf8.encode) (hPos : pos ≤ s.length) :
    (CommonTrie.build ws).checkAt s pos = matchOf ws cps := by
  have hNone : ∀ w ∈ ws, ¬w <+: [] := fun w hw h => hNe w hw (prefix_nil.mp h)
  exact checkFrom_text hScalar (CommonTrie.walk_nil _) hNone hText hPos (by omega)

/-! ## The first delimiter -/

/-- A delimiter stands at the position. -/
def delimiterAt (delimiters : List (List UInt8)) (s : List UInt8) (pos : Nat) : Bool :=
  delimiters.any (·.isPrefixOf (s.drop pos))

/-- The first position from `start` on at which a delimiter stands, or the end. -/
def firstDelimiter (delimiters : List (List UInt8)) (s : List UInt8) (start : Nat) : Nat :=
  ((List.range s.length).find? fun p => start ≤ p && delimiterAt delimiters s p).getD s.length

/-- The rest of the text from the position is the start of a delimiter. -/
def DelimiterBegins (delimiters : List (List UInt8)) (s : List UInt8) (pos : Nat) : Prop :=
  ∃ d ∈ delimiters, s.drop pos <+: d

/-- `stop` is the first delimiter from `start` on. -/
structure IsFirst (delimiters : List (List UInt8)) (s : List UInt8) (start stop : Nat) : Prop where
  le : start ≤ stop
  le_length : stop ≤ s.length
  found : stop = s.length ∨ delimiterAt delimiters s stop = true
  first : ∀ p, start ≤ p → p < stop → delimiterAt delimiters s p = false

theorem firstDelimiter_isFirst (delimiters : List (List UInt8)) {start : Nat}
    (hStart : start ≤ s.length) :
    IsFirst delimiters s start (firstDelimiter delimiters s start) := by
  unfold firstDelimiter
  cases hFind : (range s.length).find? fun p => start ≤ p && delimiterAt delimiters s p with
  | none =>
    rw [find?_eq_none] at hFind
    refine ⟨hStart, Nat.le_refl _, Or.inl rfl, ?_⟩
    intro p hp hLt
    have hNot := hFind p (mem_range.mpr hLt)
    simpa [hp] using hNot
  | some stop =>
    rw [find?_range_eq_some] at hFind
    obtain ⟨hHere, hMem, hBefore⟩ := hFind
    rw [Bool.and_eq_true, decide_eq_true_eq] at hHere
    have hLt := mem_range.mp hMem
    refine ⟨hHere.1, Nat.le_of_lt hLt, Or.inr hHere.2, ?_⟩
    intro p hp hLt
    have hNot := hBefore p hLt
    simpa [hp] using hNot

section FirstDelimiter

variable {ws : List (List Nat)} {s : List UInt8} {c : Nat} {cps : List Nat} {pos stop k : Nat}

theorem delimiterAt_text (hWords : ∀ w ∈ ws, ∀ c ∈ w, IsScalar c) (hScalar : ∀ c ∈ cps, IsScalar c)
    (hText : s.drop pos = cps.flatMap Utf8.encode) :
    delimiterAt (ws.map (·.flatMap Utf8.encode)) s pos = true ↔ ∃ w ∈ ws, w <+: cps := by
  have hEach : ∀ w ∈ ws, (w.flatMap Utf8.encode <+: s.drop pos ↔ w <+: cps) := by
    intro w hw
    rw [hText]
    exact flatMap_encode_isPrefix_iff (hWords w hw) hScalar
  simp only [delimiterAt, any_map, any_eq_true, Function.comp_apply,
    isPrefixOf_iff_prefix]
  exact exists_congr fun w => and_congr_right fun hw => hEach w hw

theorem delimiterBegins_text (hWords : ∀ w ∈ ws, ∀ c ∈ w, IsScalar c)
    (hScalar : ∀ c ∈ cps, IsScalar c) (hText : s.drop pos = cps.flatMap Utf8.encode) :
    DelimiterBegins (ws.map (·.flatMap Utf8.encode)) s pos ↔ ∃ w ∈ ws, cps <+: w := by
  constructor
  · intro h
    obtain ⟨d, hd, hPrefix⟩ := h
    obtain ⟨w, hw, rfl⟩ := mem_map.mp hd
    rw [hText, flatMap_encode_isPrefix_iff hScalar (hWords w hw)] at hPrefix
    exact ⟨w, hw, hPrefix⟩
  intro h
  obtain ⟨w, hw, hPrefix⟩ := h
  refine ⟨w.flatMap Utf8.encode, mem_map_of_mem hw, ?_⟩
  rw [hText, flatMap_encode_isPrefix_iff hScalar (hWords w hw)]
  exact hPrefix

/-- Inside a code point no delimiter stands, and none begins. -/
theorem delimiter_inside (hNe : ∀ w ∈ ws, w ≠ []) (hWords : ∀ w ∈ ws, ∀ c ∈ w, IsScalar c)
    (hc : c < 0x110000) (hText : s.drop pos = Utf8.encode c ++ cps.flatMap Utf8.encode)
    (hPos : 0 < k) (hLt : k < (Utf8.encode c).length) :
    delimiterAt (ws.map (·.flatMap Utf8.encode)) s (pos + k) = false ∧
      ¬DelimiterBegins (ws.map (·.flatMap Utf8.encode)) s (pos + k) := by
  have hRead := parseUtf8Head_encode hc (cps.flatMap Utf8.encode)
  rw [← hText] at hRead
  obtain ⟨b, rest, hDrop, hContinuation⟩ := continuation_of_success hRead hPos hLt
  rw [drop_drop] at hDrop
  -- a delimiter begins with a lead byte
  have hLead : ∀ w ∈ ws, ∃ b more, w.flatMap Utf8.encode = b :: more ∧
      isContinuation b = false := by
    intro w hw
    cases w with
    | nil => exact absurd rfl (hNe [] hw)
    | cons d w => exact encode_lead (IsScalar.lt (hWords _ hw d mem_cons_self)) _
  constructor
  · rw [Bool.eq_false_iff]
    intro h
    simp only [delimiterAt, any_map, any_eq_true, Function.comp_apply,
      isPrefixOf_iff_prefix] at h
    obtain ⟨w, hw, hPrefix⟩ := h
    obtain ⟨b', more, hWord, hNot⟩ := hLead w hw
    rw [hWord, hDrop, cons_prefix_cons] at hPrefix
    rw [hPrefix.1, hContinuation] at hNot
    contradiction
  intro h
  obtain ⟨d, hd, hPrefix⟩ := h
  obtain ⟨w, hw, rfl⟩ := mem_map.mp hd
  obtain ⟨b', more, hWord, hNot⟩ := hLead w hw
  rw [hWord, hDrop, cons_prefix_cons] at hPrefix
  rw [← hPrefix.1, hContinuation] at hNot
  contradiction

end FirstDelimiter

namespace Peg

theorem span_inj {type : PegResultType} {start a b : Nat} :
    PegResult.span type start a = PegResult.span type start b ↔ a = b := by
  constructor
  · intro h
    exact congrArg PegResult.stop h
  · intro h
    rw [h]

/-- The loop stops at the first delimiter if and only if the text before it never
is the start of a delimiter up to the end of the input. -/
theorem untilLoop_text (hNe : ∀ w ∈ ws, w ≠ [])
    (hWords : ∀ w ∈ ws, ∀ c ∈ w, IsScalar c) (hScalar : ∀ c ∈ cps, IsScalar c) (start : Nat) {fuel pos stop : Nat}
    (hText : s.drop pos = cps.flatMap Utf8.encode) (hPos : pos ≤ s.length)
    (hFuel : s.length < pos + fuel) (hFirst : IsFirst (ws.map (·.flatMap Utf8.encode)) s pos stop) :
    untilLoop (whole s) (CommonTrie.build ws) start fuel pos = .span .success start stop ↔
      ∀ p, pos ≤ p → p < stop → ¬DelimiterBegins (ws.map (·.flatMap Utf8.encode)) s p := by
  induction cps generalizing fuel pos with
  | nil =>
    have hEnd : s.length ≤ pos := drop_eq_nil_iff.mp hText
    have hLe := hFirst.le
    have hLeLength := hFirst.le_length
    obtain ⟨fuel, rfl⟩ : ∃ n, fuel = n + 1 := ⟨fuel - 1, by omega⟩
    rw [untilLoop, if_neg (Nat.not_lt.mpr hEnd), if_neg (by simp), span_inj]
    apply iff_of_true
    · omega
    · omega
  | cons c cps ih =>
    have hc := IsScalar.lt (hScalar c mem_cons_self)
    have hBegins := delimiterBegins_text hWords hScalar hText
    have hStands := delimiterAt_text hWords hScalar hText
    have hCheck := checkAt_text hNe hScalar hText hPos
    obtain ⟨hLt, hRead, hRest⟩ := text_step hc hText
    rw [flatMap_cons] at hText
    obtain ⟨fuel, rfl⟩ : ∃ n, fuel = n + 1 := ⟨fuel - 1, by omega⟩
    have hBound := (codepoint_bounds hRead).2
    have hLength := Utf8.encode_length c
    have hLe := hFirst.le
    have hInside := fun k => delimiter_inside (k := k) hNe hWords hc hText
    simp only [untilLoop, if_pos hLt, hRead, hCheck]
    rcases matchOf_cases ws (c :: cps) with ⟨hMatch, hAny⟩ | ⟨hMatch, hNot, hAny⟩ |
      ⟨hMatch, hNot, hNone⟩
    · have hStop : stop = pos := by
        apply Nat.le_antisymm _ hLe
        apply Nat.le_of_not_lt
        intro hBefore
        have hFalse := hFirst.first pos (Nat.le_refl _) hBefore
        rw [hStands.mpr hAny] at hFalse
        contradiction
      rw [hMatch, hStop]
      apply iff_of_true rfl
      omega
    · have hFar : pos < stop := by
        apply Nat.lt_of_le_of_ne hLe
        intro hEq
        cases hFirst.found with
        | inl hEnd => omega
        | inr hFound =>
          rw [← hEq, hStands] at hFound
          obtain ⟨w, hw, hPrefix⟩ := hFound
          exact hNot w hw hPrefix
      rw [hMatch]
      apply iff_of_false
      · intro h
        have hEq := span_inj.mp h
        omega
      · intro h
        exact h pos (Nat.le_refl _) hFar (hBegins.mpr hAny)
    have hFar : pos + (Utf8.encode c).length ≤ stop := by
      apply Nat.le_of_not_lt
      intro hBefore
      have hNotAt : delimiterAt (ws.map (·.flatMap Utf8.encode)) s stop = false := by
        by_cases hHere : stop = pos
        · rw [hHere, Bool.eq_false_iff]
          intro hFound
          obtain ⟨w, hw, hPrefix⟩ := hStands.mp hFound
          exact hNot w hw hPrefix
        · have hAt := (hInside (stop - pos) (by omega) (by omega)).1
          rwa [Nat.add_sub_cancel' hLe] at hAt
      cases hFirst.found with
      | inl hEnd => omega
      | inr hFound =>
        rw [hNotAt] at hFound
        contradiction
    have hNext : IsFirst (ws.map (·.flatMap Utf8.encode)) s (pos + (Utf8.encode c).length)
        stop :=
      ⟨hFar, hFirst.le_length, hFirst.found, fun p hp => hFirst.first p (by omega)⟩
    rw [hMatch]
    rw [ih (fun d hd => hScalar d (mem_cons_of_mem _ hd)) hRest hBound (by omega) hNext]
    constructor
    · intro h p hp hp'
      by_cases hBehind : pos + (Utf8.encode c).length ≤ p
      · exact h p hBehind hp'
      by_cases hHere : p = pos
      · rw [hHere, hBegins]
        rintro ⟨w, hw, hPrefix⟩
        exact (hNone.resolve_left (cons_ne_nil _ _)) w hw hPrefix
      · have hAt := (hInside (p - pos) (by omega) (by omega)).2
        rwa [Nat.add_sub_cancel' hp] at hAt
    · intro h p hp
      exact h p (by omega)

/-- The strict until parser reads up to the first delimiter, or to the end of the
input where there is none, exactly when no position before it begins a delimiter
that goes on behind the end of the input. -/
theorem until_first_iff {delimiters : List (List UInt8)}
    (hDelimiters : ∀ d ∈ delimiters, d ≠ [] ∧ ValidUtf8 d) {input : List UInt8}
    (hInput : ValidUtf8 input) {start : Nat} (hStart : start ≤ input.length)
    (hBoundary : ValidUtf8 (input.take start)) (arena : PegArena) (parse : PegParse)
    (ast : PegAst) :
    execute arena (whole input) parse (.untilParser delimiters) ast start =
        some (.span .success start (firstDelimiter delimiters input start), ast) ↔
      ∀ p, start ≤ p → p < firstDelimiter delimiters input start →
        ¬DelimiterBegins delimiters input p := by
  -- the delimiters and the rest of the input as code points
  have hDecode : ∀ ds : List (List UInt8), (∀ d ∈ ds, d ≠ [] ∧ ValidUtf8 d) →
      ∃ ws : List (List Nat), (∀ w ∈ ws, w ≠ []) ∧ (∀ w ∈ ws, ∀ c ∈ w, IsScalar c) ∧
        ws.map (·.flatMap Utf8.encode) = ds := by
    intro ds
    induction ds with
    | nil => exact fun _ => ⟨[], by simp, by simp, rfl⟩
    | cons d ds ih =>
      intro h
      obtain ⟨ws, hNe, hScalar, rfl⟩ := ih fun e he => h e (mem_cons_of_mem _ he)
      obtain ⟨hSome, w, hw, rfl⟩ := h d mem_cons_self
      have hWord : w ≠ [] := by
        rintro rfl
        exact hSome rfl
      exact ⟨w :: ws, forall_mem_cons.mpr ⟨hWord, hNe⟩,
        forall_mem_cons.mpr ⟨hw, hScalar⟩, rfl⟩
  obtain ⟨ws, hNe, hWords, rfl⟩ := hDecode delimiters hDelimiters
  obtain ⟨cps, hScalar, hText⟩ := hInput.drop hBoundary
  have hSymbols : (ws.map (·.flatMap Utf8.encode)).map CommonTrie.symbols = ws := by
    rw [map_map]
    exact (map_congr_left fun w hw => symbols_text (hWords w hw)).trans (map_id ws)
  have hLoop := untilLoop_text hNe hWords hScalar start hText.symm hStart
    (by omega : input.length < start + (input.length - start + 1))
    (firstDelimiter_isFirst _ hStart)
  rw [← hLoop, execute, CommonTrie.ofWords, hSymbols]
  simp

/-- A delimiter in the middle of the text is found. -/
theorem lineBreak_found :
    execute ⟨[], []⟩ (whole [0x61, 0x0A, 0x62]) (fun _ _ _ => none) (.untilParser [[0x0A]])
      [] 0 = some (.span .success 0 1, []) := by
  have hFirst : firstDelimiter [[0x0A]] [0x61, 0x0A, 0x62] 0 = 1 := by decide
  rw [← hFirst]
  apply (until_first_iff _ _ (Nat.zero_le _) _ _ _ _).mpr
  · rw [hFirst]
    rintro p - hLt ⟨d, hd, hPrefix⟩
    obtain rfl : p = 0 := by omega
    rw [mem_singleton.mp hd] at hPrefix
    exact absurd hPrefix (by decide)
  · intro d hd
    rw [mem_singleton.mp hd]
    exact ⟨by decide, [0x0A], by decide, by decide⟩
  · exact ⟨[0x61, 0x0A, 0x62], by decide, by decide⟩
  · exact ⟨[], by decide, rfl⟩

/-- The text `xa` ends in the start of the delimiter `ab`, which stands nowhere in
it: the parser ends before the `a`. -/
theorem delimiterStart_stops :
    ValidUtf8 [0x78, 0x61] ∧ ValidUtf8 [0x61, 0x62] ∧
      firstDelimiter [[0x61, 0x62]] [0x78, 0x61] 0 = 2 ∧
      execute ⟨[], []⟩ (whole [0x78, 0x61]) (fun _ _ _ => none)
        (.untilParser [[0x61, 0x62]]) [] 0 = some (.span .success 0 1, []) := by
  refine ⟨⟨[0x78, 0x61], by decide, by decide⟩, ⟨[0x61, 0x62], by decide, by decide⟩, by decide,
    by decide⟩

end Peg

end Beellama.Ports
