import Beellama.Ports.GrammarToken
import Beellama.Verified.Utf8

/-!
# Code points of token pieces

The pieces of tokens cut a text anywhere, also inside a code point.  On UTF-8 `decode_utf8` is the
decoder that reads byte by byte (`decodeUtf8_of_run`), so neither the code points nor the stacks
depend on the cuts.  An incomplete code point is tested by `llama_grammar_match_partial_char`.
-/

namespace Beellama.Ports

open Beellama.Verified List Option

/-- The code points of pieces decoded one after another, without the terminators. -/
def decodePieces : List (List UInt8) → PartialUtf8 → List Nat × PartialUtf8
  | [], partialStart => ([], partialStart)
  | piece :: rest, partialStart =>
    let decoded := decodeUtf8 piece partialStart
    let r := decodePieces rest decoded.2
    (decoded.1.dropLast ++ r.1, r.2)

namespace Grammar

/-- How `llama_grammar_accept_str` ends: it returns, throws, ends in `GGML_ABORT`, or is still
running when the fuel is used up. -/
inductive AcceptResult
  | done (grammar : TokenState)
  | thrown (grammar : TokenState)
  | aborted
  | running
  deriving DecidableEq, Repr

/-- The stacks that are reached. -/
def AcceptResult.reached : AcceptResult → WorklistResult GrammarStack
  | done grammar => .done grammar.current
  | thrown grammar => .done grammar.current
  | aborted => .aborted
  | running => .running

/-- `llama_grammar_accept_str` -/
def acceptStr (rules : GrammarRules) (fuel : Nat) (grammar : TokenState) (piece : List UInt8) :
    AcceptResult :=
  let decoded := decodeUtf8 piece grammar.partialUtf8
  match acceptAll rules fuel grammar.current decoded.1.dropLast with
  | .done current =>
    if current = [] then .thrown ⟨current, decoded.2⟩ else .done ⟨current, decoded.2⟩
  | .aborted => .aborted
  | .running => .running

/-- `llama_grammar_accept_str` for piece after piece, up to an exception. -/
def acceptPieces (rules : GrammarRules) (fuel : Nat) : List (List UInt8) → TokenState → AcceptResult
  | [], grammar => .done grammar
  | piece :: rest, grammar =>
    match acceptStr rules fuel grammar piece with
    | .done grammar => acceptPieces rules fuel rest grammar
    | r => r

end Grammar

/-! ## Reading byte by byte -/

/-- The state of the decoder between two bytes. -/
def partialOf (s : Utf8.Progress) : PartialUtf8 := ⟨s.value, s.missing⟩

theorem toNat_ne_zero {b : UInt8} (h : b ≠ 0) : b.toNat ≠ 0 := fun hZero =>
  h (UInt8.toNat.inj hZero)

theorem remainingAfter_lead {b : UInt8} {r : Nat × Nat} (h : Utf8.leadOf b = some r) :
    remainingAfter b = r.1 ∧ b.toNat % 2 ^ (7 - r.1) = r.2 := by
  unfold Utf8.leadOf at h
  unfold remainingAfter
  split at h
  · cases h
    rw [if_pos ‹_›]
    exact ⟨rfl, Nat.mod_eq_of_lt (by dsimp only; omega)⟩
  rw [if_neg ‹_›]
  split at h
  · cases h
  rw [if_neg ‹_›]
  split at h
  · cases h
    rw [if_pos ‹_›]
    exact ⟨rfl, by dsimp only; omega⟩
  rw [if_neg ‹_›]
  split at h
  · cases h
    rw [if_pos ‹_›]
    exact ⟨rfl, by dsimp only; omega⟩
  rw [if_neg ‹_›]
  split at h
  · cases h
    exact ⟨rfl, by dsimp only; omega⟩
  · cases h

variable {bytes : List UInt8}

/-- The two loops over the bytes that follow agree where these are right. -/
theorem decodeRest_of_decodePending {value : Nat} {n : Int}
    {r : List UInt8 × Nat × Int} (h : decodePending bytes value n = some r) :
    decodeRest bytes value n = r := by
  induction bytes generalizing value n with
  | nil =>
    cases h
    rfl
  | cons c bytes ih =>
    unfold decodePending at h
    unfold decodeRest
    split at h
    · rw [if_pos ‹_›]
      split at h
      · exact ih h
      · cases h
    rw [if_neg ‹_›]
    cases h
    rfl

theorem decodePending_zero (bytes : List UInt8) (value : Nat) :
    decodePending bytes value 0 = some (bytes, value, 0) := by
  cases bytes with
  | nil => rfl
  | cons c bytes =>
    unfold decodePending
    rw [if_neg (by omega)]

/-- The bytes that complete a code point, or the end of the piece. -/
theorem decodePending_run (hNul : ∀ b ∈ bytes, b ≠ 0) {value n : Nat}
    {out : List Nat} {s : Utf8.Progress} (h : Utf8.run ⟨value, n⟩ bytes = some (out, s)) :
    ∃ (rest : List UInt8) (value' n' : Nat) (out' : List Nat),
      decodePending bytes value n = some (rest, value', (n' : Int)) ∧ rest <:+ bytes ∧
      (rest = [] ∨ n' = 0) ∧ Utf8.run ⟨value', n'⟩ rest = some (out', s) ∧
      out = (if 0 < n ∧ n' = 0 then [value'] else []) ++ out' := by
  induction bytes generalizing value n out with
  | nil =>
    refine ⟨[], value, n, out, rfl, suffix_refl _, Or.inl rfl, h, ?_⟩
    rw [if_neg (by omega)]
    rfl
  | cons c bytes ih =>
    cases n with
    | zero =>
      refine ⟨c :: bytes, value, 0, out, decodePending_zero _ _, suffix_refl _, Or.inr rfl,
        h, ?_⟩
      rfl
    | succ n =>
      rw [Utf8.run_cons] at h
      have hStep : Utf8.step ⟨value, n + 1⟩ c =
          if 0x80 ≤ c.toNat ∧ c.toNat < 0xC0 then some ⟨value * 64 + c.toNat % 64, n⟩ else none := rfl
      by_cases hCont : 0x80 ≤ c.toNat ∧ c.toNat < 0xC0
      · rw [hStep, if_pos hCont] at h
        obtain ⟨⟨out', s'⟩, hRest, hOut⟩ := map_eq_some_iff.mp h
        obtain ⟨rfl, rfl⟩ := hOut
        obtain ⟨rest, value', n', out'', hPending, hSuffix, hEnd, hRun, hOut⟩ :=
          ih (fun b hb => hNul b (mem_cons_of_mem _ hb)) hRest
        refine ⟨rest, value', n', out'', ?_, hSuffix.trans (suffix_cons _ _), hEnd, hRun, ?_⟩
        · have hContinues : isContinuation c = true := by
            simpa only [isContinuation, Bool.and_eq_true, decide_eq_true_eq] using hCont
          have hCount : ((n + 1 : Nat) : Int) - 1 = n := by omega
          unfold decodePending
          rw [if_pos ⟨by omega, by omega⟩, if_pos hContinues, hCount]
          exact hPending
        rw [hOut]
        cases n with
        | zero =>
          have hHere := (decodePending_zero bytes (value * 64 + c.toNat % 64)).symm.trans hPending
          rw [some.injEq, Prod.mk.injEq, Prod.mk.injEq] at hHere
          obtain ⟨-, rfl, hZero⟩ := hHere
          have hDone : n' = 0 := by omega
          simp [Utf8.Progress.completed, hDone]
        | succ n => simp [Utf8.Progress.completed]
      · rw [hStep, if_neg hCont] at h
        cases h

theorem decodeLoop_run {fuel : Nat} : ∀ {bytes : List UInt8} {value n : Nat} {out cps : List Nat}
    {s : Utf8.Progress}, (∀ b ∈ bytes, b ≠ 0) → bytes.length < fuel → (bytes = [] ∨ n = 0) →
    Utf8.run ⟨value, n⟩ bytes = some (out, s) →
    decodeLoop fuel bytes cps value n = (cps ++ out ++ [0], partialOf s) := by
  induction fuel with
  | zero => intro bytes value n out cps s _ hFuel; omega
  | succ fuel ih =>
    intro bytes value n out cps s hNul hFuel hEnd hRun
    cases bytes with
    | nil =>
      cases hRun
      rw [append_nil]
      rfl
    | cons c bytes =>
      have hZero : n = 0 := hEnd.resolve_left (cons_ne_nil _ _)
      subst hZero
      rw [Utf8.run_cons] at hRun
      have hStep : Utf8.step ⟨value, 0⟩ c = (Utf8.leadOf c).map fun r => ⟨r.2, r.1⟩ := rfl
      rw [hStep] at hRun
      cases hLead : Utf8.leadOf c with
      | none => rw [hLead] at hRun; cases hRun
      | some r =>
        rw [hLead, map_some] at hRun
        obtain ⟨⟨out', s'⟩, hRest, hOut⟩ := map_eq_some_iff.mp hRun
        obtain ⟨rfl, rfl⟩ := hOut
        obtain ⟨hRemaining, hDigit⟩ := remainingAfter_lead hLead
        have hTail : ∀ b ∈ bytes, b ≠ 0 := fun b hb => hNul b (mem_cons_of_mem _ hb)
        obtain ⟨rest, value', n', out'', hPending, hSuffix, hEnd', hRun', rfl⟩ :=
          decodePending_run hTail hRest
        have hFollow := decodeRest_of_decodePending hPending
        have hLength := hSuffix.length_le
        rw [length_cons] at hFuel
        unfold decodeLoop
        dsimp only
        rw [if_neg (toNat_ne_zero (hNul c mem_cons_self)), hRemaining,
          Int.toNat_natCast, hDigit, hFollow]
        rw [ih (fun b hb => hTail b (hSuffix.subset hb)) (by omega) hEnd' hRun']
        have hComplete : ((n' : Int) = 0) ↔ n' = 0 := Int.natCast_eq_zero
        by_cases hOne : r.1 = 0
        · rw [hOne, Int.natCast_zero, decodePending_zero] at hPending
          rw [some.injEq, Prod.mk.injEq, Prod.mk.injEq] at hPending
          obtain ⟨-, rfl, hZero⟩ := hPending
          have hDone : n' = 0 := by omega
          simp [Utf8.Progress.completed, hOne, hDone]
        by_cases hDone : n' = 0
        · simp [Utf8.Progress.completed, hOne, hDone, Nat.pos_of_ne_zero hOne]
        · simp [Utf8.Progress.completed, hOne, hDone]

/-- On UTF-8 the decoder of the pieces is the one that reads byte by byte. -/
theorem decodeUtf8_of_run {s s' : Utf8.Progress} {out : List Nat}
    (hNul : ∀ b ∈ bytes, b ≠ 0) (h : Utf8.run s bytes = some (out, s')) :
    decodeUtf8 bytes (partialOf s) = (out ++ [0], partialOf s') := by
  obtain ⟨rest, value, n, out', hPending, hSuffix, hEnd, hRun, rfl⟩ := decodePending_run hNul h
  have hStart : decodePending bytes (partialOf s).value (partialOf s).nRemain =
      some (rest, value, (n : Int)) := hPending
  unfold decodeUtf8
  rw [hStart]
  dsimp only
  rw [decodeLoop_run (fun b hb => hNul b (hSuffix.subset hb)) (Nat.lt_succ_self _) hEnd hRun]
  have hBegun : 0 < (partialOf s).nRemain ↔ 0 < s.missing := Int.natCast_pos
  have hComplete : ((n : Int) = 0) ↔ n = 0 := Int.natCast_eq_zero
  simp only [hBegun, hComplete]

/-! ## Cuts -/

namespace Grammar

theorem acceptAll_append (rules : GrammarRules) (fuel : Nat) (current : List GrammarStack)
    (v w : List Nat) :
    acceptAll rules fuel current (v ++ w) =
      (acceptAll rules fuel current v).bind fun current => acceptAll rules fuel current w := by
  unfold acceptAll
  rw [foldl_append, foldl_bind w]
  rfl

theorem acceptAll_nil (rules : GrammarRules) (fuel : Nat) (w : List Nat) :
    acceptAll rules fuel [] w = .done [] := by
  induction w with
  | nil => rfl
  | cons chr w ih => exact ih

theorem run_piece {piece : List UInt8} {rest : List (List UInt8)} {s s' : Utf8.Progress}
    {out : List Nat} (hNul : ∀ b ∈ (piece :: rest).flatten, b ≠ 0)
    (h : Utf8.run s (piece :: rest).flatten = some (out, s')) :
    ∃ first mid more, out = first ++ more ∧
      decodeUtf8 piece (partialOf s) = (first ++ [0], partialOf mid) ∧
      Utf8.run mid rest.flatten = some (more, s') := by
  rw [flatten_cons, Utf8.run_append] at h
  cases hFirst : Utf8.run s piece with
  | none => rw [hFirst] at h; cases h
  | some r =>
    rw [hFirst] at h
    obtain ⟨q, hRest, hOut⟩ := map_eq_some_iff.mp h
    rw [Prod.mk.injEq] at hOut
    obtain ⟨hOut, hEnd⟩ := hOut
    refine ⟨r.1, r.2, q.1, hOut.symm, decodeUtf8_of_run ?_ hFirst, ?_⟩
    · intro b hb
      exact hNul b (mem_append_left _ hb)
    · rw [hRest, ← hEnd]

theorem decodePieces_run {pieces : List (List UInt8)} {s s' : Utf8.Progress} {out : List Nat}
    (hNul : ∀ b ∈ pieces.flatten, b ≠ 0)
    (h : Utf8.run s pieces.flatten = some (out, s')) :
    decodePieces pieces (partialOf s) = (out, partialOf s') := by
  induction pieces generalizing s out with
  | nil =>
    cases h
    rfl
  | cons piece rest ih =>
    obtain ⟨first, mid, more, rfl, hDecode, hRun⟩ := run_piece hNul h
    have hRest := ih (fun b hb => hNul b (mem_append_right _ hb)) hRun
    unfold decodePieces
    rw [hDecode]
    dsimp only
    rw [hRest, dropLast_concat]

/-- The stacks after the pieces of a text are those after its code points; a piece throws where they
are all gone. -/
theorem acceptPieces_run {rules : GrammarRules} {fuel : Nat} {pieces : List (List UInt8)}
    {s s' : Utf8.Progress} {out : List Nat} {current : List GrammarStack}
    (hNul : ∀ b ∈ pieces.flatten, b ≠ 0)
    (h : Utf8.run s pieces.flatten = some (out, s')) :
    (acceptPieces rules fuel pieces ⟨current, partialOf s⟩).reached =
      acceptAll rules fuel current out := by
  induction pieces generalizing s out current with
  | nil =>
    cases h
    rfl
  | cons piece rest ih =>
    obtain ⟨first, mid, more, rfl, hDecode, hRun⟩ := run_piece hNul h
    have hAccept : acceptStr rules fuel ⟨current, partialOf s⟩ piece =
        match acceptAll rules fuel current first with
        | .done current =>
          if current = [] then .thrown ⟨current, partialOf mid⟩ else .done ⟨current, partialOf mid⟩
        | .aborted => .aborted
        | .running => .running := by
      unfold acceptStr
      dsimp only
      rw [hDecode]
      dsimp only
      rw [dropLast_concat]
    unfold acceptPieces
    rw [hAccept, acceptAll_append]
    cases acceptAll rules fuel current first with
    | running => rfl
    | aborted => rfl
    | done next =>
      dsimp only
      by_cases hEmpty : next = []
      · rw [if_pos hEmpty, hEmpty]
        exact (acceptAll_nil rules fuel more).symm
      · rw [if_neg hEmpty]
        exact ih (fun b hb => hNul b (mem_append_right _ hb)) hRun

theorem acceptPieces_singleton (rules : GrammarRules) (fuel : Nat) (grammar : TokenState)
    (piece : List UInt8) :
    acceptPieces rules fuel [piece] grammar = acceptStr rules fuel grammar piece := by
  unfold acceptPieces
  cases acceptStr rules fuel grammar piece <;> rfl

/-- Decoding does not depend on where a text is cut, and neither do the stacks that it leads to. -/
theorem cuts_invisible (rules : GrammarRules) (fuel value : Nat) (current : List GrammarStack)
    (cps : List Nat) (hText : ∀ c ∈ cps, IsScalar c ∧ c ≠ 0) (pieces : List (List UInt8))
    (hPieces : pieces.flatten = cps.flatMap Utf8.encode) :
    (decodePieces pieces ⟨value, 0⟩).1 = cps ∧ (decodePieces pieces ⟨value, 0⟩).2.nRemain = 0 ∧
      decodeUtf8 (cps.flatMap Utf8.encode) ⟨value, 0⟩ =
        (cps ++ [0], (decodePieces pieces ⟨value, 0⟩).2) ∧
      (acceptPieces rules fuel pieces ⟨current, ⟨value, 0⟩⟩).reached =
        (acceptStr rules fuel ⟨current, ⟨value, 0⟩⟩ (cps.flatMap Utf8.encode)).reached := by
  have hRange : ∀ c ∈ cps, c < 0x110000 := by
    intro c hc
    obtain ⟨hScalar, -⟩ := hText c hc
    unfold IsScalar at hScalar
    omega
  have hNul : ∀ b ∈ cps.flatMap Utf8.encode, b ≠ 0 := by
    intro b hb
    obtain ⟨c, hc, hMem⟩ := mem_flatMap.mp hb
    exact Utf8.ne_zero_of_mem_encode (hRange c hc) (hText c hc).2 hMem
  obtain ⟨value', hRun⟩ := Utf8.run_text hRange value
  have hDecode : decodePieces pieces ⟨value, 0⟩ = (cps, partialOf ⟨value', 0⟩) :=
    decodePieces_run (hPieces ▸ hNul) (hPieces ▸ hRun)
  have hWhole := decodeUtf8_of_run hNul hRun
  have hAccept := @acceptPieces_run rules fuel pieces ⟨value, 0⟩ _ _ current (hPieces ▸ hNul)
    (hPieces ▸ hRun)
  have hAcceptWhole := @acceptPieces_run rules fuel [cps.flatMap Utf8.encode] ⟨value, 0⟩ _ _ current
    (by rw [flatten_singleton]; exact hNul) (by rw [flatten_singleton]; exact hRun)
  rw [hDecode]
  refine ⟨rfl, rfl, hWhole, ?_⟩
  rw [← acceptPieces_singleton]
  exact hAccept.trans hAcceptWhole.symm

/-- The accented letter is cut in two, with an empty piece between its bytes. -/
theorem cutAccent_invisible :
    [[0xC3], [], [0xA9]].flatten = [0xE9].flatMap Utf8.encode ∧
      (decodePieces [[0xC3], [], [0xA9]] ⟨0, 0⟩).1 = [0xE9] :=
  ⟨by decide, (cuts_invisible [[⟨.char, 0xE9⟩, endElement]] 8 0 [[⟨0, 0⟩]] [0xE9] (by decide) _
    (by decide)).1⟩

/-! ## Code points that are not complete -/

/-- The test of the code whether an item and the completions meet: it compares their ends. -/
def CharItem.touches (low high : Nat) : CharItem → Bool
  | any => true
  | range first last => decide (first ≤ high) && decide (low ≤ last)

/-- The item has a code point from `low` to `high` that is encoded, one that is no surrogate and is
not above the last. -/
def CharItem.MeetsScalar (low high : Nat) : CharItem → Prop
  | any => True
  | range first last =>
    max first low ≤ min last high ∧ max first low ≤ 0x10FFFF ∧
      ¬ (0xD800 ≤ max first low ∧ min last high ≤ 0xDFFF)

theorem charItem_touches (e : GrammarElement) (low high : Nat) :
    (charItem e).touches low high =
      if e.type = .charAny then true else decide (low ≤ e.value) && decide (e.value ≤ high) := by
  unfold charItem
  split
  · rfl
  · exact Bool.and_comm _ _

theorem matchPartialLoop_eq (low high : Nat) (elems : List GrammarElement) :
    matchPartialLoop low high elems = (classItems elems).any (CharItem.touches low high) := by
  induction elems using classItems.induct with
  | case1 => rfl
  | case2 e => simp [matchPartialLoop, classItems, charItem_touches]
  | case3 e e₁ rest hRange ih =>
    simp only [matchPartialLoop, classItems]
    rw [if_pos hRange, if_pos hRange, any_cons]
    by_cases hMeets : e.value ≤ high ∧ low ≤ e₁.value
    · simp [CharItem.touches, hMeets]
    have hMisses : (CharItem.range e.value e₁.value).touches low high = false := by
      simpa [CharItem.touches] using hMeets
    rw [if_neg hMeets, hMisses]
    split
    · exact ih
    · rfl
  | case4 e e₁ rest hRange ih =>
    simp only [matchPartialLoop, classItems]
    rw [if_neg hRange, if_neg hRange, any_cons, charItem_touches]
    by_cases hAny : e.type = .charAny
    · simp [hAny]
    rw [if_neg hAny, if_neg hAny]
    by_cases hMeets : low ≤ e.value ∧ e.value ≤ high
    · rw [if_pos hMeets]
      simp [hMeets]
    have hMisses : (decide (low ≤ e.value) && decide (e.value ≤ high)) = false := by
      simpa using hMeets
    rw [if_neg hMeets, hMisses, Bool.false_or]
    split
    · exact ih
    · rfl

theorem touches_of_contains {item : CharItem} {low high c : Nat} (hLow : low ≤ c) (hHigh : c ≤ high)
    (h : item.contains c = true) : item.touches low high = true := by
  cases item with
  | any => rfl
  | range first last =>
    simp only [CharItem.contains, CharItem.touches, Bool.and_eq_true, decide_eq_true_eq] at h ⊢
    omega

theorem meetsScalar_iff {item : CharItem} {low high : Nat}
    (hSome : ∃ c, low ≤ c ∧ c ≤ high ∧ IsScalar c) :
    item.MeetsScalar low high ↔
      ∃ c, low ≤ c ∧ c ≤ high ∧ IsScalar c ∧ item.contains c = true := by
  cases item with
  | any =>
    obtain ⟨c, hLow, hHigh, hScalar⟩ := hSome
    exact ⟨fun _ => ⟨c, hLow, hHigh, hScalar, rfl⟩, fun _ => trivial⟩
  | range first last =>
    simp only [CharItem.contains, CharItem.MeetsScalar, Bool.and_eq_true, decide_eq_true_eq, IsScalar]
    constructor
    · rintro ⟨hMeet, hLast, hSurrogates⟩
      by_cases hInside : 0xD800 ≤ max first low ∧ max first low ≤ 0xDFFF
      · exact ⟨0xE000, by omega, by omega, by omega, by omega⟩
      · exact ⟨max first low, by omega, by omega, by omega, by omega⟩
    · omega

/-- The least code point that completes the digits, and the greatest. -/
def lowestCompletion (s : PartialUtf8) : Nat :=
  let low := s.value * 2 ^ (s.nRemain.toNat * 6)
  if low = 0 then (if s.nRemain = 2 then 2 ^ 11 else if s.nRemain = 3 then 2 ^ 16 else low) else low

def highestCompletion (s : PartialUtf8) : Nat :=
  s.value * 2 ^ (s.nRemain.toNat * 6) + (2 ^ (s.nRemain.toNat * 6) - 1)

/-- Inside an encoding the code points with the digits read are those between the two. -/
theorem completion_iff {c n : Nat} (hPos : 0 < n) (hLe : n ≤ Utf8.following c) (c' : Nat)
    (h : c < 0x110000) :
    (Utf8.following c' = Utf8.following c ∧ c' / 64 ^ n = c / 64 ^ n) ↔
      lowestCompletion ⟨c / 64 ^ n, n⟩ ≤ c' ∧ c' ≤ highestCompletion ⟨c / 64 ^ n, n⟩ := by
  have hFollowing := Utf8.following_le c
  have hPow : 2 ^ (n * 6) = 64 ^ n := by rw [Nat.mul_comm, Nat.pow_mul]
  simp only [lowestCompletion, highestCompletion, Int.toNat_natCast]
  have hN : n = 1 ∨ n = 2 ∨ n = 3 := by omega
  unfold Utf8.following at hLe ⊢
  rcases hN with rfl | rfl | rfl
  all_goals split_ifs at hLe ⊢
  all_goals first | omega | (rw [false_and, false_iff]; omega)

/-- A positive class that the code takes to meet the completions has one that is encoded, and a
negated one excludes all of these. -/
def PartialDecided (rules : GrammarRules) (p : GrammarPos) (low high : Nat) : Prop :=
  (∃ item ∈ classItems (suffix rules p), item.touches low high = true) →
    if (elem rules p).isPositiveChar then
      ∃ item ∈ classItems (suffix rules p), item.MeetsScalar low high
    else
      ∀ c, low ≤ c → c ≤ high → IsScalar c →
        ∃ item ∈ classItems (suffix rules p), item.contains c = true

/-- The state of `decode_utf8` inside an encoding. -/
theorem decodeUtf8_part {c : Nat} {part rest : List UInt8} (h : c < 0x110000)
    (hPart : part ++ rest = Utf8.encode c) (hBegun : part ≠ []) (hOpen : rest ≠ []) :
    ∃ k, k < Utf8.following c ∧ part = (Utf8.encode c).take (k + 1) ∧
      (decodeUtf8 part {}).2 =
        ⟨c / 64 ^ (Utf8.following c - k), ((Utf8.following c - k : Nat) : Int)⟩ := by
  have hLength := congrArg length hPart
  rw [length_append, Utf8.encode_length] at hLength
  have hPartLength := length_pos_iff.mpr hBegun
  have hRestLength := length_pos_iff.mpr hOpen
  have hK : part.length - 1 < Utf8.following c := by omega
  have hTake : part = (Utf8.encode c).take (part.length - 1 + 1) := by
    rw [Nat.sub_add_cancel hPartLength, ← hPart, take_left]
  refine ⟨part.length - 1, hK, hTake, ?_⟩
  have hPos : c ≠ 0 := by
    rintro rfl
    exact absurd hK (Nat.not_lt_zero _)
  have hNul : ∀ b ∈ part, b ≠ 0 := fun b hb =>
    Utf8.ne_zero_of_mem_encode h hPos (hPart ▸ mem_append_left _ hb)
  have hRun := Utf8.run_encode_take h hK 0
  rw [← hTake] at hRun
  exact congrArg Prod.snd (decodeUtf8_of_run hNul hRun)

/-- The code's answer for a code point begun says whether a completion of it matches exactly where
it is decided so. -/
theorem matchPartialChar_iff (rules : GrammarRules) (p : GrammarPos) {c : Nat}
    (hScalar : IsScalar c)
    {part rest : List UInt8} (hPart : part ++ rest = Utf8.encode c) (hBegun : part ≠ [])
    (hOpen : rest ≠ []) :
    (matchPartialChar rules p (decodeUtf8 part {}).2 = true ↔
        ∃ c', IsScalar c' ∧ part <+: Utf8.encode c' ∧ (matchChar rules p c').1 = true) ↔
      PartialDecided rules p (lowestCompletion (decodeUtf8 part {}).2)
        (highestCompletion (decodeUtf8 part {}).2) := by
  have hRange : ∀ {d : Nat}, IsScalar d → d < 0x110000 := by
    intro d hd
    unfold IsScalar at hd
    omega
  obtain ⟨k, hK, hTake, hState⟩ := decodeUtf8_part (hRange hScalar) hPart hBegun hOpen
  rw [hState]
  generalize hN : Utf8.following c - k = n
  have hPos : 0 < n := by omega
  have hCompletes : ∀ c', IsScalar c' → (part <+: Utf8.encode c' ↔
      lowestCompletion ⟨c / 64 ^ n, n⟩ ≤ c' ∧ c' ≤ highestCompletion ⟨c / 64 ^ n, n⟩) := by
    intro c' hc'
    rw [hTake, Utf8.prefix_encode_iff (hRange hScalar) (hRange hc') hK, hN]
    exact completion_iff hPos (by omega) c' (hRange hScalar)
  have hHere := (hCompletes c hScalar).mp (hPart ▸ prefix_append part rest)
  have hAnswer : matchPartialChar rules p ⟨c / 64 ^ n, n⟩ =
      ((classItems (suffix rules p)).any (CharItem.touches (lowestCompletion ⟨c / 64 ^ n, n⟩)
        (highestCompletion ⟨c / 64 ^ n, n⟩)) == (elem rules p).isPositiveChar) := by
    unfold matchPartialChar
    have hValid : ¬ (((n : Int) < 0) ∨ (n : Int) = 1 ∧ c / 64 ^ n < 2) := by
      rintro (hNegative | ⟨hOne, hSmall⟩)
      · omega
      have hOne : n = 1 := by omega
      have hLong : ¬ c < 0x80 := by
        intro hShort
        have hZero : Utf8.following c = 0 := if_pos hShort
        omega
      rw [hOne] at hSmall
      omega
    dsimp only
    rw [if_neg hValid, matchPartialLoop_eq]
    rfl
  generalize lowestCompletion ⟨c / 64 ^ n, n⟩ = low at *
  generalize highestCompletion ⟨c / 64 ^ n, n⟩ = high at *
  have hTouch : ∀ c', low ≤ c' → c' ≤ high →
      (∃ item ∈ classItems (suffix rules p), item.contains c' = true) →
        ∃ item ∈ classItems (suffix rules p), item.touches low high = true := by
    rintro c' hLow hHigh ⟨item, hMem, hContains⟩
    exact ⟨item, hMem, touches_of_contains hLow hHigh hContains⟩
  have hTrue : matchPartialChar rules p ⟨c / 64 ^ n, n⟩ = true ↔
      ((∃ item ∈ classItems (suffix rules p), item.touches low high = true) ↔
        (elem rules p).isPositiveChar = true) := by
    rw [hAnswer, beq_iff_eq, Bool.eq_iff_iff, List.any_eq_true]
  have hMatches : ∀ c', (matchChar rules p c').1 = true ↔
      ((∃ item ∈ classItems (suffix rules p), item.contains c' = true) ↔
        (elem rules p).isPositiveChar = true) := fun c' => (matchChar_spec rules p c').1
  rw [hTrue]
  unfold PartialDecided
  by_cases hPositive : (elem rules p).isPositiveChar = true
  · simp only [hPositive, iff_true] at hMatches ⊢
    have hMeets : (∃ item ∈ classItems (suffix rules p), item.MeetsScalar low high) ↔
        ∃ c', IsScalar c' ∧ part <+: Utf8.encode c' ∧ (matchChar rules p c').1 = true := by
      constructor
      · rintro ⟨item, hMem, hMeet⟩
        obtain ⟨c', hLow, hHigh, hc', hContains⟩ :=
          (meetsScalar_iff ⟨c, hHere.1, hHere.2, hScalar⟩).mp hMeet
        exact ⟨c', hc', (hCompletes c' hc').mpr ⟨hLow, hHigh⟩,
          (hMatches c').mpr ⟨item, hMem, hContains⟩⟩
      rintro ⟨c', hc', hPrefix, hMatch⟩
      obtain ⟨hLow, hHigh⟩ := (hCompletes c' hc').mp hPrefix
      obtain ⟨item, hMem, hContains⟩ := (hMatches c').mp hMatch
      exact ⟨item, hMem, (meetsScalar_iff ⟨c', hLow, hHigh, hc'⟩).mpr
        ⟨c', hLow, hHigh, hc', hContains⟩⟩
    rw [hMeets]
    constructor
    · exact fun h => h.mp
    intro h
    refine ⟨h, fun hMatch => ?_⟩
    obtain ⟨c', hc', hPrefix, hContains⟩ := hMatch
    obtain ⟨hLow, hHigh⟩ := (hCompletes c' hc').mp hPrefix
    exact hTouch c' hLow hHigh ((hMatches c').mp hContains)
  simp only [hPositive, Bool.false_eq_true, iff_false] at hMatches ⊢
  by_cases hMeet : ∃ item ∈ classItems (suffix rules p), item.touches low high = true
  · constructor
    · intro hIff _ c' hLow hHigh hc'
      by_contra hOut
      exact (hIff.mpr ⟨c', hc', (hCompletes c' hc').mpr ⟨hLow, hHigh⟩,
        (hMatches c').mpr hOut⟩) hMeet
    intro hCovers
    refine ⟨fun hNot => absurd hMeet hNot, fun hMatch => ?_⟩
    obtain ⟨c', hc', hPrefix, hOut⟩ := hMatch
    obtain ⟨hLow, hHigh⟩ := (hCompletes c' hc').mp hPrefix
    exact absurd (hCovers hMeet c' hLow hHigh hc') ((hMatches c').mp hOut)
  refine ⟨fun _ hSome => absurd hSome hMeet, fun _ => ⟨fun _ => ?_, fun _ => hMeet⟩⟩
  exact ⟨c, hScalar, (hCompletes c hScalar).mpr hHere,
    (hMatches c).mpr fun hIn => hMeet (hTouch c hHere.1 hHere.2 hIn)⟩

/-- `[a-z]`, behind the first byte of an accented letter: no completion is in the class, and the
code's answer is right. -/
theorem lowerCase_decided :
    [0xC3] ++ [0xA9] = Utf8.encode 0xE9 ∧
      (matchPartialChar [[⟨.char, 0x61⟩, ⟨.charRngUpper, 0x7A⟩, endElement]] ⟨0, 0⟩
          (decodeUtf8 [0xC3] {}).2 = true ↔
        ∃ c', IsScalar c' ∧ [0xC3] <+: Utf8.encode c' ∧
          (matchChar [[⟨.char, 0x61⟩, ⟨.charRngUpper, 0x7A⟩, endElement]] ⟨0, 0⟩ c').1 = true) :=
  ⟨by decide, (@matchPartialChar_iff [[⟨.char, 0x61⟩, ⟨.charRngUpper, 0x7A⟩, endElement]] ⟨0, 0⟩ 0xE9
    (by decide) [0xC3] [0xA9] (by decide) (by decide) (by decide)).mpr (by
      rintro ⟨item, hMem, hTouch⟩
      exact absurd hTouch (by revert item; decide))⟩

/-- `[^é]`, behind the first byte of é: the code answers that nothing can match, though À can. -/
theorem negatedAccent_undecided :
    ¬ (matchPartialChar [[⟨.charNot, 0xE9⟩, endElement]] ⟨0, 0⟩ (decodeUtf8 [0xC3] {}).2 = true ↔
      ∃ c', IsScalar c' ∧ [0xC3] <+: Utf8.encode c' ∧
        (matchChar [[⟨.charNot, 0xE9⟩, endElement]] ⟨0, 0⟩ c').1 = true) := by
  intro h
  have hMatch := h.mpr ⟨0xC0, by decide, by decide, by decide⟩
  exact absurd hMatch (by decide)

end Grammar

end Beellama.Ports
