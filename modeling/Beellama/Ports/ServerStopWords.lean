import Beellama.Ports.ServerCompletion

/-!
# Stop words in a generated text

The search after a token reaches back as far as the word and the piece of that token.  Pieces that end
inside a character are not searched, so a stop word may lie further back: it is found exactly if it
reaches the last piece (`stops_iff`).
-/

namespace Beellama.Ports

open Beellama.Verified List

namespace CompletionSlot

variable {ctx : CompletionContext} {slot : CompletionSlot} {call last : TokenCall}
  {calls : List TokenCall} {words : List (List UInt8)} {text : List UInt8} {n : Nat}

/-- The text that the pieces make up. -/
def accumulated (calls : List TokenCall) : List UInt8 := (calls.map TokenCall.piece).flatten

/-- No stop word occurs in the text. -/
def NoStop (words : List (List UInt8)) (text : List UInt8) : Prop :=
  ∀ w ∈ words, ∀ p ≤ text.length, ¬ w <+: text.drop p

/-- The earliest position at which a stop word occurs. -/
def FirstStop (words : List (List UInt8)) (text : List UInt8) (e : Nat) : Prop :=
  (∃ w ∈ words, w <+: text.drop e) ∧ ∀ w ∈ words, ∀ p < e, ¬ w <+: text.drop p

/-- The text is cut at a position because of a stop word. -/
def StopsAt (slot : CompletionSlot) (text : List UInt8) (e : Nat) : Prop :=
  slot.stop = .word ∧ slot.hasNextToken = false ∧ slot.generatedText = text.take e

/-! ## The search -/

/-- A word that the search for full stops comes upon. -/
def Seen (words : List (List UInt8)) (text : List UInt8) (n p : Nat) (w : List UInt8) : Prop :=
  w ∈ words ∧ text.length - (w.length + n) ≤ p ∧ p ≤ text.length ∧ w <+: text.drop p

/-- The search finds the leftmost of the words it comes upon. -/
def IsLeftmost (words : List (List UInt8)) (text : List UInt8) (n : Nat) :
    Option (Nat × List UInt8) → Prop
  | none => ∀ p w, ¬ Seen words text n p w
  | some (pos, word) => Seen words text n pos word ∧ ∀ p w, Seen words text n p w → pos ≤ p

theorem findStoppingStrings_leftmost :
    IsLeftmost words text n (findStoppingStrings words text n true) := by
  unfold findStoppingStrings
  induction words using reverseRecOn with
  | nil => exact fun p w h => absurd h.1 not_mem_nil
  | append_singleton words word ih =>
    rw [foldl_append, foldl_cons, foldl_nil]
    generalize words.foldl _ none = best at ih ⊢
    have hSplit : ∀ p w, Seen (words ++ [word]) text n p w → Seen words text n p w ∨
        w = word ∧ text.length - (word.length + n) ≤ p ∧ p ≤ text.length ∧
          word <+: text.drop p := by
      rintro p w ⟨hw, hWindow, hLe, hOcc⟩
      rcases mem_append.mp hw with hOld | hNew
      · exact .inl ⟨hOld, hWindow, hLe, hOcc⟩
      · obtain rfl := mem_singleton.mp hNew
        exact .inr ⟨rfl, hWindow, hLe, hOcc⟩
    have hMono : ∀ {p w}, Seen words text n p w → Seen (words ++ [word]) text n p w :=
      fun h => ⟨mem_append_left _ h.1, h.2⟩
    rw [if_pos rfl]
    cases hPos : searchFrom text word (text.length - (word.length + n)) with
    | none =>
      have hNone := searchFrom_eq_none_iff.mp hPos
      have hOld : ∀ p w, Seen (words ++ [word]) text n p w → Seen words text n p w := by
        intro p w h
        rcases hSplit p w h with hOld | ⟨-, hWindow, hLe, hOcc⟩
        · exact hOld
        · exact absurd hOcc (hNone p hWindow hLe)
      cases best with
      | none => exact fun p w h => ih p w (hOld p w h)
      | some found => exact ⟨hMono ih.1, fun p w h => ih.2 p w (hOld p w h)⟩
    | some pos =>
      obtain ⟨hWindow, hLe, hOcc, hFirst⟩ := searchFrom_eq_some_iff.mp hPos
      have hHere : Seen (words ++ [word]) text n pos word :=
        ⟨mem_append_right _ (mem_singleton.mpr rfl), hWindow, hLe, hOcc⟩
      have hWord : ∀ p, text.length - (word.length + n) ≤ p → word <+: text.drop p → pos ≤ p := by
        intro p hp hOcc'
        by_contra hLess
        exact hFirst p hp (by omega) hOcc'
      cases best with
      | none =>
        refine ⟨hHere, fun p w h => ?_⟩
        rcases hSplit p w h with hOld | ⟨-, hIn, -, hAt⟩
        · exact absurd hOld (ih p w)
        · exact hWord p hIn hAt
      | some found =>
        dsimp only [Option.all_some]
        split
        · rename_i hLess
          have hLt : pos < found.1 := of_decide_eq_true hLess
          refine ⟨hHere, fun p w h => ?_⟩
          rcases hSplit p w h with hOld | ⟨-, hIn, -, hAt⟩
          · have hLe := ih.2 p w hOld
            omega
          · exact hWord p hIn hAt
        rename_i hNot
        have hGe : ¬pos < found.1 := fun hLt => hNot (decide_eq_true hLt)
        refine ⟨hMono ih.1, fun p w h => ?_⟩
        rcases hSplit p w h with hOld | ⟨-, hIn, -, hAt⟩
        · exact ih.2 p w hOld
        · have hLe := hWord p hIn hAt
          omega

variable {e : Nat}

/-- Behind `k` elements that are before every stop word, the search finds the first stop word
exactly if one that occurs there reaches the last `n` elements. -/
theorem search_iff {k : Nat} (hWords : ∀ w ∈ words, w ≠ []) (hFirst : FirstStop words text e)
    (hk : k ≤ e) :
    (∃ word, findStoppingStrings words (text.drop k) n true = some (e - k, word)) ↔
      ∃ w ∈ words, w <+: text.drop e ∧ text.length ≤ e + w.length + n := by
  have hLeft := @findStoppingStrings_leftmost words (text.drop k) n
  have hAt : ∀ p, (text.drop k).drop p = text.drop (k + p) := fun p => drop_drop
  have hInside : ∀ w ∈ words, w <+: text.drop e → e < text.length := by
    intro w hw hOcc
    have hLength := hOcc.length_le
    have hSome := length_pos_of_ne_nil (hWords w hw)
    rw [length_drop] at hLength
    omega
  have hEnd : k + (e - k) = e := by omega
  constructor
  · rintro ⟨word, hFound⟩
    rw [hFound] at hLeft
    obtain ⟨hw, hWindow, -, hOcc⟩ := hLeft.1
    rw [hAt, hEnd] at hOcc
    rw [length_drop] at hWindow
    exact ⟨word, hw, hOcc, by omega⟩
  rintro ⟨w, hw, hOcc, hReach⟩
  have hLess := hInside w hw hOcc
  have hSeen : Seen words (text.drop k) n (e - k) w := by
    refine ⟨hw, ?_, ?_, ?_⟩
    · rw [length_drop]
      omega
    · rw [length_drop]
      omega
    · rw [hAt, hEnd]
      exact hOcc
  cases hFound : findStoppingStrings words (text.drop k) n true with
  | none =>
    rw [hFound] at hLeft
    exact absurd hSeen (hLeft _ _)
  | some found =>
    rw [hFound] at hLeft
    have hLe := hLeft.2 _ _ hSeen
    have hNotBefore : ¬k + found.1 < e := by
      intro hBefore
      have hHere := hLeft.1.2.2.2
      rw [hAt] at hHere
      exact hFirst.2 _ hLeft.1.1 _ hBefore hHere
    exact ⟨found.2, by rw [show e - k = found.1 by omega]⟩

/-! ## What has been sent -/

/-- Neither text is the start of the other. -/
def Apart (a b : List UInt8) : Prop := ¬ a <+: b ∧ ¬ b <+: a

theorem Apart.append {a b : List UInt8} (h : Apart a b) (c : List UInt8) : Apart a (b ++ c) := by
  refine ⟨fun hStart => ?_, fun hStart => h.2 ((prefix_append b c).trans hStart)⟩
  rcases prefix_or_prefix_of_prefix hStart (prefix_append b c) with hLeft | hRight
  · exact h.1 hLeft
  · exact h.2 hRight

/-- The slot has the whole text, and no stop word begins in what has been sent of it. -/
structure Watched (words : List (List UInt8)) (text : List UInt8) (slot : CompletionSlot) :
    Prop where
  text_eq : slot.generatedText = text
  sent_le : slot.nSentText ≤ text.length
  apart : ∀ w ∈ words, ∀ p < slot.nSentText, Apart w (text.drop p)

theorem Watched.append (h : Watched words text slot) :
    Watched words (text ++ call.piece) (slot.append call) where
  text_eq := by
    unfold CompletionSlot.append
    rw [h.text_eq]
  sent_le := by
    rw [length_append]
    exact Nat.le_add_right_of_le h.sent_le
  apart w hw p hp := by
    have hLe : p ≤ text.length := Nat.le_of_lt (Nat.lt_of_lt_of_le hp h.sent_le)
    rw [drop_append_of_le_length hLe]
    exact (h.apart w hw p hp).append call.piece

/-- A check that lets the generation go on leaves the text alone. -/
def LeavesText (check : CompletionSlot → CompletionSlot) : Prop :=
  ∀ slot, (check slot).hasNextToken = true → slot.hasNextToken = true ∧
    (check slot).generatedText = slot.generatedText ∧ (check slot).nSentText = slot.nSentText

theorem LeavesText.comp {f g : CompletionSlot → CompletionSlot} (hf : LeavesText f)
    (hg : LeavesText g) : LeavesText fun slot => g (f slot) := by
  intro slot hNext
  obtain ⟨hMiddle, hText, hSent⟩ := hg _ hNext
  obtain ⟨hStart, hText', hSent'⟩ := hf _ hMiddle
  exact ⟨hStart, hText.trans hText', hSent.trans hSent'⟩

variable {textToSend : List UInt8}

theorem finishToken_leavesText : LeavesText fun slot => finishToken ctx slot textToSend call := by
  have hLimits : LeavesText fun slot => checkLimits ctx slot call := by
    intro slot
    simp only [checkLimits, stopByLimit]
    split <;> split <;> simp
  have hIndentation : LeavesText fun slot => checkIndentation ctx slot := by
    intro slot
    simp only [checkIndentation, cutLastLine, stopByLimit]
    split
    · split <;> split <;> simp
    · simp
  have hNewLine : LeavesText fun slot => checkNewLine ctx slot textToSend call := by
    intro slot
    simp only [checkNewLine, stopByLimit]
    split
    · split <;> simp
    · simp
  have hEog : LeavesText fun slot => checkEog ctx slot call := by
    intro slot
    simp only [checkEog]
    split <;> simp
  exact ((hLimits.comp hIndentation).comp hNewLine).comp hEog

theorem isEog_of_next (hNext : (finishToken ctx slot textToSend call).hasNextToken = true) :
    ctx.isEog call.tok = false := by
  rw [Bool.eq_false_iff]
  intro hEog
  unfold finishToken checkEog at hNext
  rw [if_pos hEog] at hNext
  exact absurd hNext (by simp)

theorem Watched.of_eq (h : Watched words text slot) {slot' : CompletionSlot}
    (hText : slot'.generatedText = slot.generatedText) (hSent : slot'.nSentText = slot.nSentText) :
    Watched words text slot' :=
  ⟨hText.trans h.text_eq, hSent ▸ h.sent_le, hSent ▸ h.apart⟩

/-- The search does not find a stop word in a text without one. -/
theorem Watched.not_found (h : Watched words text slot) (hNone : NoStop words text) (n : Nat) :
    findStoppingStrings words (slot.generatedText.drop slot.nSentText) n true = none := by
  have hLeft := @findStoppingStrings_leftmost words
    (slot.generatedText.drop slot.nSentText) n
  have hSentLe := h.sent_le
  by_contra hSome
  obtain ⟨found, hFound⟩ := Option.ne_none_iff_exists'.mp hSome
  rw [hFound] at hLeft
  obtain ⟨hw, -, hLe, hOcc⟩ := hLeft.1
  rw [drop_drop, h.text_eq] at hOcc
  rw [length_drop, h.text_eq] at hLe
  exact hNone found.2 hw _ (by omega) hOcc

/-- A search that finds no stop word, in a text without one. -/
theorem Watched.search (h : Watched ctx.params.antiprompt text slot)
    (hNext : slot.hasNextToken = true) (hEog : ctx.isEog call.tok = false)
    (hNone : NoStop ctx.params.antiprompt text) :
    Watched ctx.params.antiprompt text (slot.searchStops ctx call).1 := by
  have hLe : slot.nSentText ≤ slot.generatedText.length := h.text_eq ▸ h.sent_le
  have hFound := h.not_found hNone call.piece.length
  by_cases hHeld : Held ctx slot call
  · rw [searchStops_held hLe hNext hHeld]
    exact h
  rw [searchStops_sent hLe hNext hHeld hFound]
  have hPartial : ¬(findStoppingStrings ctx.params.antiprompt
      (slot.generatedText.drop slot.nSentText) call.piece.length false).isSome = true :=
    fun hSome => hHeld ⟨hFound, hEog, hSome⟩
  rw [findStoppingStrings_isSome_iff] at hPartial
  have hAll : (slot.sendFrom slot.nSentText).1.nSentText = text.length := by
    unfold sendFrom
    dsimp only
    rw [length_drop, h.text_eq]
    have hSentLe := h.sent_le
    omega
  refine ⟨h.text_eq, Nat.le_of_eq hAll, fun w hw p hp => ?_⟩
  rw [hAll] at hp
  by_cases hOld : p < slot.nSentText
  · exact h.apart w hw p hOld
  refine ⟨hNone w hw p (Nat.le_of_lt hp), fun hStart => hPartial ⟨w, hw, ?_⟩⟩
  -- the text from `p` on would be a start of the word, and be held back
  refine stringFindPartialStop_isSome_iff.mpr ⟨text.drop p, ?_, hStart, ?_⟩
  · intro hNil
    have hLength := congrArg length hNil
    rw [length_drop, length_nil] at hLength
    omega
  · rw [h.text_eq, show p = slot.nSentText + (p - slot.nSentText) by omega, ← drop_drop]
    exact drop_suffix _ _

/-- A token after which the generation goes on, and the text has no stop word if it was searched. -/
theorem Watched.processToken (h : Watched ctx.params.antiprompt text slot)
    (hGoes : slot.stop = .none ∨ slot.hasNextToken = true)
    (hNext : (processToken ctx slot call).1.hasNextToken = true)
    (hNone : (slot.append call).incomplete = false →
      NoStop ctx.params.antiprompt (text ++ call.piece)) :
    Watched ctx.params.antiprompt (text ++ call.piece) (processToken ctx slot call).1 := by
  have hAppend := @Watched.append _ call _ _ h
  unfold CompletionSlot.processToken at hNext ⊢
  dsimp only at hNext ⊢
  by_cases hIncomplete : (slot.append call).incomplete = true
  · rw [if_pos hIncomplete] at hNext ⊢
    obtain ⟨-, hText, hSent⟩ := finishToken_leavesText _ hNext
    refine hAppend.of_eq (hText.trans ?_) (hSent.trans ?_)
    · split <;> rfl
    · split <;> rfl
  rw [if_neg hIncomplete] at hNext ⊢
  obtain ⟨-, hText, hSent⟩ := finishToken_leavesText _ hNext
  have hSlot : (slot.append call).hasNextToken = true := by
    unfold CompletionSlot.append
    dsimp only
    rcases hGoes with hStop | hTrue
    · rw [hStop]
      rfl
    · rw [hTrue, Bool.not_true, Bool.and_false]
      rfl
  exact (hAppend.search hSlot (isEog_of_next hNext)
    (hNone (Bool.eq_false_iff.mpr hIncomplete))).of_eq hText hSent

/-- The text after some tokens is complete. -/
def Complete (calls : List TokenCall) : Prop :=
  validateUtf8 (accumulated calls) = (accumulated calls).length

/-- The generation goes on after each of the tokens, and no stop word has been in a complete text. -/
structure Goes (ctx : CompletionContext) (slot : CompletionSlot) (calls : List TokenCall) :
    Prop where
  next : ∀ k < calls.length, (generate ctx slot (calls.take (k + 1))).1.hasNextToken = true
  noStop : ∀ k ≤ calls.length, Complete (calls.take k) →
    NoStop ctx.params.antiprompt (accumulated (calls.take k))

theorem accumulated_snoc : accumulated (calls ++ [call]) = accumulated calls ++ call.piece := by
  unfold accumulated
  simp

theorem complete_of (h : Watched words (accumulated calls) slot)
    (hIncomplete : (slot.append call).incomplete = false) : Complete (calls ++ [call]) := by
  unfold incomplete append at hIncomplete
  dsimp only at hIncomplete
  rw [h.text_eq, ← accumulated_snoc, decide_eq_false_iff_not] at hIncomplete
  have hLe : validateUtf8 (accumulated (calls ++ [call])) ≤
      (accumulated (calls ++ [call])).length := by
    unfold validateUtf8
    split
    · exact Nat.sub_le _ _
    · exact Nat.le_refl _
  unfold Complete
  omega

theorem Goes.watched (h : Goes ctx slot.reset calls) :
    Watched ctx.params.antiprompt (accumulated calls) (generate ctx slot.reset calls).1 ∧
      ((generate ctx slot.reset calls).1.stop = .none ∨
        (generate ctx slot.reset calls).1.hasNextToken = true) := by
  induction calls using reverseRecOn with
  | nil => exact ⟨⟨rfl, Nat.le_refl _, fun w hw p hp => absurd hp (Nat.not_lt_zero p)⟩, .inl rfl⟩
  | append_singleton before call ih =>
    have hLength : (before ++ [call]).length = before.length + 1 := length_append
    have hBefore : Goes ctx slot.reset before := by
      refine ⟨fun k hk => ?_, fun k hk => ?_⟩
      · have hNext := h.next k (by omega)
        rwa [take_append_of_le_length (by omega)] at hNext
      · have hNone := h.noStop k (by omega)
        rwa [take_append_of_le_length hk] at hNone
    obtain ⟨hWatched, hUnstopped⟩ := ih hBefore
    have hLast := h.next before.length (by omega)
    have hNone := h.noStop (before.length + 1) (by omega)
    rw [take_of_length_le (by omega)] at hLast hNone
    rw [generate_snoc] at hLast ⊢
    rw [accumulated_snoc] at hNone ⊢
    exact ⟨hWatched.processToken hUnstopped hLast fun hSearched =>
      hNone (complete_of hWatched hSearched), .inr hLast⟩

theorem Watched.stopsAt_iff (h : Watched ctx.params.antiprompt text slot)
    (hBehind : slot.nSentText ≤ e) (hInside : e < text.length) :
    StopsAt (slot.searchStops ctx call).1 text e ↔
      ∃ word, findStoppingStrings ctx.params.antiprompt (text.drop slot.nSentText)
        call.piece.length true = some (e - slot.nSentText, word) := by
  have hLeft := @findStoppingStrings_leftmost ctx.params.antiprompt
    (text.drop slot.nSentText) call.piece.length
  unfold searchStops StopsAt
  dsimp only
  rw [h.text_eq, Nat.min_eq_left h.sent_le]
  cases hFound : findStoppingStrings ctx.params.antiprompt (text.drop slot.nSentText)
      call.piece.length true with
  | none =>
    refine iff_of_false (fun hStops => ?_) (by simp)
    have hSame : slot.generatedText = text.take e := by
      have hCut := hStops.2.2
      dsimp only at hCut
      split at hCut
      · exact hCut
      · exact hCut
    have hLength := congrArg length hSame
    rw [h.text_eq, length_take] at hLength
    omega
  | some found =>
    rw [hFound] at hLeft
    have hLe := hLeft.1.2.2.1
    constructor
    · rintro ⟨-, -, hCut⟩
      have hLength := congrArg length
        (show text.take (slot.nSentText + found.1) = text.take e from hCut)
      rw [length_take, length_take] at hLength
      exact ⟨found.2, by rw [show e - slot.nSentText = found.1 by omega]⟩
    rintro ⟨word, hWord⟩
    obtain rfl := Option.some.inj hWord
    refine ⟨rfl, rfl, ?_⟩
    show text.take (slot.nSentText + (e - slot.nSentText)) = text.take e
    rw [show slot.nSentText + (e - slot.nSentText) = e by omega]

/-- None of the checks behind the search stops the generation: there is room in the context, no
indentation is asked for, it is not late and the token does not end the text. -/
structure Silent (ctx : CompletionContext) (call : TokenCall) : Prop where
  room : ctx.ctxShift = true ∨ call.nPromptTokens + 1 < ctx.nCtx
  indent : ctx.params.nIndent ≤ 0
  inTime : 0 < ctx.params.tMaxPredictMs → call.late = false
  noEog : ctx.isEog call.tok = false

/-- Only the budget can stop it then, and a stop word goes before the budget. -/
theorem Silent.finishToken (h : Silent ctx call) :
    StopsAt (finishToken ctx slot textToSend call) text e ↔ StopsAt slot text e := by
  have hRoom : (!ctx.ctxShift && decide (ctx.nCtx ≤ call.nPromptTokens + 1)) = false := by
    rcases h.room with hShift | hLess
    · rw [hShift]
      rfl
    · rw [decide_eq_false (by omega), Bool.and_false]
  have hTime : (decide (0 < ctx.params.tMaxPredictMs) && call.late) = false := by
    by_cases hAsked : 0 < ctx.params.tMaxPredictMs
    · rw [h.inTime hAsked, Bool.and_false]
    · rw [decide_eq_false hAsked, Bool.false_and]
  have hIndent : decide (0 < ctx.params.nIndent) = false := decide_eq_false (Int.not_lt.mpr h.indent)
  unfold CompletionSlot.finishToken checkEog checkNewLine checkIndentation checkLimits
  simp only [h.noEog, hTime, hRoom, hIndent, Bool.and_false, Bool.false_eq_true, if_false]
  have hSame : ∀ s : CompletionSlot, StopsAt (if textToSend.contains 10 = true then
      { s with hasNewLine := true } else s) text e ↔ StopsAt s text e := by
    intro s
    split <;> exact Iff.rfl
  rw [hSame]
  split
  · rename_i hBudget
    have hNext : slot.hasNextToken = true := by
      simp only [Bool.and_eq_true] at hBudget
      exact hBudget.1.2
    refine iff_of_false (fun hStops => ?_) fun hStops => ?_
    · exact absurd (show StopType.limit = .word from hStops.1) (by decide)
    · exact absurd (hNext.symm.trans hStops.2.1) (by decide)
  · exact Iff.rfl

/-- With the other checks silent, the token stops the generation by a word where its search does. -/
theorem processToken_stopsAt_iff (h : Silent ctx call)
    (hComplete : (slot.append call).incomplete = false) :
    StopsAt (processToken ctx slot call).1 text e ↔
      StopsAt ((slot.append call).searchStops ctx call).1 text e := by
  unfold processToken
  dsimp only
  rw [hComplete]
  exact h.finishToken

/-- When the text becomes complete, a text without stop words does not stop the generation; in one
with stop words the first one is behind all that was sent, and the text is cut there exactly if a
stop word that begins there reaches the last piece. -/
theorem stops_iff (hWords : ∀ w ∈ ctx.params.antiprompt, w ≠ []) (h : Goes ctx slot.reset calls) :
    (NoStop ctx.params.antiprompt (accumulated (calls ++ [last])) →
      (((generate ctx slot.reset calls).1.append last).searchStops ctx last).1.stop =
        (generate ctx slot.reset calls).1.stop) ∧
    ∀ e, FirstStop ctx.params.antiprompt (accumulated (calls ++ [last])) e →
      (generate ctx slot.reset calls).1.nSentText ≤ e ∧
      (StopsAt (((generate ctx slot.reset calls).1.append last).searchStops ctx last).1
          (accumulated (calls ++ [last])) e ↔
        ∃ w ∈ ctx.params.antiprompt, w <+: (accumulated (calls ++ [last])).drop e ∧
          (accumulated (calls ++ [last])).length ≤ e + w.length + last.piece.length) := by
  have hWatched := @Watched.append _ last _ _ h.watched.1
  rw [← accumulated_snoc] at hWatched
  have hStop : ((generate ctx slot.reset calls).1.append last).stop =
      (generate ctx slot.reset calls).1.stop := rfl
  have hSent : ((generate ctx slot.reset calls).1.append last).nSentText =
      (generate ctx slot.reset calls).1.nSentText := rfl
  rw [← hStop, ← hSent]
  generalize (generate ctx slot.reset calls).1.append last = s at *
  generalize accumulated (calls ++ [last]) = text at *
  refine ⟨fun hNone => ?_, fun e hFirst => ?_⟩
  · have hFound := hWatched.not_found hNone last.piece.length
    unfold searchStops
    dsimp only
    rw [hWatched.text_eq, Nat.min_eq_left hWatched.sent_le, ← hWatched.text_eq, hFound]
    dsimp only
    split <;> rfl
  obtain ⟨w, hw, hOcc⟩ := hFirst.1
  have hBehind : s.nSentText ≤ e := by
    by_contra hBefore
    exact (hWatched.apart w hw e (by omega)).1 hOcc
  have hInside : e < text.length := by
    have hLength := hOcc.length_le
    have hSome := length_pos_of_ne_nil (hWords w hw)
    rw [length_drop] at hLength
    omega
  rw [hWatched.stopsAt_iff hBehind hInside]
  exact ⟨hBehind, search_iff hWords hFirst hBehind⟩

/-- The stop word is `ab`. -/
def oneStopWord : CompletionContext where
  params := { antiprompt := [[97, 98]] }
  nCtx := 100
  isEog := fun tok => tok = 0

/-- `ab` with the first byte of a character, and its other bytes. -/
def cutCharacter : List TokenCall :=
  [{ firstToken with piece := [97, 98, 0xE2] }, { firstToken with piece := [0x82] },
    { firstToken with piece := [0xAC] }]

theorem oneStopWord_words : ∀ w ∈ oneStopWord.params.antiprompt, w ≠ [] := by decide

/-- `a` and then `b`. -/
theorem plainLetters_stop :
    StopsAt (processToken oneStopWord
      (generate oneStopWord (reset {}) [{ firstToken with piece := [97] }]).1
        { firstToken with piece := [98] }).1 [97, 98] 0 := by
  have hGoes : Goes oneStopWord (reset {}) [{ firstToken with piece := [97] }] := by
    refine ⟨fun k hk => ?_, fun k hk hComplete => ?_⟩
    · obtain rfl : k = 0 := by simpa using hk
      decide
    have hAll : ∀ k ≤ 1, NoStop oneStopWord.params.antiprompt
        (accumulated ([{ firstToken with piece := [97] }].take k)) := by
      unfold NoStop
      decide
    exact hAll k hk
  have hFirst : FirstStop oneStopWord.params.antiprompt [97, 98] 0 :=
    ⟨⟨[97, 98], by decide, by decide⟩, fun w hw p hp => absurd hp (Nat.not_lt_zero p)⟩
  have hSilent : Silent oneStopWord { firstToken with piece := [98] } :=
    ⟨by decide, by decide, by decide, by decide⟩
  rw [processToken_stopsAt_iff hSilent (by decide)]
  exact ((@stops_iff _ _ { firstToken with piece := [98] } _ oneStopWord_words hGoes).2 0
    hFirst).2.mpr ⟨[97, 98], by decide, by decide, by decide⟩

/-- The text is first complete after the third piece; its stop word is not found. -/
theorem cutCharacter_goes :
    ¬Complete (cutCharacter.take 1) ∧ ¬Complete (cutCharacter.take 2) ∧ Complete cutCharacter ∧
      [97, 98] <+: accumulated cutCharacter ∧
        (generate oneStopWord (reset {}) cutCharacter).1.stop = .none := by
  unfold Complete
  decide

end CompletionSlot

end Beellama.Ports
