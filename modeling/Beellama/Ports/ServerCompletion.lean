import Beellama.Verified.Search

/-!
# The text of a completion

`process_token` of the server: a stop word is searched and cut off, text that may become one is held
back, and limits and the end-of-generation token stop the generation.  The limits are checked after
the decision to hold text back, so a limit at such a token loses the text that is held back.
-/

namespace Beellama.Ports

open Beellama.Verified List Option

/-! ## Strings -/

/-- Where the longest start of `stop` at the end of `str` begins. -/
def stringFindPartialStop (str stop : List UInt8) : Option Nat :=
  ((List.range' 1 (min str.length stop.length)).reverse.find? fun len =>
    stop[len - 1]? == str.getLast? && (stop.take len).isSuffixOf str).map (str.length - ·)

/-- The byte at this distance from the end starts a character that is cut off. -/
def isCutOff (c : UInt8) (i : Nat) : Bool :=
  if c &&& 0xE0 == 0xC0 then i < 2
  else if c &&& 0xF0 == 0xE0 then i < 3
  else if c &&& 0xF8 == 0xF0 then i < 4
  else false

/-- The length of the text without a multi-byte character that is cut off at its end. -/
def validateUtf8 (text : List UInt8) : Nat :=
  match (List.range' 1 (min 4 text.length)).find? fun i =>
      text[text.length - i]?.any fun c => isCutOff c i with
  | some i => text.length - i
  | none => text.length

theorem stringFindPartialStop_isSome_iff {str stop : List UInt8} :
    (stringFindPartialStop str stop).isSome = true ↔
      ∃ start, start ≠ [] ∧ start <+: stop ∧ start <:+ str := by
  unfold stringFindPartialStop
  rw [isSome_map, find?_isSome]
  constructor
  · rintro ⟨len, hMem, hBoth⟩
    obtain ⟨-, hSuffix⟩ := Bool.and_eq_true_iff.mp hBoth
    obtain ⟨hPos, hLt⟩ := mem_range'_1.mp (mem_reverse.mp hMem)
    refine ⟨stop.take len, fun hNil => ?_, take_prefix _ _,
      isSuffixOf_iff_suffix.mp hSuffix⟩
    have hLength := congrArg length hNil
    rw [length_take, length_nil] at hLength
    omega
  rintro ⟨start, hNonempty, hPrefix, hSuffix⟩
  have hPos : 0 < start.length := length_pos_iff.mpr hNonempty
  have hTake : stop.take start.length = start := (prefix_iff_eq_take.mp hPrefix).symm
  have hStop := hPrefix.length_le
  have hStr := hSuffix.length_le
  have hLast : stop[start.length - 1]? = str.getLast? := by
    obtain ⟨before, rfl⟩ := hSuffix
    obtain ⟨rest, rfl⟩ := hPrefix
    rw [getLast?_append_of_ne_nil _ hNonempty, getElem?_append_left (by omega),
      getLast?_eq_getElem?]
  refine ⟨start.length, mem_reverse.mpr (mem_range'_1.mpr ⟨hPos, by omega⟩), ?_⟩
  rw [hLast, hTake, beq_self_eq_true]
  exact isSuffixOf_iff_suffix.mpr hSuffix

/-! ## The slot -/

inductive StopType
  | none
  | eos
  | word
  | limit
  deriving DecidableEq

/-- `task_params`, those that decide about the text. -/
structure TaskParams where
  stream : Bool := true
  antiprompt : List (List UInt8) := []
  nPredict : Int := -1
  nIndent : Int := 0
  tMaxPredictMs : Int := -1
  deriving DecidableEq

/-- The slot's task and what is fixed for the server: `params_base`, `n_ctx` and the vocabulary. -/
structure CompletionContext where
  params : TaskParams
  ctxShift : Bool := false
  nPredict : Int := -1
  nCtx : Nat
  isEog : Int → Bool

/-- `server_slot`, what it keeps of the text. -/
structure CompletionSlot where
  generatedText : List UInt8 := []
  nSentText : Nat := 0
  hasNextToken : Bool := true
  hasNewLine : Bool := false
  lastNlPos : Nat := 0
  truncated : Bool := false
  stop : StopType := .none
  stopDetail : String := ""
  stoppingWord : List UInt8 := []
  deriving DecidableEq

/-- A sampled token with its piece, and what the slot and the clock say when it comes. -/
structure TokenCall where
  tok : Int
  piece : List UInt8
  nDecoded : Int
  nPromptTokens : Nat
  /-- more than `t_max_predict_ms` have passed since the start of the generation -/
  late : Bool := false
  deriving DecidableEq

namespace CompletionSlot

/-- `server_slot::reset`; whether there is a next token is left as it is. -/
def reset (slot : CompletionSlot) : CompletionSlot := { hasNextToken := slot.hasNextToken }

/-- The leftmost of the stop words, or of their starts at the end of the text, in the order of the
words where several begin there. -/
def findStoppingStrings (words : List (List UInt8)) (text : List UInt8) (lastTokenSize : Nat)
    (isFullStop : Bool) : Option (Nat × List UInt8) :=
  words.foldl (fun best word =>
    let pos :=
      if isFullStop then searchFrom text word (text.length - (word.length + lastTokenSize))
      else stringFindPartialStop text word
    match pos with
    | none => best
    | some pos => if best.all fun (stopPos, _) => pos < stopPos then some (pos, word) else best)
    none

/-- A full stop in `find_stopping_strings`. -/
def stopByWord (slot : CompletionSlot) (word : List UInt8) : CompletionSlot :=
  { slot with stop := .word, stoppingWord := word, hasNextToken := false }

def stopByLimit (slot : CompletionSlot) (stopDetail : String) : CompletionSlot :=
  { slot with stop := .limit, stopDetail, hasNextToken := false }

/-- All text from the position on is sent. -/
def sendFrom (slot : CompletionSlot) (pos : Nat) : CompletionSlot × List UInt8 :=
  let textToSend := slot.generatedText.drop pos
  ({ slot with nSentText := slot.nSentText + textToSend.length }, textToSend)

/-- Search a stop word and delete it; otherwise hold back what may become one. -/
def searchStops (ctx : CompletionContext) (slot : CompletionSlot) (call : TokenCall) :
    CompletionSlot × List UInt8 :=
  let pos := min slot.nSentText slot.generatedText.length
  let strTest := slot.generatedText.drop pos
  match findStoppingStrings ctx.params.antiprompt strTest call.piece.length true with
  | some (stopPos, word) =>
    let slot := { slot.stopByWord word with
      generatedText := slot.generatedText.take (pos + stopPos) }
    slot.sendFrom (min slot.nSentText slot.generatedText.length)
  | none =>
    if slot.hasNextToken && !ctx.isEog call.tok &&
        (findStoppingStrings ctx.params.antiprompt strTest call.piece.length false).isSome then
      (slot, [])
    else slot.sendFrom pos

/-- `has_budget` -/
def hasBudget (ctx : CompletionContext) (nDecoded : Int) : Bool :=
  if ctx.params.nPredict = -1 ∧ ctx.nPredict = -1 then true
  else if ctx.params.nPredict ≠ -1 then 0 < ctx.params.nPredict - nDecoded
  else 0 < ctx.nPredict - nDecoded

/-- The context is full, or no tokens are left in the budget. -/
def checkLimits (ctx : CompletionContext) (slot : CompletionSlot) (call : TokenCall) :
    CompletionSlot :=
  let slot :=
    if !ctx.ctxShift && ctx.nCtx ≤ call.nPromptTokens + 1 then
      { slot.stopByLimit "context_limit" with truncated := true }
    else slot
  if 0 < call.nDecoded && slot.hasNextToken && !hasBudget ctx call.nDecoded then
    slot.stopByLimit "token_limit"
  else slot

/-- The last line must begin with enough blanks, else it is cut off. -/
def cutLastLine (slot : CompletionSlot) (nIndent : Int) : CompletionSlot :=
  let indent := ((slot.generatedText.drop slot.lastNlPos).takeWhile fun c => c == 32 || c == 9).length
  let pos := slot.lastNlPos + indent
  if 0 < slot.lastNlPos ∧ pos < slot.generatedText.length ∧ (indent : Int) < nIndent then
    { slot.stopByLimit "indentation_limit" with generatedText := slot.generatedText.take pos }
  else slot

def checkIndentation (ctx : CompletionContext) (slot : CompletionSlot) : CompletionSlot :=
  if slot.hasNewLine && 0 < ctx.params.nIndent then
    let slot := slot.cutLastLine ctx.params.nIndent
    match searchFrom slot.generatedText [10] slot.lastNlPos with
    | some pos => { slot with lastNlPos := pos + 1 }
    | none => slot
  else slot

/-- After a new line, stop when it is late. -/
def checkNewLine (ctx : CompletionContext) (slot : CompletionSlot) (textToSend : List UInt8)
    (call : TokenCall) : CompletionSlot :=
  if textToSend.contains 10 then
    let slot := { slot with hasNewLine := true }
    if 0 < ctx.params.tMaxPredictMs && call.late then slot.stopByLimit "time_limit" else slot
  else slot

def checkEog (ctx : CompletionContext) (slot : CompletionSlot) (call : TokenCall) :
    CompletionSlot :=
  if ctx.isEog call.tok then
    { slot with stop := .eos, stopDetail := "eos", hasNextToken := false }
  else slot

/-- The piece of the token is added to the text. -/
def append (slot : CompletionSlot) (call : TokenCall) : CompletionSlot :=
  { slot with
    generatedText := slot.generatedText ++ call.piece
    hasNextToken := !(slot.stop != .none && !slot.hasNextToken) }

/-- The text ends inside a character. -/
def incomplete (slot : CompletionSlot) : Bool :=
  validateUtf8 slot.generatedText < slot.generatedText.length

/-- The checks after the search for stop words. -/
def finishToken (ctx : CompletionContext) (slot : CompletionSlot) (textToSend : List UInt8)
    (call : TokenCall) : CompletionSlot :=
  checkEog ctx (checkNewLine ctx (checkIndentation ctx (checkLimits ctx slot call)) textToSend call)
    call

/-- `process_token`: the slot afterwards, whose `hasNextToken` is the result, and the content of
the partial response. -/
def processToken (ctx : CompletionContext) (slot : CompletionSlot) (call : TokenCall) :
    CompletionSlot × Option (List UInt8) :=
  let next := slot.append call
  if next.incomplete then
    let stoppedBefore := slot.stop != .none && !slot.hasNextToken
    let next := if !stoppedBefore then { next with hasNextToken := true } else next
    (finishToken ctx next call.piece call, none)
  else
    let (next, textToSend) := next.searchStops ctx call
    (finishToken ctx next textToSend call, if ctx.params.stream then some textToSend else none)

/-- The content of `send_final_response`. -/
def finalContent (ctx : CompletionContext) (slot : CompletionSlot) : List UInt8 :=
  if ctx.params.stream then [] else slot.generatedText

/-! ## What a token does to the text -/

variable {ctx : CompletionContext} {slot : CompletionSlot} {call : TokenCall}

theorem findStoppingStrings_isSome_iff {words : List (List UInt8)} {text : List UInt8} {n : Nat} :
    (findStoppingStrings words text n false).isSome = true ↔
      ∃ word ∈ words, (stringFindPartialStop text word).isSome = true := by
  have hFold : ∀ best : Option (Nat × List UInt8),
      (words.foldl (fun best word =>
        match stringFindPartialStop text word with
        | none => best
        | some pos =>
          if best.all fun (stopPos, _) => pos < stopPos then some (pos, word) else best)
        best).isSome = true ↔
        best.isSome = true ∨ ∃ word ∈ words, (stringFindPartialStop text word).isSome = true := by
    induction words with
    | nil => exact fun best => by simp
    | cons word rest ih =>
      intro best
      rw [foldl_cons, ih]
      cases hPos : stringFindPartialStop text word with
      | none => simp [hPos]
      | some pos =>
        have hNow : (if best.all fun (stopPos, _) => pos < stopPos then some (pos, word)
            else best).isSome = true := by
          split
          · rfl
          cases best with
          | none => exact absurd rfl ‹_›
          | some _ => rfl
        exact iff_of_true (.inl hNow) (.inr ⟨word, mem_cons_self, by rw [hPos]; rfl⟩)
  exact (hFold none).trans (or_iff_right Bool.false_ne_true)

/-- The text has no stop word and is not cut off inside a character, but what is unsent ends with a
start of a stop word. -/
def HoldsBack (ctx : CompletionContext) (slot : CompletionSlot) (call : TokenCall) : Prop :=
  (slot.append call).incomplete = false ∧ ctx.isEog call.tok = false ∧
    findStoppingStrings ctx.params.antiprompt
      ((slot.append call).generatedText.drop slot.nSentText) call.piece.length true = none ∧
    ∃ word ∈ ctx.params.antiprompt, ∃ start, start ≠ [] ∧ start <+: word ∧
      start <:+ (slot.append call).generatedText.drop slot.nSentText

/-- What has been sent of the text. -/
structure Sent (slot : CompletionSlot) (sent : List UInt8) : Prop where
  length_eq : sent.length = slot.nSentText
  sent_isPrefix : sent <+: slot.generatedText

theorem Sent.nSentText_le {sent : List UInt8} (h : Sent slot sent) :
    slot.nSentText ≤ slot.generatedText.length :=
  h.length_eq ▸ h.sent_isPrefix.length_le

theorem Sent.congr {slot' : CompletionSlot} {sent : List UInt8} (h : Sent slot sent)
    (hText : slot'.generatedText = slot.generatedText) (hSent : slot'.nSentText = slot.nSentText) :
    Sent slot' sent :=
  ⟨h.length_eq.trans hSent.symm, hText ▸ h.sent_isPrefix⟩

theorem Sent.append {sent : List UInt8} (h : Sent slot sent) : Sent (slot.append call) sent :=
  ⟨h.length_eq, h.sent_isPrefix.trans (prefix_append _ _)⟩

theorem Sent.sendFrom {sent : List UInt8} (h : Sent slot sent) :
    Sent (slot.sendFrom slot.nSentText).1 (sent ++ (slot.sendFrom slot.nSentText).2) ∧
      sent ++ (slot.sendFrom slot.nSentText).2 = slot.generatedText := by
  obtain ⟨rest, hRest⟩ := h.sent_isPrefix
  have hAll : sent ++ (slot.sendFrom slot.nSentText).2 = slot.generatedText := by
    unfold CompletionSlot.sendFrom
    rw [← hRest, ← h.length_eq, drop_left]
  refine ⟨⟨?_, ?_⟩, hAll⟩
  · rw [length_append, h.length_eq]
    rfl
  · rw [hAll]
    exact prefix_refl _

theorem Sent.take {sent : List UInt8} (h : Sent slot sent) (pos : Nat) :
    sent <+: slot.generatedText.take (slot.nSentText + pos) := by
  obtain ⟨rest, hRest⟩ := h.sent_isPrefix
  rw [← hRest, ← h.length_eq, take_length_add_append]
  exact prefix_append _ _

/-- The text has no stop word, and what has not been sent of it ends with a start of one. -/
def Held (ctx : CompletionContext) (slot : CompletionSlot) (call : TokenCall) : Prop :=
  findStoppingStrings ctx.params.antiprompt (slot.generatedText.drop slot.nSentText)
      call.piece.length true = none ∧
    ctx.isEog call.tok = false ∧
      (findStoppingStrings ctx.params.antiprompt (slot.generatedText.drop slot.nSentText)
        call.piece.length false).isSome = true

theorem searchStops_held (hLe : slot.nSentText ≤ slot.generatedText.length)
    (hNext : slot.hasNextToken = true) (hHeld : Held ctx slot call) :
    slot.searchStops ctx call = (slot, []) := by
  obtain ⟨hNone, hEog, hSome⟩ := hHeld
  unfold searchStops
  dsimp only
  rw [Nat.min_eq_left hLe, hNone, hNext, hEog, hSome]
  rfl

theorem searchStops_sent (hLe : slot.nSentText ≤ slot.generatedText.length)
    (hNext : slot.hasNextToken = true) (hHeld : ¬ Held ctx slot call)
    (hNone : findStoppingStrings ctx.params.antiprompt (slot.generatedText.drop slot.nSentText)
      call.piece.length true = none) :
    slot.searchStops ctx call = slot.sendFrom slot.nSentText := by
  unfold searchStops
  dsimp only
  rw [Nat.min_eq_left hLe, hNone, hNext]
  refine if_neg fun hBoth => ?_
  obtain ⟨hEog, hSome⟩ := Bool.and_eq_true_iff.mp hBoth
  exact hHeld ⟨hNone, (Bool.not_eq_true' _).mp hEog, hSome⟩

/-- Text that is not held back is sent, up to a stop word. -/
theorem Sent.searchStops {sent : List UInt8} (h : Sent slot sent)
    (hNext : slot.hasNextToken = true) (hHeld : ¬ Held ctx slot call) :
    Sent (slot.searchStops ctx call).1 (sent ++ (slot.searchStops ctx call).2) ∧
      sent ++ (slot.searchStops ctx call).2 = (slot.searchStops ctx call).1.generatedText := by
  by_cases hNone : findStoppingStrings ctx.params.antiprompt
      (slot.generatedText.drop slot.nSentText) call.piece.length true = none
  · rw [searchStops_sent h.nSentText_le hNext hHeld hNone]
    exact h.sendFrom
  obtain ⟨⟨stopPos, word⟩, hFull⟩ := ne_none_iff_exists'.mp hNone
  have hCut : Sent { slot.stopByWord word with
      generatedText := slot.generatedText.take (slot.nSentText + stopPos) } sent :=
    ⟨h.length_eq, h.take stopPos⟩
  unfold CompletionSlot.searchStops
  dsimp only
  rw [Nat.min_eq_left h.nSentText_le, hFull]
  dsimp only
  rw [Nat.min_eq_left hCut.nSentText_le]
  exact hCut.sendFrom

/-- The checks after the search leave the text alone when the indentation limit is off. -/
theorem finishToken_text {textToSend : List UInt8} (hIndent : ctx.params.nIndent ≤ 0) :
    (finishToken ctx slot textToSend call).generatedText = slot.generatedText ∧
      (finishToken ctx slot textToSend call).nSentText = slot.nSentText := by
  have hLimits : ∀ slot : CompletionSlot, (checkLimits ctx slot call).generatedText =
      slot.generatedText ∧ (checkLimits ctx slot call).nSentText = slot.nSentText := by
    intro slot
    unfold checkLimits
    dsimp only
    split <;> split <;> exact ⟨rfl, rfl⟩
  have hIndentation : ∀ slot : CompletionSlot, checkIndentation ctx slot = slot := by
    intro slot
    unfold checkIndentation
    rw [decide_eq_false (Int.not_lt.mpr hIndent), Bool.and_false]
    rfl
  have hNewLine : ∀ slot : CompletionSlot,
      (checkNewLine ctx slot textToSend call).generatedText = slot.generatedText ∧
        (checkNewLine ctx slot textToSend call).nSentText = slot.nSentText := by
    intro slot
    unfold checkNewLine
    dsimp only
    split
    · split <;> exact ⟨rfl, rfl⟩
    · exact ⟨rfl, rfl⟩
  have hEog : ∀ slot : CompletionSlot, (checkEog ctx slot call).generatedText =
      slot.generatedText ∧ (checkEog ctx slot call).nSentText = slot.nSentText := by
    intro slot
    unfold checkEog
    split <;> exact ⟨rfl, rfl⟩
  unfold finishToken
  rw [hIndentation]
  exact ⟨(hEog _).1.trans ((hNewLine _).1.trans (hLimits _).1),
    (hEog _).2.trans ((hNewLine _).2.trans (hLimits _).2)⟩

theorem holdsBack_iff : HoldsBack ctx slot call ↔
    (slot.append call).incomplete = false ∧ Held ctx (slot.append call) call := by
  refine and_congr_right fun _ => ?_
  rw [and_left_comm]
  refine and_congr_right fun _ => and_congr_right fun _ => ?_
  rw [findStoppingStrings_isSome_iff]
  refine exists_congr fun word => and_congr_right fun _ => ?_
  exact stringFindPartialStop_isSome_iff.symm

theorem processToken_incomplete (hIndent : ctx.params.nIndent ≤ 0)
    (hIncomplete : (slot.append call).incomplete = true) :
    (processToken ctx slot call).1.generatedText = (slot.append call).generatedText ∧
      (processToken ctx slot call).1.nSentText = slot.nSentText ∧
        (processToken ctx slot call).2 = none := by
  unfold processToken
  rw [if_pos hIncomplete]
  dsimp only
  obtain ⟨hText, hSent⟩ := @finishToken_text ctx (if (!(slot.stop != .none &&
    !slot.hasNextToken)) = true then { slot.append call with hasNextToken := true }
    else slot.append call) call call.piece hIndent
  refine ⟨hText.trans ?_, hSent.trans ?_, rfl⟩
  · split <;> rfl
  · split <;> rfl

theorem processToken_complete (hIndent : ctx.params.nIndent ≤ 0)
    (hStream : ctx.params.stream = true) (hComplete : (slot.append call).incomplete = false) :
    (processToken ctx slot call).1.generatedText =
        ((slot.append call).searchStops ctx call).1.generatedText ∧
      (processToken ctx slot call).1.nSentText =
        ((slot.append call).searchStops ctx call).1.nSentText ∧
        (processToken ctx slot call).2 = some ((slot.append call).searchStops ctx call).2 := by
  unfold processToken
  dsimp only
  rw [hComplete, if_pos hStream]
  exact ⟨(finishToken_text hIndent).1, (finishToken_text hIndent).2, rfl⟩

instance : Decidable (Held ctx slot call) := by
  unfold Held
  infer_instance

instance : Decidable (HoldsBack ctx slot call) := decidable_of_iff _ holdsBack_iff.symm

/-- One token, when the generation has not stopped. -/
theorem Sent.processToken {sent : List UInt8} (h : Sent slot sent)
    (hGoes : slot.stop = .none ∨ slot.hasNextToken = true) (hIndent : ctx.params.nIndent ≤ 0)
    (hStream : ctx.params.stream = true) :
    Sent (processToken ctx slot call).1 (sent ++ (processToken ctx slot call).2.getD []) ∧
      (((slot.append call).incomplete = true ∨ HoldsBack ctx slot call) ∧
          (processToken ctx slot call).1.generatedText = (slot.append call).generatedText ∧
            (processToken ctx slot call).2.getD [] = [] ∨
        (slot.append call).incomplete = false ∧ ¬ HoldsBack ctx slot call ∧
          sent ++ (processToken ctx slot call).2.getD [] =
            (processToken ctx slot call).1.generatedText) := by
  have hNext : (slot.append call).hasNextToken = true := by
    unfold CompletionSlot.append
    dsimp only
    rcases hGoes with hNone | hTrue
    · rw [hNone]
      rfl
    · rw [hTrue, Bool.not_true, Bool.and_false]
      rfl
  have hSent : Sent (slot.append call) sent := h.append
  by_cases hIncomplete : (slot.append call).incomplete = true
  · obtain ⟨hText, hCount, hNone⟩ := processToken_incomplete hIndent hIncomplete
    rw [hNone, getD_none, append_nil]
    exact ⟨hSent.congr hText hCount, .inl ⟨.inl hIncomplete, hText, rfl⟩⟩
  have hComplete := Bool.eq_false_iff.mpr hIncomplete
  obtain ⟨hText, hCount, hSome⟩ := processToken_complete hIndent hStream hComplete
  rw [hSome, getD_some]
  by_cases hHolds : HoldsBack ctx slot call
  · have hHeld := searchStops_held hSent.nSentText_le hNext (holdsBack_iff.mp hHolds).2
    rw [hHeld] at hText hCount
    rw [hHeld, append_nil]
    exact ⟨hSent.congr hText hCount, .inl ⟨.inr hHolds, hText, rfl⟩⟩
  obtain ⟨hAfter, hAll⟩ := @Sent.searchStops ctx _ call _ hSent hNext
    fun hHeld => hHolds (holdsBack_iff.mpr ⟨hComplete, hHeld⟩)
  exact ⟨hAfter.congr hText hCount, .inr ⟨hComplete, hHolds, hAll.trans hText.symm⟩⟩

/-! ## A whole generation -/

/-- The slot and what has been sent of its text, after some tokens. -/
def generate (ctx : CompletionContext) (slot : CompletionSlot) (calls : List TokenCall) :
    CompletionSlot × List UInt8 :=
  calls.foldl (fun (slot, sent) call =>
    ((slot.processToken ctx call).1, sent ++ (slot.processToken ctx call).2.getD [])) (slot, [])

end CompletionSlot

namespace CompletionContext

/-- The same request, streaming or not. -/
def withStream (ctx : CompletionContext) (stream : Bool) : CompletionContext :=
  { ctx with params := { ctx.params with stream } }

end CompletionContext

namespace CompletionSlot

variable {ctx : CompletionContext} {slot : CompletionSlot} {call last : TokenCall}
  {calls : List TokenCall}

/-- Tokens come until `process_token` returns false, which it does for the last one. -/
def Ends (ctx : CompletionContext) (slot : CompletionSlot) (calls : List TokenCall)
    (last : TokenCall) : Prop :=
  (∀ k < calls.length, (generate ctx slot (calls.take (k + 1))).1.hasNextToken = true) ∧
    (generate ctx slot (calls ++ [last])).1.hasNextToken = false

/-- At every moment a stream has sent a prefix of the text, and in the end all of it, when it is
complete: what a response without streaming contains. -/
def SameText (ctx : CompletionContext) (slot : CompletionSlot) (calls : List TokenCall) : Prop :=
  (∀ k, (generate (ctx.withStream true) slot (calls.take k)).2 <+:
      (generate (ctx.withStream true) slot (calls.take k)).1.generatedText) ∧
    ((generate (ctx.withStream false) slot calls).1.incomplete = false →
      (generate (ctx.withStream true) slot calls).2 =
        (generate (ctx.withStream false) slot calls).1.finalContent (ctx.withStream false))

theorem generate_snoc :
    generate ctx slot (calls ++ [call]) =
      ((processToken ctx (generate ctx slot calls).1 call).1,
        (generate ctx slot calls).2 ++
          (processToken ctx (generate ctx slot calls).1 call).2.getD []) := by
  unfold generate
  rw [foldl_append]
  rfl

/-- Whether the request streams makes no difference for the slot. -/
theorem processToken_withStream (stream : Bool) :
    (processToken (ctx.withStream stream) slot call).1 = (processToken ctx slot call).1 := by
  unfold processToken
  dsimp only
  split <;> rfl

theorem generate_withStream (stream : Bool) :
    (generate (ctx.withStream stream) slot calls).1 = (generate ctx slot calls).1 := by
  induction calls using reverseRecOn with
  | nil => rfl
  | append_singleton before call ih =>
    rw [generate_snoc, generate_snoc]
    rw [ih]
    exact processToken_withStream stream

/-- While `process_token` returns true, what has been sent is a prefix of the text. -/
theorem generate_sent (hIndent : ctx.params.nIndent ≤ 0) (hStream : ctx.params.stream = true)
    (hGoes : ∀ k < calls.length,
      (generate ctx slot.reset (calls.take (k + 1))).1.hasNextToken = true) :
    Sent (generate ctx slot.reset calls).1 (generate ctx slot.reset calls).2 ∧
      ((generate ctx slot.reset calls).1.stop = .none ∨
        (generate ctx slot.reset calls).1.hasNextToken = true) := by
  induction calls using reverseRecOn with
  | nil => exact ⟨⟨rfl, prefix_refl _⟩, .inl rfl⟩
  | append_singleton before call ih =>
    have hBefore : ∀ k < before.length,
        (generate ctx slot.reset (before.take (k + 1))).1.hasNextToken = true := by
      intro k hk
      have hNext := hGoes k (by rw [length_append]; omega)
      rwa [take_append_of_le_length (by omega)] at hNext
    obtain ⟨hSent, hUnstopped⟩ := ih hBefore
    have hLast := hGoes before.length (by rw [length_append]; simp)
    rw [take_of_length_le (by rw [length_append]; simp)] at hLast
    refine ⟨?_, .inr hLast⟩
    rw [generate_snoc]
    exact (hSent.processToken hUnstopped hIndent hStream).1

theorem Sent.not_all_of_holdsBack {sent : List UInt8} (h : Sent slot sent)
    (hHolds : HoldsBack ctx slot call) : sent ≠ (slot.append call).generatedText := by
  intro hAll
  obtain ⟨-, -, -, word, -, start, hNonempty, -, hSuffix⟩ := hHolds
  rw [← hAll, ← h.length_eq, drop_length] at hSuffix
  exact hNonempty (suffix_nil.mp hSuffix)

/-- A stream and a response without streaming give the same text exactly when the last token does
not hold text back: the generation is not ended by a limit at a token after which the unsent text
ends with a start of a stop word. -/
theorem sameText_iff (hIndent : ctx.params.nIndent ≤ 0) (hEnds : Ends ctx slot.reset calls last) :
    SameText ctx slot.reset (calls ++ [last]) ↔
      ¬ HoldsBack ctx (generate ctx slot.reset calls).1 last := by
  obtain ⟨hGoes, -⟩ := hEnds
  have hGoesStream : ∀ k < calls.length, (generate (ctx.withStream true) slot.reset
      (calls.take (k + 1))).1.hasNextToken = true := by
    intro k hk
    rw [generate_withStream]
    exact hGoes k hk
  obtain ⟨hSent, hUnstopped⟩ :=
    @generate_sent (ctx.withStream true) _ _ hIndent rfl hGoesStream
  have hToken := @Sent.processToken (ctx.withStream true) _ last _ hSent hUnstopped hIndent
    rfl
  rw [processToken_withStream, generate_withStream] at hToken
  have hSlot : ∀ stream, (generate (ctx.withStream stream) slot.reset (calls ++ [last])).1 =
      (processToken ctx (generate ctx slot.reset calls).1 last).1 := by
    intro stream
    rw [generate_withStream, generate_snoc]
  have hStreamed : (generate (ctx.withStream true) slot.reset (calls ++ [last])).2 =
      (generate (ctx.withStream true) slot.reset calls).2 ++
        (processToken (ctx.withStream true) (generate ctx slot.reset calls).1 last).2.getD [] := by
    rw [generate_snoc, generate_withStream]
  rw [generate_withStream] at hSent
  obtain ⟨hSentLast, hLast⟩ := hToken
  unfold SameText
  rw [hSlot false, hStreamed]
  constructor
  · rintro ⟨-, hSame⟩ hHolds
    rcases hLast with ⟨-, hText, hNone⟩ | ⟨-, hNot, -⟩
    · have hComplete : (processToken ctx (generate ctx slot.reset calls).1 last).1.incomplete =
          false := by
        unfold incomplete
        rw [hText]
        exact hHolds.1
      have hEq := hSame hComplete
      rw [hNone, append_nil] at hEq
      exact hSent.not_all_of_holdsBack hHolds (hEq.trans hText)
    · exact hNot hHolds
  intro hNot
  refine ⟨fun k => ?_, fun hComplete => ?_⟩
  · by_cases hk : k ≤ calls.length
    · rw [take_append_of_le_length hk]
      refine (@generate_sent (ctx.withStream true) _ _ hIndent rfl ?_).1.sent_isPrefix
      intro j hj
      rw [length_take] at hj
      rw [take_take, Nat.min_eq_left (by omega)]
      exact hGoesStream j (by omega)
    rw [take_of_length_le (by rw [length_append, length_singleton]; omega),
      hSlot true, hStreamed]
    exact hSentLast.sent_isPrefix
  rcases hLast with ⟨hIncomplete | hHolds, hText, -⟩ | ⟨-, -, hAll⟩
  · unfold incomplete at hComplete
    rw [hText] at hComplete
    exact absurd (hComplete.symm.trans hIncomplete) Bool.false_ne_true
  · exact absurd hHolds hNot
  · exact hAll

/-! ## A limit at a token that is held back -/

/-- The stop word is `ab`, and two tokens may be generated. -/
def twoTokens : CompletionContext where
  params := { antiprompt := [[97, 98]], nPredict := 2 }
  nCtx := 100
  isEog := fun tok => tok = 0

def firstToken : TokenCall where
  tok := 1
  piece := [120]
  nDecoded := 1
  nPromptTokens := 10

/-- A second token that cannot begin the stop word. -/
def plainToken : TokenCall := { firstToken with piece := [121], nDecoded := 2 }

/-- A second token that may begin the stop word. -/
def heldToken : TokenCall := { firstToken with piece := [97], nDecoded := 2 }

/-- No byte is held back at the end, so streaming gives the whole text. -/
theorem plainToken_sameText : SameText twoTokens (reset {}) ([firstToken] ++ [plainToken]) := by
  refine (sameText_iff (by decide) ⟨?_, by decide⟩).mpr ?_
  · intro k hk
    obtain rfl : k = 0 := by simpa using hk
    decide
  · decide

/-- The generation ends at the token limit with text held back: the stream has not sent it. -/
theorem heldToken_differs :
    Ends twoTokens (reset {}) [firstToken] heldToken ∧
      ¬ SameText twoTokens (reset {}) ([firstToken] ++ [heldToken]) := by
  refine ⟨⟨fun k hk => ?_, by decide⟩, fun hSame => ?_⟩
  · obtain rfl : k = 0 := by simpa using hk
    decide
  · exact absurd (hSame.2 (by decide)) (by decide)

end CompletionSlot

end Beellama.Ports
