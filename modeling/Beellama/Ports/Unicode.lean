import Mathlib.Data.List.Basic
import Mathlib.Data.List.TakeWhile

/-!
# UTF-8 helpers (`src/common/unicode.cpp`)

Strings are lists of bytes.  The bit tests of the source are written as ranges
of the byte: `c & 0x80` is clear below 0x80, and of the bytes from 0x80 on
`c & 0x40` is clear below 0xC0, and so on.  Shifts and masks of the payload bits
are products and remainders.
-/

namespace Beellama.Ports

open List

/-- `(c & 0xc0) == 0x80` -/
def isContinuation (c : UInt8) : Bool := decide (0x80 ≤ c.toNat) && decide (c.toNat < 0xC0)

/-- `utf8_parse_result`, with the data each status carries. -/
inductive Utf8ParseResult
  | success (codepoint bytesConsumed : Nat)
  | incomplete
  | invalid
  deriving DecidableEq, Repr

/-- The code point at the head of the bytes left. -/
def parseUtf8Head : List UInt8 → Utf8ParseResult
  | [] => .incomplete
  | c :: rest =>
    let c := c.toNat
    if c < 0x80 then .success c 1
    else if c < 0xC0 then .invalid
    else if c < 0xE0 then
      match rest with
      | c₁ :: _ =>
        if isContinuation c₁ then .success (c % 0x20 * 0x40 + c₁.toNat % 0x40) 2
        else .invalid
      | [] => .incomplete
    else if c < 0xF0 then
      match rest with
      | c₁ :: c₂ :: _ =>
        if isContinuation c₁ && isContinuation c₂ then
          .success (c % 0x10 * 0x1000 + c₁.toNat % 0x40 * 0x40 + c₂.toNat % 0x40) 3
        else .invalid
      | _ => .incomplete
    else if c < 0xF8 then
      match rest with
      | c₁ :: c₂ :: c₃ :: _ =>
        if isContinuation c₁ && isContinuation c₂ && isContinuation c₃ then
          .success (c % 0x08 * 0x40000 + c₁.toNat % 0x40 * 0x1000 + c₂.toNat % 0x40 * 0x40 +
            c₃.toNat % 0x40) 4
        else .invalid
      | _ => .incomplete
    else .invalid

/-- `common_parse_utf8_codepoint` -/
def commonParseUtf8Codepoint (input : List UInt8) (offset : Nat) : Utf8ParseResult :=
  parseUtf8Head (input.drop offset)

/-- The bytes a lead byte announces (`expected`). -/
def announcedLength (c : UInt8) : Nat :=
  if 0xF0 ≤ c.toNat then 4 else if 0xE0 ≤ c.toNat then 3 else if 0xC0 ≤ c.toNat then 2 else 1

/-- The loop of `common_utf8_is_complete` over the last bytes, the last one
first; `i` counts from one. -/
def completeScan (i : Nat) : List UInt8 → Bool
  | [] => false
  | c :: rest =>
    if isContinuation c then completeScan (i + 1) rest else decide (announcedLength c ≤ i)

/-- `common_utf8_is_complete` -/
def commonUtf8IsComplete (s : List UInt8) : Bool :=
  if s.isEmpty then true else completeScan 1 (s.reverse.take 4)

variable {bytes : List UInt8} {codepoint n : Nat}

/-- A code point takes bytes that are there, behind the first continuation bytes. -/
theorem parseUtf8Head_success (h : parseUtf8Head bytes = .success codepoint n) :
    0 < n ∧ n ≤ bytes.length ∧ ∀ c ∈ (bytes.take n).tail, isContinuation c = true := by
  cases bytes with
  | nil => simp [parseUtf8Head] at h
  | cons c rest =>
    simp only [parseUtf8Head] at h
    split at h
    next =>
      rw [Utf8ParseResult.success.injEq] at h
      obtain ⟨rfl, rfl⟩ := h
      simp
    next =>
      split at h
      next => contradiction
      next =>
        split at h
        next =>
          split at h
          next c₁ tail =>
            split at h
            next hCont =>
              rw [Utf8ParseResult.success.injEq] at h
              obtain ⟨rfl, rfl⟩ := h
              simp [hCont]
            next => contradiction
          next => contradiction
        next =>
          split at h
          next =>
            split at h
            next c₁ c₂ tail =>
              split at h
              next hCont =>
                rw [Utf8ParseResult.success.injEq] at h
                obtain ⟨rfl, rfl⟩ := h
                simpa using hCont
              next => contradiction
            next => contradiction
          next =>
            split at h
            next =>
              split at h
              next c₁ c₂ c₃ tail =>
                split at h
                next hCont =>
                  obtain ⟨rfl, rfl⟩ := h
                  simpa [and_assoc] using hCont
                next => contradiction
              next => contradiction
            next => contradiction

variable {input : List UInt8} {pos : Nat}

theorem codepoint_bounds (h : commonParseUtf8Codepoint input pos = .success codepoint n) :
    0 < n ∧ pos + n ≤ input.length := by
  obtain ⟨hPos, hLe, -⟩ := parseUtf8Head_success h
  rw [length_drop] at hLe
  exact ⟨hPos, by omega⟩

/-- The bytes are code points from end to end, as valid UTF-8 is. -/
inductive DecodesUtf8 : List UInt8 → Prop
  | nil : DecodesUtf8 []
  | cons {bytes : List UInt8} {codepoint n : Nat}
      (hHead : parseUtf8Head bytes = .success codepoint n)
      (hRest : DecodesUtf8 (bytes.drop n)) : DecodesUtf8 bytes

/-- The bytes of a code point behind the first are continuation bytes. -/
theorem continuation_of_success {k : Nat}
    (h : parseUtf8Head bytes = .success codepoint n) (hPos : 0 < k) (hLt : k < n) :
    ∃ c rest, bytes.drop k = c :: rest ∧ isContinuation c = true := by
  obtain ⟨-, hLe, hTail⟩ := parseUtf8Head_success h
  have hk : k < bytes.length := by omega
  refine ⟨bytes[k], bytes.drop (k + 1), drop_eq_getElem_cons hk, hTail _ ?_⟩
  refine mem_iff_getElem.mpr ⟨k - 1, ?_, ?_⟩
  · rw [length_tail, length_take]
    omega
  rw [getElem_tail, getElem_take]
  congr 1
  omega

/-- At every byte of such a text a code point begins, or none can be read. -/
theorem DecodesUtf8.drop (h : DecodesUtf8 bytes) (k : Nat)
    (hLt : k < bytes.length) :
    parseUtf8Head (bytes.drop k) = .invalid ∨
      DecodesUtf8 (bytes.drop k) ∧
        ∃ codepoint n, parseUtf8Head (bytes.drop k) = .success codepoint n := by
  induction h generalizing k with
  | nil => simp at hLt
  | @cons bytes codepoint n hHead hRest ih =>
    by_cases hZero : k = 0
    · subst hZero
      exact Or.inr ⟨DecodesUtf8.cons hHead hRest, codepoint, n, hHead⟩
    by_cases hInside : k < n
    · obtain ⟨c, rest, hDrop, hCont⟩ := continuation_of_success hHead (by omega) hInside
      left
      simp only [isContinuation, Bool.and_eq_true, decide_eq_true_eq] at hCont
      rw [hDrop]
      simp only [parseUtf8Head]
      rw [if_neg (by omega), if_pos hCont.2]
    have hAt := ih (k - n) (by rw [length_drop]; omega)
    rw [drop_drop, show n + (k - n) = k by omega] at hAt
    exact hAt

/-- No code point is cut off at the end of the text. -/
def Untruncated (input : List UInt8) : Prop :=
  ∀ pos < input.length, commonParseUtf8Codepoint input pos ≠ .incomplete

theorem DecodesUtf8.untruncated (h : DecodesUtf8 input) : Untruncated input := by
  intro pos hLt hIncomplete
  rcases h.drop pos hLt with hInvalid | ⟨-, codepoint, n, hSuccess⟩
  · exact absurd (hIncomplete.symm.trans hInvalid) (by simp)
  · exact absurd (hIncomplete.symm.trans hSuccess) (by simp)

/-- What is read without coming to the end does not depend on what follows. -/
theorem parseUtf8Head_append (h : parseUtf8Head bytes ≠ .incomplete)
    (more : List UInt8) : parseUtf8Head (bytes ++ more) = parseUtf8Head bytes := by
  cases bytes with
  | nil => exact absurd rfl h
  | cons c rest =>
    simp only [parseUtf8Head, cons_append] at h ⊢
    by_cases hOne : c.toNat < 0x80
    · simp only [if_pos hOne]
    simp only [if_neg hOne] at h ⊢
    by_cases hStray : c.toNat < 0xC0
    · simp only [if_pos hStray]
    simp only [if_neg hStray] at h ⊢
    by_cases hTwo : c.toNat < 0xE0
    · simp only [if_pos hTwo] at h ⊢
      match rest, h with
      | [], h => exact absurd rfl h
      | _ :: _, _ => rfl
    simp only [if_neg hTwo] at h ⊢
    by_cases hThree : c.toNat < 0xF0
    · simp only [if_pos hThree] at h ⊢
      match rest, h with
      | [], h => exact absurd rfl h
      | [_], h => exact absurd rfl h
      | _ :: _ :: _, _ => rfl
    simp only [if_neg hThree] at h ⊢
    by_cases hFour : c.toNat < 0xF8
    · simp only [if_pos hFour] at h ⊢
      match rest, h with
      | [], h => exact absurd rfl h
      | [_], h => exact absurd rfl h
      | [_, _], h => exact absurd rfl h
      | _ :: _ :: _ :: _, _ => rfl
    · simp only [if_neg hFour]

/-- What is read of an untruncated text is read of every text that it begins. -/
theorem codepoint_of_isPrefix {whole : List UInt8} (hPrefix : input <+: whole)
    (h : Untruncated input) (hLt : pos < input.length) :
    commonParseUtf8Codepoint whole pos = commonParseUtf8Codepoint input pos := by
  obtain ⟨more, rfl⟩ := hPrefix
  rw [commonParseUtf8Codepoint, drop_append_of_le_length (by omega)]
  exact parseUtf8Head_append (h pos hLt) more

theorem codepoint_at_end (h : input.length ≤ pos) :
    commonParseUtf8Codepoint input pos = .incomplete := by
  rw [commonParseUtf8Codepoint, drop_eq_nil_of_le h]
  rfl

/-! ## What a complete end is -/

/-- The bytes are the encoding of one code point. -/
def IsCodepoint (cp : List UInt8) : Prop := ∃ c, commonParseUtf8Codepoint cp 0 = .success c cp.length

/-- A string that is empty or ends on a complete code point. -/
def EndsComplete (s : List UInt8) : Prop := s = [] ∨ ∃ init cp, s = init ++ cp ∧ IsCodepoint cp

/-- The last lead byte of a string is followed by more continuation bytes than
it announces, or it is none of UTF-8's lead bytes. -/
def strayTail (s : List UInt8) : Bool :=
  match s.reverse.dropWhile isContinuation with
  | [] => false
  | lead :: _ =>
    decide (announcedLength lead < (s.reverse.takeWhile isContinuation).length + 1) ||
      decide (0xF8 ≤ lead.toNat)

theorem completeScan_spec (i : Nat) (bytes : List UInt8) (h : completeScan i bytes = true) :
    ∃ conts lead rest, bytes = conts ++ lead :: rest ∧ (∀ c ∈ conts, isContinuation c = true) ∧
      isContinuation lead = false ∧ announcedLength lead ≤ i + conts.length := by
  induction bytes generalizing i with
  | nil => simp [completeScan] at h
  | cons c rest ih =>
    simp only [completeScan] at h
    split at h
    next hCont =>
      obtain ⟨conts, lead, rest', hEq, hConts, hLead, hLen⟩ := ih (i + 1) h
      refine ⟨c :: conts, lead, rest', by simp [hEq], ?_, hLead, ?_⟩
      · intro d hd
        cases mem_cons.mp hd with
        | inl hEq => rw [hEq]; exact hCont
        | inr hMem => exact hConts d hMem
      · simp only [length_cons]
        omega
    next hLead =>
      exact ⟨[], c, rest, rfl, by simp, by simpa using hLead, by simpa using h⟩

/-- A lead byte with exactly the continuation bytes it announces is a code
point. -/
theorem isCodepoint_of_lead {lead : UInt8} {conts : List UInt8}
    (hLead : isContinuation lead = false) (hConts : ∀ c ∈ conts, isContinuation c = true)
    (hLen : announcedLength lead = conts.length + 1) (hValid : lead.toNat < 0xF8) :
    IsCodepoint (lead :: conts) := by
  have hRange : lead.toNat < 0x80 ∨ 0xC0 ≤ lead.toNat := by
    simp only [isContinuation, Bool.and_eq_false_iff, decide_eq_false_iff_not] at hLead
    omega
  simp only [IsCodepoint, commonParseUtf8Codepoint, drop_zero, parseUtf8Head]
  simp only [announcedLength] at hLen
  split at hLen
  · match conts, hLen with
    | [c₁, c₂, c₃], _ =>
      rw [if_neg (by omega), if_neg (by omega), if_neg (by omega), if_neg (by omega),
        if_pos hValid]
      simp [hConts]
  split at hLen
  · match conts, hLen with
    | [c₁, c₂], _ =>
      rw [if_neg (by omega), if_neg (by omega), if_neg (by omega), if_pos (by omega)]
      simp [hConts]
  split at hLen
  · match conts, hLen with
    | [c₁], _ =>
      rw [if_neg (by omega), if_neg (by omega), if_pos (by omega)]
      simp [hConts]
  match conts, hLen with
  | [], _ =>
    rw [if_pos (by omega)]
    exact ⟨lead.toNat, rfl⟩

/-- What `common_utf8_is_complete` accepts ends on a complete code point, unless
stray continuation bytes or an invalid lead byte stand at its end. -/
theorem endsComplete_of_isComplete {s : List UInt8} (h : commonUtf8IsComplete s = true)
    (hStray : strayTail s = false) : EndsComplete s := by
  simp only [commonUtf8IsComplete] at h
  split at h
  next hNil => exact Or.inl (by simpa using hNil)
  next hNe =>
    obtain ⟨conts, lead, rest, hEq, hConts, hLead, hLen⟩ := completeScan_spec 1 _ h
    obtain ⟨before, hReverse⟩ : ∃ before, s.reverse = conts ++ lead :: before := by
      exists rest ++ s.reverse.drop 4
      calc s.reverse = s.reverse.take 4 ++ s.reverse.drop 4 := (take_append_drop 4 _).symm
        _ = conts ++ lead :: (rest ++ s.reverse.drop 4) := by rw [hEq]; simp
    have hDrop : s.reverse.dropWhile isContinuation = lead :: before := by
      rw [hReverse, dropWhile_append_of_pos hConts, dropWhile_cons_of_neg (by simp [hLead])]
    have hTake : s.reverse.takeWhile isContinuation = conts := by
      rw [hReverse, takeWhile_append_of_pos hConts, takeWhile_cons_of_neg (by simp [hLead]),
        append_nil]
    simp only [strayTail, hDrop, hTake, Bool.or_eq_false_iff, decide_eq_false_iff_not] at hStray
    refine Or.inr ⟨before.reverse, lead :: conts.reverse, ?_, ?_⟩
    · rw [← reverse_reverse s, hReverse]
      simp
    refine isCodepoint_of_lead hLead ?_ ?_ (by omega)
    · intro c hc
      exact hConts c (mem_reverse.mp hc)
    · simp only [length_reverse]
      omega

/-- A code point ends with as many continuation bytes as its lead byte
announces: an ASCII byte with a continuation byte is none. -/
theorem strayByte_not_endsComplete : ¬EndsComplete [0x61, 0x80] := by
  intro h
  rcases h with hNil | ⟨init, cp, hEq, c, hCode⟩
  · contradiction
  match init, cp, hEq with
  | [], _, rfl => simp [commonParseUtf8Codepoint, parseUtf8Head] at hCode
  | [_], _, rfl => simp [commonParseUtf8Codepoint, parseUtf8Head] at hCode
  | [_, _], _, rfl => simp [commonParseUtf8Codepoint, parseUtf8Head] at hCode

end Beellama.Ports
