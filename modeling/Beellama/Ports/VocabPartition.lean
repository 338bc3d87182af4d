import Beellama.Verified.Search

/-!
# Partition by special tokens

`tokenizer_st_partition` cuts a text at the special tokens, one after the other.  The linked list of
fragments is a `List` and its iterator an index.  What is left out between the fragments is whitespace
beside tokens that strip it (`SpelledBy`), and no fragment of plain text contains a special token that
was processed.
-/

namespace Beellama.Ports

open Beellama.Verified List Option

/-- The bits of `llama_token_attr` that are looked at here. -/
structure TokenAttr where
  unknown : Bool := false
  control : Bool := false
  lstrip : Bool := false
  rstrip : Bool := false
  deriving DecidableEq

/-- `llama_vocab::token_data` -/
structure VocabTokenData where
  text : List UInt8
  score : Int := 0
  attr : TokenAttr := {}
  deriving DecidableEq

/-- The tokens of a vocabulary and those of them that are special. -/
structure TokenTable where
  idToToken : List VocabTokenData
  cacheSpecialTokens : List Nat := []
  deriving DecidableEq

/-- `fragment_buffer_variant` -/
inductive FragmentBufferVariant
  | token (id : Nat)
  | rawText (rawText : List UInt8) (offset length : Nat)
  deriving DecidableEq

/-- `isspace` in the C locale -/
def isSpace (c : UInt8) : Bool := c == 32 || (9 ≤ c && c ≤ 13)

/-- The length of a segment without the whitespace at its end. -/
def stripRight (rawText : List UInt8) (offset : Nat) : Nat → Nat
  | 0 => 0
  | length + 1 =>
    if rawText[offset + length]?.any isSpace then stripRight rawText offset length
    else length + 1

/-- The offset and the length of a segment without the whitespace at its front. -/
def stripLeft (rawText : List UInt8) : Nat → Nat → Nat × Nat
  | offset, 0 => (offset, 0)
  | offset, length + 1 =>
    if rawText[offset]?.any isSpace then stripLeft rawText (offset + 1) length
    else (offset, length + 1)

/-- The list with its iterator, and the part of the text that the inner loop is at. -/
structure PartitionState where
  buffer : List FragmentBufferVariant
  it : Nat
  baseOffset : Nat
  baseLength : Nat
  deriving DecidableEq

namespace PartitionState

/-- `buffer.emplace_after(it, ...)` and `it++` -/
def emplace (s : PartitionState) (fragment : FragmentBufferVariant) : PartitionState :=
  { s with buffer := s.buffer.insertIdx (s.it + 1) fragment, it := s.it + 1 }

/-- A raw fragment is emplaced unless it is empty; its constructor asserts that it lies within
the text. -/
def emplaceRaw (s : PartitionState) (rawText : List UInt8) (offset length : Nat) :
    Option PartitionState :=
  if 0 < length then
    if offset + length ≤ rawText.length then some (s.emplace (.rawText rawText offset length))
    else none
  else some s

/-- The node at a distance from the head is erased; the iterator stays at its node behind it. -/
def erase (s : PartitionState) (source : Nat) : PartitionState :=
  { s with buffer := s.buffer.eraseIdx source, it := s.it - 1 }

/-- The length of what is left of an occurrence. -/
def leftReminder (rawText : List UInt8) (data : VocabTokenData) (offset found : Nat) : Nat :=
  if data.attr.lstrip then stripRight rawText offset (found - offset) else found - offset

/-- The offset and the length of what is right of an occurrence. -/
def rightReminder (rawText : List UInt8) (data : VocabTokenData) (offset length found : Nat) :
    Nat × Nat :=
  if data.attr.rstrip then
    stripLeft rawText (found + data.text.length) (length - (found - offset + data.text.length))
  else (found + data.text.length, length - (found - offset + data.text.length))

/-- One pass of the loop over the text of a fragment: the state, and whether the loop goes on. -/
def step (rawText : List UInt8) (specialId : Nat) (data : VocabTokenData) (s : PartitionState) :
    Option (PartitionState × Bool) :=
  match searchFrom (rawText.take (s.baseOffset + s.baseLength)) data.text s.baseOffset with
  | none => some (s, false)
  | some found =>
    (s.emplaceRaw rawText s.baseOffset (leftReminder rawText data s.baseOffset found)).bind
      fun left =>
        let next := left.emplace (.token specialId)
        if found + data.text.length < s.baseOffset + s.baseLength then
          let right := rightReminder rawText data s.baseOffset s.baseLength found
          (next.emplaceRaw rawText right.1 right.2).map fun next =>
            ({ next.erase s.it with baseOffset := right.1, baseLength := right.2 }, true)
        else some (next.erase s.it, false)

/-- The loop; without a result it does not end. -/
def loop (rawText : List UInt8) (specialId : Nat) (data : VocabTokenData) :
    Nat → PartitionState → Option PartitionState
  | 0, _ => none
  | fuel + 1, s =>
    (s.step rawText specialId data).bind fun (s, continues) =>
      if continues then loop rawText specialId data fuel s else some s

end PartitionState

/-- The walk over the fragments for one special token. -/
def partitionFragments (specialId : Nat) (data : VocabTokenData) :
    Nat → List FragmentBufferVariant → Nat → Option (List FragmentBufferVariant)
  | 0, buffer, it => if it < buffer.length then none else some buffer
  | fuel + 1, buffer, it =>
    match buffer[it]? with
    | none => some buffer
    | some (.rawText rawText offset length) =>
      (PartitionState.loop rawText specialId data (length + 1)
          { buffer, it, baseOffset := offset, baseLength := length }).bind fun s =>
        partitionFragments specialId data fuel s.buffer (s.it + 1)
    | some (.token _) => partitionFragments specialId data fuel buffer (it + 1)

namespace TokenTable

/-- Control and unknown tokens are ignored when special tokens are not parsed. -/
def processed (data : VocabTokenData) (parseSpecial : Bool) : Bool :=
  parseSpecial || !(data.attr.control || data.attr.unknown)

/-- `tokenizer_st_partition` -/
def tokenizerStPartition (vocab : TokenTable) (buffer : List FragmentBufferVariant)
    (parseSpecial : Bool) : Option (List FragmentBufferVariant) :=
  vocab.cacheSpecialTokens.foldlM (fun buffer specialId =>
    match vocab.idToToken[specialId]? with
    | none => none
    | some data =>
      if processed data parseSpecial then
        partitionFragments specialId data buffer.length buffer 0
      else some buffer) buffer

/-- The fragments of a text, as `tokenize` makes them. -/
def fragments (vocab : TokenTable) (rawText : List UInt8) (parseSpecial : Bool) :
    Option (List FragmentBufferVariant) :=
  if rawText.isEmpty then some []
  else vocab.tokenizerStPartition [.rawText rawText 0 rawText.length] parseSpecial

end TokenTable

/-! ## Whitespace beside a token -/

theorem stripRight_le (rawText : List UInt8) (offset length : Nat) :
    stripRight rawText offset length ≤ length := by
  induction length with
  | zero => exact Nat.le_refl 0
  | succ n ih =>
    unfold stripRight
    split
    · exact Nat.le_succ_of_le ih
    · exact Nat.le_refl _

/-- What is stripped at the end of a segment is whitespace. -/
theorem stripRight_spaces {rawText : List UInt8} {offset length : Nat}
    (hBound : offset + length ≤ rawText.length) :
    ∀ c ∈ slice rawText (offset + stripRight rawText offset length)
      (length - stripRight rawText offset length), isSpace c = true := by
  induction length with
  | zero => intro c hMem; rw [Nat.zero_sub, slice_zero] at hMem; exact absurd hMem not_mem_nil
  | succ n ih =>
    unfold stripRight
    by_cases hSpace : rawText[offset + n]?.any isSpace = true
    · rw [if_pos hSpace]
      have hLe := stripRight_le rawText offset n
      rw [show n + 1 - stripRight rawText offset n = n - stripRight rawText offset n + 1 by omega,
        ← slice_append_slice,
        show offset + stripRight rawText offset n + (n - stripRight rawText offset n) = offset + n by
          omega]
      intro c hMem
      rcases mem_append.mp hMem with hOld | hLast
      · exact ih (by omega) c hOld
      have hHere : rawText[offset + n]? = some c := by
        unfold slice at hLast
        rw [take_one, head?_drop] at hLast
        exact mem_toList.mp hLast
      rw [hHere] at hSpace
      exact hSpace
    · rw [if_neg hSpace, Nat.sub_self, slice_zero]
      exact fun c hMem => absurd hMem not_mem_nil

theorem stripLeft_spec {rawText : List UInt8} {offset length : Nat} :
    (stripLeft rawText offset length).1 + (stripLeft rawText offset length).2 = offset + length ∧
      offset ≤ (stripLeft rawText offset length).1 ∧
      ∀ c ∈ slice rawText offset ((stripLeft rawText offset length).1 - offset),
        isSpace c = true := by
  induction length generalizing offset with
  | zero =>
    refine ⟨rfl, Nat.le_refl _, fun c hMem => ?_⟩
    rw [show (stripLeft rawText offset 0).1 = offset from rfl, Nat.sub_self, slice_zero] at hMem
    exact absurd hMem not_mem_nil
  | succ n ih =>
    unfold stripLeft
    by_cases hSpace : rawText[offset]?.any isSpace = true
    · rw [if_pos hSpace]
      obtain ⟨hSum, hLe, hSpaces⟩ := @ih (offset + 1)
      refine ⟨by omega, by omega, fun c hMem => ?_⟩
      rw [show (stripLeft rawText (offset + 1) n).1 - offset =
        1 + ((stripLeft rawText (offset + 1) n).1 - (offset + 1)) by omega,
        ← slice_append_slice] at hMem
      rcases mem_append.mp hMem with hFirst | hOther
      · have hHere : rawText[offset]? = some c := by
          unfold slice at hFirst
          rw [take_one, head?_drop] at hFirst
          exact mem_toList.mp hFirst
        rw [hHere] at hSpace
        exact hSpace
      · exact hSpaces c hOther
    rw [if_neg hSpace]
    refine ⟨rfl, Nat.le_refl _, fun c hMem => ?_⟩
    rw [Nat.sub_self, slice_zero] at hMem
    exact absurd hMem not_mem_nil

/-! ## What the fragments spell -/

/-- Raw fragments are spelled as their segments, token fragments as their texts, with whitespace
left out beside tokens that strip it. -/
inductive SpelledBy (vocab : TokenTable) : List FragmentBufferVariant → List UInt8 → Prop
  | nil : SpelledBy vocab [] []
  | rawText {rest : List FragmentBufferVariant} {text : List UInt8} (rawText : List UInt8)
      (offset length : Nat) (hRest : SpelledBy vocab rest text) :
      SpelledBy vocab (.rawText rawText offset length :: rest) (slice rawText offset length ++ text)
  | token {rest : List FragmentBufferVariant} {text : List UInt8} {id : Nat}
      {data : VocabTokenData} {left right : List UInt8} (hData : vocab.idToToken[id]? = some data)
      (hLeft : ∀ c ∈ left, isSpace c = true) (hLstrip : left ≠ [] → data.attr.lstrip = true)
      (hRight : ∀ c ∈ right, isSpace c = true) (hRstrip : right ≠ [] → data.attr.rstrip = true)
      (hRest : SpelledBy vocab rest text) :
      SpelledBy vocab (.token id :: rest) (left ++ data.text ++ right ++ text)

/-- A raw fragment, unless it is empty. -/
def rawPiece (rawText : List UInt8) (offset length : Nat) : List FragmentBufferVariant :=
  if 0 < length then [.rawText rawText offset length] else []

variable {vocab : TokenTable} {rawText : List UInt8} {specialId : Nat} {data : VocabTokenData}

theorem SpelledBy.append {fs gs : List FragmentBufferVariant} {s t : List UInt8}
    (h : SpelledBy vocab fs s) (h' : SpelledBy vocab gs t) : SpelledBy vocab (fs ++ gs) (s ++ t) := by
  induction h with
  | nil => exact h'
  | rawText rawText offset length _ ih =>
    rw [append_assoc]
    exact .rawText rawText offset length ih
  | token hData hLeft hLstrip hRight hRstrip _ ih =>
    rw [append_assoc]
    exact .token hData hLeft hLstrip hRight hRstrip ih

theorem spells_rawPiece (offset length : Nat) :
    SpelledBy vocab (rawPiece rawText offset length) (slice rawText offset length) := by
  unfold rawPiece
  split
  · have hOne := SpelledBy.rawText rawText offset length (@SpelledBy.nil vocab)
    rwa [append_nil] at hOne
  rename_i hZero
  rw [Nat.eq_zero_of_not_pos hZero, slice_zero]
  exact .nil

/-- A raw fragment within a segment, without a word. -/
def Clean (word : List UInt8) (rawText : List UInt8) (offset length : Nat) :
    FragmentBufferVariant → Prop
  | .token _ => True
  | .rawText rawText' o n =>
    rawText' = rawText ∧ 0 < n ∧ offset ≤ o ∧ o + n ≤ offset + length ∧
      ¬ word <:+: slice rawText o n

variable {word : List UInt8} {o n : Nat}

theorem Clean.mono {offset length : Nat} {f : FragmentBufferVariant}
    (h : Clean word rawText o n f) (hStart : offset ≤ o) (hEnd : o + n ≤ offset + length) :
    Clean word rawText offset length f := by
  cases f with
  | token => trivial
  | rawText rawText' o' n' =>
    obtain ⟨hSame, hPos, hLe, hBound, hNot⟩ := h
    exact ⟨hSame, hPos, by omega, by omega, hNot⟩

theorem clean_rawPiece {offset length : Nat}
    (hNot : ¬ word <:+: slice rawText offset length) :
    ∀ f ∈ rawPiece rawText offset length, Clean word rawText offset length f := by
  intro f hMem
  unfold rawPiece at hMem
  split at hMem
  · rw [mem_singleton.mp hMem]
    exact ⟨rfl, ‹_›, Nat.le_refl _, Nat.le_refl _, hNot⟩
  · exact absurd hMem not_mem_nil

/-! ## The list under the iterator -/

/-- The list while a node is replaced: the new nodes stand behind it, the iterator at the last of
them. -/
def PartitionState.editing (before : List FragmentBufferVariant) (source : FragmentBufferVariant)
    (inserted after : List FragmentBufferVariant) (baseOffset baseLength : Nat) :
    PartitionState where
  buffer := before ++ source :: (inserted ++ after)
  it := before.length + inserted.length
  baseOffset := baseOffset
  baseLength := baseLength

section Editing

variable {before inserted after : List FragmentBufferVariant} {source : FragmentBufferVariant}
  {baseOffset baseLength : Nat}

open PartitionState

theorem insertIdx_length_append {α : Type} (l r : List α) (x : α) :
    (l ++ r).insertIdx l.length x = l ++ x :: r := by
  induction l with
  | nil => exact insertIdx_zero
  | cons a rest ih =>
    rw [cons_append, length_cons, insertIdx_succ_cons, ih, cons_append]

theorem editing_emplace (fragment : FragmentBufferVariant) :
    (editing before source inserted after baseOffset baseLength).emplace fragment =
      editing before source (inserted ++ [fragment]) after baseOffset baseLength := by
  have hInsert : (before ++ source :: (inserted ++ after)).insertIdx
      (before.length + inserted.length + 1) fragment =
      before ++ source :: (inserted ++ [fragment] ++ after) := by
    have hAt := insertIdx_length_append (before ++ source :: inserted) after fragment
    rw [length_append, length_cons, ← Nat.add_assoc] at hAt
    simpa using hAt
  unfold PartitionState.emplace editing
  dsimp only
  rw [hInsert, length_append, length_singleton, Nat.add_assoc]

theorem editing_emplaceRaw {offset length : Nat} (hBound : offset + length ≤ rawText.length) :
    (editing before source inserted after baseOffset baseLength).emplaceRaw rawText offset length =
      some (editing before source (inserted ++ rawPiece rawText offset length) after baseOffset
        baseLength) := by
  unfold emplaceRaw rawPiece
  by_cases hPos : 0 < length
  · rw [if_pos hPos, if_pos hPos, if_pos hBound, editing_emplace]
  · rw [if_neg hPos, if_neg hPos, append_nil]

theorem editing_erase :
    (editing before source inserted after baseOffset baseLength).erase before.length =
      { buffer := before ++ (inserted ++ after)
        it := before.length + inserted.length - 1
        baseOffset
        baseLength } := by
  unfold erase editing
  dsimp only
  rw [eraseIdx_append_of_length_le (Nat.le_refl _), Nat.sub_self]
  rfl

/-! ## One special token in one fragment -/

/-- The iterator is at the node that the part of the text belongs to. -/
def PartitionState.reading (before : List FragmentBufferVariant) (source : FragmentBufferVariant)
    (after : List FragmentBufferVariant) (baseOffset baseLength : Nat) : PartitionState where
  buffer := before ++ source :: after
  it := before.length
  baseOffset := baseOffset
  baseLength := baseLength

theorem leftReminder_le (offset found : Nat) :
    leftReminder rawText data offset found ≤ found - offset := by
  unfold leftReminder
  split
  · exact stripRight_le rawText offset _
  · exact Nat.le_refl _

theorem rightReminder_sum {offset length found : Nat} (hFound : offset ≤ found)
    (hEnd : found + data.text.length ≤ offset + length) :
    (rightReminder rawText data offset length found).1 +
        (rightReminder rawText data offset length found).2 = offset + length ∧
      found + data.text.length ≤ (rightReminder rawText data offset length found).1 := by
  unfold rightReminder
  split
  · obtain ⟨hSum, hLe, -⟩ := @stripLeft_spec rawText (found + data.text.length)
      (length - (found - offset + data.text.length))
    exact ⟨by omega, hLe⟩
  · exact ⟨by dsimp only; omega, Nat.le_refl _⟩

/-- The nodes that take the place of a fragment, the rest of the text apart. -/
def foundPieces (rawText : List UInt8) (specialId : Nat) (data : VocabTokenData)
    (offset found : Nat) : List FragmentBufferVariant :=
  rawPiece rawText offset (leftReminder rawText data offset found) ++ [.token specialId]

theorem step_found {offset length found : Nat} (hBound : offset + length ≤ rawText.length)
    (hSearch : searchFrom (rawText.take (offset + length)) data.text offset = some found)
    (hFound : offset ≤ found) (hEnd : found + data.text.length ≤ offset + length) :
    (reading before source after offset length).step rawText specialId data =
      if found + data.text.length < offset + length then
        some ({ (editing before source (foundPieces rawText specialId data offset found ++
              rawPiece rawText (rightReminder rawText data offset length found).1
                (rightReminder rawText data offset length found).2) after offset length).erase
              before.length with
            baseOffset := (rightReminder rawText data offset length found).1
            baseLength := (rightReminder rawText data offset length found).2 }, true)
      else
        some ((editing before source (foundPieces rawText specialId data offset found) after
          offset length).erase before.length, false) := by
  have hLeft := @leftReminder_le rawText data offset found
  obtain ⟨hSum, -⟩ := @rightReminder_sum rawText data _ _ _ hFound hEnd
  have hEmplaced : (reading before source after offset length).emplaceRaw rawText offset
      (leftReminder rawText data offset found) =
      some (editing before source (rawPiece rawText offset (leftReminder rawText data offset found))
        after offset length) :=
    @editing_emplaceRaw _ _ [] _ _ _ _ _ _ (by omega)
  unfold step
  dsimp only [reading] at hEmplaced ⊢
  rw [hSearch]
  dsimp only
  rw [hEmplaced, bind_some, editing_emplace]
  by_cases hMore : found + data.text.length < offset + length
  · refine (if_pos hMore).trans (Eq.trans ?_ (if_pos hMore).symm)
    rw [editing_emplaceRaw (by omega)]
    rfl
  · exact (if_neg hMore).trans (if_neg hMore).symm

/-- The nodes at an occurrence spell their part of the text. -/
theorem spells_found {rest : List FragmentBufferVariant} {offset length found : Nat}
    (hBound : offset + length ≤ rawText.length) (hData : vocab.idToToken[specialId]? = some data)
    (hFound : offset ≤ found) (hEnd : found + data.text.length ≤ offset + length)
    (hText : slice rawText found data.text.length = data.text)
    (hRest : SpelledBy vocab rest (slice rawText (rightReminder rawText data offset length found).1
      (rightReminder rawText data offset length found).2)) :
    SpelledBy vocab (foundPieces rawText specialId data offset found ++ rest)
      (slice rawText offset length) := by
  have hLeft := @leftReminder_le rawText data offset found
  obtain ⟨hSum, hRight⟩ := @rightReminder_sum rawText data _ _ _ hFound hEnd
  generalize hl : leftReminder rawText data offset found = l at hLeft
  generalize hr : rightReminder rawText data offset length found = r at hSum hRight hRest
  -- the segment in five parts: left fragment, stripped, token, stripped, rest
  have hCut : slice rawText offset length = slice rawText offset l ++
      (slice rawText (offset + l) (found - (offset + l)) ++ data.text ++
        slice rawText (found + data.text.length) (r.1 - (found + data.text.length)) ++
          slice rawText r.1 r.2) := by
    have hEnds : slice rawText (found + data.text.length) (r.1 - (found + data.text.length)) ++
        slice rawText r.1 r.2 = slice rawText (found + data.text.length)
          (offset + length - (found + data.text.length)) := by
      have hTwo := slice_append_slice rawText (found + data.text.length)
        (r.1 - (found + data.text.length)) r.2
      rw [show found + data.text.length + (r.1 - (found + data.text.length)) = r.1 by omega] at hTwo
      rw [hTwo]
      congr 1
      omega
    have hMiddle : data.text ++ slice rawText (found + data.text.length)
        (offset + length - (found + data.text.length)) =
        slice rawText found (offset + length - found) := by
      have hTwo := slice_append_slice rawText found data.text.length
        (offset + length - (found + data.text.length))
      rw [hText] at hTwo
      rw [hTwo]
      congr 1
      omega
    have hFront : slice rawText (offset + l) (found - (offset + l)) ++
        slice rawText found (offset + length - found) =
        slice rawText (offset + l) (length - l) := by
      have hTwo := slice_append_slice rawText (offset + l) (found - (offset + l))
        (offset + length - found)
      rw [show offset + l + (found - (offset + l)) = found by omega] at hTwo
      rw [hTwo]
      congr 1
      omega
    rw [append_assoc, append_assoc, hEnds, hMiddle, hFront, slice_append_slice]
    congr 1
    omega
  unfold foundPieces
  rw [hCut, hl, append_assoc]
  refine (spells_rawPiece offset l).append ?_
  refine .token hData ?_ ?_ ?_ ?_ hRest
  · intro c hMem
    rw [← hl] at hMem
    unfold leftReminder at hMem
    split at hMem
    · have hSpaces := @stripRight_spaces rawText offset (found - offset)
        (by omega) c
      rw [show found - (offset + stripRight rawText offset (found - offset)) =
        found - offset - stripRight rawText offset (found - offset) by omega] at hMem
      exact hSpaces hMem
    · rw [show found - (offset + (found - offset)) = 0 by omega, slice_zero] at hMem
      exact absurd hMem not_mem_nil
  · intro hNonempty
    by_contra hNo
    refine hNonempty ?_
    have hAll : l = found - offset := by
      rw [← hl]
      unfold leftReminder
      rw [if_neg hNo]
    rw [show found - (offset + l) = 0 by omega, slice_zero]
  · intro c hMem
    rw [← hr] at hMem
    unfold rightReminder at hMem
    split at hMem
    · exact stripLeft_spec.2.2 c hMem
    · rw [Nat.sub_self, slice_zero] at hMem
      exact absurd hMem not_mem_nil
  intro hNonempty
  by_contra hNo
  refine hNonempty ?_
  have hAll : r.1 = found + data.text.length := by
    rw [← hr]
    unfold rightReminder
    rw [if_neg hNo]
  rw [hAll, Nat.sub_self, slice_zero]

theorem clean_foundPieces {offset length found : Nat}
    (hBound : offset + length ≤ rawText.length) (hFound : offset ≤ found)
    (hEnd : found + data.text.length ≤ offset + length) (hPos : 0 < data.text.length)
    (hFirst : ∀ p, offset ≤ p → p < found → ¬ data.text <+: (rawText.take (offset + length)).drop p) :
    ∀ f ∈ foundPieces rawText specialId data offset found,
      Clean data.text rawText offset length f := by
  have hLeft := @leftReminder_le rawText data offset found
  intro f hMem
  rcases mem_append.mp hMem with hRaw | hToken
  · refine (clean_rawPiece ?_ f hRaw).mono (Nat.le_refl _) (by omega)
    intro hInfix
    obtain ⟨p, hp, hLe, hOcc⟩ := (infix_slice_iff (by omega)).mp hInfix
    have hLength := hOcc.length_le
    rw [length_drop, length_take] at hLength
    refine hFirst p hp (by omega) (hOcc.trans ?_)
    exact (take_prefix_take_left (by omega)).drop p
  · rw [mem_singleton.mp hToken]
    trivial

/-- The loop goes on with the right fragment. -/
theorem reading_right {offset found : Nat} (hRest : 0 < n) :
    PartitionState.mk
        (before ++ (foundPieces rawText specialId data offset found ++ rawPiece rawText o n ++ after))
        (before.length +
          (foundPieces rawText specialId data offset found ++ rawPiece rawText o n).length - 1) o n =
      reading (before ++ foundPieces rawText specialId data offset found) (.rawText rawText o n)
        after o n := by
  unfold reading rawPiece
  rw [if_pos hRest]
  simp

/-- The right fragment has been stripped; the iterator is at the token. -/
theorem reading_token {offset found : Nat} :
    PartitionState.mk
        (before ++ (foundPieces rawText specialId data offset found ++ rawPiece rawText o 0 ++ after))
        (before.length +
          (foundPieces rawText specialId data offset found ++ rawPiece rawText o 0).length - 1) o 0 =
      reading (before ++ rawPiece rawText offset (leftReminder rawText data offset found))
        (.token specialId) after o 0 := by
  unfold reading foundPieces
  have hNone : rawPiece rawText o 0 = [] := rfl
  rw [hNone]
  simp

/-- The loop over the text of one fragment ends; its nodes spell the text, and none of them
contains the special token. -/
theorem loop_spec (hData : vocab.idToToken[specialId]? = some data) (hText : data.text ≠ []) :
    ∀ (fuel : Nat) (before : List FragmentBufferVariant) (source : FragmentBufferVariant)
      (after : List FragmentBufferVariant) (offset length : Nat), length < fuel →
      offset + length ≤ rawText.length → (0 < length → source = .rawText rawText offset length) →
      ∃ pieces s, loop rawText specialId data fuel (reading before source after offset length) =
          some s ∧ s.buffer = before ++ (pieces ++ after) ∧
        s.it + 1 = before.length + pieces.length ∧ (length = 0 → pieces = [source]) ∧
          (0 < length → SpelledBy vocab pieces (slice rawText offset length) ∧
            ∀ f ∈ pieces, Clean data.text rawText offset length f) := by
  intro fuel
  induction fuel with
  | zero => exact fun _ _ _ _ length hFuel => absurd hFuel (Nat.not_lt_zero length)
  | succ fuel ih =>
    intro before source after offset length hFuel hBound hSource
    have hTextPos : 0 < data.text.length := length_pos_iff.mpr hText
    unfold loop
    cases hSearch : searchFrom (rawText.take (offset + length)) data.text offset with
    | none =>
      have hStep : (reading before source after offset length).step rawText specialId data =
          some (reading before source after offset length, false) := by
        unfold step
        dsimp only [reading]
        rw [hSearch]
      rw [hStep, bind_some]
      refine ⟨[source], _, rfl, rfl, rfl, fun _ => rfl, fun hPos => ?_⟩
      have hNone : ¬ data.text <:+: slice rawText offset length := by
        intro hInfix
        obtain ⟨p, hp, hLe, hOcc⟩ := (infix_slice_iff hBound).mp hInfix
        refine searchFrom_eq_none_iff.mp hSearch p hp ?_ hOcc
        rw [length_take]
        omega
      have hPiece : [source] = rawPiece rawText offset length := by
        unfold rawPiece
        rw [if_pos hPos, hSource hPos]
      rw [hPiece]
      exact ⟨spells_rawPiece offset length, clean_rawPiece hNone⟩
    | some found =>
      obtain ⟨hFound, -, hOcc, hFirst⟩ := searchFrom_eq_some_iff.mp hSearch
      have hEnd : found + data.text.length ≤ offset + length := by
        have hLength := hOcc.length_le
        rw [length_drop, length_take] at hLength
        omega
      have hSlice : slice rawText found data.text.length = data.text := by
        unfold slice
        have hTake := prefix_iff_eq_take.mp hOcc
        rw [drop_take, take_take, Nat.min_eq_left (by omega)] at hTake
        exact hTake.symm
      obtain ⟨hSum, hRight⟩ := @rightReminder_sum rawText data _ _ _ hFound hEnd
      have hClean := @clean_foundPieces rawText specialId data _ _ _ hBound hFound hEnd hTextPos hFirst
      rw [step_found hBound hSearch hFound hEnd]
      by_cases hMore : found + data.text.length < offset + length
      · rw [if_pos hMore, bind_some, editing_erase]
        dsimp only
        rw [if_pos rfl]
        generalize hr : rightReminder rawText data offset length found = r at hSum hRight ⊢
        by_cases hRest : 0 < r.2
        · -- the iterator is at the right fragment
          obtain ⟨pieces, s, hLoop, hBuffer, hIt, -, hPieces⟩ := ih
            (before ++ foundPieces rawText specialId data offset found)
            (.rawText rawText r.1 r.2) after r.1 r.2 (by omega) (by omega) (fun _ => rfl)
          obtain ⟨hSpells, hPiecesClean⟩ := hPieces hRest
          refine ⟨foundPieces rawText specialId data offset found ++ pieces, s, ?_, ?_, ?_,
            fun hZero => by omega, fun _ => ⟨?_, fun f hMem => ?_⟩⟩
          · rw [reading_right hRest, hLoop]
          · rw [hBuffer]
            simp
          · rw [hIt]
            simp [Nat.add_assoc]
          · exact spells_found hBound hData hFound hEnd hSlice (hr ▸ hSpells)
          rcases mem_append.mp hMem with hFoundPiece | hPiece
          · exact hClean f hFoundPiece
          · exact (hPiecesClean f hPiece).mono (by omega) (by omega)
        -- the iterator is at the token, and nothing of the text remains
        have hNil : r.2 = 0 := Nat.eq_zero_of_not_pos hRest
        obtain ⟨pieces, s, hLoop, hBuffer, hIt, hOne, -⟩ := ih
          (before ++ rawPiece rawText offset (leftReminder rawText data offset found))
          (.token specialId) after r.1 0 (by omega) (by omega)
          (fun hPos => absurd hPos (Nat.lt_irrefl 0))
        rw [hOne rfl] at hBuffer hIt
        refine ⟨foundPieces rawText specialId data offset found, s, ?_, ?_, ?_,
          fun hZero => by omega, fun _ => ⟨?_, hClean⟩⟩
        · rw [hNil, reading_token, hLoop]
        · rw [hBuffer]
          unfold foundPieces
          simp
        · rw [hIt]
          unfold foundPieces
          simp [Nat.add_assoc]
        have hSpells := @spells_found _ _ _ _ [] _ _ _ hBound hData hFound hEnd hSlice
          (by rw [hr, hNil, slice_zero]; exact .nil)
        rwa [append_nil] at hSpells
      rw [if_neg hMore, bind_some, editing_erase]
      refine ⟨foundPieces rawText specialId data offset found, _, rfl, rfl, ?_, fun hZero => ?_,
        fun _ => ⟨?_, hClean⟩⟩
      · have hOne : 0 < (foundPieces rawText specialId data offset found).length := by
          unfold foundPieces
          simp
        dsimp only
        omega
      · omega
      have hNil : (rightReminder rawText data offset length found).2 = 0 := by omega
      have hSpells := @spells_found _ _ _ _ [] _ _ _ hBound hData hFound hEnd hSlice
        (by rw [hNil, slice_zero]; exact .nil)
      rwa [append_nil] at hSpells

end Editing

/-! ## All fragments, all special tokens -/

/-- The raw fragments are not empty and lie within their texts. -/
def WellFormed (buffer : List FragmentBufferVariant) : Prop :=
  ∀ raw o n, .rawText raw o n ∈ buffer → 0 < n ∧ o + n ≤ raw.length

/-- The fragments spell what those before spell, and each raw one is a part of one before and
contains none of the words. -/
structure Refined (vocab : TokenTable) (words : List (List UInt8))
    (buffer buffer' : List FragmentBufferVariant) : Prop where
  spells : ∀ text, SpelledBy vocab buffer text → SpelledBy vocab buffer' text
  raw : ∀ raw o' n', .rawText raw o' n' ∈ buffer' →
    0 < n' ∧ (∃ o n, .rawText raw o n ∈ buffer ∧ o ≤ o' ∧ o' + n' ≤ o + n) ∧
      ∀ word ∈ words, ¬ word <:+: slice raw o' n'

variable {words words' : List (List UInt8)} {buffer buffer' buffer'' : List FragmentBufferVariant}

theorem Refined.refl (hWell : WellFormed buffer) : Refined vocab [] buffer buffer where
  spells _ h := h
  raw raw o n hMem := ⟨(hWell raw o n hMem).1, ⟨o, n, hMem, Nat.le_refl _, Nat.le_refl _⟩,
    fun _ hWord => absurd hWord not_mem_nil⟩

theorem Refined.trans (h : Refined vocab words buffer buffer')
    (h' : Refined vocab words' buffer' buffer'') :
    Refined vocab (words ++ words') buffer buffer'' where
  spells text hSpells := h'.spells text (h.spells text hSpells)
  raw raw o n hMem := by
    obtain ⟨hPos, ⟨o', n', hMem', hStart', hEnd'⟩, hNew⟩ := h'.raw raw o n hMem
    obtain ⟨-, ⟨o'', n'', hMem'', hStart'', hEnd''⟩, hOld⟩ := h.raw raw o' n' hMem'
    refine ⟨hPos, ⟨o'', n'', hMem'', by omega, by omega⟩, fun word hWord hInfix => ?_⟩
    rcases mem_append.mp hWord with hBefore | hNow
    · exact hOld word hBefore (hInfix.trans (slice_isInfix hStart' hEnd'))
    · exact hNew word hNow hInfix

theorem Refined.wellFormed (h : Refined vocab words buffer buffer') (hWell : WellFormed buffer) :
    WellFormed buffer' := by
  intro raw o' n' hMem
  obtain ⟨hPos, ⟨o, n, hMem', hStart, hEnd⟩, -⟩ := h.raw raw o' n' hMem
  have hBound := (hWell raw o n hMem').2
  exact ⟨hPos, by omega⟩

theorem partitionFragments_refined (hData : vocab.idToToken[specialId]? = some data)
    (hText : data.text ≠ []) (rest : List FragmentBufferVariant) :
    ∀ (before : List FragmentBufferVariant) (fuel : Nat), rest.length ≤ fuel →
      WellFormed rest → ∃ rest',
        partitionFragments specialId data fuel (before ++ rest) before.length =
          some (before ++ rest') ∧ Refined vocab [data.text] rest rest' := by
  induction rest with
  | nil =>
    intro before fuel _ _
    refine ⟨[], ?_, fun _ h => h, fun _ _ _ hMem => absurd hMem not_mem_nil⟩
    rw [append_nil]
    cases fuel with
    | zero => exact if_neg (Nat.lt_irrefl _)
    | succ n =>
      unfold partitionFragments
      rw [getElem?_eq_none (Nat.le_refl _)]
  | cons source rest ih =>
    intro before fuel hFuel hWell
    obtain ⟨fuel, rfl⟩ := Nat.exists_eq_succ_of_ne_zero (Nat.ne_of_gt
      (Nat.lt_of_lt_of_le (Nat.succ_pos rest.length) hFuel))
    have hRest : WellFormed rest := fun raw o n hMem =>
      hWell raw o n (mem_cons_of_mem _ hMem)
    have hFuelRest : rest.length ≤ fuel := Nat.le_of_succ_le_succ hFuel
    have hHere : (before ++ source :: rest)[before.length]? = some source := by
      rw [getElem?_append_right (Nat.le_refl _), Nat.sub_self]
      rfl
    unfold partitionFragments
    rw [hHere]
    cases source with
    | token id =>
      obtain ⟨rest', hWalk, hSpells, hRaw⟩ := ih (before ++ [.token id]) fuel hFuelRest hRest
      rw [length_append, length_singleton, append_assoc,
        singleton_append] at hWalk
      refine ⟨.token id :: rest', ?_, fun text hText => ?_, fun raw o' n' hMem => ?_⟩
      · dsimp only
        rw [hWalk, append_assoc, singleton_append]
      · cases hText with
        | token hOther hLeft hLstrip hRight hRstrip hTail =>
          exact .token hOther hLeft hLstrip hRight hRstrip (hSpells _ hTail)
      rcases mem_cons.mp hMem with hEq | hTail
      · exact absurd hEq (by simp)
      · obtain ⟨hPos, ⟨o, n, hOld, hBounds⟩, hWords⟩ := hRaw raw o' n' hTail
        exact ⟨hPos, ⟨o, n, mem_cons_of_mem _ hOld, hBounds⟩, hWords⟩
    | rawText rawText offset length =>
      obtain ⟨hPos, hBound⟩ := hWell rawText offset length mem_cons_self
      obtain ⟨pieces, s, hLoop, hBuffer, hIt, -, hPieces⟩ :=
        loop_spec hData hText (length + 1) before (.rawText rawText offset length) rest offset
          length (Nat.lt_succ_self _) hBound (fun _ => rfl)
      obtain ⟨hPiecesSpell, hClean⟩ := hPieces hPos
      obtain ⟨rest', hWalk, hSpells, hRaw⟩ := ih (before ++ pieces) fuel hFuelRest hRest
      rw [length_append, append_assoc] at hWalk
      refine ⟨pieces ++ rest', ?_, fun text hText => ?_, fun raw o' n' hMem => ?_⟩
      · dsimp only
        unfold PartitionState.reading at hLoop
        rw [hLoop, bind_some, hBuffer, hIt, hWalk, append_assoc]
      · cases hText with
        | rawText _ _ _ hTail => exact hPiecesSpell.append (hSpells _ hTail)
      rcases mem_append.mp hMem with hPiece | hTail
      · obtain ⟨rfl, hPos', hStart, hEnd, hNot⟩ := hClean _ hPiece
        refine ⟨hPos', ⟨offset, length, mem_cons_self, hStart, hEnd⟩, fun word hWord => ?_⟩
        rw [mem_singleton.mp hWord]
        exact hNot
      · obtain ⟨hPos', ⟨o, n, hOld, hBounds⟩, hWords⟩ := hRaw raw o' n' hTail
        exact ⟨hPos', ⟨o, n, mem_cons_of_mem _ hOld, hBounds⟩, hWords⟩

namespace TokenTable

/-- Every special token is a token of the vocabulary and has a text. -/
def SpecialTexts (vocab : TokenTable) : Prop :=
  ∀ id ∈ vocab.cacheSpecialTokens, ∃ data, vocab.idToToken[id]? = some data ∧ data.text ≠ []

/-- The texts of the special tokens that are processed. -/
def processedTexts (vocab : TokenTable) (ids : List Nat) (parseSpecial : Bool) :
    List (List UInt8) :=
  ids.flatMap fun id => (vocab.idToToken[id]?.toList.filter fun data =>
    processed data parseSpecial).map VocabTokenData.text

theorem tokenizerStPartition_refined (parseSpecial : Bool) {ids : List Nat}
    (hIds : ∀ id ∈ ids, ∃ data, vocab.idToToken[id]? = some data ∧ data.text ≠ [])
    (hWell : WellFormed buffer) : ∃ buffer',
      ids.foldlM (fun buffer specialId =>
        match vocab.idToToken[specialId]? with
        | none => none
        | some data =>
          if processed data parseSpecial then
            partitionFragments specialId data buffer.length buffer 0
          else some buffer) buffer = some buffer' ∧
        Refined vocab (vocab.processedTexts ids parseSpecial) buffer buffer' := by
  induction ids generalizing buffer with
  | nil => exact ⟨buffer, rfl, .refl hWell⟩
  | cons id rest ih =>
    obtain ⟨data, hData, hText⟩ := hIds id mem_cons_self
    have hStep : ∃ next, (if processed data parseSpecial then
        partitionFragments id data buffer.length buffer 0 else some buffer) = some next ∧
        Refined vocab (vocab.processedTexts [id] parseSpecial) buffer next := by
      by_cases hProcessed : processed data parseSpecial = true
      · have hOne : vocab.processedTexts [id] parseSpecial = [data.text] := by
          simp [processedTexts, hData, hProcessed]
        rw [if_pos hProcessed, hOne]
        exact partitionFragments_refined hData hText buffer [] buffer.length (Nat.le_refl _) hWell
      have hNone : vocab.processedTexts [id] parseSpecial = [] := by
        simp [processedTexts, hData, hProcessed]
      rw [if_neg hProcessed, hNone]
      exact ⟨buffer, rfl, .refl hWell⟩
    obtain ⟨next, hNext, hRefined⟩ := hStep
    obtain ⟨buffer', hRest, hRefined'⟩ := ih
      (fun other hMem => hIds other (mem_cons_of_mem _ hMem)) (hRefined.wellFormed hWell)
    refine ⟨buffer', ?_, ?_⟩
    · rw [foldlM_cons, hData]
      dsimp only
      rw [hNext]
      exact hRest
    have hAll : vocab.processedTexts (id :: rest) parseSpecial =
        vocab.processedTexts [id] parseSpecial ++ vocab.processedTexts rest parseSpecial := by
      unfold processedTexts
      rw [flatMap_cons, flatMap_singleton]
    rw [hAll]
    exact hRefined.trans hRefined'

/-- The partition ends, its fragments spell the text, no raw fragment is empty, and none contains
the text of a special token that was processed. -/
theorem fragments_spell (vocab : TokenTable) (rawText : List UInt8) (parseSpecial : Bool)
    (hText : rawText ≠ []) (hSpecial : vocab.SpecialTexts) :
    ∃ fs, vocab.fragments rawText parseSpecial = some fs ∧ SpelledBy vocab fs rawText ∧
      ∀ raw offset length, .rawText raw offset length ∈ fs →
        slice raw offset length ≠ [] ∧
          ∀ id ∈ vocab.cacheSpecialTokens, ∀ data, vocab.idToToken[id]? = some data →
            processed data parseSpecial = true → ¬ data.text <:+: slice raw offset length := by
  have hLength : 0 < rawText.length := length_pos_iff.mpr hText
  have hWell : WellFormed [.rawText rawText 0 rawText.length] := by
    intro raw o n hMem
    obtain ⟨rfl, rfl, rfl⟩ := FragmentBufferVariant.rawText.inj (mem_singleton.mp hMem)
    exact ⟨hLength, by omega⟩
  obtain ⟨fs, hFs, hRefined⟩ := @tokenizerStPartition_refined vocab _ parseSpecial _
    hSpecial hWell
  refine ⟨fs, ?_, ?_, fun raw offset length hMem => ?_⟩
  · unfold fragments tokenizerStPartition
    rw [if_neg (by simp [hText])]
    exact hFs
  · have hOne := hRefined.spells _ (.rawText rawText 0 rawText.length .nil)
    rwa [append_nil, slice_all] at hOne
  obtain ⟨hPos, -, hWords⟩ := hRefined.raw raw offset length hMem
  obtain ⟨-, hBound⟩ := hRefined.wellFormed hWell raw offset length hMem
  refine ⟨fun hNil => ?_, fun id hId data hData hProcessed => hWords data.text ?_⟩
  · have hZero := congrArg List.length hNil
    rw [length_slice hBound, length_nil] at hZero
    omega
  · refine mem_flatMap.mpr ⟨id, hId, mem_map.mpr ⟨data, ?_, rfl⟩⟩
    exact mem_filter.mpr ⟨by rw [hData]; exact mem_singleton_self _, hProcessed⟩

/-- A special token that strips on both sides, and one that is a single byte. -/
def twoSpecials : TokenTable where
  idToToken := [{ text := [97, 98], attr := { lstrip := true, rstrip := true } }, { text := [99] }]
  cacheSpecialTokens := [0, 1]

/-- The blanks around the first special token are dropped; the last byte is the second one. -/
theorem twoSpecials_spell : ∃ fs, twoSpecials.fragments [120, 32, 97, 98, 32, 99] true = some fs ∧
    SpelledBy twoSpecials fs [120, 32, 97, 98, 32, 99] ∧ fs.length = 3 := by
  have hSpecial : twoSpecials.SpecialTexts := by
    intro id hMem
    have hTwo : id = 0 ∨ id = 1 := by simpa [twoSpecials] using hMem
    rcases hTwo with rfl | rfl
    · exact ⟨_, rfl, by decide⟩
    · exact ⟨_, rfl, by decide⟩
  obtain ⟨fs, hFs, hSpells, -⟩ :=
    fragments_spell twoSpecials [120, 32, 97, 98, 32, 99] true (by decide) hSpecial
  have hLength : (twoSpecials.fragments [120, 32, 97, 98, 32, 99] true).map length =
      some 3 := by
    decide
  rw [hFs] at hLength
  exact ⟨fs, hFs, hSpells, some.inj hLength⟩

end TokenTable

end Beellama.Ports
