import Beellama.Ports.VocabMergeRun
import Beellama.Ports.VocabPartition
import Mathlib.Data.List.Sort

/-!
# The sessions of the SPM and the BPE tokenizer

Both run the merge loop, with scores or with merge ranks.  A session ends with the pieces of the naive
merging (`spmSession_spec`, `bpeSession_spec`), and an entry of the queue that is not skipped is for two
neighbours (`Reached.adjacent`).
-/

namespace Beellama.Ports

open Beellama.Verified List Option MergeSession Except LlmBigram

/-- What the sessions read of `llama_vocab`; a score is an integer, in units of the least positive
`float`. -/
structure LlamaVocab where
  tokenToId : List (List UInt8 × Nat)
  idToToken : List VocabTokenData
  bpeRanks : List ((List UInt8 × List UInt8) × Nat) := []
  ignoreMerges : Bool := false
  /-- `pre_type == LLAMA_VOCAB_PRE_TYPE_GEMMA4` -/
  preTypeGemma4 : Bool := false
  deriving DecidableEq

/-- How a session ends without symbols: at an assertion, or not within the passes it was given. -/
inductive SessionStop
  | aborted
  | exhausted
  deriving DecidableEq

namespace LlamaVocab

/-- `text_to_token`; `none` is `LLAMA_TOKEN_NULL`. -/
def textToToken (vocab : LlamaVocab) (text : List UInt8) : Option Nat :=
  vocab.tokenToId.lookup text

def space : UInt8 := 0x20

/-- `find_bpe_rank`, which asserts that there is no space in either token. -/
def findBpeRank (vocab : LlamaVocab) (tokenLeft tokenRight : List UInt8) : Option Int :=
  if space ∈ tokenLeft ∨ space ∈ tokenRight then none
  else
    match vocab.bpeRanks.lookup (tokenLeft, tokenRight) with
    | none => some (-1)
    | some rank => some rank

/-- `try_add_bigram` and the test for outdated entries of the SPM session. -/
def spmRules (vocab : LlamaVocab) : MergeRules where
  bigram text left right :=
    let pair := slice text left.text (left.n + right.n)
    (vocab.textToToken pair).bind fun token =>
      vocab.idToToken[token]?.map fun data => (pair, -data.score)
  outdated _ left right bigram := left.n + right.n != bigram.size

/-- `add_new_bigram` and the test for outdated entries of the BPE session. -/
def bpeRules (vocab : LlamaVocab) : MergeRules where
  bigram text left right :=
    let leftToken := slice text left.text left.n
    let rightToken := slice text right.text right.n
    (vocab.findBpeRank leftToken rightToken).bind fun rankFound =>
      if rankFound < 0 then none else some (leftToken ++ rightToken, rankFound)
  outdated text left right bigram :=
    slice text left.text left.n ++ slice text right.text right.n != bigram.text

/-! ## The SPM session -/

/-- The symbols from one on, by their links; an index out of range has none. -/
def walk (text : List UInt8) (symbols : List LlmSymbol) : Nat → Nat → Option (List (List UInt8))
  | 0, _ => none
  | fuel + 1, i =>
    match symbols[i]? with
    | none => none
    | some sym =>
      match sym.next with
      | none => some [slice text sym.text sym.n]
      | some next =>
        (walk text symbols fuel next).map fun pieces => slice text sym.text sym.n :: pieces

/-- The texts of the symbols that `tokenize` resegments, from symbol 0 on. -/
def spmSession (vocab : LlamaVocab) (text : List UInt8) : Option (List (List UInt8)) :=
  (MergeSession.run vocab.spmRules text (splitSymbols text text.length 0 0)).bind fun session =>
    walk text session.symbols session.symbols.length 0

/-! ## The BPE session -/

/-- The word is one symbol: the merges are ignored and the word is a token, or it is a token of
line feeds of Gemma 4. -/
def keepsWhole (vocab : LlamaVocab) (word : List UInt8) : Bool :=
  (vocab.ignoreMerges && (vocab.textToToken word).isSome) ||
    (vocab.preTypeGemma4 && word.all (· == 0x0A) && (vocab.textToToken word).isSome)

/-- The symbols of a word before its first merge. -/
def bpeSymbols (vocab : LlamaVocab) (word : List UInt8) : List LlmSymbol :=
  if vocab.keepsWhole word then [⟨none, none, 0, word.length⟩]
  else splitSymbols word word.length 0 0

/-- `add_new_bigram` -/
def addNewBigram (vocab : LlamaVocab) (word : List UInt8) (session : MergeSession)
    (left right : Option Nat) : Except SessionStop MergeSession :=
  match left, right with
  | some left, some right =>
    match session.symbols[left]?, session.symbols[right]? with
    | some leftSym, some rightSym =>
      match vocab.findBpeRank (slice word leftSym.text leftSym.n)
          (slice word rightSym.text rightSym.n) with
      | none => .error .aborted
      | some _ => .ok (session.tryAddBigram vocab.bpeRules word (some left) (some right))
    | _, _ => .ok session
  | _, _ => .ok session

/-- The pairs of all neighbours. -/
def bpeSeed (vocab : LlamaVocab) (word : List UInt8) (symbols : List LlmSymbol) :
    Except SessionStop MergeSession :=
  (List.range' 1 (symbols.length - 1)).foldlM
    (fun session i => vocab.addNewBigram word session (some (i - 1)) (some i)) { symbols }

/-- One pass of the loop, when the queue is not empty. -/
def bpeStep (vocab : LlamaVocab) (word : List UInt8) (session : MergeSession) :
    Option (Except SessionStop MergeSession) :=
  match LlmBigram.pop session.workQueue with
  | none => none
  | some (bigram, workQueue) =>
    let session := { session with workQueue }
    match session.symbols[bigram.left]?, session.symbols[bigram.right]? with
    | some leftSym, some rightSym =>
      if leftSym.n = 0 ∨ rightSym.n = 0 ∨
          vocab.bpeRules.outdated word leftSym rightSym bigram = true then
        some (.ok session)
      else
        let merged := session.merge bigram.left bigram.right leftSym rightSym
        some ((vocab.addNewBigram word merged leftSym.prev (some bigram.left)).bind fun session =>
          vocab.addNewBigram word session (some bigram.left) rightSym.next)
    | _, _ => some (.ok session)

def bpeLoop (vocab : LlamaVocab) (word : List UInt8) :
    Nat → MergeSession → Except SessionStop MergeSession
  | 0, _ => .error .exhausted
  | fuel + 1, session =>
    match vocab.bpeStep word session with
    | none => .ok session
    | some next => next.bind (bpeLoop vocab word fuel)

/-- The texts of the symbols of a word that go to `symbols_final`: those that are not empty. -/
def bpeSession (vocab : LlamaVocab) (word : List UInt8) : Except SessionStop (List (List UInt8)) :=
  let symbols := vocab.bpeSymbols word
  ((vocab.bpeSeed word symbols).bind (vocab.bpeLoop word (3 * symbols.length + 1))).map fun session =>
    (session.symbols.filter fun sym => 0 < sym.n).map fun sym => slice word sym.text sym.n

/-! ## Ranks -/

/-- The rank of two pieces for the SPM tokenizer: their concatenation is a token, and a greater
score comes first. -/
def spmRank (vocab : LlamaVocab) (x y : List UInt8) : Option Int :=
  (vocab.textToToken (x ++ y)).bind fun token => vocab.idToToken[token]?.map fun data => -data.score

/-- The rank of two pieces in the table of the BPE tokenizer. -/
def bpeRank (vocab : LlamaVocab) (x y : List UInt8) : Option Int :=
  (vocab.bpeRanks.lookup (x, y)).map fun rank => (rank : Int)

theorem spmRules_follows (vocab : LlamaVocab) (text : List UInt8) :
    vocab.spmRules.Follows text vocab.spmRank := by
  refine ⟨fun sym other hText _ => ?_, fun sym other b _ _ _ _ => ?_⟩
  · have hPair : slice text sym.text sym.n ++ slice text other.text other.n =
        slice text sym.text (sym.n + other.n) := by
      rw [hText, slice_append_slice]
    unfold spmRules spmRank
    dsimp only
    rw [hPair]
    cases vocab.textToToken (slice text sym.text (sym.n + other.n)) with
    | none => rfl
    | some token =>
      rw [Option.bind_some, Option.bind_some, Option.map_map]
      rfl
  · exact bne_iff_ne

theorem findBpeRank_of_noSpace (vocab : LlamaVocab) {x y : List UInt8} (hx : space ∉ x)
    (hy : space ∉ y) :
    (vocab.findBpeRank x y).bind (fun rankFound =>
      if rankFound < 0 then none else some (x ++ y, rankFound)) =
        (vocab.bpeRank x y).map fun rank => (x ++ y, rank) := by
  unfold findBpeRank bpeRank
  rw [if_neg (not_or.mpr ⟨hx, hy⟩)]
  cases vocab.bpeRanks.lookup (x, y) with
  | none => rfl
  | some rank =>
    have hNonneg : ¬ (rank : Int) < 0 := by omega
    rfl

theorem notMem_slice {α : Type} {a : α} {l : List α} (h : a ∉ l) (offset length : Nat) :
    a ∉ slice l offset length :=
  fun hMem => h (mem_of_mem_drop (mem_of_mem_take hMem))

theorem bpeRules_follows (vocab : LlamaVocab) {word : List UInt8} (hSpace : space ∉ word) :
    vocab.bpeRules.Follows word vocab.bpeRank := by
  refine ⟨fun sym other hText _ => ?_, fun sym other b hText hBound hFits hSlice => ?_⟩
  · unfold bpeRules
    dsimp only
    rw [vocab.findBpeRank_of_noSpace (notMem_slice hSpace _ _) (notMem_slice hSpace _ _),
      ← slice_append_slice, ← hText]
  have hPair : slice word sym.text sym.n ++ slice word other.text other.n =
      slice word sym.text (sym.n + other.n) := by
    rw [hText, slice_append_slice]
  have hLength : (slice word sym.text (sym.n + other.n)).length = sym.n + other.n :=
    length_slice (by omega)
  have hSize : (slice word sym.text b.size).length = b.size := length_slice hFits
  unfold bpeRules
  dsimp only
  rw [bne_iff_ne, hPair, hSlice]
  constructor
  · intro hNe hEq
    exact hNe (hEq ▸ rfl)
  intro hNe hEq
  rw [hEq, hSize] at hLength
  exact hNe hLength.symm

end LlamaVocab

/-! ## What the sessions end with -/

theorem utf8Chars_flatten (text : List UInt8) : (utf8Chars text).flatten = text := by
  induction text using utf8Chars.induct with
  | case1 =>
    rw [utf8Chars]
    rfl
  | case2 c cs ih => rw [utf8Chars, flatten_cons, ih, cons_append, take_append_drop]

variable {text : List UInt8} {symbols : List LlmSymbol} {chain : List Nat}

section

variable (h : Chained text symbols chain)

include h

theorem Chained.walk (fuel : Nat) :
    ∀ k i, chain[k]? = some i → chain.length ≤ k + fuel →
      LlamaVocab.walk text symbols fuel i = some (chainPieces text symbols (chain.drop k)) := by
  induction fuel with
  | zero =>
    intro k i hi hFuel
    have hBound := (List.getElem?_eq_some_iff.mp hi).1
    omega
  | succ fuel ih =>
    intro k i hi hFuel
    obtain ⟨sym, hSym, -, hNext, -⟩ := h.symbol k i hi
    obtain ⟨hBound, hHere⟩ := List.getElem?_eq_some_iff.mp hi
    have hPieces : chainPieces text symbols (chain.drop k) =
        slice text sym.text sym.n :: chainPieces text symbols (chain.drop (k + 1)) := by
      rw [drop_eq_getElem_cons hBound, hHere, ← symbolPiece_of_getElem? hSym]
      rfl
    unfold LlamaVocab.walk
    rw [hSym, hPieces]
    dsimp only
    cases hLink : sym.next with
    | none =>
      rw [hLink] at hNext
      rw [drop_eq_nil_of_le (getElem?_eq_none_iff.mp hNext.symm)]
      rfl
    | some next =>
      rw [hLink] at hNext
      dsimp only
      rw [ih (k + 1) next hNext.symm (by omega)]
      rfl

/-- The chain has the indices of the symbols that are not empty. -/
theorem Chained.range_filter :
    ((range symbols.length).filter fun i => symbols[i]?.any fun sym => 0 < sym.n) = chain := by
  refine (pairwise_lt_range.filter _).eq_of_mem_iff h.sorted fun i => ?_
  rw [mem_filter, mem_range]
  constructor
  · intro hMem
    rw [getElem?_eq_getElem hMem.1, any_some, decide_eq_true_eq] at hMem
    exact (h.live i _ (getElem?_eq_getElem hMem.1)).mp hMem.2
  intro hMem
  obtain ⟨k, hk⟩ := mem_iff_getElem?.mp hMem
  obtain ⟨sym, hSym, -⟩ := h.symbol k i hk
  rw [hSym, any_some, decide_eq_true_eq]
  exact ⟨(List.getElem?_eq_some_iff.mp hSym).1, (h.live i sym hSym).mpr hMem⟩

theorem Chained.length_le : chain.length ≤ symbols.length := by
  rw [← h.range_filter]
  exact Nat.le_trans (length_filter_le _ _) (Nat.le_of_eq length_range)

omit h in
theorem filter_take (m : Nat) (hm : m ≤ symbols.length) :
    ((symbols.take m).filter fun sym => 0 < sym.n).map (fun sym => slice text sym.text sym.n) =
      ((range m).filter fun i => symbols[i]?.any fun sym => 0 < sym.n).map
        (symbolPiece text symbols) := by
  induction m with
  | zero => rfl
  | succ m ih =>
    have hHere : symbols[m]? = some symbols[m] := getElem?_eq_getElem hm
    rw [take_succ_eq_append_getElem hm, range_succ, filter_append,
      filter_append, map_append, map_append, ih (by omega)]
    congr 1
    rw [filter_singleton, filter_singleton, hHere, any_some]
    by_cases hPos : 0 < symbols[m].n
    · rw [decide_eq_true hPos]
      show [_] = [symbolPiece text symbols m]
      rw [symbolPiece_of_getElem? hHere]
    · rw [decide_eq_false hPos]
      rfl

theorem Chained.filter_pieces :
    ((symbols.filter fun sym => 0 < sym.n).map fun sym => slice text sym.text sym.n) =
      chainPieces text symbols chain := by
  have hAll := @filter_take text symbols symbols.length (Nat.le_refl _)
  rw [take_length, h.range_filter] at hAll
  exact hAll

end

namespace LlamaVocab

/-- The SPM session ends, with the pieces of the naive merging. -/
theorem spmSession_spec (vocab : LlamaVocab) {text : List UInt8} (hText : text ≠ []) :
    ∃ pieces, vocab.spmSession text = some pieces ∧
      BestMerges vocab.spmRank (utf8Chars text) pieces := by
  have hSplit := (splitSymbols_spec text.length 0 0 (Nat.zero_le text.length) (Nat.le_refl _)).1
  obtain ⟨last, chain, hRun, hInv, hMerges⟩ := run_spec (vocab.spmRules_follows text) hSplit.chained
  rw [hSplit.chainPieces] at hMerges
  have hFlatten := hMerges.flatten
  rw [utf8Chars_flatten] at hFlatten
  have hFirst : chain[0]? = some 0 := by
    have hFirst := hInv.first
    split at hFirst
    · have hNil : chain = [] := getElem?_eq_none_iff.mp hFirst |> eq_nil_of_length_eq_zero ∘ Nat.le_zero.mp
      rw [hNil] at hFlatten
      exact absurd hFlatten.symm hText
    · exact hFirst
  have hWalk := hInv.chained.walk last.symbols.length 0 0 hFirst (by
    rw [Nat.zero_add]
    exact hInv.chained.length_le)
  refine ⟨_, ?_, hMerges⟩
  unfold spmSession
  rw [hRun, bind_some, hWalk, drop_zero]

end LlamaVocab

/-! ## The passes of the BPE session -/

variable {symbols : List LlmSymbol}

namespace LlamaVocab

variable {vocab : LlamaVocab} {word : List UInt8} {session next : MergeSession}

variable {left right : Option Nat}

/-- A call that returns has added the pair, if it has a rank. -/
theorem addNewBigram_ok (h : vocab.addNewBigram word session left right = .ok next) :
    session.tryAddBigram vocab.bpeRules word left right = next := by
  cases left with
  | none => exact ok.inj h
  | some i =>
    cases right with
    | none => exact ok.inj h
    | some j =>
      unfold addNewBigram at h
      dsimp only at h
      cases hLeft : session.symbols[i]? with
      | none =>
        rw [hLeft] at h
        unfold tryAddBigram
        dsimp only
        rw [hLeft]
        exact ok.inj h
      | some leftSym =>
        cases hRight : session.symbols[j]? with
        | none =>
          rw [hLeft, hRight] at h
          unfold tryAddBigram
          dsimp only
          rw [hLeft, hRight]
          exact ok.inj h
        | some rightSym =>
          rw [hLeft, hRight] at h
          dsimp only at h
          split at h
          · exact absurd h (by simp)
          · exact ok.inj h

section

variable (hSpace : space ∉ word)

include hSpace

theorem addNewBigram_noSpace (left right : Option Nat) :
    vocab.addNewBigram word session left right =
      .ok (session.tryAddBigram vocab.bpeRules word left right) := by
  cases hAdd : vocab.addNewBigram word session left right with
  | ok next => rw [addNewBigram_ok hAdd]
  | error stop =>
    unfold addNewBigram at hAdd
    split at hAdd
    · split at hAdd
      · split at hAdd
        · rename_i hRank
          unfold findBpeRank at hRank
          rw [if_neg (not_or.mpr ⟨notMem_slice hSpace _ _, notMem_slice hSpace _ _⟩)] at hRank
          split at hRank <;> exact absurd hRank (by simp)
        · exact absurd hAdd (by simp)
      · exact absurd hAdd (by simp)
    · exact absurd hAdd (by simp)

omit hSpace in
theorem bpeStep_ok (h : vocab.bpeStep word session = some (.ok next)) :
    session.step vocab.bpeRules word = some next := by
  unfold bpeStep at h
  unfold step
  cases hPop : pop session.workQueue with
  | none =>
    rw [hPop] at h
    exact absurd h (by simp)
  | some popped =>
    rw [hPop] at h
    dsimp only at h ⊢
    cases hLeft : session.symbols[popped.1.left]? with
    | none =>
      rw [hLeft] at h
      exact congrArg some (ok.inj (some.inj h))
    | some leftSym =>
      cases hRight : session.symbols[popped.1.right]? with
      | none =>
        rw [hLeft, hRight] at h
        exact congrArg some (ok.inj (some.inj h))
      | some rightSym =>
        rw [hLeft, hRight] at h
        dsimp only at h ⊢
        split at h
        · rw [if_pos ‹_›, ok.inj (some.inj h)]
        rw [if_neg ‹_›]
        have hBoth := some.inj h
        generalize merge { session with workQueue := popped.2 } popped.1.left
          popped.1.right leftSym rightSym = merged at hBoth ⊢
        cases hAdd : vocab.addNewBigram word merged leftSym.prev (some popped.1.left) with
        | error stop =>
          rw [hAdd] at hBoth
          exact absurd hBoth (by simp [Except.bind])
        | ok middle =>
          rw [hAdd] at hBoth
          rw [addNewBigram_ok hAdd, addNewBigram_ok hBoth]

theorem bpeStep_noSpace :
    vocab.bpeStep word session = (session.step vocab.bpeRules word).map .ok := by
  unfold bpeStep step
  cases pop session.workQueue with
  | none => rfl
  | some popped =>
    dsimp only
    cases session.symbols[popped.1.left]? with
    | none => rfl
    | some leftSym =>
      cases session.symbols[popped.1.right]? with
      | none => rfl
      | some rightSym =>
        dsimp only
        split
        · rfl
        rw [addNewBigram_noSpace hSpace]
        show some (vocab.addNewBigram word _ _ _) = _
        rw [addNewBigram_noSpace hSpace]
        rfl

theorem bpeLoop_noSpace (fuel : Nat) {last : MergeSession} :
    ∀ session, MergeSession.mergeLoop vocab.bpeRules word fuel session = some last →
      vocab.bpeLoop word fuel session = .ok last := by
  induction fuel with
  | zero => intro session h; exact absurd h (by simp [mergeLoop])
  | succ fuel ih =>
    intro session h
    unfold mergeLoop at h
    unfold bpeLoop
    rw [bpeStep_noSpace hSpace]
    cases hStep : session.step vocab.bpeRules word with
    | none =>
      rw [hStep] at h
      rw [map_none, some.inj h]
    | some next =>
      rw [hStep] at h
      exact ih next h

theorem bpeSeed_noSpace (symbols : List LlmSymbol) :
    vocab.bpeSeed word symbols = .ok (MergeSession.seed vocab.bpeRules word symbols) := by
  unfold bpeSeed seed
  generalize range' 1 (symbols.length - 1) = indices
  generalize ({ symbols } : MergeSession) = session
  induction indices generalizing session with
  | nil => rfl
  | cons i indices ih =>
    rw [foldlM_cons, addNewBigram_noSpace hSpace]
    exact ih _

end

/-- One symbol or none: there is nothing to merge. -/
theorem bpeSession_single (hSymbols : vocab.bpeSymbols word = symbols)
    (hLength : symbols.length ≤ 1) : vocab.bpeSession word =
      .ok ((symbols.filter fun sym => 0 < sym.n).map fun sym => slice word sym.text sym.n) := by
  have hSeed : vocab.bpeSeed word symbols = .ok { symbols } := by
    unfold bpeSeed
    rw [show symbols.length - 1 = 0 by omega]
    rfl
  unfold bpeSession
  rw [hSymbols]
  dsimp only
  rw [hSeed]
  rfl

theorem length_utf8Chars {offs : Nat} (h : SplitFrom word offs 0 symbols) :
    (utf8Chars (word.drop offs)).length = symbols.length := by
  rw [← h.pieces, length_map]

theorem bpeSymbols_split (hKept : vocab.keepsWhole word = false) :
    SplitFrom word 0 0 (vocab.bpeSymbols word) := by
  unfold bpeSymbols
  rw [hKept]
  exact (splitSymbols_spec word.length 0 0 (Nat.zero_le word.length) (Nat.le_refl _)).1

/-- The BPE session of a word that is cut into characters and does not abort ends with the pieces
of the naive merging. -/
theorem bpeSession_spec (hKept : vocab.keepsWhole word = false)
    (hSpace : space ∉ word ∨ (utf8Chars word).length ≤ 1) :
    ∃ pieces, vocab.bpeSession word = .ok pieces ∧
      BestMerges vocab.bpeRank (utf8Chars word) pieces := by
  have hSplit := bpeSymbols_split hKept
  have hChain := hSplit.chained
  have hChars : chainPieces word (vocab.bpeSymbols word)
      (range (vocab.bpeSymbols word).length) = utf8Chars word := hSplit.chainPieces
  have hLength : (utf8Chars word).length = (vocab.bpeSymbols word).length := length_utf8Chars hSplit
  rcases hSpace with hSpace | hSingle
  · obtain ⟨last, chain, hRun, hInv, hMerges⟩ := run_spec (vocab.bpeRules_follows hSpace) hChain
    rw [hChars] at hMerges
    refine ⟨_, ?_, hMerges⟩
    unfold bpeSession
    dsimp only
    rw [bpeSeed_noSpace hSpace]
    show ((vocab.bpeLoop word _ _).map _) = _
    rw [bpeLoop_noSpace hSpace _ _ hRun, ← hInv.chained.filter_pieces]
    rfl
  rw [hLength] at hSingle
  refine ⟨_, bpeSession_single rfl hSingle, ?_⟩
  rw [hChain.filter_pieces, hChars]
  refine .done fun k => ?_
  unfold pairRank
  rw [getElem?_eq_none (l := utf8Chars word) (i := k + 1) (by omega)]
  cases (utf8Chars word)[k]? <;> rfl

theorem bpeSession_kept (hKept : vocab.keepsWhole word = true) (hWord : word ≠ []) :
    vocab.bpeSession word = .ok [word] := by
  have hSymbols : vocab.bpeSymbols word = [⟨none, none, 0, word.length⟩] := by
    unfold bpeSymbols
    rw [hKept, if_pos rfl]
  rw [bpeSession_single hSymbols (Nat.le_refl 1), filter_singleton,
    decide_eq_true (length_pos_of_ne_nil hWord)]
  show ok [slice word 0 word.length] = _
  rw [slice_all]

variable {j : Nat}

/-- A pair with a space in one of its symbols stops the session. -/
theorem addNewBigram_space {i : Nat} {leftSym rightSym : LlmSymbol}
    (hLeft : session.symbols[i]? = some leftSym) (hRight : session.symbols[j]? = some rightSym)
    (hSpace : space ∈ slice word leftSym.text leftSym.n ∨
      space ∈ slice word rightSym.text rightSym.n) :
    vocab.addNewBigram word session (some i) (some j) = .error .aborted := by
  unfold addNewBigram
  dsimp only
  rw [hLeft, hRight]
  dsimp only
  unfold findBpeRank
  rw [if_pos hSpace]

theorem tryAddBigram_symbols (rules : MergeRules) (text : List UInt8) (left right : Option Nat) :
    (session.tryAddBigram rules text left right).symbols = session.symbols := by
  unfold tryAddBigram
  repeat' split
  all_goals rfl

theorem addNewBigram_error {stop : SessionStop}
    (h : vocab.addNewBigram word session left right = .error stop) : stop = .aborted := by
  unfold addNewBigram at h
  repeat' split at h
  all_goals first
    | exact (error.inj h).symm
    | exact absurd h (by simp)

/-- The seed stops at a pair that stops it. -/
theorem seed_aborts (hStops : ∀ session : MergeSession,
      session.symbols = symbols →
        vocab.addNewBigram word session (some (j - 1)) (some j) = .error .aborted)
    (indices : List Nat) (hj : j ∈ indices) :
    ∀ session : MergeSession, session.symbols = symbols →
      indices.foldlM (fun session i => vocab.addNewBigram word session (some (i - 1)) (some i))
        session = .error .aborted := by
  induction indices with
  | nil => exact absurd hj not_mem_nil
  | cons i indices ih =>
    intro session hSymbols
    rw [foldlM_cons]
    cases hAdd : vocab.addNewBigram word session (some (i - 1)) (some i) with
    | error stop =>
      rw [addNewBigram_error hAdd]
      rfl
    | ok next =>
      have hNext : next.symbols = symbols := by
        rw [← addNewBigram_ok hAdd, tryAddBigram_symbols, hSymbols]
      rcases mem_cons.mp hj with rfl | hRest
      · rw [hStops session hSymbols] at hAdd
        exact absurd hAdd (by simp)
      · exact ih hRest next hNext

/-- A word of several characters with a space among them stops the seed. -/
theorem bpeSeed_aborts (hSplit : SplitFrom word 0 0 symbols)
    (hSpace : space ∈ word) (hSeveral : 2 ≤ symbols.length) :
    vocab.bpeSeed word symbols = .error .aborted := by
  -- the symbol with the space
  obtain ⟨m, sym, hSym, hMem⟩ : ∃ (m : Nat) (sym : LlmSymbol), symbols[m]? = some sym ∧
      space ∈ slice word sym.text sym.n := by
    have hFlat : space ∈ (utf8Chars word).flatten := by
      rw [utf8Chars_flatten]
      exact hSpace
    obtain ⟨piece, hPiece, hMem⟩ := mem_flatten.mp hFlat
    have hPieces := hSplit.pieces
    rw [drop_zero] at hPieces
    rw [← hPieces] at hPiece
    obtain ⟨sym, hSym, rfl⟩ := mem_map.mp hPiece
    obtain ⟨m, hm⟩ := mem_iff_getElem?.mp hSym
    exact ⟨m, sym, hm, hMem⟩
  have hm : m < symbols.length := (List.getElem?_eq_some_iff.mp hSym).1
  -- the first pair that it belongs to
  obtain ⟨j, hj, hStops⟩ : ∃ j, j ∈ range' 1 (symbols.length - 1) ∧
      ∀ session : MergeSession, session.symbols = symbols →
        vocab.addNewBigram word session (some (j - 1)) (some j) = .error .aborted := by
    by_cases hZero : m = 0
    · obtain ⟨other, hOne⟩ : ∃ other, symbols[1]? = some other :=
        ⟨_, getElem?_eq_getElem (by omega)⟩
      refine ⟨1, mem_range'_1.mpr ⟨by omega, by omega⟩, fun session hEq => ?_⟩
      rw [hZero, ← hEq] at hSym
      rw [← hEq] at hOne
      exact addNewBigram_space hSym hOne (.inl hMem)
    obtain ⟨other, hBefore⟩ : ∃ other, symbols[m - 1]? = some other :=
      ⟨_, getElem?_eq_getElem (by omega)⟩
    refine ⟨m, mem_range'_1.mpr ⟨by omega, by omega⟩, fun session hEq => ?_⟩
    rw [← hEq] at hSym hBefore
    exact addNewBigram_space hBefore hSym (.inr hMem)
  exact seed_aborts hStops _ hj _ rfl

theorem bpeSession_aborts (hKept : vocab.keepsWhole word = false) (hSpace : space ∈ word)
    (hChars : 2 ≤ (utf8Chars word).length) : vocab.bpeSession word = .error .aborted := by
  have hSplit := bpeSymbols_split hKept
  have hLength : (utf8Chars word).length = (vocab.bpeSymbols word).length := length_utf8Chars hSplit
  unfold bpeSession
  dsimp only
  rw [bpeSeed_aborts hSplit hSpace (hLength ▸ hChars)]
  rfl

end LlamaVocab

/-! ## The entries of the queue -/

variable {rules : MergeRules} {rank : List UInt8 → List UInt8 → Option Int} {s : MergeSession}

/-- The states of the loop. -/
inductive Reached (rules : MergeRules) (text : List UInt8) (symbols : List LlmSymbol) :
    MergeSession → Prop
  | seed : Reached rules text symbols (.seed rules text symbols)
  | step {s s' : MergeSession} (h : Reached rules text symbols s)
      (hStep : s.step rules text = some s') : Reached rules text symbols s'

/-- An entry that is not skipped when it is popped. -/
def Passes (rules : MergeRules) (text : List UInt8) (s : MergeSession) (b : LlmBigram) : Prop :=
  ∃ left right, s.symbols[b.left]? = some left ∧ s.symbols[b.right]? = some right ∧
    left.n ≠ 0 ∧ right.n ≠ 0 ∧ rules.outdated text left right b = false

/-- The symbols of an entry are linked to one another, and the text of the right one begins where
that of the left one ends. -/
def Adjacent (s : MergeSession) (b : LlmBigram) : Prop :=
  ∃ left right, s.symbols[b.left]? = some left ∧ s.symbols[b.right]? = some right ∧
    left.next = some b.right ∧ right.prev = some b.left ∧ right.text = left.text + left.n

theorem Reached.inv (h : Reached rules text symbols s) (hFollows : rules.Follows text rank)
    (hChain : Chained text symbols (range symbols.length)) :
    ∃ chain, MergeInvariant rank text s chain := by
  induction h with
  | seed => exact ⟨_, (seed_inv hFollows hChain).2.1⟩
  | step _ hStep ih =>
    obtain ⟨chain, hInv⟩ := ih
    cases hInv.step hFollows hStep with
    | skipped hNext => exact ⟨_, hNext⟩
    | merged _ hNext => exact ⟨_, hNext⟩

variable {top : LlmBigram} {rest : List LlmBigram}

theorem MergeInvariant.adjacent (h : MergeInvariant rank text s chain)
    (hPop : LlmBigram.pop s.workQueue = some (top, rest))
    (hPasses : Passes rules text s top) : Adjacent s top := by
  obtain ⟨left, right, hLeft, hRight, hPos, hPosRight, -⟩ := hPasses
  have hMem : top ∈ s.workQueue :=
    (pop_eq_some hPop).1.mem_iff.mpr mem_cons_self
  obtain ⟨k, hk, hk', -⟩ := (h.entries top hMem).neighbours h.chained hLeft hRight
    (Nat.pos_of_ne_zero hPos) (Nat.pos_of_ne_zero hPosRight)
  obtain ⟨foundLeft, hFoundLeft, -, hNext, -⟩ := h.chained.symbol k _ hk
  obtain ⟨foundRight, hFoundRight, hPrev, -⟩ := h.chained.symbol (k + 1) _ hk'
  rw [some.inj (hFoundLeft.symm.trans hLeft)] at hNext
  rw [some.inj (hFoundRight.symm.trans hRight)] at hPrev
  exact ⟨left, right, hLeft, hRight, hNext.trans hk', hPrev.trans hk,
    h.chained.adjacent k _ _ left right hk hk' hLeft hRight⟩

namespace LlamaVocab

variable {vocab : LlamaVocab} {word : List UInt8}

/-- The states of the loop over the queue of a word. -/
inductive BpeReached (vocab : LlamaVocab) (word : List UInt8) : MergeSession → Prop
  | seed {s : MergeSession} (h : vocab.bpeSeed word (vocab.bpeSymbols word) = .ok s) :
      BpeReached vocab word s
  | step {s s' : MergeSession} (h : BpeReached vocab word s)
      (hStep : vocab.bpeStep word s = some (.ok s')) : BpeReached vocab word s'

theorem bpeSeed_ok (h : vocab.bpeSeed word symbols = .ok s) :
    s = .seed vocab.bpeRules word symbols := by
  unfold bpeSeed at h
  unfold seed
  generalize range' 1 (symbols.length - 1) = indices at h ⊢
  generalize ({ symbols } : MergeSession) = start at h ⊢
  induction indices generalizing start with
  | nil => exact (ok.inj h).symm
  | cons i indices ih =>
    rw [foldlM_cons] at h
    cases hAdd : vocab.addNewBigram word start (some (i - 1)) (some i) with
    | error stop =>
      rw [hAdd] at h
      exact absurd h (by simp [bind, Except.bind])
    | ok next =>
      rw [hAdd] at h
      rw [foldl_cons, addNewBigram_ok hAdd]
      exact ih next h

theorem BpeReached.reached (h : vocab.BpeReached word s) :
    Reached vocab.bpeRules word (vocab.bpeSymbols word) s := by
  induction h with
  | seed hSeed =>
    rw [bpeSeed_ok hSeed]
    exact .seed
  | step _ hStep ih => exact .step ih (bpeStep_ok hStep)

theorem BpeReached.seeded (h : vocab.BpeReached word s) :
    ∃ start, vocab.bpeSeed word (vocab.bpeSymbols word) = .ok start := by
  induction h with
  | seed hSeed => exact ⟨_, hSeed⟩
  | step _ _ ih => exact ih

theorem reached_single (hLength : symbols.length ≤ 1) (h : Reached rules text symbols s) :
    s.workQueue = [] := by
  induction h with
  | seed =>
    unfold seed
    rw [show symbols.length - 1 = 0 by omega]
    rfl
  | step _ hStep ih =>
    unfold step at hStep
    rw [ih] at hStep
    exact absurd hStep (by simp [pop])

theorem spm_adjacent (vocab : LlamaVocab) (text : List UInt8)
    (h : Reached vocab.spmRules text (splitSymbols text text.length 0 0) s)
    (hPop : LlmBigram.pop s.workQueue = some (top, rest))
    (hPasses : Passes vocab.spmRules text s top) : Adjacent s top := by
  have hSplit := (splitSymbols_spec text.length 0 0 (Nat.zero_le text.length) (Nat.le_refl _)).1
  obtain ⟨chain, hInv⟩ := h.inv (vocab.spmRules_follows text) hSplit.chained
  exact hInv.adjacent hPop hPasses

theorem BpeReached.adjacent (h : vocab.BpeReached word s)
    (hPop : LlmBigram.pop s.workQueue = some (top, rest))
    (hPasses : Passes vocab.bpeRules word s top) : Adjacent s top := by
  have hEmpty : (vocab.bpeSymbols word).length ≤ 1 → Adjacent s top := by
    intro hLength
    rw [reached_single hLength h.reached] at hPop
    exact absurd hPop (by simp [pop])
  cases hKept : vocab.keepsWhole word with
  | true =>
    refine hEmpty ?_
    unfold bpeSymbols
    rw [hKept]
    exact Nat.le_refl 1
  | false =>
    have hSplit := bpeSymbols_split hKept
    by_cases hSpace : space ∈ word
    · refine hEmpty ?_
      by_contra hSeveral
      obtain ⟨start, hSeed⟩ := h.seeded
      rw [bpeSeed_aborts hSplit hSpace (by omega)] at hSeed
      exact absurd hSeed (by simp)
    · obtain ⟨chain, hInv⟩ := h.reached.inv (vocab.bpeRules_follows hSpace) hSplit.chained
      exact hInv.adjacent hPop hPasses

/-- Merging from the queue is naive merging, unless the word of a BPE session is kept whole or has
a space beside another character. An entry that is not skipped is for two neighbours. -/
theorem merges_naively (vocab : LlamaVocab) :
    (∀ text, text ≠ [] → ∃ pieces, vocab.spmSession text = some pieces ∧
      BestMerges vocab.spmRank (utf8Chars text) pieces ∧ pieces.flatten = text) ∧
    (∀ word, vocab.keepsWhole word = false →
      (space ∉ word ∨ (utf8Chars word).length ≤ 1 → ∃ pieces, vocab.bpeSession word = .ok pieces ∧
        BestMerges vocab.bpeRank (utf8Chars word) pieces ∧ pieces.flatten = word) ∧
      (space ∈ word → 2 ≤ (utf8Chars word).length → vocab.bpeSession word = .error .aborted)) ∧
    (∀ word, vocab.keepsWhole word = true → word ≠ [] → vocab.bpeSession word = .ok [word]) ∧
    (∀ text s, Reached vocab.spmRules text (splitSymbols text text.length 0 0) s →
      ∀ top rest, LlmBigram.pop s.workQueue = some (top, rest) →
        Passes vocab.spmRules text s top → Adjacent s top) ∧
    ∀ word s, vocab.BpeReached word s →
      ∀ top rest, LlmBigram.pop s.workQueue = some (top, rest) →
        Passes vocab.bpeRules word s top → Adjacent s top := by
  refine ⟨fun text hText => ?_, fun word hKept => ⟨fun hSpace => ?_, fun hSpace hChars => ?_⟩,
    fun word hKept hWord => bpeSession_kept hKept hWord,
    fun text s h top rest hPop hPasses => spm_adjacent vocab text h hPop hPasses,
    fun word s h top rest hPop hPasses => h.adjacent hPop hPasses⟩
  · obtain ⟨pieces, hSession, hMerges⟩ := vocab.spmSession_spec hText
    exact ⟨pieces, hSession, hMerges, hMerges.flatten.trans (utf8Chars_flatten text)⟩
  · obtain ⟨pieces, hSession, hMerges⟩ := bpeSession_spec hKept hSpace
    exact ⟨pieces, hSession, hMerges, hMerges.flatten.trans (utf8Chars_flatten word)⟩
  · exact bpeSession_aborts hKept hSpace hChars

/-- Of the letters "ababc" the last two are merged first. -/
def competing : LlamaVocab where
  tokenToId := [([0x61, 0x62], 0), ([0x62, 0x63], 1), ([0x61, 0x62, 0x63], 2)]
  idToToken :=
    [{ text := [0x61, 0x62], score := 1 }, { text := [0x62, 0x63], score := 2 },
      { text := [0x61, 0x62, 0x63] }]

/-- The pair of the higher score wins although another one stands before it. -/
theorem competing_naively :
    competing.spmSession [0x61, 0x62, 0x61, 0x62, 0x63] = some [[0x61, 0x62], [0x61, 0x62, 0x63]] ∧
      BestMerges competing.spmRank (utf8Chars [0x61, 0x62, 0x61, 0x62, 0x63])
        [[0x61, 0x62], [0x61, 0x62, 0x63]] := by
  obtain ⟨pieces, hSession, hMerges, -⟩ :=
    (merges_naively competing).1 [0x61, 0x62, 0x61, 0x62, 0x63] (by decide)
  have hRun : competing.spmSession [0x61, 0x62, 0x61, 0x62, 0x63] =
      some [[0x61, 0x62], [0x61, 0x62, 0x63]] := by decide +kernel
  obtain rfl := Option.some.inj (hRun.symm.trans hSession)
  exact ⟨hRun, hMerges⟩

/-- A vocabulary that ignores its merges, with one token of two letters. -/
def ignoringMerges : LlamaVocab where
  tokenToId := [([0x61, 0x62], 0)]
  idToToken := [{ text := [0x61, 0x62] }]
  ignoreMerges := true

/-- The word is kept whole, and no merge makes it from its letters. -/
theorem ignoringMerges_kept : ignoringMerges.bpeSession [0x61, 0x62] = .ok [[0x61, 0x62]] ∧
    ¬ BestMerges ignoringMerges.bpeRank (utf8Chars [0x61, 0x62]) [[0x61, 0x62]] := by
  have hChars : utf8Chars [0x61, 0x62] = [[0x61], [0x62]] := by
    simp [utf8Chars, unicodeLenUtf8]
  refine ⟨bpeSession_kept (by decide) (by decide), fun hMerges => ?_⟩
  rw [hChars] at hMerges
  have hDone : BestMerges ignoringMerges.bpeRank [[0x61], [0x62]] [[0x61], [0x62]] := by
    refine .done fun k => ?_
    unfold pairRank
    split
    · rfl
    · rfl
  exact absurd (hMerges.unique hDone) (by decide)

end LlamaVocab

end Beellama.Ports
