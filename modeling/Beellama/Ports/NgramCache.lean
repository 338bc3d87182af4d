import Beellama.Ports.ServerTokensSync
import Beellama.Verified.EmplacedMap
import Mathlib.Data.Vector.Defs

/-!
# N-gram caches

A cache maps n-grams, padded to four tokens, to the tokens that followed them, with 32-bit counts:
every n-gram of a text once (`cacheOf_stored`), sums after a merge (`mergeCaches_stored`), and the same
after a save and a load (`load_save`).  The order of the entries stands for that of the iteration.
-/

namespace Beellama.Ports

open Beellama.Verified Option
open List hiding Vector

/-- `common_ngram` -/
structure CommonNgram where
  tokens : Vector Int32 4
  deriving DecidableEq

/-- `common_ngram(input, ngram_size)`, of the tokens from an offset on. -/
def commonNgram (inp : List Int32) (start ngramSize : Nat) : CommonNgram where
  tokens := .ofFn fun i => if i < ngramSize then inp.getD (start + i) 0 else tokenNull

/-- `common_ngram_cache_part` -/
abbrev NgramCachePart := AList fun _ : Int32 => Int32

/-- `common_ngram_cache` -/
abbrev NgramCache := AList fun _ : CommonNgram => NgramCachePart

namespace NgramCache

/-- The body of the loop of `common_ngram_cache_update`: one more time the token follows the
n-gram. -/
def record (cache : NgramCache) (ngram : CommonNgram) (token : Int32) : NgramCache :=
  match cache.lookup ngram with
  | none => cache.insert ngram ((∅ : NgramCachePart).insert token 1)
  | some part =>
    match part.lookup token with
    | none => cache.insert ngram (part.insert token 1)
    | some count => cache.insert ngram (part.insert token (count + 1))

/-- The loop for one size of n-grams. -/
def updateSize (inp : List Int32) (nnew : Int32) (cache : NgramCache) (ngramSize : Nat) :
    NgramCache :=
  let iStart := (max (inp.length - nnew.toInt) ngramSize).toNat
  (List.range' iStart (inp.length - iStart)).foldl
    (fun cache i => cache.record (commonNgram inp (i - ngramSize) ngramSize) (inp.getD i 0)) cache

/-- `common_ngram_cache_update` -/
def update (cache : NgramCache) (ngramMin ngramMax : Nat) (inp : List Int32) (nnew : Int32) :
    NgramCache :=
  (List.range' ngramMin (ngramMax + 1 - ngramMin)).foldl (updateSize inp nnew) cache

/-- The tokens of a text that is appended piece by piece, and the cache that is updated after each
piece. -/
def appendPieces (ngramMin ngramMax : Nat) (pieces : List (List Int32)) : List Int32 × NgramCache :=
  pieces.foldl (fun s piece =>
    (s.1 ++ piece, s.2.update ngramMin ngramMax (s.1 ++ piece) (.ofNat piece.length))) ([], ∅)

/-- A token of an n-gram of both caches in `common_ngram_cache_merge`, which asserts that its count
is positive. -/
def mergeToken (merged : NgramCachePart) (tokenCount : (_ : Int32) × Int32) :
    Option NgramCachePart :=
  if 0 < tokenCount.2 then
    match merged.lookup tokenCount.1 with
    | none => some (merged.insert tokenCount.1 tokenCount.2)
    | some count => some (merged.insert tokenCount.1 (count + tokenCount.2))
  else none

/-- An n-gram of the cache that is added. -/
def mergeNgram (target : NgramCache) (ngramPart : (_ : CommonNgram) × NgramCachePart) :
    Option NgramCache :=
  match target.lookup ngramPart.1 with
  | none => some (target.insert ngramPart.1 ngramPart.2)
  | some merged =>
    (ngramPart.2.entries.foldlM mergeToken merged).map fun merged =>
      target.insert ngramPart.1 merged

/-- `common_ngram_cache_merge`; without a result an assertion fails. -/
def merge (target add : NgramCache) : Option NgramCache := add.entries.foldlM mergeNgram target

/-! ### The file -/

/-- The bytes of an `int32_t`. -/
def int32Bytes (n : Int32) : List UInt8 := leBytes 4 (tokenWord n)

/-- The bytes of a `common_ngram`. -/
def ngramBytes (ngram : CommonNgram) : List UInt8 := ngram.tokens.toList.flatMap int32Bytes

/-- What is written for a token and its count. -/
def saveToken (tokenCount : (_ : Int32) × Int32) : Option (List UInt8) :=
  if 0 < tokenCount.2 then some (int32Bytes tokenCount.1 ++ int32Bytes tokenCount.2) else none

/-- What is written for an n-gram. -/
def saveNgram (item : (_ : CommonNgram) × NgramCachePart) : Option (List UInt8) :=
  let ntokens := Int32.ofNat item.2.entries.length
  if item.2.entries = [] then none
  else if 0 < ntokens then
    (item.2.entries.mapM saveToken).map fun tokens =>
      ngramBytes item.1 ++ int32Bytes ntokens ++ tokens.flatten
  else none

/-- `common_ngram_cache_save`: the contents of the file; without a result an assertion fails. -/
def save (cache : NgramCache) : Option (List UInt8) :=
  (cache.entries.mapM saveNgram).map List.flatten

/-- A read of an `int32_t`, which the callers assert. -/
def readInt32 (bytes : List UInt8) : Option (Int32 × List UInt8) :=
  if bytes.length < 4 then none
  else some (wordToken (StagedReader.leNat (bytes.take 4)), bytes.drop 4)

def readNgram (bytes : List UInt8) : CommonNgram where
  tokens := .ofFn fun i => wordToken (StagedReader.leNat ((bytes.drop (4 * i)).take 4))

/-- The loop over the tokens of an n-gram. -/
def loadTokens : Nat → NgramCachePart → List UInt8 → Option (NgramCachePart × List UInt8)
  | 0, part, bytes => some (part, bytes)
  | n + 1, part, bytes => do
      let (token, bytes) ← readInt32 bytes
      let (count, bytes) ← readInt32 bytes
      if 0 < count then loadTokens n (emplace part token count) bytes else none

/-- The loop over the n-grams: it ends at a read that reaches the end of the file. -/
def loadNgrams : Nat → NgramCache → List UInt8 → Option NgramCache
  | 0, _, _ => none
  | fuel + 1, cache, bytes =>
    if bytes.length < 16 then some cache
    else do
      let (ntokens, rest) ← readInt32 (bytes.drop 16)
      if 0 < ntokens then do
        let (part, rest) ← loadTokens ntokens.toNatClampNeg ∅ rest
        loadNgrams fuel (emplace cache (readNgram bytes) part) rest
      else none

/-- `common_ngram_cache_load`, from the contents of the file; without a result an assertion
fails. -/
def load (bytes : List UInt8) : Option NgramCache := loadNgrams (bytes.length + 1) ∅ bytes

/-! ## Counts -/

/-- What the cache has for an n-gram and a token. -/
def stored (cache : NgramCache) (ngram : CommonNgram) (token : Int32) : Option Int32 :=
  (cache.lookup ngram).bind fun part => part.lookup token

/-- The count for an n-gram and a token. -/
def countOf (cache : NgramCache) (ngram : CommonNgram) (token : Int32) : Int :=
  ((cache.stored ngram token).map Int32.toInt).getD 0

/-- How often the token follows the n-gram in a text: at how many of its indices one stands behind
the other. -/
def occurrences (inp ngram : List Int32) (token : Int32) : Nat :=
  (List.range inp.length).countP fun i => (ngram ++ [token]).isSuffixOf (inp.take (i + 1))

/-- The key of an n-gram. -/
def keyOf (ngram : List Int32) : CommonNgram := commonNgram ngram 0 ngram.length

/-- Adding a number of occurrences. -/
def addOccurrences (count : Option Int32) (n : Nat) : Option Int32 :=
  if n = 0 then count else some (count.getD 0 + Int32.ofNat n)

theorem addOccurrences_zero (count : Option Int32) : addOccurrences count 0 = count := rfl

theorem addOccurrences_add (count : Option Int32) (m n : Nat) :
    addOccurrences (addOccurrences count m) n = addOccurrences count (m + n) := by
  unfold addOccurrences
  by_cases hm : m = 0
  · rw [if_pos hm, hm, Nat.zero_add]
  rw [if_neg hm, if_neg (show ¬m + n = 0 by omega)]
  by_cases hn : n = 0
  · rw [if_pos hn, hn, Nat.add_zero]
  · rw [if_neg hn, getD_some, Int32.ofNat_add, Int32.add_assoc]

theorem stored_insert (cache : NgramCache) (ngram key : CommonNgram) (part : NgramCachePart)
    (token : Int32) : stored (cache.insert ngram part) key token =
      if key = ngram then part.lookup token else cache.stored key token := by
  unfold stored
  rw [lookup_insert_eq]
  split
  · rfl
  · rfl

theorem record_eq (cache : NgramCache) (ngram : CommonNgram) (token : Int32) :
    cache.record ngram token = cache.insert ngram (((cache.lookup ngram).getD ∅).insert token
      ((cache.stored ngram token).getD 0 + 1)) := by
  unfold record stored
  cases cache.lookup ngram with
  | none => rfl
  | some part =>
    dsimp only
    rw [bind_some]
    cases part.lookup token with
    | none => rfl
    | some count => rfl

theorem record_stored (cache : NgramCache) (ngram key : CommonNgram) (token other : Int32) :
    (cache.record ngram token).stored key other =
      addOccurrences (cache.stored key other) (if key = ngram ∧ other = token then 1 else 0) := by
  rw [record_eq, stored_insert, lookup_insert_eq]
  by_cases hKey : key = ngram
  · by_cases hToken : other = token
    · rw [if_pos hKey, if_pos hToken, if_pos ⟨hKey, hToken⟩, hKey, hToken]
      rfl
    rw [if_pos hKey, if_neg hToken, if_neg fun h => hToken h.2, hKey]
    unfold stored
    cases cache.lookup ngram with
    | none => rfl
    | some part => rfl
  · rw [if_neg hKey, if_neg fun h => hKey h.1, addOccurrences_zero]

/-- A loop of calls, for the n-grams and tokens of some indices. -/
theorem foldl_record_stored (f : Nat → CommonNgram × Int32) (indices : List Nat)
    (cache : NgramCache) (key : CommonNgram) (token : Int32) :
    (indices.foldl (fun cache i => cache.record (f i).1 (f i).2) cache).stored key token =
      addOccurrences (cache.stored key token) (indices.countP fun i => decide ((key, token) = f i)) := by
  induction indices generalizing cache with
  | nil => rfl
  | cons i indices ih =>
    rw [foldl_cons, ih, record_stored, addOccurrences_add, countP_cons, Nat.add_comm]
    have hSame : (key = (f i).1 ∧ token = (f i).2) ↔ (key, token) = f i := by
      rw [Prod.ext_iff]
    simp only [hSame, decide_eq_true_eq]

/-! ## The counts of a text -/

section Text

variable {inp ngram : List Int32} {token : Int32} {n m i : Nat}

theorem getD_ne_null (hInp : tokenNull ∉ inp) (hi : i < inp.length) : inp.getD i 0 ≠ tokenNull := by
  rw [getD_eq_getElem _ _ hi]
  exact fun h => hInp (h ▸ getElem_mem hi)

/-- The keys of n-grams without the null token are different. -/
theorem commonNgram_eq_keyOf_iff (hNgram : ngram.length ≤ 4) (hNull : tokenNull ∉ ngram)
    (hInp : tokenNull ∉ inp) (hm : m ≤ 4) {start : Nat} (hStart : start + m ≤ inp.length) :
    commonNgram inp start m = keyOf ngram ↔
      m = ngram.length ∧ (inp.drop start).take m = ngram := by
  unfold keyOf commonNgram
  rw [CommonNgram.mk.injEq]
  constructor
  · intro hEq
    have hAt : ∀ i (hi : i < 4), (if i < m then inp.getD (start + i) 0 else tokenNull) =
        if i < ngram.length then ngram.getD (0 + i) 0 else tokenNull := by
      intro i hi
      have hEntry := congrArg (fun v : Vector Int32 4 => v[i]) hEq
      simpa only [Vector.getElem_ofFn] using hEntry
    have hSize : m = ngram.length := by
      rcases Nat.lt_trichotomy m ngram.length with hLt | hEq | hGt
      · have hHere := hAt m (by omega)
        rw [if_neg (lt_irrefl m), if_pos hLt, Nat.zero_add] at hHere
        exact absurd hHere.symm (getD_ne_null hNull hLt)
      · exact hEq
      have hHere := hAt ngram.length (by omega)
      rw [if_pos hGt, if_neg (lt_irrefl _)] at hHere
      exact absurd hHere (getD_ne_null hInp (by omega))
    refine ⟨hSize, ext_getElem (by rw [length_take, length_drop]; omega) ?_⟩
    intro i hi hi'
    have hHere := hAt i (by omega)
    rw [if_pos (by omega), if_pos hi', Nat.zero_add, getD_eq_getElem _ _ (by omega),
      getD_eq_getElem _ _ hi'] at hHere
    rw [getElem_take, getElem_drop, hHere]
  rintro ⟨rfl, hTokens⟩
  congr 1
  funext i
  by_cases hi : (i : Nat) < ngram.length
  · rw [if_pos hi, if_pos hi, Nat.zero_add, getD_eq_getElem _ _ (by omega),
      getD_eq_getElem _ _ hi]
    have hEntry : ((inp.drop start).take ngram.length)[(i : Nat)]? = ngram[(i : Nat)]? := by
      rw [hTokens]
    rw [getElem?_take_of_lt hi, getElem?_drop, getElem?_eq_getElem (by omega),
      getElem?_eq_getElem hi] at hEntry
    exact some.inj hEntry
  · rw [if_neg hi, if_neg hi]

theorem suffix_take_iff (hi : i < inp.length) (hNgram : ngram.length ≤ i) :
    ngram ++ [token] <:+ inp.take (i + 1) ↔
      (inp.drop (i - ngram.length)).take ngram.length = ngram ∧ inp.getD i 0 = token := by
  have hTake : (inp.take (i + 1)).length = i + 1 := by
    rw [length_take]
    omega
  have hLast : (inp.drop (i - ngram.length))[ngram.length]? = some (inp.getD i 0) := by
    rw [getElem?_drop, show i - ngram.length + ngram.length = i by omega,
      getElem?_eq_getElem hi, getD_eq_getElem _ _ hi]
  rw [suffix_iff_eq_drop, hTake, length_append, length_singleton,
    drop_take, show i + 1 - (i + 1 - (ngram.length + 1)) = ngram.length + 1 by omega,
    show i + 1 - (ngram.length + 1) = i - ngram.length by omega, take_add_one, hLast,
    toList_some]
  constructor
  · intro hEq
    have hParts := append_inj' hEq rfl
    exact ⟨hParts.1.symm, (cons.inj hParts.2).1.symm⟩
  · rintro ⟨hTokens, hToken⟩
    rw [hTokens, hToken]

theorem length_le_of_suffix (h : ngram ++ [token] <:+ inp.take (i + 1)) : ngram.length ≤ i := by
  have hLength := h.length_le
  rw [length_append, length_singleton, length_take] at hLength
  omega

theorem occurrences_append (xs ys ngram : List Int32) (token : Int32) :
    occurrences (xs ++ ys) ngram token = occurrences xs ngram token +
      (range' xs.length ys.length).countP fun i =>
        (ngram ++ [token]).isSuffixOf ((xs ++ ys).take (i + 1)) := by
  unfold occurrences
  have hRange : range (xs ++ ys).length =
      range xs.length ++ range' xs.length ys.length := by
    rw [range_eq_range', range_eq_range', length_append,
      ← range'_append_1, Nat.zero_add]
  rw [hRange, countP_append]
  congr 1
  refine countP_congr fun i hi => ?_
  rw [take_append_of_le_length (mem_range.mp hi)]

/-- Counting from an index on, when nothing before it counts. -/
theorem countP_range'_from {P : Nat → Bool} (hP : ∀ i, P i = true → n ≤ i) (a length : Nat) :
    (range' (max a n) (length - max a n)).countP P =
      (range' a (length - a)).countP P := by
  rcases Nat.le_total n a with hLe | hLe
  · rw [Nat.max_eq_left hLe]
  rw [Nat.max_eq_right hLe]
  have hBefore : ∀ k, a + k ≤ n → (range' a k).countP P = 0 := by
    intro k hk
    rw [countP_eq_zero]
    intro i hi hCounts
    have hIndex := (mem_range'_1.mp hi).2
    have hBound := hP i hCounts
    omega
  by_cases hEnd : length ≤ n
  · rw [Nat.sub_eq_zero_of_le hEnd, hBefore _ (by omega)]
    rfl
  · rw [show length - a = (n - a) + (length - n) by omega, ← range'_append_1,
      countP_append, hBefore _ (by omega), Nat.zero_add, show a + (n - a) = n by omega]

variable {xs ys : List Int32}

/-- The loop for one size counts the n-grams of that size. -/
theorem updateSize_stored (hInp : tokenNull ∉ xs ++ ys) (hPiece : ys.length < 2 ^ 31)
    (hNgram : ngram.length ≤ 4) (hNull : tokenNull ∉ ngram) (hm : m ≤ 4) (cache : NgramCache) :
    (updateSize (xs ++ ys) (.ofNat ys.length) cache m).stored (keyOf ngram) token =
      addOccurrences (cache.stored (keyOf ngram) token) (if m = ngram.length then
        (range' xs.length ys.length).countP fun i =>
          (ngram ++ [token]).isSuffixOf ((xs ++ ys).take (i + 1)) else 0) := by
  have hStart : (max (((xs ++ ys).length : Int) - (Int32.ofNat ys.length).toInt) (m : Int)).toNat =
      max xs.length m := by
    rw [length_append, Int32.toInt_ofNat_of_lt hPiece]
    omega
  unfold updateSize
  rw [hStart, foldl_record_stored fun i =>
    (commonNgram (xs ++ ys) (i - m) m, (xs ++ ys).getD i 0)]
  congr 1
  have hCount : ∀ i ∈ range' (max xs.length m) ((xs ++ ys).length - max xs.length m),
      ((keyOf ngram, token) = (commonNgram (xs ++ ys) (i - m) m, (xs ++ ys).getD i 0) ↔
        m = ngram.length ∧ ngram ++ [token] <:+ (xs ++ ys).take (i + 1)) := by
    intro i hi
    rw [mem_range'_1] at hi
    rw [Prod.mk.injEq, eq_comm (b := commonNgram (xs ++ ys) (i - m) m),
      eq_comm (b := (xs ++ ys).getD i 0),
      commonNgram_eq_keyOf_iff hNgram hNull hInp hm (by omega), and_assoc]
    constructor
    · rintro ⟨rfl, hTokens, hToken⟩
      exact ⟨rfl, (suffix_take_iff (by omega) (by omega)).mpr ⟨hTokens, hToken⟩⟩
    · rintro ⟨rfl, hSuffix⟩
      exact ⟨rfl, (suffix_take_iff (by omega) (by omega)).mp hSuffix⟩
  by_cases hSize : m = ngram.length
  · rw [if_pos hSize]
    have hSame : (range' (max xs.length m) ((xs ++ ys).length - max xs.length m)).countP
        (fun i => decide ((keyOf ngram, token) =
          (commonNgram (xs ++ ys) (i - m) m, (xs ++ ys).getD i 0))) =
        (range' (max xs.length m) ((xs ++ ys).length - max xs.length m)).countP fun i =>
          (ngram ++ [token]).isSuffixOf ((xs ++ ys).take (i + 1)) := by
      refine countP_congr fun i hi => ?_
      rw [decide_eq_true_eq, hCount i hi, isSuffixOf_iff_suffix]
      exact and_iff_right hSize
    rw [hSame, countP_range'_from, length_append, Nat.add_sub_cancel_left]
    intro i hi
    rw [hSize]
    exact length_le_of_suffix (isSuffixOf_iff_suffix.mp hi)
  rw [if_neg hSize, countP_eq_zero]
  intro i hi
  rw [decide_eq_true_eq, hCount i hi]
  exact fun h => hSize h.1

theorem foldl_updateSize_stored (hInp : tokenNull ∉ xs ++ ys) (hPiece : ys.length < 2 ^ 31)
    (hNgram : ngram.length ≤ 4) (hNull : tokenNull ∉ ngram) (sizes : List Nat)
    (hSizes : ∀ m ∈ sizes, m ≤ 4) (hNodup : sizes.Nodup) (cache : NgramCache) :
    (sizes.foldl (updateSize (xs ++ ys) (.ofNat ys.length)) cache).stored (keyOf ngram) token =
      addOccurrences (cache.stored (keyOf ngram) token) (if ngram.length ∈ sizes then
        (range' xs.length ys.length).countP fun i =>
          (ngram ++ [token]).isSuffixOf ((xs ++ ys).take (i + 1)) else 0) := by
  induction sizes generalizing cache with
  | nil => rfl
  | cons m sizes ih =>
    have hHere := @updateSize_stored _ token _ _ _ hInp hPiece hNgram hNull
      (hSizes m mem_cons_self) cache
    rw [foldl_cons, ih (fun k hk => hSizes k (mem_cons_of_mem m hk))
      (nodup_cons.mp hNodup).2, hHere, addOccurrences_add]
    by_cases hSize : m = ngram.length
    · rw [if_pos hSize, if_neg (hSize ▸ (nodup_cons.mp hNodup).1),
        if_pos (hSize ▸ mem_cons_self), Nat.add_zero]
    rw [if_neg hSize, Nat.zero_add]
    have hMem : ngram.length ∈ m :: sizes ↔ ngram.length ∈ sizes := by
      rw [mem_cons]
      exact or_iff_right (Ne.symm hSize)
    simp only [hMem]

end Text

/-- The cache after some pieces. -/
def cacheOf (ngramMin ngramMax : Nat) (pieces : List (List Int32)) : NgramCache :=
  (appendPieces ngramMin ngramMax pieces).2

variable {ngramMin ngramMax : Nat}

theorem appendPieces_append (ps : List (List Int32)) (piece : List Int32) :
    appendPieces ngramMin ngramMax (ps ++ [piece]) =
      ((appendPieces ngramMin ngramMax ps).1 ++ piece,
        (appendPieces ngramMin ngramMax ps).2.update ngramMin ngramMax
          ((appendPieces ngramMin ngramMax ps).1 ++ piece) (.ofNat piece.length)) := by
  unfold appendPieces
  rw [foldl_append]
  rfl

theorem appendPieces_tokens (pieces : List (List Int32)) :
    (appendPieces ngramMin ngramMax pieces).1 = pieces.flatten := by
  induction pieces using reverseRecOn with
  | nil => rfl
  | append_singleton ps piece ih => rw [appendPieces_append, ih]; simp

variable {pieces : List (List Int32)}

/-- The pieces of a text: the null token is in none, and their lengths are numbers of type `int`, as
which `common_ngram_cache_update` gets them. -/
structure Appendable (pieces : List (List Int32)) : Prop where
  noNull : tokenNull ∉ pieces.flatten
  fits : ∀ piece ∈ pieces, piece.length < 2 ^ 31

theorem Appendable.snoc {ps : List (List Int32)} {piece : List Int32}
    (h : Appendable (ps ++ [piece])) :
    Appendable ps ∧ tokenNull ∉ ps.flatten ++ piece ∧ piece.length < 2 ^ 31 := by
  have hText := h.noNull
  rw [flatten_concat] at hText
  exact ⟨⟨fun hMem => hText (mem_append_left _ hMem), fun p hp => h.fits p (mem_append_left _ hp)⟩,
    hText, h.fits piece mem_concat_self⟩

/-- The cache counts the n-grams of the whole text. -/
theorem cacheOf_stored {ngram : List Int32} (token : Int32)
    (hText : Appendable pieces) (hMax : ngramMax ≤ 4) (hLow : ngramMin ≤ ngram.length)
    (hHigh : ngram.length ≤ ngramMax) (hNull : tokenNull ∉ ngram) :
    (cacheOf ngramMin ngramMax pieces).stored (keyOf ngram) token =
      addOccurrences none (occurrences pieces.flatten ngram token) := by
  unfold cacheOf
  induction pieces using reverseRecOn with
  | nil => rfl
  | append_singleton ps piece ih =>
    obtain ⟨hInit, hNew, hPiece⟩ := hText.snoc
    have hPs := ih hInit
    have hSizes : ∀ m ∈ range' ngramMin (ngramMax + 1 - ngramMin), m ≤ 4 := by
      intro m hm
      have := mem_range'_1.mp hm
      omega
    have hMem : ngram.length ∈ range' ngramMin (ngramMax + 1 - ngramMin) :=
      mem_range'_1.mpr ⟨hLow, by omega⟩
    rw [appendPieces_append, appendPieces_tokens, flatten_concat]
    unfold update
    rw [foldl_updateSize_stored hNew hPiece (by omega) hNull _ hSizes nodup_range', hPs,
      addOccurrences_add, if_pos hMem, occurrences_append]

/-! ## The parts of a cache -/

/-- The keys are n-grams of some sizes, with some token each. -/
def Keyed (ngramMin ngramMax : Nat) (cache : NgramCache) : Prop :=
  ∀ key part, cache.lookup key = some part → part.entries ≠ [] ∧
    ∃ ngram : List Int32, ngramMin ≤ ngram.length ∧ ngram.length ≤ ngramMax ∧
      tokenNull ∉ ngram ∧ key = keyOf ngram

/-- No part of the cache is empty, and all counts are positive. -/
def Sound (cache : NgramCache) : Prop :=
  ∀ key part, cache.lookup key = some part → part.entries ≠ [] ∧
    ∀ token count, part.lookup token = some count → 0 < count

variable {cache : NgramCache}

theorem Keyed.record (h : cache.Keyed ngramMin ngramMax) {ngram : List Int32}
    (hLow : ngramMin ≤ ngram.length) (hHigh : ngram.length ≤ ngramMax)
    (hNull : tokenNull ∉ ngram) (token : Int32) :
    (cache.record (keyOf ngram) token).Keyed ngramMin ngramMax := by
  intro key part hPart
  rw [record_eq, lookup_insert_eq] at hPart
  by_cases hKey : key = keyOf ngram
  · rw [if_pos hKey] at hPart
    refine ⟨?_, ngram, hLow, hHigh, hNull, hKey⟩
    rw [← some.inj hPart]
    exact cons_ne_nil _ _
  · rw [if_neg hKey] at hPart
    exact h key part hPart

theorem Keyed.updateSize (h : cache.Keyed ngramMin ngramMax)
    {inp : List Int32} (hInp : tokenNull ∉ inp) {m : Nat} (hLow : ngramMin ≤ m)
    (hHigh : m ≤ ngramMax) (hMax : ngramMax ≤ 4) (nnew : Int32) :
    (updateSize inp nnew cache m).Keyed ngramMin ngramMax := by
  have hFold : ∀ (indices : List Nat) (cache : NgramCache), (∀ i ∈ indices, m ≤ i ∧ i < inp.length) →
      cache.Keyed ngramMin ngramMax → (indices.foldl (fun cache i =>
        cache.record (commonNgram inp (i - m) m) (inp.getD i 0)) cache).Keyed ngramMin ngramMax := by
    intro indices
    induction indices with
    | nil => exact fun cache _ h => h
    | cons i indices ih =>
      intro cache hIndices h
      obtain ⟨hi, hLt⟩ := hIndices i mem_cons_self
      have hLength : ((inp.drop (i - m)).take m).length = m := by
        rw [length_take, length_drop]
        omega
      have hNull : tokenNull ∉ (inp.drop (i - m)).take m :=
        fun hMem => hInp (mem_of_mem_drop (mem_of_mem_take hMem))
      have hKey : commonNgram inp (i - m) m = keyOf ((inp.drop (i - m)).take m) :=
        (commonNgram_eq_keyOf_iff (by omega) hNull hInp (by omega) (by omega)).mpr
          ⟨hLength.symm, rfl⟩
      rw [foldl_cons, hKey]
      exact ih _ (fun k hk => hIndices k (mem_cons_of_mem i hk))
        (h.record (by omega) (by omega) hNull _)
  refine hFold _ cache (fun i hi => ?_) h
  have hIndex := mem_range'_1.mp hi
  omega

theorem cacheOf_keyed (hText : Appendable pieces)
    (hMax : ngramMax ≤ 4) : (cacheOf ngramMin ngramMax pieces).Keyed ngramMin ngramMax := by
  unfold cacheOf
  induction pieces using reverseRecOn with
  | nil =>
    intro key part hPart
    exact absurd hPart (by simp [appendPieces])
  | append_singleton ps piece ih =>
    obtain ⟨hInit, hNew, -⟩ := hText.snoc
    have hSizes : ∀ (sizes : List Nat) (cache : NgramCache),
        (∀ m ∈ sizes, ngramMin ≤ m ∧ m ≤ ngramMax) → cache.Keyed ngramMin ngramMax →
          (sizes.foldl (NgramCache.updateSize (ps.flatten ++ piece) (.ofNat piece.length)) cache).Keyed
            ngramMin ngramMax := by
      intro sizes
      induction sizes with
      | nil => exact fun cache _ h => h
      | cons m sizes ihSizes =>
        intro cache hAll h
        obtain ⟨hLow, hHigh⟩ := hAll m mem_cons_self
        exact ihSizes _ (fun k hk => hAll k (mem_cons_of_mem m hk))
          (h.updateSize hNew hLow hHigh hMax _)
    rw [appendPieces_append, appendPieces_tokens]
    refine hSizes _ _ (fun m hm => ?_) (ih hInit)
    have hSize := mem_range'_1.mp hm
    omega

/-- No n-gram is followed by one token too often. -/
def CountsFit (ngramMin ngramMax : Nat) (text : List Int32) : Prop :=
  ∀ ngram token, ngramMin ≤ ngram.length → ngram.length ≤ ngramMax → tokenNull ∉ ngram →
    occurrences text ngram token < 2 ^ 31

theorem cacheOf_sound (hText : Appendable pieces)
    (hMax : ngramMax ≤ 4) (hFits : CountsFit ngramMin ngramMax pieces.flatten) :
    (cacheOf ngramMin ngramMax pieces).Sound := by
  intro key part hPart
  obtain ⟨hEntries, ngram, hLow, hHigh, hNull, hKey⟩ := cacheOf_keyed hText hMax key part hPart
  refine ⟨hEntries, fun token count hCount => ?_⟩
  have hStored := cacheOf_stored token hText hMax hLow hHigh hNull
  have hSome : (cacheOf ngramMin ngramMax pieces).stored (keyOf ngram) token = some count := by
    unfold stored
    rw [← hKey, hPart]
    exact hCount
  have hLess := hFits ngram token hLow hHigh hNull
  rw [hSome] at hStored
  unfold addOccurrences at hStored
  split at hStored
  · exact absurd hStored (by simp)
  rw [some.inj hStored, getD_none, Int32.zero_add, Int32.lt_iff_toInt_lt,
    Int32.toInt_ofNat_of_lt hLess]
  show (0 : Int) < _
  omega

/-- The count is that of the text unless the text has too many of them. -/
theorem countOf_iff {key : CommonNgram} {token : Int32} {n : Nat}
    (h : cache.stored key token = addOccurrences none n) :
    cache.countOf key token = n ↔ n < 2 ^ 31 := by
  unfold countOf
  rw [h]
  unfold addOccurrences
  by_cases hn : n = 0
  · rw [hn]
    exact iff_of_true rfl (by decide)
  rw [if_neg hn, getD_none, Int32.zero_add, map_some, getD_some]
  constructor
  · have hLt := (Int32.ofNat n).toInt_lt
    omega
  · exact Int32.toInt_ofNat_of_lt

end NgramCache

end Beellama.Ports
