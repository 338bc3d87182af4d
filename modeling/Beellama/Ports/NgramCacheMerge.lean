import Beellama.Ports.NgramCache

/-!
# Merging and saving n-gram caches

Merging adds the counts of two caches (`merge_stored`).  A cache without empty parts, whose
counts are positive, is written to a file unless some part has too many tokens for their number,
an `int32_t`, and what is written is loaded as the same cache (`load_save`).
-/

namespace Beellama.Ports

open Beellama.Verified Option AList ServerTokens
open List hiding Vector

namespace NgramCache

/-! ## Merging -/

/-- The count for a token of two caches. -/
def combine : Option Int32 → Option Int32 → Option Int32
  | none, y => y
  | some x, none => some x
  | some x, some y => some (x + y)

theorem combine_none (x : Option Int32) : combine x none = x := by
  cases x <;> rfl

theorem mergeTokens_lookup {l : List ((_ : Int32) × Int32)} (hNodup : l.NodupKeys)
    (hPos : ∀ e ∈ l, 0 < e.2) (merged : NgramCachePart) :
    ∃ part, l.foldlM mergeToken merged = some part ∧
      ∀ token, part.lookup token = combine (merged.lookup token) (l.dlookup token) := by
  induction l generalizing merged with
  | nil => exact ⟨merged, rfl, fun token => (combine_none _).symm⟩
  | cons e l ih =>
    have hHead : e.1 ∉ l.keys := (nodupKeys_cons.mp hNodup).1
    have hToken : ∃ count, mergeToken merged e = some (merged.insert e.1 count) ∧
        some count = combine (merged.lookup e.1) (some e.2) := by
      unfold mergeToken
      rw [if_pos (hPos e mem_cons_self)]
      cases merged.lookup e.1 with
      | none => exact ⟨e.2, rfl, rfl⟩
      | some count => exact ⟨count + e.2, rfl, rfl⟩
    obtain ⟨count, hToken, hCount⟩ := hToken
    obtain ⟨part, hRun, hPart⟩ := ih (nodupKeys_cons.mp hNodup).2
      (fun e' he' => hPos e' (mem_cons_of_mem e he')) (merged.insert e.1 count)
    refine ⟨part, ?_, fun token => ?_⟩
    · rw [foldlM_cons, hToken]
      exact hRun
    rw [hPart, lookup_insert_eq]
    by_cases hSame : token = e.1
    · rw [if_pos hSame, hSame, dlookup_eq_none.mpr hHead, combine_none, hCount]
      congr 1
      exact (dlookup_cons_eq l e.1 e.2).symm
    · rw [if_neg hSame, dlookup_cons_ne _ _ hSame]

variable {l : List ((_ : CommonNgram) × NgramCachePart)}

theorem mergeNgrams_stored (hNodup : l.NodupKeys)
    (hPos : ∀ e ∈ l, ∀ tokenCount ∈ e.2.entries, 0 < tokenCount.2) (target : NgramCache) :
    ∃ cache, l.foldlM mergeNgram target = some cache ∧ ∀ key token,
      cache.stored key token = combine (target.stored key token)
        ((l.dlookup key).bind fun part => part.lookup token) := by
  induction l generalizing target with
  | nil => exact ⟨target, rfl, fun key token => (combine_none _).symm⟩
  | cons e l ih =>
    have hHead : e.1 ∉ l.keys := (nodupKeys_cons.mp hNodup).1
    have hNgram : ∃ part, mergeNgram target e = some (target.insert e.1 part) ∧
        ∀ token, part.lookup token = combine (target.stored e.1 token) (e.2.lookup token) := by
      unfold mergeNgram stored
      cases target.lookup e.1 with
      | none => exact ⟨e.2, rfl, fun token => rfl⟩
      | some merged =>
        obtain ⟨part, hRun, hPart⟩ :=
          mergeTokens_lookup e.2.nodupKeys (hPos e mem_cons_self) merged
        dsimp only
        rw [hRun]
        exact ⟨part, rfl, hPart⟩
    obtain ⟨part, hNgram, hPart⟩ := hNgram
    obtain ⟨cache, hRun, hCache⟩ := ih (nodupKeys_cons.mp hNodup).2
      (fun e' he' => hPos e' (mem_cons_of_mem e he')) (target.insert e.1 part)
    refine ⟨cache, ?_, fun key token => ?_⟩
    · rw [foldlM_cons, hNgram]
      exact hRun
    rw [hCache, stored_insert]
    by_cases hSame : key = e.1
    · have hHere : (e :: l).dlookup e.1 = some e.2 := dlookup_cons_eq l e.1 e.2
      rw [if_pos hSame, hSame, dlookup_eq_none.mpr hHead, hHere, bind_none,
        bind_some, combine_none, hPart]
    · rw [if_neg hSame, dlookup_cons_ne _ _ hSame]

variable {cache : NgramCache}

theorem Sound.pos (h : cache.Sound) {e : (_ : CommonNgram) × NgramCachePart}
    (he : e ∈ cache.entries) {tokenCount : (_ : Int32) × Int32}
    (hToken : tokenCount ∈ e.2.entries) : 0 < tokenCount.2 :=
  (h e.1 e.2 (mem_lookup_iff.mpr he)).2 _ _ (mem_lookup_iff.mpr hToken)

theorem merge_stored (target : NgramCache) {add : NgramCache} (hAdd : add.Sound) :
    ∃ cache, target.merge add = some cache ∧ ∀ key token,
      cache.stored key token = combine (target.stored key token) (add.stored key token) :=
  mergeNgrams_stored add.nodupKeys (fun _ he _ hToken => hAdd.pos he hToken) target

variable {key : CommonNgram} {token : Int32}

theorem Sound.stored_pos (h : cache.Sound)
    {count : Int32} (hStored : cache.stored key token = some count) : 0 < count := by
  obtain ⟨part, hPart, hCount⟩ := bind_eq_some_iff.mp hStored
  exact (h key part hPart).2 token count hCount

/-- The sum of two counts, if it is an `int32_t`. -/
theorem countOf_combine_iff {a b c : NgramCache} (ha : a.Sound) (hb : b.Sound)
    (hStored : c.stored key token = combine (a.stored key token) (b.stored key token)) :
    c.countOf key token = a.countOf key token + b.countOf key token ↔
      a.countOf key token + b.countOf key token < 2 ^ 31 := by
  unfold countOf
  rw [hStored]
  cases hA : a.stored key token with
  | none =>
    cases hB : b.stored key token with
    | none => exact iff_of_true rfl (by decide)
    | some y =>
      have hLt := y.toInt_lt
      refine iff_of_true ?_ ?_
      · show y.toInt = 0 + y.toInt
        omega
      · show 0 + y.toInt < 2 ^ 31
        omega
  | some x =>
    have hx := Int32.lt_iff_toInt_lt.mp (ha.stored_pos hA)
    have hxLt := x.toInt_lt
    cases hB : b.stored key token with
    | none =>
      refine iff_of_true ?_ ?_
      · show x.toInt = x.toInt + 0
        omega
      · show x.toInt + 0 < 2 ^ 31
        omega
    | some y =>
      have hy := Int32.lt_iff_toInt_lt.mp (hb.stored_pos hB)
      have hZero : (0 : Int32).toInt = 0 := rfl
      show (x + y).toInt = x.toInt + y.toInt ↔ x.toInt + y.toInt < 2 ^ 31
      rw [Int32.toInt_add, Int.bmod_def]
      split <;> omega

/-! ## The file -/

theorem readInt32_bytes (n : Int32) (rest : List UInt8) :
    readInt32 (int32Bytes n ++ rest) = some (n, rest) := by
  have hLength : (int32Bytes n).length = 4 := leBytes_length 4 _
  unfold readInt32
  rw [if_neg (by rw [length_append]; omega), take_left' hLength,
    drop_left' hLength]
  unfold int32Bytes
  rw [leNat_leBytes (tokenWord_lt n), wordToken_tokenWord]

theorem ngramBytes_length (ngram : CommonNgram) : (ngramBytes ngram).length = 16 := by
  have hWord : ∀ n ∈ ngram.tokens.toList, (int32Bytes n).length = 4 :=
    fun n _ => leBytes_length 4 (tokenWord n)
  unfold ngramBytes
  rw [length_flatMap, map_congr_left hWord, map_const', sum_replicate_nat,
    Vector.length_toList]

/-- Words of four bytes, read at their place. -/
theorem flatMap_int32Bytes_at (l : List Int32) {i : Nat} (hi : i < l.length) :
    ((l.flatMap int32Bytes).drop (4 * i)).take 4 = int32Bytes l[i] := by
  induction l generalizing i with
  | nil => exact absurd hi (Nat.not_lt_zero i)
  | cons n l ih =>
    have hLength : (int32Bytes n).length = 4 := leBytes_length 4 _
    rw [flatMap_cons]
    cases i with
    | zero =>
      rfl
    | succ i =>
      rw [Nat.mul_add, Nat.add_comm, ← drop_drop, drop_left' hLength,
        ih (Nat.lt_of_succ_lt_succ hi)]
      rfl

theorem readNgram_bytes (ngram : CommonNgram) (rest : List UInt8) :
    readNgram (ngramBytes ngram ++ rest) = ngram := by
  have hTokens : (Vector.ofFn fun i : Fin 4 => wordToken (StagedReader.leNat
      (((ngramBytes ngram ++ rest).drop (4 * i)).take 4))) = ngram.tokens := by
    refine Vector.ext fun i hi => ?_
    have hSize : ngram.tokens.toList.length = 4 := Vector.length_toList
    have hInside : 4 ≤ ((ngramBytes ngram).drop (4 * i)).length := by
      rw [length_drop, ngramBytes_length]
      omega
    have hBytes : ((ngramBytes ngram).drop (4 * i)).take 4 =
        int32Bytes (ngram.tokens.toList[i]) :=
      flatMap_int32Bytes_at ngram.tokens.toList (by omega)
    rw [Vector.getElem_ofFn, drop_append_of_le_length (by rw [ngramBytes_length]; omega),
      take_append_of_le_length hInside, hBytes, Vector.getElem_toList]
    unfold int32Bytes
    rw [leNat_leBytes (tokenWord_lt _), wordToken_tokenWord]
  unfold readNgram
  rw [hTokens]

/-- What is written for a token with a positive count. -/
def tokenBytes (tokenCount : (_ : Int32) × Int32) : List UInt8 :=
  int32Bytes tokenCount.1 ++ int32Bytes tokenCount.2

theorem tokenBytes_append (tokenCount : (_ : Int32) × Int32) (rest : List UInt8) :
    tokenBytes tokenCount ++ rest =
      int32Bytes tokenCount.1 ++ (int32Bytes tokenCount.2 ++ rest) := by
  unfold tokenBytes
  rw [append_assoc]

theorem loadTokens_bytes {l : List ((_ : Int32) × Int32)} (hPos : ∀ e ∈ l, 0 < e.2)
    (part : NgramCachePart) (rest : List UInt8) :
    loadTokens l.length part ((l.map tokenBytes).flatten ++ rest) =
      some (emplaceAll part l, rest) := by
  induction l generalizing part with
  | nil => rfl
  | cons e l ih =>
    rw [map_cons, flatten_cons, append_assoc, tokenBytes_append, length_cons]
    unfold loadTokens
    rw [readInt32_bytes, bind_eq_bind, bind_some]
    dsimp only
    rw [readInt32_bytes, bind_some]
    dsimp only
    rw [if_pos (hPos e mem_cons_self)]
    exact ih (fun e' he' => hPos e' (mem_cons_of_mem e he')) _

/-- What is written for an n-gram and its part. -/
def itemBytes (item : (_ : CommonNgram) × NgramCachePart) : List UInt8 :=
  ngramBytes item.1 ++ int32Bytes (Int32.ofNat item.2.entries.length) ++
    (item.2.entries.map tokenBytes).flatten

theorem itemBytes_append (item : (_ : CommonNgram) × NgramCachePart) (rest : List UInt8) :
    itemBytes item ++ rest = ngramBytes item.1 ++
      (int32Bytes (Int32.ofNat item.2.entries.length) ++
        ((item.2.entries.map tokenBytes).flatten ++ rest)) := by
  unfold itemBytes
  rw [append_assoc, append_assoc]

/-- The number of tokens of the part is a positive `int32_t`, as are their counts. -/
structure Saveable (item : (_ : CommonNgram) × NgramCachePart) : Prop where
  nonempty : item.2.entries ≠ []
  fits : item.2.entries.length < 2 ^ 31
  counts_pos : ∀ e ∈ item.2.entries, 0 < e.2

variable {item : (_ : CommonNgram) × NgramCachePart}

theorem Saveable.ntokens (h : Saveable item) :
    0 < Int32.ofNat item.2.entries.length ∧
      (Int32.ofNat item.2.entries.length).toNatClampNeg = item.2.entries.length := by
  have hSome := length_pos_of_ne_nil h.nonempty
  have hInt := Int32.toInt_ofNat_of_lt h.fits
  constructor
  · rw [Int32.lt_iff_toInt_lt]
    show (0 : Int) < _
    omega
  · show (Int32.ofNat item.2.entries.length).toInt.toNat = _
    rw [hInt, Int.toNat_natCast]

theorem Saveable.saveNgram_eq (h : Saveable item) : saveNgram item = some (itemBytes item) := by
  have hTokens : item.2.entries.mapM saveToken = some (item.2.entries.map tokenBytes) :=
    mapM_eq_some fun e he => by
      unfold saveToken
      rw [if_pos (h.counts_pos e he)]
      rfl
  unfold saveNgram
  rw [if_neg h.nonempty, if_pos h.ntokens.1, hTokens]
  rfl

/-- The part that is read for an item. -/
def reloaded (part : NgramCachePart) : NgramCachePart := emplaceAll ∅ part.entries

theorem loadNgrams_bytes (hSaveable : ∀ item ∈ l, Saveable item) (cache : NgramCache) {fuel : Nat}
    (hFuel : l.length < fuel) :
    loadNgrams fuel cache (l.map itemBytes).flatten =
      some (emplaceAll cache (l.map fun item => ⟨item.1, reloaded item.2⟩)) := by
  induction l generalizing cache fuel with
  | nil =>
    obtain ⟨fuel, rfl⟩ : ∃ n, fuel = n + 1 := ⟨fuel - 1, by rw [length_nil] at hFuel; omega⟩
    rfl
  | cons item l ih =>
    obtain ⟨fuel, rfl⟩ : ∃ n, fuel = n + 1 := ⟨fuel - 1, by omega⟩
    have hHere := hSaveable item mem_cons_self
    rw [length_cons] at hFuel
    rw [map_cons, flatten_cons, itemBytes_append]
    unfold loadNgrams
    rw [if_neg (by rw [length_append, ngramBytes_length]; omega), drop_left' (ngramBytes_length item.1), readInt32_bytes,
      bind_eq_bind, bind_some]
    dsimp only
    rw [if_pos hHere.ntokens.1, hHere.ntokens.2, loadTokens_bytes hHere.counts_pos,
      bind_eq_bind, bind_some]
    dsimp only
    rw [readNgram_bytes]
    exact ih (fun item' hItem => hSaveable item' (mem_cons_of_mem item hItem)) _ (by omega)

/-- Two caches with the same n-grams and the same counts. -/
def Same (c d : NgramCache) : Prop :=
  ∀ key, (key ∈ c ↔ key ∈ d) ∧ ∀ token, c.stored key token = d.stored key token

/-- A cache is written and read again. -/
theorem load_save (h : ∀ item ∈ cache.entries, Saveable item) :
    ∃ bytes loaded, save cache = some bytes ∧ load bytes = some loaded ∧ Same cache loaded := by
  have hSave : save cache = some (cache.entries.map itemBytes).flatten := by
    unfold save
    rw [mapM_eq_some fun item hItem => (h item hItem).saveNgram_eq]
    rfl
  have hCount : cache.entries.length ≤ (cache.entries.map itemBytes).flatten.length := by
    rw [List.length_flatten, List.map_map]
    have hSum : ∀ l : List ((_ : CommonNgram) × NgramCachePart),
        l.length ≤ (l.map (length ∘ itemBytes)).sum := by
      intro l
      induction l with
      | nil => exact Nat.le_refl 0
      | cons item l ih =>
        have hItem : 16 ≤ (itemBytes item).length := by
          unfold itemBytes
          rw [length_append, length_append, ngramBytes_length]
          omega
        rw [length_cons, map_cons, sum_cons, Function.comp_apply]
        omega
    exact hSum _
  refine ⟨_, _, hSave, loadNgrams_bytes h ∅ (by omega), fun key => ?_⟩
  have hNodup : (cache.entries.map fun item =>
      (⟨item.1, reloaded item.2⟩ : (_ : CommonNgram) × NgramCachePart)).NodupKeys := by
    unfold List.NodupKeys List.keys
    rw [List.map_map]
    exact cache.nodupKeys
  have hLookup : (emplaceAll ∅ (cache.entries.map fun item =>
      (⟨item.1, reloaded item.2⟩ : (_ : CommonNgram) × NgramCachePart))).lookup key =
        (cache.lookup key).map reloaded := by
    rw [lookup_emplaceAll hNodup fun item _ => notMem_empty item.1, lookup_empty,
      or_none]
    exact dlookup_map₂ (f := fun _ part => reloaded part) key
  constructor
  · rw [← lookup_isSome, ← lookup_isSome, hLookup, isSome_map]
  intro token
  unfold stored
  rw [hLookup]
  cases cache.lookup key with
  | none => rfl
  | some part => exact (lookup_emplaceAll_entries part token).symm

theorem entries_length_le (part : NgramCachePart) : part.entries.length ≤ 2 ^ 32 := by
  have hNodup : (part.entries.keys.map tokenWord).Nodup := by
    refine part.nodupKeys.map fun m n hSame => ?_
    rw [← wordToken_tokenWord m, hSame, wordToken_tokenWord]
  have hSubset : part.entries.keys.map tokenWord ⊆ range (2 ^ 32) := by
    intro n hn
    obtain ⟨token, -, hToken⟩ := mem_map.mp hn
    have hLess := tokenWord_lt token
    rw [mem_range]
    omega
  have hLength := (subperm_of_subset hNodup hSubset).length_le
  rw [length_map, length_range] at hLength
  unfold List.keys at hLength
  rwa [length_map] at hLength

theorem ofNat_pos_iff {n : Nat} (hPos : 0 < n) (hMax : n ≤ 2 ^ 32) :
    0 < Int32.ofNat n ↔ n < 2 ^ 31 := by
  have hZero : (0 : Int32).toInt = 0 := rfl
  have hSize : ((Int32.size : Nat) : Int) = 4294967296 := rfl
  rw [Int32.lt_iff_toInt_lt, Int32.toInt_ofNat', Int.bmod_def, hSize]
  split <;> omega

/-- A cache is written and read again unless the number of tokens of a part is no `int32_t`. -/
theorem load_save_iff (h : cache.Sound) :
    (∃ bytes loaded, save cache = some bytes ∧ load bytes = some loaded ∧ Same cache loaded) ↔
      ∀ key part, cache.lookup key = some part → part.entries.length < 2 ^ 31 := by
  constructor
  · rintro ⟨bytes, -, hSave, -, -⟩ key part hPart
    have hItem : (⟨key, part⟩ : (_ : CommonNgram) × NgramCachePart) ∈ cache.entries :=
      mem_lookup_iff.mp hPart
    have hNonempty := (h key part hPart).1
    obtain ⟨items, hItems, -⟩ := map_eq_some_iff.mp hSave
    obtain ⟨item, hWritten⟩ := exists_of_mapM_eq_some hItems _ hItem
    have hTokens : 0 < Int32.ofNat part.entries.length := by
      by_contra hNot
      unfold saveNgram at hWritten
      rw [if_neg hNonempty, if_neg hNot] at hWritten
      exact absurd hWritten (by simp)
    exact (ofNat_pos_iff (length_pos_of_ne_nil hNonempty) (entries_length_le part)).mp hTokens
  intro hFits
  refine load_save fun item hItem => ?_
  have hPart : cache.lookup item.1 = some item.2 := mem_lookup_iff.mpr hItem
  exact ⟨(h item.1 item.2 hPart).1, hFits item.1 item.2 hPart, fun e he => h.pos hItem he⟩

/-! ## The laws -/

theorem occurrences_le_length (inp ngram : List Int32) (token : Int32) :
    occurrences inp ngram token ≤ inp.length := by
  have hCount := countP_le_length (l := range inp.length)
    (p := fun i => (ngram ++ [token]).isSuffixOf (inp.take (i + 1)))
  rwa [length_range] at hCount

variable {ngramMin ngramMax : Nat}

theorem CountsFit.of_length {text : List Int32} (h : text.length < 2 ^ 31) :
    CountsFit ngramMin ngramMax text :=
  fun ngram token _ _ _ => Nat.lt_of_le_of_lt (occurrences_le_length text ngram token) h

/-- The merged cache counts the n-grams of both lists, unless one of them is followed by one token
too often. -/
theorem merge_lists_iff {ps qs : List (List Int32)} (hMax : ngramMax ≤ 4)
    (hPs : Appendable ps) (hQs : Appendable qs) :
    (∃ cache, (cacheOf ngramMin ngramMax ps).merge (cacheOf ngramMin ngramMax qs) = some cache ∧
      ∀ ngram token, ngramMin ≤ ngram.length → ngram.length ≤ ngramMax → tokenNull ∉ ngram →
        cache.countOf (keyOf ngram) token =
          occurrences ps.flatten ngram token + occurrences qs.flatten ngram token) ↔
      ∀ ngram token, ngramMin ≤ ngram.length → ngram.length ≤ ngramMax → tokenNull ∉ ngram →
        occurrences ps.flatten ngram token + occurrences qs.flatten ngram token < 2 ^ 31 := by
  constructor
  · rintro ⟨cache, -, hCounts⟩ ngram token hLow hHigh hNull
    have hCount := hCounts ngram token hLow hHigh hNull
    have hLess : cache.countOf (keyOf ngram) token < 2 ^ 31 := by
      unfold countOf
      cases cache.stored (keyOf ngram) token with
      | none => decide
      | some count => exact count.toInt_lt
    omega
  intro hFits
  have hPsFit : CountsFit ngramMin ngramMax ps.flatten := fun ngram token hLow hHigh hNull =>
    Nat.lt_of_le_of_lt (Nat.le_add_right _ _) (hFits ngram token hLow hHigh hNull)
  have hQsFit : CountsFit ngramMin ngramMax qs.flatten := fun ngram token hLow hHigh hNull =>
    Nat.lt_of_le_of_lt (Nat.le_add_left _ _) (hFits ngram token hLow hHigh hNull)
  have hPsSound := cacheOf_sound hPs hMax hPsFit
  have hQsSound := cacheOf_sound hQs hMax hQsFit
  obtain ⟨cache, hMerge, hStored⟩ := merge_stored (cacheOf ngramMin ngramMax ps) hQsSound
  refine ⟨cache, hMerge, fun ngram token hLow hHigh hNull => ?_⟩
  have hSum := hFits ngram token hLow hHigh hNull
  have hPsCount := (countOf_iff (cacheOf_stored token hPs hMax hLow hHigh hNull)).mpr
    (hPsFit ngram token hLow hHigh hNull)
  have hQsCount := (countOf_iff (cacheOf_stored token hQs hMax hLow hHigh hNull)).mpr
    (hQsFit ngram token hLow hHigh hNull)
  have hAdd := (countOf_combine_iff hPsSound hQsSound (hStored (keyOf ngram) token)).mpr
    (by rw [hQsCount]; omega)
  rw [hAdd, hPsCount, hQsCount]

/-- The caches of a text in pieces count its n-grams, merging adds the counts, and a cache is
loaded as it was saved: exactly as long as the counts and the sizes of the parts are `int32_t`. -/
theorem cache_laws (hMax : ngramMax ≤ 4) {ps qs : List (List Int32)}
    (hPs : Appendable ps) (hQs : Appendable qs) :
    (∀ ngram token, ngramMin ≤ ngram.length → ngram.length ≤ ngramMax → tokenNull ∉ ngram →
      ((cacheOf ngramMin ngramMax ps).countOf (keyOf ngram) token =
          occurrences ps.flatten ngram token ↔
        occurrences ps.flatten ngram token < 2 ^ 31)) ∧
    ((∃ cache, (cacheOf ngramMin ngramMax ps).merge (cacheOf ngramMin ngramMax qs) = some cache ∧
      ∀ ngram token, ngramMin ≤ ngram.length → ngram.length ≤ ngramMax → tokenNull ∉ ngram →
        cache.countOf (keyOf ngram) token =
          occurrences ps.flatten ngram token + occurrences qs.flatten ngram token) ↔
      ∀ ngram token, ngramMin ≤ ngram.length → ngram.length ≤ ngramMax → tokenNull ∉ ngram →
        occurrences ps.flatten ngram token + occurrences qs.flatten ngram token < 2 ^ 31) ∧
    (∀ a b : NgramCache, a.Sound → b.Sound → ∃ cache, a.merge b = some cache ∧ ∀ key token,
      (cache.countOf key token = a.countOf key token + b.countOf key token ↔
        a.countOf key token + b.countOf key token < 2 ^ 31)) ∧
    (CountsFit ngramMin ngramMax ps.flatten → (cacheOf ngramMin ngramMax ps).Sound) ∧
    ∀ cache : NgramCache, cache.Sound →
      ((∃ bytes loaded, save cache = some bytes ∧ load bytes = some loaded ∧ Same cache loaded) ↔
        ∀ key part, cache.lookup key = some part → part.entries.length < 2 ^ 31) := by
  refine ⟨fun ngram token hLow hHigh hNull => ?_, merge_lists_iff hMax hPs hQs,
    fun a b ha hb => ?_, cacheOf_sound hPs hMax, fun cache => load_save_iff⟩
  · have hCount := countOf_iff (cacheOf_stored token hPs hMax hLow hHigh hNull)
    omega
  · obtain ⟨cache, hMerge, hStored⟩ := merge_stored a hb
    exact ⟨cache, hMerge, fun key token => countOf_combine_iff ha hb (hStored key token)⟩

/-! ## Merging many caches -/

theorem combine_right_comm (x y z : Option Int32) :
    combine (combine x y) z = combine (combine x z) y := by
  cases x <;> cases y <;> cases z <;> simp only [combine]
  · rw [Int32.add_comm]
  · rw [Int32.add_assoc, Int32.add_assoc]
    exact congrArg (fun sum => some (_ + sum)) (Int32.add_comm ..)

theorem mergeAll_stored {l : List NgramCache} (h : ∀ add ∈ l, add.Sound) (target : NgramCache) :
    ∃ cache, l.foldlM merge target = some cache ∧ ∀ key token, cache.stored key token =
      l.foldl (fun count add => combine count (add.stored key token)) (target.stored key token) := by
  induction l generalizing target with
  | nil => exact ⟨target, rfl, fun _ _ => rfl⟩
  | cons add l ih =>
    obtain ⟨next, hMerge, hNext⟩ := merge_stored target (h add mem_cons_self)
    obtain ⟨cache, hRun, hCache⟩ := ih (fun add hAdd => h add (mem_cons_of_mem _ hAdd)) next
    exact ⟨cache, by rw [foldlM_cons, hMerge]; exact hRun, fun key token => by
      rw [hCache, hNext, foldl_cons]⟩

/-- Caches that are merged into one target have the same counts in every order. -/
theorem mergeAll_perm {l l' : List NgramCache} (hPerm : l.Perm l') (h : ∀ add ∈ l, add.Sound)
    (target : NgramCache) :
    ∃ cache cache', l.foldlM merge target = some cache ∧ l'.foldlM merge target = some cache' ∧
      ∀ key token, cache.stored key token = cache'.stored key token := by
  obtain ⟨cache, hRun, hStored⟩ := mergeAll_stored h target
  obtain ⟨cache', hRun', hStored'⟩ :=
    mergeAll_stored (fun add hAdd => h add (hPerm.mem_iff.mpr hAdd)) target
  refine ⟨cache, cache', hRun, hRun', fun key token => ?_⟩
  rw [hStored, hStored']
  exact hPerm.foldl_eq' (fun _ _ _ _ _ => combine_right_comm ..) _

/-- Both caches have token 2 behind token 1. -/
theorem twoCaches_perm : ∃ cache cache',
    [cacheOf 1 2 [[1, 2]], cacheOf 1 2 [[1], [2, 2]]].foldlM merge ∅ = some cache ∧
      [cacheOf 1 2 [[1], [2, 2]], cacheOf 1 2 [[1, 2]]].foldlM merge ∅ = some cache' ∧
      cache.stored (keyOf [1]) 2 = some 2 ∧ cache'.stored (keyOf [1]) 2 = some 2 := by
  obtain ⟨cache, cache', hRun, hRun', hSame⟩ := mergeAll_perm
    (.swap (cacheOf 1 2 [[1], [2, 2]]) (cacheOf 1 2 [[1, 2]]) []) (by
      rintro add hAdd
      rcases mem_pair.mp hAdd with rfl | rfl
      all_goals exact cacheOf_sound ⟨by decide, by decide⟩ (by decide) (.of_length (by decide))) ∅
  have hCount : ([cacheOf 1 2 [[1, 2]], cacheOf 1 2 [[1], [2, 2]]].foldlM merge ∅).bind
      (fun cache => cache.stored (keyOf [1]) 2) = some 2 := by decide
  rw [hRun, bind_some] at hCount
  exact ⟨cache, cache', hRun, hRun', hCount, (hSame _ _).symm.trans hCount⟩

/-- Two lists, and the file of the first one's cache. -/
theorem shortLists_cache_laws :
    (cacheOf 1 2 [[1, 2], [1], [2]]).countOf (keyOf [1]) 2 = 2 ∧
    (∃ cache, (cacheOf 1 2 [[1, 2], [1], [2]]).merge (cacheOf 1 2 [[1], [2]]) = some cache ∧
      cache.countOf (keyOf [1]) 2 = 3) ∧
    ∃ bytes loaded, save (cacheOf 1 2 [[1, 2], [1], [2]]) = some bytes ∧
      load bytes = some loaded ∧ Same (cacheOf 1 2 [[1, 2], [1], [2]]) loaded := by
  have hLaws := @cache_laws 1 2 (by decide) [[1, 2], [1], [2]] [[1], [2]] ⟨by decide, by decide⟩
    ⟨by decide, by decide⟩
  have hOne : occurrences [1, 2, 1, 2] [1] 2 = 2 := by decide
  have hTwo : occurrences [1, 2] [1] 2 = 1 := by decide
  have hSound := hLaws.2.2.2.1 (.of_length (by decide))
  refine ⟨?_, ?_, ?_⟩
  · have hCount := (hLaws.1 [1] 2 (by decide) (by decide) (by decide)).mpr
      (by show occurrences [1, 2, 1, 2] [1] 2 < 2 ^ 31; rw [hOne]; decide)
    rw [hCount]
    exact congrArg _ hOne
  · obtain ⟨cache, hMerge, hCounts⟩ := hLaws.2.1.mpr fun ngram token _ _ _ => by
      have hFirst := occurrences_le_length ([[1, 2], [1], [2]] : List (List Int32)).flatten
        ngram token
      have hSecond := occurrences_le_length ([[1], [2]] : List (List Int32)).flatten ngram token
      rw [show ([[1, 2], [1], [2]] : List (List Int32)).flatten.length = 4 from rfl] at hFirst
      rw [show ([[1], [2]] : List (List Int32)).flatten.length = 2 from rfl] at hSecond
      omega
    refine ⟨cache, hMerge, ?_⟩
    have hCount := hCounts [1] 2 (by decide) (by decide) (by decide)
    rw [hCount]
    show ((occurrences [1, 2, 1, 2] [1] 2 : Nat) : Int) + (occurrences [1, 2] [1] 2 : Nat) = 3
    rw [hOne, hTwo]
    rfl
  refine (hLaws.2.2.2.2 _ hSound).mpr fun key part hPart => ?_
  have hParts : ∀ item ∈ (cacheOf 1 2 [[1, 2], [1], [2]]).entries,
      item.2.entries.length < 2 ^ 31 := by decide
  exact hParts _ (mem_lookup_iff.mp hPart)

theorem occurrences_replicate (n : Nat) (token : Int32) :
    occurrences (replicate (n + 1) token) [token] token = n := by
  unfold occurrences
  rw [length_replicate, range_succ_eq_map, countP_cons, countP_map]
  have hFirst : ([token] ++ [token]).isSuffixOf
      ((replicate (n + 1) token).take (0 + 1)) = false := by
    rw [Bool.eq_false_iff]
    intro hSuffix
    have hLength := length_le_of_suffix (isSuffixOf_iff_suffix.mp hSuffix)
    exact absurd hLength (by simp)
  have hLater : (range n).countP ((fun i => ([token] ++ [token]).isSuffixOf
      ((replicate (n + 1) token).take (i + 1))) ∘ Nat.succ) = (range n).length := by
    rw [countP_eq_length]
    intro i hi
    have hLess := mem_range.mp hi
    rw [Function.comp_apply, isSuffixOf_iff_suffix, take_replicate,
      Nat.min_eq_left (by omega)]
    exact ⟨replicate i token, (replicate_add i 2 token).symm⟩
  rw [hFirst, hLater, length_range]
  rfl

/-- One token 2147483649 times, in two pieces. -/
theorem repeatedToken_count :
    (cacheOf 1 1 [List.replicate (2 ^ 31 - 1) 7, [7, 7]]).countOf (keyOf [7]) 7 ≠
      occurrences [List.replicate (2 ^ 31 - 1) 7, [7, 7]].flatten [7] 7 := by
  have hFlat : [replicate (2 ^ 31 - 1) (7 : Int32), [7, 7]].flatten = replicate (2 ^ 31 + 1) 7 :=
    replicate_append_replicate (n := 2 ^ 31 - 1) (m := 2)
  have hPieces : Appendable [replicate (2 ^ 31 - 1) (7 : Int32), [7, 7]] := by
    refine ⟨fun hMem => ?_, fun piece hPiece => ?_⟩
    · rw [hFlat] at hMem
      exact absurd (eq_of_mem_replicate hMem) (by decide)
    rcases mem_pair.mp hPiece with rfl | rfl
    · rw [length_replicate]
      decide
    · decide
  have hCount := countOf_iff (cacheOf_stored 7 hPieces (by decide) (by decide) (by decide)
    (by decide) : (cacheOf 1 1 _).stored (keyOf [7]) 7 = _)
  rw [hFlat, occurrences_replicate] at hCount ⊢
  exact fun hEq => absurd (hCount.mp hEq) (by decide)

end NgramCache

end Beellama.Ports
