import Beellama.Ports.ServerTokens
import Beellama.Verified.ExceptFold
import Beellama.Verified.Run
import Mathlib.Data.List.GetD
import Mathlib.Data.List.TakeWhile

/-!
# The media map of `server_tokens` and its tokens

A value is well formed when the null tokens are exactly the ranges of the media chunks.  All operations
keep it so but two: `keep_first(n)` cuts a chunk after its first token, and refuses to cut between two
chunks, and `push_back(server_tokens &)` throws at the first null token of its argument.
-/

namespace Beellama.Ports

open Beellama.Verified List Option OrderedMap ServerTokens

namespace ServerTokens

variable {χ : Type} {mtmd : Mtmd χ} {s other : ServerTokens χ} {i n : Nat}

/-- The chunk of an entry occupies the index. -/
def Covers (mtmd : Mtmd χ) (e : Nat × χ) (i : Nat) : Prop := e.1 ≤ i ∧ i < e.1 + mtmd.nTokens e.2

/-- The null tokens are split into the ranges of the media chunks. -/
structure WellFormed (mtmd : Mtmd χ) (s : ServerTokens χ) : Prop where
  hasMtmd : s.hasMtmd = true
  null_iff : ∀ i < s.size, s.tokenAt i = tokenNull ↔ ∃ e ∈ s.media.entries, Covers mtmd e i
  within : ∀ e ∈ s.media.entries, 0 < mtmd.nTokens e.2 ∧ e.1 + mtmd.nTokens e.2 ≤ s.size
  disjoint : s.media.entries.Pairwise fun a b => a.1 + mtmd.nTokens a.2 ≤ b.1

/-- The index is strictly inside a media chunk. -/
def Inside (mtmd : Mtmd χ) (s : ServerTokens χ) (n : Nat) : Prop :=
  ∃ e ∈ s.media.entries, e.1 < n ∧ n < e.1 + mtmd.nTokens e.2

variable {a b : Nat × χ}

variable (h : s.WellFormed mtmd)

include h

theorem WellFormed.apart (ha : a ∈ s.media.entries) (hb : b ∈ s.media.entries) (hNe : a ≠ b) :
    a.1 + mtmd.nTokens a.2 ≤ b.1 ∨ b.1 + mtmd.nTokens b.2 ≤ a.1 := by
  obtain ⟨i, hi, rfl⟩ := getElem_of_mem ha
  obtain ⟨j, hj, rfl⟩ := getElem_of_mem hb
  have hPair := pairwise_iff_getElem.mp h.disjoint
  rcases Nat.lt_trichotomy i j with hLt | rfl | hGt
  · exact Or.inl (hPair i j hi hj hLt)
  · exact absurd rfl hNe
  · exact Or.inr (hPair j i hj hi hGt)

theorem WellFormed.covers_unique (ha : a ∈ s.media.entries) (hb : b ∈ s.media.entries)
    (hCoverA : Covers mtmd a i)
    (hCoverB : Covers mtmd b i) : a = b := by
  by_contra hNe
  unfold Covers at hCoverA hCoverB
  rcases h.apart ha hb hNe with hLe | hLe <;> omega

theorem WellFormed.isNull {e : Nat × χ} (he : e ∈ s.media.entries)
    (hCover : Covers mtmd e i) : s.tokenAt i = tokenNull := by
  obtain ⟨-, hEnd⟩ := h.within e he
  exact (h.null_iff i (by unfold Covers at hCover; omega)).mpr ⟨e, he, hCover⟩

/-! ## `keep_first` -/

/-- `keep_first(n)` throws exactly inside of a chunk, and otherwise keeps the first `n` tokens
with the chunks that start before `n`. -/
def KeepsFirst (mtmd : Mtmd χ) (s : ServerTokens χ) (n : Nat) : Prop :=
  (s.Inside mtmd n → ∃ e, s.keepFirst n = (.error e, s)) ∧
    (¬s.Inside mtmd n → (s.keepFirst n).1 = .ok () ∧
      (s.keepFirst n).2.hasMtmd = s.hasMtmd ∧
      (s.keepFirst n).2.tokens = s.tokens.take n ∧
      (s.keepFirst n).2.media.entries = s.media.entries.filter (·.1 < n))

/-- No chunk of several tokens starts just before `n`, and none ends at `n` where another one
starts. -/
def CutSound (mtmd : Mtmd χ) (s : ServerTokens χ) (n : Nat) : Prop :=
  (∀ e ∈ s.media.entries, e.1 + 1 = n → mtmd.nTokens e.2 ≤ 1) ∧
    ∀ a ∈ s.media.entries, ∀ b ∈ s.media.entries, a.1 + mtmd.nTokens a.2 = n → b.1 = n →
      mtmd.nTokens a.2 ≤ 1

theorem keepFirst_eq (hn : n < s.size) :
    s.keepFirst n =
      if (0 < n ∧ s.tokenAt (n - 1) = tokenNull ∧ s.tokenAt n = tokenNull) ∧
          s.media.find (n - 1) = none then
        (.error "Chunk not found", s)
      else (.ok (), { s with
        media := ⟨s.media.entries.filter (·.1 < n), s.media.sorted.filter _⟩
        tokens := s.tokens.take n }) := by
  unfold keepFirst findChunk
  rw [if_pos h.hasMtmd, if_neg (by omega)]
  dsimp only
  by_cases hNull : 0 < n ∧ s.tokenAt (n - 1) = tokenNull ∧ s.tokenAt n = tokenNull
  · rw [if_pos hNull]
    cases hFind : s.media.find (n - 1) with
    | none => rw [if_pos ⟨hNull, rfl⟩]
    | some c => rw [if_neg fun hBoth => some_ne_none c hBoth.2]
  · rw [if_neg hNull, if_neg fun hBoth => hNull hBoth.1]

theorem keepFirst_size : s.keepFirst s.size = (.ok (), s) := by
  unfold keepFirst
  rw [if_pos h.hasMtmd, if_pos rfl]

/-- Where `keep_first` throws, in terms of the chunks. -/
theorem refuses_iff (hn : n < s.size) :
    (0 < n ∧ s.tokenAt (n - 1) = tokenNull ∧ s.tokenAt n = tokenNull) ∧
        s.media.find (n - 1) = none ↔
      0 < n ∧ ∃ a ∈ s.media.entries, ∃ b ∈ s.media.entries, Covers mtmd a (n - 1) ∧
        Covers mtmd b n ∧ a.1 + 1 ≠ n := by
  constructor
  · rintro ⟨⟨hPos, hBefore, hAt⟩, hNone⟩
    obtain ⟨a, ha, hCoverA⟩ := (h.null_iff (n - 1) (by omega)).mp hBefore
    obtain ⟨b, hb, hCoverB⟩ := (h.null_iff n hn).mp hAt
    refine ⟨hPos, a, ha, b, hb, hCoverA, hCoverB, fun hStart => ?_⟩
    have hKey : n - 1 = a.1 := by omega
    rw [hKey, mem_entries.mp (show (a.1, a.2) ∈ s.media.entries from ha)] at hNone
    cases hNone
  rintro ⟨hPos, a, ha, b, hb, hCoverA, hCoverB, hStart⟩
  refine ⟨⟨hPos, h.isNull ha hCoverA, h.isNull hb hCoverB⟩, ?_⟩
  cases hFind : s.media.find (n - 1) with
  | none => rfl
  | some c =>
    have hMem := mem_entries.mpr hFind
    have hWithin := (h.within _ hMem).1
    have hSame := h.covers_unique ha hMem hCoverA
      (show Covers mtmd (n - 1, c) (n - 1) from ⟨Nat.le_refl _, by omega⟩)
    rw [hSame] at hStart
    exact absurd (Nat.sub_add_cancel hPos) hStart

theorem keepsFirst_iff (hn : n ≤ s.size) : s.KeepsFirst mtmd n ↔ s.CutSound mtmd n := by
  rcases Nat.eq_or_lt_of_le hn with rfl | hLt
  · have hOutside : ¬s.Inside mtmd s.size := by
      rintro ⟨e, he, -, hEnd⟩
      have hWithin := (h.within e he).2
      omega
    have hSound : s.CutSound mtmd s.size := by
      refine ⟨fun e he hStart => ?_, fun a _ b hb _ hStart => ?_⟩
      · have hWithin := (h.within e he).2
        omega
      · have hWithin := h.within b hb
        omega
    refine iff_of_true ⟨fun hIn => absurd hIn hOutside, fun _ => ?_⟩ hSound
    rw [keepFirst_size h]
    refine ⟨rfl, rfl, (take_length).symm, (filter_eq_self.mpr fun e he => ?_).symm⟩
    have hWithin := h.within e he
    exact decide_eq_true (by omega)
  have hRefuses := refuses_iff h hLt
  unfold KeepsFirst
  rw [keepFirst_eq h hLt]
  constructor
  · rintro ⟨hThrows, hReturns⟩
    refine ⟨fun e he hStart => ?_, fun a ha b hb hEnd hStart => ?_⟩
    · by_contra hLong
      obtain ⟨err, hErr⟩ := hThrows ⟨e, he, by omega, by omega⟩
      split at hErr
      · rename_i hTest
        obtain ⟨-, a, ha, -, -, hCover, -, hNot⟩ := hRefuses.mp hTest
        have hSame := h.covers_unique ha he hCover
          (show Covers mtmd e (n - 1) from ⟨by omega, by omega⟩)
        rw [hSame] at hNot
        exact hNot hStart
      · cases hErr
    by_contra hLong
    have hPosB := (h.within b hb).1
    have hTest := hRefuses.mpr ⟨by omega, a, ha, b, hb, ⟨by omega, by omega⟩,
      ⟨by omega, by omega⟩, by omega⟩
    have hOutside : ¬s.Inside mtmd n := by
      rintro ⟨e, he, hBefore, hAfter⟩
      have hSame := h.covers_unique he hb (show Covers mtmd e n from ⟨by omega, hAfter⟩)
        (show Covers mtmd b n from ⟨by omega, by omega⟩)
      rw [hSame] at hBefore
      omega
    have hOk := (hReturns hOutside).1
    rw [if_pos hTest] at hOk
    cases hOk
  rintro ⟨hFirst, hAdjacent⟩
  have hIff : ((0 < n ∧ s.tokenAt (n - 1) = tokenNull ∧ s.tokenAt n = tokenNull) ∧
      s.media.find (n - 1) = none) ↔ s.Inside mtmd n := by
    rw [hRefuses]
    constructor
    · rintro ⟨hPos, a, ha, b, hb, hCoverA, hCoverB, hStart⟩
      unfold Covers at hCoverA hCoverB
      by_cases hSame : a = b
      · subst hSame
        exact ⟨a, ha, by omega, by omega⟩
      rcases h.apart ha hb hSame with hLe | hLe
      · have hShort := hAdjacent a ha b hb (by omega) (by omega)
        omega
      · omega
    rintro ⟨e, he, hBefore, hAfter⟩
    refine ⟨by omega, e, he, e, he, ⟨by omega, by omega⟩, ⟨by omega, hAfter⟩, fun hStart => ?_⟩
    have hShort := hFirst e he hStart
    omega
  refine ⟨fun hIn => ⟨_, if_pos (hIff.mpr hIn)⟩, fun hOut => ?_⟩
  rw [if_neg fun hTest => hOut (hIff.mp hTest)]
  exact ⟨rfl, rfl, rfl, rfl⟩

/-! ## Appending -/

omit h in
theorem tokenAt_append {l m : List Int32} {media : OrderedMap Nat χ} {b : Bool} (i : Nat) :
    (⟨b, media, l ++ m⟩ : ServerTokens χ).tokenAt i =
      if i < l.length then l.getD i 0 else m.getD (i - l.length) 0 := by
  unfold tokenAt
  split
  · rename_i hLt
    exact getD_append _ _ _ _ hLt
  · exact getD_append_right _ _ _ _ (by omega)

theorem WellFormed.insert {toks : List Int32} (hText : tokenNull ∉ toks) :
    (s.insert toks).WellFormed mtmd := by
  have hSize : (s.insert toks).size = s.size + toks.length := length_append
  refine ⟨h.hasMtmd, fun i hi => ?_, fun e he => ?_, h.disjoint⟩
  · have hAt : (s.insert toks).tokenAt i = _ := tokenAt_append i
    rw [hAt]
    by_cases hLt : i < s.tokens.length
    · rw [if_pos hLt]
      exact h.null_iff i hLt
    rw [if_neg hLt]
    rw [hSize] at hi
    refine iff_of_false (fun hNull => hText ?_) ?_
    · rw [← hNull, getD_eq_getElem _ _ (show i - s.tokens.length < toks.length by
        unfold size at hi; omega)]
      exact getElem_mem _
    rintro ⟨e, he, hCover⟩
    have hEnd := (h.within e he).2
    unfold Covers at hCover
    unfold size at hEnd
    omega
  · obtain ⟨hPos, hEnd⟩ := h.within e he
    exact ⟨hPos, by rw [hSize]; omega⟩

omit h in
theorem pushBack_eq (s : ServerTokens χ) (tok : Int32) :
    s.pushBack tok =
      if tok = tokenNull then (.error "Invalid token", s) else (.ok (), s.insert [tok]) := rfl

omit h in
/-- A loop of `push_back(token)` stops at the first null token. -/
theorem pushAll_eq (s : ServerTokens χ) (toks : List Int32) :
    s.pushAll toks =
      if tokenNull ∈ toks then
        (.error "Invalid token", s.insert (toks.takeWhile (· ≠ tokenNull)))
      else (.ok (), s.insert toks) := by
  induction toks generalizing s with
  | nil =>
    rw [if_neg not_mem_nil]
    unfold pushAll insert
    rw [append_nil]
  | cons tok toks ih =>
    unfold pushAll
    rw [pushBack_eq]
    by_cases hNull : tok = tokenNull
    · rw [if_pos hNull, if_pos (by rw [hNull]; exact mem_cons_self),
        takeWhile_cons_of_neg (by simpa using hNull)]
      unfold insert
      rw [append_nil]
    have hMem : tokenNull ∈ tok :: toks ↔ tokenNull ∈ toks := by
      rw [mem_cons, or_iff_right (Ne.symm hNull)]
    rw [if_neg hNull]
    dsimp only
    rw [ih, takeWhile_cons_of_pos (by simpa using hNull)]
    unfold insert
    dsimp only
    rw [append_assoc, append_assoc]
    exact if_congr hMem.symm rfl rfl

theorem WellFormed.pushAll (toks : List Int32) : (s.pushAll toks).2.WellFormed mtmd := by
  rw [pushAll_eq]
  split
  · refine h.insert fun hMem => ?_
    have hText := mem_takeWhile_imp hMem
    exact of_decide_eq_true hText rfl
  · exact h.insert ‹_›

variable {c : χ}

theorem WellFormed.pushMedia (hPos : 0 < mtmd.nTokens c) :
    (⟨s.hasMtmd, s.media.insert s.size c,
      s.tokens ++ replicate (mtmd.nTokens c) tokenNull⟩ : ServerTokens χ).WellFormed mtmd := by
  have hBefore : ∀ e ∈ s.media.entries, e.1 + mtmd.nTokens e.2 ≤ s.size :=
    fun e he => (h.within e he).2
  have hEntries : (s.media.insert s.size c).entries = s.media.entries ++ [(s.size, c)] := by
    refine insertEntry_last (fun e he => ?_) c
    have hWithin := h.within e he
    omega
  refine ⟨h.hasMtmd, fun i hi => ?_, fun e he => ?_, ?_⟩
  · rw [tokenAt_append, hEntries]
    have hNew : (∃ e ∈ s.media.entries ++ [(s.size, c)], Covers mtmd e i) ↔
        (∃ e ∈ s.media.entries, Covers mtmd e i) ∨ Covers mtmd (s.size, c) i := by
      simp only [mem_append, mem_singleton, or_and_right, exists_or, exists_eq_left]
    rw [hNew]
    by_cases hLt : i < s.tokens.length
    · rw [if_pos hLt, or_iff_left fun hCover => absurd hCover.1 (not_le.mpr hLt)]
      exact h.null_iff i hLt
    change i < (s.tokens ++ replicate (mtmd.nTokens c) tokenNull).length at hi
    rw [length_append, length_replicate] at hi
    rw [if_neg hLt, getD_eq_getElem _ _ (by rw [length_replicate]; omega),
      getElem_replicate]
    exact iff_of_true rfl (Or.inr ⟨not_lt.mp hLt, hi⟩)
  · change _ ∧ _ ≤ (s.tokens ++ replicate (mtmd.nTokens c) tokenNull).length
    rw [length_append, length_replicate]
    rw [hEntries] at he
    rcases mem_append.mp he with hOld | hLast
    · obtain ⟨hOne, hEnd⟩ := h.within e hOld
      exact ⟨hOne, by unfold size at hEnd; omega⟩
    · rw [mem_singleton.mp hLast]
      exact ⟨hPos, Nat.le_refl _⟩
  rw [hEntries]
  refine pairwise_append.mpr ⟨h.disjoint, pairwise_singleton _ _, ?_⟩
  intro a ha b hb
  rw [mem_singleton.mp hb]
  exact hBefore a ha

/-! ### `push_back(server_tokens &)` -/

/-- The argument is appended, with its media shifted. -/
def Appends (mtmd : Mtmd χ) (s other : ServerTokens χ) : Prop :=
  ∃ fuel s', s.append mtmd fuel other = some (.ok (), s') ∧ s'.hasMtmd = s.hasMtmd ∧
    s'.tokens = s.tokens ++ other.tokens ∧
    s'.media.entries = s.media.entries ++ other.media.entries.map fun e => (s.size + e.1, e.2)

omit h in
theorem WellFormed.null_not_mem_iff (h : other.WellFormed mtmd) :
    tokenNull ∉ other.tokens ↔ other.media.entries = [] := by
  constructor
  · intro hText
    refine eq_nil_iff_forall_not_mem.mpr fun e he => hText ?_
    obtain ⟨hPos, hEnd⟩ := h.within e he
    have hAt := h.isNull he (show Covers mtmd e e.1 from ⟨Nat.le_refl _, by omega⟩)
    unfold tokenAt at hAt
    rw [getD_eq_getElem _ _ (show e.1 < other.tokens.length by unfold size at hEnd; omega)]
      at hAt
    rw [← hAt]
    exact getElem_mem _
  intro hNone hMem
  obtain ⟨i, hi, hAt⟩ := getElem_of_mem hMem
  have hNull : other.tokenAt i = tokenNull := by
    unfold tokenAt
    rw [getD_eq_getElem _ _ hi, hAt]
  obtain ⟨e, he, -⟩ := (h.null_iff i hi).mp hNull
  rw [hNone] at he
  cases he

section

variable (hOther : other.WellFormed mtmd)

include hOther

theorem append_of_text (hNone : other.media.entries = []) (fuel : Nat) :
    s.append mtmd fuel other =
      if fuel = 0 then none else some (.ok (), s.insert other.tokens) := by
  unfold append
  rw [pushAll_eq, if_neg (hOther.null_not_mem_iff.mpr hNone)]
  dsimp only
  rw [if_pos hOther.hasMtmd, if_pos (show (s.insert other.tokens).hasMtmd = true from h.hasMtmd),
    hNone]
  cases fuel with
  | zero => rfl
  | succ fuel => rfl

omit h in
theorem append_of_media (hSome : other.media.entries ≠ [])
    (fuel : Nat) : ∃ s', s.append mtmd fuel other = some (.error "Invalid token", s') ∧
      s' = s.insert (other.tokens.takeWhile (· ≠ tokenNull)) := by
  have hMem : tokenNull ∈ other.tokens := by
    by_contra hText
    exact hSome (hOther.null_not_mem_iff.mp hText)
  refine ⟨_, ?_, rfl⟩
  unfold append
  rw [pushAll_eq, if_pos hMem]

theorem appends_iff : s.Appends mtmd other ↔ other.media.entries = [] := by
  constructor
  · rintro ⟨fuel, s', hEq, -⟩
    by_contra hSome
    obtain ⟨s'', hErr, -⟩ := append_of_media (s := s) hOther hSome fuel
    rw [hErr] at hEq
    cases hEq
  intro hNone
  refine ⟨1, s.insert other.tokens, append_of_text h hOther hNone 1, rfl, rfl, ?_⟩
  rw [hNone, map_nil, append_nil]
  rfl

/-! ## Copies -/

end

omit h in
theorem clone_eq (s : ServerTokens χ) : s.clone mtmd = s := by
  have hMedia : s.media.entries.foldl (fun m e => m.insert e.1 (mtmd.copy e.2)) empty =
      s.media := by
    refine ext_entries ?_
    have hSorted : ((empty : OrderedMap Nat χ).entries ++ s.media.entries).Pairwise
        fun a b => a.1 < b.1 := s.media.sorted
    simp only [mtmd.copy_eq]
    exact foldl_insert hSorted
  unfold clone
  rw [hMedia]

theorem WellFormed.clear : s.clear.WellFormed mtmd where
  hasMtmd := h.hasMtmd
  null_iff i hi := absurd hi (Nat.not_lt_zero i)
  within e he := by cases he
  disjoint := List.Pairwise.nil

/-! ### The packed format -/

omit h

theorem tokenWord_lt (tok : Int32) : tokenWord tok < 256 ^ 4 := tok.toUInt32.toNat_lt

theorem wordToken_tokenWord (tok : Int32) : wordToken (tokenWord tok) = tok := by
  unfold wordToken tokenWord
  rw [UInt32.ofNat_toNat]
  rfl

theorem tokenWord_wordToken {n : Nat} (h : n < 256 ^ 4) : tokenWord (wordToken n) = n := by
  change (UInt32.ofNat n).toNat = n
  exact Nat.mod_eq_of_lt h

variable {m : Nat} {rest : List UInt8}

theorem packed_words (h : rest.length = m * 4) :
    packTokens (leBytes 4 (tokenWord tokenNull) ++ rest) =
        tokenNull :: (readWords 4 m rest).map wordToken ∧
      leWords 4 (((readWords 4 m rest).map wordToken).map tokenWord) = rest := by
  constructor
  · have hCount : (leBytes 4 (tokenWord tokenNull) ++ rest).length / 4 = m + 1 := by
      rw [length_append, leBytes_length]
      omega
    have hFirst : (leBytes 4 (tokenWord tokenNull)).length = 4 := leBytes_length _ _
    unfold packTokens
    rw [hCount]
    change wordToken (StagedReader.leNat ((_ ++ rest).take 4)) ::
      (readWords 4 m ((_ ++ rest).drop 4)).map wordToken = _
    rw [take_left' hFirst, drop_left' hFirst, leNat_leBytes (tokenWord_lt _),
      wordToken_tokenWord]
  have hWords : ((readWords 4 m rest).map wordToken).map tokenWord = readWords 4 m rest := by
    rw [List.map_map]
    exact (map_congr_left fun n hn => tokenWord_wordToken (readWords_lt hn)).trans
      (map_id _)
  rw [hWords, leWords_readWords h]

theorem padToTokens_eq {marker : List UInt8} (h : marker.length = 4) (body : List UInt8) :
    ∃ padding m, padding.length < 4 ∧ (body ++ padding).length = m * 4 ∧
      padToTokens (marker ++ body) = marker ++ (body ++ padding) := by
  refine ⟨replicate (((marker ++ body).length + 3) / 4 * 4 - (marker ++ body).length) 0,
    ((marker ++ body).length + 3) / 4 - 1, ?_, ?_, append_assoc _ _ _⟩
  · rw [length_replicate]
    omega
  · rw [length_append, length_replicate, length_append]
    omega

theorem deserialize_packed (h : rest.length = m * 4)
    (hasMtmd : Bool) :
    deserialize mtmd (packTokens (leBytes 4 (tokenWord tokenNull) ++ rest)) hasMtmd =
      (readState mtmd hasMtmd rest).map Prod.fst := by
  obtain ⟨hPacked, hWords⟩ := packed_words h
  unfold deserialize
  rw [hPacked, head?_cons, if_pos rfl, tail_cons, hWords]

open StagedReader

theorem stateU32_eq {n : Nat} (h : stateU32 n = .ok m) : m = n ∧ n < 256 ^ 4 := by
  unfold stateU32 at h
  split at h
  · cases h
  rename_i hSmall
  cases h
  exact ⟨rfl, not_le.mp hSmall⟩

variable {k : Nat} {values : List Nat} {bytes : List UInt8}

theorem writeVector_eq (h : writeVector k values = .ok bytes) :
    bytes = leBytes 4 values.length ++ leWords k values ∧ values.length < 256 ^ 4 := by
  unfold writeVector at h
  cases hLength : stateU32 values.length with
  | error e =>
    rw [hLength] at h
    cases h
  | ok n =>
    obtain ⟨rfl, hSmall⟩ := stateU32_eq hLength
    rw [hLength] at h
    cases h
    exact ⟨rfl, hSmall⟩

theorem consumes_readU32 {n : Nat} (h : n < 256 ^ 4) : Consumes readU32 (leBytes 4 n) n := by
  have hTake : Consumes (leNat <$> (take endOfState 4 : StateReader _)) (leBytes 4 n)
      (leNat (leBytes 4 n)) := (consumes_take endOfState (leBytes_length 4 n)).map
  rw [leNat_leBytes h] at hTake
  exact hTake

theorem consumes_readVector (hk : 0 < k)
    (hValues : ∀ n ∈ values, n < 256 ^ k) (h : writeVector k values = .ok bytes) :
    Consumes (readVector k) bytes values := by
  obtain ⟨rfl, hSmall⟩ := writeVector_eq h
  intro rest
  have hLength := leWords_length k values
  have hFits : values.length ≤ (leWords k values ++ rest).length / k := by
    rw [length_append, Nat.le_div_iff_mul_le hk]
    omega
  unfold readVector
  rw [append_assoc, run_bind (consumes_readU32 hSmall _),
    run_bind (show remaining (leWords k values ++ rest) = .ok (_, [], _) from rfl),
    run_check hFits]
  have hTake : Consumes (readWords k values.length <$>
      (take endOfState (values.length * k) : StateReader _)) (leWords k values)
      (readWords k values.length (leWords k values)) := (consumes_take endOfState hLength).map
  rw [readWords_leWords hValues] at hTake
  exact hTake rest

theorem consumes_readMediaChunk
    (h : writeMediaChunk mtmd c = .ok bytes) : Consumes (readMediaChunk mtmd) bytes c := by
  unfold writeMediaChunk at h
  rw [if_neg (mtmd.save_ne_nil c)] at h
  have hBytes : ∀ n ∈ (mtmd.save c).map UInt8.toNat, n < 256 ^ 1 := by
    intro n hn
    obtain ⟨b, -, rfl⟩ := mem_map.mp hn
    exact b.toNat_lt
  have hSaved : ((mtmd.save c).map UInt8.toNat).map UInt8.ofNat = mtmd.save c := by
    rw [List.map_map]
    exact (map_congr_left fun b _ => UInt8.ofNat_toNat).trans (map_id _)
  have hNonempty : (mtmd.save c).map UInt8.toNat ≠ [] := by
    rw [Ne, map_eq_nil_iff]
    exact mtmd.save_ne_nil c
  intro rest
  unfold readMediaChunk
  rw [run_bind (consumes_readVector Nat.one_pos hBytes h rest),
    run_check hNonempty, hSaved, mtmd.load_save]
  rfl

variable {entries : List (Nat × χ)}

theorem consumes_readMedia {chunks : List (List UInt8)}
    (media : OrderedMap Nat χ)
    (h : List.Forall₂ (fun e bytes => writeMediaChunk mtmd e.2 = .ok bytes) entries chunks) :
    Consumes (readMedia mtmd (entries.map Prod.fst) media) chunks.flatten
      (entries.foldl (fun m e => m.insert e.1 e.2) media) := by
  induction h generalizing media with
  | nil => exact consumes_pure
  | @cons e bytes entries chunks hFirst _ ih =>
    exact (consumes_readMediaChunk hFirst).bind (ih (media.insert e.1 e.2))

theorem mediaKeys_eq {keys : List Nat}
    (h : entries.mapM (fun item => stateU32 item.1) = .ok keys) :
    keys = entries.map Prod.fst ∧ ∀ k ∈ keys, k < 256 ^ 4 := by
  have hEach := forall₂_of_mapM h
  clear h
  induction hEach with
  | nil => exact ⟨rfl, fun k hk => by cases hk⟩
  | cons hFirst _ ih =>
    obtain ⟨rfl, hSmall⟩ := stateU32_eq hFirst
    obtain ⟨rfl, hAll⟩ := ih
    exact ⟨rfl, forall_mem_cons.mpr ⟨hSmall, hAll⟩⟩

/-- A value that can be written is read back. -/
theorem deserialize_serialize {data : List UInt8} (h : s.hasMtmd = true)
    (hData : s.serialize mtmd = .ok data) :
    deserialize mtmd (packTokens data) s.hasMtmd = .ok s := by
  obtain ⟨tokens, hTokens, hData⟩ := exists_of_bind hData
  obtain ⟨mediaKeys, hKeys, hData⟩ := exists_of_bind hData
  obtain ⟨keys, hKeyBytes, hData⟩ := exists_of_bind hData
  obtain ⟨chunks, hChunks, hData⟩ := exists_of_bind hData
  cases hData
  obtain ⟨rfl, hSmall⟩ := mediaKeys_eq hKeys
  obtain ⟨padding, m, hShort, hCount, hBytes⟩ := padToTokens_eq
    (leBytes_length 4 (tokenWord tokenNull))
    (leBytes 4 stateVersion ++ (tokens ++ (keys ++ chunks.flatten)))
  have hAllTokens : ∀ n ∈ s.tokens.map tokenWord, n < 256 ^ 4 := by
    intro n hn
    obtain ⟨tok, -, rfl⟩ := mem_map.mp hn
    exact tokenWord_lt tok
  have hTokensBack : (s.tokens.map tokenWord).map wordToken = s.tokens := by
    rw [List.map_map]
    exact (map_congr_left fun tok _ => wordToken_tokenWord tok).trans (map_id _)
  have hMedia : s.media.entries.foldl (fun m e => m.insert e.1 e.2) empty = s.media :=
    ext_entries (foldl_insert s.media.sorted)
  have hRead : readState mtmd s.hasMtmd
      (leBytes 4 stateVersion ++ (tokens ++ (keys ++ chunks.flatten)) ++ padding) =
      .ok (s, [], padding) := by
    unfold readState
    rw [append_assoc, append_assoc, append_assoc, run_bind (consumes_readU32 (by decide) _), run_check rfl,
      run_bind (consumes_readVector (by decide) hAllTokens hTokens _),
      run_bind (consumes_readVector (by decide) hSmall hKeyBytes _), run_check (Or.inr h),
      run_bind (consumes_readMedia _ (forall₂_of_mapM hChunks) _),
      run_bind (show remaining padding = .ok (_, [], _) from rfl), run_check hShort, hMedia,
      hTokensBack]
    rfl
  rw [append_assoc, append_assoc, append_assoc, hBytes, deserialize_packed hCount,
    hRead]
  rfl

theorem reload_eq (h : s.hasMtmd = true) : (s.reload mtmd).2 = s := by
  unfold reload
  cases hData : s.serialize mtmd with
  | error e => rfl
  | ok data =>
    dsimp only
    rw [deserialize_serialize h hData]

theorem WellFormed.keepFirst (h : s.WellFormed mtmd) (hn : n ≤ s.size)
    (hSound : s.CutSound mtmd n) : (s.keepFirst n).2.WellFormed mtmd := by
  obtain ⟨hThrows, hReturns⟩ := (keepsFirst_iff h hn).mpr hSound
  by_cases hIn : s.Inside mtmd n
  · obtain ⟨e, hEq⟩ := hThrows hIn
    rw [hEq]
    exact h
  obtain ⟨-, hMtmd, hTokens, hEntries⟩ := hReturns hIn
  generalize (s.keepFirst n).2 = s' at hMtmd hTokens hEntries
  have hSize : s'.size = n := by
    unfold size at hn ⊢
    rw [hTokens, length_take]
    exact Nat.min_eq_left hn
  have hMem : ∀ e, e ∈ s'.media.entries ↔ e ∈ s.media.entries ∧ e.1 < n := fun e => by
    rw [hEntries, mem_filter, decide_eq_true_iff]
  have hEnds : ∀ e ∈ s'.media.entries, e.1 + mtmd.nTokens e.2 ≤ n := by
    intro e he
    obtain ⟨hOld, hBefore⟩ := (hMem e).mp he
    by_contra hAfter
    exact hIn ⟨e, hOld, hBefore, by omega⟩
  refine ⟨hMtmd.trans h.hasMtmd, fun i hi => ?_, fun e he => ?_, ?_⟩
  · rw [hSize] at hi
    have hAt : s'.tokenAt i = s.tokenAt i := by
      unfold tokenAt
      rw [hTokens, getD_eq_getElem?_getD, getD_eq_getElem?_getD, getElem?_take,
        if_pos hi]
    rw [hAt, h.null_iff i (by omega)]
    constructor
    · rintro ⟨e, he, hCover⟩
      exact ⟨e, (hMem e).mpr ⟨he, Nat.lt_of_le_of_lt hCover.1 hi⟩, hCover⟩
    · rintro ⟨e, he, hCover⟩
      exact ⟨e, ((hMem e).mp he).1, hCover⟩
  · rw [hSize]
    exact ⟨(h.within e ((hMem e).mp he).1).1, hEnds e he⟩
  · rw [hEntries]
    exact h.disjoint.filter _

end ServerTokens

/-! ## Runs -/

namespace TokensOp

variable {χ : Type} {mtmd : Mtmd χ} {s s' : ServerTokens χ}

/-- What the callers of an operation see to. -/
def Given (mtmd : Mtmd χ) (s : ServerTokens χ) : TokensOp χ → Prop
  | .pushChunk c => 0 < mtmd.nTokens c
  | .append other => other.WellFormed mtmd
  | .insert inpTokens => tokenNull ∉ inpTokens
  | .keepFirst n => n ≤ s.size
  | _ => True

/-- What the truncation and the append promise. -/
def Keeps (mtmd : Mtmd χ) (s : ServerTokens χ) : TokensOp χ → Prop
  | .append other => s.Appends mtmd other
  | .keepFirst n => s.KeepsFirst mtmd n
  | _ => True

/-- Text is appended, and no cut is made after the first of several tokens of a chunk or before
another chunk. -/
def Sound (mtmd : Mtmd χ) : TokensOp χ → ServerTokens χ → Prop
  | .append other, _ => other.media.entries = []
  | .keepFirst n, s => s.CutSound mtmd n
  | _, _ => True

def step (mtmd : Mtmd χ) (op : TokensOp χ) (s s' : ServerTokens χ) : Prop :=
  op.Given mtmd s ∧ ∃ fuel r, op.run mtmd fuel s = some (r, s')

variable {op : TokensOp χ}

theorem keeps_iff (h : s.WellFormed mtmd) (hGiven : op.Given mtmd s) :
    op.Keeps mtmd s ↔ op.Sound mtmd s := by
  cases op with
  | append other => exact appends_iff h hGiven
  | keepFirst n => exact keepsFirst_iff h hGiven
  | pushBack tok => exact Iff.rfl
  | pushChunk c => exact Iff.rfl
  | insert inpTokens => exact Iff.rfl
  | clone => exact Iff.rfl
  | clear => exact Iff.rfl
  | reload => exact Iff.rfl

theorem step_wellFormed (h : s.WellFormed mtmd) (hSound : op.Sound mtmd s)
    (hStep : op.step mtmd s s') : s'.WellFormed mtmd := by
  obtain ⟨hGiven, fuel, r, hRun⟩ := hStep
  cases op with
  | pushBack tok =>
    have hNext : (s.pushBack tok).2 = s' := congrArg Prod.snd (some.inj hRun)
    rw [← hNext]
    rw [pushBack_eq]
    split
    · exact h
    · refine h.insert fun hMem => ?_
      exact absurd (mem_singleton.mp hMem).symm ‹_›
  | pushChunk c =>
    have hNext : (s.pushChunk mtmd c).2 = s' := congrArg Prod.snd (some.inj hRun)
    rw [← hNext]
    unfold ServerTokens.pushChunk
    split
    · exact h.pushAll _
    · rw [if_pos h.hasMtmd, mtmd.copy_eq]
      exact h.pushMedia hGiven
  | append other =>
    have hAppend : s.append mtmd fuel other = some (r, s') := hRun
    rw [append_of_text h hGiven hSound] at hAppend
    split at hAppend
    · cases hAppend
    · cases hAppend
      exact h.insert (hGiven.null_not_mem_iff.mpr hSound)
  | insert inpTokens =>
    cases hRun
    exact h.insert hGiven
  | clone =>
    cases hRun
    rw [clone_eq]
    exact h
  | clear =>
    cases hRun
    exact h.clear
  | reload =>
    have hNext : (s.reload mtmd).2 = s' := congrArg Prod.snd (some.inj hRun)
    rw [← hNext]
    rw [reload_eq h.hasMtmd]
    exact h
  | keepFirst n =>
    have hNext : (s.keepFirst n).2 = s' := congrArg Prod.snd (some.inj hRun)
    rw [← hNext]
    exact h.keepFirst hGiven hSound

/-- In a run whose cuts and appends are sound, every value is well formed, and the truncations
and appends that keep their promise are the sound ones. -/
theorem run_inSync (h : Run (ServerTokens.WellFormed mtmd) (step mtmd) (Sound mtmd) s) :
    s.WellFormed mtmd ∧ ∀ op : TokensOp χ, op.Given mtmd s → (op.Keeps mtmd s ↔ op.Sound mtmd s) := by
  have hFormed : s.WellFormed mtmd :=
    h.invariant (fun _ hInit => hInit) fun _ _ _ hInv hSound hStep =>
      step_wellFormed hInv hSound hStep
  exact ⟨hFormed, fun op hGiven => keeps_iff hFormed hGiven⟩

/-- Chunks of some number of tokens. -/
def countedChunks : Mtmd UInt8 where
  textTokens _ := none
  nTokens c := c.toNat
  id _ := "image"
  copy c := c
  save c := [c]
  load bytes := bytes.head?
  copy_eq _ := rfl
  load_save _ := rfl
  save_ne_nil _ := List.cons_ne_nil _ _

/-- Two images of two tokens. -/
def twoImages : ServerTokens UInt8 :=
  ⟨true, ⟨[(0, 2), (2, 2)], by decide⟩, List.replicate 4 tokenNull⟩

theorem twoImages_wellFormed : twoImages.WellFormed countedChunks where
  hasMtmd := rfl
  null_iff := by unfold ServerTokens.Covers; decide
  within := by decide
  disjoint := by decide

/-- A cut after the first token of an image goes through, a cut between the images throws, and the
value cannot be appended. -/
theorem twoImages_outOfSync :
    twoImages.WellFormed countedChunks ∧
      (twoImages.Inside countedChunks 1 ∧ (twoImages.keepFirst 1).1 = .ok () ∧
        ¬(twoImages.keepFirst 1).2.WellFormed countedChunks) ∧
      (¬twoImages.Inside countedChunks 2 ∧ (twoImages.keepFirst 2).1 = .error "Chunk not found") ∧
      ¬(ServerTokens.ofTokens [7] true).Appends countedChunks twoImages := by
  refine ⟨twoImages_wellFormed, ⟨⟨(0, 2), by decide, by decide, by decide⟩, by decide, ?_⟩,
    ⟨?_, by decide⟩, ?_⟩
  · intro hFormed
    have hEnd := (hFormed.within (0, 2) (by decide)).2
    exact absurd hEnd (by decide)
  · unfold ServerTokens.Inside
    decide
  rintro ⟨fuel, s', hEq, -⟩
  obtain ⟨s'', hErr, -⟩ := append_of_media (s := ofTokens [7] true)
    twoImages_wellFormed (by decide) fuel
  cases hEq

/-- A token and a third image behind the two, and a cut between the two. -/
theorem twoImages_inSync : ∃ s : ServerTokens UInt8, s.tokens = List.replicate 4 tokenNull ++ [7] ∧
    s.WellFormed countedChunks ∧ ∀ op : TokensOp UInt8, op.Given countedChunks s →
      (op.Keeps countedChunks s ↔ op.Sound countedChunks s) := by
  let s₁ := (twoImages.pushBack 7).2
  let s₂ := (s₁.pushChunk countedChunks 2).2
  have hCut : s₂.CutSound countedChunks 5 := ⟨by decide, by decide⟩
  have h₁ : Run (ServerTokens.WellFormed countedChunks) (step countedChunks) (Sound countedChunks) s₁ :=
    .step (pushBack 7) (.start twoImages_wellFormed) trivial ⟨trivial, 0, _, rfl⟩
  have h₂ := h₁.step (pushChunk 2) trivial ⟨show 0 < countedChunks.nTokens 2 by decide, 0, _, rfl⟩
  exact ⟨(s₂.keepFirst 5).2, by decide,
    run_inSync (h₂.step (keepFirst 5) hCut ⟨show 5 ≤ s₂.size by decide, 0, _, rfl⟩)⟩

end TokensOp

end Beellama.Ports
