import Beellama.Ports.PromptCache
import Beellama.Ports.ServerTokensSync
import Beellama.Verified.UniqueCount

/-!
# The prompt cache is a bounded antichain

`get_common_prefix` decides, for well-formed prompts, whether one is a prefix of the other.  An admitted
prompt is not a prefix of an entry, the entries that are prefixes of it are removed, and the oldest
entries go until the bytes fit.  The admitted entry alone always fits, so it stays.
-/

namespace Beellama.Ports

open Beellama.Verified List OrderedMap

/-! ## Prefixes -/

namespace ServerTokens

variable {χ : Type} {mtmd : Mtmd χ} {a b s : ServerTokens χ} {flag : Bool} {i n : Nat}

/-- A prompt of a server with or without media support. -/
structure Valid (mtmd : Mtmd χ) (flag : Bool) (s : ServerTokens χ) : Prop where
  hasMtmd : s.hasMtmd = flag
  formed : flag = true → s.WellFormed mtmd
  plain : flag = false → s.media.entries = []

/-- The chunk of an entry starts at the same index of another prompt. -/
def SameChunk (mtmd : Mtmd χ) (b : ServerTokens χ) (e : Nat × χ) : Prop :=
  ∃ c, b.media.find e.1 = some c ∧ mtmd.id c = mtmd.id e.2 ∧ mtmd.nTokens c = mtmd.nTokens e.2

/-- The tokens are a prefix of those of the other prompt, with the same media chunks. -/
def IsPrefix (mtmd : Mtmd χ) (a b : ServerTokens χ) : Prop :=
  a.tokens <+: b.tokens ∧ ∀ e ∈ a.media.entries, SameChunk mtmd b e

/-- Two prompts agree up to an index. -/
structure AgreeTo (mtmd : Mtmd χ) (a b : ServerTokens χ) (n : Nat) : Prop where
  tokens : ∀ i < n, a.tokenAt i = b.tokenAt i
  media : ∀ e ∈ a.media.entries, e.1 < n → SameChunk mtmd b e

theorem prefix_iff : a.tokens <+: b.tokens ↔
    a.size ≤ b.size ∧ ∀ i < a.size, a.tokenAt i = b.tokenAt i := by
  constructor
  · intro hPrefix
    refine ⟨hPrefix.length_le, fun i hi => ?_⟩
    obtain ⟨rest, hRest⟩ := hPrefix
    unfold tokenAt
    rw [← hRest, getD_append _ _ _ _ hi]
  rintro ⟨hLe, hTokens⟩
  refine prefix_iff_getElem?.mpr fun i hi => ?_
  have hAt := hTokens i hi
  unfold tokenAt at hAt
  unfold size at hLe
  rw [getD_eq_getElem _ _ hi, getD_eq_getElem _ _ (by omega)] at hAt
  rw [getElem?_eq_getElem (by omega), hAt]

theorem Valid.starts_before (h : s.Valid mtmd flag) {e : Nat × χ} (he : e ∈ s.media.entries) :
    e.1 < s.size := by
  cases flag with
  | true =>
    have hWithin := (h.formed rfl).within e he
    omega
  | false =>
    rw [h.plain rfl] at he
    cases he

theorem Valid.isPrefix_iff (h : a.Valid mtmd flag) :
    a.IsPrefix mtmd b ↔ a.size ≤ b.size ∧ AgreeTo mtmd a b a.size := by
  unfold IsPrefix
  rw [prefix_iff]
  constructor
  · rintro ⟨⟨hLe, hTokens⟩, hMedia⟩
    exact ⟨hLe, hTokens, fun e he _ => hMedia e he⟩
  · rintro ⟨hLe, hAgree⟩
    exact ⟨⟨hLe, hAgree.tokens⟩, fun e he => hAgree.media e he (h.starts_before he)⟩

/-- What a common prefix is: the prompts agree so far, and not any further. -/
structure CommonPrefix (mtmd : Mtmd χ) (a b : ServerTokens χ) (n : Nat) : Prop where
  le : n ≤ min a.size b.size
  agree : AgreeTo mtmd a b n
  maximal : n < min a.size b.size → ¬AgreeTo mtmd a b (n + 1)

theorem AgreeTo.mono {m : Nat} (h : AgreeTo mtmd a b m) (hLe : n ≤ m) : AgreeTo mtmd a b n where
  tokens i hi := h.tokens i (by omega)
  media e he hBefore := h.media e he (by omega)

theorem CommonPrefix.eq_size_iff (h : CommonPrefix mtmd a b n) (hValid : a.Valid mtmd flag) :
    n = a.size ↔ a.IsPrefix mtmd b := by
  rw [hValid.isPrefix_iff]
  have hLe := h.le
  constructor
  · rintro rfl
    exact ⟨by omega, h.agree⟩
  rintro ⟨hSize, hAgree⟩
  by_contra hNe
  exact h.maximal (by omega) (hAgree.mono (by omega))

theorem covers_iff {k : Nat} {c : χ} :
    Covers mtmd (k, c) i ↔ k ≤ i ∧ i < k + mtmd.nTokens c := Iff.rfl

theorem WellFormed.starts_of_null (h : s.WellFormed mtmd) (hi : i < s.size)
    (hBoundary : ¬s.Inside mtmd i) (hNull : s.tokenAt i = tokenNull) :
    ∃ c, s.media.find i = some c := by
  obtain ⟨e, he, hCover⟩ := (h.null_iff i hi).mp hNull
  have hStart : e.1 = i := by
    by_contra hNe
    unfold Covers at hCover
    exact hBoundary ⟨e, he, by omega, hCover.2⟩
  refine ⟨e.2, mem_entries.mp ?_⟩
  rw [← hStart]
  exact he

theorem WellFormed.boundary_succ (h : s.WellFormed mtmd) (hi : i < s.size)
    (hText : s.tokenAt i ≠ tokenNull) : ¬s.Inside mtmd (i + 1) := by
  rintro ⟨e, he, hBefore, hAfter⟩
  exact hText ((h.null_iff i hi).mpr ⟨e, he, by omega, by omega⟩)

theorem WellFormed.boundary_chunk (h : s.WellFormed mtmd) {c : χ}
    (hFind : s.media.find i = some c) :
    ¬s.Inside mtmd (i + mtmd.nTokens c) := by
  rintro ⟨e, he, hBefore, hAfter⟩
  have hMem := mem_entries.mpr hFind
  have hPos : 0 < mtmd.nTokens c := (h.within _ hMem).1
  have hLast : Covers mtmd (i, c) (i + mtmd.nTokens c - 1) :=
    covers_iff.mpr ⟨by omega, by omega⟩
  have hSame : e = (i, c) := h.covers_unique he hMem ⟨by omega, by omega⟩ hLast
  rw [hSame] at hAfter
  exact lt_irrefl _ hAfter

theorem commonPrefixFrom_spec (ha : a.WellFormed mtmd) (hb : b.WellFormed mtmd) {turns : Nat}
    (hTurns : min a.size b.size ≤ turns + i) (hi : i ≤ min a.size b.size)
    (hAgree : AgreeTo mtmd a b i) (hA : ¬a.Inside mtmd i) (hB : ¬b.Inside mtmd i) :
    ∃ n, commonPrefixFrom mtmd a b (min a.size b.size) turns i = .ok n ∧
      CommonPrefix mtmd a b n := by
  induction turns generalizing i with
  | zero =>
    have hEnd : i = min a.size b.size := by omega
    rw [hEnd] at hAgree
    exact ⟨_, rfl, Nat.le_refl _, hAgree, fun hLt => absurd hLt (lt_irrefl _)⟩
  | succ turns ih =>
    unfold commonPrefixFrom
    by_cases hEnd : min a.size b.size ≤ i
    · have hEq : i = min a.size b.size := by omega
      rw [if_pos hEnd]
      rw [hEq] at hAgree
      exact ⟨_, rfl, Nat.le_refl _, hAgree, fun hLt => absurd hLt (lt_irrefl _)⟩
    rw [if_neg hEnd]
    have hiA : i < a.size := by omega
    have hiB : i < b.size := by omega
    by_cases hNull : a.tokenAt i = tokenNull ∧ b.tokenAt i = tokenNull
    · obtain ⟨ca, hFindA⟩ := ha.starts_of_null hiA hA hNull.1
      obtain ⟨cb, hFindB⟩ := hb.starts_of_null hiB hB hNull.2
      have hMemA := mem_entries.mpr hFindA
      have hMemB := mem_entries.mpr hFindB
      rw [if_pos hNull]
      unfold findChunk
      rw [hFindA, hFindB]
      change ∃ n, (if mtmd.id ca = mtmd.id cb ∧ mtmd.nTokens ca = mtmd.nTokens cb then _
        else _) = _ ∧ _
      by_cases hSame : mtmd.id ca = mtmd.id cb ∧ mtmd.nTokens ca = mtmd.nTokens cb
      · have hPos : 0 < mtmd.nTokens ca := (ha.within _ hMemA).1
        have hEndA : i + mtmd.nTokens ca ≤ a.size := (ha.within _ hMemA).2
        have hEndB : i + mtmd.nTokens cb ≤ b.size := (hb.within _ hMemB).2
        rw [if_pos hSame, if_neg (by omega)]
        refine ih (by omega) (by omega) ⟨fun j hj => ?_, fun e he hBefore => ?_⟩
          (ha.boundary_chunk hFindA) (by rw [hSame.2]; exact hb.boundary_chunk hFindB)
        · by_cases hOld : j < i
          · exact hAgree.tokens j hOld
          · rw [ha.isNull hMemA (covers_iff.mpr ⟨by omega, by omega⟩),
              hb.isNull hMemB (covers_iff.mpr ⟨by omega, by omega⟩)]
        by_cases hOld : e.1 < i
        · exact hAgree.media e he hOld
        have hPosE := (ha.within e he).1
        have hEntry : e = (i, ca) := ha.covers_unique he hMemA
          (show Covers mtmd e e.1 from ⟨Nat.le_refl _, by omega⟩)
          (covers_iff.mpr ⟨by omega, by omega⟩)
        rw [hEntry]
        exact ⟨cb, hFindB, hSame.1.symm, hSame.2.symm⟩
      rw [if_neg hSame]
      refine ⟨i, rfl, by omega, hAgree, fun _ hNext => hSame ?_⟩
      obtain ⟨c, hFind, hId, hCount⟩ := hNext.media _ hMemA (Nat.lt_succ_self i)
      rw [hFindB] at hFind
      cases hFind
      exact ⟨hId.symm, hCount.symm⟩
    rw [if_neg hNull]
    by_cases hSame : a.tokenAt i = b.tokenAt i
    · have hText : a.tokenAt i ≠ tokenNull := fun hA' => hNull ⟨hA', hSame ▸ hA'⟩
      rw [if_pos hSame]
      refine ih (by omega) (by omega) ⟨fun j hj => ?_, fun e he hBefore => ?_⟩
        (ha.boundary_succ hiA hText) (hb.boundary_succ hiB (hSame ▸ hText))
      · rcases Nat.lt_succ_iff_lt_or_eq.mp hj with hOld | rfl
        · exact hAgree.tokens j hOld
        · exact hSame
      rcases Nat.lt_succ_iff_lt_or_eq.mp hBefore with hOld | hStart
      · exact hAgree.media e he hOld
      · have hPos := (ha.within e he).1
        exact absurd (ha.isNull he (show Covers mtmd e i from ⟨by omega, by omega⟩)) hText
    rw [if_neg hSame]
    exact ⟨i, rfl, by omega, hAgree, fun _ hNext =>
      hSame (hNext.tokens i (Nat.lt_succ_self i))⟩

theorem firstDifference_spec (l m : List Int32) :
    firstDifference l m ≤ min l.length m.length ∧
      (∀ i < firstDifference l m, l.getD i 0 = m.getD i 0) ∧
      (firstDifference l m < min l.length m.length →
        l.getD (firstDifference l m) 0 ≠ m.getD (firstDifference l m) 0) := by
  induction l generalizing m with
  | nil => exact ⟨Nat.zero_le _, fun i hi => absurd hi (Nat.not_lt_zero i), fun h => by
      exact absurd h (Nat.not_lt_zero _)⟩
  | cons x l ih =>
    cases m with
    | nil => exact ⟨Nat.zero_le _, fun i hi => absurd hi (Nat.not_lt_zero i), fun h => by
        exact absurd h (Nat.not_lt_zero _)⟩
    | cons y m =>
      obtain ⟨hLe, hSame, hDiffers⟩ := ih m
      unfold firstDifference
      rw [length_cons, length_cons]
      by_cases hHead : x = y
      · rw [if_pos hHead]
        refine ⟨by omega, fun i hi => ?_, fun hLt => hDiffers (by omega)⟩
        cases i with
        | zero => exact hHead
        | succ i => exact hSame i (by omega)
      · rw [if_neg hHead]
        exact ⟨Nat.zero_le _, fun i hi => absurd hi (Nat.not_lt_zero i), fun _ => hHead⟩

/-- `get_common_prefix` of two prompts of one server. -/
theorem Valid.commonPrefix (ha : a.Valid mtmd flag) (hb : b.Valid mtmd flag) :
    ∃ n, a.getCommonPrefix mtmd b = .ok n ∧ CommonPrefix mtmd a b n := by
  unfold getCommonPrefix
  cases flag with
  | true =>
    rw [if_pos ha.hasMtmd]
    refine commonPrefixFrom_spec (ha.formed rfl) (hb.formed rfl) (Nat.le_refl _) (Nat.zero_le _)
      ⟨fun i hi => absurd hi (Nat.not_lt_zero i), fun e _ hi => absurd hi (Nat.not_lt_zero _)⟩ ?_ ?_
    · rintro ⟨e, -, hBefore, -⟩
      exact absurd hBefore (Nat.not_lt_zero _)
    · rintro ⟨e, -, hBefore, -⟩
      exact absurd hBefore (Nat.not_lt_zero _)
  | false =>
    obtain ⟨hLe, hSame, hDiffers⟩ := firstDifference_spec a.tokens b.tokens
    rw [if_neg (by rw [ha.hasMtmd]; decide)]
    refine ⟨_, rfl, hLe, ⟨hSame, fun e he => ?_⟩, fun hLt hNext => ?_⟩
    · rw [ha.plain rfl] at he
      cases he
    · exact hDiffers hLt (hNext.tokens _ (Nat.lt_succ_self _))

theorem AgreeTo.symm (h : AgreeTo mtmd a b n) (ha : a.Valid mtmd flag) (hb : b.Valid mtmd flag)
    (hn : n ≤ min a.size b.size) : AgreeTo mtmd b a n := by
  refine ⟨fun i hi => (h.tokens i hi).symm, fun e he hBefore => ?_⟩
  cases flag with
  | false =>
    rw [hb.plain rfl] at he
    cases he
  | true =>
    have hA := ha.formed rfl
    have hB := hb.formed rfl
    have hPos := (hB.within e he).1
    have hStart : Covers mtmd e e.1 := ⟨Nat.le_refl _, by omega⟩
    have hNull : a.tokenAt e.1 = tokenNull := by
      rw [h.tokens e.1 hBefore]
      exact hB.isNull he hStart
    obtain ⟨e', he', hCover⟩ := (hA.null_iff e.1 (by omega)).mp hNull
    obtain ⟨c, hFind, hId, hCount⟩ := h.media e' he' (Nat.lt_of_le_of_lt hCover.1 hBefore)
    have hSame : (e'.1, c) = e := hB.covers_unique (mem_entries.mpr hFind) he
      (covers_iff.mpr ⟨hCover.1, by rw [hCount]; exact hCover.2⟩) hStart
    refine ⟨e'.2, ?_, ?_, ?_⟩
    · rw [← hSame]
      exact mem_entries.mp he'
    · rw [← hSame]
      exact hId.symm
    · rw [← hSame]
      exact hCount.symm

theorem CommonPrefix.symm (h : CommonPrefix mtmd a b n) (ha : a.Valid mtmd flag)
    (hb : b.Valid mtmd flag) : CommonPrefix mtmd b a n := by
  have hLe := h.le
  refine ⟨by omega, h.agree.symm ha hb hLe, fun hLt hNext => ?_⟩
  exact h.maximal (by omega) (hNext.symm hb ha (by omega))

end ServerTokens

/-! ## Accounting -/

namespace PromptCache

variable {χ : Type} {mtmd : Mtmd χ} {flag : Bool} {c c' : PromptCache χ} {limit : Nat}

/-- The buffers of a prompt that hold something, with their sizes. -/
def buffersOf (s : CacheState χ) : List (Nat × Nat) :=
  ((s.prompt.checkpoints.flatMap fun ckpt => [ckpt.dataTgt, ckpt.dataDft]).filter
    (·.bytes ≠ [])).map fun b => (b.storageId, b.bytes.length)

def allBuffers (states : List (CacheNode χ)) : List (Nat × Nat) :=
  states.flatMap fun node => buffersOf node.state

/-- The bytes of an entry that are not shared. -/
def ownSize (s : CacheState χ) : Nat :=
  s.data.size + (s.prompt.checkpoints.map (·.dataSpec.length)).sum

theorem accountBuffer_eq (acc : List Nat × Nat) (b : CheckpointBuffer) :
    accountBuffer acc b =
      countOnce acc (([b].filter (·.bytes ≠ [])).map fun b => (b.storageId, b.bytes.length)) := by
  unfold accountBuffer
  by_cases hEmpty : b.bytes = []
  · rw [if_neg fun h => h.1 hEmpty, filter_cons_of_neg (by simpa using hEmpty)]
    rfl
  rw [filter_cons_of_pos (by simpa using hEmpty)]
  by_cases hSeen : b.storageId ∈ acc.1
  · rw [if_neg fun h => h.2 hSeen]
    exact (if_pos hSeen).symm
  · rw [if_pos ⟨hEmpty, hSeen⟩]
    exact (if_neg hSeen).symm

theorem accountCheckpoints_eq (ckpts : List PromptCheckpoint) (acc : List Nat × Nat) :
    ckpts.foldl accountCheckpoint acc =
      let shared := countOnce acc (((ckpts.flatMap fun ckpt => [ckpt.dataTgt, ckpt.dataDft]).filter
        (·.bytes ≠ [])).map fun b => (b.storageId, b.bytes.length))
      (shared.1, shared.2 + (ckpts.map (·.dataSpec.length)).sum) := by
  induction ckpts generalizing acc with
  | nil => rfl
  | cons ckpt ckpts ih =>
    have hFirst : ([ckpt.dataTgt, ckpt.dataDft] ++
        ckpts.flatMap fun ckpt => [ckpt.dataTgt, ckpt.dataDft]) =
        [ckpt.dataTgt] ++ ([ckpt.dataDft] ++
          ckpts.flatMap fun ckpt => [ckpt.dataTgt, ckpt.dataDft]) := rfl
    rw [foldl_cons, ih, flatMap_cons, hFirst, filter_append, filter_append,
      map_append, map_append, countOnce_append, countOnce_append, ← accountBuffer_eq,
      ← accountBuffer_eq]
    unfold accountCheckpoint
    dsimp only
    rw [countOnce_add, map_cons, sum_cons, Nat.add_assoc]

theorem accountState_eq (acc : List Nat × Nat) (s : CacheState χ) :
    accountState acc s =
      ((countOnce acc (buffersOf s)).1, (countOnce acc (buffersOf s)).2 + ownSize s) := by
  unfold accountState
  rw [accountCheckpoints_eq]
  dsimp only
  rw [countOnce_add]
  unfold buffersOf ownSize
  rw [Nat.add_assoc]

/-- Shared buffers once, everything else in full. -/
theorem sizeOfStates_eq (states : List (CacheNode χ)) :
    sizeOfStates states = (countOnce ([], 0) (allBuffers states)).2 +
      (states.map fun node => ownSize node.state).sum := by
  have hFold : ∀ acc : List Nat × Nat,
      states.foldl (fun acc node => accountState acc node.state) acc =
        ((countOnce acc (allBuffers states)).1, (countOnce acc (allBuffers states)).2 +
          (states.map fun node => ownSize node.state).sum) := by
    induction states with
    | nil => exact fun acc => rfl
    | cons node states ih =>
      intro acc
      unfold allBuffers at ih ⊢
      rw [foldl_cons, accountState_eq, ih, flatMap_cons, countOnce_append, countOnce_add,
        map_cons, sum_cons, Nat.add_assoc]
  unfold sizeOfStates
  rw [hFold]

theorem bufferSizes_sum (ckpts : List PromptCheckpoint) :
    ((((ckpts.flatMap fun ckpt => [ckpt.dataTgt, ckpt.dataDft]).filter (·.bytes ≠ [])).map
        fun b => (b.storageId, b.bytes.length)).map Prod.snd).sum +
      (ckpts.map (·.dataSpec.length)).sum = (ckpts.map PromptCheckpoint.size).sum := by
  have hNonempty : ∀ bufs : List CheckpointBuffer,
      (((bufs.filter (·.bytes ≠ [])).map fun b => (b.storageId, b.bytes.length)).map
        Prod.snd).sum = (bufs.map (·.bytes.length)).sum := by
    intro bufs
    induction bufs with
    | nil => rfl
    | cons b bufs ih =>
      by_cases hEmpty : b.bytes = []
      · rw [filter_cons_of_neg (by simpa using hEmpty), ih, map_cons, sum_cons,
          hEmpty, length_nil, Nat.zero_add]
      · rw [filter_cons_of_pos (by simpa using hEmpty), map_cons, map_cons,
          sum_cons, ih, map_cons, sum_cons]
  rw [hNonempty]
  induction ckpts with
  | nil => rfl
  | cons ckpt ckpts ih =>
    rw [flatMap_cons, map_append, sum_append]
    simp only [map_cons, map_nil, sum_cons, sum_nil]
    rw [← ih]
    unfold PromptCheckpoint.size
    omega

theorem sizeOfStates_singleton (node : CacheNode χ) :
    sizeOfStates [node] ≤ node.state.accountedSize := by
  have hShared := countOnce_le ([], 0) (buffersOf node.state)
  have hSum := bufferSizes_sum node.state.prompt.checkpoints
  have hSize : sizeOfStates [node] =
      (countOnce ([], 0) (buffersOf node.state)).2 + ownSize node.state := by
    rw [sizeOfStates_eq]
    unfold allBuffers
    rw [flatMap_singleton, map_singleton, sum_singleton]
  rw [hSize]
  unfold CacheState.accountedSize ownSize
  unfold buffersOf at hShared ⊢
  omega

variable {states kept : List (CacheNode χ)}

/-- Fewer entries have not more bytes, as long as one storage has one content. -/
theorem sizeOfStates_mono {f : Nat → Nat}
    (h : SameSizes f (allBuffers states)) (hSub : kept.Sublist states) :
    sizeOfStates kept ≤ sizeOfStates states := by
  rw [sizeOfStates_eq, sizeOfStates_eq]
  have hBuffers : allBuffers kept ⊆ allBuffers states := by
    intro x hx
    obtain ⟨node, hNode, hMem⟩ := mem_flatMap.mp hx
    exact mem_flatMap.mpr ⟨node, hSub.subset hNode, hMem⟩
  exact Nat.add_le_add (countOnce_mono h hBuffers) ((hSub.map _).sum_le_sum fun _ _ => Nat.zero_le _)

/-! ### Eviction -/

theorem popWhile_suffix (figure : List (CacheNode χ) → Nat) (states : List (CacheNode χ)) :
    popWhile figure limit states <:+ states := by
  induction states with
  | nil => exact suffix_refl _
  | cons node rest ih =>
    unfold popWhile
    split
    · exact ih.trans (suffix_cons _ _)
    · exact suffix_refl _

theorem popWhile_le (states : List (CacheNode χ)) :
    sizeOfStates (popWhile sizeOfStates limit states) ≤ limit := by
  induction states with
  | nil => exact Nat.zero_le _
  | cons node rest ih =>
    unfold popWhile
    split
    · exact ih
    · exact not_lt.mp ‹_›

/-- An entry at the end that fits alone is not evicted. -/
theorem popWhile_last {node : CacheNode χ} (hFits : sizeOfStates [node] ≤ limit)
    (states : List (CacheNode χ)) :
    ∃ kept, popWhile sizeOfStates limit (states ++ [node]) = kept ++ [node] := by
  induction states with
  | nil =>
    refine ⟨[], ?_⟩
    exact if_neg (not_lt.mpr hFits)
  | cons first rest ih =>
    change ∃ kept, (if limit < sizeOfStates (first :: (rest ++ [node])) then _ else _) = _
    split
    · exact ih
    · exact ⟨first :: rest, rfl⟩

/-! ## Admission -/

theorem alreadyCached_spec {candidate : ServerTokens χ}
    (hStates : ∀ node ∈ states, node.state.prompt.tokens.Valid mtmd flag)
    (hCandidate : candidate.Valid mtmd flag) :
    ∃ r, alreadyCached mtmd candidate states = .ok r ∧
      (r = true ↔ ∃ node ∈ states, candidate.IsPrefix mtmd node.state.prompt.tokens) := by
  induction states with
  | nil => exact ⟨false, rfl, by simp⟩
  | cons node rest ih =>
    have hNode := hStates node (by simp)
    obtain ⟨n, hPrefix, hCommon⟩ := hNode.commonPrefix hCandidate
    have hIff := (hCommon.symm hNode hCandidate).eq_size_iff hCandidate
    obtain ⟨r, hRest, hRestIff⟩ := ih fun x hx => hStates x (mem_cons_of_mem _ hx)
    unfold alreadyCached
    rw [hPrefix]
    change ∃ r, (if n = candidate.size then _ else _) = _ ∧ _
    have hEither : (∃ x ∈ node :: rest, candidate.IsPrefix mtmd x.state.prompt.tokens) ↔ _ :=
      exists_mem_cons_iff _ _ _
    rw [hEither]
    by_cases hWhole : n = candidate.size
    · rw [if_pos hWhole]
      exact ⟨true, rfl, iff_of_true rfl (Or.inl (hIff.mp hWhole))⟩
    · rw [if_neg hWhole, hRest]
      exact ⟨r, rfl, by rw [hRestIff, or_iff_right (mt hIff.mpr hWhole)]⟩

theorem removeObsolete_spec {admitted : ServerTokens χ}
    (hStates : ∀ node ∈ states, node.state.prompt.tokens.Valid mtmd flag)
    (hAdmitted : admitted.Valid mtmd flag) :
    ∃ kept, removeObsolete mtmd admitted states = .ok kept ∧ kept.Sublist states ∧
      ∀ node ∈ kept, ¬node.state.prompt.tokens.IsPrefix mtmd admitted := by
  induction states with
  | nil => exact ⟨[], rfl, List.Sublist.refl _, fun node hNode => by cases hNode⟩
  | cons node rest ih =>
    have hNode := hStates node (by simp)
    obtain ⟨n, hPrefix, hCommon⟩ := hNode.commonPrefix hAdmitted
    obtain ⟨kept, hRest, hSub, hKept⟩ := ih fun x hx => hStates x (mem_cons_of_mem _ hx)
    unfold removeObsolete
    rw [hPrefix, hRest]
    change ∃ l, Except.ok (if n = node.state.prompt.tokens.size then kept else node :: kept) = _ ∧ _
    by_cases hWhole : n = node.state.prompt.tokens.size
    · rw [if_pos hWhole]
      exact ⟨kept, rfl, hSub.cons _, hKept⟩
    rw [if_neg hWhole]
    exact ⟨node :: kept, rfl, hSub.cons_cons _, forall_mem_cons.mpr
      ⟨mt (hCommon.eq_size_iff hNode).mpr hWhole, hKept⟩⟩

/-- Neither of two entries contains the other. -/
def Apart (mtmd : Mtmd χ) (x y : CacheNode χ) : Prop :=
  ¬x.state.prompt.tokens.IsPrefix mtmd y.state.prompt.tokens ∧
    ¬y.state.prompt.tokens.IsPrefix mtmd x.state.prompt.tokens

/-- What holds of a cache with a limit. -/
structure Invariant (mtmd : Mtmd χ) (flag : Bool) (c : PromptCache χ) : Prop where
  limited : 0 < c.limitSize
  valid : ∀ node ∈ c.states, node.state.prompt.tokens.Valid mtmd flag
  antichain : c.states.Pairwise (Apart mtmd)
  /-- a storage has one content -/
  shared : ∃ f, SameSizes f (allBuffers c.states)
  bounded : c.accountedSize ≤ c.limitSize
  addresses : (c.states.map CacheNode.address).Nodup
  fresh : ∀ node ∈ c.states, node.address < c.nextAddress

variable (h : c.Invariant mtmd flag)

include h

theorem Invariant.sublist (hSub : states.Sublist c.states) :
    ({ c with states } : PromptCache χ).Invariant mtmd flag := by
  obtain ⟨f, hShared⟩ := h.shared
  refine ⟨h.limited, fun node hNode => h.valid node (hSub.subset hNode), h.antichain.sublist hSub,
    ⟨f, fun x hx => ?_⟩, (sizeOfStates_mono hShared hSub).trans h.bounded,
    h.addresses.sublist (hSub.map _), fun node hNode => h.fresh node (hSub.subset hNode)⟩
  obtain ⟨node, hNode, hMem⟩ := mem_flatMap.mp hx
  exact hShared x (mem_flatMap.mpr ⟨node, hSub.subset hNode, hMem⟩)

theorem Invariant.counters {c' : PromptCache χ} (hStates : c'.states = c.states)
    (hLimit : c'.limitSize = c.limitSize)
    (hNext : c'.nextAddress = c.nextAddress) : c'.Invariant mtmd flag := by
  obtain ⟨states, limitSize, limitTokens, _, _, _, _, _, _, nextAddress⟩ := c'
  subst hStates hLimit hNext
  exact ⟨h.limited, h.valid, h.antichain, h.shared, h.bounded, h.addresses, h.fresh⟩

/-- An insert throws nothing; a rejected one leaves the entries, and an admitted one is in the cache
under its address. -/
def Inserts (mtmd : Mtmd χ) (flag : Bool) (c : PromptCache χ) (candidate : CacheState χ)
    (result : Except String (Option Nat × PromptCache χ)) : Prop :=
  ∃ entry c', result = .ok (entry, c') ∧ c'.Invariant mtmd flag ∧
    (entry = none → c'.states = c.states) ∧
    ∀ address, entry = some address → ∃ node ∈ c'.states, node.address = address ∧
      node.state = candidate ∧ ∀ other ∈ c'.states, other.address = address → other = node

/-- A candidate is a prompt of the server, and storages that it shares with the entries have
the same content. -/
structure Admissible (mtmd : Mtmd χ) (flag : Bool) (c : PromptCache χ) (candidate : CacheState χ) :
    Prop where
  valid : candidate.prompt.tokens.Valid mtmd flag
  shared : ∃ f, SameSizes f (allBuffers c.states ++ buffersOf candidate)

variable {candidate : CacheState χ}

theorem Invariant.published (hCandidate : c.Admissible mtmd flag candidate)
    (hNew : ¬∃ node ∈ c.states, candidate.prompt.tokens.IsPrefix mtmd node.state.prompt.tokens)
    (hSub : kept.Sublist c.states)
    (hKept : ∀ node ∈ kept, ¬node.state.prompt.tokens.IsPrefix mtmd candidate.prompt.tokens)
    (hStates : states.Sublist (kept ++ [⟨c.nextAddress, candidate⟩]))
    (hBounded : sizeOfStates states ≤ c.limitSize) {c' : PromptCache χ}
    (hStates' : c'.states = states) (hLimit : c'.limitSize = c.limitSize)
    (hNext : c'.nextAddress = c.nextAddress + 1) : c'.Invariant mtmd flag := by
  have hMem : ∀ node ∈ states, node ∈ c.states ∨ node = ⟨c.nextAddress, candidate⟩ := by
    intro node hNode
    rcases mem_append.mp (hStates.subset hNode) with hOld | hLast
    · exact Or.inl (hSub.subset hOld)
    · exact Or.inr (mem_singleton.mp hLast)
  obtain ⟨f, hShared⟩ := hCandidate.shared
  refine ⟨by rw [hLimit]; exact h.limited, ?_, ?_, ⟨f, ?_⟩, ?_, ?_, ?_⟩
  · intro node hNode
    rw [hStates'] at hNode
    rcases hMem node hNode with hOld | rfl
    · exact h.valid node hOld
    · exact hCandidate.valid
  · rw [hStates']
    refine (pairwise_append.mpr ⟨h.antichain.sublist hSub, pairwise_singleton _ _,
      fun x hx y hy => ?_⟩).sublist hStates
    rw [mem_singleton.mp hy]
    exact ⟨hKept x hx, fun hPrefix => hNew ⟨x, hSub.subset hx, hPrefix⟩⟩
  · intro x hx
    rw [hStates'] at hx
    obtain ⟨node, hNode, hBuffer⟩ := mem_flatMap.mp hx
    refine hShared x (mem_append.mpr ?_)
    rcases hMem node hNode with hOld | rfl
    · exact Or.inl (mem_flatMap.mpr ⟨node, hOld, hBuffer⟩)
    · exact Or.inr hBuffer
  · unfold accountedSize
    rw [hStates', hLimit]
    exact hBounded
  · rw [hStates']
    refine List.Nodup.sublist (hStates.map _) ?_
    rw [map_append]
    refine nodup_append.mpr ⟨h.addresses.sublist (hSub.map _), nodup_singleton _, ?_⟩
    rintro x hx y hy rfl
    obtain ⟨node, hNode, hAddress⟩ := mem_map.mp hx
    have hFresh := h.fresh node (hSub.subset hNode)
    rw [hAddress, mem_singleton.mp hy] at hFresh
    exact lt_irrefl _ hFresh
  intro node hNode
  rw [hStates'] at hNode
  rw [hNext]
  rcases hMem node hNode with hOld | rfl
  · exact Nat.lt_succ_of_lt (h.fresh node hOld)
  · exact Nat.lt_succ_self _

theorem admit_spec (hCandidate : c.Admissible mtmd flag candidate) (fits : Bool) :
    Inserts mtmd flag c candidate (c.admitEntry mtmd candidate fits) := by
  have hFailed : ∀ attempts failures, ({ c with
      admissionAttempts := attempts
      admissionFailures := failures } : PromptCache χ).Invariant mtmd flag :=
    fun _ _ => h.counters rfl rfl rfl
  obtain ⟨cached, hCached, hCachedIff⟩ := alreadyCached_spec h.valid hCandidate.valid
  obtain ⟨kept, hRemove, hSub, hKept⟩ := removeObsolete_spec h.valid hCandidate.valid
  unfold admitEntry
  dsimp only
  rw [hCached]
  change Inserts mtmd flag c candidate (if cached = true then _ else _)
  by_cases hAlready : cached = true
  · rw [if_pos hAlready]
    exact ⟨none, _, rfl, hFailed _ _, fun _ => rfl, fun _ hSome => by cases hSome⟩
  rw [if_neg hAlready]
  split
  · exact ⟨none, _, rfl, hFailed _ _, fun _ => rfl, fun _ hSome => by cases hSome⟩
  rename_i hSmall
  cases fits with
  | false => exact ⟨none, _, rfl, hFailed _ _, fun _ => rfl, fun _ hSome => by cases hSome⟩
  | true =>
    have hAlone : sizeOfStates [(⟨c.nextAddress, candidate⟩ : CacheNode χ)] ≤ c.limitSize := by
      refine (sizeOfStates_singleton _).trans (not_lt.mp fun hLarge => hSmall ?_)
      exact ⟨h.limited, Or.inr hLarge⟩
    obtain ⟨left, hLeft⟩ := popWhile_last hAlone kept
    have hNode : (⟨c.nextAddress, candidate⟩ : CacheNode χ) ∈
        popWhile sizeOfStates c.limitSize (kept ++ [⟨c.nextAddress, candidate⟩]) := by
      rw [hLeft]
      exact mem_append_right _ (mem_singleton_self _)
    have hInv : ({ c with
        states := popWhile sizeOfStates c.limitSize (kept ++ [⟨c.nextAddress, candidate⟩])
        admissionAttempts := c.admissionAttempts + 1
        admissionSuccesses := c.admissionSuccesses + 1
        nextAddress := c.nextAddress + 1 } : PromptCache χ).Invariant mtmd flag :=
      h.published hCandidate (mt hCachedIff.mpr hAlready) hSub hKept
        (popWhile_suffix sizeOfStates _).sublist (popWhile_le _) rfl rfl rfl
    rw [hRemove]
    change Inserts mtmd flag c candidate (.ok (some c.nextAddress, { c with
      states := if 0 < c.limitSize then _ else _
      admissionAttempts := _
      admissionSuccesses := _
      nextAddress := _ }))
    rw [if_pos h.limited]
    refine ⟨_, _, rfl, hInv, fun hNone => absurd hNone (Option.some_ne_none _),
      fun address hSome => ?_⟩
    cases hSome
    exact ⟨_, hNode, rfl, rfl, fun other hOther hAddress =>
      inj_on_of_nodup_map hInv.addresses hOther hNode hAddress⟩

/-! ## Runs -/

/-- The calls of a cache. -/
inductive Call (χ : Type)
  | insert (prompt : ServerPrompt χ) (data : PromptData) (fits : Bool)
  | alloc (prompt : ServerPrompt χ) (stateSizeTgt stateSizeDft : Nat) (dataFits fits : Bool)
  | erase (entry : Nat)
  | update (limitTokensCur : Nat)
  | load (prompt : ServerPrompt χ) (best : Option (CacheNode χ)) (io : RestoreIo)

def step (mtmd : Mtmd χ) : Call χ → PromptCache χ → PromptCache χ → Prop
  | .insert prompt data fits, c, c' => ∃ entry, c.insert mtmd prompt data fits = .ok (entry, c')
  | .alloc prompt stateSizeTgt stateSizeDft dataFits fits, c, c' =>
    ∃ entry, c.alloc mtmd prompt stateSizeTgt stateSizeDft dataFits fits = .ok (entry, c')
  | .erase entry, c, c' => c' = (c.erase entry).2
  | .update limitTokensCur, c, c' => c' = c.update limitTokensCur
  | .load prompt best io, c, c' => c' = (c.load mtmd prompt best io).2

/-- A prompt of the server is inserted. -/
def Given (mtmd : Mtmd χ) (flag : Bool) : Call χ → PromptCache χ → Prop
  | .insert prompt data _, c => c.Admissible mtmd flag ⟨prompt, data⟩
  | .alloc prompt stateSizeTgt stateSizeDft _ _, c =>
    c.Admissible mtmd flag
      ⟨prompt, ⟨List.replicate stateSizeTgt 0, List.replicate stateSizeDft 0, []⟩⟩
  | _, _ => True

omit h in
theorem clone_prompt (prompt : ServerPrompt χ) : prompt.clone mtmd = prompt := by
  unfold ServerPrompt.clone
  rw [ServerTokens.clone_eq]

theorem insert_spec {prompt : ServerPrompt χ} {data : PromptData}
    (hGiven : c.Admissible mtmd flag ⟨prompt, data⟩) (fits : Bool) :
    Inserts mtmd flag c ⟨prompt, data⟩ (c.insert mtmd prompt data fits) := by
  unfold insert
  rw [clone_prompt]
  exact admit_spec h hGiven fits

theorem Invariant.call {call : Call χ} (hGiven : Given mtmd flag call c)
    (hStep : step mtmd call c c') : c'.Invariant mtmd flag := by
  cases call with
  | insert prompt data fits =>
    obtain ⟨entry, hEq⟩ := hStep
    obtain ⟨entry', c'', hOk, hInv, -⟩ := insert_spec h hGiven fits
    rw [hOk] at hEq
    cases hEq
    exact hInv
  | alloc prompt stateSizeTgt stateSizeDft dataFits fits =>
    obtain ⟨entry, hEq⟩ := hStep
    unfold alloc at hEq
    split at hEq
    · obtain ⟨entry', c'', hOk, hInv, -⟩ := insert_spec h hGiven fits
      rw [hOk] at hEq
      cases hEq
      exact hInv
    · cases hEq
      exact h.counters rfl rfl rfl
  | erase entry =>
    cases hStep
    exact h.sublist eraseP_sublist
  | update limitTokensCur =>
    cases hStep
    refine h.sublist ?_
    rw [if_pos h.limited]
    have hSize := (@popWhile_suffix _ c.limitSize sizeOfStates c.states).sublist
    split
    · exact (popWhile_suffix _ _).sublist.trans hSize
    · exact hSize
  | load prompt best io =>
    cases hStep
    unfold load
    split
    · exact h
    dsimp only
    split
    · exact h.counters rfl rfl rfl
    split
    · exact h.counters rfl rfl rfl
    split
    · exact h.counters rfl rfl rfl
    · exact h.counters rfl rfl rfl

omit h

/-- An empty cache with a limit. -/
def IsNew (c : PromptCache χ) : Prop := 0 < c.limitSize ∧ c.states = []

theorem IsNew.invariant (h : c.IsNew) : c.Invariant mtmd flag := by
  obtain ⟨hLimit, hStates⟩ := h
  have hSize : c.accountedSize = 0 := by
    unfold accountedSize
    rw [hStates]
    rfl
  refine ⟨hLimit, ?_, ?_, ⟨fun _ => 0, ?_⟩, by omega, ?_, ?_⟩ <;> rw [hStates]
  · exact fun node hNode => by cases hNode
  · exact List.Pairwise.nil
  · exact fun x hx => by cases hx
  · exact nodup_nil
  · exact fun node hNode => by cases hNode

/-- At every state of a run no entry is a prefix of another one and the bytes are within the
limit, and an insert does what it promises. -/
theorem run_bounded (hRun : Run IsNew (step mtmd) (Given mtmd flag) c) :
    c.states.Pairwise (Apart mtmd) ∧ c.accountedSize ≤ c.limitSize ∧
      ∀ prompt data fits, c.Admissible mtmd flag ⟨prompt, data⟩ →
        Inserts mtmd flag c ⟨prompt, data⟩ (c.insert mtmd prompt data fits) := by
  have hInv : c.Invariant mtmd flag :=
    hRun.invariant (fun _ hNew => hNew.invariant) fun _ _ _ hInv hGiven hStep =>
      hInv.call hGiven hStep
  exact ⟨hInv.antichain, hInv.bounded, fun prompt data fits hGiven => insert_spec hInv hGiven fits⟩

/-- A text prompt with a checkpoint. -/
def textPrompt (toks : List Int32) : ServerPrompt UInt8 :=
  ⟨.ofTokens toks false, [⟨1, 0, ⟨0, [1, 2, 3]⟩, ⟨1, []⟩, []⟩]⟩

/-- Five bytes are allowed. -/
def smallCache : PromptCache UInt8 := { states := [], limitSize := 5, limitTokens := 0 }

def inserted (c : PromptCache UInt8) (toks : List Int32) : PromptCache UInt8 :=
  match c.insert TokensOp.countedChunks (textPrompt toks) ⟨[7], [], []⟩ true with
  | .ok (_, c) => c
  | .error _ => c

/-- The second prompt subsumes the first, and the last one takes the place of the second. -/
def twoEntries : PromptCache UInt8 :=
  inserted (inserted (inserted (inserted smallCache [1]) [1, 2]) [5]) [6]

theorem inserted_run {c : PromptCache UInt8} (toks : List Int32) {entry : Option Nat}
    (hRun : Run IsNew (step TokensOp.countedChunks) (Given TokensOp.countedChunks false) c)
    (hShared : ∀ x ∈ allBuffers c.states, x = (0, 3))
    (hInsert : c.insert TokensOp.countedChunks (textPrompt toks) ⟨[7], [], []⟩ true =
      .ok (entry, inserted c toks)) :
    Run IsNew (step TokensOp.countedChunks) (Given TokensOp.countedChunks false)
      (inserted c toks) := by
  have hGiven : c.Admissible TokensOp.countedChunks false ⟨textPrompt toks, ⟨[7], [], []⟩⟩ := by
    refine ⟨⟨rfl, fun h => absurd h (by decide), fun _ => rfl⟩, fun _ => 3, fun x hx => ?_⟩
    rcases mem_append.mp hx with hOld | hNew
    · rw [hShared x hOld]
    · rw [mem_singleton.mp hNew]
      rfl
  exact hRun.step (Call.insert (textPrompt toks) ⟨[7], [], []⟩ true) hGiven ⟨entry, hInsert⟩

/-- The entries share a checkpoint and fill the limit, after one was subsumed and one evicted. -/
theorem twoEntries_bounded :
    twoEntries.states.map (fun node => node.state.prompt.tokens.tokens) = [[5], [6]] ∧
      twoEntries.accountedSize = twoEntries.limitSize ∧
      twoEntries.states.Pairwise (Apart TokensOp.countedChunks) ∧
      ∀ prompt data fits, twoEntries.Admissible TokensOp.countedChunks false ⟨prompt, data⟩ →
        Inserts TokensOp.countedChunks false twoEntries ⟨prompt, data⟩
          (twoEntries.insert TokensOp.countedChunks prompt data fits) := by
  have hFirst := inserted_run [1, 2] (inserted_run [1] (.start (c := smallCache) ⟨by decide, rfl⟩)
    (by decide) rfl) (by decide) rfl
  obtain ⟨hApart, -, hInserts⟩ := run_bounded (inserted_run [6] (inserted_run [5] hFirst
    (by decide) rfl) (by decide) rfl)
  exact ⟨by decide, by decide, hApart, hInserts⟩

end PromptCache

end Beellama.Ports
