import Beellama.Ports.SamplerRing
import Beellama.Verified.ZBox
import Mathlib.Data.List.Induction
import Mathlib.Data.Rat.Defs
import Mathlib.Order.Bounds.Basic

/-!
# The DRY sampler

`llama_sampler_dry_apply` up to the tokens that would continue a repetition: a Z-algorithm over the
newest tokens counts how long each repetition is (`dry_counts`), cut at the last sequence breaker.
-/

namespace Beellama.Ports

open Beellama.Verified List Function RingBuffer

/-- `llama_sampler_dry`; `dry_processed_breakers` has the breakers by their head tokens. -/
structure DrySampler where
  dryMultiplier : Rat
  dryBase : Rat
  dryAllowedLength : Int
  dryPenaltyLastN : Nat
  dryProcessedBreakers : List (Int32 × List Int32)
  lastTokens : RingBuffer Int32

/-- The tables of an `apply` that reaches step 3. -/
structure DryRepeats where
  lastNRepeat : Nat
  repLimit : Nat
  dryRepeatCount : Nat → Nat
  dryMaxTokenRepeat : Int32 → Option Nat

namespace DrySampler

def isOff (s : DrySampler) : Bool :=
  s.dryMultiplier = 0 ∨ s.dryBase < 1 ∨ s.dryPenaltyLastN = 0

/-- `llama_sampler_dry_accept` -/
def accept (s : DrySampler) (token : Int32) : DrySampler :=
  if s.isOff then s else { s with lastTokens := s.lastTokens.pushBack token }

/-- `llama_sampler_dry_reset` -/
def reset (s : DrySampler) : DrySampler := { s with lastTokens := s.lastTokens.clear }

/-- `longest_match` for the token `i` places from the end, -1 where no breaker starts there. -/
def longestMatch (s : DrySampler) (i : Nat) : Int :=
  (s.dryProcessedBreakers.filter fun breaker => some breaker.1 = s.lastTokens.rat i).foldl
    (fun longest breaker =>
      if longest < breaker.2.length ∧ breaker.2.length ≤ i ∧
          (List.range breaker.2.length).all fun offset =>
            breaker.2[offset]? = s.lastTokens.rat (i - offset - 1)
      then breaker.2.length else longest) (-1)

/-- Step 1, `rep_limit`. -/
def findRepLimit (s : DrySampler) (lastNRepeat : Nat) : Nat :=
  ((List.range lastNRepeat).find? fun i => 0 ≤ s.longestMatch i).elim lastNRepeat
    fun i => (i - s.longestMatch i).toNat

/-- `while (m + k < last_n_repeat && rat(m) == rat(m + k)) m++` -/
def matchLoop (rat : Nat → Option Int32) (lastNRepeat k : Nat) : Nat → Nat → Nat
  | 0, m => m
  | fuel + 1, m =>
    if m + k < lastNRepeat ∧ rat m = rat (m + k) then matchLoop rat lastNRepeat k fuel (m + 1)
    else m

/-- `dry_repeat_count` with the bounds `lt` and `rt` of the Z-box. -/
structure ZState where
  count : Nat → Nat := fun _ => 0
  lt : Nat := 0
  rt : Nat := 0

/-- The body of the loop of step 2. -/
def zStep (rat : Nat → Option Int32) (lastNRepeat repLimit : Nat) (z : ZState) (k : Nat) : ZState :=
  let last := lastNRepeat - 1
  if z.rt < k then
    let n := matchLoop rat lastNRepeat k lastNRepeat 0
    let count := Function.update z.count (last - k) (min n repLimit)
    if 0 < n then { count, lt := k, rt := k + n - 1 } else { z with count }
  else
    let p := k - z.lt
    let rightPartLen := z.rt - k + 1
    if z.count (last - p) < rightPartLen then
      { z with count := Function.update z.count (last - k) (min (z.count (last - p)) repLimit) }
    else
      -- the loop over `i = k + n`, from `rt + 1` on
      let n := matchLoop rat lastNRepeat k lastNRepeat (z.rt + 1 - k)
      { count := Function.update z.count (last - k) (min n repLimit), lt := k, rt := k + n - 1 }

/-- Step 2. -/
def repeatCounts (rat : Nat → Option Int32) (lastNRepeat repLimit : Nat) : Nat → Nat :=
  ((List.range' 1 (lastNRepeat - 1)).foldl (zStep rat lastNRepeat repLimit) {}).count

/-- The body of the loop of step 3. -/
def tokenStep (rat : Nat → Option Int32) (lastNRepeat : Nat) (allowedLength : Int)
    (count : Nat → Nat) (found : Int32 → Option Nat) (i : Nat) : Int32 → Option Nat :=
  match rat (lastNRepeat - 2 - i) with
  | none => found
  | some token =>
    if allowedLength ≤ count i ∧ ∀ repeatLen ∈ found token, repeatLen < count i then
      Function.update found token (some (count i))
    else found

/-- Step 3, `dry_max_token_repeat`. -/
def maxTokenRepeat (rat : Nat → Option Int32) (lastNRepeat : Nat) (allowedLength : Int)
    (count : Nat → Nat) : Int32 → Option Nat :=
  (List.range (lastNRepeat - 1)).foldl (tokenStep rat lastNRepeat allowedLength count)
    fun _ => none

/-- `llama_sampler_dry_apply` up to step 3, `none` where it returns before. -/
def repeats (s : DrySampler) : Option DryRepeats :=
  if s.isOff then none
  else
    let lastNRepeat := min s.lastTokens.sz s.dryPenaltyLastN
    if (lastNRepeat : Int) ≤ s.dryAllowedLength then none
    else
      let repLimit := s.findRepLimit lastNRepeat
      if (repLimit : Int) < s.dryAllowedLength then none
      else
        let count := repeatCounts s.lastTokens.rat lastNRepeat repLimit
        some ⟨lastNRepeat, repLimit, count,
          maxTokenRepeat s.lastTokens.rat lastNRepeat s.dryAllowedLength count⟩

/-- The length of the longest common prefix. -/
def commonPrefix : List Int32 → List Int32 → Nat
  | a :: l, b :: r => if a = b then commonPrefix l r + 1 else 0
  | _, _ => 0

/-- The length of the longest common suffix. -/
def commonSuffix (l r : List Int32) : Nat := commonPrefix l.reverse r.reverse

theorem le_commonPrefix {l r : List Int32} {m : Nat} :
    m ≤ commonPrefix l r ↔ ∀ j < m, j < r.length ∧ l[j]? = r[j]? := by
  induction l generalizing r m with
  | nil =>
    simp only [commonPrefix, Nat.le_zero]
    refine ⟨by rintro rfl; simp, fun h => by_contra fun hm => ?_⟩
    have := h 0 (by omega)
    cases r <;> simp_all
  | cons a l ih =>
    cases r with
    | nil =>
      simp only [commonPrefix, Nat.le_zero]
      exact ⟨by rintro rfl; simp, fun h => by_contra fun hm => by simpa using h 0 (by omega)⟩
    | cons b r =>
      cases m with
      | zero => simp
      | succ m =>
        rw [Nat.forall_lt_succ_left]
        by_cases hab : a = b
        · simp [commonPrefix, hab, ih]
        · simp [commonPrefix, hab]

variable {rat : Nat → Option Int32} {n k m fuel limit : Nat} {z : ZState}

theorem matchLoop_spec (hAgrees : Agrees rat n k m) (hFuel : n < fuel + m + 1) :
    Agrees rat n k (matchLoop rat n k fuel m) ∧
      ¬ Agrees rat n k (matchLoop rat n k fuel m + 1) ∧ m ≤ matchLoop rat n k fuel m := by
  have hEnd : ∀ m, ¬ (m + k < n ∧ rat m = rat (m + k)) → ¬ Agrees rat n k (m + 1) := by
    intro m hStop h
    obtain ⟨hn, hEq⟩ := h m (by omega)
    exact hStop ⟨by omega, by rwa [Nat.add_comm m k]⟩
  induction fuel generalizing m with
  | zero => exact ⟨hAgrees, hEnd m (by omega), le_rfl⟩
  | succ fuel ih =>
    rw [matchLoop]
    split
    next hMore =>
      obtain ⟨hIn, hMax, hLe⟩ := ih
        (hAgrees.succ (by omega) (by rw [Nat.add_comm k m]; exact hMore.2)) (by omega)
      exact ⟨hIn, hMax, by omega⟩
    next hStop => exact ⟨hAgrees, hEnd m hStop, le_rfl⟩

/-- Before the place `k`: the counts are right, and the box agrees with what it copies. -/
structure ZInv (rat : Nat → Option Int32) (n limit k : Nat) (z : ZState) : Prop where
  count : ∀ j, 1 ≤ j → j < k → Extent rat n limit j (z.count (n - 1 - j))
  box : z.rt = 0 ∨ (1 ≤ z.lt ∧ z.lt < k ∧ Agrees rat n z.lt (z.rt + 1 - z.lt))

theorem ZInv.update {c lt rt : Nat} (hz : ZInv rat n limit k z) (hk : k < n)
    (hExtent : Extent rat n limit k c)
    (hBox : rt = 0 ∨ (1 ≤ lt ∧ lt < k + 1 ∧ Agrees rat n lt (rt + 1 - lt))) :
    ZInv rat n limit (k + 1) ⟨Function.update z.count (n - 1 - k) c, lt, rt⟩ := by
  refine ⟨fun j h₁ hj => ?_, hBox⟩
  dsimp only
  obtain hj | rfl := Nat.lt_succ_iff_lt_or_eq.mp hj
  · rw [update_of_ne (by omega)]
    exact hz.count j h₁ hj
  · rwa [update_self]

theorem zStep_inv (hz : ZInv rat n limit k z) (h₁ : 1 ≤ k) (hk : k < n) :
    ZInv rat n limit (k + 1) (zStep rat n limit z k) := by
  have hGrown : ∀ m, 1 ≤ m → Agrees rat n k m →
      k + m - 1 = 0 ∨ (1 ≤ k ∧ k < k + 1 ∧ Agrees rat n k (k + m - 1 + 1 - k)) := by
    intro m hm hAgrees
    exact .inr ⟨h₁, by omega, by rwa [show k + m - 1 + 1 - k = m by omega]⟩
  simp only [zStep]
  split
  · obtain ⟨hAgrees, hMax, -⟩ := @matchLoop_spec rat n k 0 n
      (fun _ hj => absurd hj (Nat.not_lt_zero _)) (by omega)
    split
    next hPos => exact hz.update hk (.of_max hAgrees hMax) (hGrown _ hPos hAgrees)
    next => exact hz.update hk (.of_max hAgrees hMax) (hz.box.imp_right fun h => ⟨h.1, by omega, h.2.2⟩)
  next hIn =>
    obtain hZero | ⟨hlt, hltk, hBox⟩ := hz.box
    · omega
    have hCount := hz.count (k - z.lt) (by omega) (by omega)
    split
    next hShort =>
      rw [Nat.min_eq_left hCount.1]
      exact hz.update hk (hCount.copy hBox hltk.le (by omega)) (.inr ⟨hlt, by omega, hBox⟩)
    next hLong =>
      have hSeed : Agrees rat n k (z.rt + 1 - k) :=
        (hBox.box hltk.le (by omega)).mpr ((hCount.2 _ (by have := hCount.1; omega)).mpr (by omega))
      obtain ⟨hAgrees, hMax, hLe⟩ := @matchLoop_spec _ _ _ _ n hSeed (by omega)
      exact hz.update hk (.of_max hAgrees hMax) (hGrown _ (by omega) hAgrees)

theorem repeatCounts_extent (h₁ : 1 ≤ k) (hk : k < n) :
    Extent rat n limit k (repeatCounts rat n limit (n - 1 - k)) := by
  have hRun : ∀ m, m + 1 ≤ n →
      ZInv rat n limit (m + 1) ((range' 1 m).foldl (zStep rat n limit) {}) := by
    intro m hm
    induction m with
    | zero => exact ⟨by omega, .inl rfl⟩
    | succ m ih =>
      rw [range'_concat, foldl_append, show 1 + 1 * m = m + 1 by omega]
      exact zStep_inv (ih (by omega)) (by omega) (by omega)
  exact (hRun (n - 1) (by omega)).count k h₁ (by omega)

variable {count : Nat → Nat} {allowedLength : Int} {token : Int32} {l : List Nat}

/-- The counts, long enough, of the places in a list that the token comes next to. -/
def Continues (rat : Nat → Option Int32) (n : Nat) (allowedLength : Int) (count : Nat → Nat)
    (l : List Nat) (token : Int32) : Set Nat :=
  {c | ∃ i ∈ l, rat (n - 2 - i) = some token ∧ allowedLength ≤ count i ∧ count i = c}

/-- The greatest element of a set, `none` for the empty set. -/
def IsMax (S : Set Nat) (best : Option Nat) : Prop :=
  (best = none → S = ∅) ∧ ∀ c, best = some c → IsGreatest S c

theorem foldl_tokenStep (token : Int32) :
    IsMax (Continues rat n allowedLength count l token)
      (l.foldl (tokenStep rat n allowedLength count) (fun _ => none) token) := by
  induction l using reverseRecOn with
  | nil => simp [IsMax, Continues]
  | append_singleton l i ih =>
    have hInsert : Continues rat n allowedLength count (l ++ [i]) token =
        Continues rat n allowedLength count l token ∪
          {c | rat (n - 2 - i) = some token ∧ allowedLength ≤ count i ∧ count i = c} := by
      ext c
      simp [Continues]
    rw [foldl_append, foldl_cons, foldl_nil, hInsert, tokenStep]
    generalize l.foldl (tokenStep rat n allowedLength count) (fun _ => none) = found at ih ⊢
    generalize Continues rat n allowedLength count l token = S at ih ⊢
    obtain ⟨hNone, hSome⟩ := ih
    cases rat (n - 2 - i) with
    | none => simpa [IsMax] using And.intro hNone hSome
    | some t =>
      by_cases hSame : t = token
      · subst hSame
        by_cases hLong : allowedLength ≤ count i
        · cases hFound : found t with
          | none => simp [IsMax, hFound, hNone hFound, hLong]
          | some best =>
            have hGreatest := hSome best hFound
            have hUnion : S ∪ {c | some t = some t ∧ allowedLength ≤ count i ∧ count i = c} =
                insert (count i) S := by
              simp [hLong]
            by_cases hMore : best < count i
            · have hMax := hGreatest.insert (count i)
              rw [max_eq_left hMore.le] at hMax
              simpa [IsMax, hFound, hLong, hMore] using hMax
            have hMax := hGreatest.insert (count i)
            rw [max_eq_right (not_lt.mp hMore)] at hMax
            simpa [IsMax, hFound, hLong, hMore, hUnion] using hMax
        · simpa [IsMax, hLong] using And.intro hNone hSome
      have hStep : (if allowedLength ≤ count i ∧ ∀ repeatLen ∈ found t, repeatLen < count i then
          update found t (some (count i)) else found) token = found token := by
        split
        · exact update_of_ne (Ne.symm hSame) _ _
        · rfl
      dsimp only
      rw [hStep]
      simpa [IsMax, hSame] using And.intro hNone hSome

/-- The calls of a run. -/
inductive DryOp where
  | accept (token : Int32)
  | reset

def step (s : DrySampler) : DryOp → DrySampler
  | .accept token => s.accept token
  | .reset => s.reset

/-- What a run has accepted since it was reset. -/
def accepted (ops : List DryOp) : List Int32 :=
  ops.foldl (fun h op => match op with
    | .accept token => h ++ [token]
    | .reset => []) []

/-- A sampler from `llama_sampler_init_dry`, which makes an empty one where this one would be off. -/
structure IsNew (s : DrySampler) : Prop where
  isOn : s.isOff = false
  holds : s.lastTokens.Holds []
  capacity_eq : s.lastTokens.capacity = s.dryPenaltyLastN

/-- The counts, long enough, of the places where a token comes next. -/
def Places (tokens : List Int32) (allowedLength : Int) (repLimit : Nat) (token : Int32) : Set Nat :=
  {c | ∃ k, 1 ≤ k ∧ k < tokens.length ∧ tokens[tokens.length - k]? = some token ∧
    allowedLength ≤ c ∧ c = min repLimit (commonSuffix tokens (tokens.take (tokens.length - k)))}

variable {ops : List DryOp} {s : DrySampler}

theorem run_holds (hs : s.IsNew) :
    ∃ ring : RingBuffer Int32, ops.foldl step s = { s with lastTokens := ring } ∧
      ring.capacity = s.dryPenaltyLastN ∧
      ring.Holds (RingBuffer.lastN s.dryPenaltyLastN (accepted ops)) := by
  induction ops using reverseRecOn with
  | nil =>
    exact ⟨s.lastTokens, rfl, hs.capacity_eq, by simpa [accepted, RingBuffer.lastN] using hs.holds⟩
  | append_singleton ops op ih =>
    obtain ⟨ring, hRun, hCapacity, hHolds⟩ := ih
    have hPos := ring.capacity_pos
    have hOff : isOff { s with lastTokens := ring } = false := hs.isOn
    rw [foldl_append, foldl_cons, foldl_nil, hRun]
    cases op with
    | accept token =>
      refine ⟨ring.pushBack token, by simp [step, accept, hOff], ?_, ?_⟩
      · rw [pushBack_capacity, hCapacity]
      have hPushed := hHolds.pushBack (x := token)
      rw [hCapacity, ← RingBuffer.lastN_append (hCapacity ▸ hPos)] at hPushed
      simpa [accepted, foldl_append] using hPushed
    | reset => exact ⟨ring.clear, rfl, hCapacity, by
        simpa [accepted, RingBuffer.lastN] using clear_holds⟩

variable {tokens : List Int32}

section

variable (hRat : ∀ i, rat i = tokens.reverse[i]?)

include hRat

theorem agrees_iff (hk : k < tokens.length) :
    Agrees rat tokens.length k m ↔ m ≤ commonSuffix tokens (tokens.take (tokens.length - k)) := by
  rw [commonSuffix, reverse_take, le_commonPrefix,
    show tokens.length - (tokens.length - k) = k by omega]
  refine forall₂_congr fun j _ => ?_
  rw [hRat, hRat, getElem?_drop, length_drop, length_reverse]
  exact and_congr_left fun _ => by omega

theorem repeatCounts_eq (h₁ : 1 ≤ k) (hk : k < tokens.length) :
    repeatCounts rat tokens.length limit (tokens.length - 1 - k) =
      min limit (commonSuffix tokens (tokens.take (tokens.length - k))) := by
  obtain ⟨hLe, hAgrees⟩ := @repeatCounts_extent rat _ _ limit h₁ hk
  have hIff := fun m hm => (agrees_iff (m := m) hRat hk).symm.trans (hAgrees m hm)
  apply le_antisymm
  · exact le_min hLe ((hIff _ hLe).mpr le_rfl)
  · exact (hIff _ (min_le_left _ _)).mp (min_le_right _ _)

theorem continues_eq :
    Continues rat tokens.length allowedLength (repeatCounts rat tokens.length limit)
        (range (tokens.length - 1)) token =
      Places tokens allowedLength limit token := by
  have hToken : ∀ k, 1 ≤ k → k < tokens.length →
      rat (k - 1) = tokens[tokens.length - k]? := by
    intro k h₁ hk
    rw [hRat, getElem?_reverse (by omega), show tokens.length - 1 - (k - 1) = tokens.length - k by omega]
  ext c
  constructor
  · rintro ⟨i, hi, hNext, hLong, rfl⟩
    rw [mem_range] at hi
    have hCount := @repeatCounts_eq _ (tokens.length - 1 - i) limit _ hRat (by omega)
      (by omega)
    rw [show tokens.length - 1 - (tokens.length - 1 - i) = i by omega] at hCount
    refine ⟨tokens.length - 1 - i, by omega, by omega, ?_, hLong, hCount⟩
    rw [← hToken _ (by omega) (by omega), ← hNext]
    congr 1
    omega
  rintro ⟨k, h₁, hk, hNext, hLong, rfl⟩
  have hCount := @repeatCounts_eq _ _ limit _ hRat h₁ hk
  refine ⟨tokens.length - 1 - k, mem_range.mpr (by omega), ?_, hCount ▸ hLong, hCount⟩
  rw [← hNext, ← hToken k h₁ hk]
  congr 1
  omega

end

/-- An `apply` that reaches step 3 counts the repetitions of the last tokens accepted, and finds for
each token the longest one that it continues. -/
theorem run_repeats {r : DryRepeats} (hs : s.IsNew)
    (hRepeats : (ops.foldl step s).repeats = some r) :
    let tokens := RingBuffer.lastN s.dryPenaltyLastN (accepted ops)
    r.lastNRepeat = tokens.length ∧
      (∀ k, 1 ≤ k → k < tokens.length → r.dryRepeatCount (tokens.length - 1 - k) =
        min r.repLimit (commonSuffix tokens (tokens.take (tokens.length - k)))) ∧
      ∀ token, IsMax (Places tokens s.dryAllowedLength r.repLimit token)
        (r.dryMaxTokenRepeat token) := by
  obtain ⟨ring, hRun, hCapacity, hHolds⟩ := @run_holds ops _ hs
  have hRat := hHolds.rat_eq
  have hLen : ring.sz ≤ s.dryPenaltyLastN := hCapacity ▸ hHolds.sz_le
  rw [hHolds.sz_eq] at hLen
  rw [hRun] at hRepeats
  simp only [repeats, hHolds.sz_eq, min_eq_left hLen] at hRepeats
  split_ifs at hRepeats
  obtain rfl := Option.some.inj hRepeats
  refine ⟨rfl, fun k h₁ hk => repeatCounts_eq hRat h₁ hk, fun token => ?_⟩
  rw [← continues_eq hRat]
  exact foldl_tokenStep token

/-- Eight tokens go past a ring of seven: "1 2 3 9 1 2 3" is left, and "9" would go on from "1 2 3". -/
theorem eightTokens_repeats :
    ∃ s r, IsNew s ∧
      (([0, 1, 2, 3, 9, 1, 2, 3].map DryOp.accept).foldl step s).repeats = some r ∧
      r.dryRepeatCount 2 = 3 ∧ IsGreatest (Places [1, 2, 3, 9, 1, 2, 3] 2 7 9) 3 := by
  let ring : RingBuffer Int32 := { capacity := 7, capacity_pos := by decide, data := fun _ => 0 }
  let s : DrySampler := ⟨1, 2, 2, 7, [], ring⟩
  have hs : s.IsNew := ⟨by decide, clear_holds (b := ring), rfl⟩
  have hRun : (([0, 1, 2, 3, 9, 1, 2, 3].map DryOp.accept).foldl step s).repeats.map
      (fun r => (r.repLimit, r.dryMaxTokenRepeat 9)) = some (7, some 3) := by decide
  obtain ⟨r, hr, hFound⟩ := Option.map_eq_some_iff.mp hRun
  obtain ⟨hLimit, hNine⟩ := Prod.mk.inj hFound
  refine ⟨s, r, hs, hr, ?_, ?_⟩
  · have hCount := (run_repeats hs hr).2.1 4 (by decide) (by decide)
    rw [hLimit] at hCount
    exact hCount
  have hMax := (run_repeats hs hr).2.2 9
  rw [hLimit] at hMax
  exact hMax.2 3 hNine

end DrySampler

end Beellama.Ports
