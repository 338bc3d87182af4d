import Beellama.Ports.NaiveTrie
import Beellama.Ports.PegUntil
import Beellama.Verified.Cut

/-!
# The normalizer of the unigram tokenizer

`llm_tokenizer_ugm_session::normalize_prefix` from offset 0 to the end of a text.  User-defined tokens
are to be kept as they are, but it keeps as much as their trie goes along the text
(`normalizeAll_iff`).
-/

namespace Beellama.Ports

open Beellama.Verified List Option

/-- Which return of `normalize_prefix` a result is from. -/
inductive NormalizeRule
  | userDefined | charsmap | codePoint | invalid
  deriving DecidableEq

/-- `normalization_result` -/
structure NormalizationResult where
  normalized : List UInt8
  consumedInput : Nat
  rule : NormalizeRule
  deriving DecidableEq

/-- The part of `llm_tokenizer_ugm` for the normalizer. -/
structure UgmNormalizer where
  userDefinedTexts : List (List UInt8)
  xcdaArray : List UInt32
  prefixReplacements : List UInt8

namespace UgmNormalizer

def userDefinedTokenMatcher (v : UgmNormalizer) : NaiveTrie :=
  v.userDefinedTexts.foldl (fun t text => t.insert text 0) .empty

/-- `none` where it throws. -/
def getNode (v : UgmNormalizer) (index : UInt32) : Option UInt32 := v.xcdaArray[index.toNat]?

def getBase (v : UgmNormalizer) (index : UInt32) : Option UInt32 :=
  (v.getNode index).map fun node => (node >>> (10 : UInt32)) <<< ((node &&& 0x200) >>> (6 : UInt32))

def getLcheck (v : UgmNormalizer) (index : UInt32) : Option UInt32 :=
  (v.getNode index).map fun node => node &&& 0x800000FF

def getLeaf (v : UgmNormalizer) (index : UInt32) : Option Bool :=
  (v.getNode index).map fun node => (node >>> (8 : UInt32)) &&& 1 = 1

def getValue (v : UgmNormalizer) (index : UInt32) : Option UInt32 :=
  (v.getNode index).map fun node => node &&& 0x7FFFFFFF

/-- One turn of the walk: the BASE of the child, and whether it is a leaf. -/
def child (v : UgmNormalizer) (nodeIndex : UInt32) (c : UInt8) : Option (Option (UInt32 × Bool)) :=
  if c = 0 then some none
  else do
    let nodeIndex := nodeIndex ^^^ c.toUInt32
    if (← v.getLcheck nodeIndex) ≠ c.toUInt32 then return none
    let isLeaf ← v.getLeaf nodeIndex
    return some (nodeIndex ^^^ (← v.getBase nodeIndex), isLeaf)

/-- The walk, with the `longest_prefix_length` and `longest_prefix_offset` so far. -/
def walkLoop (v : UgmNormalizer) : List UInt8 → UInt32 → Nat → Nat × UInt32 → Option (Nat × UInt32)
  | [], _, _, found => some found
  | c :: rest, nodeIndex, length, found => do
      match ← v.child nodeIndex c with
      | none => return found
      | some (nodeIndex, isLeaf) =>
        if isLeaf then v.walkLoop rest nodeIndex (length + 1) (length + 1, ← v.getValue nodeIndex)
        else v.walkLoop rest nodeIndex (length + 1) found

def xcdaWalk (v : UgmNormalizer) (rest : List UInt8) : Option (Nat × UInt32) :=
  if v.xcdaArray = [] then some (0, 0)
  else do v.walkLoop rest (← v.getBase 0) 0 (0, 0)

/-- The replacement at an offset, `none` where it throws. -/
def replacement (v : UgmNormalizer) (offset : UInt32) : Option (List UInt8) :=
  let tail := v.prefixReplacements.drop offset.toNat
  if 0 ∈ tail then some (tail.takeWhile (· ≠ 0)) else none

/-- `normalize_prefix`, of what is left of the input from an offset on. -/
def normalizePrefix (v : UgmNormalizer) (rest : List UInt8) : Option NormalizationResult :=
  let matched := v.userDefinedTokenMatcher.getLongestPrefix rest 0
  if 0 < matched then some ⟨rest.take matched, matched, .userDefined⟩
  else do
    let (longestPrefixLength, longestPrefixOffset) ← v.xcdaWalk rest
    if 0 < longestPrefixLength then
      return ⟨← v.replacement longestPrefixOffset, longestPrefixLength, .charsmap⟩
    else
      -- `unicode_cpt_from_utf8` tests the bytes as this does, and throws where they fail
      match parseUtf8Head rest with
      | .success _ n => return ⟨rest.take n, n, .codePoint⟩
      | _ => return ⟨[0xEF, 0xBF, 0xBD], 1, .invalid⟩

/-- The loop over the offsets, `none` when it has not ended or where it throws. -/
def normalizeLoop (v : UgmNormalizer) (input : List UInt8) :
    Nat → Nat → List NormalizationResult → Option (List NormalizationResult)
  | 0, _, _ => none
  | fuel + 1, offset, results =>
    if offset < input.length then do
      let result ← v.normalizePrefix (input.drop offset)
      v.normalizeLoop input fuel (offset + result.consumedInput) (results ++ [result])
    else some results

/-- The user-defined tokens. -/
def userDefined (v : UgmNormalizer) (text : List UInt8) : Option Unit :=
  if v.userDefinedTexts.contains text then some () else none

/-- What the table has for a key, from a node on. -/
def lookupFrom (v : UgmNormalizer) : UInt32 → List UInt8 → Option UInt32
  | _, [] => none
  | nodeIndex, c :: key =>
    match v.child nodeIndex c with
    | some (some (nodeIndex, isLeaf)) =>
      if key = [] then if isLeaf then v.getValue nodeIndex else none
      else v.lookupFrom nodeIndex key
    | _ => none

/-- What the charsmap has for a key: an offset of a replacement. -/
def charsmap (v : UgmNormalizer) (key : List UInt8) : Option UInt32 :=
  (v.getBase 0).bind fun root => v.lookupFrom root key

/-- A user-defined token is kept, else a key of the charsmap is replaced, else a code point is
copied or a byte replaced. -/
inductive Rule (v : UgmNormalizer) (rest : List UInt8) : Nat → NormalizationResult → Prop
  | userDefined {n : Nat} (hUser : LongestUpTo v.userDefined rest rest.length (some (n, ()))) :
      Rule v rest n ⟨rest.take n, n, .userDefined⟩
  | charsmap {n : Nat} {offset : UInt32} {text : List UInt8}
      (hUser : LongestUpTo v.userDefined rest rest.length none)
      (hMap : LongestUpTo v.charsmap rest rest.length (some (n, offset)))
      (hText : v.replacement offset = some text) : Rule v rest n ⟨text, n, .charsmap⟩
  | codePoint {c : Nat} (hUser : LongestUpTo v.userDefined rest rest.length none)
      (hMap : LongestUpTo v.charsmap rest rest.length none) (hScalar : IsScalar c)
      (hPrefix : Utf8.encode c <+: rest) :
      Rule v rest (Utf8.encode c).length ⟨Utf8.encode c, (Utf8.encode c).length, .codePoint⟩
  | invalid (hUser : LongestUpTo v.userDefined rest rest.length none)
      (hMap : LongestUpTo v.charsmap rest rest.length none)
      (hNone : ∀ c, IsScalar c → ¬Utf8.encode c <+: rest) :
      Rule v rest 1 ⟨[0xEF, 0xBF, 0xBD], 1, .invalid⟩

/-- Where the normalizer does what is to be done. -/
structure Fits (v : UgmNormalizer) (rest : List UInt8) : Prop where
  /-- No user-defined token has more in common with the rest than one that is a prefix of it. -/
  userDefined : ∀ token ∈ v.userDefinedTexts, ∀ m, 0 < m → m ≤ token.length →
    token.take m <+: rest → ∃ found ∈ v.userDefinedTexts, m ≤ found.length ∧ found <+: rest
  /-- The key of the charsmap that is replaced has a replacement. -/
  replaced : LongestUpTo v.userDefined rest rest.length none →
    ∀ n offset, LongestUpTo v.charsmap rest rest.length (some (n, offset)) →
      (v.replacement offset).isSome
  /-- A code point that is copied is one of Unicode, in its encoding. -/
  valid : LongestUpTo v.userDefined rest rest.length none →
    LongestUpTo v.charsmap rest rest.length none →
      ∀ c n, parseUtf8Head rest = .success c n → IsScalar c ∧ rest.take n = Utf8.encode c

variable {v : UgmNormalizer} {rest input key : List UInt8} {n m offset fuel : Nat}
  {nodeIndex : UInt32} {result : NormalizationResult} {results before : List NormalizationResult}

/-- The trie goes as far as some user-defined token is the rest. -/
theorem le_matched (hPos : 0 < m) :
    m ≤ v.userDefinedTokenMatcher.getLongestPrefix rest 0 ↔
      ∃ token ∈ v.userDefinedTexts, m ≤ token.length ∧ token.take m <+: rest := by
  have hSpec := @NaiveTrie.getLongestPrefix_spec v.userDefinedTokenMatcher rest m 0
  rw [Nat.zero_add] at hSpec
  rw [hSpec]
  constructor
  · rintro ⟨hLe, hWalk⟩
    have hNe : rest.take m ≠ [] := by
      intro hNil
      have := congrArg length hNil
      rw [length_take, length_nil] at this
      omega
    obtain ⟨token, hToken, hPrefix⟩ := (NaiveTrie.isSome_walk_foldl hNe).mp hWalk
    have hLen := hPrefix.length_le
    rw [length_take, Nat.min_eq_left hLe] at hLen
    refine ⟨token, hToken, hLen, ?_⟩
    have hTake := prefix_iff_eq_take.mp hPrefix
    rw [length_take, Nat.min_eq_left hLe] at hTake
    rw [← hTake]
    exact take_prefix m rest
  rintro ⟨token, hToken, hLen, hPrefix⟩
  have hLe := hPrefix.length_le
  have hTake := prefix_iff_eq_take.mp hPrefix
  rw [length_take, Nat.min_eq_left hLen] at hLe hTake
  refine ⟨hLe, (NaiveTrie.isSome_walk_foldl ?_).mpr ⟨token, hToken, hTake ▸ take_prefix m token⟩⟩
  rw [← hTake]
  intro hNil
  have := congrArg length hNil
  rw [length_take, length_nil] at this
  omega

variable {r : Nat × UInt32}

theorem walkLoop_spec {length : Nat} {found : Nat × UInt32}
    (hWalk : v.walkLoop rest nodeIndex length found = some r) :
    ∃ best, LongestUpTo (v.lookupFrom nodeIndex) rest rest.length best ∧
      r = best.elim found fun (n, offset) => (length + n, offset) := by
  induction rest generalizing nodeIndex length found with
  | nil => exact ⟨none, .zero, (some.inj hWalk).symm⟩
  | cons c rest ih =>
    have hTake : ∀ m, 0 < m → (c :: rest).take m = c :: rest.take (m - 1) := by
      intro m hm
      rw [← take_succ_cons, Nat.sub_add_cancel hm]
    rw [walkLoop] at hWalk
    cases hChild : v.child nodeIndex c with
    | none => simp [hChild] at hWalk
    | some child =>
      rw [hChild] at hWalk
      cases child with
      | none =>
        refine ⟨none, fun m hPos _ => ?_, (some.inj hWalk).symm⟩
        rw [hTake m hPos, lookupFrom, hChild]
      | some child =>
        obtain ⟨childIndex, isLeaf⟩ := child
        have hNext : ∀ m, 1 < m → m ≤ (c :: rest).length →
            v.lookupFrom nodeIndex ((c :: rest).take m) =
              v.lookupFrom childIndex (rest.take (m - 1)) := by
          intro m hm hLe
          rw [hTake m (by omega), lookupFrom, hChild]
          refine if_neg fun hNil => ?_
          have := congrArg List.length hNil
          rw [length_cons] at hLe
          rw [length_take, length_nil] at this
          omega
        obtain ⟨first, hFirst, hRest⟩ : ∃ first, v.lookupFrom nodeIndex [c] = first ∧
            v.walkLoop rest childIndex (length + 1)
              (first.elim found fun offset => (length + 1, offset)) = some r := by
          refine ⟨_, rfl, ?_⟩
          rw [lookupFrom, hChild]
          cases isLeaf with
          | false => exact hWalk
          | true =>
            cases hValue : v.getValue childIndex with
            | none => simp [hValue] at hWalk
            | some value => simpa [hValue] using hWalk
        have hOne : v.lookupFrom nodeIndex ((c :: rest).take 1) = first := hFirst
        obtain ⟨best, hBest, rfl⟩ := ih hRest
        cases best with
        | some best =>
          obtain ⟨n, offset⟩ := best
          obtain ⟨hPos, hLe, hValue, hMax⟩ := hBest
          refine ⟨some (n + 1, offset), ⟨by omega, by simpa using hLe, ?_, ?_⟩, ?_⟩
          · rwa [hNext _ (by omega) (by simpa using hLe)]
          · intro m hm hLe
            rw [hNext m (by omega) hLe]
            exact hMax _ (by omega) (by simpa using hLe)
          · simp [Nat.add_assoc, Nat.add_comm 1]
        | none =>
          have hMore : ∀ m, 1 < m → m ≤ (c :: rest).length →
              v.lookupFrom nodeIndex ((c :: rest).take m) = none := by
            intro m hm hLe
            rw [hNext m hm hLe]
            exact hBest _ (by omega) (by simpa using hLe)
          cases first with
          | none =>
            refine ⟨none, fun m hPos hLe => ?_, rfl⟩
            by_cases hm : m = 1
            · rwa [hm]
            · exact hMore m (by omega) hLe
          | some offset => exact ⟨some (1, offset), ⟨by omega, by simp, hOne, hMore⟩, rfl⟩

/-- The walk finds the longest key of the charsmap. -/
theorem xcdaWalk_spec (hWalk : v.xcdaWalk rest = some r) :
    ∃ best, LongestUpTo v.charsmap rest rest.length best ∧ r = best.getD (0, 0) := by
  rw [xcdaWalk] at hWalk
  split at hWalk
  next hEmpty =>
    refine ⟨none, fun m _ _ => ?_, (some.inj hWalk).symm⟩
    simp [charsmap, getBase, getNode, hEmpty]
  next =>
    cases hRoot : v.getBase 0 with
    | none => simp [hRoot] at hWalk
    | some root =>
      have hLookup : v.charsmap = v.lookupFrom root := by
        funext key
        rw [charsmap, hRoot, bind_some]
      simp only [hRoot] at hWalk
      obtain ⟨best, hBest, rfl⟩ := walkLoop_spec hWalk
      refine ⟨best, hLookup ▸ hBest, ?_⟩
      cases best with
      | none => rfl
      | some best => simp

theorem Rule.consumed (h : v.Rule rest n result) : n = result.consumedInput := by
  cases h <;> rfl

theorem Rule.pos (h : v.Rule rest n result) : 0 < n := by
  cases h with
  | userDefined hUser => exact hUser.1
  | charsmap _ hMap _ => exact hMap.1
  | codePoint => rw [Utf8.encode_length]; exact Nat.succ_pos _
  | invalid => exact Nat.one_pos

theorem encode_unique {c d : Nat} (hc : IsScalar c) (hd : IsScalar d)
    (hPrefix : Utf8.encode c <+: rest) (hPrefix' : Utf8.encode d <+: rest) : c = d := by
  obtain ⟨s, rfl⟩ := hPrefix
  obtain ⟨t, hEq⟩ := hPrefix'
  have hRead := parseUtf8Head_encode (IsScalar.lt hd) t
  rw [hEq, parseUtf8Head_encode (IsScalar.lt hc)] at hRead
  exact (Utf8ParseResult.success.inj hRead).1

theorem Rule.unique {result' : NormalizationResult} (h : v.Rule rest n result)
    (h' : v.Rule rest m result') : n = m := by
  have hNot : ∀ {β : Type} {value : List UInt8 → Option β} {k : Nat} {found : Nat × β} {p : Prop},
      LongestUpTo value rest k none → LongestUpTo value rest k (some found) → p :=
    fun hNone hSome => absurd (hNone.unique hSome) (by simp)
  cases h with
  | userDefined hUser =>
    cases h' with
    | userDefined hUser' => exact (Prod.mk.inj (some.inj (hUser.unique hUser'))).1
    | charsmap hNone => exact hNot hNone hUser
    | codePoint hNone => exact hNot hNone hUser
    | invalid hNone => exact hNot hNone hUser
  | charsmap hUser hMap =>
    cases h' with
    | userDefined hUser' => exact hNot hUser hUser'
    | charsmap _ hMap' => exact (Prod.mk.inj (some.inj (hMap.unique hMap'))).1
    | codePoint _ hNone => exact hNot hNone hMap
    | invalid _ hNone => exact hNot hNone hMap
  | codePoint hUser hMap hScalar hPrefix =>
    cases h' with
    | userDefined hUser' => exact hNot hUser hUser'
    | charsmap _ hMap' => exact hNot hMap hMap'
    | codePoint _ _ hScalar' hPrefix' => rw [encode_unique hScalar hScalar' hPrefix hPrefix']
    | invalid _ _ hNone => exact absurd hPrefix (hNone _ hScalar)
  | invalid hUser hMap hNone =>
    cases h' with
    | userDefined hUser' => exact hNot hUser hUser'
    | charsmap _ hMap' => exact hNot hMap hMap'
    | codePoint _ _ hScalar hPrefix => exact absurd hPrefix (hNone _ hScalar)
    | invalid => rfl

variable {text : List UInt8}

theorem userDefined_eq_none : v.userDefined text = none ↔ text ∉ v.userDefinedTexts := by
  simp [userDefined]

theorem mem_of_userDefined (h : v.userDefined text = some ()) : text ∈ v.userDefinedTexts := by
  by_contra hNot
  rw [userDefined_eq_none.mpr hNot] at h
  cases h

theorem matched_eq_zero (hUser : LongestUpTo v.userDefined rest rest.length none)
    (hFits : ∀ token ∈ v.userDefinedTexts, ∀ m, 0 < m → m ≤ token.length →
      token.take m <+: rest → ∃ found ∈ v.userDefinedTexts, m ≤ found.length ∧ found <+: rest) :
    v.userDefinedTokenMatcher.getLongestPrefix rest 0 = 0 := by
  by_contra hPos
  obtain ⟨token, hToken, hLen, hPrefix⟩ :=
    (@le_matched v rest _ (Nat.pos_of_ne_zero hPos)).mp le_rfl
  obtain ⟨found, hFound, hLe, hPrefix⟩ := hFits token hToken _ (Nat.pos_of_ne_zero hPos) hLen hPrefix
  have hNone := hUser found.length (by omega) hPrefix.length_le
  rw [← prefix_iff_eq_take.mp hPrefix] at hNone
  exact userDefined_eq_none.mp hNone hFound

theorem matched_eq (hUser : LongestUpTo v.userDefined rest rest.length (some (n, ())))
    (hFits : ∀ token ∈ v.userDefinedTexts, ∀ m, 0 < m → m ≤ token.length →
      token.take m <+: rest → ∃ found ∈ v.userDefinedTexts, m ≤ found.length ∧ found <+: rest) :
    v.userDefinedTokenMatcher.getLongestPrefix rest 0 = n := by
  obtain ⟨hPos, hLe, hValue, hMax⟩ := hUser
  have hn : (rest.take n).length = n := by rw [length_take, Nat.min_eq_left hLe]
  have hAtLeast := (@le_matched v rest _ hPos).mpr
    ⟨_, mem_of_userDefined hValue, hn.ge, by rw [take_take, Nat.min_self]; exact take_prefix n rest⟩
  obtain ⟨token, hToken, hLen, hPrefix⟩ :=
    (@le_matched v rest _ (hPos.trans_le hAtLeast)).mp le_rfl
  obtain ⟨found, hFound, hLe, hPrefix⟩ := hFits token hToken _ (hPos.trans_le hAtLeast) hLen hPrefix
  refine le_antisymm (hLe.trans (not_lt.mp fun hlt => ?_)) hAtLeast
  have hNone := hMax _ hlt hPrefix.length_le
  rw [← prefix_iff_eq_take.mp hPrefix] at hNone
  exact userDefined_eq_none.mp hNone hFound

/-- The pieces of a run. -/
structure Takes (v : UgmNormalizer) (rest : List UInt8) (n : Nat) (result : NormalizationResult) :
    Prop where
  result_eq : v.normalizePrefix rest = some result
  consumed : n = result.consumedInput

/-- What is done first is what is to be done just where the normalizer fits. -/
theorem exists_rule_iff (hRest : rest ≠ []) (hWalk : (v.xcdaWalk rest).isSome) :
    (∃ n result, v.Takes rest n result ∧ v.Rule rest n result) ↔ v.Fits rest := by
  obtain ⟨r, hWalk⟩ := isSome_iff_exists.mp hWalk
  obtain ⟨best, hBest, rfl⟩ := xcdaWalk_spec hWalk
  constructor
  · rintro ⟨n, result, ⟨hRun, -⟩, hRule⟩
    simp only [normalizePrefix, hWalk, bind_eq_bind, bind_some] at hRun
    generalize hLength : v.userDefinedTokenMatcher.getLongestPrefix rest 0 = matched at hRun
    split at hRun
    next hMatched =>
      obtain rfl := some.inj hRun
      generalize rest.take matched = kept at hRule
      cases hRule with
      | userDefined hUser =>
        refine ⟨fun token hToken m hPos hLen hPrefix => ?_, fun hNone => ?_, fun hNone => ?_⟩
        · have hLe := hLength ▸ (le_matched hPos).mpr ⟨token, hToken, hLen, hPrefix⟩
          obtain ⟨-, hLength, hValue, -⟩ := hUser
          refine ⟨_, mem_of_userDefined hValue, ?_, take_prefix _ rest⟩
          rwa [length_take, Nat.min_eq_left hLength]
        · exact absurd (hNone.unique hUser) (by simp)
        · exact absurd (hNone.unique hUser) (by simp)
    next hMatched =>
      have hTokens : ∀ token ∈ v.userDefinedTexts, ∀ m, 0 < m → m ≤ token.length →
          token.take m <+: rest → ∃ found ∈ v.userDefinedTexts, m ≤ found.length ∧ found <+: rest :=
        fun token hToken m hPos hLen hPrefix =>
          absurd (hLength ▸ (le_matched hPos).mpr ⟨token, hToken, hLen, hPrefix⟩) (by omega)
      cases best with
      | some best =>
        obtain ⟨k, offset⟩ := best
        simp only [getD_some, if_pos hBest.1] at hRun
        cases hText : v.replacement offset with
        | none => simp [hText] at hRun
        | some text =>
          refine ⟨hTokens, fun _ n offset' hMap => ?_, fun _ hNone => ?_⟩
          · obtain ⟨-, rfl⟩ := Prod.mk.inj (some.inj (hMap.unique hBest))
            rw [hText]
            rfl
          · exact absurd (hNone.unique hBest) (by simp)
      | none =>
        refine ⟨hTokens, fun _ n offset hMap => absurd (hMap.unique hBest) (by simp),
          fun hUser _ c k hRead => ?_⟩
        simp only [hRead] at hRun
        obtain rfl := some.inj hRun
        generalize hCopied : rest.take k = copied at hRule
        cases hRule with
        | codePoint _ _ hScalar hPrefix =>
          obtain ⟨tail, rfl⟩ := hPrefix
          rw [parseUtf8Head_encode (IsScalar.lt hScalar)] at hRead
          obtain ⟨rfl, -⟩ := Utf8ParseResult.success.inj hRead
          exact ⟨hScalar, rfl⟩
  intro hFits
  obtain ⟨user, hUser⟩ := exists_longestUpTo v.userDefined rest rest.length
  cases user with
  | some user =>
    obtain ⟨n, ⟨⟩⟩ := user
    have hMatched := matched_eq hUser hFits.userDefined
    refine ⟨n, _, ⟨?_, rfl⟩, .userDefined hUser⟩
    rw [normalizePrefix, hMatched, if_pos hUser.1]
  | none =>
    have hMatched := matched_eq_zero hUser hFits.userDefined
    cases best with
    | some best =>
      obtain ⟨n, offset⟩ := best
      obtain ⟨text, hText⟩ := isSome_iff_exists.mp (hFits.replaced hUser n offset hBest)
      refine ⟨n, _, ⟨?_, rfl⟩, .charsmap hUser hBest hText⟩
      simp [normalizePrefix, hMatched, hWalk, hBest.1, hText]
    | none =>
      have hInvalid : (∀ c k, parseUtf8Head rest ≠ .success c k) →
          v.Rule rest 1 ⟨[0xEF, 0xBF, 0xBD], 1, .invalid⟩ := by
        refine fun hRead => .invalid hUser hBest fun c hScalar hPrefix => ?_
        obtain ⟨tail, rfl⟩ := hPrefix
        exact hRead _ _ (parseUtf8Head_encode (IsScalar.lt hScalar) tail)
      cases hRead : parseUtf8Head rest with
      | success c k =>
        obtain ⟨hScalar, hTake⟩ := hFits.valid hUser hBest c k hRead
        have hPrefix : Utf8.encode c <+: rest := hTake ▸ take_prefix k rest
        have hLength : k = (Utf8.encode c).length := by
          obtain ⟨tail, rfl⟩ := hPrefix
          rw [parseUtf8Head_encode (IsScalar.lt hScalar)] at hRead
          exact (Utf8ParseResult.success.inj hRead).2.symm
        have hRule := Rule.codePoint hUser hBest hScalar hPrefix
        refine ⟨_, _, ⟨?_, hRule.consumed⟩, hRule⟩
        rw [← hLength, ← hTake]
        simp [normalizePrefix, hMatched, hWalk, hRead]
      | incomplete =>
        have hRule := hInvalid (by simp [hRead])
        refine ⟨_, _, ⟨?_, hRule.consumed⟩, hRule⟩
        simp [normalizePrefix, hMatched, hWalk, hRead]
      | invalid =>
        have hRule := hInvalid (by simp [hRead])
        refine ⟨_, _, ⟨?_, hRule.consumed⟩, hRule⟩
        simp [normalizePrefix, hMatched, hWalk, hRead]

theorem normalizeLoop_cut (hRun : v.normalizeLoop input fuel offset before = some results) :
    ∃ outs, results = before ++ outs ∧ Cut v.Takes (input.drop offset) outs := by
  induction fuel generalizing offset before with
  | zero => cases hRun
  | succ fuel ih =>
    rw [normalizeLoop] at hRun
    split at hRun
    next hMore =>
      cases hResult : v.normalizePrefix (input.drop offset) with
      | none => simp [hResult] at hRun
      | some result =>
        simp only [hResult] at hRun
        obtain ⟨outs, rfl, hCut⟩ := ih hRun
        rw [← drop_drop] at hCut
        refine ⟨result :: outs, by simp, .cons ?_ ⟨hResult, rfl⟩ hCut⟩
        rw [ne_eq, drop_eq_nil_iff]
        omega
    next hEnd =>
      rw [drop_of_length_le (by omega)]
      exact ⟨[], by rw [append_nil]; exact (some.inj hRun).symm, .nil⟩

theorem exists_normalizeLoop (hCut : Cut v.Takes (input.drop offset) results) :
    ∃ fuel, v.normalizeLoop input fuel offset before = some (before ++ results) := by
  generalize hRest : input.drop offset = rest at hCut
  induction hCut generalizing offset before with
  | nil =>
    have hEnd := drop_eq_nil_iff.mp hRest
    exact ⟨1, by rw [normalizeLoop, if_neg (by omega), append_nil]⟩
  | cons hText hTakes _ ih =>
    subst hRest
    obtain ⟨hResult, rfl⟩ := hTakes
    have hMore : offset < input.length := by
      by_contra hEnd
      exact hText (drop_of_length_le (by omega))
    obtain ⟨fuel, hRun⟩ := ih drop_drop.symm
    refine ⟨fuel + 1, ?_⟩
    rw [normalizeLoop, if_pos hMore, hResult]
    rw [← singleton_append, ← append_assoc]
    exact hRun

theorem takes_cut_iff
    (hWalk : ∀ rest, rest <:+ input → rest ≠ [] → (v.xcdaWalk rest).isSome) :
    (∃ results, Cut v.Takes input results ∧ Cut v.Rule input results) ↔
      ∀ rest, IsLeft v.Rule input rest → rest ≠ [] → v.Fits rest := by
  have hPlaces := @cut_iff _ _ v.Rule input v.Takes Rule.pos Rule.unique
    fun hTakes hRule => hTakes.consumed.trans hRule.consumed.symm
  rw [hPlaces]
  exact forall₃_congr fun rest hLeft hRest => exists_rule_iff hRest (hWalk rest hLeft.suffix hRest)

/-- A text is normalized as it is to be where no user-defined token has more in common with the text
at the start of a piece than one that is there, no code point is copied that is none, and the
replacements are there. -/
theorem normalizeAll_iff
    (hWalk : ∀ rest, rest <:+ input → rest ≠ [] → (v.xcdaWalk rest).isSome) :
    (∃ fuel results, v.normalizeLoop input fuel 0 [] = some results ∧ Cut v.Rule input results) ↔
      ∀ rest, IsLeft v.Rule input rest → rest ≠ [] → v.Fits rest := by
  rw [← takes_cut_iff hWalk]
  constructor
  · rintro ⟨fuel, results, hRun, hCut⟩
    obtain ⟨_, rfl, hTakes⟩ := normalizeLoop_cut hRun
    exact ⟨_, hTakes, hCut⟩
  rintro ⟨results, hTakes, hCut⟩
  obtain ⟨fuel, hRun⟩ := @exists_normalizeLoop _ _ 0 _ [] hTakes
  exact ⟨fuel, results, hRun, hCut⟩

/-- The user-defined tokens "ab", "abb" and "b". -/
def sharedStart : UgmNormalizer := ⟨[[0x61, 0x62], [0x61, 0x62, 0x62], [0x62]], [], []⟩

/-- Of "abbab" the tokens "abb" and "ab" are kept. -/
theorem sharedStart_kept : ∃ fuel results,
    sharedStart.normalizeLoop [0x61, 0x62, 0x62, 0x61, 0x62] fuel 0 [] = some results ∧
      Cut sharedStart.Rule [0x61, 0x62, 0x62, 0x61, 0x62] results := by
  refine (normalizeAll_iff fun _ _ _ => rfl).mpr fun rest hLeft hRest => ?_
  have hAll : ∀ rest ∈ [0x61, 0x62, 0x62, 0x61, 0x62].tails, rest ≠ [] →
      (∀ token ∈ sharedStart.userDefinedTexts, ∀ m ≤ token.length, 0 < m → token.take m <+: rest →
        ∃ found ∈ sharedStart.userDefinedTexts, m ≤ found.length ∧ found <+: rest) ∧
      ∃ m ≤ rest.length, 0 < m ∧ sharedStart.userDefined (rest.take m) ≠ none := by decide
  obtain ⟨hCommon, m, hLe, hPos, hSome⟩ := hAll rest ((mem_tails _ _).mpr hLeft.suffix) hRest
  exact ⟨fun token hToken m hPos hLe => hCommon token hToken m hLe hPos,
    fun hNone => absurd (hNone m hPos hLe) hSome, fun hNone => absurd (hNone m hPos hLe) hSome⟩

/-- "é" is user-defined: of "è" the first byte is kept, and the second one replaced. -/
theorem halfCharacter_kept : ¬∃ fuel results,
    normalizeLoop ⟨[[0xC3, 0xA9]], [], []⟩ [0xC3, 0xA8] fuel 0 [] = some results ∧
      Cut (Rule ⟨[[0xC3, 0xA9]], [], []⟩) [0xC3, 0xA8] results := by
  rintro ⟨fuel, results, hRun, hCut⟩
  obtain ⟨_, rfl, hTakes⟩ := normalizeLoop_cut hRun
  have hFits := (takes_cut_iff fun _ _ _ => rfl).mp ⟨_, hTakes, hCut⟩ _ .whole (cons_ne_nil _ _)
  obtain ⟨found, hFound, -, hPrefix⟩ :=
    hFits.userDefined _ (mem_singleton.mpr rfl) 1 (by decide) (by decide) (by decide)
  obtain rfl := mem_singleton.mp hFound
  revert hPrefix
  decide

end UgmNormalizer

end Beellama.Ports
