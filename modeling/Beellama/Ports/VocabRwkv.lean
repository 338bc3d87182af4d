import Beellama.Ports.NaiveTrie
import Beellama.Verified.Cut
import Mathlib.Algebra.Order.Ring.Int

/-!
# The RWKV tokenizer

`llm_tokenizer_rwkv_session::tokenize` looks for the longest token at each place of a text.  It ends
where it never starts on a token that does not go on as the text does (`tokenize_iff`).
-/

namespace Beellama.Ports

open Beellama.Verified List

/-- The state of the parser in `llama_unescape_rwkv_token`. -/
structure UnescapeState where
  escaping : Bool := false
  hexRemaining : Nat := 0
  hexAcc : UInt8 := 0
  output : List UInt8 := []

/-- What a character stands for after a backslash. -/
def escapeOf (c : UInt8) : UInt8 :=
  if c = 't'.toUInt8 then 9 else if c = 'n'.toUInt8 then 10 else if c = 'r'.toUInt8 then 13 else c

/-- The body of the loop of `llama_unescape_rwkv_token`. -/
def unescapeStep (s : UnescapeState) (c : UInt8) : UnescapeState :=
  if s.hexRemaining ≠ 0 then
    -- `char` is signed, so the bytes from 0x80 on are below 'a'
    let value := if 'a'.toUInt8 ≤ c ∧ c < 0x80 then c - 'a'.toUInt8 + 10 else c - '0'.toUInt8
    let hexAcc := (s.hexAcc <<< 4) + value
    if s.hexRemaining = 1 then
      { s with hexRemaining := 0, hexAcc := 0, output := s.output ++ [hexAcc] }
    else { s with hexRemaining := s.hexRemaining - 1, hexAcc }
  else if s.escaping then
    if c = 'x'.toUInt8 then { s with escaping := false, hexRemaining := 2 }
    else { s with escaping := false, output := s.output ++ [escapeOf c] }
  else if c = '\\'.toUInt8 then { s with escaping := true }
  else { s with output := s.output ++ [c] }

def llamaUnescapeRwkvToken (escaped : List UInt8) : List UInt8 :=
  (escaped.foldl unescapeStep {}).output

/-- The vocabulary: the texts of the tokens as they are stored. -/
structure RwkvVocab where
  tokens : List (List UInt8)
  tokenUnk : Int32

namespace RwkvVocab

/-- `token_matcher` -/
def tokenMatcher (v : RwkvVocab) : NaiveTrie :=
  v.tokens.zipIdx.foldl
    (fun t token => t.insert (llamaUnescapeRwkvToken token.1) (Int32.ofNat token.2)) .empty

mutual

/-- The body of the inner loop, `position` and `token_length` being 32-bit numbers. -/
def visitNode (text : List UInt8) : NaiveTrie → UInt32 → Int32 → UInt32 → Int32 × UInt32
  | .node value children, position, tokenId, tokenLength =>
    let tokenId := value.getD tokenId
    let tokenLength := if value.isSome then position + 1 else tokenLength
    match text[(position + 1).toNat]? with
    | none => (tokenId, tokenLength)
    | some c => matchLoop text (children c) (position + 1) tokenId tokenLength

/-- `while (node != NULL)` -/
def matchLoop (text : List UInt8) :
    Option NaiveTrie → UInt32 → Int32 → UInt32 → Int32 × UInt32
  | none, _, tokenId, tokenLength => (tokenId, tokenLength)
  | some node, position, tokenId, tokenLength => visitNode text node position tokenId tokenLength

end

/-- `while (position < text.size())`, `none` when it has not ended. -/
def tokenizeLoop (v : RwkvVocab) (text : List UInt8) :
    Nat → UInt32 → List Int32 → Option (List Int32)
  | 0, _, _ => none
  | fuel + 1, position, output =>
    match text[position.toNat]? with
    | none => some output
    | some c =>
      match v.tokenMatcher.traverse c with
      | none => v.tokenizeLoop text fuel (position + 1) (output ++ [v.tokenUnk])
      | some node =>
        let (tokenId, tokenLength) := matchLoop text (some node) position 0 0
        v.tokenizeLoop text fuel tokenLength (output ++ [tokenId])

/-- `llm_tokenizer_rwkv_session::tokenize` -/
def tokenize (v : RwkvVocab) (text : List UInt8) (fuel : Nat) : Option (List Int32) :=
  v.tokenizeLoop text fuel 0 []

/-- The token with a text, the last one of several. -/
def tokenOf (v : RwkvVocab) (text : List UInt8) : Option Int32 :=
  (v.tokens.zipIdx.reverse.find? fun (token, _) => llamaUnescapeRwkvToken token = text).map
    fun (_, id) => Int32.ofNat id

/-- What the greedy tokenizer does first. -/
inductive Greedy (v : RwkvVocab) (rest : List UInt8) : Nat → Int32 → Prop
  | token {n : Nat} {id : Int32}
      (hLongest : LongestUpTo v.tokenOf rest rest.length (some (n, id))) : Greedy v rest n id
  | unknown (hNone : LongestUpTo v.tokenOf rest rest.length none) : Greedy v rest 1 v.tokenUnk

/-- Where a token starts with the next byte, some token is a prefix. -/
def GoesOn (v : RwkvVocab) (rest : List UInt8) : Prop :=
  LongestUpTo v.tokenOf rest rest.length none →
    ∀ token ∈ v.tokens, (llamaUnescapeRwkvToken token).head? ≠ rest.head?

variable {v : RwkvVocab} {text rest key : List UInt8} {output : List Int32} {position : UInt32}
  {tokenId : Int32} {tokenLength : UInt32} {n k start fuel : Nat} {id : Int32}

theorem matcher_valueOf : v.tokenMatcher.valueOf key = v.tokenOf key := by
  unfold tokenMatcher tokenOf
  induction v.tokens using reverseRecOn with
  | nil => exact NaiveTrie.valueOf_empty
  | append_singleton tokens last ih =>
    rw [zipIdx_append, foldl_append]
    simp only [zipIdx_singleton, foldl_cons, foldl_nil]
    rw [NaiveTrie.valueOf_insert, ih]
    by_cases hKey : key = llamaUnescapeRwkvToken last
    · simp [hKey]
    · simp [hKey, Ne.symm hKey]

/-- What the inner loop has found so far. -/
def Holds (start : Nat) (found : Option (Nat × Int32)) (tokenId : Int32) (tokenLength : UInt32) :
    Prop :=
  tokenId = found.elim 0 Prod.snd ∧ tokenLength.toNat = found.elim 0 fun p => start + p.1

theorem matchLoop_spec {node : Option NaiveTrie} {found : Option (Nat × Int32)}
    (hText : text.length < 2 ^ 32) (hk : start + k < text.length)
    (hPosition : position.toNat = start + k)
    (hNode : v.tokenMatcher.walk ((text.drop start).take (k + 1)) = node)
    (hLongest : LongestUpTo v.tokenOf (text.drop start) k found)
    (hHolds : Holds start found tokenId tokenLength) :
    ∃ found, LongestUpTo v.tokenOf (text.drop start) (text.drop start).length found ∧
      Holds start found (matchLoop text node position tokenId tokenLength).1
        (matchLoop text node position tokenId tokenLength).2 := by
  induction hLeft : text.length - (start + k) generalizing k node found position tokenId tokenLength with
  | zero => omega
  | succ left ih =>
    cases node with
    | none =>
      refine ⟨found, hLongest.mono (by rw [length_drop]; omega) fun m hm hLe => ?_, hHolds⟩
      rw [← matcher_valueOf, NaiveTrie.valueOf, ← take_append_drop (k + 1) (take m _), take_take,
        Nat.min_eq_left (by omega), NaiveTrie.walk_append, hNode]
      rfl
    | some node =>
      obtain ⟨value, children⟩ := node
      have hValue : v.tokenOf ((text.drop start).take (k + 1)) = value := by
        rw [← matcher_valueOf, NaiveTrie.valueOf, hNode]
        rfl
      have hNext : (position + 1).toNat = start + (k + 1) := by
        rw [UInt32.toNat_add, hPosition]
        exact Nat.mod_eq_of_lt (by simp; omega)
      have hFound := hLongest.succ
      rw [hValue] at hFound
      have hHolds' : Holds start (value.elim found fun out => some (k + 1, out))
          (value.getD tokenId) (if value.isSome then position + 1 else tokenLength) := by
        cases value with
        | none => exact hHolds
        | some value => exact ⟨rfl, hNext⟩
      rw [matchLoop, visitNode, hNext]
      cases hChar : text[start + (k + 1)]? with
      | none =>
        have hEnd := getElem?_eq_none_iff.mp hChar
        rw [show (text.drop start).length = k + 1 by rw [length_drop]; omega]
        exact ⟨_, hFound, hHolds'⟩
      | some c =>
        have hlt := (List.getElem?_eq_some_iff.mp hChar).1
        refine ih hlt hNext ?_ hFound hHolds' (by omega)
        rw [take_add_one, NaiveTrie.walk_append, hNode, getElem?_drop, hChar]
        simp [NaiveTrie.walk, NaiveTrie.traverse]

theorem Greedy.unique {m : Nat} {id' : Int32} (h : v.Greedy rest n id) (h' : v.Greedy rest m id') :
    n = m := by
  cases h with
  | token hLongest =>
    cases h' with
    | token hLongest' => exact (Prod.mk.inj (Option.some.inj (hLongest.unique hLongest'))).1
    | unknown hNone => exact absurd (hLongest.unique hNone) (by simp)
  | unknown hNone =>
    cases h' with
    | token hLongest' => exact absurd (hNone.unique hLongest') (by simp)
    | unknown => rfl

theorem exists_greedy : ∃ n id, v.Greedy rest n id := by
  obtain ⟨found, hLongest⟩ := exists_longestUpTo v.tokenOf rest rest.length
  cases found with
  | none => exact ⟨_, _, .unknown hLongest⟩
  | some found => exact ⟨_, _, .token hLongest⟩

theorem Greedy.pos (h : v.Greedy rest n id) : 0 < n := by
  cases h with
  | token hLongest => exact hLongest.1
  | unknown => exact Nat.one_pos

theorem isSome_traverse {c : UInt8} :
    (v.tokenMatcher.traverse c).isSome ↔
      ∃ token ∈ v.tokens, (llamaUnescapeRwkvToken token).head? = some c := by
  have hWalk : v.tokenMatcher.walk [c] = v.tokenMatcher.traverse c := by
    rw [NaiveTrie.walk_cons]
    cases v.tokenMatcher.traverse c <;> rfl
  have hHead : ∀ text : List UInt8, [c] <+: text ↔ text.head? = some c := by
    intro text
    cases text with
    | nil => simp
    | cons d text => simp [eq_comm]
  rw [← hWalk, tokenMatcher, NaiveTrie.isSome_walk_foldl (cons_ne_nil c [])]
  simp only [hHead]
  conv_rhs => rw [← zipIdx_map_fst 0 v.tokens]
  simp only [mem_map, Prod.exists, exists_and_right, exists_eq_right]

section

variable (hText : text.length < 2 ^ 32)

include hText

theorem tokenizeLoop_succ (hEnd : position.toNat < text.length)
    (hGreedy : v.Greedy (text.drop position.toNat) n id) :
    ∃ next id', (∀ fuel, v.tokenizeLoop text (fuel + 1) position output =
        v.tokenizeLoop text fuel next (output ++ [id'])) ∧
      (v.GoesOn (text.drop position.toNat) → next.toNat = position.toNat + n ∧ id' = id) ∧
      (¬v.GoesOn (text.drop position.toNat) → next = 0) := by
  have hHead : (text.drop position.toNat).head? = some text[position.toNat] := by
    rw [head?_drop, getElem?_eq_getElem hEnd]
  have hStarts := isSome_traverse (v := v) (c := text[position.toNat])
  simp only [tokenizeLoop, getElem?_eq_getElem hEnd]
  generalize hNode : v.tokenMatcher.traverse text[position.toNat] = node at hStarts
  have hWalk : v.tokenMatcher.walk ((text.drop position.toNat).take (0 + 1)) = node := by
    rw [drop_eq_getElem_cons hEnd, take_succ_cons, NaiveTrie.walk_cons, hNode]
    cases node <;> rfl
  obtain ⟨found, hLongest, hId, hLength⟩ := @matchLoop_spec _ _ _ 0 0 0
    position.toNat _ _ hText hEnd rfl hWalk .zero ⟨rfl, rfl⟩
  cases node with
  | none =>
    have hNone : found = none := by
      cases found with
      | none => rfl
      | some found =>
        have hPos := hLongest.1
        simp [matchLoop] at hLength
        omega
    subst hNone
    have hGoesOn : v.GoesOn (text.drop position.toNat) := by
      intro _ token hToken hSame
      have := hStarts.mpr ⟨token, hToken, hSame.trans hHead⟩
      simp at this
    refine ⟨position + 1, v.tokenUnk, fun _ => rfl, fun _ => ?_, fun h => absurd hGoesOn h⟩
    cases hGreedy with
    | token hFound => exact absurd (hFound.unique hLongest) (by simp)
    | unknown =>
      refine ⟨?_, rfl⟩
      exact Nat.mod_eq_of_lt (by simp; omega)
  | some node =>
    refine ⟨_, _, fun _ => rfl, fun hGoesOn => ?_, fun hStuck => ?_⟩
    · cases hGreedy with
      | token hFound =>
        obtain rfl := hFound.unique hLongest
        exact ⟨hLength, hId⟩
      | unknown hNone =>
        obtain ⟨token, hToken, hSame⟩ := hStarts.mp rfl
        exact absurd (hSame.trans hHead.symm) (hGoesOn hNone token hToken)
    cases found with
    | none => exact UInt32.toNat_inj.mp hLength
    | some found =>
      exact absurd (fun hNone => absurd (hNone.unique hLongest) (by simp)) hStuck

/-- A text that fits is cut the greedy way where every place is gone on from. -/
theorem tokenizeLoop_of_goesOn
    (hGoesOn : ∀ rest, IsLeft v.Greedy (text.drop position.toNat) rest → rest ≠ [] → v.GoesOn rest)
    {outs : List Int32} (hCut : Cut v.Greedy (text.drop position.toNat) outs) :
    ∃ fuel, v.tokenizeLoop text fuel position output = some (output ++ outs) := by
  generalize hRest : text.drop position.toNat = rest at hCut hGoesOn
  induction hCut generalizing position output with
  | nil =>
    refine ⟨1, ?_⟩
    rw [tokenizeLoop, getElem?_eq_none (drop_eq_nil_iff.mp hRest), append_nil]
  | cons hNe hGreedy _ ih =>
    subst hRest
    have hEnd : position.toNat < text.length := by
      by_contra hEnd
      exact hNe (drop_of_length_le (by omega))
    obtain ⟨next, id, hStep, hNext, -⟩ := @tokenizeLoop_succ _ _ output _ _ _ hText hEnd hGreedy
    obtain ⟨hAt, rfl⟩ := hNext (hGoesOn _ .whole hNe)
    obtain ⟨fuel, hRun⟩ := @ih (output ++ [id]) next
      (by rw [hAt, drop_drop]) fun rest hLeft => hGoesOn rest (hLeft.cons hNe hGreedy)
    exact ⟨fuel + 1, by rw [hStep, hRun, append_assoc, singleton_append]⟩

/-- Before a place that is not gone on from, the loop never ends. -/
theorem tokenizeLoop_stuck (hRest : rest ≠ [])
    (hStuck : ¬v.GoesOn rest) (hWhole : IsLeft v.Greedy text rest)
    (hLeft : IsLeft v.Greedy (text.drop position.toNat) rest) :
    v.tokenizeLoop text fuel position output = none := by
  induction fuel generalizing position output with
  | zero => rfl
  | succ fuel ih =>
    have hEnd : position.toNat < text.length := by
      by_contra hEnd
      rw [drop_of_length_le (by omega)] at hLeft
      exact hRest (suffix_nil.mp hLeft.suffix)
    obtain ⟨n, id, hGreedy⟩ := @exists_greedy v (text.drop position.toNat)
    obtain ⟨next, id', hStep, hNext, hBack⟩ := @tokenizeLoop_succ _ _ output _ _ _ hText hEnd hGreedy
    rw [hStep]
    by_cases hGoesOn : v.GoesOn (text.drop position.toNat)
    · obtain ⟨hNext, -⟩ := hNext hGoesOn
      obtain rfl | ⟨m, id', hFirst, hLeft⟩ := hLeft.eq_or
      · exact absurd hGoesOn hStuck
      · apply ih
        rwa [hNext, ← drop_drop, hGreedy.unique hFirst]
    · rw [hBack hGoesOn]
      exact ih hWhole

end

theorem tokenizeLoop_long (hText : 2 ^ 32 ≤ text.length) :
    v.tokenizeLoop text fuel position output = none := by
  induction fuel generalizing position output with
  | zero => rfl
  | succ fuel ih =>
    rw [tokenizeLoop, getElem?_eq_getElem (Nat.lt_of_lt_of_le position.toNat_lt hText)]
    dsimp only
    split <;> exact ih

/-- The tokenizer ends with the greedy tokens of a text just when the text has less than 2^32 bytes
and, at each place the greedy tokens leave, some token is a prefix if one starts with the next
byte. -/
theorem tokenize_iff :
    (∃ fuel output, v.tokenize text fuel = some output ∧ Cut v.Greedy text output) ↔
      text.length < 2 ^ 32 ∧
        ∀ rest, IsLeft v.Greedy text rest → rest ≠ [] → v.GoesOn rest := by
  constructor
  · rintro ⟨fuel, output, hRun, -⟩
    have hText : text.length < 2 ^ 32 := by
      by_contra hLong
      rw [tokenize, tokenizeLoop_long (Nat.le_of_not_lt hLong)] at hRun
      cases hRun
    refine ⟨hText, fun rest hLeft hRest => ?_⟩
    by_contra hStuck
    rw [tokenize, @tokenizeLoop_stuck _ _ _ _ 0 _ hText hRest hStuck hLeft hLeft] at hRun
    cases hRun
  rintro ⟨hText, hGoesOn⟩
  obtain ⟨outs, hCut⟩ := @exists_cut _ _ v.Greedy text Greedy.pos
    fun rest _ _ => v.exists_greedy
  obtain ⟨fuel, hRun⟩ := @tokenizeLoop_of_goesOn _ _ [] 0 hText hGoesOn _ hCut
  exact ⟨fuel, outs, hRun, hCut⟩

/-- "ab" alone: on "a" the tokenizer starts over for ever. -/
theorem onlyAb_never_ends :
    ¬∃ fuel output, tokenize ⟨[[0x61, 0x62]], 0⟩ [0x61] fuel = some output ∧
      Cut (Greedy ⟨[[0x61, 0x62]], 0⟩) [0x61] output := by
  rintro ⟨fuel, output, hRun, -⟩
  have hStuck : ¬GoesOn ⟨[[0x61, 0x62]], 0⟩ [0x61] := by
    intro hGoesOn
    refine hGoesOn (fun m hPos hLe => ?_) [0x61, 0x62] (by simp) (by decide)
    obtain rfl : m = 1 := Nat.le_antisymm hLe hPos
    decide
  rw [tokenize, @tokenizeLoop_stuck _ _ _ _ 0 _ (by decide) (by simp) hStuck .whole .whole] at hRun
  cases hRun

end RwkvVocab

end Beellama.Ports
