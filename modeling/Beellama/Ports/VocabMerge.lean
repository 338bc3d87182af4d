import Beellama.Verified.BestPair
import Beellama.Verified.Search

/-!
# Merging symbols

The loop of the SPM and the BPE tokenizer: the symbols of a text are linked by their indices, and a
queue holds pairs of neighbours, of which those are skipped that have changed.  The loop merges the best
pair of neighbours as long as there is one (`mergeLoop_spec`).
-/

namespace Beellama.Ports

open Beellama.Verified List Option

/-- `llm_symbol`; the text is the offset of the symbol in the text of the session. -/
structure LlmSymbol where
  prev : Option Nat
  next : Option Nat
  text : Nat
  n : Nat
  deriving DecidableEq

/-- `llm_bigram_spm` and `llm_bigram_bpe`; `key` is the rank, or the score with the opposite
sign, so that the least comes first. -/
structure LlmBigram where
  left : Nat
  right : Nat
  key : Int
  text : List UInt8
  size : Nat
  deriving DecidableEq

namespace LlmBigram

/-- The order of the queue. -/
def before (a b : LlmBigram) : Bool := a.key < b.key || (a.key == b.key && a.left < b.left)

/-- The top of the queue and the rest.  Which of several equal entries a heap gives first is not
specified; the proofs use only that none of the rest comes before it. -/
def pop : List LlmBigram → Option (LlmBigram × List LlmBigram)
  | [] => none
  | a :: queue =>
    match pop queue with
    | none => some (a, [])
    | some (b, rest) => if before b a then some (b, a :: rest) else some (a, b :: rest)

end LlmBigram

/-- The text and the key of two neighbouring symbols, and whether an entry of the queue is outdated.
-/
structure MergeRules where
  bigram : List UInt8 → LlmSymbol → LlmSymbol → Option (List UInt8 × Int)
  outdated : List UInt8 → LlmSymbol → LlmSymbol → LlmBigram → Bool

/-- The session: the symbols, the queue and, for the SPM tokenizer, `rev_merge`. -/
structure MergeSession where
  symbols : List LlmSymbol
  workQueue : List LlmBigram := []
  revMerge : List (List UInt8 × Nat × Nat) := []
  deriving DecidableEq

/-- `unicode_len_utf8` -/
def unicodeLenUtf8 (c : UInt8) : Nat :=
  if c < 0xC0 then 1 else if c < 0xE0 then 2 else if c < 0xF0 then 3 else 4

/-- The symbols of a text from an offset on, the first of them with this index. -/
def splitSymbols (text : List UInt8) : Nat → Nat → Nat → List LlmSymbol
  | 0, _, _ => []
  | fuel + 1, offs, index =>
    match text[offs]? with
    | none => []
    | some c =>
      let n := min (unicodeLenUtf8 c) (text.length - offs)
      { prev := if index = 0 then none else some (index - 1)
        next := if offs + n = text.length then none else some (index + 1)
        text := offs
        n } :: splitSymbols text fuel (offs + n) (index + 1)

namespace MergeSession

/-- `try_add_bigram` and `add_new_bigram` -/
def tryAddBigram (rules : MergeRules) (text : List UInt8) (session : MergeSession)
    (left right : Option Nat) : MergeSession :=
  match left, right with
  | some left, some right =>
    match session.symbols[left]?, session.symbols[right]? with
    | some leftSym, some rightSym =>
      match rules.bigram text leftSym rightSym with
      | none => session
      | some (pair, key) =>
        { session with
          workQueue := { left, right, key, text := pair, size := pair.length } ::
            session.workQueue
          revMerge := (pair, left, right) :: session.revMerge }
    | _, _ => session
  | _, _ => session

/-- The queue with the pairs of all neighbours. -/
def seed (rules : MergeRules) (text : List UInt8) (symbols : List LlmSymbol) : MergeSession :=
  (List.range' 1 (symbols.length - 1)).foldl
    (fun session i => session.tryAddBigram rules text (some (i - 1)) (some i)) { symbols }

/-- Merge the right symbol of a pair into the left one, and take it out of the chain. -/
def merge (session : MergeSession) (left right : Nat) (leftSym rightSym : LlmSymbol) :
    MergeSession :=
  let symbols := (session.symbols.set left
    { leftSym with n := leftSym.n + rightSym.n, next := rightSym.next }).set right
      { rightSym with n := 0 }
  { session with
    symbols := match rightSym.next with
      | none => symbols
      | some next => symbols.modify next fun sym => { sym with prev := some left } }

/-- One pass of the loop, when the queue is not empty. -/
def step (rules : MergeRules) (text : List UInt8) (session : MergeSession) : Option MergeSession :=
  match LlmBigram.pop session.workQueue with
  | none => none
  | some (bigram, workQueue) =>
    let session := { session with workQueue }
    match session.symbols[bigram.left]?, session.symbols[bigram.right]? with
    | some leftSym, some rightSym =>
      if leftSym.n = 0 ∨ rightSym.n = 0 ∨ rules.outdated text leftSym rightSym bigram = true then
        some session
      else
        let merged := session.merge bigram.left bigram.right leftSym rightSym
        some ((merged.tryAddBigram rules text leftSym.prev (some bigram.left)).tryAddBigram rules
          text (some bigram.left) rightSym.next)
    | _, _ => some session

/-- The loop, until the queue is empty; without a result it does not end. -/
def mergeLoop (rules : MergeRules) (text : List UInt8) : Nat → MergeSession → Option MergeSession
  | 0, _ => none
  | fuel + 1, session =>
    match session.step rules text with
    | none => some session
    | some session => mergeLoop rules text fuel session

/-- The session after the loop: a pass takes an entry, and a merge, which adds two at most, takes a
symbol. -/
def run (rules : MergeRules) (text : List UInt8) (symbols : List LlmSymbol) : Option MergeSession :=
  mergeLoop rules text (3 * symbols.length + 1) (seed rules text symbols)

end MergeSession

/-! ## The queue -/

theorem LlmBigram.pop_eq_none {queue : List LlmBigram} (h : pop queue = none) : queue = [] := by
  cases queue with
  | nil => rfl
  | cons a queue =>
    unfold pop at h
    split at h
    · exact absurd h (by simp)
    · split at h <;> exact absurd h (by simp)

/-- The top comes before no other entry, and nothing else leaves the queue. -/
theorem LlmBigram.pop_eq_some {queue rest : List LlmBigram} {top : LlmBigram}
    (h : pop queue = some (top, rest)) :
    queue.Perm (top :: rest) ∧ ∀ b ∈ rest, before b top = false := by
  induction queue generalizing top rest with
  | nil => exact absurd h (by simp [pop])
  | cons a queue ih =>
    unfold pop at h
    split at h
    · rename_i hNone
      obtain ⟨rfl, rfl⟩ := Prod.mk.inj (some.inj h)
      rw [pop_eq_none hNone]
      exact ⟨List.Perm.refl _, fun b hMem => absurd hMem not_mem_nil⟩
    rename_i b others hSome
    obtain ⟨hPerm, hFirst⟩ := ih hSome
    split at h
    · rename_i hBefore
      obtain ⟨rfl, rfl⟩ := Prod.mk.inj (some.inj h)
      refine ⟨(hPerm.cons a).trans (List.Perm.swap _ _ _), fun c hMem => ?_⟩
      rcases mem_cons.mp hMem with rfl | hOther
      · unfold before at hBefore ⊢
        simp only [Bool.or_eq_true, Bool.and_eq_true, decide_eq_true_eq, beq_iff_eq,
          Bool.or_eq_false_iff, Bool.and_eq_false_iff, decide_eq_false_iff_not,
          beq_eq_false_iff_ne] at hBefore ⊢
        omega
      · exact hFirst c hOther
    rename_i hBefore
    obtain ⟨rfl, rfl⟩ := Prod.mk.inj (some.inj h)
    refine ⟨hPerm.cons _, fun c hMem => ?_⟩
    have hNot := Bool.eq_false_iff.mpr hBefore
    rcases mem_cons.mp hMem with rfl | hOther
    · exact hNot
    have hFirstC := hFirst c hOther
    unfold before at hNot hFirstC ⊢
    simp only [Bool.or_eq_false_iff, Bool.and_eq_false_iff, decide_eq_false_iff_not,
      beq_eq_false_iff_ne] at hNot hFirstC ⊢
    omega

/-! ## The chain of symbols -/

variable {text : List UInt8} {symbols : List LlmSymbol} {chain : List Nat}

/-- The symbols that are not empty, in their order: they are linked, and each begins where the one
before ends. -/
structure Chained (text : List UInt8) (symbols : List LlmSymbol) (chain : List Nat) : Prop where
  sorted : chain.Pairwise (· < ·)
  live : ∀ i sym, symbols[i]? = some sym → (0 < sym.n ↔ i ∈ chain)
  symbol : ∀ k i, chain[k]? = some i → ∃ sym, symbols[i]? = some sym ∧
    sym.prev = (if k = 0 then none else chain[k - 1]?) ∧ sym.next = chain[k + 1]? ∧
      sym.text + sym.n ≤ text.length
  adjacent : ∀ k i j sym other, chain[k]? = some i → chain[k + 1]? = some j →
    symbols[i]? = some sym → symbols[j]? = some other → other.text = sym.text + sym.n

/-- The text of a symbol. -/
def symbolPiece (text : List UInt8) (symbols : List LlmSymbol) (i : Nat) : List UInt8 :=
  match symbols[i]? with
  | some sym => slice text sym.text sym.n
  | none => []

/-- The texts of the symbols of a chain. -/
def chainPieces (text : List UInt8) (symbols : List LlmSymbol) (chain : List Nat) :
    List (List UInt8) :=
  chain.map (symbolPiece text symbols)

variable {sym : LlmSymbol}

theorem symbolPiece_of_getElem? {i : Nat} (h : symbols[i]? = some sym) :
    symbolPiece text symbols i = slice text sym.text sym.n := by
  unfold symbolPiece
  rw [h]

theorem getElem?_chainPieces {k i : Nat} (hChain : chain[k]? = some i)
    (hSym : symbols[i]? = some sym) :
    (chainPieces text symbols chain)[k]? = some (slice text sym.text sym.n) := by
  unfold chainPieces
  rw [getElem?_map, hChain, map_some, symbolPiece_of_getElem? hSym]

namespace Chained

variable (h : Chained text symbols chain)

include h

theorem lt_of_lt {k m i j : Nat} (hi : chain[k]? = some i)
    (hj : chain[m]? = some j) (hLt : k < m) : i < j := by
  obtain ⟨hk, rfl⟩ := List.getElem?_eq_some_iff.mp hi
  obtain ⟨hm, rfl⟩ := List.getElem?_eq_some_iff.mp hj
  exact pairwise_iff_getElem.mp h.sorted k m hk hm hLt

theorem index_lt {k m i j : Nat} (hi : chain[k]? = some i)
    (hj : chain[m]? = some j) (hLt : i < j) : k < m := by
  by_contra hNot
  rcases Nat.lt_or_eq_of_le (Nat.le_of_not_lt hNot) with hGt | hEq
  · exact absurd (h.lt_of_lt hj hi hGt) (by omega)
  · rw [hEq, hi] at hj
    exact absurd (some.inj hj) (by omega)

theorem index_unique {k m i : Nat} (hi : chain[k]? = some i) (hj : chain[m]? = some i) : k = m := by
  rcases Nat.lt_trichotomy k m with hLt | hEq | hGt
  · exact absurd (h.lt_of_lt hi hj hLt) (Nat.lt_irrefl i)
  · exact hEq
  · exact absurd (h.lt_of_lt hj hi hGt) (Nat.lt_irrefl i)

theorem pos {k i : Nat} (hi : chain[k]? = some i) (hSym : symbols[i]? = some sym) : 0 < sym.n :=
  (h.live i sym hSym).mpr (mem_of_getElem? hi)

theorem text_le (d : Nat) {k i j : Nat} {sym other : LlmSymbol}
    (hi : chain[k]? = some i) (hj : chain[k + 1 + d]? = some j) (hSym : symbols[i]? = some sym)
    (hOther : symbols[j]? = some other) :
    sym.text + sym.n ≤ other.text ∧ (0 < d → sym.text + sym.n < other.text) := by
  induction d generalizing j other with
  | zero => exact ⟨Nat.le_of_eq (h.adjacent k i j sym other hi hj hSym hOther).symm,
      fun hPos => absurd hPos (Nat.lt_irrefl 0)⟩
  | succ d ih =>
    have hLt : k + 1 + d < chain.length := by
      have := (List.getElem?_eq_some_iff.mp hj).1
      omega
    have hMid : chain[k + 1 + d]? = some chain[k + 1 + d] := getElem?_eq_getElem hLt
    obtain ⟨mid, hMidSym, -⟩ := h.symbol _ _ hMid
    obtain ⟨hLe, -⟩ := ih hMid hMidSym
    have hNext := h.adjacent _ _ _ mid other hMid hj hMidSym hOther
    have hPos := h.pos hMid hMidSym
    exact ⟨by omega, fun _ => by omega⟩

/-- A live symbol that begins at or before the end of another one is its neighbour. -/
theorem neighbour {i j : Nat} {sym other : LlmSymbol}
    (hSym : symbols[i]? = some sym) (hOther : symbols[j]? = some other) (hPos : 0 < sym.n)
    (hPosOther : 0 < other.n) (hLt : i < j) (hText : other.text ≤ sym.text + sym.n) :
    ∃ k, chain[k]? = some i ∧ chain[k + 1]? = some j := by
  obtain ⟨k, hk⟩ := mem_iff_getElem?.mp ((h.live i sym hSym).mp hPos)
  obtain ⟨m, hm⟩ := mem_iff_getElem?.mp ((h.live j other hOther).mp hPosOther)
  obtain ⟨d, rfl⟩ := Nat.exists_eq_add_of_lt (h.index_lt hk hm hLt)
  have hShift : chain[k + 1 + d]? = some j := by
    rwa [show k + 1 + d = k + d + 1 by omega]
  have hBehind := (h.text_le d hk hShift hSym hOther).2
  have hZero : d = 0 := by
    by_contra hNonzero
    omega
  rw [hZero] at hShift
  exact ⟨k, hk, hShift⟩

end Chained

/-! ## A merge of two neighbours -/

section Merge

variable {session : MergeSession} {k i j : Nat} {sym other : LlmSymbol}

/-- What a merge does to a symbol. -/
def mergedSymbol (i j : Nat) (sym other : LlmSymbol) (m : Nat) (old : LlmSymbol) : LlmSymbol where
  prev := if other.next = some m then some i else old.prev
  next := if m = i then other.next else old.next
  text := old.text
  n := if m = j then 0 else if m = i then sym.n + other.n else old.n

theorem getElem?_merge (hSym : session.symbols[i]? = some sym)
    (hOther : session.symbols[j]? = some other) (hij : i ≠ j) (m : Nat) :
    (session.merge i j sym other).symbols[m]? =
      session.symbols[m]?.map (mergedSymbol i j sym other m) := by
  have hi : i < session.symbols.length := (List.getElem?_eq_some_iff.mp hSym).1
  have hj : j < session.symbols.length := (List.getElem?_eq_some_iff.mp hOther).1
  have hSet : ((session.symbols.set i
      { sym with n := sym.n + other.n, next := other.next }).set j { other with n := 0 })[m]? =
      session.symbols[m]?.map fun old =>
        { old with
          next := if m = i then other.next else old.next
          n := if m = j then 0 else if m = i then sym.n + other.n else old.n } := by
    by_cases hmj : m = j
    · subst hmj
      rw [getElem?_set_self (by rw [length_set]; exact hj), hOther, map_some,
        if_pos rfl, if_neg hij.symm]
    rw [getElem?_set_ne (Ne.symm hmj)]
    by_cases hmi : m = i
    · subst hmi
      rw [getElem?_set_self hi, hSym, map_some, if_neg hmj, if_pos rfl, if_pos rfl]
    rw [getElem?_set_ne (Ne.symm hmi)]
    cases session.symbols[m]? with
    | none => rfl
    | some old => simp [hmj, hmi]
  unfold MergeSession.merge
  cases hNext : other.next with
  | none =>
    rw [hNext] at hSet
    rw [hSet]
    cases session.symbols[m]? with
    | none => rfl
    | some old => simp [mergedSymbol, hNext]
  | some next =>
    rw [hNext] at hSet
    dsimp only
    rw [getElem?_modify, hSet, Option.map_eq_map]
    cases session.symbols[m]? with
    | none => rfl
    | some old =>
      by_cases hm : next = m
      · simp [mergedSymbol, hNext, hm]
      · simp [mergedSymbol, hNext, hm]

theorem length_merge : (session.merge i j sym other).symbols.length = session.symbols.length := by
  unfold MergeSession.merge
  split <;> simp

theorem getElem?_eraseIdx_succ (m : Nat) :
    (chain.eraseIdx (k + 1))[m]? = if m ≤ k then chain[m]? else chain[m + 1]? := by
  rw [getElem?_eraseIdx]
  by_cases hm : m ≤ k
  · rw [if_pos (by omega), if_pos hm]
  · rw [if_neg (by omega), if_neg hm]

theorem Chained.merge (h : Chained text session.symbols chain) (hi : chain[k]? = some i)
    (hj : chain[k + 1]? = some j) (hSym : session.symbols[i]? = some sym)
    (hOther : session.symbols[j]? = some other) :
    Chained text (session.merge i j sym other).symbols (chain.eraseIdx (k + 1)) := by
  have hij : i < j := h.lt_of_lt hi hj (Nat.lt_succ_self k)
  have hAt := getElem?_merge hSym hOther (Nat.ne_of_lt hij)
  obtain ⟨_, hSame, -, hNext, hBound⟩ := h.symbol (k + 1) j hj
  rw [hOther] at hSame
  obtain rfl := some.inj hSame
  have hText := h.adjacent k i j sym _ hi hj hSym hOther
  have hNe : ∀ m p, chain[m]? = some p → m ≠ k → p ≠ i := by
    intro m p hp hm hEq
    exact hm (h.index_unique hp (hEq ▸ hi))
  have hNeRight : ∀ m p, chain[m]? = some p → m ≠ k + 1 → p ≠ j := by
    intro m p hp hm hEq
    exact hm (h.index_unique hp (hEq ▸ hj))
  refine ⟨h.sorted.sublist (eraseIdx_sublist _ _), fun m new hNew => ?_, fun m p hp => ?_,
    fun m p q new newOther hp hq hNew hNewOther => ?_⟩
  · rw [hAt] at hNew
    obtain ⟨old, hOld, rfl⟩ := map_eq_some_iff.mp hNew
    have hMem : m ∈ chain.eraseIdx (k + 1) ↔ m ≠ j ∧ m ∈ chain := by
      rw [mem_eraseIdx_iff_getElem?]
      constructor
      · rintro ⟨q, hq, hm⟩
        exact ⟨hNeRight q m hm hq, mem_of_getElem? hm⟩
      rintro ⟨hNotj, hIn⟩
      obtain ⟨q, hq⟩ := mem_iff_getElem?.mp hIn
      refine ⟨q, fun hEq => hNotj ?_, hq⟩
      rw [hEq, hj] at hq
      exact (some.inj hq).symm
    rw [hMem]
    unfold mergedSymbol
    dsimp only
    by_cases hmj : m = j
    · rw [if_pos hmj]
      exact iff_of_false (Nat.lt_irrefl 0) (fun hBoth => hBoth.1 hmj)
    rw [if_neg hmj]
    by_cases hmi : m = i
    · rw [if_pos hmi]
      have hPos := h.pos hi hSym
      exact iff_of_true (by omega) ⟨hmj, hmi ▸ mem_of_getElem? hi⟩
    · rw [if_neg hmi, h.live m old hOld]
      exact (and_iff_right hmj).symm
  · rw [getElem?_eraseIdx_succ] at hp
    obtain ⟨q, hq, hqm⟩ : ∃ q, chain[q]? = some p ∧
        (m ≤ k ∧ q = m ∨ k < m ∧ q = m + 1) := by
      split at hp
      · exact ⟨m, hp, .inl ⟨‹_›, rfl⟩⟩
      · exact ⟨m + 1, hp, .inr ⟨by omega, rfl⟩⟩
    obtain ⟨old, hOld, hPrev, hOldNext, hOldBound⟩ := h.symbol q p hq
    have hpj : p ≠ j := hNeRight q p hq (by omega)
    refine ⟨mergedSymbol i j sym other p old, by rw [hAt, hOld]; rfl, ?_, ?_, ?_⟩
    · unfold mergedSymbol
      dsimp only
      rw [hNext, getElem?_eraseIdx_succ]
      by_cases hBehind : chain[k + 1 + 1]? = some p
      · have hm : m = k + 1 := by
          have := h.index_unique hBehind hq
          omega
        rw [if_pos hBehind, hm, if_neg (by omega), if_pos (by omega), Nat.add_sub_cancel, hi]
      rw [if_neg hBehind, hPrev]
      rcases hqm with ⟨hLe, rfl⟩ | ⟨hLt, rfl⟩
      · rw [if_pos (show q - 1 ≤ k by omega)]
      have hNotNext : m ≠ k + 1 := fun hm => hBehind (hm ▸ hq)
      rw [if_neg (by omega), if_neg (by omega), if_neg (by omega), Nat.add_sub_cancel,
        Nat.sub_add_cancel (by omega)]
    · unfold mergedSymbol
      dsimp only
      rw [getElem?_eraseIdx_succ]
      by_cases hpi : p = i
      · have hqk : q = k := h.index_unique hq (hpi ▸ hi)
        rw [if_pos hpi, hNext, if_neg (by omega), show m + 1 = k + 1 by omega]
      have hqk : q ≠ k := fun hEq => hpi (some.inj ((hEq ▸ hq).symm.trans hi))
      rw [if_neg hpi, hOldNext]
      rcases hqm with ⟨hLe, rfl⟩ | ⟨hLt, rfl⟩
      · rw [if_pos (by omega)]
      · rw [if_neg (by omega)]
    unfold mergedSymbol
    dsimp only
    rw [if_neg hpj]
    split
    · rename_i hpi
      rw [hpi, hSym] at hOld
      rw [← some.inj hOld]
      omega
    · exact hOldBound
  rw [hAt] at hNew hNewOther
  obtain ⟨old, hOld, rfl⟩ := map_eq_some_iff.mp hNew
  obtain ⟨oldOther, hOldOther, rfl⟩ := map_eq_some_iff.mp hNewOther
  rw [getElem?_eraseIdx_succ] at hp hq
  have hpj : p ≠ j := by
    split at hp
    · exact hNeRight m p hp (by omega)
    · exact hNeRight (m + 1) p hp (by omega)
  unfold mergedSymbol
  dsimp only
  rw [if_neg hpj]
  by_cases hm : m = k
  · subst hm
    rw [if_pos (Nat.le_refl m)] at hp
    rw [if_neg (by omega)] at hq
    obtain rfl := some.inj (hp.symm.trans hi)
    obtain rfl := some.inj (hOld.symm.trans hSym)
    have hNextText := h.adjacent (m + 1) j q _ oldOther hj hq hOther hOldOther
    rw [if_pos rfl]
    omega
  have hpi : p ≠ i := by
    split at hp
    · exact hNe m p hp hm
    · exact hNe (m + 1) p hp (by omega)
  rw [if_neg hpi]
  by_cases hLe : m ≤ k
  · rw [if_pos hLe] at hp
    rw [if_pos (by omega)] at hq
    exact h.adjacent m p q old oldOther hp hq hOld hOldOther
  rw [if_neg hLe] at hp
  rw [if_neg (by omega)] at hq
  exact h.adjacent (m + 1) p q old oldOther hp hq hOld hOldOther

theorem Chained.merge_pieces (h : Chained text session.symbols chain) (hi : chain[k]? = some i)
    (hj : chain[k + 1]? = some j) (hSym : session.symbols[i]? = some sym)
    (hOther : session.symbols[j]? = some other) :
    chainPieces text (session.merge i j sym other).symbols (chain.eraseIdx (k + 1)) =
      mergeAt (chainPieces text session.symbols chain) k := by
  have hij : i < j := h.lt_of_lt hi hj (Nat.lt_succ_self k)
  have hAt := getElem?_merge hSym hOther (Nat.ne_of_lt hij)
  have hText := h.adjacent k i j sym other hi hj hSym hOther
  have hKept : ∀ m p, chain[m]? = some p → m ≠ k → m ≠ k + 1 →
      symbolPiece text (session.merge i j sym other).symbols p =
        symbolPiece text session.symbols p := by
    intro m p hp hmk hmk'
    have hpi : p ≠ i := fun hEq => hmk (h.index_unique hp (hEq ▸ hi))
    have hpj : p ≠ j := fun hEq => hmk' (h.index_unique hp (hEq ▸ hj))
    unfold symbolPiece
    rw [hAt]
    cases session.symbols[p]? with
    | none => rfl
    | some old => simp [mergedSymbol, hpi, hpj]
  refine ext_getElem? fun m => ?_
  rw [getElem?_mergeAt (getElem?_chainPieces hi hSym) (getElem?_chainPieces hj hOther)]
  unfold chainPieces
  rw [getElem?_map, getElem?_eraseIdx_succ]
  by_cases hm : m < k
  · rw [if_pos (by omega), if_pos hm, getElem?_map]
    cases hp : chain[m]? with
    | none => rfl
    | some p =>
      rw [map_some, map_some, hKept m p hp (by omega) (by omega)]
  rw [if_neg hm]
  by_cases hmk : m = k
  · rw [if_pos (by omega), if_pos hmk, hmk, hi, map_some]
    have hNew : (session.merge i j sym other).symbols[i]? =
        some (mergedSymbol i j sym other i sym) := by
      rw [hAt, hSym]
      rfl
    rw [symbolPiece_of_getElem? hNew]
    unfold mergedSymbol
    dsimp only
    rw [if_neg (Nat.ne_of_lt hij), if_pos rfl, hText, slice_append_slice]
  rw [if_neg (by omega), if_neg hmk, getElem?_map]
  cases hp : chain[m + 1]? with
  | none => rfl
  | some p =>
    rw [map_some, map_some, hKept (m + 1) p hp (by omega) (by omega)]

end Merge

/-! ## The invariant of the loop -/

/-- Neighbours have the pair of their texts, with its rank, and an entry is outdated when its size
is not that of its symbols. -/
structure MergeRules.Follows (rules : MergeRules) (text : List UInt8)
    (rank : List UInt8 → List UInt8 → Option Int) : Prop where
  bigram : ∀ sym other : LlmSymbol, other.text = sym.text + sym.n →
    other.text + other.n ≤ text.length →
      rules.bigram text sym other =
        (rank (slice text sym.text sym.n) (slice text other.text other.n)).map fun key =>
          (slice text sym.text (sym.n + other.n), key)
  outdated : ∀ (sym other : LlmSymbol) (b : LlmBigram), other.text = sym.text + sym.n →
    other.text + other.n ≤ text.length → sym.text + b.size ≤ text.length →
      b.text = slice text sym.text b.size →
        (rules.outdated text sym other b = true ↔ sym.n + other.n ≠ b.size)

/-- An entry of the queue was pushed for two neighbours, which have not become shorter since,
unless they are empty. -/
def EntryOk (text : List UInt8) (rank : List UInt8 → List UInt8 → Option Int)
    (symbols : List LlmSymbol) (b : LlmBigram) : Prop :=
  b.left < b.right ∧ ∃ sym other nl nr, symbols[b.left]? = some sym ∧
    symbols[b.right]? = some other ∧ other.text = sym.text + nl ∧ b.size = nl + nr ∧
      sym.text + b.size ≤ text.length ∧ b.text = slice text sym.text b.size ∧
        rank (slice text sym.text nl) (slice text other.text nr) = some b.key ∧
          (0 < sym.n → nl ≤ sym.n) ∧ (0 < other.n → nr ≤ other.n)

/-- An entry is for the symbols at `k` and `k + 1` of the chain as they are. -/
def Covers (symbols : List LlmSymbol) (chain : List Nat) (b : LlmBigram) (k : Nat) (r : Int) :
    Prop :=
  chain[k]? = some b.left ∧ chain[k + 1]? = some b.right ∧ b.key = r ∧
    ∀ sym other, symbols[b.left]? = some sym → symbols[b.right]? = some other →
      b.size = sym.n + other.n

structure MergeInvariant (rank : List UInt8 → List UInt8 → Option Int) (text : List UInt8)
    (session : MergeSession) (chain : List Nat) : Prop where
  chained : Chained text session.symbols chain
  first : chain[0]? = if session.symbols.length = 0 then none else some 0
  entries : ∀ b ∈ session.workQueue, EntryOk text rank session.symbols b
  covered : ∀ k r, pairRank rank (chainPieces text session.symbols chain) k = some r →
    ∃ b ∈ session.workQueue, Covers session.symbols chain b k r

section Loop

variable {rank : List UInt8 → List UInt8 → Option Int} {rules : MergeRules}
  {session : MergeSession} {k i j : Nat} {sym other : LlmSymbol}

theorem Chained.pair (h : Chained text symbols chain) {r : Int}
    (hRank : pairRank rank (chainPieces text symbols chain) k = some r) :
    ∃ i j sym other, chain[k]? = some i ∧ chain[k + 1]? = some j ∧ symbols[i]? = some sym ∧
      symbols[j]? = some other ∧
        rank (slice text sym.text sym.n) (slice text other.text other.n) = some r := by
  obtain ⟨x, y, hx, hy, hxy⟩ := pairRank_eq_some hRank
  unfold chainPieces at hx hy
  rw [getElem?_map] at hx hy
  obtain ⟨i, hi, rfl⟩ := map_eq_some_iff.mp hx
  obtain ⟨j, hj, rfl⟩ := map_eq_some_iff.mp hy
  obtain ⟨sym, hSym, -⟩ := h.symbol k i hi
  obtain ⟨other, hOther, -⟩ := h.symbol (k + 1) j hj
  rw [symbolPiece_of_getElem? hSym, symbolPiece_of_getElem? hOther] at hxy
  exact ⟨i, j, sym, other, hi, hj, hSym, hOther, hxy⟩

theorem pairRank_chainPieces (hi : chain[k]? = some i)
    (hj : chain[k + 1]? = some j) (hSym : symbols[i]? = some sym)
    (hOther : symbols[j]? = some other) :
    pairRank rank (chainPieces text symbols chain) k =
      rank (slice text sym.text sym.n) (slice text other.text other.n) :=
  pairRank_of_getElem? (getElem?_chainPieces hi hSym) (getElem?_chainPieces hj hOther)

/-- What an attempt to add the pair at `k` does. -/
structure Added (text : List UInt8) (rank : List UInt8 → List UInt8 → Option Int)
    (session next : MergeSession) : Prop where
  symbols : next.symbols = session.symbols
  keeps : ∀ b ∈ session.workQueue, b ∈ next.workQueue
  length : next.workQueue.length ≤ session.workQueue.length + 1
  entries : ∀ b ∈ next.workQueue, b ∈ session.workQueue ∨ EntryOk text rank session.symbols b

theorem Added.refl (session : MergeSession) : Added text rank session session :=
  ⟨rfl, fun _ hMem => hMem, Nat.le_succ _, fun _ => .inl⟩

theorem tryAddBigram_added (hFollows : rules.Follows text rank)
    (h : Chained text session.symbols chain) (hi : chain[k]? = some i)
    (hj : chain[k + 1]? = some j) :
    Added text rank session (session.tryAddBigram rules text (some i) (some j)) ∧
      ∀ r, pairRank rank (chainPieces text session.symbols chain) k = some r →
        ∃ b ∈ (session.tryAddBigram rules text (some i) (some j)).workQueue,
          Covers session.symbols chain b k r := by
  obtain ⟨sym, hSym, -, -, -⟩ := h.symbol k i hi
  obtain ⟨other, hOther, -, -, hBound⟩ := h.symbol (k + 1) j hj
  have hText := h.adjacent k i j sym other hi hj hSym hOther
  have hLt : i < j := h.lt_of_lt hi hj (Nat.lt_succ_self k)
  rw [pairRank_chainPieces hi hj hSym hOther]
  unfold MergeSession.tryAddBigram
  dsimp only
  rw [hSym, hOther]
  dsimp only
  rw [hFollows.bigram sym other hText hBound]
  cases hRank : rank (slice text sym.text sym.n) (slice text other.text other.n) with
  | none => exact ⟨.refl session, fun r hr => absurd hr (by simp)⟩
  | some key =>
    rw [map_some]
    dsimp only
    have hLength : (slice text sym.text (sym.n + other.n)).length = sym.n + other.n :=
      length_slice (by omega)
    have hEntry : EntryOk text rank session.symbols
        { left := i, right := j, key, text := slice text sym.text (sym.n + other.n)
          size := (slice text sym.text (sym.n + other.n)).length } := by
      refine ⟨hLt, sym, other, sym.n, other.n, hSym, hOther, hText, hLength, ?_, ?_, hRank,
        fun _ => Nat.le_refl _, fun _ => Nat.le_refl _⟩
      · dsimp only
        omega
      · dsimp only
        rw [hLength]
    refine ⟨⟨rfl, fun b hb => mem_cons_of_mem _ hb, Nat.le_refl _, fun b hb => ?_⟩,
      fun r hr => ?_⟩
    · rcases mem_cons.mp hb with rfl | hOld
      · exact .inr hEntry
      · exact .inl hOld
    refine ⟨_, mem_cons_self, hi, hj, some.inj hr, fun s o hs ho => ?_⟩
    rw [hSym] at hs
    rw [hOther] at ho
    rw [hLength, some.inj hs, some.inj ho]

variable {b : LlmBigram}

/-- An entry whose symbols are not empty is for neighbours. -/
theorem EntryOk.neighbours (hEntry : EntryOk text rank symbols b)
    (h : Chained text symbols chain) (hSym : symbols[b.left]? = some sym)
    (hOther : symbols[b.right]? = some other) (hPos : 0 < sym.n) (hPosOther : 0 < other.n) :
    ∃ k, chain[k]? = some b.left ∧ chain[k + 1]? = some b.right ∧
      sym.text + b.size ≤ text.length ∧ b.text = slice text sym.text b.size ∧
        (b.size = sym.n + other.n →
          rank (slice text sym.text sym.n) (slice text other.text other.n) = some b.key) := by
  obtain ⟨hLt, s, o, nl, nr, hs, ho, hText, hSize, hBound, hSlice, hRank, hLeft, hRight⟩ := hEntry
  obtain rfl := some.inj (hs.symm.trans hSym)
  obtain rfl := some.inj (ho.symm.trans hOther)
  obtain ⟨k, hk, hk'⟩ := h.neighbour hSym hOther hPos hPosOther hLt (by omega)
  refine ⟨k, hk, hk', hBound, hSlice, fun hCurrent => ?_⟩
  rw [show s.n = nl by omega, show o.n = nr by omega]
  exact hRank

theorem EntryOk.merge (hEntry : EntryOk text rank session.symbols b)
    (hSym : session.symbols[i]? = some sym) (hOther : session.symbols[j]? = some other)
    (hij : i ≠ j) (hPos : 0 < sym.n) :
    EntryOk text rank (session.merge i j sym other).symbols b := by
  obtain ⟨hLt, s, o, nl, nr, hs, ho, hText, hSize, hBound, hSlice, hRank, hLeft, hRight⟩ := hEntry
  have hAt := getElem?_merge hSym hOther hij
  have hGrows : ∀ m (old : LlmSymbol) (n : Nat), session.symbols[m]? = some old →
      (0 < old.n → n ≤ old.n) → 0 < (mergedSymbol i j sym other m old).n →
        n ≤ (mergedSymbol i j sym other m old).n := by
    intro m old n hOld hLe hNew
    unfold mergedSymbol at hNew ⊢
    dsimp only at hNew ⊢
    split at hNew
    · exact absurd hNew (Nat.lt_irrefl 0)
    rename_i hmj
    rw [if_neg hmj]
    split at hNew
    · rename_i hmi
      rw [if_pos hmi]
      rw [hmi, hSym] at hOld
      rw [← some.inj hOld] at hLe
      omega
    rename_i hmi
    rw [if_neg hmi]
    exact hLe hNew
  refine ⟨hLt, mergedSymbol i j sym other b.left s, mergedSymbol i j sym other b.right o, nl, nr,
    by rw [hAt, hs]; rfl, by rw [hAt, ho]; rfl, hText, hSize, hBound, hSlice, hRank,
    hGrows _ s nl hs hLeft, hGrows _ o nr ho hRight⟩

/-- A pair that a merge does not touch is covered as before. -/
theorem Covers.merge {m p : Nat} {r : Int}
    (h : Chained text session.symbols chain) (hi : chain[k]? = some i)
    (hj : chain[k + 1]? = some j) (hSym : session.symbols[i]? = some sym)
    (hOther : session.symbols[j]? = some other) (hCovers : Covers session.symbols chain b p r)
    (hp : p + 1 < k ∧ m = p ∨ k + 1 < p ∧ p = m + 1) :
    Covers (session.merge i j sym other).symbols (chain.eraseIdx (k + 1)) b m r ∧
      b.left ≠ i := by
  obtain ⟨hLeft, hRight, hKey, hSize⟩ := hCovers
  have hij : i < j := h.lt_of_lt hi hj (Nat.lt_succ_self k)
  have hAt := getElem?_merge hSym hOther (Nat.ne_of_lt hij)
  have hSame : ∀ q x new, chain[q]? = some x → q ≠ k → q ≠ k + 1 →
      (session.merge i j sym other).symbols[x]? = some new →
        ∃ old, session.symbols[x]? = some old ∧ new.n = old.n := by
    intro q x new hx hqk hqk' hNew
    have hxi : x ≠ i := fun hEq => hqk (h.index_unique hx (hEq ▸ hi))
    have hxj : x ≠ j := fun hEq => hqk' (h.index_unique hx (hEq ▸ hj))
    rw [hAt] at hNew
    obtain ⟨old, hOld, rfl⟩ := map_eq_some_iff.mp hNew
    refine ⟨old, hOld, ?_⟩
    unfold mergedSymbol
    dsimp only
    rw [if_neg hxj, if_neg hxi]
  refine ⟨⟨?_, ?_, hKey, fun s o hs ho => ?_⟩, fun hEq => ?_⟩
  · rw [getElem?_eraseIdx_succ]
    rcases hp with ⟨hLt, rfl⟩ | ⟨hLt, rfl⟩
    · rw [if_pos (by omega), hLeft]
    · rw [if_neg (by omega), hLeft]
  · rw [getElem?_eraseIdx_succ]
    rcases hp with ⟨hLt, rfl⟩ | ⟨hLt, rfl⟩
    · rw [if_pos (by omega), hRight]
    · rw [if_neg (by omega), hRight]
  · obtain ⟨olds, hOlds, hns⟩ := hSame p _ s hLeft (by omega) (by omega) hs
    obtain ⟨oldo, hOldo, hno⟩ := hSame (p + 1) _ o hRight (by omega) (by omega) ho
    rw [hns, hno]
    exact hSize olds oldo hOlds hOldo
  · have := h.index_unique hLeft (hEq ▸ hi)
    omega

theorem MergeInvariant.merge (hFollows : rules.Follows text rank)
    (h : MergeInvariant rank text session chain) {top : LlmBigram} {rest : List LlmBigram}
    (hPop : LlmBigram.pop session.workQueue = some (top, rest))
    (hi : chain[k]? = some top.left) (hj : chain[k + 1]? = some top.right)
    (hSym : session.symbols[top.left]? = some sym)
    (hOther : session.symbols[top.right]? = some other) :
    let merged := ({ session with workQueue := rest }).merge top.left top.right sym other
    let next := (merged.tryAddBigram rules text sym.prev (some top.left)).tryAddBigram rules text
      (some top.left) other.next
    MergeInvariant rank text next (chain.eraseIdx (k + 1)) ∧
      chainPieces text next.symbols (chain.eraseIdx (k + 1)) =
        mergeAt (chainPieces text session.symbols chain) k ∧
      next.workQueue.length ≤ rest.length + 2 := by
  intro merged next
  obtain ⟨hPerm, -⟩ := LlmBigram.pop_eq_some hPop
  have hLt : top.left < top.right := h.chained.lt_of_lt hi hj (Nat.lt_succ_self k)
  have hPos := h.chained.pos hi hSym
  have hMerged : Chained text merged.symbols (chain.eraseIdx (k + 1)) :=
    @Chained.merge text chain { session with workQueue := rest } _ _ _ _ _ h.chained hi hj hSym hOther
  have hPieces : chainPieces text merged.symbols (chain.eraseIdx (k + 1)) =
      mergeAt (chainPieces text session.symbols chain) k :=
    @Chained.merge_pieces text chain { session with workQueue := rest } _ _ _ _ _ h.chained hi hj hSym
      hOther
  have hHere : (chain.eraseIdx (k + 1))[k]? = some top.left := by
    rw [getElem?_eraseIdx_succ, if_pos (Nat.le_refl k), hi]
  -- the pair to the left of the merged symbol
  obtain ⟨hAddLeft, hCoverLeft⟩ : Added text rank merged
      (merged.tryAddBigram rules text sym.prev (some top.left)) ∧
      ∀ m r, m + 1 = k → pairRank rank (chainPieces text merged.symbols (chain.eraseIdx (k + 1))) m =
        some r → ∃ b ∈ (merged.tryAddBigram rules text sym.prev (some top.left)).workQueue,
          Covers merged.symbols (chain.eraseIdx (k + 1)) b m r := by
    obtain ⟨found, hFound, hPrev, -, -⟩ := h.chained.symbol k _ hi
    rw [some.inj (hFound.symm.trans hSym)] at hPrev
    cases k with
    | zero =>
      rw [if_pos rfl] at hPrev
      rw [hPrev]
      exact ⟨.refl merged, fun m r hm => absurd hm (Nat.succ_ne_zero m)⟩
    | succ k =>
      rw [Nat.add_sub_cancel] at hPrev
      have hLeft : (chain.eraseIdx (k + 1 + 1))[k]? = chain[k]? := by
        rw [getElem?_eraseIdx_succ, if_pos (Nat.le_succ k)]
      have hBefore : k < chain.length := by
        have := (List.getElem?_eq_some_iff.mp hi).1
        omega
      rw [getElem?_eq_getElem hBefore] at hLeft hPrev
      rw [hPrev]
      obtain ⟨hAdded, hCovered⟩ := tryAddBigram_added hFollows hMerged hLeft hHere
      refine ⟨hAdded, fun m r hm hRank => ?_⟩
      obtain rfl : m = k := Nat.succ.inj hm
      exact hCovered r hRank
  -- the pair to its right
  obtain ⟨hAddRight, hCoverRight⟩ : Added text rank
      (merged.tryAddBigram rules text sym.prev (some top.left)) next ∧
      ∀ r, pairRank rank (chainPieces text merged.symbols (chain.eraseIdx (k + 1))) k = some r →
        ∃ b ∈ next.workQueue, Covers merged.symbols (chain.eraseIdx (k + 1)) b k r := by
    obtain ⟨found, hFound, -, hNext, -⟩ := h.chained.symbol (k + 1) _ hj
    rw [some.inj (hFound.symm.trans hOther)] at hNext
    have hRight : (chain.eraseIdx (k + 1))[k + 1]? = other.next := by
      rw [getElem?_eraseIdx_succ, if_neg (by omega), hNext]
    have hNextEq : next = (merged.tryAddBigram rules text sym.prev (some top.left)).tryAddBigram
        rules text (some top.left) other.next := rfl
    rw [hNextEq]
    cases hq : other.next with
    | none =>
      refine ⟨.refl _, fun r hRank => ?_⟩
      obtain ⟨_, j, _, _, -, hj', -⟩ := hMerged.pair hRank
      rw [hRight, hq] at hj'
      exact absurd hj' (by simp)
    | some q =>
      rw [hq] at hRight
      have hMid : Chained text (merged.tryAddBigram rules text sym.prev (some top.left)).symbols
          (chain.eraseIdx (k + 1)) := hAddLeft.symbols.symm ▸ hMerged
      obtain ⟨hAdded, hCovered⟩ := tryAddBigram_added hFollows hMid hHere hRight
      rw [hAddLeft.symbols] at hCovered
      exact ⟨hAdded, hCovered⟩
  have hSymbols : next.symbols = merged.symbols := hAddRight.symbols.trans hAddLeft.symbols
  refine ⟨⟨hSymbols ▸ hMerged, ?_, fun b hb => ?_, fun m r hRank => ?_⟩, hSymbols ▸ hPieces, ?_⟩
  · have hLength : next.symbols.length = session.symbols.length := by
      rw [hSymbols]
      exact length_merge
    rw [getElem?_eraseIdx_succ, if_pos (Nat.zero_le k), h.first, hLength]
  · rw [hSymbols]
    rcases hAddRight.entries b hb with hMid | hNew
    · rcases hAddLeft.entries b hMid with hOld | hNew
      · exact @EntryOk.merge text rank { session with workQueue := rest } _ _ _ _ b
          (h.entries b (hPerm.mem_iff.mpr (mem_cons_of_mem _ hOld))) hSym hOther
          (Nat.ne_of_lt hLt) hPos
      · exact hNew
    · exact hAddLeft.symbols ▸ hNew
  · rw [hSymbols] at hRank ⊢
    have hx := @getElem?_chainPieces text _ _ _ _ _ hi hSym
    have hy := @getElem?_chainPieces text _ _ _ _ _ hj hOther
    -- an entry for a pair further away is still in the queue
    have hOld : ∀ p b, b ∈ session.workQueue → Covers session.symbols chain b p r →
        (p + 1 < k ∧ m = p ∨ k + 1 < p ∧ p = m + 1) →
          ∃ b ∈ next.workQueue, Covers merged.symbols (chain.eraseIdx (k + 1)) b m r := by
      intro p b hb hCovers hp
      obtain ⟨hCoversNew, hNe⟩ := @Covers.merge text chain { session with workQueue := rest } _ _ _ _ _ _
        _ _ _ h.chained hi hj hSym hOther hCovers hp
      have hRest : b ∈ rest := by
        rcases mem_cons.mp (hPerm.mem_iff.mp hb) with hTop | hRest
        · exact absurd (congrArg LlmBigram.left hTop) hNe
        · exact hRest
      exact ⟨b, hAddRight.keeps b (hAddLeft.keeps b hRest), hCoversNew⟩
    rcases Nat.lt_trichotomy m k with hLtk | hEq | hGt
    · by_cases hNear : m + 1 = k
      · obtain ⟨b, hb, hCovers⟩ := hCoverLeft m r hNear hRank
        exact ⟨b, hAddRight.keeps b hb, hCovers⟩
      rw [hPieces, pairRank_mergeAt_of_lt hx hy (by omega)] at hRank
      obtain ⟨b, hb, hCovers⟩ := h.covered m r hRank
      exact hOld m b hb hCovers (.inl ⟨by omega, rfl⟩)
    · exact hEq ▸ hCoverRight r (hEq ▸ hRank)
    rw [hPieces, pairRank_mergeAt_of_gt hx hy hGt] at hRank
    obtain ⟨b, hb, hCovers⟩ := h.covered (m + 1) r hRank
    exact hOld (m + 1) b hb hCovers (.inr ⟨by omega, rfl⟩)
  have hLeftLength := hAddLeft.length
  have hRightLength := hAddRight.length
  have hRest : merged.workQueue.length = rest.length := rfl
  omega

end Loop

end Beellama.Ports
