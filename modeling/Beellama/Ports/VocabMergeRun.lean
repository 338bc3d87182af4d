import Beellama.Ports.VocabMerge

/-!
# The runs of the merge loop

The loop of a session keeps its invariant (`MergeInvariant.step`) and ends
(`MergeInvariant.loop`): what is left of the symbols of a text are the pieces to
which its characters are merged (`run_spec`).
-/

namespace Beellama.Ports

open Beellama.Verified List Option MergeSession LlmBigram

variable {text : List UInt8} {symbols : List LlmSymbol} {chain : List Nat}
  {rank : List UInt8 → List UInt8 → Option Int} {rules : MergeRules} {session : MergeSession}

/-! ## A pass of the loop -/

/-- What a pass does to the pieces: an entry is skipped, or the best pair is merged. -/
inductive Passed (text : List UInt8) (rank : List UInt8 → List UInt8 → Option Int)
    (session : MergeSession) (chain : List Nat) (next : MergeSession) : Prop
  | skipped (hInv : MergeInvariant rank text next chain)
      (hSame : next.symbols = session.symbols)
      (hQueue : next.workQueue.length + 1 = session.workQueue.length)
  | merged {k : Nat} (hBest : IsBest rank (chainPieces text session.symbols chain) k)
      (hInv : MergeInvariant rank text next (chain.eraseIdx (k + 1)))
      (hBound : k + 1 < chain.length)
      (hPieces : chainPieces text next.symbols (chain.eraseIdx (k + 1)) =
        mergeAt (chainPieces text session.symbols chain) k)
      (hQueue : next.workQueue.length ≤ session.workQueue.length + 1)

variable {top : LlmBigram} {rest : List LlmBigram}

section

variable (h : MergeInvariant rank text session chain)

include h

/-- The pair of an entry that is as its symbols are. -/
theorem MergeInvariant.best (hPop : LlmBigram.pop session.workQueue = some (top, rest)) {k : Nat}
    (hi : chain[k]? = some top.left)
    (hRank : pairRank rank (chainPieces text session.symbols chain) k = some top.key) :
    IsBest rank (chainPieces text session.symbols chain) k := by
  obtain ⟨hPerm, hFirst⟩ := pop_eq_some hPop
  refine ⟨⟨_, hRank⟩, fun r j r' hr hr' => ?_⟩
  rw [hRank] at hr
  rw [← some.inj hr]
  obtain ⟨b, hb, hLeft, -, hKey, -⟩ := h.covered j r' hr'
  rcases mem_cons.mp (hPerm.mem_iff.mp hb) with hTop | hRest
  · rw [hTop] at hLeft hKey
    exact .inr ⟨hKey, Nat.le_of_eq (h.chained.index_unique hi hLeft)⟩
  have hNot := hFirst b hRest
  unfold before at hNot
  simp only [Bool.or_eq_false_iff, Bool.and_eq_false_iff, decide_eq_false_iff_not,
    beq_eq_false_iff_ne] at hNot
  rw [← hKey]
  by_cases hSame : top.key = b.key
  · by_contra hGt
    have := h.chained.lt_of_lt hLeft hi (by omega)
    omega
  · exact .inl (by omega)

theorem MergeInvariant.skip (hPop : LlmBigram.pop session.workQueue = some (top, rest))
    (hStale : ∀ k r, ¬ Covers session.symbols chain top k r) :
    Passed text rank session chain { session with workQueue := rest } := by
  obtain ⟨hPerm, -⟩ := pop_eq_some hPop
  refine .skipped ⟨h.chained, h.first, fun b hb => ?_, fun k r hr => ?_⟩ rfl ?_
  · exact h.entries b (hPerm.mem_iff.mpr (mem_cons_of_mem _ hb))
  · obtain ⟨b, hb, hCovers⟩ := h.covered k r hr
    rcases mem_cons.mp (hPerm.mem_iff.mp hb) with hTop | hRest
    · exact absurd (hTop ▸ hCovers) (hStale k r)
    · exact ⟨b, hRest, hCovers⟩
  · rw [hPerm.length_eq, length_cons]

theorem MergeInvariant.step_none (hStep : session.step rules text = none) (k : Nat) :
    pairRank rank (chainPieces text session.symbols chain) k = none := by
  cases hRank : pairRank rank (chainPieces text session.symbols chain) k with
  | none => rfl
  | some r =>
    obtain ⟨b, hb, -⟩ := h.covered k r hRank
    unfold step at hStep
    split at hStep
    · rename_i hPop
      rw [pop_eq_none hPop] at hb
      exact absurd hb not_mem_nil
    dsimp only at hStep
    split at hStep
    · split at hStep <;> exact absurd hStep (by simp)
    · exact absurd hStep (by simp)

end

section

variable (hFollows : rules.Follows text rank)

include hFollows

theorem MergeInvariant.step (h : MergeInvariant rank text session chain) {next : MergeSession}
    (hStep : session.step rules text = some next) : Passed text rank session chain next := by
  unfold MergeSession.step at hStep
  cases hPop : pop session.workQueue with
  | none =>
    rw [hPop] at hStep
    exact absurd hStep (by simp)
  | some popped =>
    obtain ⟨top, rest⟩ := popped
    rw [hPop] at hStep
    dsimp only at hStep
    obtain ⟨hPerm, -⟩ := pop_eq_some hPop
    have hEntry := h.entries top (hPerm.mem_iff.mpr mem_cons_self)
    obtain ⟨-, sym, other, -, -, hSym, hOther, -⟩ := id hEntry
    rw [hSym, hOther] at hStep
    dsimp only at hStep
    by_cases hSkip : sym.n = 0 ∨ other.n = 0 ∨ rules.outdated text sym other top = true
    · rw [if_pos hSkip] at hStep
      rw [← some.inj hStep]
      refine h.skip hPop fun k r hCovers => ?_
      obtain ⟨hi, hj, -, hSize⟩ := hCovers
      have hPos := h.chained.pos hi hSym
      have hPosOther := h.chained.pos hj hOther
      obtain ⟨k', hk, hk', hBound, hSlice, -⟩ :=
        hEntry.neighbours h.chained hSym hOther hPos hPosOther
      rcases hSkip with hZero | hZero | hOutdated
      · omega
      · omega
      have hText := h.chained.adjacent k' _ _ sym other hk hk' hSym hOther
      obtain ⟨s, hs, -, -, hOtherBound⟩ := h.chained.symbol (k' + 1) _ hk'
      rw [some.inj (hs.symm.trans hOther)] at hOtherBound
      rw [hFollows.outdated sym other top hText hOtherBound hBound hSlice] at hOutdated
      exact hOutdated (hSize sym other hSym hOther).symm
    rw [if_neg hSkip] at hStep
    obtain ⟨hNotZero, hRest⟩ := not_or.mp hSkip
    obtain ⟨hNotZeroOther, hCurrent⟩ := not_or.mp hRest
    obtain ⟨k, hk, hk', hBound, hSlice, hRank⟩ := hEntry.neighbours h.chained hSym hOther
      (Nat.pos_of_ne_zero hNotZero) (Nat.pos_of_ne_zero hNotZeroOther)
    have hText := h.chained.adjacent k _ _ sym other hk hk' hSym hOther
    obtain ⟨s, hs, -, -, hOtherBound⟩ := h.chained.symbol (k + 1) _ hk'
    rw [some.inj (hs.symm.trans hOther)] at hOtherBound
    rw [hFollows.outdated sym other top hText hOtherBound hBound hSlice, not_not] at hCurrent
    have hPair : pairRank rank (chainPieces text session.symbols chain) k = some top.key := by
      rw [pairRank_chainPieces hk hk' hSym hOther]
      exact hRank hCurrent.symm
    obtain ⟨hInv, hPieces, hQueue⟩ := h.merge hFollows hPop hk hk' hSym hOther
    rw [← some.inj hStep]
    refine .merged (h.best hPop hk hPair) hInv (List.getElem?_eq_some_iff.mp hk').1 hPieces ?_
    rw [hPerm.length_eq]
    exact hQueue

/-- The loop ends, with the characters merged as far as they can be. -/
theorem MergeInvariant.loop (fuel : Nat) :
    ∀ (session : MergeSession) (chain : List Nat), MergeInvariant rank text session chain →
      session.workQueue.length + 2 * chain.length < fuel →
        ∃ last lastChain, MergeSession.mergeLoop rules text fuel session = some last ∧
          MergeInvariant rank text last lastChain ∧
            BestMerges rank (chainPieces text session.symbols chain)
              (chainPieces text last.symbols lastChain) := by
  induction fuel with
  | zero => intro session chain _ hFuel; exact absurd hFuel (Nat.not_lt_zero _)
  | succ fuel ih =>
    intro session chain h hFuel
    unfold mergeLoop
    cases hStep : session.step rules text with
    | none => exact ⟨session, chain, rfl, h, .done (h.step_none hStep)⟩
    | some next =>
      cases h.step hFollows hStep with
      | skipped hInv hSame hQueue =>
        have hLess : next.workQueue.length + 2 * chain.length < fuel := by omega
        obtain ⟨last, lastChain, hLoop, hLast, hMerges⟩ := ih next chain hInv hLess
        exact ⟨last, lastChain, hLoop, hLast, hSame ▸ hMerges⟩
      | @merged k hBest hInv hBound hPieces hQueue =>
        have hLength : (chain.eraseIdx (k + 1)).length = chain.length - 1 :=
          length_eraseIdx_of_lt hBound
        have hLess : next.workQueue.length + 2 * (chain.eraseIdx (k + 1)).length < fuel := by
          omega
        obtain ⟨last, lastChain, hLoop, hLast, hMerges⟩ := ih next _ hInv hLess
        exact ⟨last, lastChain, hLoop, hLast, .merge hBest (hPieces ▸ hMerges)⟩

/-! ## The start of the loop -/

variable (h : Chained text symbols (List.range symbols.length))

include h

theorem seed_spec (m : Nat)
    (hm : m + 1 ≤ symbols.length) :
    let seeded := (range' 1 m).foldl
      (fun session i => session.tryAddBigram rules text (some (i - 1)) (some i))
        ({ symbols } : MergeSession)
    seeded.symbols = symbols ∧ seeded.workQueue.length ≤ m ∧
      (∀ b ∈ seeded.workQueue, EntryOk text rank symbols b) ∧
        ∀ k r, k < m → pairRank rank (chainPieces text symbols (range symbols.length)) k =
          some r → ∃ b ∈ seeded.workQueue, Covers symbols (range symbols.length) b k r := by
  induction m with
  | zero =>
    exact ⟨rfl, Nat.le_refl 0, fun b hb => absurd hb not_mem_nil,
      fun k r hk => absurd hk (Nat.not_lt_zero k)⟩
  | succ m ih =>
    obtain ⟨hSymbols, hLength, hEntries, hCovered⟩ := ih (by omega)
    intro seeded
    have hSeeded : seeded = ((range' 1 m).foldl
        (fun session i => session.tryAddBigram rules text (some (i - 1)) (some i))
          ({ symbols } : MergeSession)).tryAddBigram rules text (some m) (some (m + 1)) := by
      show (range' 1 (m + 1)).foldl _ _ = _
      rw [range'_concat, foldl_append, foldl_cons, foldl_nil,
        show 1 + 1 * m = m + 1 by omega, Nat.add_sub_cancel]
    generalize (range' 1 m).foldl
      (fun session i => session.tryAddBigram rules text (some (i - 1)) (some i))
        ({ symbols } : MergeSession) = before at hSymbols hLength hEntries hCovered hSeeded
    have hChain : Chained text before.symbols (range symbols.length) := hSymbols ▸ h
    obtain ⟨hAdded, hCoveredLast⟩ := tryAddBigram_added (k := m) (i := m) (j := m + 1) hFollows hChain
      (getElem?_range (by omega)) (getElem?_range (by omega))
    rw [← hSeeded, hSymbols] at hCoveredLast
    rw [← hSeeded] at hAdded
    have hSeededLength := hAdded.length
    refine ⟨hAdded.symbols.trans hSymbols, by omega, fun b hb => ?_, fun k r hk hr => ?_⟩
    · rcases hAdded.entries b hb with hOld | hNew
      · exact hEntries b hOld
      · exact hSymbols ▸ hNew
    by_cases hLast : k = m
    · exact hLast ▸ hCoveredLast r (hLast ▸ hr)
    · obtain ⟨b, hb, hCovers⟩ := hCovered k r (by omega) hr
      exact ⟨b, hAdded.keeps b hb, hCovers⟩

/-- The invariant holds when the queue has been seeded. -/
theorem seed_inv : (MergeSession.seed rules text symbols).symbols = symbols ∧
      MergeInvariant rank text (MergeSession.seed rules text symbols)
        (range symbols.length) ∧
      (MergeSession.seed rules text symbols).workQueue.length ≤ symbols.length := by
  have hFirst : (range symbols.length)[0]? = if symbols.length = 0 then none else some 0 := by
    split
    · rename_i hZero
      rw [hZero]
      rfl
    · exact getElem?_range (by omega)
  by_cases hZero : symbols.length = 0
  · have hSeed : seed rules text symbols = { symbols } := by
      unfold seed
      rw [hZero]
      rfl
    rw [hSeed]
    refine ⟨rfl, ⟨h, hFirst, fun b hb => absurd hb not_mem_nil, fun k r hr => ?_⟩,
      Nat.zero_le _⟩
    obtain ⟨x, y, hx, -⟩ := pairRank_eq_some hr
    rw [hZero] at hx
    exact absurd hx (by simp [chainPieces])
  obtain ⟨hSymbols, hLength, hEntries, hCovered⟩ :=
    seed_spec hFollows h (symbols.length - 1) (by omega)
  refine ⟨hSymbols, ⟨hSymbols.symm ▸ h, ?_, ?_, ?_⟩, by
    unfold seed
    omega⟩
  · unfold seed
    rw [hSymbols]
    exact hFirst
  · unfold seed
    rw [hSymbols]
    exact hEntries
  unfold seed
  rw [hSymbols]
  intro k r hr
  refine hCovered k r ?_ hr
  obtain ⟨x, y, -, hy, -⟩ := pairRank_eq_some hr
  have hBound := (List.getElem?_eq_some_iff.mp hy).1
  unfold chainPieces at hBound
  rw [length_map, length_range] at hBound
  omega

/-- The session of symbols that are linked one after the other. -/
theorem run_spec : ∃ last chain, MergeSession.run rules text symbols = some last ∧
      MergeInvariant rank text last chain ∧
        BestMerges rank (chainPieces text symbols (range symbols.length))
          (chainPieces text last.symbols chain) := by
  obtain ⟨hSymbols, hInv, hQueue⟩ := seed_inv hFollows h
  have hFuel : (seed rules text symbols).workQueue.length +
      2 * (range symbols.length).length < 3 * symbols.length + 1 := by
    rw [length_range]
    omega
  obtain ⟨last, chain, hLoop, hLast, hMerges⟩ := hInv.loop hFollows _ _ _ hFuel
  rw [hSymbols] at hMerges
  exact ⟨last, chain, hLoop, hLast, hMerges⟩

/-! ## The characters of a text -/

end

/-- The characters of a text, by the length that their first byte says. -/
def utf8Chars : List UInt8 → List (List UInt8)
  | [] => []
  | c :: cs =>
    (c :: cs.take (unicodeLenUtf8 c - 1)) :: utf8Chars (cs.drop (unicodeLenUtf8 c - 1))
termination_by text => text.length

theorem unicodeLenUtf8_pos (c : UInt8) : 0 < unicodeLenUtf8 c := by
  unfold unicodeLenUtf8
  repeat' split
  all_goals omega

/-- The symbols of a text from an offset on, the first of them with this index. -/
structure SplitFrom (text : List UInt8) (offs index : Nat) (symbols : List LlmSymbol) : Prop where
  symbol : ∀ k sym, symbols[k]? = some sym →
    sym.prev = (if index + k = 0 then none else some (index + k - 1)) ∧
      sym.next = (if k + 1 < symbols.length then some (index + k + 1) else none) ∧
        0 < sym.n ∧ sym.text + sym.n ≤ text.length
  first : ∀ sym, symbols[0]? = some sym → sym.text = offs
  adjacent : ∀ k sym other, symbols[k]? = some sym → symbols[k + 1]? = some other →
    other.text = sym.text + sym.n
  pieces : symbols.map (fun sym => slice text sym.text sym.n) = utf8Chars (text.drop offs)

theorem splitSymbols_spec (fuel offs index : Nat) (hOffs : offs ≤ text.length)
    (hFuel : text.length - offs ≤ fuel) :
    SplitFrom text offs index (splitSymbols text fuel offs index) ∧
      (splitSymbols text fuel offs index = [] ↔ offs = text.length) := by
  have hEnd : ∀ index, SplitFrom text text.length index [] := by
    intro index
    refine ⟨fun k sym h => absurd h (by simp), fun sym h => absurd h (by simp),
      fun k sym other h => absurd h (by simp), ?_⟩
    rw [drop_length, utf8Chars]
    rfl
  induction fuel generalizing offs index with
  | zero =>
    obtain rfl : offs = text.length := by omega
    exact ⟨hEnd index, by simp [splitSymbols]⟩
  | succ fuel ih =>
    unfold splitSymbols
    cases hHere : text[offs]? with
    | none =>
      obtain rfl : offs = text.length := by
        have := getElem?_eq_none_iff.mp hHere
        omega
      exact ⟨hEnd index, by simp⟩
    | some c =>
      obtain ⟨hLt, hc⟩ := List.getElem?_eq_some_iff.mp hHere
      dsimp only
      have hPos := unicodeLenUtf8_pos c
      generalize hn : min (unicodeLenUtf8 c) (text.length - offs) = n
      obtain ⟨hRest, hRestNil⟩ := ih (offs + n) (index + 1) (by omega) (by omega)
      have hDrop : text.drop offs = c :: text.drop (offs + 1) := by
        rw [drop_eq_getElem_cons hLt, hc]
      refine ⟨⟨fun k sym h => ?_, fun sym h => ?_, fun k sym other h hNext => ?_, ?_⟩, ?_⟩
      · cases k with
        | zero =>
          rw [← some.inj h]
          refine ⟨rfl, ?_, by dsimp only; omega, by dsimp only; omega⟩
          dsimp only
          rw [length_cons]
          by_cases hLast : offs + n = text.length
          · rw [if_pos hLast, hRestNil.mpr hLast]
            rfl
          · have hSome := length_pos_of_ne_nil (fun hNil => hLast (hRestNil.mp hNil))
            rw [if_neg hLast, if_pos (by omega)]
        | succ k =>
          obtain ⟨hPrev, hNext, hRestPos, hBound⟩ := hRest.symbol k sym h
          refine ⟨?_, ?_, hRestPos, hBound⟩
          · rw [hPrev, show index + 1 + k = index + (k + 1) by omega]
          · rw [hNext, length_cons, show index + 1 + k + 1 = index + (k + 1) + 1 by omega]
            simp only [Nat.add_lt_add_iff_right]
      · rw [← some.inj h]
      · cases k with
        | zero =>
          rw [← some.inj h]
          exact hRest.first other hNext
        | succ k => exact hRest.adjacent k sym other h hNext
      · rw [map_cons, hRest.pieces, hDrop, utf8Chars]
        congr 1
        · have hTake : slice text offs n = (text.drop offs).take n := rfl
          have hLength : (text.drop (offs + 1)).length = text.length - (offs + 1) :=
            length_drop
          rw [hTake, hDrop, show n = n - 1 + 1 by omega, take_succ_cons]
          by_cases hFits : unicodeLenUtf8 c ≤ text.length - offs
          · rw [show n = unicodeLenUtf8 c by omega]
          · rw [take_of_length_le (by omega), take_of_length_le (by omega)]
        rw [drop_drop]
        by_cases hFits : unicodeLenUtf8 c ≤ text.length - offs
        · rw [show offs + n = offs + 1 + (unicodeLenUtf8 c - 1) by omega]
        · rw [drop_eq_nil_of_le (by omega), drop_eq_nil_of_le (by omega)]
      · exact iff_of_false (cons_ne_nil _ _) (by omega)

variable {offs : Nat}

theorem SplitFrom.chained (h : SplitFrom text offs 0 symbols) :
    Chained text symbols (range symbols.length) := by
  refine ⟨pairwise_lt_range, fun i sym hSym => ?_, fun k i hi => ?_,
    fun k i j sym other hi hj hSym hOther => ?_⟩
  · obtain ⟨-, -, hPos, -⟩ := h.symbol i sym hSym
    exact iff_of_true hPos (List.mem_range.mpr (List.getElem?_eq_some_iff.mp hSym).1)
  · obtain ⟨hBound, hEq⟩ := List.getElem?_eq_some_iff.mp hi
    rw [getElem_range] at hEq
    rw [length_range] at hBound
    subst hEq
    obtain ⟨hPrev, hNext, -, hText⟩ := h.symbol k _ (getElem?_eq_getElem hBound)
    refine ⟨_, getElem?_eq_getElem hBound, ?_, ?_, hText⟩
    · rw [hPrev, Nat.zero_add]
      split
      · rfl
      · rw [getElem?_range (by omega)]
    rw [hNext, Nat.zero_add]
    split
    · rw [getElem?_range ‹_›]
    · rw [getElem?_eq_none (by rw [length_range]; omega)]
  obtain ⟨_, hLeft⟩ := List.getElem?_eq_some_iff.mp hi
  obtain ⟨_, hRight⟩ := List.getElem?_eq_some_iff.mp hj
  rw [getElem_range] at hLeft hRight
  rw [← hLeft] at hSym
  rw [← hRight] at hOther
  exact h.adjacent k sym other hSym hOther

theorem SplitFrom.chainPieces (h : SplitFrom text offs 0 symbols) :
    chainPieces text symbols (range symbols.length) = utf8Chars (text.drop offs) := by
  rw [← h.pieces]
  unfold Ports.chainPieces
  refine ext_getElem? fun k => ?_
  rw [getElem?_map, getElem?_map]
  by_cases hk : k < symbols.length
  · rw [getElem?_range hk, getElem?_eq_getElem hk, map_some, map_some,
      symbolPiece_of_getElem? (getElem?_eq_getElem hk)]
  rw [getElem?_eq_none (by rw [length_range]; omega),
    getElem?_eq_none (by omega)]
  rfl

end Beellama.Ports
