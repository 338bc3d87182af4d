import Beellama.Ports.KvCacheSlots

/-!
# The attention mask of a micro-batch

`set_input_kq_mask_impl` of `src/src/llama-kv-cache.cpp` writes one row per token.  The first row of a
sequence is computed in full; every later one is a copy in which only the columns near the positions
of the batch are computed again.  The other columns look the same to every token of the sequence.

The columns to compute again are found by a sum of two numbers of 32 bits.  A window of `2^31 - 32` or
more makes the second one negative, and then a row may be copied from one that looks different
(`setInputKqMask_exact_iff`).

A mask value is `none` for minus infinity.
-/

namespace Beellama.Ports

open List Function

/-- `args_set_input_kq_mask` with the template flags and with what
`set_input_kq_mask_mapped` asserts. -/
structure KqMaskArgs where
  /-- `v_cells` -/
  cells : Nat → KvCells
  seqToStream : Nat → Nat
  ubatch : Ubatch
  nSwa : Nat := 0
  swaType : SwaType := .none
  nKv : Nat
  nStream : Nat := 1
  /-- empty for the identity -/
  readCells : List Int := []
  causal : Bool := true
  alibi : Bool := false
  streams : 0 < nStream ∧ ubatch.tokens.length % nStream = 0
  mapped : readCells = [] ∨ nStream = 1 ∧ readCells.length = nKv

/-- `llama_kv_cell_ext::is_2d_gt` -/
def KvCellExt.is2dGt (e o : KvCellExt) : Bool := o.y < e.y ∨ (e.y = o.y ∧ o.x < e.x)

namespace KqMaskArgs

variable (args : KqMaskArgs)

def nTokens : Nat := args.ubatch.tokens.length

def nTps : Nat := args.nTokens / args.nStream

/-- `ubatch->seq_id[i][0]` -/
def seqIdOf (i : Nat) : Nat := (args.ubatch.token i).seqId.headD 0

def posOf (i : Nat) : Int := (args.ubatch.token i).pos

/-- `v_cells.at(seq_to_stream[seq_id])` -/
def cellsOf (q : Nat) : KvCells := args.cells (args.seqToStream q)

/-- The smallest position of a sequence in the batch. -/
def seqPosMin (q : Nat) : Int :=
  (List.range args.nTokens).foldl
    (fun m i => if args.seqIdOf i = q then min m (args.posOf i) else m) 2147483647

/-! ## One entry -/

/-- The cell behind a column, a 32-bit number. -/
def mappedCell (j : Nat) : Option Nat :=
  let mapped := if args.readCells = [] then (j : Int) else args.readCells.getD j (-1)
  if mapped < 0 then none else some (mapped.toNat % 4294967296)

/-- The cell behind a column when the sequence holds it. -/
def heldCell (q j : Nat) : Option Nat :=
  (args.mappedCell j).filter fun cell =>
    decide (cell < (args.cellsOf q).size) && !(args.cellsOf q).isEmpty cell &&
      (args.cellsOf q).seqHas cell q

/-- `(int32_t) (n_swa + 32)` -/
def reach : Int := toInt32 (args.nSwa + 32)

/-- `p0 + (int32_t) (n_swa + 32) >= seq_pos_min[seq_id]` -/
def recorded (q j : Nat) : Bool :=
  (args.heldCell q j).any fun cell =>
    decide (args.seqPosMin q ≤ (args.cellsOf q).posGet cell + args.reach)

/-- The sums that are compared so are numbers of 32 bits; any other has no value in the source. -/
def sumsFit : Bool :=
  (List.range args.nTokens).all fun i => (List.range args.nKv).all fun j =>
    (args.heldCell (args.seqIdOf i) j).all fun cell =>
      let sum := (args.cellsOf (args.seqIdOf i)).posGet cell + args.reach
      int32Min ≤ sum && sum ≤ int32Max

/-- A cell after the token, or at its position but further on in 2D. -/
def isFuture (i : Nat) (p0 : Int) (ext : KvCellExt) : Bool :=
  decide (args.posOf i < p0) || args.ubatch.isPos2d && decide (p0 = args.posOf i) &&
    ext.is2dGt (args.ubatch.token i).ext

/-- The value the loop body writes at a row and a column. -/
def entry (i j : Nat) : Option Int :=
  match args.heldCell (args.seqIdOf i) j with
  | none => none
  | some cell =>
    let p0 := (args.cellsOf (args.seqIdOf i)).posGet cell
    if args.causal && args.isFuture i p0 ((args.cellsOf (args.seqIdOf i)).extGet cell) then none
    else if isMaskedSwa args.nSwa args.swaType p0 (args.posOf i) then none
    else if args.alibi then some (-((p0 - args.posOf i).natAbs : Int))
    else some 0

/-! ## The loops -/

/-- The mask with the bookkeeping of one stream. -/
structure State where
  data : Nat → Nat → Option Int
  /-- `seq_srct`: the first row of a sequence -/
  srct : Nat → Option Nat := fun _ => none
  /-- `seq_idxs`: the columns to compute again -/
  idxs : Nat → List Nat := fun _ => []

/-- `data[idst + j] = ..` -/
def write (i : Nat) (data : Nat → Nat → Option Int) (j : Nat) : Nat → Nat → Option Int :=
  Function.update data i (Function.update (data i) j (args.entry i j))

/-- One column of the first row of a sequence. -/
def firstColumn (i : Nat) (st : State) (j : Nat) : State :=
  let q := args.seqIdOf i
  { st with
    data := args.write i st.data j
    idxs :=
      if !args.alibi && args.recorded q j then Function.update st.idxs q (st.idxs q ++ [j])
      else st.idxs }

def firstRow (st : State) (i : Nat) : State :=
  let q := args.seqIdOf i
  let st :=
    if args.alibi then st
    else { st with
      srct := Function.update st.srct q (some i)
      idxs := Function.update st.idxs q [] }
  (List.range args.nKv).foldl (args.firstColumn i) st

/-- A row of a sequence whose first row is `srct`. -/
def laterRow (st : State) (i srct : Nat) : State :=
  let copied := Function.update st.data i (st.data srct)
  { st with data := ((st.idxs (args.seqIdOf i)).take args.nKv).foldl (args.write i) copied }

def row (st : State) (i : Nat) : State :=
  match (if args.alibi then none else st.srct (args.seqIdOf i)) with
  | none => args.firstRow st i
  | some srct => args.laterRow st i srct

def stream (data : Nat → Nat → Option Int) (s : Nat) : Nat → Nat → Option Int :=
  ((List.range args.nTps).foldl (fun st ii => args.row st (s * args.nTps + ii)) { data }).data

end KqMaskArgs

/-- `set_input_kq_mask_impl`; `data` is what the mask held before.  The run of a batch is undefined
where one of the compared sums overflows. -/
def setInputKqMask (args : KqMaskArgs) (data : Nat → Nat → Option Int) :
    Option (Nat → Nat → Option Int) :=
  if args.alibi || args.sumsFit then some ((List.range args.nStream).foldl args.stream data)
  else none

namespace KqMaskArgs

variable {args : KqMaskArgs}

/-! ## Columns that were not recorded -/

variable {i : Nat}

theorem seqPosMin_le (hi : i < args.nTokens) : args.seqPosMin (args.seqIdOf i) ≤ args.posOf i := by
  have hFold : ∀ (l : List Nat) (m : Int),
      l.foldl (fun m k => if args.seqIdOf k = args.seqIdOf i then min m (args.posOf k) else m) m ≤ m ∧
        (i ∈ l → l.foldl (fun m k => if args.seqIdOf k = args.seqIdOf i then
          min m (args.posOf k) else m) m ≤ args.posOf i) := by
    intro l
    induction l with
    | nil => simp
    | cons k l ih =>
      intro m
      obtain ⟨hStart, hMem⟩ := ih (if args.seqIdOf k = args.seqIdOf i then
        min m (args.posOf k) else m)
      constructor
      · refine hStart.trans ?_
        split
        · exact min_le_left _ _
        · exact le_rfl
      intro hIn
      rcases mem_cons.mp hIn with rfl | hIn
      · refine hStart.trans ?_
        rw [if_pos rfl]
        exact min_le_right _ _
      · exact hMem hIn
  exact (hFold (range args.nTokens) _).2 (mem_range.mpr hi)

/-- A cell that lies more than a window before a token is masked by every window that the cast
keeps. -/
theorem isMaskedSwa_of_far {nSwa : Nat} {swaType : SwaType} {p0 p1 : Int}
    (hWindow : nSwa < 2 ^ 31) (hFar : p0 + (nSwa + 32) < p1) :
    isMaskedSwa nSwa swaType p0 p1 = match swaType with
      | .none => false
      | .chunked => if nSwa = 0 then decide (p0 < 0) else true
      | _ => true := by
  have hCast : toInt32 nSwa = nSwa := Int.bmod_eq_of_le (by omega) (by omega)
  cases swaType with
  | none => rfl
  | standard =>
    simp only [isMaskedSwa, hCast, decide_eq_true_eq]
    omega
  | symmetric =>
    have hHalf : (nSwa : Int).tdiv 2 = nSwa / 2 := Int.tdiv_eq_ediv_of_nonneg (by omega)
    simp only [isMaskedSwa, hCast, hHalf, decide_eq_true_eq]
    omega
  | chunked =>
    by_cases hZero : nSwa = 0
    · simp [isMaskedSwa, hZero]
    have hMod := Nat.mod_lt p1.toNat (Nat.pos_of_ne_zero hZero)
    have hDiv := Nat.div_add_mod' p1.toNat nSwa
    simp only [isMaskedSwa, hZero, if_false, decide_eq_true_eq]
    omega

/-- What the loop body asks about a cell that the sequence of the token holds. -/
def hides (args : KqMaskArgs) (i cell : Nat) : Bool :=
  let cells := args.cellsOf (args.seqIdOf i)
  args.causal && args.isFuture i (cells.posGet cell) (cells.extGet cell) ||
    isMaskedSwa args.nSwa args.swaType (cells.posGet cell) (args.posOf i)

variable {j : Nat}

theorem entry_of_held {cell : Nat} (hAlibi : args.alibi = false)
    (hCell : args.heldCell (args.seqIdOf i) j = some cell) :
    args.entry i j = if args.hides i cell then none else some 0 := by
  simp only [entry, hides, hCell, hAlibi, Bool.or_eq_true, Bool.false_eq_true, if_false]
  by_cases hFuture : (args.causal && args.isFuture i ((args.cellsOf (args.seqIdOf i)).posGet cell)
      ((args.cellsOf (args.seqIdOf i)).extGet cell)) = true
  · rw [if_pos hFuture, if_pos (Or.inl hFuture)]
  · rw [if_neg hFuture]
    simp only [hFuture, Bool.false_eq_true, false_or]

/-- With a window below `2^31 - 32` a column that was not recorded is hidden from all rows of a
sequence or from none. -/
theorem hides_eq_of_not_recorded {r cell : Nat} (hWindow : args.nSwa + 32 < 2 ^ 31)
    (hr : r < args.nTokens) (hi : i < args.nTokens) (hSame : args.seqIdOf r = args.seqIdOf i)
    (hCell : args.heldCell (args.seqIdOf i) j = some cell)
    (hNot : args.recorded (args.seqIdOf i) j = false) : args.hides r cell = args.hides i cell := by
  have hMinR := seqPosMin_le hr
  have hMinI := seqPosMin_le hi
  have hReach : args.reach = (args.nSwa + 32 : Nat) := by
    unfold reach toInt32
    exact Int.bmod_eq_of_le (by omega) (by omega)
  simp only [recorded, hCell, Option.any_some, decide_eq_false_iff_not, not_le, hReach] at hNot
  rw [hSame] at hMinR
  have hFar : ∀ k, args.seqPosMin (args.seqIdOf i) ≤ args.posOf k →
      (args.cellsOf (args.seqIdOf i)).posGet cell + (args.nSwa + 32) < args.posOf k :=
    fun k hk => by omega
  have hPast : ∀ k ext, args.seqPosMin (args.seqIdOf i) ≤ args.posOf k →
      args.isFuture k ((args.cellsOf (args.seqIdOf i)).posGet cell) ext = false := by
    intro k ext hk
    have hNotLt : ¬ args.posOf k < (args.cellsOf (args.seqIdOf i)).posGet cell := by omega
    have hNe : (args.cellsOf (args.seqIdOf i)).posGet cell ≠ args.posOf k := by omega
    simp [isFuture, hNotLt, hNe]
  have hSmall : args.nSwa < 2 ^ 31 := by omega
  unfold hides
  rw [hSame]
  dsimp only
  rw [hPast r _ hMinR, hPast i _ hMinI, isMaskedSwa_of_far hSmall (hFar r hMinR),
    isMaskedSwa_of_far hSmall (hFar i hMinI)]

/-! ## Rows -/

/-- The row of the first token in the stream of token `i` that has its sequence. -/
def firstRowOf (args : KqMaskArgs) (i : Nat) : Nat :=
  ((List.range' (i / args.nTps * args.nTps) args.nTps).find? fun k =>
    args.seqIdOf k = args.seqIdOf i).getD i

theorem firstRowOf_eq {s r : Nat} (hStart : s * args.nTps ≤ r) (hLe : r ≤ i)
    (hEnd : i < (s + 1) * args.nTps) (hSame : args.seqIdOf r = args.seqIdOf i)
    (hFirst : ∀ k, s * args.nTps ≤ k → k < r → args.seqIdOf k ≠ args.seqIdOf i) :
    args.firstRowOf i = r := by
  have hStream : i / args.nTps = s := Nat.div_eq_of_lt_le (hStart.trans hLe) hEnd
  rw [Nat.succ_mul] at hEnd
  have hFind : ((List.range' (s * args.nTps) args.nTps).find? fun k =>
      args.seqIdOf k = args.seqIdOf i) = some r := by
    rw [find?_range'_eq_some]
    refine ⟨decide_eq_true hSame, mem_range'_1.mpr ⟨hStart, by omega⟩, fun k hk hLt => ?_⟩
    rw [Bool.not_eq_true', decide_eq_false_iff_not]
    exact hFirst k hk hLt
  rw [firstRowOf, hStream, hFind, Option.getD_some]

/-- What the loops leave at a row and a column: a column that was not recorded looks as in the
first row. -/
def copied (args : KqMaskArgs) (i j : Nat) : Option Int :=
  if args.alibi || args.recorded (args.seqIdOf i) j then args.entry i j
  else args.entry (args.firstRowOf i) j

theorem foldl_write (i : Nat) (l : List Nat) (data : Nat → Nat → Option Int) (r j : Nat) :
    l.foldl (args.write i) data r j = if r = i ∧ j ∈ l then args.entry i j else data r j := by
  induction l generalizing data with
  | nil => simp
  | cons k l ih =>
    rw [foldl_cons, ih]
    by_cases hRow : r = i
    · subst hRow
      by_cases hMem : j ∈ l
      · simp [hMem]
      by_cases hCol : j = k
      · subst hCol
        simp [write]
      · simp [write, hCol]
    · simp [write, hRow]

theorem foldl_firstColumn (hAlibi : args.alibi = false) (i : Nat) (l : List Nat) (st : State) :
    l.foldl (args.firstColumn i) st =
      { data := l.foldl (args.write i) st.data
        srct := st.srct
        idxs := update st.idxs (args.seqIdOf i)
          (st.idxs (args.seqIdOf i) ++ l.filter (args.recorded (args.seqIdOf i))) } := by
  induction l generalizing st with
  | nil => simp
  | cons j l ih =>
    rw [foldl_cons, ih]
    cases hRec : args.recorded (args.seqIdOf i) j with
    | false => simp [firstColumn, hAlibi, hRec]
    | true => simp [firstColumn, hAlibi, hRec]

/-- A row is the first of its sequence in the stream that begins at row `base`. -/
def IsFirst (args : KqMaskArgs) (base r : Nat) : Prop :=
  base ≤ r ∧ ∀ k, base ≤ k → k < r → args.seqIdOf k ≠ args.seqIdOf r

/-- The rows before `n` are as they should be, and so is the bookkeeping of stream `s`. -/
structure Done (args : KqMaskArgs) (s n : Nat) (st : State) : Prop where
  rows : ∀ r < n, ∀ j < args.nKv, st.data r j = args.copied r j
  first : ∀ q r, st.srct q = some r → r < n ∧ args.seqIdOf r = q ∧
    IsFirst args (s * args.nTps) r ∧ st.idxs q = (List.range args.nKv).filter (args.recorded q)
  fresh : args.alibi = false → ∀ q, st.srct q = none →
    ∀ k, s * args.nTps ≤ k → k < n → args.seqIdOf k ≠ q

variable {st : State} {s : Nat}

section Row

variable (hAlibi : args.alibi = false) (hStart : s * args.nTps ≤ i)
  (hEnd : i < (s + 1) * args.nTps)

include hAlibi hStart hEnd

theorem Done.firstRow (h : Done args s i st) (hNone : st.srct (args.seqIdOf i) = none) :
    Done args s (i + 1) (args.firstRow st i) := by
  have hNew := h.fresh hAlibi _ hNone
  have hRow : args.firstRow st i =
      { data := (range args.nKv).foldl (args.write i) st.data
        srct := update st.srct (args.seqIdOf i) (some i)
        idxs := update st.idxs (args.seqIdOf i)
          ((range args.nKv).filter (args.recorded (args.seqIdOf i))) } := by
    simp [KqMaskArgs.firstRow, hAlibi, foldl_firstColumn hAlibi]
  rw [hRow]
  constructor
  · intro r hr j hj
    change (range args.nKv).foldl (args.write i) st.data r j = _
    rw [foldl_write]
    by_cases hRow : r = i
    · rw [if_pos ⟨hRow, mem_range.mpr hj⟩, hRow, copied,
        firstRowOf_eq hStart le_rfl hEnd rfl hNew, ite_self]
    · rw [if_neg fun hBoth => hRow hBoth.1]
      exact h.rows r (by omega) j hj
  · intro q r hFirst
    by_cases hSeq : q = args.seqIdOf i
    · subst hSeq
      simp only [update_self, Option.some.injEq] at hFirst ⊢
      subst hFirst
      exact ⟨Nat.lt_succ_self i, rfl, ⟨hStart, hNew⟩, trivial⟩
    simp only [update_of_ne hSeq] at hFirst ⊢
    obtain ⟨hLt, hRest⟩ := h.first q r hFirst
    exact ⟨Nat.lt_succ_of_lt hLt, hRest⟩
  intro _ q hq k hk hLt
  by_cases hSeq : q = args.seqIdOf i
  · simp [hSeq] at hq
  simp only [update_of_ne hSeq] at hq
  by_cases hLast : k = i
  · rw [hLast]
    exact Ne.symm hSeq
  · exact h.fresh hAlibi q hq k hk (by omega)

theorem Done.laterRow {srct : Nat} (h : Done args s i st)
    (hFirst : st.srct (args.seqIdOf i) = some srct) :
    Done args s (i + 1) (args.laterRow st i srct) := by
  obtain ⟨hLt, hSame, ⟨hBase, hNew⟩, hIdxs⟩ := h.first _ _ hFirst
  have hTake : (st.idxs (args.seqIdOf i)).take args.nKv =
      (range args.nKv).filter (args.recorded (args.seqIdOf i)) := by
    have hLen : (st.idxs (args.seqIdOf i)).length ≤ args.nKv := by
      rw [hIdxs]
      exact (length_filter_le _ _).trans length_range.le
    rw [take_of_length_le hLen, hIdxs]
  refine ⟨?_, ?_, ?_⟩
  · intro r hr j hj
    simp only [KqMaskArgs.laterRow, hTake, foldl_write]
    by_cases hRow : r = i
    · subst hRow
      have hOwn := firstRowOf_eq hBase hLt.le hEnd hSame fun k hk hBefore =>
        hSame ▸ hNew k hk hBefore
      have hSelf := firstRowOf_eq hBase le_rfl (hLt.trans hEnd) rfl hNew
      simp only [mem_filter, mem_range, hj, update_self, copied, hAlibi, hOwn, Bool.false_or,
        true_and]
      split
      · rfl
      · rw [h.rows srct hLt j hj, copied, hSelf, ite_self]
    · rw [if_neg fun hBoth => hRow hBoth.1, update_of_ne hRow]
      exact h.rows r (by omega) j hj
  · intro q r hq
    obtain ⟨hLt, hRest⟩ := h.first q r hq
    exact ⟨Nat.lt_succ_of_lt hLt, hRest⟩
  intro _ q hq k hk hBefore hSeq
  by_cases hLast : k = i
  · rw [← hSeq, hLast] at hq
    change st.srct (args.seqIdOf i) = none at hq
    rw [hFirst] at hq
    cases hq
  · exact h.fresh hAlibi q hq k hk (by omega) hSeq

end Row

theorem Done.alibiRow (hAlibi : args.alibi = true)
    (h : Done args s i st) : Done args s (i + 1) (args.row st i) := by
  have hFold : ∀ (l : List Nat) (st : State), l.foldl (args.firstColumn i) st =
      { st with data := l.foldl (args.write i) st.data } := by
    intro l
    induction l with
    | nil => simp
    | cons j l ih =>
      intro st
      rw [foldl_cons, ih]
      simp [firstColumn, hAlibi]
  have hRow : args.row st i =
      { st with data := (range args.nKv).foldl (args.write i) st.data } := by
    simp [row, KqMaskArgs.firstRow, hAlibi, hFold]
  rw [hRow]
  refine ⟨?_, ?_, fun hNot => absurd hNot (by simp [hAlibi])⟩
  · intro r hr j hj
    change (range args.nKv).foldl (args.write i) st.data r j = _
    rw [foldl_write]
    by_cases hRow : r = i
    · simp [hRow, hj, copied, hAlibi]
    · rw [if_neg fun hBoth => hRow hBoth.1]
      exact h.rows r (by omega) j hj
  intro q r hq
  obtain ⟨hLt, hRest⟩ := h.first q r hq
  exact ⟨Nat.lt_succ_of_lt hLt, hRest⟩

theorem Done.row (hStart : s * args.nTps ≤ i) (hEnd : i < (s + 1) * args.nTps)
    (h : Done args s i st) : Done args s (i + 1) (args.row st i) := by
  cases hAlibi : args.alibi with
  | true => exact h.alibiRow hAlibi
  | false =>
    simp only [KqMaskArgs.row, hAlibi]
    cases hFirst : st.srct (args.seqIdOf i) with
    | none => exact h.firstRow hAlibi hStart hEnd hFirst
    | some srct => exact h.laterRow hAlibi hStart hEnd hFirst

/-! ## Streams -/

theorem nTokens_eq (args : KqMaskArgs) : args.nTokens = args.nStream * args.nTps := by
  exact (Nat.mul_div_cancel' (Nat.dvd_of_mod_eq_zero args.streams.2)).symm

theorem stream_rows {data : Nat → Nat → Option Int}
    (h : ∀ r < s * args.nTps, ∀ j < args.nKv, data r j = args.copied r j) :
    ∀ r < (s + 1) * args.nTps, ∀ j < args.nKv, args.stream data s r j = args.copied r j := by
  have hRows : ∀ k ≤ args.nTps, Done args s (s * args.nTps + k) ((range k).foldl
      (fun st ii => args.row st (s * args.nTps + ii)) { data }) := by
    intro k
    induction k with
    | zero => exact fun _ => ⟨h, fun q r hq => (by cases hq), fun _ _ _ k hk hLt => absurd hk hLt.not_ge⟩
    | succ k ih =>
      intro hk
      rw [range_succ, foldl_append]
      refine (ih (by omega)).row (Nat.le_add_right _ _) ?_
      rw [Nat.succ_mul]
      exact Nat.add_lt_add_left hk _
  rw [Nat.succ_mul]
  exact (hRows args.nTps le_rfl).rows

/-- The mask of the incremental computation, entry by entry. -/
theorem foldl_stream_eq (args : KqMaskArgs) (data : Nat → Nat → Option Int)
    (hi : i < args.nTokens) (hj : j < args.nKv) :
    (range args.nStream).foldl args.stream data i j = args.copied i j := by
  have hStreams : ∀ n, ∀ r < n * args.nTps, ∀ j < args.nKv,
      (range n).foldl args.stream data r j = args.copied r j := by
    intro n
    induction n with
    | zero =>
      intro r hr
      rw [Nat.zero_mul] at hr
      exact absurd hr (Nat.not_lt_zero r)
    | succ n ih =>
      rw [range_succ, foldl_append]
      exact stream_rows ih
  rw [nTokens_eq] at hi
  exact hStreams args.nStream i hi j hj

/-! ## The plain definition -/

/-- Token `i` may attend to column `j`. -/
def Visible (args : KqMaskArgs) (i j : Nat) : Prop :=
  ∃ cell, args.mappedCell j = some cell ∧
    cell < (args.cellsOf (args.seqIdOf i)).size ∧
    (args.cellsOf (args.seqIdOf i)).isEmpty cell = false ∧
    (args.cellsOf (args.seqIdOf i)).seqHas cell (args.seqIdOf i) = true ∧
    (args.causal = true →
      args.isFuture i ((args.cellsOf (args.seqIdOf i)).posGet cell)
        ((args.cellsOf (args.seqIdOf i)).extGet cell) = false) ∧
    isMaskedSwa args.nSwa args.swaType ((args.cellsOf (args.seqIdOf i)).posGet cell)
      (args.posOf i) = false

theorem heldCell_eq_some {q cell : Nat} :
    args.heldCell q j = some cell ↔ args.mappedCell j = some cell ∧
      cell < (args.cellsOf q).size ∧ (args.cellsOf q).isEmpty cell = false ∧
      (args.cellsOf q).seqHas cell q = true := by
  simp [heldCell, and_assoc]

theorem entry_eq_some_iff (hAlibi : args.alibi = false) :
    args.entry i j = some 0 ↔ Visible args i j := by
  unfold entry Visible
  constructor
  · intro h
    cases hCell : args.heldCell (args.seqIdOf i) j with
    | none => simp [hCell] at h
    | some cell =>
      obtain ⟨hMapped, hIn, hUsed, hHas⟩ := heldCell_eq_some.mp hCell
      refine ⟨cell, hMapped, hIn, hUsed, hHas, ?_⟩
      rw [hCell] at h
      dsimp only at h
      split at h
      · cases h
      split at h
      · cases h
      rename_i hPast hWindow
      refine ⟨fun hCausal => ?_, by simpa using hWindow⟩
      simpa [hCausal] using hPast
  rintro ⟨cell, hMapped, hIn, hUsed, hHas, hPast, hWindow⟩
  have hCell := heldCell_eq_some.mpr ⟨hMapped, hIn, hUsed, hHas⟩
  have hNot : (args.causal && args.isFuture i
      ((args.cellsOf (args.seqIdOf i)).posGet cell)
      ((args.cellsOf (args.seqIdOf i)).extGet cell)) = false := by
    cases hCausal : args.causal with
    | false => rfl
    | true => exact hPast hCausal
  simp [hCell, hNot, hWindow, hAlibi]

theorem entry_eq_some_or_none (hAlibi : args.alibi = false) (i j : Nat) :
    args.entry i j = some 0 ∨ args.entry i j = none := by
  cases hCell : args.heldCell (args.seqIdOf i) j with
  | none => exact Or.inr (by rw [entry, hCell])
  | some cell =>
    rw [entry_of_held hAlibi hCell]
    split
    · exact Or.inr rfl
    · exact Or.inl rfl

/-- The mask keeps exactly the visible columns. -/
def Plain (args : KqMaskArgs) (mask : Nat → Nat → Option Int) : Prop :=
  ∀ i < args.nTokens, ∀ j < args.nKv,
    (Visible args i j ∧ mask i j = some 0) ∨ (¬ Visible args i j ∧ mask i j = none)

theorem plain_iff (hAlibi : args.alibi = false) (mask : Nat → Nat → Option Int) :
    Plain args mask ↔ ∀ i < args.nTokens, ∀ j < args.nKv, mask i j = args.entry i j := by
  refine forall₄_congr fun i hi j hj => ?_
  rw [← entry_eq_some_iff hAlibi]
  rcases entry_eq_some_or_none hAlibi i j with hKeep | hDrop
  · simp [hKeep]
  · simp [hDrop]

/-- A column that was not recorded is hidden from a token exactly when it is hidden from the first
token of its sequence in the stream. -/
def HiddenAlike (args : KqMaskArgs) : Prop :=
  ∀ i < args.nTokens, ∀ j < args.nKv, ∀ cell, args.heldCell (args.seqIdOf i) j = some cell →
    args.recorded (args.seqIdOf i) j = false → args.hides (args.firstRowOf i) cell = args.hides i cell

/-- The first row of a token is a row of its sequence in the batch. -/
theorem firstRowOf_spec (hi : i < args.nTokens) :
    args.firstRowOf i < args.nTokens ∧ args.seqIdOf (args.firstRowOf i) = args.seqIdOf i := by
  unfold firstRowOf
  cases hFind : (List.range' (i / args.nTps * args.nTps) args.nTps).find? fun k =>
      args.seqIdOf k = args.seqIdOf i with
  | none => exact ⟨hi, rfl⟩
  | some r =>
    obtain ⟨hSame, hMem, hFirst⟩ := find?_range'_eq_some.mp hFind
    refine ⟨?_, of_decide_eq_true hSame⟩
    by_contra hLate
    have hStart := Nat.div_mul_le_self i args.nTps
    exact absurd (hFirst i hStart (by rw [Option.getD_some] at hLate; omega)) (by simp)

theorem copied_eq_entry_iff (hAlibi : args.alibi = false) (hi : i < args.nTokens) :
    args.copied i j = args.entry i j ↔ ∀ cell, args.heldCell (args.seqIdOf i) j = some cell →
      args.recorded (args.seqIdOf i) j = false →
        args.hides (args.firstRowOf i) cell = args.hides i cell := by
  obtain ⟨-, hSame⟩ := firstRowOf_spec hi
  unfold copied
  rw [hAlibi, Bool.false_or]
  cases hRecorded : args.recorded (args.seqIdOf i) j with
  | true => simp
  | false =>
    simp only [Bool.false_eq_true, if_false, forall_const]
    cases hCell : args.heldCell (args.seqIdOf i) j with
    | none => simp [entry, hSame, hCell]
    | some cell =>
      rw [entry_of_held hAlibi hCell, entry_of_held hAlibi (hSame.symm ▸ hCell)]
      simp only [Option.some.injEq, forall_eq']
      cases args.hides (args.firstRowOf i) cell with
      | true => cases args.hides i cell <;> simp
      | false => cases args.hides i cell <;> simp

/-- Without ALiBi the mask is the plain one exactly when no compared sum overflows and, unless the
window is below `2^31 - 32`, the columns that are copied look the same. -/
theorem setInputKqMask_exact_iff (args : KqMaskArgs) (hAlibi : args.alibi = false)
    (data : Nat → Nat → Option Int) :
    (∃ mask, setInputKqMask args data = some mask ∧ Plain args mask) ↔
      args.sumsFit = true ∧ (args.nSwa + 32 < 2 ^ 31 ∨ HiddenAlike args) := by
  have hAlike : args.nSwa + 32 < 2 ^ 31 → HiddenAlike args := fun hWindow i hi j _ cell hCell hNot =>
    hides_eq_of_not_recorded hWindow (firstRowOf_spec hi).1 hi (firstRowOf_spec hi).2 hCell hNot
  have hPlain : Plain args ((range args.nStream).foldl args.stream data) ↔ HiddenAlike args := by
    rw [plain_iff hAlibi]
    refine forall₄_congr fun i hi j hj => ?_
    rw [foldl_stream_eq args data hi hj, copied_eq_entry_iff hAlibi hi]
  unfold setInputKqMask
  rw [hAlibi, Bool.false_or, or_iff_right_of_imp hAlike, ← hPlain]
  cases args.sumsFit with
  | true => simp
  | false => simp

/-- Two tokens of sequence 0 at the positions 3 and 2 over cells that hold the
positions 2 and 3. -/
def unordered : KqMaskArgs where
  cells _ := { size := 2, cell := fun i => { pos := 2 + i, seq := {0} } }
  seqToStream _ := 0
  ubatch := { tokens := [{ pos := 3, seqId := [0] }, { pos := 2, seqId := [0] }], seqIdUnq := [0] }
  nKv := 2
  nSwa := 4
  swaType := .standard
  streams := by decide
  mapped := Or.inl rfl

/-- The second token is before the first one, and its row is still the plain one. -/
theorem unordered_plain : ∃ mask, setInputKqMask unordered (fun _ _ => none) = some mask ∧
    Plain unordered mask :=
  (setInputKqMask_exact_iff unordered rfl _).mpr ⟨by decide, Or.inl (by decide)⟩

/-- Two tokens in order, with a window of which `n_swa + 32` is negative as an `int32_t`. -/
def wideWindow : KqMaskArgs :=
  { unordered with
    ubatch := { tokens := [{ pos := 2, seqId := [0] }, { pos := 3, seqId := [0] }], seqIdUnq := [0] }
    nSwa := 2 ^ 31 - 32
    streams := by decide }

/-- The second token does not see its own cell: its row is a copy of the first one. -/
theorem wideWindow_misses :
    ∃ mask, setInputKqMask wideWindow (fun _ _ => none) = some mask ∧
      Visible wideWindow 1 1 ∧ mask 1 1 = none := by
  refine ⟨_, rfl, ⟨1, by decide⟩, by decide⟩

end KqMaskArgs

end Beellama.Ports
