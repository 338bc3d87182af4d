import Beellama.Ports.KvCache
import Beellama.Verified.SortedRange

/-!
# The union of the windows of a sliding attention

`llama_kv_tail_union_swa_rows` reduces the rows of the body to those that some
query reads.  The mask is asked only for the rows in a window around the position of the
query, and no row that a query may read lies outside (`in_window`), so the rows
that are left are exactly those that some query reads (`unionSwaRows_exact`).
-/

namespace Beellama.Ports

open Beellama.Verified List Option

/-- `llama_kv_tail_body_row` -/
structure BodyRow where
  position : Int
  cell : Nat
  flat : Int
  deriving DecidableEq

/-- `llama_kv_tail_query_window` -/
structure QueryWindow where
  maskRow : Nat
  position : Int
  deriving DecidableEq

namespace BodyRow

/-- The order in which the rows are sorted. -/
def le (a b : BodyRow) : Bool :=
  a.position < b.position || (a.position == b.position && a.cell ≤ b.cell)

theorem le_trans (a b c : BodyRow) (h : a.le b = true) (h' : b.le c = true) : a.le c = true := by
  unfold le at *
  simp only [Bool.or_eq_true, Bool.and_eq_true, decide_eq_true_eq, beq_iff_eq] at *
  omega

theorem le_total (a b : BodyRow) : (a.le b || b.le a) = true := by
  unfold le
  simp only [Bool.or_eq_true, Bool.and_eq_true, decide_eq_true_eq, beq_iff_eq]
  omega

theorem position_le {a b : BodyRow} (h : a.le b = true) : a.position ≤ b.position := by
  unfold le at h
  simp only [Bool.or_eq_true, Bool.and_eq_true, decide_eq_true_eq, beq_iff_eq] at h
  omega

end BodyRow

/-- `clamp_pos` -/
def clampPos (value : Int) : Int := max int32Min (min int32Max value)

/-- `lo` of a query. -/
def windowLow (nSwa : Nat) (swaType : SwaType) (p1 : Int) : Int :=
  clampPos <| match swaType with
    | .standard => p1 - nSwa + 1
    | .chunked => p1.tdiv nSwa * nSwa
    | .symmetric => p1 - (nSwa / 2 : Nat)
    | .none => int32Min

/-- `hi` of a query. -/
def windowHigh (nSwa : Nat) (swaType : SwaType) (causalAttn : Bool) (p1 : Int) : Int :=
  let hi : Int := match swaType with
    | .symmetric => p1 + (nSwa / 2 : Nat)
    | _ => int32Max
  clampPos (if causalAttn then min hi p1 else hi)

/-- The rows that a query adds to the selected ones. -/
def selectWindow (rows : List BodyRow) (nSwa : Nat) (swaType : SwaType) (causalAttn : Bool)
    (isFinite : Nat → Nat → Bool) (selected : List Bool) (query : QueryWindow) : List Bool :=
  let first := lowerBound BodyRow.position rows (windowLow nSwa swaType query.position)
  let last := upperBound BodyRow.position rows first
    (windowHigh nSwa swaType causalAttn query.position)
  (List.range' first (last - first)).foldl (fun selected index =>
    if (rows[index]?.map fun row => isFinite query.maskRow row.cell) = some true then
      selected.set index true
    else selected) selected

/-- `llama_kv_tail_union_swa_rows`; the rows are left in their new order, without those that are
not selected. -/
def unionSwaRows (rows : List BodyRow) (queries : List QueryWindow) (nSwa : Nat)
    (swaType : SwaType) (causalAttn : Bool) (isFinite : Nat → Nat → Bool) :
    Option (List BodyRow) :=
  if nSwa = 0 ∨ swaType = .none then none
  else
    let rows := rows.mergeSort BodyRow.le
    let selected := queries.foldl (selectWindow rows nSwa swaType causalAttn isFinite)
      (List.replicate rows.length false)
    some (((rows.zip selected).filter fun e => e.2).map fun e => e.1)

/-! ## The windows -/

section Windows

variable {nSwa : Nat} {swaType : SwaType} {causalAttn : Bool} {p0 p1 : Int}

/-- What is not masked lies in the window. -/
theorem in_window (hType : swaType ≠ .none) (hSwa : nSwa < 2 ^ 32)
    (h0 : 0 ≤ p0 ∧ p0 ≤ int32Max) (h1 : 0 ≤ p1 ∧ p1 ≤ int32Max)
    (hMask : isMaskedSwa nSwa swaType p0 p1 = false) (hCausal : causalAttn = true → p0 ≤ p1) :
    windowLow nSwa swaType p1 ≤ p0 ∧ p0 ≤ windowHigh nSwa swaType causalAttn p1 := by
  have hCast : toInt32 nSwa ≤ nSwa := by
    unfold toInt32
    rw [Int.bmod_def]
    omega
  unfold int32Max at h0 h1
  unfold isMaskedSwa at hMask
  unfold windowLow windowHigh clampPos int32Min int32Max
  cases swaType with
  | none => exact absurd rfl hType
  | standard =>
    simp only [decide_eq_false_iff_not] at hMask
    dsimp only
    cases causalAttn with
    | true =>
      have hLe := hCausal rfl
      omega
    | false =>
      simp only [Bool.false_eq_true, if_false]
      omega
  | chunked =>
    simp only [decide_eq_false_iff_not] at hMask
    have hDiv : p1.tdiv nSwa * nSwa = ((p1.toNat / nSwa * nSwa : Nat) : Int) := by
      rw [Int.tdiv_eq_ediv_of_nonneg h1.1, Int.natCast_mul, Int.natCast_ediv,
        Int.toNat_of_nonneg h1.1]
    dsimp only
    refine ⟨by omega, ?_⟩
    cases causalAttn with
    | true =>
      have hLe := hCausal rfl
      simp only [if_true]
      omega
    | false =>
      simp only [Bool.false_eq_true, if_false]
      omega
  | symmetric =>
    have hHalf : (toInt32 nSwa).tdiv 2 ≤ (nSwa / 2 : Nat) := by
      rcases Int.le_total 0 (toInt32 nSwa) with hSign | hSign
      · rw [Int.tdiv_eq_ediv_of_nonneg hSign]
        omega
      have hNeg : 0 ≤ (-toInt32 nSwa).tdiv 2 := Int.tdiv_nonneg (by omega) (by omega)
      rw [Int.neg_tdiv] at hNeg
      omega
    simp only [decide_eq_false_iff_not] at hMask
    dsimp only
    refine ⟨by omega, ?_⟩
    cases causalAttn with
    | true =>
      have hLe := hCausal rfl
      simp only [if_true]
      omega
    | false =>
      simp only [Bool.false_eq_true, if_false]
      omega

end Windows

/-! ## The selected rows -/

section Selected

variable {rows : List BodyRow} {queries : List QueryWindow} {nSwa : Nat} {swaType : SwaType}
  {causalAttn : Bool} {isFinite : Nat → Nat → Bool}

theorem getElem?_foldl_set (P : Nat → Prop) [DecidablePred P] (l : List Nat)
    (selected : List Bool) (i : Nat) :
    (l.foldl (fun selected index => if P index then selected.set index true else selected)
      selected)[i]? = selected[i]?.map fun b => b || decide (i ∈ l ∧ P i) := by
  induction l generalizing selected with
  | nil => simp
  | cons a l ih =>
    rw [foldl_cons, ih]
    by_cases hP : P a
    · rw [if_pos hP]
      by_cases ha : a = i
      · subst ha
        by_cases hBound : a < selected.length
        · simp [hBound, hP]
        · simp [hBound]
      · simp [ha, Ne.symm ha]
    rw [if_neg hP]
    by_cases ha : i = a
    · subst ha
      simp [hP]
    · simp [ha]

variable {i : Nat} {row : BodyRow}

/-- A query selects the rows in its window that its mask lets it read. -/
theorem getElem?_selectWindow (hSorted : rows.Pairwise fun a b => a.position ≤ b.position)
    (selected : List Bool) (query : QueryWindow) (hRow : rows[i]? = some row) :
    (selectWindow rows nSwa swaType causalAttn isFinite selected query)[i]? =
      selected[i]?.map fun b => b || decide ((windowLow nSwa swaType query.position ≤ row.position ∧
        row.position ≤ windowHigh nSwa swaType causalAttn query.position) ∧
          isFinite query.maskRow row.cell = true) := by
  unfold selectWindow
  rw [getElem?_foldl_set, hRow]
  congr 1
  funext b
  congr 1
  rw [decide_eq_decide, mem_range'_1, map_some, some.injEq,
    ← within_range_iff hSorted hRow]
  constructor
  · rintro ⟨⟨hFirst, hLast⟩, hFinite⟩
    exact ⟨⟨hFirst, by omega⟩, hFinite⟩
  · rintro ⟨⟨hFirst, hLast⟩, hFinite⟩
    exact ⟨⟨hFirst, by omega⟩, hFinite⟩

/-- The mask hides what the window of a query does not reach. -/
def MaskHides (nSwa : Nat) (swaType : SwaType) (causalAttn : Bool) (isFinite : Nat → Nat → Bool)
    (rows : List BodyRow) (queries : List QueryWindow) : Prop :=
  ∀ row ∈ rows, ∀ query ∈ queries,
    isMaskedSwa nSwa swaType row.position query.position = true ∨
      (causalAttn = true ∧ query.position < row.position) →
        isFinite query.maskRow row.cell = false

/-- The positions are non-negative numbers of 32 bits. -/
def PositionsFit (rows : List BodyRow) (queries : List QueryWindow) : Prop :=
  (∀ row ∈ rows, 0 ≤ row.position ∧ row.position ≤ int32Max) ∧
    ∀ query ∈ queries, 0 ≤ query.position ∧ query.position ≤ int32Max

/-- The rows that some query reads. -/
def readBySome (queries : List QueryWindow) (isFinite : Nat → Nat → Bool) (row : BodyRow) : Bool :=
  queries.any fun query => isFinite query.maskRow row.cell

theorem getElem?_selected (hSwa : nSwa < 2 ^ 32) (hType : swaType ≠ .none)
    (hSorted : rows.Pairwise fun a b => a.position ≤ b.position)
    (hFit : PositionsFit rows queries)
    (hHides : MaskHides nSwa swaType causalAttn isFinite rows queries)
    (hRow : rows[i]? = some row) (selected : List Bool) :
    (queries.foldl (selectWindow rows nSwa swaType causalAttn isFinite) selected)[i]? =
      selected[i]?.map fun b => b || readBySome queries isFinite row := by
  induction queries generalizing selected with
  | nil => simp [readBySome]
  | cons query queries ih =>
    have hMem := mem_of_getElem? hRow
    have hRest := ih ⟨hFit.1, fun q hq => hFit.2 q (mem_cons_of_mem _ hq)⟩
      (fun r hr q hq => hHides r hr q (mem_cons_of_mem _ hq))
    have hWindow : (windowLow nSwa swaType query.position ≤ row.position ∧
        row.position ≤ windowHigh nSwa swaType causalAttn query.position) ∧
          isFinite query.maskRow row.cell = true ↔ isFinite query.maskRow row.cell = true := by
      refine and_iff_right_of_imp fun hFinite => ?_
      have hNot : ¬ (isMaskedSwa nSwa swaType row.position query.position = true ∨
          (causalAttn = true ∧ query.position < row.position)) := by
        intro hMasked
        rw [hHides row hMem query mem_cons_self hMasked] at hFinite
        exact absurd hFinite (by simp)
      obtain ⟨hMask, hCausal⟩ := not_or.mp hNot
      exact in_window hType hSwa (hFit.1 row hMem) (hFit.2 query mem_cons_self)
        (Bool.eq_false_iff.mpr hMask) fun hTrue => by
          by_contra hLater
          exact hCausal ⟨hTrue, by omega⟩
    rw [foldl_cons, hRest, getElem?_selectWindow hSorted _ _ hRow, Option.map_map]
    congr 1
    funext b
    simp only [Function.comp_apply, hWindow, readBySome, any_cons, Bool.or_assoc,
      Bool.decide_eq_true]

theorem filter_zip_eq {α : Type} {l : List α} {flags : List Bool} {p : α → Bool}
    (hLength : flags.length = l.length)
    (h : ∀ (i : Nat) (x : α), l[i]? = some x → flags[i]? = some (p x)) :
    ((l.zip flags).filter fun e => e.2).map (fun e => e.1) = l.filter p := by
  induction l generalizing flags with
  | nil => rfl
  | cons x l ih =>
    cases flags with
    | nil => exact absurd hLength (by simp)
    | cons b flags =>
      have hHead : b = p x := some.inj (h 0 x rfl)
      have hRest := ih (Nat.succ.inj hLength) fun i y hy => h (i + 1) y hy
      rw [zip_cons_cons, filter_cons, filter_cons, hHead]
      by_cases hp : p x = true
      · rw [if_pos hp, if_pos hp, map_cons, hRest]
      · rw [if_neg hp, if_neg hp, hRest]

theorem length_selectWindow (selected : List Bool) (query : QueryWindow) :
    (selectWindow rows nSwa swaType causalAttn isFinite selected query).length =
      selected.length := by
  unfold selectWindow
  dsimp only
  generalize range' _ _ = l
  induction l generalizing selected with
  | nil => rfl
  | cons a l ih =>
    rw [foldl_cons, ih]
    split <;> simp

/-- The rows are sorted, and those that no query reads are left out. -/
theorem unionSwaRows_eq (hPos : 0 < nSwa) (hSwa : nSwa < 2 ^ 32) (hType : swaType ≠ .none)
    (hFit : PositionsFit rows queries)
    (hHides : MaskHides nSwa swaType causalAttn isFinite rows queries) :
    unionSwaRows rows queries nSwa swaType causalAttn isFinite =
      some ((rows.mergeSort BodyRow.le).filter (readBySome queries isFinite)) := by
  have hMem : ∀ row, row ∈ rows.mergeSort BodyRow.le → row ∈ rows := fun row hRow =>
    mem_mergeSort.mp hRow
  have hSorted : (rows.mergeSort BodyRow.le).Pairwise fun a b => a.position ≤ b.position :=
    (pairwise_mergeSort BodyRow.le_trans BodyRow.le_total rows).imp BodyRow.position_le
  unfold unionSwaRows
  rw [if_neg (not_or.mpr ⟨Nat.pos_iff_ne_zero.mp hPos, hType⟩)]
  dsimp only
  congr 1
  refine filter_zip_eq ?_ fun i row hRow => ?_
  · generalize hRows : rows.mergeSort BodyRow.le = sorted
    have hLength : ∀ (qs : List QueryWindow) (selected : List Bool),
        (qs.foldl (selectWindow sorted nSwa swaType causalAttn isFinite) selected).length =
          selected.length := by
      intro qs
      induction qs with
      | nil => exact fun _ => rfl
      | cons q qs ih =>
        intro selected
        rw [foldl_cons, ih, length_selectWindow]
    rw [hLength, length_replicate]
  rw [getElem?_selected hSwa hType hSorted
    ⟨fun r hr => hFit.1 r (hMem r hr), hFit.2⟩ (fun r hr => hHides r (hMem r hr)) hRow]
  rw [List.getElem?_replicate, if_pos (List.getElem?_eq_some_iff.mp hRow).1, Option.map_some,
    Bool.false_or]

/-- The union is exact: it has the rows that some query reads, sorted by position and cell, and it
is the union of those of the parts of the queries. -/
theorem unionSwaRows_exact (hPos : 0 < nSwa) (hSwa : nSwa < 2 ^ 32) (hType : swaType ≠ .none)
    (hFit : PositionsFit rows queries)
    (hHides : MaskHides nSwa swaType causalAttn isFinite rows queries) :
    ∃ out, unionSwaRows rows queries nSwa swaType causalAttn isFinite = some out ∧
      out.Perm (rows.filter (readBySome queries isFinite)) ∧
      out.Pairwise (fun a b => a.le b = true) ∧
      ∀ parts : List (List QueryWindow), parts.flatten.Perm queries →
        ∃ outs : List (List BodyRow),
          parts.mapM (fun part => unionSwaRows rows part nSwa swaType causalAttn isFinite) =
            some outs ∧ ∀ row, row ∈ out ↔ ∃ o ∈ outs, row ∈ o := by
  refine ⟨_, unionSwaRows_eq hPos hSwa hType hFit hHides,
    (List.mergeSort_perm rows BodyRow.le).filter _,
    (List.pairwise_mergeSort BodyRow.le_trans BodyRow.le_total rows).filter _,
    fun parts hParts => ?_⟩
  have hPart : ∀ part ∈ parts, unionSwaRows rows part nSwa swaType causalAttn isFinite =
      some ((rows.mergeSort BodyRow.le).filter (readBySome part isFinite)) := by
    intro part hMem
    have hSub : ∀ query ∈ part, query ∈ queries := fun query hQuery =>
      hParts.mem_iff.mp (List.mem_flatten.mpr ⟨part, hMem, hQuery⟩)
    exact unionSwaRows_eq hPos hSwa hType ⟨hFit.1, fun q hq => hFit.2 q (hSub q hq)⟩
      fun r hr q hq => hHides r hr q (hSub q hq)
  refine ⟨parts.map fun part => (rows.mergeSort BodyRow.le).filter (readBySome part isFinite), ?_,
    fun row => ?_⟩
  · clear hParts
    induction parts with
    | nil => rfl
    | cons part parts ih =>
      rw [List.mapM_cons, hPart part List.mem_cons_self,
        ih fun p hp => hPart p (List.mem_cons_of_mem _ hp)]
      rfl
  have hSome : readBySome queries isFinite row = true ↔
      ∃ part ∈ parts, readBySome part isFinite row = true := by
    unfold readBySome
    simp only [List.any_eq_true]
    constructor
    · rintro ⟨query, hQuery, hFinite⟩
      obtain ⟨part, hMem, hIn⟩ := List.mem_flatten.mp (hParts.mem_iff.mpr hQuery)
      exact ⟨part, hMem, query, hIn, hFinite⟩
    · rintro ⟨part, hMem, query, hIn, hFinite⟩
      exact ⟨query, hParts.mem_iff.mp (List.mem_flatten.mpr ⟨part, hMem, hIn⟩), hFinite⟩
  simp only [List.mem_filter, List.mem_map, exists_exists_and_eq_and, hSome]
  constructor
  · rintro ⟨hRow, part, hMem, hReads⟩
    exact ⟨part, hMem, hRow, hReads⟩
  · rintro ⟨part, hMem, hRow, hReads⟩
    exact ⟨hRow, part, hMem, hReads⟩

end Selected

/-- Two queries over three rows with a window of two. -/
theorem twoQueries_union : ∃ out,
    unionSwaRows [⟨5, 0, 0⟩, ⟨2, 1, 1⟩, ⟨4, 2, 2⟩] [⟨0, 5⟩, ⟨1, 4⟩] 2 .standard true
      (fun maskRow cell => cell = 0 ∧ maskRow = 0 ∨ cell = 2) = some out ∧
    out.Perm [⟨5, 0, 0⟩, ⟨4, 2, 2⟩] ∧ out.Pairwise (fun a b => a.le b = true) := by
  obtain ⟨out, hOut, hPerm, hSorted, -⟩ :=
    @unionSwaRows_exact [⟨5, 0, 0⟩, ⟨2, 1, 1⟩, ⟨4, 2, 2⟩] [⟨0, 5⟩, ⟨1, 4⟩] 2 .standard true
      (fun maskRow cell => cell = 0 ∧ maskRow = 0 ∨ cell = 2) (by decide) (by decide) (by decide)
      ⟨by decide, by decide⟩ (by unfold MaskHides; decide)
  exact ⟨out, hOut, hPerm, hSorted⟩

end Beellama.Ports
