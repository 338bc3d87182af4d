import Beellama.Ports.KqMask
import Beellama.Ports.KvTailRollback

/-!
# The attention mask over the exact tail

`set_input_kq_mask_tail_impl` of `src/src/llama-kv-cache.cpp` moves the columns of the body mask whose
keys also have an exact row over to a second mask, run by run, which is entry by entry: every finite
column stays in the body or goes to one exact column.

The three index arrays are always written here.
-/

namespace Beellama.Ports

namespace TailStore

/-- `source_candidates`: what attention may read exactly for a sequence. -/
def sourceCandidates (s : TailStore) (seqId : Int) : List SnapshotEntry :=
  if !s.validSeq seqId then []
  else
    let q := seqId.toNat
    let rows :=
      match s.batch with
      | none => (s.seqs q).entries
      | some tx =>
        let committed := (tx.seqs q).entries
        (committed.drop (committed.length - s.cfg.nTokens) ++ tx.current q).insertionSort
          ExactEntry.le
    rows.map fun e => ⟨q, e.identity, e.position, e.insertionOrdinal, e.slot⟩

/-- `retention()` -/
def retention (s : TailStore) : Nat := s.cfg.nTokens

end TailStore

open TailStore (SnapshotEntry)
open List

/-- `llama_kv_tail_mask_entry` -/
structure TailMaskEntry where
  exact : Nat
  cell : Nat
  position : Int
  deriving DecidableEq

/-- `exact_entry` of a sequence plan. -/
structure TailPlanEntry where
  mask : TailMaskEntry
  slot : Nat
  bodyRow : Nat
  deriving DecidableEq

/-- `copy_run` -/
structure CopyRun where
  exact : Nat
  stream : Nat
  cell : Nat
  length : Nat
  deriving DecidableEq

/-! ## Selecting entries -/

/-- The loop from the newest entry backwards. -/
def selectBack (eligible : Nat → Bool) (retention : Nat) : Nat → List Nat → List Nat
  | 0, selected => selected
  | i + 1, selected =>
    if retention ≤ selected.length then selected
    else selectBack eligible retention i (if eligible i then selected ++ [i] else selected)

/-- `llama_kv_tail_select_masked_entries`; `finite` has the length of the entries
by construction. -/
def tailSelectMaskedEntries (entries : List TailMaskEntry) (finite : TailMaskEntry → Bool)
    (queryPosition : Int) (retention : Nat) (causal : Bool) : List Nat :=
  let eligible i := entries[i]?.any fun e =>
    finite e && !(causal && decide (queryPosition < e.position))
  (selectBack eligible retention entries.length []).reverse

/-! ## Runs -/

/-- A row of the body mask and the row of the exact mask. -/
structure MaskRows where
  body : Nat → Option Int
  exact : Nat → Option Int

/-- Lengthen the last run by an entry that continues it, else begin a run. -/
def pushRun (stream : Nat) (runs : List CopyRun) (e : TailMaskEntry) : List CopyRun :=
  match runs.getLast? with
  | some run =>
    if run.exact + run.length = e.exact ∧ run.stream = stream ∧ run.cell + run.length = e.cell
    then runs.dropLast ++ [{ run with length := run.length + 1 }]
    else runs ++ [⟨e.exact, stream, e.cell, 1⟩]
  | none => [⟨e.exact, stream, e.cell, 1⟩]

/-- Copy a run of body columns to the exact columns and drop them. -/
def copyRun (rows : MaskRows) (run : CopyRun) : MaskRows where
  exact k :=
    if run.exact ≤ k ∧ k < run.exact + run.length then rows.body (run.cell + (k - run.exact))
    else rows.exact k
  body c := if run.cell ≤ c ∧ c < run.cell + run.length then none else rows.body c

/-! ## The function -/

structure TailMaskArgs where
  tail : TailStore
  /-- `tail_generations` -/
  generations : Nat → Nat → Nat
  /-- the length of the vectors of `generations` and of `physicalToRead` -/
  nCells : Nat
  seqToStream : Nat → Nat
  ubatch : Ubatch
  nKv : Nat
  attentionStride : Nat
  causal : Bool := true
  physicalToRead : Option (Nat → Int) := none

/-- The masks and the index arrays, by row and column. -/
structure TailMasks where
  body : Nat → Nat → Option Int
  exact : Nat → Nat → Option Int := fun _ _ => none
  read : Nat → Nat → Nat := fun _ _ => 0
  bodyRead : Nat → Nat → Nat := fun _ _ => 0
  biasRead : Nat → Nat → Nat := fun _ _ => 0

namespace TailMaskArgs

variable (args : TailMaskArgs)

def seqIdOf (i : Nat) : Nat := (args.ubatch.token i).seqId.headD 0

def posOf (i : Nat) : Int := (args.ubatch.token i).pos

/-- `query_count_by_seq` -/
def queryCount (q : Nat) : Nat :=
  ((List.range args.ubatch.tokens.length).filter fun i => args.seqIdOf i = q).length

/-- The candidates a plan looks at: for the only query of a sequence no more than
the newest `retention()`. -/
def considered (q : Nat) : List SnapshotEntry :=
  let candidates := args.tail.sourceCandidates q
  let retention := args.tail.retention
  candidates.drop
    (if args.queryCount q = 1 ∧ retention < candidates.length then
      candidates.length - min retention candidates.length else 0)

/-- The candidate is in the stream and its cell has not been reused. -/
def isCurrent (stream : Nat) (identity : TailIdentity) : Bool :=
  decide (identity.stream = stream) && decide (identity.cell < args.nCells) &&
    decide (args.generations stream identity.cell = identity.generation)

/-- The column in which a cell is read. -/
def readCell (cell : Nat) : Int :=
  match args.physicalToRead with
  | none => cell
  | some toRead => toRead cell

/-- The plan entry of the candidate at an exact column. -/
def planEntry (stream : Nat) (candidate : SnapshotEntry) (exact : Nat) : Option TailPlanEntry :=
  let read := args.readCell candidate.identity.cell
  if args.isCurrent stream candidate.identity && decide (0 ≤ read ∧ read < args.nKv) then
    some ⟨⟨exact, read.toNat, candidate.position⟩, candidate.slot,
      stream * args.nKv + read.toNat⟩
  else none

/-- `sequence_plan`.  The source keeps the plans by sequence. -/
def planEntries (q : Nat) : List TailPlanEntry :=
  (args.considered q).zipIdx.filterMap fun p => args.planEntry (args.seqToStream q) p.1 p.2

def plan (q : Nat) : Except CacheError (List TailPlanEntry) :=
  if args.attentionStride < (args.considered q).length then .error .assertFailed
  else if (args.planEntries q).any fun e => int32Max < e.bodyRow then .error .assertFailed
  else .ok (args.planEntries q)

/-- The entries selected for a query. -/
def selected (i : Nat) (entries : List TailPlanEntry) (body : Nat → Option Int) :
    List TailPlanEntry :=
  (tailSelectMaskedEntries (entries.map fun e => e.mask) (fun e => (body e.cell).isSome)
    (args.posOf i) args.tail.retention args.causal).filterMap fun index => entries[index]?

/-- Write one of the index arrays for the selected entries. -/
def writeIdxs (value : TailPlanEntry → Nat) (entries : List TailPlanEntry) (row : Nat → Nat) :
    Nat → Nat :=
  entries.foldl (fun row e => Function.update row e.mask.exact (value e)) row

/-- One query. -/
def query (masks : TailMasks) (i : Nat) : Except CacheError TailMasks := do
  let q := args.seqIdOf i
  let entries ← args.plan q
  let selected := args.selected i entries (masks.body i)
  if args.tail.retention < selected.length then throw .assertFailed
  let runs := (selected.map fun e => e.mask).foldl (pushRun (args.seqToStream q)) []
  if runs.any fun run => decide (args.attentionStride < run.exact + run.length) ||
    decide (args.nKv < run.cell + run.length) then throw .assertFailed
  let rows := runs.foldl copyRun ⟨masks.body i, masks.exact i⟩
  if selected.any fun e => int32Max < i * args.nKv + e.mask.cell then throw .assertFailed
  return {
    body := Function.update masks.body i rows.body
    exact := Function.update masks.exact i rows.exact
    read := Function.update masks.read i (writeIdxs (fun e => e.slot) selected (masks.read i))
    bodyRead := Function.update masks.bodyRead i
      (writeIdxs (fun e => e.bodyRow) selected (masks.bodyRead i))
    biasRead := Function.update masks.biasRead i
      (writeIdxs (fun e => i * args.nKv + e.mask.cell) selected (masks.biasRead i)) }

end TailMaskArgs

/-- `set_input_kq_mask_tail_impl` on a body mask. -/
def setInputKqMaskTail (args : TailMaskArgs) (body : Nat → Nat → Option Int) :
    Except CacheError TailMasks :=
  (List.range args.ubatch.tokens.length).foldlM args.query { body }

/-! ## Selection -/

/-- The last `n` elements of a list. -/
def lastN {α : Type} (n : Nat) (l : List α) : List α := l.drop (l.length - n)

variable {α : Type}

theorem lastN_map {β : Type} (f : α → β) (n : Nat) (l : List α) :
    (lastN n l).map f = lastN n (l.map f) := by
  simp [lastN]

theorem lastN_length_le (n : Nat) (l : List α) : (lastN n l).length ≤ n := by
  rw [lastN, length_drop]
  omega

theorem lastN_sublist (n : Nat) (l : List α) : (lastN n l).Sublist l :=
  drop_sublist _ _

theorem selectBack_reverse (eligible : Nat → Bool) (retention n : Nat) (selected : List Nat)
    (h : selected.length ≤ retention) :
    (selectBack eligible retention n selected).reverse =
      lastN (retention - selected.length) ((range n).filter eligible) ++
        selected.reverse := by
  induction n generalizing selected with
  | zero => simp [selectBack, lastN]
  | succ n ih =>
    rw [selectBack]
    split
    · simp [lastN, show retention - selected.length = 0 by omega]
    cases hEl : eligible n with
    | false =>
      rw [range_succ]
      simpa [hEl] using ih selected h
    | true =>
      have hLen : (selected ++ [n]).length ≤ retention := by
        rw [length_append, length_singleton]
        omega
      rw [if_pos rfl, ih _ hLen, range_succ, filter_append]
      simp only [lastN, filter_cons, hEl, if_true, filter_nil,
        length_append, length_singleton, reverse_append]
      rw [drop_append_of_le_length (by omega), append_assoc]
      congr 2
      omega

theorem filterMap_range_getElem? (P : α → Bool) (l : List α) (n : Nat) :
    (lastN n ((range l.length).filter fun i => l[i]?.any P)).filterMap (fun i => l[i]?) =
      lastN n (l.filter P) := by
  have hAll : ((range l.length).filter fun i => l[i]?.any P).map (fun i => l[i]?) =
      (l.filter P).map some := by
    induction l using reverseRecOn with
    | nil => rfl
    | append_singleton l x ih =>
      have hSame : ∀ i ∈ range l.length, (l ++ [x])[i]? = l[i]? := fun i hi =>
        getElem?_append_left (mem_range.mp hi)
      rw [length_append, length_singleton, range_succ, filter_append,
        map_append, filter_append, map_append,
        filter_congr fun i hi => by rw [hSame i hi]]
      congr 1
      · rw [← ih]
        exact map_congr_left fun i hi => hSame i (mem_of_mem_filter hi)
      cases hx : P x with
      | true => simp [hx]
      | false => simp [hx]
  have hLast := congrArg (lastN n) hAll
  rw [← lastN_map, ← lastN_map] at hLast
  have hId : ∀ l' : List Nat, l'.filterMap (fun i => l[i]?) =
      (l'.map fun i => l[i]?).filterMap id := fun l' => by simp [filterMap_map]
  rw [hId, hLast]
  simp [filterMap_map]

/-! ## Runs are entries moved one by one -/

/-- Move one column. -/
def moveColumn (rows : MaskRows) (e : TailMaskEntry) : MaskRows where
  exact := Function.update rows.exact e.exact (rows.body e.cell)
  body := Function.update rows.body e.cell none

theorem copyRun_one (rows : MaskRows) (stream : Nat) (e : TailMaskEntry) :
    copyRun rows ⟨e.exact, stream, e.cell, 1⟩ = moveColumn rows e := by
  simp only [copyRun, moveColumn, MaskRows.mk.injEq]
  constructor
  · funext c
    by_cases hc : c = e.cell
    · simp [hc]
    · have hNot : ¬ (e.cell ≤ c ∧ c < e.cell + 1) := by omega
      rw [if_neg hNot, Function.update_of_ne hc]
  funext k
  by_cases hk : k = e.exact
  · simp [hk]
  · have hNot : ¬ (e.exact ≤ k ∧ k < e.exact + 1) := by omega
    rw [if_neg hNot, Function.update_of_ne hk]

/-- A longer run moves one more column; the columns of a run are distinct. -/
theorem copyRun_succ (rows : MaskRows) (run : CopyRun) {e : TailMaskEntry}
    (hExact : run.exact + run.length = e.exact) (hCell : run.cell + run.length = e.cell) :
    copyRun rows { run with length := run.length + 1 } = moveColumn (copyRun rows run) e := by
  simp only [copyRun, moveColumn, MaskRows.mk.injEq]
  constructor
  · funext c
    by_cases hc : c = e.cell
    · have hIn : run.cell ≤ c ∧ c < run.cell + (run.length + 1) := by omega
      rw [if_pos hIn, hc, Function.update_self]
    have hIff : (run.cell ≤ c ∧ c < run.cell + (run.length + 1)) ↔
        (run.cell ≤ c ∧ c < run.cell + run.length) := by omega
    simp [hc, hIff]
  funext k
  by_cases hk : k = e.exact
  · have hIn : run.exact ≤ k ∧ k < run.exact + (run.length + 1) := by omega
    have hOut : ¬ (run.cell ≤ e.cell ∧ e.cell < run.cell + run.length) := by omega
    have hCol : run.cell + (k - run.exact) = e.cell := by omega
    rw [if_pos hIn, hk, Function.update_self, if_neg hOut, ← hk, hCol]
  have hIff : (run.exact ≤ k ∧ k < run.exact + (run.length + 1)) ↔
      (run.exact ≤ k ∧ k < run.exact + run.length) := by omega
  simp [hk, hIff]

theorem pushRun_copy (stream : Nat) (runs : List CopyRun) (e : TailMaskEntry) (rows : MaskRows) :
    (pushRun stream runs e).foldl copyRun rows = moveColumn (runs.foldl copyRun rows) e := by
  unfold pushRun
  cases hLast : runs.getLast? with
  | none =>
    rw [getLast?_eq_none_iff.mp hLast]
    exact copyRun_one rows stream e
  | some run =>
    obtain ⟨front, rfl⟩ := getLast?_eq_some_iff.mp hLast
    dsimp only
    split
    · rename_i hNext
      rw [dropLast_concat, foldl_append, foldl_append]
      exact copyRun_succ _ run hNext.1 hNext.2.2
    · rw [foldl_concat]
      exact copyRun_one _ stream e

theorem runs_copy (stream : Nat) (es : List TailMaskEntry) (runs : List CopyRun)
    (rows : MaskRows) : (es.foldl (pushRun stream) runs).foldl copyRun rows =
      es.foldl moveColumn (runs.foldl copyRun rows) := by
  induction es generalizing runs with
  | nil => rfl
  | cons e es ih => rw [foldl_cons, ih, pushRun_copy, foldl_cons]

/-- A run ends at an entry. -/
def EndsAt (es : List TailMaskEntry) (run : CopyRun) : Prop :=
  ∃ e ∈ es, run.exact + run.length = e.exact + 1 ∧ run.cell + run.length = e.cell + 1

theorem runs_endAt (stream : Nat) (all es : List TailMaskEntry) (runs : List CopyRun)
    (hSub : ∀ e ∈ es, e ∈ all) (hRuns : ∀ run ∈ runs, EndsAt all run) :
    ∀ run ∈ es.foldl (pushRun stream) runs, EndsAt all run := by
  induction es generalizing runs with
  | nil => exact hRuns
  | cons e es ih =>
    refine ih _ (fun x hx => hSub x (mem_cons_of_mem e hx)) ?_
    have he := hSub e mem_cons_self
    intro run hRun
    unfold pushRun at hRun
    cases hLast : runs.getLast? with
    | none =>
      simp only [hLast, mem_singleton] at hRun
      subst hRun
      exact ⟨e, he, rfl, rfl⟩
    | some last =>
      simp only [hLast] at hRun
      split at hRun
      · rcases mem_append.mp hRun with hOld | hNew
        · exact hRuns run (dropLast_subset _ hOld)
        · rw [mem_singleton.mp hNew]
          exact ⟨e, he, by dsimp only; omega, by dsimp only; omega⟩
      rcases mem_append.mp hRun with hOld | hNew
      · exact hRuns run hOld
      · rw [mem_singleton.mp hNew]
        exact ⟨e, he, rfl, rfl⟩

/-! ## The rows after the moves -/

theorem moves_body (es : List TailMaskEntry) (rows : MaskRows) (c : Nat) :
    (es.foldl moveColumn rows).body c =
      if c ∈ es.map fun e => e.cell then none else rows.body c := by
  induction es generalizing rows with
  | nil => simp
  | cons e es ih =>
    rw [foldl_cons, ih]
    by_cases hc : c = e.cell
    · simp [moveColumn, hc]
    · simp [moveColumn, hc]

/-- An exact column gets the value of its body column from the first entry for
that column. -/
theorem moves_exact (es : List TailMaskEntry) (rows : MaskRows) (k : Nat)
    (hDistinct : es.Pairwise fun a b => a.exact ≠ b.exact) :
    (es.foldl moveColumn rows).exact k =
      match es.find? fun e => e.exact = k with
      | none => rows.exact k
      | some e => if es.find? (fun x => x.cell = e.cell) = some e then rows.body e.cell else none := by
  induction es generalizing rows with
  | nil => rfl
  | cons a es ih =>
    obtain ⟨hHead, hTail⟩ := pairwise_cons.mp hDistinct
    rw [foldl_cons, ih _ hTail]
    by_cases hk : a.exact = k
    · have hNone : (es.find? fun e => decide (e.exact = k)) = none := by
        rw [find?_eq_none]
        intro e he
        simpa [← hk] using fun hEq => hHead e he hEq.symm
      rw [hNone, find?_cons_of_pos (by simpa using hk)]
      simp [moveColumn, ← hk]
    rw [find?_cons_of_neg (by simpa using hk)]
    cases hFind : es.find? fun e => decide (e.exact = k) with
    | none =>
      simp only [moveColumn]
      rw [Function.update_of_ne (fun hEq => hk hEq.symm)]
    | some e =>
      have he := mem_of_find?_eq_some hFind
      dsimp only
      by_cases hCell : a.cell = e.cell
      · have hNe : a ≠ e := fun hEq => hHead e he (congrArg TailMaskEntry.exact hEq)
        rw [find?_cons_of_pos (by simpa using hCell)]
        simp [moveColumn, hCell, hNe]
      · rw [find?_cons_of_neg (by simpa using hCell)]
        simp [moveColumn, Function.update_of_ne (Ne.symm hCell)]

namespace TailMaskArgs

variable {args : TailMaskArgs}

/-! ## The plan -/

variable {e : TailPlanEntry}

theorem mem_planEntries {q : Nat} :
    e ∈ args.planEntries q ↔ ∃ candidate, (args.considered q)[e.mask.exact]? = some candidate ∧
      args.planEntry (args.seqToStream q) candidate e.mask.exact = some e := by
  have hExact : ∀ candidate k, args.planEntry (args.seqToStream q) candidate k = some e →
      e.mask.exact = k := by
    intro candidate k h
    simp only [planEntry] at h
    split at h
    · cases h
      rfl
    · cases h
  simp only [planEntries, mem_filterMap, Prod.exists, mem_zipIdx_iff_getElem?]
  constructor
  · rintro ⟨candidate, k, hGet, hEntry⟩
    have hk := hExact candidate k hEntry
    subst hk
    exact ⟨candidate, hGet, hEntry⟩
  · rintro ⟨candidate, hGet, hEntry⟩
    exact ⟨candidate, e.mask.exact, hGet, hEntry⟩

variable {k : Nat}

theorem planEntry_eq_some {stream : Nat} {candidate : SnapshotEntry}
    (h : args.planEntry stream candidate k = some e) :
    args.isCurrent stream candidate.identity = true ∧
      args.readCell candidate.identity.cell = e.mask.cell ∧ e.mask.cell < args.nKv ∧
      e.mask.position = candidate.position ∧ e.slot = candidate.slot ∧
      e.bodyRow = stream * args.nKv + e.mask.cell := by
  simp only [planEntry] at h
  split at h
  · rename_i hIn
    rw [Bool.and_eq_true, decide_eq_true_eq] at hIn
    cases h
    dsimp only
    exact ⟨hIn.1, by omega, by omega, rfl, rfl, rfl⟩
  · cases h

theorem planEntries_exact (q : Nat) :
    (args.planEntries q).Pairwise fun a b => a.mask.exact ≠ b.mask.exact := by
  have hZip : ∀ (l : List SnapshotEntry) (k : Nat),
      (l.zipIdx k).Pairwise fun a b => a.2 ≠ b.2 := by
    intro l k
    have hSnd : ((l.zipIdx k).map Prod.snd).Pairwise (· ≠ ·) := by
      rw [zipIdx_map_snd]
      exact nodup_range'
    exact pairwise_map.mp hSnd
  refine List.Pairwise.filterMap _ ?_ (hZip (args.considered q) 0)
  intro a a' hNe b hb b' hb'
  have hExact : ∀ (p : SnapshotEntry × Nat) e,
      args.planEntry (args.seqToStream q) p.1 p.2 = some e → e.mask.exact = p.2 := by
    intro p e h
    simp only [planEntry] at h
    split at h
    · cases h
      rfl
    · cases h
  rw [hExact a b hb, hExact a' b' hb']
  exact hNe

/-! ## What happens to a row -/

/-- The exact column `k` is for the body column `c` of query `i`. -/
def Carries (args : TailMaskArgs) (i k c : Nat) (candidate : SnapshotEntry) : Prop :=
  (args.considered (args.seqIdOf i))[k]? = some candidate ∧
    args.isCurrent (args.seqToStream (args.seqIdOf i)) candidate.identity = true ∧
    args.readCell candidate.identity.cell = c

/-- The candidate may be moved for query `i`: it is current, its column is finite and it is not in
its future. -/
def eligible (args : TailMaskArgs) (i : Nat) (before : Nat → Option Int)
    (candidate : SnapshotEntry) : Bool :=
  let read := args.readCell candidate.identity.cell
  args.isCurrent (args.seqToStream (args.seqIdOf i)) candidate.identity &&
    decide (0 ≤ read ∧ read < args.nKv) && (before read.toNat).isSome &&
    !(args.causal && decide (args.posOf i < candidate.position))

/-- Exactly the columns of the newest of the candidates move. -/
def MovesNewest (args : TailMaskArgs) (i : Nat) (candidates : List SnapshotEntry)
    (before after : Nat → Option Int) : Prop :=
  ∀ c < args.nKv, before c ≠ none → (after c = none ↔
    ∃ candidate ∈ lastN args.tail.retention (candidates.filter (args.eligible i before)),
      args.readCell candidate.identity.cell = c)

/-- Every finite column of a query is attended once, in the body or in the exact
tail. -/
structure AttendedOnce (args : TailMaskArgs) (i : Nat) (before after exact : Nat → Option Int)
    (read : Nat → Nat) : Prop where
  once : ∀ c < args.nKv, before c ≠ none →
    (after c = before c ∧ ∀ k candidate, Carries args i k c candidate → exact k = none) ∨
    (after c = none ∧ ∃ k < args.attentionStride, ∃ candidate, Carries args i k c candidate ∧
      exact k = before c ∧ read k = candidate.slot ∧
      ∀ k' candidate', Carries args i k' c candidate' → exact k' ≠ none → k' = k)
  others : ∀ k, exact k ≠ none → ∃ c < args.nKv, ∃ candidate, Carries args i k c candidate ∧
    exact k = before c ∧ after c = none
  masked : ∀ c, before c = none → after c = none
  few : ((Finset.range args.nKv).filter fun c => before c ≠ after c).card ≤ args.tail.retention

/-- The selected entries are the newest eligible ones of the plan. -/
theorem selected_eq (i : Nat) (entries : List TailPlanEntry) (body : Nat → Option Int) :
    args.selected i entries body = lastN args.tail.retention (entries.filter fun e =>
      (body e.mask.cell).isSome && !(args.causal && decide (args.posOf i < e.mask.position))) := by
  unfold selected tailSelectMaskedEntries
  rw [selectBack_reverse _ _ _ [] (Nat.zero_le _), length_map]
  simp only [reverse_nil, append_nil]
  refine Eq.trans ?_ (filterMap_range_getElem? _ entries _)
  congr 3
  funext k
  rw [getElem?_map, Option.any_map]

/-- The columns of the selected entries, in the terms of the candidates. -/
theorem selected_cells (i : Nat) (body : Nat → Option Int) :
    (args.selected i (args.planEntries (args.seqIdOf i)) body).map (fun e => e.mask.cell) =
      (lastN args.tail.retention ((args.considered (args.seqIdOf i)).filter
        (args.eligible i body))).map fun c => (args.readCell c.identity.cell).toNat := by
  rw [selected_eq, lastN_map, lastN_map]
  congr 1
  unfold planEntries
  generalize 0 = start
  induction args.considered (args.seqIdOf i) generalizing start with
  | nil => rfl
  | cons candidate l ih =>
    rw [zipIdx_cons, filterMap_cons]
    have ih := ih (start + 1)
    simp only [planEntry]
    by_cases hIn : (args.isCurrent (args.seqToStream (args.seqIdOf i)) candidate.identity &&
        decide (0 ≤ args.readCell candidate.identity.cell ∧
          args.readCell candidate.identity.cell < args.nKv)) = true
    · rw [if_pos hIn, filter_cons, filter_cons]
      simp only [eligible, hIn, Bool.true_and]
      split
      · rw [map_cons]
        congr 1
      · exact ih
    rw [filter_cons]
    simp only [eligible, hIn, Bool.false_and]
    exact ih

variable {entries : List TailPlanEntry}

theorem mem_selected {i : Nat} {body : Nat → Option Int}
    (h : e ∈ args.selected i entries body) :
    e ∈ entries ∧ body e.mask.cell ≠ none := by
  rw [selected_eq] at h
  have hIn := mem_filter.mp ((lastN_sublist _ _).subset h)
  simp only [Bool.and_eq_true] at hIn
  exact ⟨hIn.1, Option.isSome_iff_ne_none.mp hIn.2.1⟩

theorem selected_exact (i q : Nat) (body : Nat → Option Int) :
    (args.selected i (args.planEntries q) body).Pairwise fun a b =>
      a.mask.exact ≠ b.mask.exact := by
  rw [selected_eq]
  exact (planEntries_exact q).sublist ((lastN_sublist _ _).trans filter_sublist)

theorem writeIdxs_eq {value : TailPlanEntry → Nat}
    {row : Nat → Nat} (hDistinct : entries.Pairwise fun a b => a.mask.exact ≠ b.mask.exact)
    (he : e ∈ entries) :
    writeIdxs value entries row e.mask.exact = value e := by
  induction entries generalizing row with
  | nil => cases he
  | cons a entries ih =>
    obtain ⟨hHead, hTail⟩ := pairwise_cons.mp hDistinct
    rcases mem_cons.mp he with rfl | he
    · have hKeep : ∀ (l : List TailPlanEntry) (row : Nat → Nat),
          (∀ x ∈ l, e.mask.exact ≠ x.mask.exact) →
          writeIdxs value l row e.mask.exact = row e.mask.exact := by
        intro l
        induction l with
        | nil => exact fun _ _ => rfl
        | cons x l ih =>
          intro row hNe
          obtain ⟨hx, hl⟩ := forall_mem_cons.mp hNe
          have hRest := ih (Function.update row x.mask.exact (value x)) hl
          rw [Function.update_of_ne hx] at hRest
          exact hRest
      exact (hKeep entries _ hHead).trans (Function.update_self _ _ _)
    · exact ih hTail he

section Row

variable {i : Nat} {before : Nat → Option Int}

/-- The entries selected for query `i`. -/
def chosen (args : TailMaskArgs) (i : Nat) (before : Nat → Option Int) : List TailPlanEntry :=
  args.selected i (args.planEntries (args.seqIdOf i)) before

/-- The two rows of query `i` after the moves. -/
def movedRows (args : TailMaskArgs) (i : Nat) (before : Nat → Option Int) : MaskRows :=
  ((args.chosen i before).map fun e => e.mask).foldl moveColumn ⟨before, fun _ => none⟩

theorem movedRows_body (c : Nat) : (args.movedRows i before).body c =
    if c ∈ (args.chosen i before).map fun e => e.mask.cell then none else before c := by
  unfold movedRows
  rw [moves_body, map_map]
  rfl

theorem chosen_carries (he : e ∈ args.chosen i before) :
    ∃ candidate, Carries args i e.mask.exact e.mask.cell candidate ∧ e.mask.cell < args.nKv ∧
      e.slot = candidate.slot ∧ before e.mask.cell ≠ none := by
  obtain ⟨hPlan, hFinite⟩ := mem_selected he
  obtain ⟨candidate, hGet, hEntry⟩ := mem_planEntries.mp hPlan
  obtain ⟨hCurrent, hRead, hLt, -, hSlot, -⟩ := planEntry_eq_some hEntry
  exact ⟨candidate, ⟨hGet, hCurrent, hRead⟩, hLt, hSlot, hFinite⟩

/-- A finite exact column belongs to the first chosen entry of its body
column. -/
theorem movedRows_exact_ne_none (h : (args.movedRows i before).exact k ≠ none) :
    ∃ e ∈ args.chosen i before, e.mask.exact = k ∧
      (((args.chosen i before).map fun e => e.mask).find? fun x => x.cell = e.mask.cell) =
        some e.mask ∧
      (args.movedRows i before).exact k = before e.mask.cell := by
  have hDistinct : ((args.chosen i before).map fun e => e.mask).Pairwise
      fun a b => a.exact ≠ b.exact := pairwise_map.mpr (selected_exact i _ before)
  unfold movedRows at h ⊢
  rw [moves_exact _ _ _ hDistinct] at h ⊢
  cases hFind : ((args.chosen i before).map fun e => e.mask).find? fun e => e.exact = k with
  | none =>
    rw [hFind] at h
    exact absurd rfl h
  | some m =>
    rw [hFind] at h
    obtain ⟨e, he, rfl⟩ := mem_map.mp (mem_of_find?_eq_some hFind)
    have hExact : e.mask.exact = k := by simpa using find?_some hFind
    dsimp only at h ⊢
    split at h
    · rename_i hFirst
      exact ⟨e, he, hExact, hFirst, by rw [if_pos hFirst]⟩
    · exact absurd rfl h

/-- The first chosen entry of a body column gets its value. -/
theorem movedRows_first {c : Nat}
    (h : c ∈ (args.chosen i before).map fun e => e.mask.cell) :
    ∃ e ∈ args.chosen i before, e.mask.cell = c ∧
      (((args.chosen i before).map fun e => e.mask).find? fun x => x.cell = c) = some e.mask ∧
      (args.movedRows i before).exact e.mask.exact = before c := by
  have hDistinct : ((args.chosen i before).map fun e => e.mask).Pairwise
      fun a b => a.exact ≠ b.exact := pairwise_map.mpr (selected_exact i _ before)
  obtain ⟨x, hx, hxCell⟩ := mem_map.mp h
  have hSome : (((args.chosen i before).map fun e => e.mask).find? fun x => x.cell = c).isSome := by
    rw [find?_isSome]
    exact ⟨x.mask, mem_map.mpr ⟨x, hx, rfl⟩, by simpa using hxCell⟩
  obtain ⟨m, hFirst⟩ := Option.isSome_iff_exists.mp hSome
  obtain ⟨e, he, rfl⟩ := mem_map.mp (mem_of_find?_eq_some hFirst)
  have hCell : e.mask.cell = c := by simpa using find?_some hFirst
  refine ⟨e, he, hCell, hFirst, ?_⟩
  have hFind : ((args.chosen i before).map fun e => e.mask).find?
      (fun x => x.exact = e.mask.exact) = some e.mask := by
    obtain ⟨front, back, hSplit⟩ := append_of_mem (mem_map.mpr ⟨e, he, rfl⟩ :
      e.mask ∈ (args.chosen i before).map fun e => e.mask)
    rw [hSplit] at hDistinct ⊢
    rw [find?_append]
    have hNone : front.find? (fun x => decide (x.exact = e.mask.exact)) = none := by
      rw [find?_eq_none]
      intro y hy
      have := (pairwise_append.mp hDistinct).2.2 y hy e.mask mem_cons_self
      simpa using this
    rw [hNone]
    simp
  unfold movedRows
  rw [moves_exact _ _ _ hDistinct, hFind]
  dsimp only
  rw [hCell, if_pos hFirst]

theorem movedRows_attendedOnce
    (hStride : (args.considered (args.seqIdOf i)).length ≤ args.attentionStride) :
    AttendedOnce args i before (args.movedRows i before).body (args.movedRows i before).exact
      (writeIdxs (fun e => e.slot) (args.chosen i before) fun _ => 0) := by
  have hSame : ∀ {k c candidate}, Carries args i k c candidate →
      ∀ e ∈ args.chosen i before, e.mask.exact = k → e.mask.cell = c := by
    rintro k c candidate ⟨hGet, -, hRead⟩ e he rfl
    obtain ⟨candidate', ⟨hGet', -, hRead'⟩, -⟩ := chosen_carries he
    rw [hGet] at hGet'
    cases hGet'
    rw [hRead] at hRead'
    exact (Int.ofNat.inj hRead').symm
  refine ⟨fun c hc hFinite => ?_, fun k hk => ?_, fun c hNone => ?_, ?_⟩
  · by_cases hMoved : c ∈ (args.chosen i before).map fun e => e.mask.cell
    · obtain ⟨e, he, hCell, hFirst, hValue⟩ := movedRows_first hMoved
      obtain ⟨candidate, hCarries, -, hSlot, -⟩ := chosen_carries he
      have hk : e.mask.exact < args.attentionStride := by
        have hLt := (List.getElem?_eq_some_iff.mp hCarries.1).1
        omega
      refine Or.inr ⟨by rw [movedRows_body, if_pos hMoved], e.mask.exact, hk, candidate,
        hCell ▸ hCarries, hValue, ?_, ?_⟩
      · exact (writeIdxs_eq (selected_exact i _ before) he).trans hSlot
      intro k' candidate' hCarries' hSome
      obtain ⟨e', he', hExact', hFirst', -⟩ := movedRows_exact_ne_none hSome
      rw [hSame hCarries' e' he' hExact', hFirst] at hFirst'
      rw [← hExact', Option.some.inj hFirst']
    refine Or.inl ⟨by rw [movedRows_body, if_neg hMoved], fun k candidate hCarries => ?_⟩
    by_contra hSome
    obtain ⟨e, he, hExact, -⟩ := movedRows_exact_ne_none hSome
    exact hMoved (mem_map.mpr ⟨e, he, hSame hCarries e he hExact⟩)
  · obtain ⟨e, he, rfl, -, hValue⟩ := movedRows_exact_ne_none hk
    obtain ⟨candidate, hCarries, hLt, -⟩ := chosen_carries he
    refine ⟨e.mask.cell, hLt, candidate, hCarries, hValue, ?_⟩
    rw [movedRows_body, if_pos (mem_map.mpr ⟨e, he, rfl⟩)]
  · rw [movedRows_body, hNone]
    exact ite_self none
  have hSub : (Finset.range args.nKv).filter
      (fun c => before c ≠ (args.movedRows i before).body c) ⊆
      ((args.chosen i before).map fun e => e.mask.cell).toFinset := by
    intro c hc
    rw [Finset.mem_filter, movedRows_body] at hc
    rw [mem_toFinset]
    by_contra hNot
    exact hc.2 (by rw [if_neg hNot])
  calc _ ≤ _ := Finset.card_le_card hSub
    _ ≤ ((args.chosen i before).map fun e => e.mask.cell).length := toFinset_card_le _
    _ ≤ args.tail.retention := by
        rw [length_map, chosen, selected_eq]
        exact lastN_length_le _ _

theorem movedRows_newest : MovesNewest args i (args.considered (args.seqIdOf i)) before
    (args.movedRows i before).body := by
  intro c hc hFinite
  rw [movedRows_body, chosen, selected_cells]
  constructor
  · intro hNone
    split at hNone
    · rename_i hIn
      obtain ⟨candidate, hMem, hCell⟩ := mem_map.mp hIn
      have hEl := (mem_filter.mp ((lastN_sublist _ _).subset hMem)).2
      simp only [eligible, Bool.and_eq_true, decide_eq_true_eq] at hEl
      exact ⟨candidate, hMem, by omega⟩
    · exact absurd hNone hFinite
  · rintro ⟨candidate, hMem, hCell⟩
    exact if_pos (mem_map.mpr ⟨candidate, hMem, by rw [hCell]; rfl⟩)

end Row

/-! ## All queries -/

/-- What the function asserts: the candidates fit the exact mask and the row
numbers fit a 32-bit integer. -/
structure Fits (args : TailMaskArgs) : Prop where
  stride : ∀ i < args.ubatch.tokens.length,
    (args.considered (args.seqIdOf i)).length ≤ args.attentionStride
  bodyRows : ∀ i < args.ubatch.tokens.length, ∀ c < args.nKv,
    args.seqToStream (args.seqIdOf i) * args.nKv + c ≤ int32Max
  biasRows : ∀ i < args.ubatch.tokens.length, ∀ c < args.nKv, i * args.nKv + c ≤ int32Max

theorem plan_ok (h : Fits args) {i : Nat} (hi : i < args.ubatch.tokens.length) :
    args.plan (args.seqIdOf i) = .ok (args.planEntries (args.seqIdOf i)) := by
  have hStride := h.stride i hi
  have hRows : ((args.planEntries (args.seqIdOf i)).any fun e => int32Max < e.bodyRow) =
      false := by
    rw [any_eq_false]
    intro e he
    obtain ⟨candidate, -, hEntry⟩ := mem_planEntries.mp he
    obtain ⟨-, -, hLt, -, -, hRow⟩ := planEntry_eq_some hEntry
    have := h.bodyRows i hi e.mask.cell hLt
    rw [decide_eq_true_eq]
    omega
  simp [plan, hRows, Nat.not_lt.mpr hStride]

/-- The masks after query `i`. -/
def afterQuery (args : TailMaskArgs) (masks : TailMasks) (i : Nat) : TailMasks where
  body := Function.update masks.body i (args.movedRows i (masks.body i)).body
  exact := Function.update masks.exact i (args.movedRows i (masks.body i)).exact
  read := Function.update masks.read i
    (writeIdxs (fun e => e.slot) (args.chosen i (masks.body i)) (masks.read i))
  bodyRead := Function.update masks.bodyRead i
    (writeIdxs (fun e => e.bodyRow) (args.chosen i (masks.body i)) (masks.bodyRead i))
  biasRead := Function.update masks.biasRead i
    (writeIdxs (fun e => i * args.nKv + e.mask.cell) (args.chosen i (masks.body i))
      (masks.biasRead i))

theorem query_ok (h : Fits args) {i : Nat} (hi : i < args.ubatch.tokens.length)
    {masks : TailMasks} (hFresh : masks.exact i = fun _ => none) :
    args.query masks i = .ok (args.afterQuery masks i) := by
  have hFew : ¬ args.tail.retention < (args.chosen i (masks.body i)).length := by
    rw [chosen, selected_eq, Nat.not_lt]
    exact lastN_length_le _ _
  have hRuns : ((((args.chosen i (masks.body i)).map fun e => e.mask).foldl
      (pushRun (args.seqToStream (args.seqIdOf i))) []).any fun run =>
        decide (args.attentionStride < run.exact + run.length) ||
          decide (args.nKv < run.cell + run.length)) = false := by
    rw [any_eq_false]
    intro run hRun
    obtain ⟨m, hm, hExact, hCell⟩ := runs_endAt _ _ _ [] (fun e he => he) (by simp) run hRun
    obtain ⟨e, he, rfl⟩ := mem_map.mp hm
    obtain ⟨candidate, hCarries, hLt, -⟩ := chosen_carries he
    have hk := (List.getElem?_eq_some_iff.mp hCarries.1).1
    have hStride := h.stride i hi
    rw [Bool.or_eq_true, decide_eq_true_eq, decide_eq_true_eq]
    omega
  have hBias : ((args.chosen i (masks.body i)).any fun e =>
      int32Max < i * args.nKv + e.mask.cell) = false := by
    rw [any_eq_false]
    intro e he
    obtain ⟨candidate, -, hLt, -⟩ := chosen_carries he
    have := h.biasRows i hi e.mask.cell hLt
    rw [decide_eq_true_eq]
    omega
  have hRows : (((args.chosen i (masks.body i)).map fun e => e.mask).foldl
      (pushRun (args.seqToStream (args.seqIdOf i))) []).foldl copyRun
        ⟨masks.body i, masks.exact i⟩ = args.movedRows i (masks.body i) := by
    rw [runs_copy, hFresh]
    rfl
  unfold chosen at hFew hRuns hBias hRows
  simp only [query, plan_ok h hi, bind, Except.bind, hFew, hRuns, hBias, hRows, if_false]
  rfl

theorem setInputKqMaskTail_ok (h : Fits args) (body : Nat → Nat → Option Int) :
    ∃ masks, setInputKqMaskTail args body = .ok masks ∧
      ∀ i < args.ubatch.tokens.length,
        masks.body i = (args.movedRows i (body i)).body ∧
        masks.exact i = (args.movedRows i (body i)).exact ∧
        masks.read i = writeIdxs (fun e => e.slot) (args.chosen i (body i)) fun _ => 0 := by
  -- a query changes its own row and finds it as the function was given it
  have hRun : ∀ n ≤ args.ubatch.tokens.length, ∃ masks : TailMasks,
      (range n).foldlM args.query { body } = .ok masks ∧
      (∀ i < n, masks.body i = (args.movedRows i (body i)).body ∧
        masks.exact i = (args.movedRows i (body i)).exact ∧
        masks.read i = writeIdxs (fun e => e.slot) (args.chosen i (body i)) fun _ => 0) ∧
      ∀ i ≥ n, masks.body i = body i ∧ (masks.exact i = fun _ => none) ∧
        masks.read i = fun _ => 0 := by
    intro n
    induction n with
    | zero => exact fun _ => ⟨_, rfl, by simp, fun i _ => ⟨rfl, rfl, rfl⟩⟩
    | succ n ih =>
      intro hn
      obtain ⟨masks, hMasks, hDone, hLeft⟩ := ih (by omega)
      obtain ⟨hBody, hExact, hRead⟩ := hLeft n le_rfl
      refine ⟨args.afterQuery masks n, ?_, fun i hi => ?_, fun i hi => ?_⟩
      · rw [range_succ, foldlM_append, hMasks]
        change ([n].foldlM args.query masks) = _
        rw [foldlM_cons, query_ok h (by omega) hExact]
        rfl
      · by_cases hEq : i = n
        · subst hEq
          simp [afterQuery, hBody, hRead]
        · simpa [afterQuery, hEq] using hDone i (by omega)
      · have hEq : i ≠ n := by omega
        simpa [afterQuery, hEq] using hLeft i (by omega)
  obtain ⟨masks, hMasks, hDone, -⟩ := hRun _ le_rfl
  exact ⟨masks, hMasks, hDone⟩

/-! ## The order of the candidates -/

/-- `a` is not newer than `b`, by position and then by ordinal. -/
def NotNewer (a b : SnapshotEntry) : Prop :=
  a.position < b.position ∨ a.position = b.position ∧ a.insertionOrdinal ≤ b.insertionOrdinal

theorem sourceCandidates_sorted {s : TailStore} (h : TailStore.TailInv s) (seqId : Int) :
    (s.sourceCandidates seqId).Pairwise NotNewer := by
  have hRows : ∀ {rows : List ExactEntry}, rows.Pairwise ExactEntry.le → (rows.map fun e =>
      (⟨seqId.toNat, e.identity, e.position, e.insertionOrdinal, e.slot⟩ :
        SnapshotEntry)).Pairwise NotNewer := by
    intro rows hSorted
    refine pairwise_map.mpr (hSorted.imp ?_)
    intro a b hab
    simp only [ExactEntry.le, ExactEntry.lt, decide_eq_true_eq] at hab
    simp only [NotNewer]
    omega
  unfold TailStore.sourceCandidates
  split
  · exact List.Pairwise.nil
  cases hBatch : s.batch with
  | none => exact hRows (h.seqs seqId.toNat).sorted
  | some tx => exact hRows (pairwise_insertionSort _ _)

/-- For every query of a micro-batch over a store that a run has reached, every
finite column of the body is attended once, and the columns that move are those
of the newest eligible candidates that the plan considers. -/
theorem setInputKqMaskTail_attendedOnce {cfg : TailConfig}
    (hReach : TailStore.Reachable TailStore.Quiet cfg args.tail) (hFits : Fits args)
    (body : Nat → Nat → Option Int) :
    ∃ masks, setInputKqMaskTail args body = .ok masks ∧
      ∀ i < args.ubatch.tokens.length,
        AttendedOnce args i (body i) (masks.body i) (masks.exact i) (masks.read i) ∧
        MovesNewest args i (args.considered (args.seqIdOf i)) (body i) (masks.body i) ∧
        (args.considered (args.seqIdOf i)).Pairwise NotNewer := by
  obtain ⟨masks, hRun, hRows⟩ := setInputKqMaskTail_ok hFits body
  refine ⟨masks, hRun, fun i hi => ?_⟩
  obtain ⟨hBody, hExact, hRead⟩ := hRows i hi
  rw [hBody, hExact, hRead]
  refine ⟨movedRows_attendedOnce (hFits.stride i hi), movedRows_newest, ?_⟩
  exact (sourceCandidates_sorted hReach.inv _).sublist (List.drop_sublist _ _)

/-- The positions 0 and 1 of sequence 0 in the cells 0 and 1. -/
def twoTokens : TailStore :=
  (TailStore.Op.commit 0 ⟨0, 1, 1⟩ 1 1 none).step
    ((TailStore.Op.commit 0 ⟨0, 0, 1⟩ 0 0 none).step { cfg := TailStore.rollbackTail })

theorem twoTokens_reachable : TailStore.Reachable TailStore.Quiet TailStore.rollbackTail twoTokens := by
  have hInit := TailStore.Idle.initial TailStore.rollbackTail
  have hFirst := TailStore.commit_spec hInit 0 ⟨0, 0, 1⟩ 0 0 none
  have hSecond := TailStore.commit_spec hFirst.2.1.idle 0 ⟨0, 1, 1⟩ 1 1 none
  exact (TailStore.Reachable.init.step _ ⟨fun h => absurd hInit.pending h, hFirst.1⟩).step _
    ⟨fun h => absurd hFirst.2.1.idle.pending h, hSecond.1⟩

/-- One query at position 0 over `twoTokens`. -/
def backQuery : TailMaskArgs where
  tail := twoTokens
  generations _ _ := 1
  nCells := 2
  seqToStream _ := 0
  ubatch := { tokens := [{ pos := 0, seqId := [0] }], seqIdUnq := [0] }
  nKv := 2
  attentionStride := 1

/-- The causal mask of the query: position 1 is in its future. -/
def backMask (_ c : Nat) : Option Int := if c = 0 then some 0 else none

theorem backQuery_fits : Fits backQuery where
  stride := by decide
  bodyRows := by decide
  biasRows := by decide

/-- The newest finite candidate of the single query is not among those its plan
considers, and stays in the body. -/
theorem backQuery_keeps_newest : TailStore.Reachable TailStore.Quiet TailStore.rollbackTail backQuery.tail ∧
    ∃ masks, setInputKqMaskTail backQuery backMask = .ok masks ∧
      ¬ MovesNewest backQuery 0 (backQuery.tail.sourceCandidates 0) (backMask 0)
        (masks.body 0) := by
  obtain ⟨masks, hRun, hRows⟩ := setInputKqMaskTail_ok backQuery_fits backMask
  refine ⟨twoTokens_reachable, masks, hRun, fun h => ?_⟩
  rw [(hRows 0 (by decide)).1] at h
  have hMoved := (h 0 (by decide) (by decide)).mpr (by decide)
  exact absurd hMoved (by decide)

/-- One query at position 2, which sees both. -/
def frontQuery : TailMaskArgs :=
  { backQuery with ubatch := { tokens := [{ pos := 2, seqId := [0] }], seqIdUnq := [0] } }

/-- The query sees column 1, which leaves the body for its exact row. -/
theorem frontQuery_attendedOnce : ∃ masks,
    setInputKqMaskTail frontQuery (fun _ _ => some 0) = .ok masks ∧ masks.body 0 1 = none ∧
      ∀ i < frontQuery.ubatch.tokens.length,
        AttendedOnce frontQuery i (fun _ => some 0) (masks.body i) (masks.exact i) (masks.read i) ∧
        MovesNewest frontQuery i (frontQuery.considered (frontQuery.seqIdOf i)) (fun _ => some 0)
          (masks.body i) ∧
        (frontQuery.considered (frontQuery.seqIdOf i)).Pairwise NotNewer := by
  obtain ⟨masks, hRun, hQueries⟩ := @setInputKqMaskTail_attendedOnce frontQuery _ twoTokens_reachable
    ⟨by decide, by decide, by decide⟩ fun _ _ => some 0
  have hMoved := (hQueries 0 (by decide)).2.1 1 (by decide) (by decide)
  exact ⟨masks, hRun, hMoved.mpr (by decide), hQueries⟩

end TailMaskArgs

end Beellama.Ports
