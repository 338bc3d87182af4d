import Beellama.Ports.KvarnState

/-!
# KVarN: what a self-contained restore delivers

The writer decides by the groups of the source which cells travel as stage rows and which as records;
the reader needs the form by the groups of the destination.  A sealed group stays sealed, or the
reader throws.  A staged group may land in a group that the destination does not stage, and then
nothing is installed for it.
-/

namespace Beellama.Ports

open Beellama.Verified TailStore List Option Function

/-! ## Handing over rows and records -/

namespace KvCache

variable {writes : List (Nat × Nat)} {place : Nat}

theorem writeAll_foldl {m : Nat → Option Nat}
    (h : ∀ w ∈ writes, w.2 ≠ place) :
    (writes.foldl (fun (m : Nat → Option Nat) w => Function.update m w.2 (some w.1)) m) place =
      m place := by
  induction writes generalizing m with
  | nil => rfl
  | cons w writes ih =>
    rw [foldl_cons, ih fun v hv => h v (mem_cons_of_mem w hv),
      update_of_ne (h w mem_cons_self).symm]

theorem writeAll_mem (hNodup : (writes.map Prod.snd).Nodup)
    {source : Nat} (h : (source, place) ∈ writes) : writeAll writes place = some source := by
  unfold writeAll
  generalize (fun _ : Nat => (none : Option Nat)) = m
  induction writes generalizing m with
  | nil => cases h
  | cons w writes ih =>
    rw [map_cons, nodup_cons] at hNodup
    rw [foldl_cons]
    rcases mem_cons.mp h with rfl | hMem
    · have hLater : ∀ v ∈ writes, v.2 ≠ place := fun v hv hEq =>
        hNodup.1 (mem_map.mpr ⟨v, hv, hEq⟩)
      rw [writeAll_foldl hLater, update_self]
    · exact ih hNodup.2 hMem _

theorem writeAll_some {source : Nat}
    (h : writeAll writes place = some source) : (source, place) ∈ writes := by
  have hGen : ∀ (writes : List (Nat × Nat)) (m : Nat → Option Nat),
      (writes.foldl (fun (m : Nat → Option Nat) w => update m w.2 (some w.1)) m) place =
          some source →
        (source, place) ∈ writes ∨ m place = some source := by
    intro writes
    induction writes with
    | nil => exact fun m h => Or.inr h
    | cons w writes ih =>
      intro m hFold
      rcases ih _ hFold with hMem | hHere
      · exact Or.inl (mem_cons_of_mem w hMem)
      dsimp only at hHere
      by_cases hw : place = w.2
      · subst hw
        rw [update_self, some.injEq] at hHere
        exact Or.inl (by rw [← hHere]; exact mem_cons_self)
      · rw [update_of_ne hw] at hHere
        exact Or.inr hHere
  rcases hGen writes _ h with hMem | hNone
  · exact hMem
  · cases hNone

/-- What the two sides of a restore agree on: `pairs` from source to destination, `taken` where the
reader takes a source cell to be, `desired` the staged cells afterwards. -/
structure Handover (groupSize : Nat) (pairs : List (Nat × Nat)) (taken : Nat → Nat)
    (fromStage toStage : Nat → Bool) (desired : List Nat) (records : Nat → Option Nat) : Prop where
  sources : (pairs.map Prod.fst).Nodup
  cells : (pairs.map Prod.snd).Nodup
  known : (∀ p ∈ pairs, taken p.1 = p.2) ∨
    ((∀ n, taken n = n) ∧ ∀ p ∈ pairs, fromStage p.1 = true)
  desiredNodup : desired.Nodup
  desiredStaged : ∀ d ∈ desired, toStage d = true
  desiredAll : ∀ p ∈ pairs, toStage p.2 = true → p.2 ∈ desired
  complete : ((pairs.map Prod.fst).filter fun z =>
    fromStage z && decide (taken z ∈ desired)).length = desired.length
  sealed : ∀ p ∈ pairs, fromStage p.1 = false →
    records (p.2 / groupSize) = some (p.1 / groupSize)
  sealedOnly : ∀ p ∈ pairs, ∀ g, records g = some (p.1 / groupSize) → fromStage p.1 = false

/-- The rows the reader installs. -/
def handedRows (pairs : List (Nat × Nat)) (taken : Nat → Nat) (fromStage : Nat → Bool)
    (desired : List Nat) (row : Nat → Nat) : List (Nat × Nat) :=
  ((pairs.map Prod.fst).filter fun z => fromStage z && decide (taken z ∈ desired)).map fun z =>
    (z, row (taken z))

/-- Every restored cell finds its data where the destination reads it. -/
def HandedOver (groupSize : Nat) (pairs : List (Nat × Nat)) (toStage : Nat → Bool)
    (row : Nat → Nat) (stage records : Nat → Option Nat) : Prop :=
  ∀ p ∈ pairs, if toStage p.2 = true then stage (row p.2) = some p.1
    else records (p.2 / groupSize) = some (p.1 / groupSize)

instance (groupSize : Nat) (pairs : List (Nat × Nat)) (toStage : Nat → Bool) (row : Nat → Nat)
    (stage records : Nat → Option Nat) :
    Decidable (HandedOver groupSize pairs toStage row stage records) :=
  inferInstanceAs (Decidable (∀ p ∈ pairs, _))

namespace Handover

variable {groupSize : Nat} {pairs : List (Nat × Nat)} {taken row : Nat → Nat}
  {fromStage toStage : Nat → Bool} {desired : List Nat} {records : Nat → Option Nat}

variable (h : Handover groupSize pairs taken fromStage toStage desired records)

include h

theorem taken_inj {p q : Nat × Nat} (hp : p ∈ pairs) (hq : q ∈ pairs)
    (hEq : taken p.1 = taken q.1) :
    p.1 = q.1 := by
  rcases h.known with hKnown | ⟨hSame, -⟩
  · rw [hKnown p hp, hKnown q hq] at hEq
    rw [inj_on_of_nodup_map h.cells hp hq hEq]
  · rwa [hSame, hSame] at hEq

/-- The numbers agree, so every staged cell is taken to be the destination of
some saved row. -/
theorem desired_taken {d : Nat} (hd : d ∈ desired) :
    ∃ p ∈ pairs, fromStage p.1 = true ∧ taken p.1 = d := by
  have hNodup : (((pairs.map Prod.fst).filter fun z =>
      fromStage z && decide (taken z ∈ desired)).map taken).Nodup := by
    refine List.Nodup.map_on ?_ (h.sources.filter _)
    intro x hx y hy hEq
    obtain ⟨p, hp, rfl⟩ := mem_map.mp (mem_of_mem_filter hx)
    obtain ⟨q, hq, rfl⟩ := mem_map.mp (mem_of_mem_filter hy)
    exact h.taken_inj hp hq hEq
  have hSubset : ((pairs.map Prod.fst).filter fun z =>
      fromStage z && decide (taken z ∈ desired)).map taken ⊆ desired := by
    intro x hx
    obtain ⟨z, hz, rfl⟩ := mem_map.mp hx
    have hTest := of_mem_filter hz
    simp only [Bool.and_eq_true, decide_eq_true_eq] at hTest
    exact hTest.2
  have hPerm := (subperm_of_subset hNodup hSubset).perm_of_length_le
    (by rw [length_map, h.complete])
  obtain ⟨z, hz, rfl⟩ := mem_map.mp (hPerm.mem_iff.mpr hd)
  obtain ⟨p, hp, rfl⟩ := mem_map.mp (mem_of_mem_filter hz)
  have hTest := of_mem_filter hz
  simp only [Bool.and_eq_true, decide_eq_true_eq] at hTest
  exact ⟨p, hp, hTest.1, rfl⟩

/-- What a delivery needs: staged groups stay staged, the reader looks for the
cells where they are, and their rows do not collide. -/
structure Fits (pairs : List (Nat × Nat)) (taken row : Nat → Nat)
    (fromStage toStage : Nat → Bool) : Prop where
  staged : ∀ p ∈ pairs, fromStage p.1 = true → toStage p.2 = true
  inPlace : ∀ p ∈ pairs, taken p.1 = p.2
  rows : ∀ p ∈ pairs, ∀ q ∈ pairs, toStage p.2 = true → toStage q.2 = true →
    row p.2 = row q.2 → p.2 = q.2

omit h in
theorem mem_handedRows {z r : Nat} : (z, r) ∈ handedRows pairs taken fromStage desired row ↔
    z ∈ pairs.map Prod.fst ∧ fromStage z = true ∧ taken z ∈ desired ∧ r = row (taken z) := by
  simp only [handedRows, List.mem_map, List.mem_filter, Bool.and_eq_true, decide_eq_true_eq,
    Prod.mk.injEq]
  constructor
  · rintro ⟨w, ⟨hw, hStage, hTaken⟩, rfl, rfl⟩
    exact ⟨hw, hStage, hTaken, rfl⟩
  · rintro ⟨hz, hStage, hTaken, rfl⟩
    exact ⟨z, ⟨hz, hStage, hTaken⟩, rfl, rfl⟩

theorem fits_of_handedOver (hOver : HandedOver groupSize pairs toStage row
      (writeAll (handedRows pairs taken fromStage desired row)) records) :
    Fits pairs taken row fromStage toStage := by
  have hStaged : ∀ p ∈ pairs, fromStage p.1 = true → toStage p.2 = true := by
    intro p hp hFrom
    by_contra hNot
    have hRecord := hOver p hp
    rw [if_neg hNot] at hRecord
    rw [h.sealedOnly p hp _ hRecord] at hFrom
    cases hFrom
  have hRows : ∀ p ∈ pairs, ∀ q ∈ pairs, toStage p.2 = true → toStage q.2 = true →
      row p.2 = row q.2 → p.1 = q.1 := by
    intro p hp q hq hToP hToQ hRow
    have hStageP := hOver p hp
    have hStageQ := hOver q hq
    rw [if_pos hToP] at hStageP
    rw [if_pos hToQ, ← hRow, hStageP, some.injEq] at hStageQ
    exact hStageQ
  refine ⟨hStaged, ?_, fun p hp q hq hToP hToQ hRow => ?_⟩
  · rcases h.known with hKnown | ⟨hSame, hAll⟩
    · exact hKnown
    intro p hp
    -- all destinations are staged, so they are the source cells in some order
    have hPerm : (pairs.map Prod.snd).Perm (pairs.map Prod.fst) := by
      refine (subperm_of_subset h.cells fun d hd => ?_).perm_of_length_le (by simp)
      obtain ⟨q, hq, rfl⟩ := mem_map.mp hd
      obtain ⟨z, hz, -, hTaken⟩ :=
        h.desired_taken (h.desiredAll q hq (hStaged q hq (hAll q hq)))
      rw [← hTaken, hSame]
      exact mem_map_of_mem hz
    obtain ⟨q, hq, hCell⟩ := mem_map.mp (hPerm.mem_iff.mpr (mem_map_of_mem hp))
    have hToP := hStaged p hp (hAll p hp)
    have hStage := hOver p hp
    rw [if_pos hToP] at hStage
    have hWritten := (mem_handedRows.mp (writeAll_some hStage)).2.2.2
    rw [hSame, ← hCell] at hWritten
    have hEq := hRows p hp q hq hToP (hStaged q hq (hAll q hq)) hWritten
    rw [hSame, ← hCell, inj_on_of_nodup_map h.sources hp hq hEq]
  · rw [inj_on_of_nodup_map h.sources hp hq (hRows p hp q hq hToP hToQ hRow)]

theorem handedOver_of_fits (hFits : Fits pairs taken row fromStage toStage) :
    HandedOver groupSize pairs toStage row
      (writeAll (handedRows pairs taken fromStage desired row)) records := by
  intro p hp
  split
  · rename_i hTo
    have hDesired := h.desiredAll p hp hTo
    obtain ⟨q, hq, hFrom, hTaken⟩ := h.desired_taken hDesired
    have hEq : q = p := by
      rw [hFits.inPlace q hq] at hTaken
      exact inj_on_of_nodup_map h.cells hq hp hTaken
    subst hEq
    refine writeAll_mem ?_ (mem_handedRows.mpr ⟨mem_map_of_mem hp, hFrom,
      by rw [hTaken]; exact hDesired, by rw [hTaken]⟩)
    rw [handedRows, List.map_map]
    refine List.Nodup.map_on ?_ (h.sources.filter _)
    intro x hx y hy hRow
    obtain ⟨a, ha, rfl⟩ := mem_map.mp (mem_of_mem_filter hx)
    obtain ⟨b, hb, rfl⟩ := mem_map.mp (mem_of_mem_filter hy)
    have hTestA := of_mem_filter hx
    have hTestB := of_mem_filter hy
    simp only [Bool.and_eq_true, decide_eq_true_eq, hFits.inPlace a ha, hFits.inPlace b hb]
      at hTestA hTestB
    simp only [comp_apply, hFits.inPlace a ha, hFits.inPlace b hb] at hRow
    have hCell := hFits.rows a ha b hb (h.desiredStaged _ hTestA.2) (h.desiredStaged _ hTestB.2)
      hRow
    rw [inj_on_of_nodup_map h.cells ha hb hCell]
  rename_i hTo
  refine h.sealed p hp ?_
  by_contra hFrom
  exact hTo (hFits.staged p hp (by simpa using hFrom))

end Handover

/-! ## The selections -/

/-- A unified KVarN cache without a sliding window. -/
structure UnifiedKvarn (cfg : CacheConfig) : Prop where
  unified : cfg.nStream = 1
  groupSize : cfg.allocationGroupSize = kvarnGroup
  noSwa : cfg.swaType = .none

variable {n : Nat}

section Selections

variable {c : KvCache} {s : Nat} (h : UnifiedKvarn c.cfg)

include h

theorem UnifiedKvarn.grouped : c.cfg.grouped = true := by
  simp [CacheConfig.grouped, h.unified, h.groupSize, kvarnGroup]

theorem UnifiedKvarn.stream (s : Nat) : c.cfg.seqToStream s = 0 :=
  seqToStream_grouped h.grouped s

theorem carriesCell_iff (s i : Nat) : c.carriesCell s i = true ↔
    ((c.cells 0).cell i).pos ≠ -1 ∧ s ∈ ((c.cells 0).cell i).seq := by
  simp [carriesCell, h.stream, h.noSwa, isMaskedSwa, KvCells.isEmpty, KvCells.seqHas]

theorem usesStage_iff {i : Nat} (hi : i < (c.cells 0).size) :
    c.allocationCellUsesStage i = true ↔
      i / kvarnGroup = 0 ∨ ∃ t < c.cfg.nSeqMax, c.liveGroup t = some (i / kvarnGroup) := by
  unfold allocationCellUsesStage
  rw [if_neg (by simp [h.grouped]; omega), h.groupSize]
  simp

theorem usesStage_congr {i j : Nat} (hi : i < (c.cells 0).size) (hj : j < (c.cells 0).size)
    (hGroup : i / kvarnGroup = j / kvarnGroup) :
    c.allocationCellUsesStage i = c.allocationCellUsesStage j := by
  rw [Bool.eq_iff_iff, usesStage_iff h hi, usesStage_iff h hj, hGroup]

variable {cells : List Nat}

theorem stateSourceCells_spec (hRun : c.stateSourceCells s = .ok cells) :
    s < c.cfg.nSeqMax ∧ cells = (range (c.cells 0).size).filter (c.carriesCell s) := by
  unfold stateSourceCells at hRun
  split at hRun
  · cases hRun
  rename_i hs
  cases hRun
  rw [h.stream]
  exact ⟨not_le.mp hs, rfl⟩

variable {stageCells : List StageCell}

/-- The stage rows of a sequence are those of its cells in staged groups. -/
theorem stageCellsOf_spec (hRun : c.stageCellsOf s = .ok stageCells) :
    s < c.cfg.nSeqMax ∧ stageCells =
      (((range (c.cells 0).size).filter (c.carriesCell s)).filter
        c.allocationCellUsesStage).map fun i => ⟨i, kvarnStageRow c.tailGroups i⟩ := by
  unfold stageCellsOf at hRun
  obtain ⟨cells, hCells, hRun⟩ := exists_of_bind hRun
  obtain ⟨hs, hList⟩ := stateSourceCells_spec h hCells
  refine ⟨hs, ?_⟩
  rw [← hList]
  change kvarnSelectStateStageCells cells ((cells.max?.map (· + 1)).getD 0) c.stageGroups
    c.tailGroups false (some ((cells.filter c.allocationCellUsesStage).map (· / kvarnGroup))) =
      .ok stageCells at hRun
  unfold kvarnSelectStateStageCells at hRun
  split at hRun
  · rename_i hMax
    cases hRun
    cases hMaxOf : cells.max? with
    | none => rw [max?_eq_none_iff.mp hMaxOf]; rfl
    | some m =>
      rw [hMaxOf] at hMax
      cases hMax
  split at hRun
  · cases hRun
  split at hRun
  · cases hRun
  cases hRun
  have hFilter : cells.filter (fun cell => decide (cell / kvarnGroup ∈
      (cells.filter c.allocationCellUsesStage).map (· / kvarnGroup))) =
      cells.filter c.allocationCellUsesStage := by
    refine filter_congr fun i hi => ?_
    have hSize : ∀ j ∈ cells, j < (c.cells 0).size := by
      intro j hj
      rw [hList] at hj
      exact mem_range.mp (mem_of_mem_filter hj)
    rw [Bool.eq_iff_iff, decide_eq_true_eq, List.mem_map]
    constructor
    · rintro ⟨j, hj, hGroup⟩
      rw [mem_filter] at hj
      rw [usesStage_congr h (hSize i hi) (hSize j hj.1) hGroup.symm]
      exact hj.2
    · exact fun hStaged => ⟨i, mem_filter.mpr ⟨hi, hStaged⟩, rfl⟩
  change (cells.filter fun cell => decide (cell / kvarnGroup ∈
      (cells.filter c.allocationCellUsesStage).map (· / kvarnGroup))).map _ = _
  rw [hFilter]
  rfl

variable {groups : List Nat}

omit h in
/-- The groups saved as records are those without a staged cell. -/
theorem mem_recordGroups (hRun : kvarnSelectStateRecordGroups cells stageCells n = .ok groups)
    (g : Nat) :
    g ∈ groups ↔ (∃ i ∈ cells, i / kvarnGroup = g) ∧
      ∀ x ∈ stageCells, x.sourceCell / kvarnGroup ≠ g := by
  unfold kvarnSelectStateRecordGroups at hRun
  split at hRun
  · cases hRun
  rename_i hArena
  cases hRun
  simp only [List.any_eq_true, decide_eq_true_eq, not_exists, not_and, not_le] at hArena
  simp only [List.mem_filter, List.mem_range, Bool.and_eq_true, List.any_eq_true,
    decide_eq_true_eq, Bool.not_eq_true', List.any_eq_false]
  constructor
  · rintro ⟨-, hCell, hStaged⟩
    exact ⟨hCell, hStaged⟩
  · rintro ⟨⟨i, hi, rfl⟩, hStaged⟩
    exact ⟨hArena i hi, ⟨i, hi, rfl⟩, hStaged⟩

omit h in
theorem recordGroups_nodup (hRun : kvarnSelectStateRecordGroups cells stageCells n = .ok groups) :
    groups.Nodup := by
  unfold kvarnSelectStateRecordGroups at hRun
  split at hRun
  · cases hRun
  · cases hRun
    exact nodup_range.filter _

/-- The cells of the manifest are those the selections go through. -/
theorem collectCells_sources :
    (c.collectCells s).map (fun x => x.sourceCell) =
      (range (c.cells 0).size).filter (c.carriesCell s) := by
  unfold collectCells
  rw [h.stream]
  have hUsed : ∀ i ∈ (range (c.cells 0).size).filter (c.carriesCell s),
      ((c.cells 0).cell i).pos ≠ -1 := by
    intro i hi
    exact ((carriesCell_iff h s i).mp (of_mem_filter hi)).1
  dsimp only
  generalize (range (c.cells 0).size).filter (c.carriesCell s) = l at hUsed ⊢
  induction l with
  | nil => rfl
  | cons i l ih =>
    rw [filterMap_cons, dif_pos (hUsed i mem_cons_self), map_cons,
      ih fun j hj => hUsed j (mem_cons_of_mem i hj)]

end Selections

/-! ## Where the cells go -/

/-- The cells of the sequence after a restore that places the saved cells as
`placed` says. -/
def PlannedCell (c : KvCache) (s : Nat) (placed : List (SavedCell × Nat)) (n : Nat) (p : Int) :
    Prop :=
  KeptCell (c.cells 0) s 0 int32Max n p ∨ ∃ x ∈ placed, x.2 = n ∧ x.1.pos = p

/-- The group is group zero, the live group of another sequence, or the incomplete one of the newest
cell. -/
def StagedAfter (c : KvCache) (s : Nat) (placed : List (SavedCell × Nat)) (g : Nat) : Prop :=
  g = 0 ∨ (∃ t < c.cfg.nSeqMax, t ≠ s ∧ c.liveGroup t = some g) ∨
    ∃ n p, Newest (PlannedCell c s placed) n p ∧ (n + 1) % kvarnGroup ≠ 0 ∧ n / kvarnGroup = g

/-- What the metadata part of a restore does. -/
structure Relocated (s : Nat) (placed : List (SavedCell × Nat)) (c c' : KvCache) : Prop where
  cfg : c'.cfg = c.cfg
  size : (c'.cells 0).size = (c.cells 0).size
  heads : ∀ t ≠ s, c'.allocationHeads t = c.allocationHeads t
  head : s < c.cfg.nSeqMax →
    c'.allocationHeads s = ((newestCell (c'.cells 0) s).map (· + 1)).getD 0
  held : ∀ n p, HeldCell (c'.cells 0) s n p ↔ PlannedCell c s placed n p
  cells : (placed.map Prod.snd).Nodup

section Places

variable {c c' : KvCache} {s : Nat} {placed : List (SavedCell × Nat)}

theorem Newest.unique {A : Nat → Int → Prop} {m : Nat} {p q : Int} (h : Newest A n p)
    (h' : Newest A m q) : n = m := by
  have hLeft := h.newest m q h'.mem
  have hRight := h'.newest n p h.mem
  omega

theorem newestCell_iff {cells : KvCells} {s : Nat} :
    newestCell cells s = some n ↔ ∃ p, Newest (HeldCell cells s) n p := by
  constructor
  · exact newestCell_newest
  rintro ⟨p, hNewest⟩
  cases hCell : newestCell cells s with
  | none =>
    have hScan := newestCell_scan cells s cells.size
    unfold newestCell at hCell
    obtain ⟨hn, hMem, hPos⟩ := hNewest.mem
    rcases hScan with ⟨-, hNone⟩ | ⟨m, -, hAcc, -⟩
    · have hLe := hNone n hn hMem
      have hGe := hNewest.pos
      omega
    · rw [hAcc] at hCell
      cases hCell
  | some m =>
    obtain ⟨q, hq⟩ := newestCell_newest hCell
    rw [hq.unique hNewest]

theorem rebuildAllocationHead_eq (c : KvCache) {s : Nat} (hGrouped : c.cfg.grouped = true)
    (hs : s < c.cfg.nSeqMax) : (c.rebuildAllocationHead s).allocationHeads s =
      ((newestCell (c.cells 0) s).map (· + 1)).getD 0 := by
  unfold rebuildAllocationHead
  rw [if_neg (by simp [hGrouped]; omega)]
  cases hNewest : newestCell (c.cells 0) s with
  | none =>
    simp only [resetAllocationHead, if_neg (Nat.not_le.mpr hs)]
    exact update_self _ _ _
  | some n => exact update_self _ _ _

variable (h : Relocated s placed c c') (hKvarn : UnifiedKvarn c.cfg)

include h hKvarn

theorem Relocated.liveGroup_self (hs : s < c.cfg.nSeqMax) (g : Nat) : c'.liveGroup s = some g ↔
      ∃ n p, Newest (PlannedCell c s placed) n p ∧ (n + 1) % kvarnGroup ≠ 0 ∧
        n / kvarnGroup = g := by
  unfold liveGroup
  rw [h.cfg, hKvarn.groupSize, h.head hs]
  cases hNewest : newestCell (c'.cells 0) s with
  | none =>
    simp only [map_none, getD_none, true_or, if_true, false_iff,
      reduceCtorEq]
    rintro ⟨n, p, hn, -⟩
    rw [newestCell_iff.mpr ⟨p, hn.congr fun m q => (h.held m q).symm⟩] at hNewest
    cases hNewest
  | some m =>
    obtain ⟨q, hq⟩ := newestCell_newest hNewest
    have hPlanned := hq.congr h.held
    simp only [map_some, getD_some, Nat.add_eq_zero_iff, one_ne_zero, and_false,
      false_or, Nat.add_sub_cancel]
    constructor
    · intro hLive
      split at hLive
      · cases hLive
      rename_i hMod
      cases hLive
      exact ⟨m, q, hPlanned, hMod, rfl⟩
    rintro ⟨n, p, hn, hMod, rfl⟩
    rw [hn.unique hPlanned] at hMod ⊢
    rw [if_neg hMod]

theorem Relocated.usesStage (hs : s < c.cfg.nSeqMax) {i : Nat} (hi : i < (c'.cells 0).size) :
    c'.allocationCellUsesStage i = true ↔ StagedAfter c s placed (i / kvarnGroup) := by
  have hKvarn' : UnifiedKvarn c'.cfg := by rw [h.cfg]; exact hKvarn
  rw [usesStage_iff hKvarn' hi, StagedAfter, ← h.liveGroup_self hKvarn hs, h.cfg]
  refine or_congr_right ?_
  constructor
  · rintro ⟨t, ht, hLive⟩
    by_cases hts : t = s
    · subst hts
      exact Or.inr hLive
    · rw [liveGroup_congr h.cfg (h.heads t hts)] at hLive
      exact Or.inl ⟨t, ht, hts, hLive⟩
  rintro (⟨t, ht, hts, hLive⟩ | hLive)
  · rw [← liveGroup_congr h.cfg (h.heads t hts)] at hLive
    exact ⟨t, ht, hLive⟩
  · exact ⟨s, hs, hLive⟩

theorem Relocated.carries {x : SavedCell × Nat} (hx : x ∈ placed) :
    x.2 < (c'.cells 0).size ∧ c'.carriesCell s x.2 = true := by
  have hKvarn' : UnifiedKvarn c'.cfg := by rw [h.cfg]; exact hKvarn
  obtain ⟨hSize, hMem, hPos⟩ := (h.held x.2 x.1.pos).mpr (Or.inr ⟨x, hx, rfl, rfl⟩)
  exact ⟨hSize, (carriesCell_iff hKvarn' s x.2).mpr ⟨by rw [hPos]; exact x.1.used, hMem⟩⟩

end Places

section Place

variable {c c' : KvCache} {s : Nat}

variable {α : Type} {a : α}

theorem liftInstall_ok {x : InstallM α} (h : liftInstall x c = .ok a c') : x c = .ok a c' := by
  unfold liftInstall at h
  split at h
  · cases h
    assumption
  · cases h

theorem liftMethod_ok {x : CacheM α} (h : liftMethod x c = .ok a c') : x c = .ok a c' := by
  unfold liftMethod at h
  split at h
  · cases h
    assumption
  · cases h

theorem liftSelect_ok {x : Except KvarnStateError α}
    (h : liftSelect x c = .ok a c') : x = .ok a ∧ c' = c := by
  unfold liftSelect at h
  split at h
  · cases h
    exact ⟨rfl, rfl⟩
  · cases h

theorem ggmlAssert_ok {p : Prop} [Decidable p] {u : Unit} (h : ggmlAssert p c = .ok u c') :
    p ∧ c' = c := by
  unfold ggmlAssert at h
  split at h
  · rename_i hp
    cases h
    exact ⟨hp, rfl⟩
  · cases h

variable (hKvarn : UnifiedKvarn c.cfg) (hOccupied : Occupied (c.cells 0))

include hKvarn hOccupied

/-- A manifest is moved group by group. -/
theorem stateV2Install_relocated {mf : StateManifest} {restored : List (List Nat)}
    (hDivides : (c.cells 0).size % kvarnGroup = 0)
    (hRun : stateV2Install kvarnGroup s .selfContained mf c = .ok restored c') :
    ∃ groups, pickGroups (sweep (rmBody s 0 int32Max) (c.cells 0)).1 kvarnGroup
        (sourceGroups kvarnGroup (c.cells 0).size mf.savedCells) [] = some groups ∧
      restored.flatten = mf.savedCells.map (remapCell kvarnGroup groups) ∧
      Relocated s (mf.savedCells.map fun x => (x, remapCell kvarnGroup groups x)) c c' ∧
      ∀ x ∈ mf.savedCells, ∀ y ∈ mf.savedCells,
        remapCell kvarnGroup groups x / kvarnGroup = remapCell kvarnGroup groups y / kvarnGroup →
          x.sourceCell / kvarnGroup = y.sourceCell / kvarnGroup := by
  obtain ⟨groups, c₁, c₂, hRestored, hRemapped, hCells, hCfg, hHeads, c₃, hRebuilt⟩ :=
    stateV2Install_remapped hRun
  have hStream := hKvarn.stream s
  obtain ⟨hSize, -, hPicked, hPlaced⟩ := hRemapped.unified hStream
  have hPickedOld := hRemapped.picked
  rw [hStream] at hPickedOld
  have hConfig : c'.cfg = c.cfg := by rw [hCfg, hPlaced.cfg, hRemapped.cleared.cfg]
  refine ⟨groups, hPickedOld, ?_, ⟨hConfig, ?_, ?_, ?_, ?_, ?_⟩, ?_⟩
  · rw [hRestored, StateManifest.savedCells, map_flatten]
  · rw [hCells, hPlaced.size, hSize]
  · intro t ht
    rw [hHeads t ht, hPlaced.heads, hRemapped.cleared.heads t ht]
  · intro hs
    have hStep := rebuildAllocationHead_step s c₃
    have hConfig₃ : c₃.cfg = c.cfg := by
      rw [← hConfig, hRebuilt]
      exact hStep.cfg.symm
    rw [hRebuilt, hStep.cells]
    exact rebuildAllocationHead_eq c₃ (by rw [hConfig₃]; exact hKvarn.grouped)
      (by rw [hConfig₃]; exact hs)
  · intro n p
    rw [hCells, hRemapped.held_iff hOccupied hStream hDivides, PlannedCell]
    simp
  · rw [List.map_map]
    exact (hPlaced.free rfl).1
  intro x hx y hy hEq
  obtain ⟨g, hg⟩ := hRemapped.remapGroup hStream hDivides hx
  obtain ⟨g', hg'⟩ := hRemapped.remapGroup hStream hDivides hy
  rw [hg.group, hg'.group] at hEq
  have hNodup := (pickGroups_spec hPicked nodup_nil).1
  exact congrArg Prod.fst (inj_on_of_nodup_map hNodup hg.mem hg'.mem hEq)

/-- What `state_read_meta` does. -/
structure MetaRead (s : Nat) (saved : List SavedCell) (idxs : List Nat) (c c₁ c' : KvCache) :
    Prop where
  cleared : Cleared s 0 int32Max c c₁
  after : c₁ = finalState (seqRm s (-1) (-1)) c
  found : c₁.findSlot (savedUbatch c.cfg.nPosPerEmbd s saved) false = .ok [⟨0, idxs⟩]
  placed : TokensPlaced s idxs c₁ c'
  empty : ∀ i ∈ idxs, i < (c₁.cells 0).size ∧ ((c₁.cells 0).cell i).pos = -1
  nodup : idxs.Nodup
  length : idxs.length = saved.length
  pos : ∀ x ∈ saved.zip idxs, ((c'.cells 0).cell x.2).pos = x.1.pos

variable {saved : List SavedCell}

theorem stateReadMeta_run {idxs : List Nat} (hRun : stateReadMeta s saved c = .ok idxs c') :
    ∃ c₁, MetaRead s saved idxs c c₁ c' := by
  obtain ⟨b, c₁, hRm, hRun⟩ := run_bind_inv hRun
  have hRm := liftMethod_ok hRm
  have hCleared := seqRm_cleared hRm
  obtain ⟨c₂, _, hGet, hRun⟩ := run_bind_inv hRun
  cases hGet
  have hKvarn₁ : UnifiedKvarn c₁.cfg := by rw [hCleared.cfg]; exact hKvarn
  have hOccupied₁ : Occupied (c₁.cells 0) := hCleared.occupied hOccupied (hKvarn.stream s)
  dsimp only at hRun
  cases hFind : c₁.findSlot (savedUbatch c₁.cfg.nPosPerEmbd s saved) false with
  | error e =>
    rw [hFind] at hRun
    cases hRun
  | ok sinfo =>
    rw [hFind] at hRun
    cases sinfo with
    | nil => cases hRun
    | cons run runs =>
      obtain ⟨_, c₂, hSet, hRun⟩ := run_bind_inv hRun
      cases hSet
      obtain ⟨_, c₃, hApply, hRun⟩ := run_bind_inv hRun
      obtain ⟨_, c₄, hReset, hRun⟩ := run_bind_inv hRun
      cases hReset
      obtain ⟨_, _, hGet, hRun⟩ := run_bind_inv hRun
      cases hGet
      obtain ⟨_, c₅, hShape, hRun⟩ := run_bind_inv hRun
      obtain ⟨⟨-, hLength⟩, rfl⟩ := ggmlAssert_ok (liftMethod_ok hShape)
      obtain ⟨_, c₆, hAssert, hRun⟩ := run_bind_inv hRun
      obtain ⟨hPos, rfl⟩ := ggmlAssert_ok (liftMethod_ok hAssert)
      cases hRun
      rcases findSlot_cases hFind (by simp) with ⟨-, st, idxs, -, hSlots, hInfo⟩ |
        ⟨hPlain, -⟩ | ⟨hPlain, -⟩
      · cases hInfo
        obtain ⟨hCells, hNodup, -, -⟩ := groupSlots_spec hSlots
        have hOk : ∀ i ∈ idxs, i < (c₁.cells 0).size ∧ ((c₁.cells 0).cell i).pos = -1 := by
          intro i hi
          obtain ⟨n, hn⟩ := getElem?_of_mem hi
          obtain ⟨tok, -, hOk⟩ := forall₂_getElem? hCells hn
          exact ⟨hOk.inTable, by simpa [KvCells.isEmpty] using hOk.empty⟩
        have hPlaced : TokensPlaced s idxs { c₁ with tailPreparing := true } c₃ := by
          refine applyUbatch_placed (c := { c₁ with tailPreparing := true }) ?_ ?_
            hKvarn₁.grouped (hCells.imp fun _ _ hOk => hOk.empty) hNodup
            hOccupied₁ (liftMethod_ok hApply)
          · intro tok hTok
            obtain ⟨x, -, rfl⟩ := mem_map.mp hTok
            rfl
          intro tok hTok
          obtain ⟨x, -, rfl⟩ := mem_map.mp hTok
          exact x.used
        have hPlaced' : TokensPlaced s idxs c₁
            { c₃ with tailPreparing := c₁.tailPreparing } :=
          hPlaced.congr ⟨rfl, rfl, rfl⟩ ⟨rfl, rfl, rfl⟩
        have hStream : c₃.cfg.seqToStream s = 0 := by
          rw [hPlaced.cfg]
          exact hKvarn₁.stream s
        refine ⟨c₁, hCleared, ?_, ?_, hPlaced', hOk, hNodup, hLength, fun x hx => ?_⟩
        · unfold finalState
          rw [hRm]
        · rw [← hCleared.cfg]
          exact hFind
        · have hCell := (hPos x hx).1
          rwa [hStream] at hCell
      · rw [hKvarn₁.grouped] at hPlain
        cases hPlain
      · rw [hKvarn₁.grouped] at hPlain
        cases hPlain

/-- A body is placed by the search for slots. -/
theorem stateReadBody_relocated {idxs : List Nat} (hSaved : saved ≠ [])
    (hRun : stateReadBody s saved c = .ok idxs c') :
    (finalState (seqRm s (-1) (-1)) c).findSlot (savedUbatch c.cfg.nPosPerEmbd s saved) false =
        .ok [⟨0, idxs⟩] ∧ idxs.length = saved.length ∧ Relocated s (saved.zip idxs) c c' := by
  obtain ⟨c₀, _, hGet, hBody⟩ := run_bind_inv hRun
  cases hGet
  by_cases hCompact : c.cfg.hasCompactTail = true
  · rw [if_pos hCompact] at hBody
    cases hBody
  rw [if_neg hCompact] at hBody
  obtain ⟨_, c₀, hAssert, hPlace⟩ := run_bind_inv hBody
  obtain ⟨-, rfl⟩ := ggmlAssert_ok (liftMethod_ok hAssert)
  rw [if_neg hSaved] at hPlace
  obtain ⟨found, c₂, hMeta, hRest⟩ := run_bind_inv hPlace
  obtain ⟨c₁, hRead⟩ := stateReadMeta_run hKvarn hOccupied hMeta
  obtain ⟨_, c₃, hRebuild, hRest⟩ := run_bind_inv hRest
  cases hRebuild
  obtain ⟨_, c₄, hRm, hRest⟩ := run_bind_inv hRest
  obtain ⟨_, c₅, hMark, hRest⟩ := run_bind_inv hRest
  cases hRest
  have hSame := (onTail_same (liftMethod_ok hRm)).trans (onTail_same (liftMethod_ok hMark))
  have hStep := rebuildAllocationHead_step s c₂
  have hStream := hKvarn.stream s
  have hConfig : c₂.cfg = c₀.cfg := by rw [hRead.placed.cfg, hRead.cleared.cfg]
  have hTable : c'.cells = c₂.cells := by rw [hSame.cells, hStep.cells]
  have hSize := hRead.cleared.size
  rw [hStream] at hSize
  have hZip : ∀ n, n ∈ idxs ↔ ∃ x ∈ saved.zip idxs, x.2 = n := by
    intro n
    have hSnd : (saved.zip idxs).map Prod.snd = idxs :=
      map_snd_zip (by rw [hRead.length])
    rw [← List.mem_map, hSnd]
  refine ⟨?_, hRead.length, ⟨?_, ?_, ?_, ?_, ?_, ?_⟩⟩
  · rw [← hRead.after]
    exact hRead.found
  · rw [hSame.cfg, hStep.cfg, hConfig]
  · rw [hTable, hRead.placed.size, hSize]
  · intro t ht
    rw [hSame.heads, hStep.heads t ht, hRead.placed.headsOther t ht, hRead.cleared.heads t ht]
  · intro hs
    rw [hSame.heads, hTable]
    exact rebuildAllocationHead_eq c₂ (by rw [hConfig]; exact hKvarn.grouped)
      (by rw [hConfig]; exact hs)
  · intro n p
    rw [hTable, PlannedCell, ← hRead.cleared.held_iff hOccupied hStream]
    by_cases hn : n ∈ idxs
    · have hEmpty := (hRead.empty n hn).2
      have hNotHeld : ¬ HeldCell (c₁.cells 0) s n p := by
        rintro ⟨-, hMem, -⟩
        exact (hRead.cleared.occupied hOccupied hStream n s hMem).2 hEmpty
      obtain ⟨x, hx, rfl⟩ := (hZip n).mp hn
      rw [or_iff_right hNotHeld]
      constructor
      · rintro ⟨-, -, rfl⟩
        exact ⟨x, hx, rfl, (hRead.pos x hx).symm⟩
      rintro ⟨y, hy, hCell, rfl⟩
      refine ⟨by rw [hRead.placed.size]; exact (hRead.empty _ hn).1, ?_, ?_⟩
      · rw [(hRead.placed.placed _ hn).1]
        exact Finset.mem_singleton_self s
      · rw [← hCell]
        exact hRead.pos y hy
    have hNone : ¬ ∃ x ∈ saved.zip idxs, x.2 = n ∧ x.1.pos = p := by
      rintro ⟨x, hx, hCell, -⟩
      exact hn ((hZip n).mpr ⟨x, hx, hCell⟩)
    rw [or_iff_left hNone, HeldCell, HeldCell, hRead.placed.others n hn, hRead.placed.size]
  · rw [map_snd_zip (by rw [hRead.length])]
    exact hRead.nodup

end Place

/-! ## The whole restore -/

/-- Where a restore puts the saved cells: a manifest in groups that are empty once the sequence is
cleared, a body in the slots that are found. -/
def plannedCells (c : KvCache) (s : Nat) : SavedMeta → List (SavedCell × Nat)
  | .manifest mf =>
    match pickGroups (sweep (rmBody s 0 int32Max) (c.cells 0)).1 kvarnGroup
        (sourceGroups kvarnGroup (c.cells 0).size mf.savedCells) [] with
    | none => []
    | some groups => mf.savedCells.map fun x => (x, remapCell kvarnGroup groups x)
  | .body cells =>
    match (finalState (seqRm s (-1) (-1)) c).findSlot
        (savedUbatch c.cfg.nPosPerEmbd s cells) false with
    | .ok [run] => cells.zip run.idxs
    | _ => []

/-- The cells that the source stages land in staged groups with rows of their own, and those of a
body on their source cells. -/
structure KvarnFits (source c : KvCache) (s : Nat) (metadata : SavedMeta) : Prop where
  staged : ∀ x ∈ plannedCells c s metadata,
    source.allocationCellUsesStage x.1.sourceCell = true →
      StagedAfter c s (plannedCells c s metadata) (x.2 / kvarnGroup)
  inPlace : ∀ cells, metadata = .body cells → ∀ x ∈ plannedCells c s metadata,
    x.1.sourceCell = x.2
  rows : ∀ x ∈ plannedCells c s metadata, ∀ y ∈ plannedCells c s metadata,
    StagedAfter c s (plannedCells c s metadata) (x.2 / kvarnGroup) →
    StagedAfter c s (plannedCells c s metadata) (y.2 / kvarnGroup) →
    kvarnStageRow c.tailGroups x.2 = kvarnStageRow c.tailGroups y.2 → x.2 = y.2

/-- Every saved cell was restored, and is backed by its source cell in the place the destination
reads it from. -/
structure Backed (metadata : SavedMeta) (d : KvarnDelivery) (c' : KvCache) : Prop where
  complete : d.restored.map Prod.fst = metadata.cells.map fun x => x.sourceCell
  data : HandedOver kvarnGroup d.restored c'.allocationCellUsesStage (kvarnStageRow c'.tailGroups)
    d.stage d.records

section Restore

variable {source c c' : KvCache} {s₀ s : Nat}

theorem lookup_of_mem {l : List (Nat × Nat)} (hNodup : (l.map Prod.fst).Nodup) {a b : Nat}
    (h : (a, b) ∈ l) : l.lookup a = some b := by
  induction l with
  | nil => cases h
  | cons x l ih =>
    rw [map_cons, nodup_cons] at hNodup
    rcases mem_cons.mp h with rfl | hMem
    · simp
    have hne : a ≠ x.1 := fun hEq => hNodup.1 (hEq ▸ mem_map_of_mem hMem)
    rw [lookup_cons, beq_eq_false_iff_ne.mpr hne]
    exact ih hNodup.2 hMem

theorem installRows_eq (remap : List (Nat × Nat)) (desired saved : List Nat)
    (row savedRow : Nat → Nat) :
    installRows remap (desired.map fun i => ⟨i, row i⟩) (saved.map fun i => ⟨i, savedRow i⟩) =
      (saved.filter fun z => decide (takenCell remap z ∈ desired)).map fun z =>
        (z, row (takenCell remap z)) := by
  have hFind : ∀ n, (desired.map fun i => (⟨i, row i⟩ : StageCell)).find?
      (fun d => d.sourceCell = n) = if n ∈ desired then some ⟨n, row n⟩ else none := by
    intro n
    induction desired with
    | nil => rfl
    | cons i desired ih =>
      rw [map_cons, find?_cons]
      by_cases hi : i = n
      · subst hi
        simp
      · simp only [hi, decide_false, ih, mem_cons, Ne.symm hi, false_or]
  unfold installRows
  induction saved with
  | nil => rfl
  | cons z saved ih =>
    rw [map_cons, filterMap_cons, ih, hFind]
    by_cases hz : takenCell remap z ∈ desired
    · simp [hz]
    · simp [hz]

variable {st : KvarnState}

/-- The writer: the rows and records of the sequence. -/
theorem kvarnStateWrite_spec {metadata : SavedMeta} (hKvarn : UnifiedKvarn source.cfg)
    (hRun : source.kvarnStateWrite s₀ metadata = .ok st) :
    st.metadata = metadata ∧
      st.stageCells = (((range (source.cells 0).size).filter (source.carriesCell s₀)).filter
        source.allocationCellUsesStage).map
          (fun i => ⟨i, kvarnStageRow source.tailGroups i⟩) ∧
      kvarnSelectStateRecordGroups
        ((range (source.cells 0).size).filter (source.carriesCell s₀)) st.stageCells
        source.groupsPerStream = .ok st.recordGroups := by
  unfold kvarnStateWrite at hRun
  obtain ⟨stageCells, hStage, hRun⟩ := exists_of_bind hRun
  obtain ⟨cells, hCells, hRun⟩ := exists_of_bind hRun
  obtain ⟨-, hList⟩ := stateSourceCells_spec hKvarn hCells
  change (kvarnSelectStateRecordGroups cells stageCells source.groupsPerStream >>= _) = _
    at hRun
  obtain ⟨groups, hGroups, hRun⟩ := exists_of_bind hRun
  cases hRun
  refine ⟨rfl, (stageCellsOf_spec hKvarn hStage).2, ?_⟩
  rw [← hList]
  exact hGroups

/-- What a read that returned has tested. -/
structure KvarnRead (s : Nat) (st : KvarnState) (placed : List (SavedCell × Nat))
    (remap : List (Nat × Nat)) (desired : List StageCell) (d : KvarnDelivery) (c c' : KvCache) :
    Prop where
  ran : readMeta s st.metadata c = .ok (placed, remap) c'
  selected : c'.stageCellsOf s = .ok desired
  complete : (installRows remap desired st.stageCells).length = desired.length
  splits : remapSplits remap = false
  mapped : ∀ g ∈ st.recordGroups, (recordDestination remap g).isSome = true
  restored : d.restored = placed.map fun x => (x.1.sourceCell, x.2)
  stage : d.stage = writeAll (installRows remap desired st.stageCells)
  records : d.records = writeAll (st.recordGroups.filterMap fun group =>
    (recordDestination remap group).map fun destination => (group, destination))

theorem kvarnStateRead_run {onDevice : Bool} {d : KvarnDelivery}
    (h : kvarnStateRead s onDevice st c = .ok d c') :
    ∃ placed remap desired, KvarnRead s st placed remap desired d c c' := by
  obtain ⟨⟨placed, remap⟩, c₁, hMeta, h⟩ := run_bind_inv h
  obtain ⟨c₂, _, hGet, h⟩ := run_bind_inv h
  cases hGet
  obtain ⟨_, c₂, hCheck, h⟩ := run_bind_inv h
  obtain ⟨-, hSame⟩ := liftSelect_ok hCheck
  obtain ⟨desired, c₃, hDesired, h⟩ := run_bind_inv h
  obtain ⟨hDesired, hSame'⟩ := liftSelect_ok hDesired
  rw [hSame', hSame] at h
  by_cases hComplete : (installRows remap desired st.stageCells).length ≠ desired.length
  · rw [if_pos hComplete] at h
    cases h
  rw [if_neg hComplete] at h
  by_cases hOffset : (remap.any fun x => decide (x.2 % kvarnGroup ≠ x.1 % kvarnGroup)) = true
  · rw [if_pos hOffset] at h
    cases h
  rw [if_neg hOffset] at h
  by_cases hSplits : remapSplits remap = true
  · rw [if_pos hSplits] at h
    cases h
  rw [if_neg hSplits] at h
  by_cases hMapped : (st.recordGroups.any fun group =>
      (recordDestination remap group).isNone) = true
  · rw [if_pos hMapped] at h
    cases h
  rw [if_neg hMapped] at h
  by_cases hStale : onDevice = true ∧
      (installRows remap desired st.stageCells).length ≠ st.stageCells.length
  · rw [if_pos hStale] at h
    cases h
  rw [if_neg hStale] at h
  cases h
  refine ⟨placed, remap, desired, hMeta, hDesired, not_not.mp hComplete,
    Bool.eq_false_iff.mpr hSplits, fun g hg => ?_, rfl, rfl, rfl⟩
  by_contra hNone
  refine hMapped (any_eq_true.mpr ⟨g, hg, ?_⟩)
  simpa using hNone

variable {remap : List (Nat × Nat)}

/-- The metadata part puts the cells where the plan says. -/
theorem readMeta_planned {metadata : SavedMeta} {placed : List (SavedCell × Nat)}
    (hKvarn : UnifiedKvarn c.cfg) (hOccupied : Occupied (c.cells 0))
    (hDivides : (c.cells 0).size % kvarnGroup = 0) (hCells : metadata.cells ≠ [])
    (hRun : readMeta s metadata c = .ok (placed, remap) c') :
    placed = plannedCells c s metadata ∧ placed.map Prod.fst = metadata.cells ∧
      Relocated s placed c c' ∧
      ((∃ mf, metadata = .manifest mf ∧ remap = placed.map (fun x => (x.1.sourceCell, x.2)) ∧
          ∀ x ∈ placed, ∀ y ∈ placed, x.2 / kvarnGroup = y.2 / kvarnGroup →
            x.1.sourceCell / kvarnGroup = y.1.sourceCell / kvarnGroup) ∨
        ∃ cells, metadata = .body cells ∧ remap = []) := by
  cases metadata with
  | manifest mf =>
    obtain ⟨restored, c₁, hInstall, hRun⟩ := run_bind_inv hRun
    cases hRun
    obtain ⟨groups, hPicked, hFlatten, hRelocated, hGroups⟩ :=
      stateV2Install_relocated hKvarn hOccupied hDivides (liftInstall_ok hInstall)
    have hZip : mf.savedCells.zip restored.flatten =
        mf.savedCells.map fun x => (x, remapCell kvarnGroup groups x) := by
      rw [hFlatten, map_prod_left_eq_zip]
    rw [hZip]
    refine ⟨?_, ?_, hRelocated, Or.inl ⟨mf, rfl, rfl, ?_⟩⟩
    · unfold plannedCells
      dsimp only
      rw [hPicked]
    · rw [List.map_map]
      exact map_id _
    intro x hx y hy hEq
    obtain ⟨a, ha, rfl⟩ := mem_map.mp hx
    obtain ⟨b, hb, rfl⟩ := mem_map.mp hy
    exact hGroups a ha b hb hEq
  | body cells =>
    obtain ⟨idxs, c₁, hBody, hRun⟩ := run_bind_inv hRun
    cases hRun
    have hNonempty : cells ≠ [] := hCells
    obtain ⟨hFind, hLength, hRelocated⟩ :=
      stateReadBody_relocated hKvarn hOccupied hNonempty hBody
    refine ⟨?_, map_fst_zip (by rw [hLength]), hRelocated, Or.inr ⟨cells, rfl, rfl⟩⟩
    unfold plannedCells
    dsimp only
    rw [hFind]

theorem recordDestination_some {g g' : Nat} (h : recordDestination remap g = some g') :
    ∃ x ∈ remap, x.1 / kvarnGroup = g ∧ x.2 / kvarnGroup = g' := by
  obtain ⟨x, hFind, rfl⟩ := map_eq_some_iff.mp h
  exact ⟨x, mem_of_find?_eq_some hFind, by simpa using find?_some hFind, rfl⟩

theorem recordDestination_eq (hSplits : remapSplits remap = false)
    {x : Nat × Nat} (hx : x ∈ remap) :
    recordDestination remap (x.1 / kvarnGroup) = some (x.2 / kvarnGroup) := by
  cases hDest : recordDestination remap (x.1 / kvarnGroup) with
  | none =>
    rw [recordDestination, map_eq_none_iff, find?_eq_none] at hDest
    exact absurd (decide_eq_true rfl) (hDest x hx)
  | some g =>
    obtain ⟨y, hy, hSource, rfl⟩ := recordDestination_some hDest
    rw [some.injEq]
    by_contra hne
    refine Bool.eq_false_iff.mp hSplits (any_eq_true.mpr ⟨y, hy, any_eq_true.mpr
      ⟨x, hx, ?_⟩⟩)
    exact decide_eq_true ⟨hSource, hne⟩

/-- A read of a state of the source meets the two sides of a handover. -/
theorem KvarnRead.handover {metadata : SavedMeta} {d : KvarnDelivery}
    {placed : List (SavedCell × Nat)} {desired : List StageCell}
    (hSource : UnifiedKvarn source.cfg) (hKvarn : UnifiedKvarn c.cfg)
    (hCollected : metadata.Collected source s₀)
    (hWrite : source.kvarnStateWrite s₀ metadata = .ok st)
    (hFst : placed.map Prod.fst = metadata.cells) (hRelocated : Relocated s placed c c')
    (hKind : (∃ mf, metadata = .manifest mf ∧
        remap = placed.map (fun x => (x.1.sourceCell, x.2)) ∧
        ∀ x ∈ placed, ∀ y ∈ placed, x.2 / kvarnGroup = y.2 / kvarnGroup →
          x.1.sourceCell / kvarnGroup = y.1.sourceCell / kvarnGroup) ∨
      ∃ cells, metadata = .body cells ∧ remap = [])
    (hRead : KvarnRead s st placed remap desired d c c') :
    ∃ cells, Handover kvarnGroup d.restored (takenCell remap) source.allocationCellUsesStage
        c'.allocationCellUsesStage cells d.records ∧
      d.stage = writeAll (handedRows d.restored (takenCell remap)
        source.allocationCellUsesStage cells (kvarnStageRow c'.tailGroups)) := by
  have hKvarn' : UnifiedKvarn c'.cfg := by rw [hRelocated.cfg]; exact hKvarn
  obtain ⟨-, hStage, hGroups⟩ := kvarnStateWrite_spec hSource hWrite
  obtain ⟨-, hDesired⟩ := stageCellsOf_spec hKvarn' hRead.selected
  generalize hList : ((range (c'.cells 0).size).filter (c'.carriesCell s)).filter
    c'.allocationCellUsesStage = cells at hDesired
  -- the sources of the restored cells are the cells the writer went through
  have hSources : d.restored.map Prod.fst =
      (range (source.cells 0).size).filter (source.carriesCell s₀) := by
    rw [hRead.restored, List.map_map, ← collectCells_sources hSource, ← hCollected, ← hFst,
      List.map_map]
    rfl
  have hInTable : ∀ p ∈ d.restored, p.1 < (source.cells 0).size := by
    intro p hp
    have hMem : p.1 ∈ d.restored.map Prod.fst := mem_map_of_mem hp
    rw [hSources] at hMem
    exact mem_range.mp (mem_of_mem_filter hMem)
  have hPairs : ∀ p ∈ d.restored, ∃ x ∈ placed, (x.1.sourceCell, x.2) = p := by
    intro p hp
    rw [hRead.restored] at hp
    exact mem_map.mp hp
  have hRows : installRows remap desired st.stageCells =
      handedRows d.restored (takenCell remap) source.allocationCellUsesStage cells
        (kvarnStageRow c'.tailGroups) := by
    rw [hDesired, hStage, installRows_eq, handedRows, hSources, List.filter_filter]
    simp only [Bool.and_comm]
  have hMemGroups : ∀ p ∈ d.restored, p.1 / kvarnGroup ∈ st.recordGroups ↔
      source.allocationCellUsesStage p.1 = false := by
    intro p hp
    have hMem : p.1 ∈ d.restored.map Prod.fst := mem_map_of_mem hp
    rw [hSources] at hMem
    rw [mem_recordGroups hGroups, hStage]
    constructor
    · rintro ⟨-, hNone⟩
      by_contra hStaged
      refine hNone _ (mem_map_of_mem (mem_filter.mpr ⟨hMem, ?_⟩)) rfl
      simpa using hStaged
    intro hNot
    refine ⟨⟨p.1, hMem, rfl⟩, fun x hx hGroup => ?_⟩
    obtain ⟨i, hi, rfl⟩ := mem_map.mp hx
    rw [mem_filter] at hi
    have hSize := mem_range.mp (mem_of_mem_filter hi.1)
    rw [usesStage_congr hSource (hInTable p hp) hSize hGroup.symm] at hNot
    rw [hNot] at hi
    cases hi.2
  refine ⟨cells, ⟨?_, ?_, ?_, ?_, ?_, ?_, ?_, ?_, ?_⟩, by rw [hRead.stage, hRows]⟩
  · rw [hSources]
    exact nodup_range.filter _
  · rw [hRead.restored, List.map_map]
    exact hRelocated.cells
  · rcases hKind with ⟨mf, -, hRemap, -⟩ | ⟨body, -, hRemap⟩
    · left
      intro p hp
      have hKeys : (remap.map Prod.fst).Nodup := by
        rw [hRemap, ← hRead.restored, hSources]
        exact nodup_range.filter _
      rw [takenCell, lookup_of_mem hKeys (by rw [hRemap, ← hRead.restored]; exact hp)]
      rfl
    right
    rw [hRemap]
    refine ⟨fun _ => rfl, fun p hp => ?_⟩
    by_contra hNot
    have hMapped := hRead.mapped _ ((hMemGroups p hp).mpr (by simpa using hNot))
    rw [hRemap] at hMapped
    cases hMapped
  · rw [← hList]
    exact (nodup_range.filter _).filter _
  · intro i hi
    rw [← hList] at hi
    exact of_mem_filter hi
  · intro p hp hTo
    obtain ⟨x, hx, rfl⟩ := hPairs p hp
    obtain ⟨hSize, hCarries⟩ := hRelocated.carries hKvarn hx
    rw [← hList]
    exact mem_filter.mpr
      ⟨mem_filter.mpr ⟨mem_range.mpr hSize, hCarries⟩, hTo⟩
  · have hComplete := hRead.complete
    rw [hRows, hDesired, handedRows, length_map, length_map] at hComplete
    exact hComplete
  · intro p hp hSealed
    have hGroup := (hMemGroups p hp).mpr hSealed
    rcases hKind with ⟨mf, -, hRemap, hApart⟩ | ⟨body, -, hRemap⟩
    · have hMem : p ∈ remap := by
        rw [hRemap, ← hRead.restored]
        exact hp
      rw [hRead.records]
      refine writeAll_mem ?_ (mem_filterMap.mpr ⟨_, hGroup, by
        rw [recordDestination_eq hRead.splits hMem]; rfl⟩)
      rw [map_filterMap]
      refine List.Nodup.filterMap ?_ (recordGroups_nodup hGroups)
      -- two source groups never share a destination group
      intro g g' dest hg hg'
      simp only [Option.map_map, Option.mem_def, Option.map_eq_some_iff, Function.comp_apply]
        at hg hg'
      obtain ⟨a, ha, rfl⟩ := hg
      obtain ⟨b, hb, hab⟩ := hg'
      obtain ⟨x, hx, rfl, rfl⟩ := recordDestination_some ha
      obtain ⟨y, hy, rfl, hEq⟩ := recordDestination_some hb
      rw [hRemap] at hx hy
      obtain ⟨u, hu, rfl⟩ := mem_map.mp hx
      obtain ⟨v, hv, rfl⟩ := mem_map.mp hy
      exact hApart u hu v hv (by rw [hEq, hab])
    have hMapped := hRead.mapped _ hGroup
    rw [hRemap] at hMapped
    cases hMapped
  intro p hp g hRecord
  rw [hRead.records] at hRecord
  have hWritten := writeAll_some hRecord
  obtain ⟨group, hGroup, hDest⟩ := mem_filterMap.mp hWritten
  obtain ⟨dest, -, hEq⟩ := Option.map_eq_some_iff.mp hDest
  rw [Prod.mk.injEq] at hEq
  rw [hEq.1] at hGroup
  exact (hMemGroups p hp).mp hGroup

/-- The condition on the plan is the one on rows and cells. -/
theorem kvarnFits_iff {metadata : SavedMeta} {placed : List (SavedCell × Nat)}
    {remap pairs : List (Nat × Nat)} (hKvarn : UnifiedKvarn c.cfg) (hs : s < c.cfg.nSeqMax)
    (hPlan : placed = plannedCells c s metadata) (hRelocated : Relocated s placed c c')
    (hPairs : pairs = placed.map fun x => (x.1.sourceCell, x.2))
    (hTaken : ∀ mf, metadata = .manifest mf → ∀ p ∈ pairs, takenCell remap p.1 = p.2)
    (hBody : ∀ cells, metadata = .body cells → remap = []) :
    Handover.Fits pairs (takenCell remap) (kvarnStageRow c'.tailGroups)
        source.allocationCellUsesStage c'.allocationCellUsesStage ↔
      KvarnFits source c s metadata := by
  have hMem : ∀ x ∈ placed, (x.1.sourceCell, x.2) ∈ pairs := fun x hx => by
    rw [hPairs]
    exact mem_map_of_mem hx
  have hStaged : ∀ x ∈ placed, c'.allocationCellUsesStage x.2 = true ↔
      StagedAfter c s placed (x.2 / kvarnGroup) := fun x hx =>
    hRelocated.usesStage hKvarn hs (hRelocated.carries hKvarn hx).1
  have hTail : c'.tailGroups = c.tailGroups := by rw [tailGroups, hRelocated.cfg, tailGroups]
  constructor
  · intro h
    rw [hTail] at h
    refine ⟨?_, ?_, ?_⟩ <;> rw [← hPlan]
    · intro x hx hFrom
      exact (hStaged x hx).mp (h.staged _ (hMem x hx) hFrom)
    · intro cells hCells x hx
      have hPlace := h.inPlace _ (hMem x hx)
      rw [hBody cells hCells] at hPlace
      exact hPlace
    intro x hx y hy hX hY hRow
    exact h.rows _ (hMem x hx) _ (hMem y hy) ((hStaged x hx).mpr hX) ((hStaged y hy).mpr hY)
      hRow
  rintro ⟨hFrom, hPlace, hRows⟩
  rw [← hPlan] at hFrom hPlace hRows
  have hPair : ∀ p ∈ pairs, ∃ x ∈ placed, (x.1.sourceCell, x.2) = p := by
    intro p hp
    rw [hPairs] at hp
    exact mem_map.mp hp
  refine ⟨fun p hp hStage => ?_, fun p hp => ?_, fun p hp q hq hP hQ hRow => ?_⟩
  · obtain ⟨x, hx, rfl⟩ := hPair p hp
    exact (hStaged x hx).mpr (hFrom x hx hStage)
  · cases hMetadata : metadata with
    | manifest mf => exact hTaken mf hMetadata p hp
    | body cells =>
      obtain ⟨x, hx, rfl⟩ := hPair p hp
      rw [hBody cells hMetadata]
      exact hPlace cells hMetadata x hx
  obtain ⟨x, hx, rfl⟩ := hPair p hp
  obtain ⟨y, hy, rfl⟩ := hPair q hq
  rw [hTail] at hRow
  exact hRows x hx y hy ((hStaged x hx).mp hP) ((hStaged y hy).mp hQ) hRow

/-- A self-contained restore that returns leaves every restored cell readable
exactly when the plan fits. -/
theorem kvarnStateRead_backed_iff {metadata : SavedMeta} {st : KvarnState} {onDevice : Bool}
    {d : KvarnDelivery} (hSource : UnifiedKvarn source.cfg) (hKvarn : UnifiedKvarn c.cfg)
    (hTable : KvCells.IndexInv (c.cells 0)) (hSize : (c.cells 0).size = c.cfg.size)
    (hCollected : metadata.Collected source s₀)
    (hWrite : source.kvarnStateWrite s₀ metadata = .ok st)
    (hRead : kvarnStateRead s onDevice st c = .ok d c') :
    Backed metadata d c' ↔ KvarnFits source c s metadata := by
  have hOccupied : Occupied (c.cells 0) := fun i t ht => used_of_member hTable ht
  have hDivides : (c.cells 0).size % kvarnGroup = 0 := by
    rw [hSize, ← hKvarn.groupSize]
    exact c.cfg.groups.2.2
  obtain ⟨placed, remap, desired, hRun⟩ := kvarnStateRead_run hRead
  have hMetadata := (kvarnStateWrite_spec hSource hWrite).1
  have hMeta := hRun.ran
  rw [hMetadata] at hMeta
  by_cases hCells : metadata.cells = []
  · obtain ⟨hPlaced, hPlan⟩ : placed = [] ∧ plannedCells c s metadata = [] := by
      cases metadata with
      | manifest mf =>
        obtain ⟨restored, c₁, -, hReturn⟩ := run_bind_inv hMeta
        have hSaved : mf.savedCells = [] := hCells
        cases hReturn
        refine ⟨by rw [hSaved]; rfl, ?_⟩
        unfold plannedCells
        dsimp only
        split
        · rfl
        · rw [hSaved]
          rfl
      | body cells =>
        obtain ⟨idxs, c₁, -, hReturn⟩ := run_bind_inv hMeta
        have hSaved : cells = [] := hCells
        cases hReturn
        refine ⟨by rw [hSaved]; rfl, ?_⟩
        unfold plannedCells
        dsimp only
        split
        · rw [hSaved]
          rfl
        · rfl
    have hRestored : d.restored = [] := by rw [hRun.restored, hPlaced]; rfl
    constructor
    · intro _
      constructor <;> rw [hPlan] <;> simp
    intro _
    refine ⟨by rw [hRestored, hCells]; rfl, ?_⟩
    rw [hRestored]
    exact fun p hp => absurd hp not_mem_nil
  obtain ⟨hPlan, hFst, hRelocated, hKind⟩ :=
    readMeta_planned hKvarn hOccupied hDivides hCells hMeta
  have hKvarn' : UnifiedKvarn c'.cfg := by rw [hRelocated.cfg]; exact hKvarn
  have hs : s < c.cfg.nSeqMax := by
    rw [← hRelocated.cfg]
    exact (stageCellsOf_spec hKvarn' hRun.selected).1
  obtain ⟨cells, hHandover, hStage⟩ :=
    hRun.handover hSource hKvarn hCollected hWrite hFst hRelocated hKind
  have hTaken : ∀ mf, metadata = .manifest mf → ∀ p ∈ d.restored, takenCell remap p.1 = p.2 := by
    intro mf hManifest p hp
    rcases hKind with ⟨_, -, hRemap, -⟩ | ⟨body, hBody, -⟩
    · rw [takenCell, lookup_of_mem (by rw [hRemap, ← hRun.restored]; exact hHandover.sources)
        (by rw [hRemap, ← hRun.restored]; exact hp)]
      rfl
    · rw [hManifest] at hBody
      cases hBody
  have hNoRemap : ∀ body, metadata = .body body → remap = [] := by
    intro body hBody
    rcases hKind with ⟨mf, hManifest, -⟩ | ⟨_, -, hRemap⟩
    · rw [hBody] at hManifest
      cases hManifest
    · exact hRemap
  have hIff := @kvarnFits_iff source c c' s metadata placed remap d.restored hKvarn hs hPlan
    hRelocated hRun.restored hTaken hNoRemap
  constructor
  · rintro ⟨-, hData⟩
    rw [hStage] at hData
    exact hIff.mp (hHandover.fits_of_handedOver hData)
  intro hKvarnFits
  have hFits := hIff.mpr hKvarnFits
  refine ⟨?_, ?_⟩
  · rw [hRun.restored, List.map_map, ← hFst, List.map_map]
    rfl
  · rw [hStage]
    exact hHandover.handedOver_of_fits hFits

end Restore

/-- Place one token of a sequence. -/
def decodeOne (s : Nat) (pos : Int) : CacheM Unit := do
  let c ← get
  let u : Ubatch := ⟨[{ pos, seqId := [s] }], [s], false⟩
  match c.findSlot u false with
  | .error e => throw e
  | .ok sinfo => applyUbatch sinfo u

/-- Sequence 1 is forked from sequence 0 after one token, so the second token
of sequence 0 opens group 1: its cells are 0 and 128. -/
def forkedCache : KvCache :=
  finalState (do decodeOne 0 0; seqCp 0 1 (-1) (-1); decodeOne 0 1) (new stageConfig)

/-- Sequence 0 of the forked cache, saved without its exact rows. -/
def forkedState : SavedMeta :=
  .manifest { bodyOnly := true, streams := [forkedCache.collectCells 0] }

/-- Save sequence 0 of a cache and restore it as sequence 0. -/
def saveAndRestore (source : KvCache) (metadata : SavedMeta) : KvarnM KvarnDelivery := do
  let st ← liftSelect (source.kvarnStateWrite 0 metadata)
  kvarnStateRead 0 false st

/-- Whether the restored cells are backed, if the restore returns. -/
def restoresBacked (source c : KvCache) (metadata : SavedMeta) : Option Bool :=
  match saveAndRestore source metadata c with
  | .error _ _ => none
  | .ok d c' =>
    some (decide (d.restored.map Prod.fst = metadata.cells.map fun x => x.sourceCell) &&
      decide (HandedOver kvarnGroup d.restored c'.allocationCellUsesStage
        (kvarnStageRow c'.tailGroups) d.stage d.records))

theorem restoresBacked_run {source c : KvCache} {metadata : SavedMeta} {b : Bool}
    (h : restoresBacked source c metadata = some b) :
    ∃ st d c', source.kvarnStateWrite 0 metadata = .ok st ∧
      kvarnStateRead 0 false st c = .ok d c' ∧ (Backed metadata d c' ↔ b = true) := by
  unfold restoresBacked at h
  cases hRun : saveAndRestore source metadata c with
  | error e c' =>
    rw [hRun] at h
    cases h
  | ok d c' =>
    rw [hRun] at h
    obtain ⟨st, c₁, hSelect, hRead⟩ := run_bind_inv hRun
    obtain ⟨hWrite, rfl⟩ := liftSelect_ok hSelect
    refine ⟨st, d, c', hWrite, hRead, ?_⟩
    rw [← some.inj h, Bool.and_eq_true, decide_eq_true_eq, decide_eq_true_eq]
    exact ⟨fun hBacked => ⟨hBacked.complete, hBacked.data⟩, fun hBoth => ⟨hBoth.1, hBoth.2⟩⟩

theorem stageConfig_unified : UnifiedKvarn stageConfig := ⟨rfl, rfl, rfl⟩

set_option maxRecDepth 20000 in
theorem forkedCache_unified : UnifiedKvarn forkedCache.cfg := by
  have hValues : forkedCache.cfg.nStream = 1 ∧ forkedCache.cfg.allocationGroupSize = kvarnGroup ∧
      forkedCache.cfg.swaType = .none := by decide +kernel
  exact ⟨hValues.1, hValues.2.1, hValues.2.2⟩

theorem forkedState_collected : forkedState.Collected forkedCache 0 := by
  exact append_nil _

set_option maxRecDepth 20000 in
theorem emptyCache_restores :
    restoresBacked forkedCache (new stageConfig) forkedState = some true := by
  decide +kernel

/-- Into an empty cache the cells go back to their own groups. -/
theorem emptyCache_fits : KvarnFits forkedCache (new stageConfig) 0 forkedState := by
  obtain ⟨st, d, c', hWrite, hRead, hBacked⟩ := restoresBacked_run emptyCache_restores
  have hIff := kvarnStateRead_backed_iff forkedCache_unified stageConfig_unified
    (KvCells.indexInv_blank 768) rfl forkedState_collected hWrite hRead
  exact hIff.mp (hBacked.mpr rfl)

/-- Another sequence has group zero. -/
def busyCache : KvCache := finalState (decodeOne 1 0) (new stageConfig)

set_option maxRecDepth 20000 in
theorem busyCache_restores : restoresBacked forkedCache busyCache forkedState = some false := by
  decide +kernel

/-- Where group zero is taken, cell 0 goes to the sealed group 1, for which the
state has no record. -/
theorem busyCache_not_backed : ∃ st d c',
    forkedCache.kvarnStateWrite 0 forkedState = .ok st ∧
    kvarnStateRead 0 false st busyCache = .ok d c' ∧ ¬ Backed forkedState d c' := by
  obtain ⟨st, d, c', hWrite, hRead, hBacked⟩ := restoresBacked_run busyCache_restores
  exact ⟨st, d, c', hWrite, hRead, fun h => Bool.false_ne_true (hBacked.mp h)⟩

end KvCache

end Beellama.Ports
