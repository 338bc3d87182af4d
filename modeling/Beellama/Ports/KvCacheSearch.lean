import Beellama.Ports.KvCacheSlots
import Beellama.Verified.ExceptFold

/-!
# What `find_slot` returns

The slots of a successful search are distinct cells of the table, every run has
one slot for every token of its stream, and the run of a token lies in the
stream of the token's sequences.  The ring search returns after a bounded number
of turns.
-/

namespace Beellama.Ports

open Beellama.Verified List

namespace KvCache

/-! ## The ring search -/

variable {n : Nat}

section Ring

variable {cfg : CacheConfig} {cells : KvCells} {u : Ubatch} {cont : Bool} {seqId nTokens : Nat}

/-- What testing one cell does to the search. -/
structure Tested (st st' : RingSearch) : Prop where
  head : st'.head = st.head + 1
  tested : st'.tested = st.tested + 1
  idxs : st'.idxs = st.idxs ∨ st'.idxs = st.idxs ++ [st.head]

variable {st st' : RingSearch}

theorem testCells_succ (h : testCells cfg cells u cont seqId (n + 1) st = .ok st') :
    ∃ st₁, Tested st st₁ ∧ (st' = st₁ ∨ testCells cfg cells u cont seqId n st₁ = .ok st') := by
  unfold testCells at h
  obtain ⟨usable, hUse, h⟩ := exists_of_bind h
  change (if usable = true then _ else _) = _ at h
  have hSkip : Tested st ⟨st.head + 1, st.tested + 1, st.idxs⟩ := ⟨rfl, rfl, Or.inl rfl⟩
  split at h
  · exact ⟨_, ⟨rfl, rfl, Or.inr rfl⟩, Or.inr h⟩
  split at h
  · cases h
    exact ⟨_, hSkip, Or.inl rfl⟩
  · exact ⟨_, hSkip, Or.inr h⟩

theorem testCells_tested (hn : 0 < n)
    (h : testCells cfg cells u cont seqId n st = .ok st') : st.tested < st'.tested := by
  induction n generalizing st with
  | zero => omega
  | succ n ih =>
    obtain ⟨st₁, hTested, rfl | hRest⟩ := testCells_succ h
    · have := hTested.tested
      omega
    have hStep := hTested.tested
    cases n with
    | zero =>
      cases hRest
      omega
    | succ n =>
      have hLt := ih (Nat.succ_pos n) hRest
      omega

/-- A bound on the turns the search still takes. -/
def turnsLeft (cells : KvCells) (nTest : Nat) (st : RingSearch) : Nat :=
  2 * (cells.size - st.tested) + if cells.size < st.head + nTest then 1 else 0

theorem turnsLeft_le (cells : KvCells) (nTest : Nat) (st : RingSearch) :
    turnsLeft cells nTest st ≤ 2 * (cells.size - st.tested) + 1 := by
  unfold turnsLeft
  split <;> omega

/-- The cells tested so far without `cont`: from the start to the head, or to
the end of the table and again from zero. -/
structure RingInv (cells : KvCells) (start : Nat) (st : RingSearch) : Prop where
  distinct : st.idxs.Nodup
  inTable : ∀ i ∈ st.idxs, i < cells.size
  more : st.tested < cells.size
  walked : (st.head = start + st.tested ∧ (st.head ≤ cells.size ∨ st.tested = 0) ∧
      ∀ i ∈ st.idxs, start ≤ i ∧ i < st.head) ∨
    (st.tested = (cells.size - start) + st.head ∧ ∀ i ∈ st.idxs, start ≤ i ∨ i < st.head)

theorem RingInv.fresh {start : Nat} (h : RingInv cells start st) : st.head ∉ st.idxs := by
  intro hMem
  have hMore := h.more
  rcases h.walked with ⟨-, -, hWalked⟩ | ⟨hTested, hWalked⟩
  · have := hWalked _ hMem
    omega
  · rcases hWalked _ hMem with hLe | hLt <;> omega

end Ring

/-! ## The structured allocator -/

/-- A cell the structured allocator hands out is free, and its group, when in use, is owned by the
sequences of the token. -/
structure GroupCellOk (c : KvCache) (seqs : List Nat) (idx : Nat) : Prop where
  inTable : idx < (c.cells 0).size
  empty : (c.cells 0).isEmpty idx = true
  compatible : compatible (c.cells 0) c.cfg.allocationGroupSize
    (idx / c.cfg.allocationGroupSize) seqs = true

variable {c : KvCache}

theorem nextGroupCell_spec {st : GroupSearch} {seqs : List Nat}
    {tests head idx : Nat} (hSize : 0 < (c.cells 0).size)
    (h : nextGroupCell c st seqs tests head = some idx) :
    GroupCellOk c seqs idx ∧ st.reserved idx = false := by
  induction tests generalizing head with
  | zero => cases h
  | succ tests ih =>
    have hIn : (if (c.cells 0).size ≤ head then 0 else head) < (c.cells 0).size := by
      split <;> omega
    unfold nextGroupCell at h
    dsimp only at h
    generalize (if (c.cells 0).size ≤ head then 0 else head) = i at h hIn
    split at h
    · rename_i hUsable
      cases h
      simp only [groupUsable, Bool.and_eq_true, Bool.not_eq_true'] at hUsable
      exact ⟨⟨hIn, hUsable.1.1.2, hUsable.1.2⟩, hUsable.1.1.1⟩
    · exact ih h

theorem groupSlots_spec {toks : List UbatchToken} {st : GroupSearch}
    {idxs : List Nat} (h : groupSlots c toks st = .ok (some idxs)) :
    List.Forall₂ (fun tok idx => GroupCellOk c tok.seqId idx) toks idxs ∧ idxs.Nodup ∧
      (∀ i ∈ idxs, st.reserved i = false) ∧
      ∀ tok ∈ toks, tok.seqId ≠ [] ∧ ∀ s ∈ tok.seqId, s < c.cfg.nSeqMax := by
  induction toks generalizing st idxs with
  | nil =>
    cases h
    exact ⟨.nil, nodup_nil, by simp, by simp⟩
  | cons tok toks ih =>
    unfold groupSlots at h
    split at h
    · cases h
    rename_i owner hOwner
    split at h
    · cases h
    rename_i hOwners
    split at h
    · cases h
    rename_i idx hIdx
    have hSize : 0 < (c.cells 0).size := by
      by_contra hZero
      rw [Nat.eq_zero_of_not_pos hZero] at hIdx
      cases hIdx
    obtain ⟨hOk, hFree⟩ := nextGroupCell_spec hSize hIdx
    obtain ⟨rest, hRest, h⟩ := exists_of_bind h
    cases rest with
    | none => cases h
    | some rest =>
      cases h
      obtain ⟨hCells, hDistinct, hReserved, hToks⟩ := ih hRest
      have hApart : ∀ i ∈ rest, st.reserved i = false ∧ i ≠ idx := by
        intro i hi
        have hNot := hReserved i hi
        simp only [reserveCell, Function.update_apply] at hNot
        split at hNot
        · cases hNot
        · exact ⟨hNot, ‹_›⟩
      refine ⟨.cons hOk hCells, nodup_cons.mpr ⟨?_, hDistinct⟩, ?_, ?_⟩
      · exact fun hMem => (hApart idx hMem).2 rfl
      · intro i hi
        rcases mem_cons.mp hi with rfl | hi
        · exact hFree
        · exact (hApart i hi).1
      intro t ht
      rcases mem_cons.mp ht with rfl | ht
      · constructor
        · rintro hNil
          rw [hNil] at hOwner
          cases hOwner
        · simpa using hOwners
      · exact hToks t ht

/-! ## The slots of a micro-batch -/

variable {sinfo : SlotInfo}

theorem findSlot_cases {u : Ubatch}
    (h : c.findSlot u false = .ok sinfo) (hFound : sinfo ≠ []) :
    (c.cfg.grouped = true ∧ ∃ st idxs, groupSearch c = .ok st ∧
        groupSlots c u.tokens st = .ok (some idxs) ∧ sinfo = [⟨0, idxs⟩]) ∨
      (c.cfg.grouped = false ∧ 1 < c.cfg.nStream ∧
        ringRuns c u false (u.tokens.length / u.seqIdUnq.length) u.seqIdUnq 0 =
          .ok (some sinfo)) ∨
      (c.cfg.grouped = false ∧ ¬ 1 < c.cfg.nStream ∧
        ringRuns c u false u.tokens.length (u.seqIdUnq.take 1) 0 = .ok (some sinfo)) := by
  have hRuns : ∀ x : Except CacheError (Option SlotInfo),
      (x >>= fun runs => pure (runs.getD [])) = .ok sinfo → x = .ok (some sinfo) := by
    intro x hx
    cases x with
    | error e => cases hx
    | ok runs =>
      cases runs with
      | none =>
        cases hx
        exact absurd rfl hFound
      | some runs =>
        cases hx
        rfl
  unfold findSlot at h
  dsimp only at h
  split at h
  · cases h
  split at h
  · rename_i hGrouped
    cases hSearch : groupSearch c with
    | error e =>
      rw [hSearch] at h
      cases h
    | ok st =>
      rw [hSearch] at h
      change (groupSlots c u.tokens st >>= fun idxs =>
        pure ((idxs.map fun idxs => [(⟨0, idxs⟩ : SlotRun)]).getD [])) = _ at h
      obtain ⟨found, hSlots, h⟩ := exists_of_bind h
      cases found with
      | none =>
        cases h
        exact absurd rfl hFound
      | some idxs =>
        cases h
        exact Or.inl ⟨hGrouped.1, st, idxs, rfl, hSlots, rfl⟩
  rename_i hGrouped
  have hPlain : c.cfg.grouped = false := by simpa using hGrouped
  split at h
  · exact Or.inr (Or.inl ⟨hPlain, ‹_›, hRuns _ h⟩)
  · exact Or.inr (Or.inr ⟨hPlain, ‹_›, hRuns _ h⟩)

theorem mem_placements {p : Placement} (h : p ∈ placements sinfo) :
    ∃ s r ii, sinfo[s]? = some r ∧ r.idxs[ii]? = some p.idx ∧ p.stream = r.strm ∧
      p.token = s * slotCount sinfo + ii := by
  obtain ⟨x, hx, hp⟩ := mem_flatMap.mp h
  obtain ⟨y, hy, rfl⟩ := mem_map.mp hp
  refine ⟨x.2, x.1, y.2, ?_, ?_, rfl, rfl⟩
  · exact mem_zipIdx_iff_getElem?.mp hx
  · exact mem_zipIdx_iff_getElem?.mp hy

theorem forall₂_getElem? {α β : Type} {R : α → β → Prop} {l : List α} {l' : List β}
    (h : List.Forall₂ R l l') {b : β} (hb : l'[n]? = some b) :
    ∃ a, l[n]? = some a ∧ R a b := by
  induction h generalizing n with
  | nil => cases hb
  | @cons a b' _ _ hab _ ih =>
    cases n with
    | zero =>
      cases hb
      exact ⟨a, rfl, hab⟩
    | succ n => exact ih hb

theorem placements_cells (sinfo : SlotInfo) :
    ((placements sinfo).map fun p => (p.stream, p.idx)) =
      sinfo.flatMap fun r => r.idxs.map fun i => (r.strm, i) := by
  unfold placements
  rw [map_flatMap]
  have hRun : ∀ x : SlotRun × Nat,
      ((x.1.idxs.zipIdx.map fun y => (⟨x.1.strm, y.1, x.2 * slotCount sinfo + y.2⟩ : Placement)).map
        fun p => (p.stream, p.idx)) = x.1.idxs.map fun i => (x.1.strm, i) := by
    intro x
    rw [map_map]
    conv_rhs => rw [← zipIdx_map_fst 0 x.1.idxs]
    rw [map_map]
    rfl
  simp only [hRun]
  conv_rhs => rw [← zipIdx_map_fst 0 sinfo]
  rw [flatMap_map]

end KvCache

end Beellama.Ports
