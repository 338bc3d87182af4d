import Beellama.Ports.KvStateRestore
import Beellama.Ports.Kvarn

/-!
# The stage slots of live groups

A structured cache keeps the incomplete head group of every sequence in an F16 stage, in a slot that
two live groups may both want.  Only `find_slot` looks at the slots.  A suffix removal reopens a group
that had given its slot back, and a self-contained restore takes any empty group.  `Staged` is what
a run keeps while these two stay clear of the slots of the other sequences.
-/

namespace Beellama.Ports

open Beellama.Verified TailStore List Function Finset KvCells

namespace KvCache

/-- The incomplete head group of a sequence. -/
def liveGroup (c : KvCache) (t : Nat) : Option Nat :=
  if c.allocationHeads t = 0 ∨ c.allocationHeads t % c.cfg.allocationGroupSize = 0 then none
  else some ((c.allocationHeads t - 1) / c.cfg.allocationGroupSize)

/-- The stage slot of a group of the cache. -/
def slotOf (c : KvCache) (group : Nat) : Nat := stageSlot c.cfg.allocationStageGroups group

/-- The live groups of distinct sequences occupy distinct stage slots. -/
def StageDistinct (c : KvCache) : Prop :=
  ∀ t < c.cfg.nSeqMax, ∀ u < c.cfg.nSeqMax, t ≠ u → ∀ g h,
    c.liveGroup t = some g → c.liveGroup u = some h → c.slotOf g ≠ c.slotOf h

/-- A live group of another sequence occupies the slot. -/
def SlotTaken (c : KvCache) (s slot : Nat) : Prop :=
  ∃ t < c.cfg.nSeqMax, t ≠ s ∧ ∃ h, c.liveGroup t = some h ∧ c.slotOf h = slot

/-- A table whose cells have one owner each and whose groups are owned by one
sequence. -/
structure Owned (cfg : CacheConfig) (cells : KvCells) : Prop where
  size : cells.size = cfg.size
  inTable : ∀ i t, t ∈ (cells.cell i).seq → i < cfg.size
  single : ∀ i, ((cells.cell i).pos = -1 ∧ (cells.cell i).seq = ∅) ∨
    ((cells.cell i).pos ≠ -1 ∧ ∃ t, (cells.cell i).seq = {t})
  pure : ∀ i j t u, i / cfg.allocationGroupSize = j / cfg.allocationGroupSize →
    t ∈ (cells.cell i).seq → u ∈ (cells.cell j).seq → t = u

variable {cells : KvCells} {i t : Nat}

theorem Owned.used {cfg : CacheConfig} (h : Owned cfg cells)
    (ht : t ∈ (cells.cell i).seq) : (cells.cell i).pos ≠ -1 := by
  rcases h.single i with ⟨-, hEmpty⟩ | ⟨hUsed, -⟩
  · rw [hEmpty] at ht
    exact absurd ht (notMem_empty t)
  · exact hUsed

/-- Cells that carry a sequence are in use and lie in the table. -/
def Occupied (cells : KvCells) : Prop :=
  ∀ i t, t ∈ (cells.cell i).seq → i < cells.size ∧ (cells.cell i).pos ≠ -1

theorem Owned.occupied {cfg : CacheConfig} (h : Owned cfg cells) :
    Occupied cells := fun i t ht => ⟨by rw [h.size]; exact h.inTable i t ht, h.used ht⟩

theorem Occupied.empty (h : Occupied cells)
    (hEmpty : (cells.cell i).pos = -1) : (cells.cell i).seq = ∅ := by
  rw [eq_empty_iff_forall_notMem]
  exact fun t ht => (h i t ht).2 hEmpty

/-- A structured cache whose heads stand behind a cell of their sequence and
whose live groups have slots of their own. -/
structure Staged (cfg : CacheConfig) (c : KvCache) : Prop extends Owned cfg (c.cells 0) where
  config : c.cfg = cfg
  heads : ∀ t < cfg.nSeqMax, c.allocationHeads t = 0 ∨
    t ∈ ((c.cells 0).cell (c.allocationHeads t - 1)).seq
  distinct : StageDistinct c

variable {s idx : Nat} {idxs : List Nat}

section Search

variable {cfg : CacheConfig} {c : KvCache}

theorem stageSlot_eq_zero {stageGroups group : Nat} :
    stageSlot stageGroups group = 0 ↔ group = 0 := by
  unfold stageSlot
  split <;> omega

variable {g : Nat}

theorem liveGroup_some (h : c.liveGroup t = some g) :
    c.allocationHeads t ≠ 0 ∧ c.allocationHeads t % c.cfg.allocationGroupSize ≠ 0 ∧
      g = (c.allocationHeads t - 1) / c.cfg.allocationGroupSize := by
  unfold liveGroup at h
  split at h
  · cases h
  rename_i hLive
  rw [not_or] at hLive
  cases h
  exact ⟨hLive.1, hLive.2, rfl⟩

/-- A cell of a group belongs to the cells that are tested for it. -/
theorem mem_groupCells {groupSize size : Nat} (hSize : 0 < groupSize) (hi : i < size) :
    i ∈ groupCells groupSize size (i / groupSize) := by
  unfold groupCells
  have hDiv := Nat.div_add_mod i groupSize
  have hMod := Nat.mod_lt i hSize
  rw [Nat.mul_comm] at hDiv
  simp only [mem_filter, mem_range'_1, decide_eq_true_eq]
  omega

/-- Every cell in use of a compatible group carries the sequence. -/
theorem compatible_member (h : Staged cfg c) (ht : t ∈ ((c.cells 0).cell i).seq)
    (hCompatible : compatible (c.cells 0) cfg.allocationGroupSize
      (i / cfg.allocationGroupSize) [s] = true) : t = s := by
  have hi := h.inTable i t ht
  have hCell := all_eq_true.mp hCompatible i
    (mem_groupCells cfg.groups.1 (by rw [h.size]; exact hi))
  rcases h.single i with ⟨-, hEmpty⟩ | ⟨hUsed, u, hSeq⟩
  · rw [hEmpty] at ht
    exact absurd ht (notMem_empty t)
  simp only [KvCells.isEmpty, hUsed, decide_false, Bool.false_or, KvCells.seqHas,
    all_cons, all_nil, Bool.and_true, Bool.and_eq_true, decide_eq_true_eq] at hCell
  rw [hSeq, Finset.mem_singleton] at ht
  rw [hSeq, Finset.mem_singleton] at hCell
  rw [ht, hCell.2]

/-- The group a head stands in holds a cell of its sequence. -/
theorem Staged.liveCell (h : Staged cfg c) (ht : t < cfg.nSeqMax)
    (hLive : c.liveGroup t = some g) :
    ∃ i, t ∈ ((c.cells 0).cell i).seq ∧ i / cfg.allocationGroupSize = g := by
  obtain ⟨hHead, -, hGroup⟩ := liveGroup_some hLive
  rw [h.config] at hGroup
  exact ⟨_, (h.heads t ht).resolve_left hHead, hGroup.symm⟩

/-- A live group of another sequence is not open to the tokens of `s`. -/
theorem Staged.notCompatible (h : Staged cfg c) (ht : t < cfg.nSeqMax)
    (hne : t ≠ s) (hLive : c.liveGroup t = some g) :
    compatible (c.cells 0) cfg.allocationGroupSize g [s] ≠ true := by
  intro hCompatible
  obtain ⟨i, hMem, hGroup⟩ := h.liveCell ht hLive
  rw [← hGroup] at hCompatible
  exact hne (compatible_member h hMem hCompatible)

/-- The frontiers are entered without a conflict, each under its slot. -/
theorem stageFrontiers_spec (hDistinct : StageDistinct c) (ss : List Nat)
    (hss : ∀ t ∈ ss, t < c.cfg.nSeqMax) (hNodup : ss.Nodup) (owners : Nat → Option Nat)
    (hFree : ∀ t ∈ ss, ∀ h, c.liveGroup t = some h → 0 < h →
      owners (c.slotOf h) = none ∨ owners (c.slotOf h) = some h) :
    ∃ owners', stageFrontiers c.cfg c.allocationHeads ss owners = .ok owners' ∧
      (∀ t ∈ ss, ∀ h, c.liveGroup t = some h → 0 < h → owners' (c.slotOf h) = some h) ∧
      ∀ slot, (∀ t ∈ ss, ∀ h, c.liveGroup t = some h → 0 < h → c.slotOf h ≠ slot) →
        owners' slot = owners slot := by
  induction ss generalizing owners with
  | nil => exact ⟨owners, rfl, by simp, fun _ _ => rfl⟩
  | cons t ss ih =>
    rw [nodup_cons] at hNodup
    have hRest : ∀ u ∈ ss, u < c.cfg.nSeqMax := fun u hu => hss u (mem_cons_of_mem t hu)
    unfold stageFrontiers
    by_cases hSkip : c.allocationHeads t = 0 ∨
        c.allocationHeads t % c.cfg.allocationGroupSize = 0 ∨
        (c.allocationHeads t - 1) / c.cfg.allocationGroupSize = 0
    · rw [if_pos hSkip]
      obtain ⟨owners', hRun, hEntered, hOther⟩ := ih hRest hNodup.2 owners fun u hu =>
        hFree u (mem_cons_of_mem t hu)
      have hNone : ∀ h, c.liveGroup t = some h → ¬ 0 < h := by
        intro h hLive
        obtain ⟨h₁, h₂, rfl⟩ := liveGroup_some hLive
        rcases hSkip with hZero | hMod | hGroup
        · exact absurd hZero h₁
        · exact absurd hMod h₂
        · omega
      refine ⟨owners', hRun, fun u hu h hLive hPos => ?_, fun slot hSlot => ?_⟩
      · rcases mem_cons.mp hu with rfl | hMem
        · exact absurd hPos (hNone h hLive)
        · exact hEntered u hMem h hLive hPos
      · exact hOther slot fun u hu => hSlot u (mem_cons_of_mem t hu)
    rw [if_neg hSkip]
    rw [not_or, not_or] at hSkip
    have hLive : c.liveGroup t =
        some ((c.allocationHeads t - 1) / c.cfg.allocationGroupSize) := by
      unfold liveGroup
      rw [if_neg]
      exact not_or.mpr ⟨hSkip.1, hSkip.2.1⟩
    generalize (c.allocationHeads t - 1) / c.cfg.allocationGroupSize = g at hSkip hLive ⊢
    have hPos : 0 < g := Nat.pos_of_ne_zero hSkip.2.2
    have hOwn := hFree t mem_cons_self g hLive hPos
    have hNoAlias : ¬ ((owners (stageSlot c.cfg.allocationStageGroups g)).any
        fun x => decide (x ≠ g)) = true := by
      change ¬ ((owners (c.slotOf g)).any fun x => decide (x ≠ g)) = true
      rcases hOwn with hNone | hSome
      · simp [hNone]
      · simp [hSome]
    rw [if_neg hNoAlias]
    -- the other frontiers have slots of their own
    have hApart : ∀ u ∈ ss, ∀ h, c.liveGroup u = some h → c.slotOf h ≠ c.slotOf g := by
      intro u hu h hLiveU
      have hne : u ≠ t := fun hEq => hNodup.1 (hEq ▸ hu)
      exact hDistinct u (hRest u hu) t (hss t mem_cons_self) hne h g hLiveU hLive
    obtain ⟨owners', hRun, hEntered, hOther⟩ := ih hRest hNodup.2
      (update owners (c.slotOf g) (some g)) fun u hu h hLiveU hPosU => by
        rw [update_of_ne (hApart u hu h hLiveU)]
        exact hFree u (mem_cons_of_mem t hu) h hLiveU hPosU
    refine ⟨owners', hRun, fun u hu h hLiveU hPosU => ?_, fun slot hSlot => ?_⟩
    · rcases mem_cons.mp hu with rfl | hMem
      · rw [hLive, Option.some.injEq] at hLiveU
        subst hLiveU
        rw [hOther (c.slotOf g) fun u hu h hLiveU _ => hApart u hu h hLiveU,
          update_self]
      · exact hEntered u hMem h hLiveU hPosU
    · rw [hOther slot fun u hu => hSlot u (mem_cons_of_mem t hu),
        update_of_ne (hSlot t mem_cons_self g hLive hPos).symm]

/-- The search starts, and every live group beside group zero owns its slot. -/
theorem groupSearch_spec (h : StageDistinct c) :
    ∃ st, groupSearch c = .ok st ∧
      (∀ t < c.cfg.nSeqMax, ∀ g, c.liveGroup t = some g → 0 < g →
        st.stageOwners (c.slotOf g) = some g) ∧
      st.groupUsed = fun group => ((List.range (c.cells 0).size).filter fun i =>
        i / c.cfg.allocationGroupSize = group ∧ !(c.cells 0).isEmpty i).length := by
  obtain ⟨owners, hRun, hEntered, -⟩ := stageFrontiers_spec h (range c.cfg.nSeqMax)
    (fun t ht => List.mem_range.mp ht) List.nodup_range
    (fun slot => if slot = 0 ∧ !(c.cells 0).isEmpty 0 then some 0 else none)
    (fun t _ g _ hPos => by
      have hSlot : c.slotOf g ≠ 0 := fun hZero => by
        have := stageSlot_eq_zero.mp hZero
        omega
      simp [hSlot])
  have hSearch : groupSearch c = .ok {
      heads := c.allocationHeads
      groupUsed := fun group => ((List.range (c.cells 0).size).filter fun i =>
        i / c.cfg.allocationGroupSize = group ∧ !(c.cells 0).isEmpty i).length
      stageOwners := owners } := by
    unfold groupSearch
    dsimp only
    rw [hRun]
    rfl
  exact ⟨_, hSearch, fun t ht g hLive hPos => hEntered t (List.mem_range.mpr ht) g hLive hPos, rfl⟩

/-- The live groups of the others own their slots, and a group that a token may still enter without
a test has a slot of its own. -/
structure SearchInv (c : KvCache) (s : Nat) (st : GroupSearch) : Prop where
  owners : ∀ t < c.cfg.nSeqMax, t ≠ s → ∀ g, c.liveGroup t = some g → 0 < g →
    st.stageOwners (c.slotOf g) = some g
  opened : ∀ i < (c.cells 0).size, (c.cells 0).isEmpty i = true →
    compatible (c.cells 0) c.cfg.allocationGroupSize (i / c.cfg.allocationGroupSize) [s] = true →
    st.groupUsed (i / c.cfg.allocationGroupSize) ≠ 0 →
    ¬ SlotTaken c s (c.slotOf (i / c.cfg.allocationGroupSize))

/-- An incomplete group that holds a cell of the sequence has a slot that no
other live group occupies. -/
def DecodeFits (c : KvCache) (s : Nat) : Prop :=
  ∀ i < (c.cells 0).size, ∀ j < (c.cells 0).size,
    i / c.cfg.allocationGroupSize = j / c.cfg.allocationGroupSize →
    (c.cells 0).isEmpty i = true → s ∈ ((c.cells 0).cell j).seq →
    ¬ SlotTaken c s (c.slotOf (i / c.cfg.allocationGroupSize))

theorem groupSearch_inv (h : Staged cfg c) (hFits : DecodeFits c s) :
    ∃ st, groupSearch c = .ok st ∧ SearchInv c s st := by
  obtain ⟨st, hRun, hOwners, hUsed⟩ := groupSearch_spec h.distinct
  refine ⟨st, hRun, fun t ht _ g hLive hPos => hOwners t ht g hLive hPos, ?_⟩
  intro i hi hEmpty hCompatible hGroup
  rw [hUsed] at hGroup
  obtain ⟨j, hj⟩ := exists_mem_of_length_pos (Nat.pos_of_ne_zero hGroup)
  simp only [List.mem_filter, List.mem_range, decide_eq_true_eq] at hj
  obtain ⟨hSize, hSame, hNonempty⟩ := hj
  rcases h.single j with ⟨hPos, -⟩ | ⟨-, t, hSeq⟩
  · simp [KvCells.isEmpty, hPos] at hNonempty
  have hMem : t ∈ ((c.cells 0).cell j).seq := by simp [hSeq]
  rw [h.config] at hCompatible hSame
  have hOwner : t = s := compatible_member h hMem (by rw [hSame]; exact hCompatible)
  subst hOwner
  exact hFits i hi j hSize (by rw [h.config, hSame]) hEmpty hMem

variable {st : GroupSearch}

theorem nextGroupCell_usable {seqs : List Nat} {tests head : Nat}
    (h : nextGroupCell c st seqs tests head = some idx) :
    groupUsable c st seqs idx = true := by
  induction tests generalizing head with
  | zero => cases h
  | succ tests ih =>
    unfold nextGroupCell at h
    dsimp only at h
    generalize (if (c.cells 0).size ≤ head then 0 else head) = i at h
    split at h
    · cases h
      assumption
    · exact ih h

/-- A cell the search hands out lies in a group whose slot no other live group
occupies. -/
theorem SearchInv.usable (hInv : SearchInv c s st)
    (h : Staged cfg c) (hSize : idx < (c.cells 0).size)
    (hUsable : groupUsable c st [s] idx = true) :
    ¬ SlotTaken c s (c.slotOf (idx / c.cfg.allocationGroupSize)) := by
  simp only [groupUsable, Bool.and_eq_true] at hUsable
  obtain ⟨⟨⟨-, hEmpty⟩, hCompatible⟩, hSlot⟩ := hUsable
  by_cases hUsed : st.groupUsed (idx / c.cfg.allocationGroupSize) = 0
  · rintro ⟨t, ht, hne, g, hLive, hSame⟩
    have hOther := h.notCompatible (by rw [← h.config]; exact ht) hne hLive
    rw [← h.config] at hOther
    have hGroup : g ≠ idx / c.cfg.allocationGroupSize := fun hEq => hOther (hEq ▸ hCompatible)
    by_cases hZero : g = 0
    · rw [hZero] at hSame hGroup
      have hZeroSlot : c.slotOf 0 = 0 := rfl
      exact hGroup (stageSlot_eq_zero.mp hSame.symm).symm
    have hOwner := hInv.owners t ht hne g hLive (Nat.pos_of_ne_zero hZero)
    rw [hSame] at hOwner
    simp only [slotOf] at hOwner
    simp [hUsed, hOwner, hGroup] at hSlot
  · exact hInv.opened idx hSize hEmpty hCompatible hUsed

theorem SearchInv.reserve (hInv : SearchInv c s st)
    (hFree : ¬ SlotTaken c s (c.slotOf (idx / c.cfg.allocationGroupSize))) :
    SearchInv c s (reserveCell c.cfg st [s] idx) := by
  constructor
  · intro t ht hne g hLive hPos
    have hApart : c.slotOf g ≠ stageSlot c.cfg.allocationStageGroups
        (idx / c.cfg.allocationGroupSize) := fun hEq => hFree ⟨t, ht, hne, g, hLive, hEq⟩
    have hOwner := hInv.owners t ht hne g hLive hPos
    simp only [reserveCell]
    split <;> split <;> simp [update_of_ne hApart, hOwner]
  intro i hi hEmpty hCompatible hUsed
  by_cases hGroup : i / c.cfg.allocationGroupSize = idx / c.cfg.allocationGroupSize
  · rw [hGroup]
    exact hFree
  · refine hInv.opened i hi hEmpty hCompatible ?_
    simpa [reserveCell, update_of_ne hGroup] using hUsed

/-- All cells found for a batch of one sequence lie in groups whose slots no
other live group occupies. -/
theorem groupSlots_free (h : Staged cfg c) {toks : List UbatchToken}
    (hToks : ∀ tok ∈ toks, tok.seqId = [s]) (hInv : SearchInv c s st)
    (hRun : groupSlots c toks st = .ok (some idxs)) :
    ∀ idx ∈ idxs, ¬ SlotTaken c s (c.slotOf (idx / c.cfg.allocationGroupSize)) := by
  induction toks generalizing st idxs with
  | nil =>
    cases hRun
    simp
  | cons tok toks ih =>
    have hSpec := (groupSlots_spec hRun).1
    unfold groupSlots at hRun
    rw [hToks tok mem_cons_self] at hRun
    split at hRun
    · cases hRun
    split at hRun
    · cases hRun
    split at hRun
    · cases hRun
    rename_i idx hIdx
    obtain ⟨rest, hRest, hRun⟩ := exists_of_bind hRun
    cases rest with
    | none => cases hRun
    | some rest =>
      cases hRun
      cases hSpec with
      | cons hOk _ =>
        have hFree := hInv.usable h hOk.inTable (nextGroupCell_usable hIdx)
        intro i hi
        rcases mem_cons.mp hi with rfl | hMem
        · exact hFree
        · exact ih (fun tok htok => hToks tok (mem_cons_of_mem _ htok))
            (hInv.reserve hFree) hRest i hMem

end Search

/-! ## Placing a batch of one sequence -/

/-- The step changes neither the cells nor the allocation heads. -/
structure SameTable (c c' : KvCache) : Prop where
  cfg : c'.cfg = c.cfg
  cells : c'.cells = c.cells
  heads : c'.allocationHeads = c.allocationHeads

theorem SameTable.refl (c : KvCache) : SameTable c c := ⟨rfl, rfl, rfl⟩

theorem SameTable.trans {c c' c'' : KvCache} (h : SameTable c c') (h' : SameTable c' c'') :
    SameTable c c'' :=
  ⟨h'.cfg.trans h.cfg, h'.cells.trans h.cells, h'.heads.trans h.heads⟩

variable {c c' : KvCache}

theorem onTail_same {α : Type} {skip a : α} {x : TailM α} (h : onTail skip x c = .ok a c') :
    SameTable c c' := by
  unfold onTail at h
  split at h
  · cases h
    exact .refl _
  split at h
  · cases h
    exact ⟨rfl, rfl, rfl⟩
  · cases h

theorem beginTailBatch_same {u : Unit} (h : beginTailBatch c = .ok u c') : SameTable c c' := by
  obtain ⟨c₀, _, hGet, h⟩ := run_bind_inv h
  cases hGet
  split at h
  · obtain ⟨_, c₁, hSet, h⟩ := run_bind_inv h
    cases hSet
    have hTail := onTail_same h
    exact ⟨hTail.cfg, hTail.cells, hTail.heads⟩
  · cases h
    exact .refl _

theorem recycleCell_same {stream : Nat} {u : Unit}
    (h : recycleCell stream idx c = .ok u c') : SameTable c c' := by
  obtain ⟨c₀, _, hGet, h⟩ := run_bind_inv h
  cases hGet
  split at h
  · obtain ⟨_, c₁, hSet, h⟩ := run_bind_inv h
    cases hSet
    have hTail := onTail_same h
    exact ⟨hTail.cfg, hTail.cells, hTail.heads⟩
  · cases h
    exact .refl _

/-- Only cell `idx` changed; the heads of `owners` moved behind it. -/
structure CellEntered (idx : Nat) (owners : List Nat) (pos : Int) (seq : Finset Nat)
    (c c' : KvCache) : Prop where
  cfg : c'.cfg = c.cfg
  size : (c'.cells 0).size = (c.cells 0).size
  others : ∀ j ≠ idx, (c'.cells 0).cell j = (c.cells 0).cell j
  pos : ((c'.cells 0).cell idx).pos = pos
  seq : ((c'.cells 0).cell idx).seq = seq
  heads : ∀ t, c'.allocationHeads t = if t ∈ owners then idx + 1 else c.allocationHeads t

variable {p : Placement} {pos : Int}

theorem addOwner_spec {owner : Nat} {u : Unit}
    (hGrouped : c.cfg.grouped = true) (h : addOwner p pos owner c = .ok u c') :
    SameTable ((c.setCells p.stream ((c.cells p.stream).seqAdd p.idx owner)).setAllocationHead
      owner (p.idx + 1)) c' := by
  obtain ⟨_, c₁, hAdd, h⟩ := run_bind_inv h
  cases hAdd
  obtain ⟨_, c₂, hHead, h⟩ := run_bind_inv h
  have hHead' : c₂ = (c.setCells p.stream
      ((c.cells p.stream).seqAdd p.idx owner)).setAllocationHead owner (p.idx + 1) := by
    cases hHead
    exact if_pos hGrouped
  rw [hHead'] at h
  obtain ⟨c₃, _, hGet, h⟩ := run_bind_inv h
  cases hGet
  split at h
  · obtain ⟨_, c₄, hSet, h⟩ := run_bind_inv h
    cases hSet
    obtain ⟨_, c₅, hCommit, h⟩ := run_bind_inv h
    cases h
    have hTail := onTail_same hCommit
    exact ⟨hTail.cfg, hTail.cells, hTail.heads⟩
  · cases h
    exact .refl _

/-- The owners of a token are entered one after the other. -/
theorem addOwners_spec (owners : List Nat) {u : PUnit} (hGrouped : c.cfg.grouped = true)
    (hStream : p.stream = 0)
    (h : owners.forM (addOwner p pos) c = .ok u c') :
    CellEntered p.idx owners ((c.cells 0).cell p.idx).pos
      (((c.cells 0).cell p.idx).seq ∪ owners.toFinset) c c' := by
  induction owners generalizing c with
  | nil =>
    cases h
    exact ⟨rfl, rfl, fun _ _ => rfl, rfl, by simp, fun t => by simp⟩
  | cons owner owners ih =>
    obtain ⟨_, c₁, hAdd, h⟩ := run_bind_inv h
    have hAdded := addOwner_spec hGrouped hAdd
    rw [hStream] at hAdded
    have hRest := ih (by rw [hAdded.cfg]; exact hGrouped) h
    have hTable : c₁.cells 0 = (c.cells 0).seqAdd p.idx owner := by
      rw [hAdded.cells]
      simp [setAllocationHead, setCells]
    have hCell := seqAdd_cell (c.cells 0) p.idx owner
    refine ⟨hRest.cfg.trans hAdded.cfg, ?_, ?_, ?_, ?_, ?_⟩
    · rw [hRest.size, hTable, seqAdd_size]
    · intro j hj
      rw [hRest.others j hj, hTable, hCell, update_of_ne hj]
    · rw [hRest.pos, hTable, hCell, update_self]
    · rw [hRest.seq, hTable, hCell, update_self, toFinset_cons,
        insert_union, union_insert]
    intro t
    have hHead : c₁.allocationHeads t =
        update c.allocationHeads owner (p.idx + 1) t := by
      rw [hAdded.heads]
      rfl
    rw [hRest.heads, hHead, update_apply]
    by_cases hMem : t ∈ owners
    · rw [if_pos hMem, if_pos (mem_cons_of_mem owner hMem)]
    · simp [hMem]

theorem resetCell_empty (u : Ubatch) (tok : UbatchToken) (hEmpty : cells.isEmpty idx = true) :
    (resetCell u tok idx cells).size = cells.size ∧
      (∀ j ≠ idx, (resetCell u tok idx cells).cell j = cells.cell j) ∧
      ((resetCell u tok idx cells).cell idx).pos = tok.pos ∧
      ((resetCell u tok idx cells).cell idx).seq = (cells.cell idx).seq := by
  unfold resetCell
  dsimp only
  split
  · rw [extSet_cell, posSet_cell]
    exact ⟨by simp, fun j hj => by simp [update_of_ne hj], by simp, by simp⟩
  · rw [posSet_cell]
    exact ⟨by simp, fun j hj => by simp [update_of_ne hj], by simp, by simp⟩

variable {u : Ubatch} {rm rm' : Nat → Int}

/-- A token placed on an empty cell overwrites nothing. -/
theorem placeToken_placed (hGrouped : c.cfg.grouped = true) (hStream : p.stream = 0)
    (hEmpty : (c.cells 0).isEmpty p.idx = true) (hSeq : ((c.cells 0).cell p.idx).seq = ∅)
    (h : placeToken u rm p c = .ok rm' c') :
    rm' = rm ∧ CellEntered p.idx (u.token p.token).seqId (u.token p.token).pos
      (u.token p.token).seqId.toFinset c c' := by
  obtain ⟨_, c₁, hRecycle, h⟩ := run_bind_inv h
  have hSame := recycleCell_same hRecycle
  obtain ⟨c₂, _, hGet, h⟩ := run_bind_inv h
  cases hGet
  obtain ⟨_, c₂, hSet, h⟩ := run_bind_inv h
  cases hSet
  obtain ⟨_, c₃, hOwners, h⟩ := run_bind_inv h
  have hLast : c' = c₃ := by
    cases h
    rfl
  have hRm : rm' = overwritten (c₁.cells p.stream) p.idx rm := by
    cases h
    rfl
  subst hLast
  have hGrouped₁ : c₁.cfg.grouped = true := by rw [hSame.cfg]; exact hGrouped
  have hAdded := addOwners_spec _ (c := c₁.setCells p.stream _) hGrouped₁ hStream hOwners
  obtain ⟨hSize, hOthers, hNewPos, hNewSeq⟩ :=
    resetCell_empty u (u.token p.token) hEmpty
  have hTable : (c₁.setCells p.stream
      (resetCell u (u.token p.token) p.idx (c₁.cells p.stream))).cells 0 =
      resetCell u (u.token p.token) p.idx (c.cells 0) := by
    rw [hStream, hSame.cells]
    exact update_self 0 _ c₁.cells
  refine ⟨?_, ⟨hAdded.cfg.trans hSame.cfg, ?_, ?_, ?_, ?_, ?_⟩⟩
  · rw [hRm, hStream, hSame.cells]
    unfold overwritten
    rw [if_pos hEmpty]
  · rw [hAdded.size, hTable, hSize]
  · intro j hj
    rw [hAdded.others j hj, hTable, hOthers j hj]
  · rw [hAdded.pos, hTable, hNewPos]
  · rw [hAdded.seq, hTable, hNewSeq, hSeq, empty_union]
  intro t
  rw [hAdded.heads t]
  change (if t ∈ (u.token p.token).seqId then p.idx + 1 else c₁.allocationHeads t) = _
  rw [hSame.heads]

/-- What placing tokens on empty cells does. -/
structure BatchPlaced (u : Ubatch) (ps : List Placement) (c c' : KvCache) : Prop where
  cfg : c'.cfg = c.cfg
  size : (c'.cells 0).size = (c.cells 0).size
  others : ∀ j, (∀ p ∈ ps, p.idx ≠ j) → (c'.cells 0).cell j = (c.cells 0).cell j
  placed : ∀ p ∈ ps, ((c'.cells 0).cell p.idx).pos = (u.token p.token).pos ∧
    ((c'.cells 0).cell p.idx).seq = (u.token p.token).seqId.toFinset
  heads : ∀ t, ((∀ p ∈ ps, t ∉ (u.token p.token).seqId) ∧
      c'.allocationHeads t = c.allocationHeads t) ∨
    ∃ p ∈ ps, t ∈ (u.token p.token).seqId ∧ c'.allocationHeads t = p.idx + 1

theorem BatchPlaced.nil (u : Ubatch) (c : KvCache) : BatchPlaced u [] c c :=
  ⟨rfl, rfl, fun _ _ => rfl, fun _ h => absurd h not_mem_nil, fun _ => Or.inl ⟨by simp, rfl⟩⟩

variable {ps : List Placement} {c₁ : KvCache}

theorem BatchPlaced.cons (h : CellEntered p.idx (u.token p.token).seqId (u.token p.token).pos
      (u.token p.token).seqId.toFinset c c₁)
    (h' : BatchPlaced u ps c₁ c') (hNew : ∀ q ∈ ps, q.idx ≠ p.idx) :
    BatchPlaced u (p :: ps) c c' := by
  constructor
  · exact h'.cfg.trans h.cfg
  · exact h'.size.trans h.size
  · intro j hj
    rw [List.forall_mem_cons] at hj
    rw [h'.others j hj.2, h.others j hj.1.symm]
  · intro q hq
    rcases mem_cons.mp hq with rfl | hMem
    · rw [h'.others q.idx hNew]
      exact ⟨h.pos, h.seq⟩
    · exact h'.placed q hMem
  intro t
  rcases h'.heads t with ⟨hNone, hSame⟩ | ⟨q, hq, hOwner, hHead⟩
  · by_cases hOwner : t ∈ (u.token p.token).seqId
    · exact Or.inr ⟨p, mem_cons_self, hOwner, by rw [hSame, h.heads, if_pos hOwner]⟩
    left
    rw [hSame, h.heads, if_neg hOwner]
    exact ⟨forall_mem_cons.mpr ⟨hOwner, hNone⟩, rfl⟩
  · exact Or.inr ⟨q, mem_cons_of_mem p hq, hOwner, hHead⟩

theorem placeTokens_placed (ps : List Placement) (hGrouped : c.cfg.grouped = true)
    (hPlaces : ∀ p ∈ ps, p.stream = 0 ∧ (c.cells 0).isEmpty p.idx = true ∧
      ((c.cells 0).cell p.idx).seq = ∅) (hNodup : (ps.map fun p => p.idx).Nodup)
    (h : ps.foldlM (placeToken u) rm c = .ok rm' c') : rm' = rm ∧ BatchPlaced u ps c c' := by
  induction ps generalizing c rm with
  | nil =>
    cases h
    exact ⟨rfl, .nil u _⟩
  | cons p ps ih =>
    obtain ⟨rm₁, c₁, hPlace, hRun⟩ := run_bind_inv h
    obtain ⟨hStream, hEmpty, hSeq⟩ := hPlaces p mem_cons_self
    obtain ⟨hRm, hPlaced⟩ := placeToken_placed hGrouped hStream hEmpty hSeq hPlace
    rw [List.map_cons, List.nodup_cons] at hNodup
    have hNew : ∀ q ∈ ps, q.idx ≠ p.idx := fun q hq hEq =>
      hNodup.1 (hEq ▸ mem_map_of_mem hq)
    have hLater : ∀ q ∈ ps, q.stream = 0 ∧ (c₁.cells 0).isEmpty q.idx = true ∧
        ((c₁.cells 0).cell q.idx).seq = ∅ := by
      intro q hq
      obtain ⟨hStream, hEmpty, hSeq⟩ := hPlaces q (mem_cons_of_mem p hq)
      have hOther := hPlaced.others q.idx (hNew q hq)
      refine ⟨hStream, ?_, ?_⟩
      · unfold KvCells.isEmpty at hEmpty ⊢
        rw [hOther]
        exact hEmpty
      · rw [hOther]
        exact hSeq
    obtain ⟨hRm', hRest⟩ := ih (by rw [hPlaced.cfg]; exact hGrouped) hLater hNodup.2 hRun
    exact ⟨hRm'.trans hRm, .cons hPlaced hRest hNew⟩

theorem purge_none {l : List Nat} {u : PUnit}
    (h : l.forM (purge fun _ => -1) c = .ok u c') : c' = c := by
  induction l generalizing c with
  | nil =>
    cases h
    rfl
  | cons s l ih =>
    obtain ⟨_, c₁, hPurge, h⟩ := run_bind_inv h
    have hSame : c₁ = c := by
      cases hPurge
      rfl
    rw [ih h, hSame]

theorem moveHeads_same (sinfo : SlotInfo) (c : KvCache) : SameTable c (moveHeads sinfo c) := by
  unfold moveHeads
  induction sinfo generalizing c with
  | nil => exact .refl c
  | cons r rs ih =>
    have hHead : SameTable c
        (c.setHead r.strm ((r.idxs.getLast?.map (· + 1)).getD 0)) := ⟨rfl, rfl, rfl⟩
    exact hHead.trans (ih _)

variable {c₂ : KvCache}

theorem BatchPlaced.congr (hPlaced : BatchPlaced u ps c₁ c₂) (h : SameTable c c₁)
    (h' : SameTable c₂ c') :
    BatchPlaced u ps c c' where
  cfg := by rw [h'.cfg, hPlaced.cfg, h.cfg]
  size := by rw [h'.cells, hPlaced.size, h.cells]
  others j hj := by rw [h'.cells, hPlaced.others j hj, h.cells]
  placed p hp := by
    rw [h'.cells]
    exact hPlaced.placed p hp
  heads t := by
    rw [h'.heads, ← h.heads]
    exact hPlaced.heads t

/-- The placements of one run of the structured search. -/
theorem placements_single (idxs : List Nat) :
    ((placements [⟨0, idxs⟩]).map fun p => p.idx) = idxs ∧
      ∀ p ∈ placements [⟨0, idxs⟩], p.stream = 0 ∧ idxs[p.token]? = some p.idx := by
  constructor
  · have hCells := congrArg (map Prod.snd) (placements_cells [⟨0, idxs⟩])
    simpa [comp_def] using hCells
  intro p hp
  obtain ⟨n, r, ii, hr, hi, hStream, hToken⟩ := mem_placements hp
  have hn : n = 0 := by
    have hLt := (List.getElem?_eq_some_iff.mp hr).1
    exact Nat.lt_one_iff.mp hLt
  subst hn
  cases hr
  rw [Nat.zero_mul, Nat.zero_add] at hToken
  exact ⟨hStream, hToken ▸ hi⟩

section Decode

variable {cfg : CacheConfig} {c c' : KvCache}

/-- A micro-batch of one sequence. -/
structure SingleSeq (u : Ubatch) (s : Nat) : Prop where
  owner : ∀ tok ∈ u.tokens, tok.seqId = [s]
  pos : ∀ tok ∈ u.tokens, 0 ≤ tok.pos

theorem applyUbatch_batchPlaced (hGrouped : c.cfg.grouped = true)
    (hCells : List.Forall₂ (fun _ idx => (c.cells 0).isEmpty idx = true) u.tokens idxs)
    (hNodup : idxs.Nodup) (h : Occupied (c.cells 0))
    (hApply : applyUbatch [⟨0, idxs⟩] u c = .ok () c') :
    BatchPlaced u (placements [⟨0, idxs⟩]) c c' := by
  obtain ⟨_, c₁, hBegin, hApply⟩ := run_bind_inv hApply
  obtain ⟨rm, c₂, hPlace, hApply⟩ := run_bind_inv hApply
  obtain ⟨_, c₃, hPurge, hApply⟩ := run_bind_inv hApply
  have hSame := beginTailBatch_same hBegin
  obtain ⟨hIdxs, hTokens⟩ := placements_single idxs
  have hPlaces : ∀ p ∈ placements [⟨0, idxs⟩], p.stream = 0 ∧
      (c₁.cells 0).isEmpty p.idx = true ∧ ((c₁.cells 0).cell p.idx).seq = ∅ := by
    intro p hp
    obtain ⟨hStream, hToken⟩ := hTokens p hp
    obtain ⟨tok, -, hEmpty⟩ := forall₂_getElem? hCells hToken
    rw [hSame.cells]
    exact ⟨hStream, hEmpty, h.empty (by simpa [KvCells.isEmpty] using hEmpty)⟩
  obtain ⟨hRm, hPlaced⟩ := placeTokens_placed _ (by rw [hSame.cfg]; exact hGrouped) hPlaces
    (by rw [hIdxs]; exact hNodup) hPlace
  rw [hRm] at hPurge
  have hLast : c' = moveHeads [⟨0, idxs⟩] c₂ := by
    rw [← purge_none hPurge]
    exact (EStateM.Result.ok.inj hApply).2.symm
  rw [hLast]
  exact hPlaced.congr hSame (moveHeads_same _ _)

theorem placement_token {R : UbatchToken → Nat → Prop}
    (hCells : List.Forall₂ R u.tokens idxs) (hp : p ∈ placements [⟨0, idxs⟩]) :
    u.token p.token ∈ u.tokens ∧ p.idx ∈ idxs ∧ R (u.token p.token) p.idx := by
  have hToken := ((placements_single idxs).2 p hp).2
  obtain ⟨tok, hTok, hR⟩ := forall₂_getElem? hCells hToken
  have hGet : u.token p.token = tok := by
    simp only [Ubatch.token, getD_eq_getElem?_getD, hTok, Option.getD_some]
  rw [hGet]
  exact ⟨mem_of_getElem? hTok, mem_of_getElem? hToken, hR⟩

/-- What placing tokens of sequence `s` on the cells `idxs` does. -/
structure TokensPlaced (s : Nat) (idxs : List Nat) (c c' : KvCache) : Prop where
  cfg : c'.cfg = c.cfg
  size : (c'.cells 0).size = (c.cells 0).size
  others : ∀ j ∉ idxs, (c'.cells 0).cell j = (c.cells 0).cell j
  placed : ∀ j ∈ idxs, ((c'.cells 0).cell j).seq = {s} ∧ ((c'.cells 0).cell j).pos ≠ -1
  headsOther : ∀ t ≠ s, c'.allocationHeads t = c.allocationHeads t
  head : (idxs = [] ∧ c'.allocationHeads s = c.allocationHeads s) ∨
    ∃ i ∈ idxs, c'.allocationHeads s = i + 1

theorem TokensPlaced.congr (hPlaced : TokensPlaced s idxs c₁ c₂) (h : SameTable c c₁)
    (h' : SameTable c₂ c') :
    TokensPlaced s idxs c c' where
  cfg := by rw [h'.cfg, hPlaced.cfg, h.cfg]
  size := by rw [h'.cells, hPlaced.size, h.cells]
  others j hj := by rw [h'.cells, hPlaced.others j hj, h.cells]
  placed j hj := by
    rw [h'.cells]
    exact hPlaced.placed j hj
  headsOther t ht := by rw [h'.heads, hPlaced.headsOther t ht, h.heads]
  head := by
    rw [h'.heads, ← h.heads]
    exact hPlaced.head

theorem applyUbatch_placed (hOwner : ∀ tok ∈ u.tokens, tok.seqId = [s])
    (hPos : ∀ tok ∈ u.tokens, tok.pos ≠ -1) (hGrouped : c.cfg.grouped = true)
    (hCells : List.Forall₂ (fun _ idx => (c.cells 0).isEmpty idx = true) u.tokens idxs)
    (hNodup : idxs.Nodup) (h : Occupied (c.cells 0))
    (hApply : applyUbatch [⟨0, idxs⟩] u c = .ok () c') : TokensPlaced s idxs c c' := by
  have hPlaced := applyUbatch_batchPlaced hGrouped hCells hNodup h hApply
  obtain ⟨hIdxs, -⟩ := placements_single idxs
  have hAt : ∀ p ∈ placements [⟨0, idxs⟩], p.idx ∈ idxs ∧ (u.token p.token).seqId = [s] ∧
      (u.token p.token).pos ≠ -1 := by
    intro p hp
    obtain ⟨hTok, hMem, -⟩ := placement_token hCells hp
    exact ⟨hMem, hOwner _ hTok, hPos _ hTok⟩
  have hPlace : ∀ j ∈ idxs, ∃ p ∈ placements [⟨0, idxs⟩], p.idx = j := by
    intro j hj
    rw [← hIdxs] at hj
    exact mem_map.mp hj
  refine ⟨hPlaced.cfg, hPlaced.size, ?_, ?_, ?_, ?_⟩
  · intro j hj
    exact hPlaced.others j fun p hp hEq => hj (hEq ▸ (hAt p hp).1)
  · intro j hj
    obtain ⟨p, hp, rfl⟩ := hPlace j hj
    obtain ⟨-, hSeq, hUsed⟩ := hAt p hp
    obtain ⟨hNewPos, hNewSeq⟩ := hPlaced.placed p hp
    rw [hNewPos, hNewSeq, hSeq]
    exact ⟨rfl, hUsed⟩
  · intro t ht
    rcases hPlaced.heads t with ⟨-, hSame⟩ | ⟨p, hp, hMem, -⟩
    · exact hSame
    · rw [(hAt p hp).2.1, List.mem_singleton] at hMem
      exact absurd hMem ht
  rcases hPlaced.heads s with ⟨hNone, hSame⟩ | ⟨p, hp, -, hHead⟩
  · left
    refine ⟨eq_nil_iff_forall_not_mem.mpr fun j hj => ?_, hSame⟩
    obtain ⟨p, hp, -⟩ := hPlace j hj
    refine hNone p hp ?_
    rw [(hAt p hp).2.1]
    exact List.mem_singleton_self s
  · exact Or.inr ⟨p.idx, (hAt p hp).1, hHead⟩

/-- The live group of a sequence whose head did not move. -/
theorem liveGroup_congr (hCfg : c'.cfg = c.cfg)
    (hHead : c'.allocationHeads t = c.allocationHeads t) : c'.liveGroup t = c.liveGroup t := by
  unfold liveGroup
  rw [hCfg, hHead]

/-- Only the head of `s` moved, into a group whose slot no other live group
occupies. -/
theorem StageDistinct.moved (h : StageDistinct c) (hCfg : c'.cfg = c.cfg)
    (hOther : ∀ t ≠ s, c'.allocationHeads t = c.allocationHeads t)
    (hFree : s < c.cfg.nSeqMax → ∀ g, c'.liveGroup s = some g → ¬ SlotTaken c s (c.slotOf g)) :
    StageDistinct c' := by
  have hSlot : ∀ g, c'.slotOf g = c.slotOf g := fun g => by unfold slotOf; rw [hCfg]
  intro t ht u hu hne g k hLive hLive'
  rw [hCfg] at ht hu
  rw [hSlot, hSlot]
  by_cases hts : t = s
  · subst hts
    rw [liveGroup_congr hCfg (hOther u hne.symm)] at hLive'
    exact fun hEq => hFree ht g hLive ⟨u, hu, hne.symm, k, hLive', hEq.symm⟩
  rw [liveGroup_congr hCfg (hOther t hts)] at hLive
  by_cases hus : u = s
  · subst hus
    exact fun hEq => hFree hu k hLive' ⟨t, ht, hne, g, hLive, hEq⟩
  · rw [liveGroup_congr hCfg (hOther u hus)] at hLive'
    exact h t ht u hu hne g k hLive hLive'

/-- A batch of one sequence keeps the invariant. -/
theorem Staged.decode (h : Staged cfg c) (hBatch : SingleSeq u s)
    (hGrouped : cfg.grouped = true) (hFits : DecodeFits c s) {sinfo : SlotInfo}
    (hFind : c.findSlot u false = .ok sinfo) (hFound : sinfo ≠ [])
    (hApply : applyUbatch sinfo u c = .ok () c') : Staged cfg c' := by
  have hGrouped' : c.cfg.grouped = true := by rw [h.config]; exact hGrouped
  rcases findSlot_cases hFind hFound with ⟨-, st, idxs, hSearch, hSlots, rfl⟩ | ⟨hPlain, -⟩ |
    ⟨hPlain, -⟩
  · obtain ⟨st', hSearch', hInv⟩ := groupSearch_inv h hFits
    rw [hSearch] at hSearch'
    cases hSearch'
    have hFree := groupSlots_free h hBatch.owner hInv hSlots
    obtain ⟨hCells, hNodup, -, -⟩ := groupSlots_spec hSlots
    have hPlaced := applyUbatch_placed hBatch.owner
      (fun tok hTok => by have := hBatch.pos tok hTok; omega) hGrouped'
      (hCells.imp fun _ _ hOk => hOk.empty) hNodup h.occupied hApply
    have hOk : ∀ i ∈ idxs, GroupCellOk c [s] i := by
      intro i hi
      obtain ⟨n, hn⟩ := getElem?_of_mem hi
      obtain ⟨tok, hTok, hOk⟩ := forall₂_getElem? hCells hn
      rwa [hBatch.owner tok (mem_of_getElem? hTok)] at hOk
    -- a cell of the new table is an old one, or a new one of `s`
    have hMember : ∀ i t, t ∈ ((c'.cells 0).cell i).seq →
        (i ∈ idxs ∧ t = s) ∨ (i ∉ idxs ∧ t ∈ ((c.cells 0).cell i).seq) := by
      intro i t ht
      by_cases hi : i ∈ idxs
      · rw [(hPlaced.placed i hi).1, Finset.mem_singleton] at ht
        exact Or.inl ⟨hi, ht⟩
      · rw [hPlaced.others i hi] at ht
        exact Or.inr ⟨hi, ht⟩
    have hOld : ∀ i j t, i ∈ idxs → t ∈ ((c.cells 0).cell j).seq →
        i / cfg.allocationGroupSize = j / cfg.allocationGroupSize → t = s := by
      intro i j t hi ht hGroup
      have hCompatible := (hOk i hi).compatible
      rw [h.config, hGroup] at hCompatible
      exact compatible_member h ht hCompatible
    refine ⟨⟨hPlaced.size.trans h.size, ?_, ?_, ?_⟩, hPlaced.cfg.trans h.config, ?_, ?_⟩
    · intro i t ht
      rcases hMember i t ht with ⟨hi, -⟩ | ⟨-, hOldMem⟩
      · rw [← h.size]
        exact (hOk i hi).inTable
      · exact h.inTable i t hOldMem
    · intro i
      by_cases hi : i ∈ idxs
      · exact Or.inr ⟨(hPlaced.placed i hi).2, s, (hPlaced.placed i hi).1⟩
      · rw [hPlaced.others i hi]
        exact h.single i
    · intro i j t w hGroup ht hw
      rcases hMember i t ht with ⟨hi, rfl⟩ | ⟨-, hOldT⟩
      · rcases hMember j w hw with ⟨-, rfl⟩ | ⟨-, hOldW⟩
        · rfl
        · exact (hOld i j w hi hOldW hGroup).symm
      rcases hMember j w hw with ⟨hj, rfl⟩ | ⟨-, hOldW⟩
      · exact hOld j i t hj hOldT hGroup.symm
      · exact h.pure i j t w hGroup hOldT hOldW
    · intro t ht
      by_cases hts : t = s
      · subst hts
        rcases hPlaced.head with ⟨hNil, hSame⟩ | ⟨i, hi, hHead⟩
        · rw [hSame, hPlaced.others _ (by rw [hNil]; exact not_mem_nil)]
          exact h.heads t ht
        right
        rw [hHead, Nat.add_sub_cancel, (hPlaced.placed i hi).1]
        exact Finset.mem_singleton_self t
      rw [hPlaced.headsOther t hts]
      refine (h.heads t ht).imp id fun hMem => ?_
      rw [hPlaced.others _ fun hi => ?_]
      · exact hMem
      · exact hts (hOld _ _ t hi hMem rfl)
    refine h.distinct.moved hPlaced.cfg hPlaced.headsOther fun hs g hLive => ?_
    rcases hPlaced.head with ⟨-, hSame⟩ | ⟨i, hi, hHead⟩
    · rw [liveGroup_congr hPlaced.cfg hSame] at hLive
      rintro ⟨t, ht, hne, k, hLiveT, hSlot⟩
      exact h.distinct t ht s hs hne k g hLiveT hLive hSlot
    obtain ⟨-, -, rfl⟩ := liveGroup_some hLive
    rw [hHead, Nat.add_sub_cancel, hPlaced.cfg]
    exact hFree i hi
  · rw [hGrouped'] at hPlain
    cases hPlain
  · rw [hGrouped'] at hPlain
    cases hPlain

end Decode

end KvCache

end Beellama.Ports
