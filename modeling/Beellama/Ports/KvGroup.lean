import Beellama.Ports.KvCacheFrame
import Beellama.Ports.KvStageRun
import Beellama.Verified.Run

/-!
# The owners of record groups

A structured unified cache reserves whole record groups for one exact set of sequences.  `find_slot`
tests the committed cells alone, so two tokens of one batch with different owners may both enter
a group that is still empty.  A batch is safe when at most one of its owner sets has to open a group.
-/

namespace Beellama.Ports

open Beellama.Verified List Function Finset Triple KvCells

namespace KvCache

/-- The cells in use of one record group belong to the same sequences. -/
def GroupsOwned (c : KvCache) : Prop :=
  ∀ i j, i / c.cfg.allocationGroupSize = j / c.cfg.allocationGroupSize →
    (c.cells 0).isEmpty i = false → (c.cells 0).isEmpty j = false →
    ∀ s, (c.cells 0).seqHas i s = (c.cells 0).seqHas j s

/-- The free cell `i` lies in a group in use that the sequences `S` own. -/
structure HomeCell (c : KvCache) (S : Finset Nat) (i : Nat) : Prop where
  inTable : i < (c.cells 0).size
  empty : (c.cells 0).isEmpty i = true
  used : ∃ j < (c.cells 0).size, j / c.cfg.allocationGroupSize = i / c.cfg.allocationGroupSize ∧
    ((c.cells 0).cell j).pos ≠ -1
  owners : ∀ j < (c.cells 0).size,
    j / c.cfg.allocationGroupSize = i / c.cfg.allocationGroupSize →
    ((c.cells 0).cell j).pos ≠ -1 → ((c.cells 0).cell j).seq = S

/-- The number of tokens the sequences `S` own. -/
def ownedTokens (S : Finset Nat) (toks : List UbatchToken) : Nat :=
  toks.countP fun tok => tok.seqId.toFinset = S

/-- The tokens of `S` fit right behind its head into groups that `S` owns, and no other owner set of
the batch moves the head. -/
def AtHome (c : KvCache) (u : Ubatch) (S : Finset Nat) : Prop :=
  ∃ owner ∈ S, (∀ t ∈ S, owner ≤ t) ∧
    (∀ tok ∈ u.tokens, owner ∈ tok.seqId → tok.seqId.toFinset = S) ∧
    ∀ k < ownedTokens S u.tokens, HomeCell c S (c.allocationHeads owner + k)

/-- Of two owner sets of the batch at least one is at home. -/
def GroupFits (c : KvCache) (u : Ubatch) : Prop :=
  (∀ tok ∈ u.tokens, tok.pos < int32Max) ∧
    ∀ tok ∈ u.tokens, ∀ tok' ∈ u.tokens, tok.seqId.toFinset ≠ tok'.seqId.toFinset →
      AtHome c u tok.seqId.toFinset ∨ AtHome c u tok'.seqId.toFinset

/-! ## The compatibility test -/

variable {groupSize g i : Nat}

theorem mem_groupCells_iff {size : Nat} (hSize : 0 < groupSize) :
    i ∈ groupCells groupSize size g ↔ i < size ∧ i / groupSize = g := by
  constructor
  · unfold groupCells
    simp only [mem_filter, mem_range'_1, decide_eq_true_eq]
    rintro ⟨⟨hLo, hHi⟩, hIn⟩
    exact ⟨hIn, Nat.div_eq_of_lt_le hLo (by rw [Nat.succ_mul]; exact hHi)⟩
  · rintro ⟨hIn, rfl⟩
    exact mem_groupCells hSize hIn

variable {seqs : List Nat}

/-- The test asks for exactly the owners of the token. -/
theorem compatible_iff {cells : KvCells} (hSize : 0 < groupSize) (hNodup : seqs.Nodup) :
    compatible cells groupSize g seqs = true ↔
      ∀ j < cells.size, j / groupSize = g → (cells.cell j).pos ≠ -1 →
        (cells.cell j).seq = seqs.toFinset := by
  unfold compatible
  rw [all_eq_true]
  have hCell : ∀ j, (cells.isEmpty j || (decide (cells.seqCount j = seqs.length) &&
      seqs.all fun s => cells.seqHas j s)) = true ↔
      ((cells.cell j).pos ≠ -1 → (cells.cell j).seq = seqs.toFinset) := by
    intro j
    have hCard : seqs.toFinset.card = seqs.length := toFinset_card_of_nodup hNodup
    simp only [Bool.or_eq_true, Bool.and_eq_true, all_eq_true, decide_eq_true_eq,
      KvCells.isEmpty, KvCells.seqHas]
    unfold KvCells.seqCount
    constructor
    · rintro (hEmpty | ⟨hCount, hAll⟩) hUsed
      · exact absurd hEmpty hUsed
      · refine (Finset.eq_of_subset_of_card_le (fun s hs => hAll s (mem_toFinset.mp hs)) ?_).symm
        rw [hCount, hCard]
    intro hSeq
    by_cases hEmpty : (cells.cell j).pos = -1
    · exact Or.inl hEmpty
    · rw [hSeq hEmpty, hCard]
      exact Or.inr ⟨rfl, fun s hs => mem_toFinset.mpr hs⟩
  constructor
  · intro h j hj hGroup
    exact (hCell j).mp (h j ((mem_groupCells_iff hSize).mpr ⟨hj, hGroup⟩))
  intro h j hj
  obtain ⟨hIn, hGroup⟩ := (mem_groupCells_iff hSize).mp hj
  exact (hCell j).mpr (h j hIn hGroup)

/-! ## The search of an owner set that is at home -/

variable {st : GroupSearch} {idxs : List Nat} {u : Ubatch}

section Home

variable {c : KvCache} {S : Finset Nat} {owner : Nat}

theorem HomeCell.unique (h : HomeCell c S i) (hNodup : seqs.Nodup)
    (hCompatible : compatible (c.cells 0) c.cfg.allocationGroupSize
      (i / c.cfg.allocationGroupSize) seqs = true) : seqs.toFinset = S := by
  obtain ⟨j, hj, hGroup, hUsed⟩ := h.used
  rw [← (compatible_iff c.cfg.groups.1 hNodup).mp hCompatible j hj hGroup hUsed]
  exact h.owners j hj hGroup hUsed

/-- What the search still has ready for the tokens of `S`. -/
structure HomeInv (c : KvCache) (S : Finset Nat) (owner : Nat) (toks : List UbatchToken)
    (st : GroupSearch) : Prop where
  alone : ∀ tok ∈ toks, owner ∈ tok.seqId → tok.seqId.toFinset = S
  room : ∀ k < ownedTokens S toks, HomeCell c S (st.heads owner + k)
  free : ∀ k < ownedTokens S toks, st.reserved (st.heads owner + k) = false
  used : ∀ k < ownedTokens S toks,
    st.groupUsed ((st.heads owner + k) / c.cfg.allocationGroupSize) ≠ 0

variable {idx : Nat}

theorem foldl_update_heads {t : Nat} (seqs : List Nat) (heads : Nat → Nat) :
    seqs.foldl (fun heads s => Function.update heads s (idx + 1)) heads t =
      if t ∈ seqs then idx + 1 else heads t := by
  induction seqs generalizing heads with
  | nil => rfl
  | cons s seqs ih =>
    rw [foldl_cons, ih, update_apply]
    by_cases hMem : t ∈ seqs
    · rw [if_pos hMem, if_pos (mem_cons_of_mem s hMem)]
    · simp [hMem]

theorem reserveCell_heads (cfg : CacheConfig) (st : GroupSearch) (seqs : List Nat) (idx t : Nat) :
    (reserveCell cfg st seqs idx).heads t = if t ∈ seqs then idx + 1 else st.heads t :=
  foldl_update_heads seqs st.heads

theorem reserveCell_used {cfg : CacheConfig} (seqs : List Nat)
    (idx : Nat) (h : st.groupUsed g ≠ 0) : (reserveCell cfg st seqs idx).groupUsed g ≠ 0 := by
  simp only [reserveCell, update_apply]
  split
  · exact Nat.succ_ne_zero _
  · exact h

theorem reserveCell_reserved {cfg : CacheConfig} (hne : i ≠ idx) :
    (reserveCell cfg st seqs idx).reserved i = st.reserved i :=
  update_of_ne hne _ _

variable {tok : UbatchToken} {toks : List UbatchToken}

section

variable (h : HomeInv c S owner (tok :: toks) st)

include h

theorem HomeInv.other (hNodup : tok.seqId.Nodup)
    (hne : tok.seqId.toFinset ≠ S) (hOk : GroupCellOk c tok.seqId idx) :
    HomeInv c S owner toks (reserveCell c.cfg st tok.seqId idx) := by
  have hCount : ownedTokens S (tok :: toks) = ownedTokens S toks := by
    unfold ownedTokens
    rw [countP_cons_of_neg (by simpa using hne)]
  have hHead : (reserveCell c.cfg st tok.seqId idx).heads owner = st.heads owner := by
    rw [reserveCell_heads, if_neg fun hMem => hne (h.alone tok mem_cons_self hMem)]
  refine ⟨fun t ht => h.alone t (mem_cons_of_mem tok ht), ?_, ?_, ?_⟩
  · intro k hk
    rw [hHead]
    exact h.room k (hCount ▸ hk)
  · intro k hk
    rw [hHead, reserveCell_reserved]
    · exact h.free k (hCount ▸ hk)
    intro hEq
    have hCell := h.room k (hCount ▸ hk)
    rw [hEq] at hCell
    exact hne (hCell.unique hNodup hOk.compatible)
  intro k hk
  rw [hHead]
  exact reserveCell_used _ _ (h.used k (hCount ▸ hk))

theorem HomeInv.next (hNodup : tok.seqId.Nodup) (hSame : tok.seqId.toFinset = S) :
    nextGroupCell c st tok.seqId (c.cells 0).size (st.heads owner) = some (st.heads owner) := by
  have hCount : 0 < ownedTokens S (tok :: toks) := by
    unfold ownedTokens
    rw [countP_cons_of_pos (by simpa using hSame)]
    exact Nat.succ_pos _
  have hCell := h.room 0 hCount
  have hFree := h.free 0 hCount
  have hUsed := h.used 0 hCount
  rw [Nat.add_zero] at hCell hFree hUsed
  have hIn := hCell.inTable
  have hUsable : groupUsable c st tok.seqId (st.heads owner) = true := by
    have hCompatible := (compatible_iff c.cfg.groups.1 hNodup).mpr (hSame.symm ▸ hCell.owners)
    simp [groupUsable, hFree, hCell.empty, hCompatible, hUsed]
  obtain ⟨n, hn⟩ := Nat.exists_eq_succ_of_ne_zero (by omega : (c.cells 0).size ≠ 0)
  have hHere : (if (c.cells 0).size ≤ st.heads owner then 0 else st.heads owner) =
      st.heads owner := if_neg (by omega)
  rw [hn]
  unfold nextGroupCell
  rw [hHere, if_pos hUsable]

theorem HomeInv.own (hOwner : owner ∈ tok.seqId) (hSame : tok.seqId.toFinset = S) :
    HomeInv c S owner toks (reserveCell c.cfg st tok.seqId (st.heads owner)) := by
  have hCount : ownedTokens S (tok :: toks) = ownedTokens S toks + 1 := by
    unfold ownedTokens
    rw [countP_cons_of_pos (by simpa using hSame)]
  have hHead : (reserveCell c.cfg st tok.seqId (st.heads owner)).heads owner =
      st.heads owner + 1 := by rw [reserveCell_heads, if_pos hOwner]
  have hNext : ∀ k, st.heads owner + 1 + k = st.heads owner + (k + 1) := fun k => by omega
  refine ⟨fun t ht => h.alone t (mem_cons_of_mem tok ht), ?_, ?_, ?_⟩
  · intro k hk
    rw [hHead, hNext]
    exact h.room (k + 1) (by omega)
  · intro k hk
    rw [hHead, hNext, reserveCell_reserved (by omega)]
    exact h.free (k + 1) (by omega)
  intro k hk
  rw [hHead, hNext]
  exact reserveCell_used _ _ (h.used (k + 1) (by omega))

end

theorem min?_of_toFinset (hSame : seqs.toFinset = S) (hOwner : owner ∈ S)
    (hLeast : ∀ t ∈ S, owner ≤ t) : seqs.min? = some owner := by
  rw [min?_eq_some_iff]
  subst hSame
  exact ⟨mem_toFinset.mp hOwner, fun t ht => hLeast t (mem_toFinset.mpr ht)⟩

/-- The tokens of a set that is at home find cells in groups the set owns. -/
theorem groupSlots_home (hOwner : owner ∈ S) (hLeast : ∀ t ∈ S, owner ≤ t)
    (hNodup : ∀ tok ∈ toks, tok.seqId.Nodup) (h : HomeInv c S owner toks st)
    (hRun : groupSlots c toks st = .ok (some idxs)) :
    List.Forall₂ (fun tok idx => tok.seqId.toFinset = S → HomeCell c S idx) toks idxs := by
  induction toks generalizing st idxs with
  | nil =>
    cases hRun
    exact .nil
  | cons tok toks ih =>
    have hSpec := (groupSlots_spec hRun).1
    have hLater : ∀ t ∈ toks, t.seqId.Nodup := fun t ht => hNodup t (mem_cons_of_mem tok ht)
    have hTok := hNodup tok mem_cons_self
    unfold groupSlots at hRun
    split at hRun
    · cases hRun
    rename_i first hFirst
    split at hRun
    · cases hRun
    split at hRun
    · cases hRun
    rename_i idx hIdx
    obtain ⟨rest, hRest, hRun⟩ := exists_of_bind hRun
    cases rest with
    | none => cases hRun
    | some rest =>
      cases hRun
      cases hSpec with
      | cons hOk _ =>
        by_cases hSame : tok.seqId.toFinset = S
        · have hMin := min?_of_toFinset hSame hOwner hLeast
          rw [hFirst] at hMin
          cases hMin
          rw [h.next hTok hSame] at hIdx
          cases hIdx
          have hMem : owner ∈ tok.seqId := by
            rw [← mem_toFinset, hSame]
            exact hOwner
          have hCell := h.room 0 (by
            unfold ownedTokens
            rw [countP_cons_of_pos (by simpa using hSame)]
            exact Nat.succ_pos _)
          exact .cons (fun _ => hCell) (ih hLater (h.own hMem hSame) hRest)
        · exact .cons (fun hEq => absurd hEq hSame)
            (ih hLater (h.other hTok hSame hOk) hRest)

theorem AtHome.inv (h : AtHome c u S)
    (hSearch : groupSearch c = .ok st) : ∃ owner ∈ S, (∀ t ∈ S, owner ≤ t) ∧
      HomeInv c S owner u.tokens st := by
  obtain ⟨owner, hOwner, hLeast, hAlone, hRoom⟩ := h
  unfold groupSearch at hSearch
  dsimp only at hSearch
  generalize stageFrontiers c.cfg c.allocationHeads _ _ = frontiers at hSearch
  cases frontiers with
  | error e => cases hSearch
  | ok owners =>
  cases hSearch
  refine ⟨owner, hOwner, hLeast, hAlone, hRoom, fun _ _ => rfl, ?_⟩
  intro k hk
  obtain ⟨j, hj, hGroup, hUsed⟩ := (hRoom k hk).used
  refine Nat.ne_of_gt (length_pos_of_mem (a := j) ?_)
  simp only [List.mem_filter, List.mem_range, decide_eq_true_eq]
  exact ⟨hj, hGroup, by simpa [KvCells.isEmpty] using hUsed⟩

end Home

/-! ## The invariant -/

/-- The groups of a structured cache have one owner set each, and every position
is one that the removal of a whole sequence reaches. -/
structure GroupOwned (cfg : CacheConfig) (c : KvCache) : Prop where
  config : c.cfg = cfg
  occupied : Occupied (c.cells 0)
  inRange : ∀ i, ((c.cells 0).cell i).pos ≠ -1 →
    i < (c.cells 0).size ∧ ((c.cells 0).cell i).within 0 int32Max
  owners : ∀ i j, i / cfg.allocationGroupSize = j / cfg.allocationGroupSize →
    ((c.cells 0).cell i).pos ≠ -1 → ((c.cells 0).cell j).pos ≠ -1 →
    ((c.cells 0).cell i).seq = ((c.cells 0).cell j).seq

section Steps

variable {cfg : CacheConfig} {c c' : KvCache}

theorem groupOwned_new (cfg : CacheConfig) : GroupOwned cfg (new cfg) := by
  refine ⟨rfl, fun i t ht => absurd ht (notMem_empty t), fun i hUsed => ?_,
    fun i j _ hUsed => ?_⟩
  · exact absurd rfl hUsed
  · exact absurd rfl hUsed

section

variable (h : GroupOwned cfg c)

include h

theorem GroupOwned.congr (hCfg : c'.cfg = c.cfg)
    (hCells : c'.cells = c.cells) : GroupOwned cfg c' where
  config := hCfg.trans h.config
  occupied := by rw [hCells]; exact h.occupied
  inRange := by rw [hCells]; exact h.inRange
  owners := by rw [hCells]; exact h.owners

omit h in
/-- Two tokens of a batch that fits get cells of different groups unless they
have the same owners. -/
theorem GroupFits.apart (h : GroupFits c u) (hBatch : u.WellFormed c.cfg)
    (hSearch : groupSearch c = .ok st)
    (hSlots : groupSlots c u.tokens st = .ok (some idxs)) {p q : Placement}
    (hp : p ∈ placements [⟨0, idxs⟩]) (hq : q ∈ placements [⟨0, idxs⟩])
    (hGroup : p.idx / c.cfg.allocationGroupSize = q.idx / c.cfg.allocationGroupSize) :
    (u.token p.token).seqId.toFinset = (u.token q.token).seqId.toFinset := by
  have hNodup : ∀ tok ∈ u.tokens, tok.seqId.Nodup := fun tok htok => (hBatch.owners tok htok).1
  have hOk := (groupSlots_spec hSlots).1
  -- the cell of a token that is at home is in a group closed to other owners
  have hHome : ∀ p ∈ placements [⟨0, idxs⟩], ∀ q ∈ placements [⟨0, idxs⟩],
      p.idx / c.cfg.allocationGroupSize = q.idx / c.cfg.allocationGroupSize →
      AtHome c u (u.token p.token).seqId.toFinset →
      (u.token q.token).seqId.toFinset = (u.token p.token).seqId.toFinset := by
    intro p hp q hq hGroup hAtHome
    obtain ⟨owner, hOwner, hLeast, hInv⟩ := hAtHome.inv hSearch
    have hCells := groupSlots_home hOwner hLeast hNodup hInv hSlots
    have hCell := (placement_token hCells hp).2.2 rfl
    obtain ⟨hTok, -, hOkQ⟩ := placement_token hOk hq
    have hCompatible := hOkQ.compatible
    rw [← hGroup] at hCompatible
    exact hCell.unique (hNodup _ hTok) hCompatible
  by_contra hne
  rcases h.2 _ (placement_token hOk hp).1 _ (placement_token hOk hq).1 hne with hP | hQ
  · exact hne (hHome p hp q hq hGroup hP).symm
  · exact hne (hHome q hq p hp hGroup.symm hQ)

/-- A batch that fits keeps the invariant. -/
theorem GroupOwned.decode (hGrouped : cfg.grouped = true)
    (hBatch : u.WellFormed c.cfg) (hFits : GroupFits c u) {sinfo : SlotInfo}
    (hFind : c.findSlot u false = .ok sinfo) (hFound : sinfo ≠ [])
    (hApply : applyUbatch sinfo u c = .ok () c') : GroupOwned cfg c' := by
  have hGrouped' : c.cfg.grouped = true := by rw [h.config]; exact hGrouped
  rcases findSlot_cases hFind hFound with ⟨-, st, idxs, hSearch, hSlots, rfl⟩ | ⟨hPlain, -⟩ |
    ⟨hPlain, -⟩
  · obtain ⟨hCells, hNodup, -, -⟩ := groupSlots_spec hSlots
    have hPlaced := applyUbatch_batchPlaced hGrouped' (hCells.imp fun _ _ hOk => hOk.empty)
      hNodup h.occupied hApply
    -- a cell is one of the new ones or as before
    have hCases : ∀ i, (∃ p ∈ placements [⟨0, idxs⟩], p.idx = i) ∨
        (c'.cells 0).cell i = (c.cells 0).cell i := by
      intro i
      by_cases hNew : ∃ p ∈ placements [⟨0, idxs⟩], p.idx = i
      · exact Or.inl hNew
      · exact Or.inr (hPlaced.others i fun p hp hEq => hNew ⟨p, hp, hEq⟩)
    have hTok : ∀ p ∈ placements [⟨0, idxs⟩], u.token p.token ∈ u.tokens ∧
        GroupCellOk c (u.token p.token).seqId p.idx := fun p hp =>
      ⟨(placement_token hCells hp).1, (placement_token hCells hp).2.2⟩
    have hRange : ∀ p ∈ placements [⟨0, idxs⟩], p.idx < (c'.cells 0).size ∧
        ((c'.cells 0).cell p.idx).within 0 int32Max := by
      intro p hp
      obtain ⟨hMem, hOk⟩ := hTok p hp
      refine ⟨by rw [hPlaced.size]; exact hOk.inTable, ?_⟩
      unfold KvCell.within
      rw [(hPlaced.placed p hp).1]
      exact ⟨hBatch.pos _ hMem, hFits.1 _ hMem⟩
    have hOld : ∀ p ∈ placements [⟨0, idxs⟩], ∀ j,
        p.idx / c.cfg.allocationGroupSize = j / c.cfg.allocationGroupSize →
        ((c.cells 0).cell j).pos ≠ -1 →
        ((c'.cells 0).cell p.idx).seq = ((c.cells 0).cell j).seq := by
      intro p hp j hGroup hUsed
      obtain ⟨hMem, hOk⟩ := hTok p hp
      rw [(hPlaced.placed p hp).2]
      exact ((compatible_iff c.cfg.groups.1 (hBatch.owners _ hMem).1).mp hOk.compatible j
        (h.inRange j hUsed).1 hGroup.symm hUsed).symm
    refine ⟨hPlaced.cfg.trans h.config, ?_, ?_, ?_⟩
    · intro i t ht
      rcases hCases i with ⟨p, hp, rfl⟩ | hSame
      · obtain ⟨hIn, hWithin⟩ := hRange p hp
        exact ⟨hIn, fun hEmpty => by have := hWithin.1; omega⟩
      rw [hSame] at ht ⊢
      rw [hPlaced.size]
      exact h.occupied i t ht
    · intro i hUsed
      rcases hCases i with ⟨p, hp, rfl⟩ | hSame
      · exact hRange p hp
      rw [hSame] at hUsed ⊢
      rw [hPlaced.size]
      exact h.inRange i hUsed
    intro i j hGroup hUsedI hUsedJ
    rw [← h.config] at hGroup
    rcases hCases i with ⟨p, hp, rfl⟩ | hSameI
    · rcases hCases j with ⟨q, hq, rfl⟩ | hSameJ
      · rw [(hPlaced.placed p hp).2, (hPlaced.placed q hq).2]
        exact hFits.apart hBatch hSearch hSlots hp hq hGroup
      · rw [hSameJ] at hUsedJ ⊢
        exact hOld p hp j hGroup hUsedJ
    rcases hCases j with ⟨q, hq, rfl⟩ | hSameJ
    · rw [hSameI] at hUsedI ⊢
      exact (hOld q hq i hGroup.symm hUsedI).symm
    rw [hSameI] at hUsedI ⊢
    rw [hSameJ] at hUsedJ ⊢
    exact h.owners i j (h.config ▸ hGroup) hUsedI hUsedJ
  · rw [hGrouped'] at hPlain
    cases hPlain
  · rw [hGrouped'] at hPlain
    cases hPlain

/-! ## Removing whole sequences -/

/-- A loop that empties every cell or takes the same sequences from all of
them. -/
theorem GroupOwned.sweepCells {body : KvCells → Nat → KvCells × Bool} {g : KvCell → KvCell}
    (hBody : Writes body g)
    (left : Finset Nat → Finset Nat) (hUsed : ∀ v : KvCell, v.within 0 int32Max →
      g v = {} ∨ ((g v).pos = v.pos ∧ (g v).seq = left v.seq))
    (hEmpty : ∀ v : KvCell, v.pos = -1 → g v = v) :
    GroupOwned cfg (sweepStream body 0 c) := by
  obtain ⟨hSize, hCell⟩ := sweep_writes hBody (c.cells 0)
  have hTable : (sweepStream body 0 c).cells 0 = (sweep body (c.cells 0)).1 :=
    update_self 0 _ c.cells
  have hNew : ∀ i, ((sweepStream body 0 c).cells 0).cell i = {} ∨
      (((c.cells 0).cell i).pos ≠ -1 ∧
        (((sweepStream body 0 c).cells 0).cell i).pos = ((c.cells 0).cell i).pos ∧
        (((sweepStream body 0 c).cells 0).cell i).seq = left ((c.cells 0).cell i).seq) ∨
      (((c.cells 0).cell i).pos = -1 ∧
        ((sweepStream body 0 c).cells 0).cell i = (c.cells 0).cell i) := by
    intro i
    rw [hTable, hCell]
    by_cases hPos : ((c.cells 0).cell i).pos = -1
    · right
      right
      refine ⟨hPos, ?_⟩
      split
      · exact hEmpty _ hPos
      · rfl
    obtain ⟨hIn, hWithin⟩ := h.inRange i hPos
    rw [if_pos hIn]
    exact (hUsed _ hWithin).imp id fun hKept => Or.inl ⟨hPos, hKept⟩
  -- a cell in use has kept its position and what is left of its owners
  have hStill : ∀ i, (((sweepStream body 0 c).cells 0).cell i).pos ≠ -1 →
      ((c.cells 0).cell i).pos ≠ -1 ∧
        (((sweepStream body 0 c).cells 0).cell i).pos = ((c.cells 0).cell i).pos ∧
        (((sweepStream body 0 c).cells 0).cell i).seq = left ((c.cells 0).cell i).seq := by
    intro i hPos
    rcases hNew i with hReset | hKept | ⟨hOld, hSame⟩
    · rw [hReset] at hPos
      exact absurd rfl hPos
    · exact hKept
    · rw [hSame] at hPos
      exact absurd hOld hPos
  refine ⟨h.config, ?_, ?_, ?_⟩
  · intro i t ht
    rw [hTable, hSize, ← hTable]
    rcases hNew i with hReset | ⟨hPos, hSamePos, hSeq⟩ | ⟨hOld, hSame⟩
    · rw [hReset] at ht
      exact absurd ht (notMem_empty t)
    · rw [hSamePos]
      exact ⟨(h.inRange i hPos).1, hPos⟩
    · rw [hSame] at ht ⊢
      exact h.occupied i t ht
  · intro i hPos
    obtain ⟨hOld, hSame, -⟩ := hStill i hPos
    rw [hTable, hSize, ← hTable]
    unfold KvCell.within
    rw [hSame]
    exact h.inRange i hOld
  intro i j hGroup hPosI hPosJ
  obtain ⟨hOldI, -, hSeqI⟩ := hStill i hPosI
  obtain ⟨hOldJ, -, hSeqJ⟩ := hStill j hPosJ
  rw [hSeqI, hSeqJ, h.owners i j hGroup hOldI hOldJ]

theorem GroupOwned.sweepSeq (s : Nat) : GroupOwned cfg (sweepStream (rmBody s 0 int32Max) 0 c) := by
  refine h.sweepCells (rmBody_writes s 0 int32Max) (fun S => S.erase s) ?_ ?_
  · intro v hWithin
    by_cases hMem : s ∈ v.seq
    · rw [if_pos ⟨hWithin, hMem⟩]
      unfold KvCell.seqRm
      split
      · exact Or.inl rfl
      · exact Or.inr ⟨rfl, rfl⟩
    · rw [if_neg fun hIn => hMem hIn.2]
      exact Or.inr ⟨rfl, (erase_eq_of_notMem hMem).symm⟩
  intro v hPos
  rw [if_neg]
  rintro ⟨⟨hLo, -⟩, -⟩
  omega

theorem GroupOwned.sweepAll : GroupOwned cfg (sweepStream (rmAnyBody 0 int32Max) 0 c) := by
  refine h.sweepCells (rmAnyBody_writes 0 int32Max) id ?_ ?_
  · intro v hWithin
    rw [if_pos hWithin]
    exact Or.inl rfl
  intro v hPos
  rw [if_neg]
  rintro ⟨hLo, -⟩
  omega

end

instance : Framed (GroupOwned cfg) where
  congr h hCfg hCells _ := h.congr hCfg hCells
  act _ h := h.congr rfl rfl

variable {seqId p0 p1 : Int}

/-- Removing a whole sequence, or all of them, keeps the invariant. -/
theorem seqRmUnchecked_keepsOwned (hGrouped : cfg.grouped = true)
    (hLo : p0 ≤ 0) (hHi : p1 < 0) : Keeps (GroupOwned cfg) (seqRmUnchecked seqId p0 p1) := by
  have hRangeLo : rangeLo p0 = 0 := by
    unfold rangeLo
    split <;> omega
  have hRangeHi : rangeHi p1 = int32Max := if_pos hHi
  refine keeps_seqRmUnchecked (fun c₀ c hc₀ hc => ?_) fun c s hc hs => ?_
  · rw [hRangeLo, hRangeHi, hc₀.config, seqToStream_grouped hGrouped]
    exact hc.sweepSeq seqId.toNat
  have hOne : cfg.nStream = 1 := by
    simp only [CacheConfig.grouped, decide_eq_true_eq] at hGrouped
    exact hGrouped.2
  rw [hc.config, hOne] at hs
  rw [hRangeLo, hRangeHi, Nat.lt_one_iff.mp hs]
  exact hc.sweepAll

theorem GroupOwned.remove (h : GroupOwned cfg c) (hGrouped : cfg.grouped = true)
    {b : Bool} (hLo : p0 ≤ 0) (hHi : p1 < 0)
    (hRun : seqRm seqId p0 p1 c = .ok b c') : GroupOwned cfg c' :=
  (keeps_seqRm (seqRmUnchecked_keepsOwned hGrouped hLo hHi)).of_ok h hRun

end Steps

/-! ## Runs -/

/-- The operations of the structured allocator. -/
inductive GroupOp
  /-- `find_slot` and `apply_ubatch` -/
  | decode (u : Ubatch)
  | finishBatch (success payloadMayBeModified : Bool)
  /-- `seq_rm` of a whole sequence, or of all of them -/
  | remove (seqId p0 p1 : Int)

/-- An operation that found its slots and returned. -/
inductive GroupStep : GroupOp → KvCache → KvCache → Prop
  | decode {u : Ubatch} {sinfo : SlotInfo} {c c' : KvCache} (hBatch : u.WellFormed c.cfg)
      (hFind : c.findSlot u false = .ok sinfo) (hFound : sinfo ≠ [])
      (hApply : applyUbatch sinfo u c = .ok () c') : GroupStep (.decode u) c c'
  | finishBatch {success modified : Bool} {c c' : KvCache}
      (hRun : finishTailBatch success modified c = .ok () c') :
      GroupStep (.finishBatch success modified) c c'
  | remove {seqId p0 p1 : Int} {b : Bool} {c c' : KvCache} (hLo : p0 ≤ 0) (hHi : p1 < 0)
      (hRun : seqRm seqId p0 p1 c = .ok b c') : GroupStep (.remove seqId p0 p1) c c'

/-- At most one owner set of a batch opens a group. -/
def GroupOp.Fits : GroupOp → KvCache → Prop
  | .decode u, c => GroupFits c u
  | .finishBatch _ _, _ => True
  | .remove _ _ _, _ => True

section Run

variable {cfg : CacheConfig} {c c' : KvCache}

theorem GroupStep.owned {op : GroupOp} (h : GroupStep op c c') (hGrouped : cfg.grouped = true)
    (hFits : op.Fits c) (hOwned : GroupOwned cfg c) : GroupOwned cfg c' := by
  cases h with
  | decode hBatch hFind hFound hApply =>
    exact hOwned.decode hGrouped hBatch hFits hFind hFound hApply
  | finishBatch hRun =>
    exact keeps_finish.of_ok hOwned hRun
  | remove hLo hHi hRun => exact hOwned.remove hGrouped hLo hHi hRun

theorem GroupOwned.groupsOwned (h : GroupOwned cfg c) : c.GroupsOwned := by
  intro i j hGroup hUsedI hUsedJ s
  rw [h.config] at hGroup
  simp only [KvCells.isEmpty, decide_eq_false_iff_not] at hUsedI hUsedJ
  unfold seqHas
  rw [h.owners i j hGroup hUsedI hUsedJ]

end Run

/-- In every run from the empty structured cache in which at most one owner set
of a batch opens a group, the cells in use of a group have the same owners. -/
theorem groupsOwned_run {cfg : CacheConfig} {c : KvCache} (hGrouped : cfg.grouped = true)
    (h : Run (· = new cfg) GroupStep GroupOp.Fits c) : c.GroupsOwned := by
  refine GroupOwned.groupsOwned (h.invariant (I := GroupOwned cfg) ?_ ?_)
  · rintro _ rfl
    exact groupOwned_new cfg
  · intro op c c' hOwned hFits hStep
    exact hStep.owned hGrouped hFits hOwned

/-- One token of sequence 0. -/
def firstBatch : Ubatch where
  tokens := [{ pos := 0, seqId := [0] }]
  seqIdUnq := [0]

/-- One token of sequence 0 at position `p` and the first one of sequence 1. -/
def mixedBatch (p : Int) : Ubatch where
  tokens := [{ pos := p, seqId := [0] }, { pos := 0, seqId := [1] }]
  seqIdUnq := [0, 1]

/-- A cache after a batch was placed on the slots. -/
def placedOn (idxs : List Nat) (u : Ubatch) (c : KvCache) : KvCache :=
  finalState (applyUbatch [⟨0, idxs⟩] u) c

theorem placedOn_step {c : KvCache} (hBatch : u.WellFormed c.cfg)
    (hFind : c.findSlot u false = .ok [⟨0, idxs⟩])
    (hApply : returns (applyUbatch [⟨0, idxs⟩] u) c = true) :
    GroupStep (.decode u) c (placedOn idxs u c) := by
  obtain ⟨_, hRun⟩ := run_of_returns hApply
  exact .decode hBatch hFind (cons_ne_nil _ _) hRun

theorem firstBatch_wellFormed : firstBatch.WellFormed stageConfig :=
  ⟨by decide, by decide, by decide, fun h => absurd h (by decide)⟩

theorem mixedBatch_wellFormed {p : Int} (hPos : 0 ≤ p) : (mixedBatch p).WellFormed stageConfig where
  unique := (by decide : [0, 1].Nodup)
  pos := forall_mem_cons.mpr ⟨hPos, forall_mem_cons.mpr ⟨le_refl 0, by simp⟩⟩
  owners := by
    refine forall_mem_cons.mpr ⟨?_, forall_mem_cons.mpr ⟨?_, by simp⟩⟩
    · exact ⟨nodup_singleton 0, forall_mem_singleton.mpr (by decide)⟩
    · exact ⟨nodup_singleton 1, forall_mem_singleton.mpr (by decide)⟩
  grouped h := absurd h (by decide)

/-- Sequence 0 has its first token. -/
def firstCache : KvCache := placedOn [0] firstBatch (new stageConfig)

set_option maxRecDepth 20000 in
theorem firstCache_step : GroupStep (.decode firstBatch) (new stageConfig) firstCache :=
  placedOn_step firstBatch_wellFormed (by decide) (by decide)

theorem firstBatch_fits : GroupFits (new stageConfig) firstBatch := by
  refine ⟨by decide, fun tok htok tok' htok' hne => ?_⟩
  simp only [firstBatch, List.mem_singleton] at htok htok'
  rw [htok, htok'] at hne
  exact absurd rfl hne

theorem firstCache_config : firstCache.cfg = stageConfig :=
  (firstCache_step.owned (by decide) firstBatch_fits (groupOwned_new stageConfig)).config

set_option maxRecDepth 20000 in
theorem firstCache_home : (firstCache.cells 0).size = 768 ∧
    firstCache.cfg.allocationGroupSize = 128 ∧ firstCache.allocationHeads 0 = 1 ∧
    (firstCache.cells 0).isEmpty 1 = true ∧ ((firstCache.cells 0).cell 0).pos = 0 ∧
    ∀ j < 768, j / 128 = 0 → ((firstCache.cells 0).cell j).pos ≠ -1 →
      ((firstCache.cells 0).cell j).seq = {0} := by
  decide

/-- Sequence 0 stays in its group, so sequence 1 may open one. -/
theorem mixedBatch_fits : GroupFits firstCache (mixedBatch 1) := by
  obtain ⟨hSize, hGroup, hHead, hEmpty, hPos, hOwners⟩ := firstCache_home
  have hHome : AtHome firstCache (mixedBatch 1) {0} := by
    refine ⟨0, Finset.mem_singleton_self 0, fun t _ => Nat.zero_le t, by decide, ?_⟩
    intro k hk
    have hOne : ownedTokens {0} (mixedBatch 1).tokens = 1 := by decide
    rw [hOne, Nat.lt_one_iff] at hk
    rw [hk, hHead]
    refine ⟨by rw [hSize]; decide, hEmpty, ⟨0, by rw [hSize]; decide, ?_, ?_⟩, ?_⟩
    · rw [hGroup]
    · rw [hPos]
      decide
    intro j hj hSame hUsed
    rw [hSize] at hj
    rw [hGroup] at hSame
    exact hOwners j hj hSame hUsed
  refine ⟨by decide, fun tok htok tok' htok' hne => ?_⟩
  simp only [mixedBatch, List.mem_cons, List.not_mem_nil, or_false] at htok htok'
  rcases htok with rfl | rfl
  · exact Or.inl hHome
  rcases htok' with rfl | rfl
  · exact Or.inr hHome
  · exact absurd rfl hne

set_option maxRecDepth 20000 in
theorem firstCache_mixed :
    firstCache.findSlot (mixedBatch 1) false = .ok [⟨0, [1, 128]⟩] ∧
      returns (applyUbatch [⟨0, [1, 128]⟩] (mixedBatch 1)) firstCache = true := by
  decide

/-- One sequence stays at home, and the other one opens a group. -/
theorem mixedCache_groupsOwned : (placedOn [1, 128] (mixedBatch 1) firstCache).GroupsOwned := by
  have hStep : GroupStep (.decode (mixedBatch 1)) firstCache
      (placedOn [1, 128] (mixedBatch 1) firstCache) := by
    refine placedOn_step ?_ firstCache_mixed.1 firstCache_mixed.2
    rw [firstCache_config]
    exact mixedBatch_wellFormed (by decide)
  have hFirst : Run (· = new stageConfig) GroupStep GroupOp.Fits firstCache :=
    .step (GroupOp.decode firstBatch) (.start rfl) firstBatch_fits firstCache_step
  exact groupsOwned_run (by decide)
    (.step (GroupOp.decode (mixedBatch 1)) hFirst mixedBatch_fits hStep)

/-- Two sequences open a group in one batch of the empty cache. -/
def sharedCache : KvCache := placedOn [0, 1] (mixedBatch 0) (new stageConfig)

set_option maxRecDepth 20000 in
theorem sharedCache_step : GroupStep (.decode (mixedBatch 0)) (new stageConfig) sharedCache :=
  placedOn_step (mixedBatch_wellFormed (le_refl 0)) (by decide) (by decide)

set_option maxRecDepth 20000 in
theorem sharedCache_values : sharedCache.cfg.allocationGroupSize = 128 ∧
    (sharedCache.cells 0).isEmpty 0 = false ∧ (sharedCache.cells 0).isEmpty 1 = false ∧
    (sharedCache.cells 0).seqHas 0 0 = true ∧ (sharedCache.cells 0).seqHas 1 0 = false := by
  decide

/-- Cells 0 and 1 of one group belong to different sequences. -/
theorem sharedCache_not_groupsOwned :
    Run (· = new stageConfig) GroupStep (fun _ _ => True) sharedCache ∧
      ¬ sharedCache.GroupsOwned := by
  obtain ⟨hGroup, hUsed, hUsed', hOwn, hOther⟩ := sharedCache_values
  refine ⟨.step _ (.start rfl) trivial sharedCache_step, fun hOwned => ?_⟩
  have hSame := hOwned 0 1 (by rw [hGroup]) hUsed hUsed' 0
  rw [hOwn, hOther] at hSame
  cases hSame

end KvCache

end Beellama.Ports
