import Beellama.Ports.KvCacheFrame
import Beellama.Ports.KvCellsShift
import Beellama.Ports.KvStateRestore
import Beellama.Verified.Run

/-!
# The cell tables of the KV cache over its runs

Every method of the cache changes its cell tables through their own methods.  In a run whose calls
are `Call`s the indexes of every table stay exact (`run_indexes_eq_scan`), also when a method
throws.
-/

namespace Beellama.Ports

open Beellama.Verified KvCells

namespace KvCache

/-! ## One table -/

/-- A table of `n` cells whose indexes are exact. -/
structure ExactTable (n : Nat) (d : KvCells) : Prop where
  size : d.size = n
  index : IndexInv d

variable {n i s : Nat} {d e : KvCells} {p0 p1 : Int} (h : ExactTable n d)

include h

theorem ExactTable.step (op : Op) (hPre : op.Pre d) (hKeep : KeepsSentinel op d)
    (hSize : (op.apply d).size = d.size) : ExactTable n (op.apply d) :=
  ⟨hSize.trans h.size, h.index.step op hPre hKeep⟩

theorem ExactTable.turn {r : KvCells × Bool}
    (hr : 0 ≤ (d.cell i).pos → (d.cell i).within (rangeLo p0) p1 → s ∈ (d.cell i).seq →
      ExactTable n r.1) :
    ExactTable n (if d.posIn i (rangeLo p0) p1 ∧ d.seqHas i s then r else (d, false)).1 := by
  split
  · rename_i hIn
    obtain ⟨hWithin, hOwned⟩ := posIn_and_seqHas.mp hIn
    refine hr (le_trans ?_ hWithin.1) hWithin hOwned
    unfold rangeLo
    split <;> omega
  · exact h

theorem ExactTable.seqAdd (hi : i < d.size) (hUsed : (d.cell i).pos ≠ -1)
    (hFree : s ∉ (d.cell i).seq) (hs : s < maxSeq) : ExactTable n (d.seqAdd i s) :=
  h.step (.seqAdd i s) ⟨hi, hUsed, hs, hFree⟩ trivial (seqAdd_size ..)

theorem ExactTable.extSet (hi : i < n) (x : KvCellExt) : ExactTable n (d.extSet i x) :=
  h.step (.extSet i x) (show i < d.size from h.size ▸ hi) trivial (extSet_size ..)

theorem ExactTable.sweep {body : KvCells → Nat → KvCells × Bool}
    (hBody : ∀ d i, ExactTable n d → i < d.size → ExactTable n (body d i).1) :
    ExactTable n (KvCache.sweep body d).1 :=
  sweep_keeps (P := fun acc : KvCells × Nat => ExactTable n acc.1) h
    fun _ i hi hd => hBody _ i hd (hd.size ▸ h.size ▸ hi)

/-- The loop of `seq_cp` inside a stream meets every cell as it was before the loop. -/
theorem ExactTable.copy {src dst : Nat} (hs : dst < maxSeq)
    (hApart : ∀ i, (d.cell i).within (rangeLo p0) p1 → src ∈ (d.cell i).seq →
      dst ∉ (d.cell i).seq) :
    ExactTable n (KvCache.sweep (cpBody src dst (rangeLo p0) p1) d).1 := by
  refine (sweep_induction (fun k (acc : KvCells × Nat) => ExactTable n acc.1 ∧
    ∀ j, k ≤ j → acc.1.cell j = d.cell j) ⟨h, fun _ _ => rfl⟩ ?_).1
  rintro ⟨e, newHead⟩ k hk ⟨he, hSame⟩
  have hWrites : Writes (cpBody src dst (rangeLo p0) p1) fun v =>
      if v.within (rangeLo p0) p1 ∧ src ∈ v.seq then { v with seq := insert dst v.seq } else v :=
    writes_seqRange ⟨fun e i => seqAdd_size e i dst, fun e i => seqAdd_cell e i dst⟩ src _ p1
  constructor
  · refine he.turn fun hPos hWithin hOwned => he.seqAdd (he.size ▸ h.size ▸ hk) (by omega) ?_ hs
    rw [hSame k le_rfl] at hWithin hOwned ⊢
    exact hApart k hWithin hOwned
  intro j hj
  refine (congrFun (hWrites.cell e k) j).trans ?_
  rw [Function.update_of_ne (by omega)]
  exact hSame j (by omega)

/-- A cell that `seq_cp` enters into an empty cell of another stream. -/
theorem ExactTable.copyCell {src dst : Nat} (he : ExactTable n e) (hi : i < d.size)
    (hEmpty : e.cell i = {}) (hs : dst < maxSeq) (hMoved : src ∈ (d.cell i).seq →
      (d.cell i).shift ≠ 0 → (d.cell i).shift ≤ (d.cell i).pos) :
    ExactTable n (KvCache.copyCell d e src dst i) ∧
      ∀ j ≠ i, (KvCache.copyCell d e src dst i).cell j = e.cell j := by
  unfold KvCache.copyCell
  by_cases hOwned : src ∈ (d.cell i).seq
  · have hUsed : d.posGet i ≠ -1 := by
      intro hFree
      rw [h.index.unowned i hi hFree] at hOwned
      exact absurd hOwned (Finset.notMem_empty src)
    have hPos : d.posGet i - d.getShift i ≠ -1 := by
      by_cases hZero : d.getShift i = 0
      · rw [hZero]
        omega
      · have : d.getShift i ≤ d.posGet i := hMoved hOwned hZero
        omega
    have hIn : i < e.size := by rwa [he.size, ← h.size]
    have hSet := he.step (.posSet i _) ⟨hIn, by simp [hEmpty], by simp [hEmpty]⟩ hPos
      (posSet_size ..)
    have hAdd := hSet.seqAdd (i := i) (s := dst) (by simpa [Op.apply] using hIn)
      (by simp [Op.apply, posSet_cell, hPos]) (by simp [Op.apply, posSet_cell, hEmpty]) hs
    simp only [seqHas, hOwned, decide_true, if_true]
    by_cases hShift : d.getShift i ≠ 0
    · rw [if_pos hShift]
      have hMove := hAdd.step (.posAdd i (d.getShift i))
        ⟨by simpa [Op.apply] using hIn, by simp [Op.apply, seqAdd_cell, posSet_cell, hPos]⟩ trivial
        ((Move.add i _).apply_size _)
      refine ⟨hMove.extSet (h.size ▸ hi) _, fun j hj => ?_⟩
      simp only [extSet_cell, KvCells.posAdd, Function.update_of_ne hj]
      split <;> simp [markShift, usedErase, seqAdd_cell, posSet_cell, hj]
    rw [if_neg hShift]
    refine ⟨hAdd.extSet (h.size ▸ hi) _, fun j hj => ?_⟩
    simp [extSet_cell, seqAdd_cell, posSet_cell, hj]
  · simp [seqHas, hOwned, he]

theorem ExactTable.copyCells {src dst : Nat} (he : ExactTable n e) (hs : dst < maxSeq)
    (hMoved : ∀ i, src ∈ (d.cell i).seq → (d.cell i).shift ≠ 0 →
      (d.cell i).shift ≤ (d.cell i).pos) :
    ExactTable n ((List.range d.size).foldl
      (fun cells i => KvCache.copyCell d cells src dst i) e.reset) := by
  have hReset : ExactTable n e.reset ∧ ∀ j, 0 ≤ j → e.reset.cell j = {} :=
    ⟨⟨he.size, indexInv_blank e.size⟩, fun _ _ => rfl⟩
  refine (sweep_induction (fun k e => ExactTable n e ∧ ∀ j, k ≤ j → e.cell j = {}) hReset ?_).1
  rintro e k hk ⟨hExact, hEmpty⟩
  obtain ⟨hNext, hOther⟩ := h.copyCell hExact hk (hEmpty k le_rfl) hs (hMoved k)
  exact ⟨hNext, fun j hj => (hOther j (by omega)).trans (hEmpty j (by omega))⟩

omit h

/-! ## The operations -/

/-- Every table of the cache has its size and exact indexes. -/
structure Tables (cfg : CacheConfig) (c : KvCache) : Prop where
  config : c.cfg = cfg
  table : ∀ s, ExactTable cfg.size (c.cells s)

variable {cfg : CacheConfig} {c c' : KvCache} {q : Int}

instance : Framed (Tables cfg) where
  congr h hCfg hCells _ := ⟨hCfg.trans h.config, hCells ▸ h.table⟩
  act _ h := ⟨h.config, h.table⟩

theorem Tables.update (h : Tables cfg c) (hCfg : c'.cfg = c.cfg)
    (hCells : c'.cells = Function.update c.cells s d) (hd : ExactTable cfg.size d) :
    Tables cfg c' :=
  ⟨hCfg.trans h.config, hCells ▸ (Function.forall_update_iff _ fun _ d => ExactTable cfg.size d).mpr
    ⟨hd, fun r _ => h.table r⟩⟩

theorem Tables.sweep (h : Tables cfg c) {body : KvCells → Nat → KvCells × Bool}
    (hCfg : c'.cfg = c.cfg)
    (hCells : c'.cells = Function.update c.cells s (KvCache.sweep body (c.cells s)).1)
    (hBody : ∀ d i, ExactTable cfg.size d → i < d.size → ExactTable cfg.size (body d i).1) :
    Tables cfg c' :=
  h.update hCfg hCells ((h.table s).sweep hBody)

theorem validSeq_lt (h : cfg.validSeq q = true) : q.toNat < maxSeq := by
  obtain ⟨hNonneg, hLt⟩ := of_decide_eq_true h
  have := cfg.seqsFit
  unfold CacheConfig.seqLimit CacheConfig.nStream at hLt
  split_ifs at hLt <;> omega

theorem seqRmUnchecked_tables : Keeps (Tables cfg) (seqRmUnchecked q p0 p1) := by
  refine keeps_seqRmUnchecked (fun _ c _ hc => hc.sweep rfl rfl fun d i hd hi => ?_)
    fun c s hc _ => hc.sweep rfl rfl fun d i hd hi => ?_
  · exact hd.turn fun hPos _ hs => hd.step (.seqRm i q.toNat)
      ⟨hi, hd.index.bound i _ hs, hs, by omega⟩ trivial (seqRm_size ..)
  unfold rmAnyBody
  split
  · exact ⟨(rm_size d i).trans hd.size, hd.index.rm hi⟩
  · exact hd

theorem clear_tables : Keeps (Tables cfg) KvCache.clear := by
  refine keeps_clear fun c hc => ⟨hc.config, fun s => ?_⟩
  dsimp only
  split
  · exact ⟨(hc.table s).size, indexInv_blank _⟩
  · exact hc.table s

theorem seqKeep_tables : Keeps (Tables cfg) (seqKeep q) := by
  refine keeps_materialize.bind fun _ => keeps_get fun c hc => keeps_assert fun hq =>
    (keeps_onTail _).bind fun _ => (keeps_step fun c hc => ?_).bind fun _ => keeps_rebuildAll
  refine hc.sweep rfl rfl fun d i hd hi => ⟨?_, ?_⟩
  · unfold keepBody KvCells.seqKeep
    split_ifs <;> simp [seqPosInc, hd.size]
  · exact hd.index.seqKeep hi (validSeq_lt hq)

theorem seqRmCell_tables (hi : i < cfg.size) : Keeps (Tables cfg) (seqRmCell q i) := by
  refine keeps_get fun c hc => keeps_assert fun hq => ?_
  have hTable := hc.table (c.cfg.seqToStream q.toNat)
  refine Triple.bind (R := fun _ => Tables cfg) (Triple.set fun _ _ => ?_) fun _ => ?_
  · refine hc.update rfl rfl (hTable.step (.seqRmCell i q.toNat)
      ⟨hTable.size.symm ▸ hi, validSeq_lt hq⟩ trivial ?_)
    simp only [Op.apply, KvCells.seqRmCell]
    split <;> simp
  · exact Triple.ite (fun _ => (keeps_onTail _).bind fun _ => (keeps_mark q).bind fun _ =>
      Triple.bind (keeps_modify fun _ => ⟨rfl, rfl, rfl⟩) fun _ => keeps_rebuild _) fun _ => keeps_pure

theorem seqAdd_tables {shift : Int} : Keeps (Tables cfg) (seqAdd q p0 p1 shift) := by
  refine keeps_materialize.bind fun _ => keeps_get fun c _ => keeps_assert fun _ =>
    keeps_assert fun _ => (keeps_onTail _).bind fun _ =>
      Triple.ite (fun _ => (keeps_onTail _).bind fun _ => ?_) fun _ => ?_
  all_goals
    refine Triple.ite (fun _ => (keeps_step fun c hc => ?_).bind fun _ => keeps_rebuild _)
      fun _ => keeps_pure
    exact hc.sweep rfl rfl fun d i hd hi => hd.turn fun hPos _ _ =>
      hd.step (.posAdd i shift) ⟨hi, by omega⟩ trivial ((Move.add i shift).apply_size d)

theorem seqDiv_tables {k : Int} (hk : 1 < k) : Keeps (Tables cfg) (seqDiv q p0 p1 k) := by
  refine keeps_materialize.bind fun _ => keeps_get fun c _ => keeps_assert fun _ =>
    keeps_assert fun _ => (keeps_onTail _).bind fun _ =>
      Triple.ite (fun _ => (keeps_onTail _).bind fun _ => ?_) fun _ => ?_
  all_goals
    refine Triple.ite (fun _ => (keeps_step fun c hc => ?_).bind fun _ => keeps_rebuild _)
      fun _ => keeps_pure
    refine hc.sweep rfl rfl fun d i hd hi => hd.turn fun hPos _ _ => ?_
    have := Int.tdiv_nonneg hPos (show 0 ≤ k by omega)
    exact hd.step (.posDiv i k) ⟨hi, by omega, by omega⟩ (show _ ≠ _ by omega)
      ((Move.div i k).apply_size d)

/-- What `seq_cp` asserts of the cells it copies. -/
def CopyFits (src dst p0 p1 : Int) (c : KvCache) : Prop :=
  let d := c.cells (c.cfg.seqToStream src.toNat)
  (src ≠ dst → c.cfg.seqToStream src.toNat = c.cfg.seqToStream dst.toNat →
    ∀ i, (d.cell i).within (rangeLo p0) (rangeHi p1) → src.toNat ∈ (d.cell i).seq →
      dst.toNat ∉ (d.cell i).seq) ∧
    (c.cfg.seqToStream src.toNat ≠ c.cfg.seqToStream dst.toNat →
      ∀ i, src.toNat ∈ (d.cell i).seq → (d.cell i).shift ≠ 0 → (d.cell i).shift ≤ (d.cell i).pos)

theorem framed_and {F : KvCache → Prop}
    (hF : ∀ c c' : KvCache, F c → c'.cfg = c.cfg → c'.cells = c.cells → F c') :
    Framed fun c => Tables cfg c ∧ F c where
  congr h hCfg hCells hTail := ⟨Framed.congr h.1 hCfg hCells hTail, hF _ _ h.2 hCfg hCells⟩
  act hTail h := ⟨Framed.act hTail h.1, hF _ _ h.2 rfl rfl⟩

/-- The first steps of a method that assumes more. -/
theorem Keeps.before {α β : Type} {F : KvCache → Prop} {x : CacheM α} {f : α → CacheM β}
    (hx : Keeps (fun c => Tables cfg c ∧ F c) x)
    (hf : ∀ a, Triple (fun c => Tables cfg c ∧ F c) (f a) (fun _ => Tables cfg)
      fun _ => Tables cfg) :
    Triple (fun c => Tables cfg c ∧ F c) (x >>= f) (fun _ => Tables cfg) fun _ => Tables cfg :=
  (hx.imp (fun _ h => h) (fun _ _ h => h) fun _ _ h => h.1).bind hf

theorem seqCp_tables {src dst : Int} :
    Triple (fun c => Tables cfg c ∧ CopyFits src dst p0 p1 c) (seqCp src dst p0 p1)
      (fun _ => Tables cfg) fun _ => Tables cfg := by
  have hFrame : Framed fun c => Tables cfg c ∧ CopyFits src dst p0 p1 c :=
    framed_and fun c c' hFits hCfg hCells => by rwa [CopyFits, hCfg, hCells]
  refine keeps_materialize.before fun _ => keeps_get fun c hc => keeps_assert (h := fun _ h => h.1)
    fun _ => keeps_assert (h := fun _ h => h.1) fun hDst => ?_
  rw [hc.1.config] at hDst ⊢
  refine Triple.ite (fun hSame => ?_) fun hOther => ?_
  · refine keeps_queue.before fun _ => Triple.ite (fun hNe => ?_) fun _ => Triple.pure fun _ h => h.1
    refine Triple.bind (R := fun _ => Tables cfg) (Triple.modify ?_) fun _ =>
      (keeps_mark _).bind fun _ => keeps_rebuild _
    rintro c ⟨h, hApart, -⟩
    rw [h.config] at hApart
    exact h.update rfl rfl ((h.table _).copy (validSeq_lt hDst) (hApart hNe hSame))
  refine keeps_assert (h := fun _ h => h.1) fun _ => Triple.bind (R := fun _ => Tables cfg)
    (Triple.modify ?_) fun _ => keeps_queue.bind fun _ => (keeps_mark _).bind fun _ =>
      Triple.bind (keeps_modify fun _ => ⟨rfl, rfl, rfl⟩) fun _ => keeps_rebuild _
  rintro c ⟨h, -, hMoved⟩
  rw [h.config] at hMoved
  exact h.update rfl rfl
    ((h.table _).copyCells (h.table _) (validSeq_lt hDst) (hMoved hOther))

/-! ## Placing a micro-batch -/

/-- The cell of a token has its position, and owners that are still to be entered. -/
def Placing (p : Placement) (owners : List Nat) (c : KvCache) : Prop :=
  ((c.cells p.stream).cell p.idx).pos ≠ -1 ∧
    ∀ s ∈ owners, s ∉ ((c.cells p.stream).cell p.idx).seq

variable {p : Placement} {owners : List Nat} {u : Ubatch}

instance : Framed fun c => Tables cfg c ∧ Placing p owners c :=
  framed_and fun _ _ h _ hCells => by rwa [Placing, hCells]

theorem addOwner_tables (hp : p.idx < cfg.size) (hNew : s ∉ owners) (hs : s < maxSeq) (pos : Int) :
    Triple (fun c => Tables cfg c ∧ Placing p (s :: owners) c) (addOwner p pos s)
      (fun _ c => Tables cfg c ∧ Placing p owners c) fun _ => Tables cfg := by
  refine Triple.bind (R := fun _ c => Tables cfg c ∧ Placing p owners c) (Triple.modify ?_) fun _ =>
    Triple.imp (P := fun c => Tables cfg c ∧ Placing p owners c) (Triple.bind
      (keeps_modify fun c => ?_) fun _ => keeps_get fun c hc => Triple.ite (fun _ =>
        keeps_set ⟨⟨hc.1.config, hc.1.table⟩, hc.2⟩ ((keeps_onTail _).bind fun _ => keeps_pure))
          fun _ => keeps_pure)
      (fun _ h => h) (fun _ _ h => h) fun _ _ h => h.1
  · rintro c ⟨h, hUsed, hFree⟩
    have hTable := h.table p.stream
    refine ⟨h.update rfl rfl (hTable.seqAdd (hTable.size ▸ hp) hUsed
      (hFree s List.mem_cons_self) hs), ?_⟩
    simp only [Placing, setCells, Function.update_self, seqAdd_cell]
    refine ⟨hUsed, fun t ht hMem => ?_⟩
    cases Finset.mem_insert.mp hMem with
    | inl hEq => exact hNew (hEq ▸ ht)
    | inr hOld => exact hFree t (List.mem_cons_of_mem s ht) hOld
  · split <;> exact ⟨rfl, rfl, rfl⟩

theorem addOwners_tables (hp : p.idx < cfg.size) (pos : Int) (hNodup : owners.Nodup)
    (hs : ∀ s ∈ owners, s < maxSeq) :
    Triple (fun c => Tables cfg c ∧ Placing p owners c) (owners.forM (addOwner p pos))
      (fun _ => Tables cfg) fun _ => Tables cfg := by
  induction owners with
  | nil => exact Triple.pure fun _ h => h.1
  | cons s owners ih =>
    obtain ⟨hNew, hRest⟩ := List.nodup_cons.mp hNodup
    exact (addOwner_tables hp hNew (hs s List.mem_cons_self) pos).bind fun _ =>
      ih hRest fun t ht => hs t (List.mem_cons_of_mem s ht)

theorem resetCell_exact (h : ExactTable n d) (hi : i < n) {tok : UbatchToken} (hPos : 0 ≤ tok.pos) :
    ExactTable n (resetCell u tok i d) ∧ ((resetCell u tok i d).cell i).pos ≠ -1 ∧
      ((resetCell u tok i d).cell i).seq = ∅ := by
  have hi' : i < d.size := h.size ▸ hi
  have hFree : ∀ e, ExactTable n e → (e.cell i).pos = -1 →
      ExactTable n (e.posSet i tok.pos) ∧ ((e.posSet i tok.pos).cell i).pos ≠ -1 ∧
        ((e.posSet i tok.pos).cell i).seq = ∅ := by
    intro e he hEmpty
    have hNone := he.index.unowned i (he.size ▸ hi) hEmpty
    refine ⟨he.step (.posSet i tok.pos) ⟨he.size ▸ hi, hEmpty, hNone⟩ (show tok.pos ≠ -1 by omega)
      (posSet_size ..), ?_⟩
    simp only [posSet_cell, Function.update_self]
    exact ⟨by omega, hNone⟩
  have hSet := hFree (if d.isEmpty i then d else d.rm i) (by
    split
    · exact h
    · exact ⟨(rm_size d i).trans h.size, h.index.rm hi'⟩) (by
    split
    · exact of_decide_eq_true ‹_›
    · simp [rm_cell])
  unfold resetCell
  dsimp only
  split
  · refine ⟨hSet.1.extSet hi _, ?_⟩
    simpa only [extSet_cell, Function.update_self] using hSet.2
  · exact hSet

/-- A token whose cell is in the table has a position and distinct owners. -/
def TokenFits (cfg : CacheConfig) (u : Ubatch) (p : Placement) : Prop :=
  p.idx < cfg.size ∧ 0 ≤ (u.token p.token).pos ∧ (u.token p.token).seqId.Nodup ∧
    ∀ s ∈ (u.token p.token).seqId, s < maxSeq

theorem applyUbatch_tables {sinfo : SlotInfo} (hFits : ∀ p ∈ placements sinfo, TokenFits cfg u p) :
    Keeps (Tables cfg) (applyUbatch sinfo u) := by
  have hPlace : ∀ ps : List Placement, (∀ p ∈ ps, TokenFits cfg u p) → ∀ rm,
      Keeps (Tables cfg) (ps.foldlM (placeToken u) rm) := by
    intro ps
    induction ps with
    | nil => exact fun _ _ => keeps_pure
    | cons p ps ih =>
      intro hps rm
      obtain ⟨hp, hPos, hNodup, hOwners⟩ := hps p List.mem_cons_self
      rw [List.foldlM_cons]
      refine Triple.bind (R := fun _ => Tables cfg) ?_ fun rm =>
        ih (fun p hp => hps p (List.mem_cons_of_mem _ hp)) rm
      refine keeps_recycle.bind fun _ => keeps_get fun c hc => Triple.bind
        (R := fun _ c => Tables cfg c ∧ Placing p (u.token p.token).seqId c)
        (Triple.set fun _ _ => ?_) fun _ =>
          (addOwners_tables hp _ hNodup hOwners).bind fun _ => keeps_pure
      obtain ⟨hTable, hUsed, hNone⟩ := resetCell_exact (u := u) (hc.table p.stream) hp hPos
      refine ⟨hc.update rfl rfl hTable, ?_⟩
      simp only [Placing, setCells, Function.update_self, hNone]
      exact ⟨hUsed, fun _ _ => Finset.notMem_empty _⟩
  refine keeps_begin.bind fun _ => (hPlace _ hFits _).bind fun rm => Triple.bind
    (R := fun _ => Tables cfg) (Triple.forM fun s _ => ?_) fun _ => keeps_step fun c hc => ?_
  · exact Triple.ite (fun _ => keeps_get fun c hc => keeps_assert fun _ =>
      Triple.ite (fun _ => seqRmUnchecked_tables) fun _ => keeps_pure) fun _ => keeps_pure
  · exact List.foldlRecOn sinfo _ hc fun c hc r _ => ⟨hc.config, hc.table⟩

/-! ## Runs -/

/-- What `update` leaves of the pending shifts. -/
def resetShifts : CacheM Unit :=
  modify fun c => { c with
    cells := fun s => if s < c.cfg.nStream then (c.cells s).resetShift else c.cells s }

/-- The calls that change the cell tables, with what their callers see to. -/
inductive Call (c : KvCache) : CacheM Unit → Prop
  | clear : Call c clear
  | update : Call c resetShifts
  | seqRm (seqId p0 p1 : Int) : Call c (seqRm seqId p0 p1 >>= fun _ => pure ())
  | seqRmCell (seqId : Int) {cell : Nat} (h : cell < c.cfg.size) : Call c (seqRmCell seqId cell)
  | seqCp {src dst p0 p1 : Int} (h : CopyFits src dst p0 p1 c) : Call c (seqCp src dst p0 p1)
  | seqKeep (seqId : Int) : Call c (seqKeep seqId)
  | seqAdd (seqId p0 p1 shift : Int) : Call c (seqAdd seqId p0 p1 shift)
  | seqDiv (seqId p0 p1 : Int) {d : Int} (h : 1 < d) : Call c (seqDiv seqId p0 p1 d)
  | applyUbatch {sinfo : SlotInfo} {u : Ubatch} (h : ∀ p ∈ placements sinfo, TokenFits c.cfg u p) :
      Call c (applyUbatch sinfo u)

theorem Call.tables {x : CacheM Unit} (hCall : Call c x) (h : Tables cfg c) :
    Tables cfg (finalState x c) := by
  have hEnd : ∀ {P}, Triple P x (fun _ => Tables cfg) (fun _ => Tables cfg) → P c →
      Tables cfg (finalState x c) := by
    intro P hx hc
    have hNext := hx c hc
    unfold finalState
    split at hNext <;> simp only [*]
  cases hCall with
  | clear => exact hEnd clear_tables h
  | update =>
    refine ⟨h.config, fun s => ?_⟩
    show ExactTable cfg.size (if s < c.cfg.nStream then (c.cells s).resetShift else c.cells s)
    split
    · exact (h.table s).step .resetShift trivial trivial rfl
    · exact h.table s
  | seqRm => exact hEnd ((keeps_seqRm seqRmUnchecked_tables).bind fun _ => keeps_pure) h
  | seqRmCell _ hCell => exact hEnd (seqRmCell_tables (h.config ▸ hCell)) h
  | seqCp hFits => exact hEnd seqCp_tables ⟨h, hFits⟩
  | seqKeep => exact hEnd seqKeep_tables h
  | seqAdd => exact hEnd seqAdd_tables h
  | seqDiv _ _ _ hDiv => exact hEnd (seqDiv_tables hDiv) h
  | applyUbatch hFits => exact hEnd (applyUbatch_tables (h.config ▸ hFits)) h

/-- The states of the runs of a cache. -/
abbrev Reachable (cfg : CacheConfig) : KvCache → Prop :=
  Run (· = new cfg) (fun x c c' => finalState x c = c') fun x c => Call c x

/-- **The cell tables of a cache.**  In every state of a run the used cells of a stream are the ones
with a position, `seq_pos_dec` would find what it asserts, and what the indexes answer of a sequence
is what a scan of all cells finds. -/
theorem run_indexes_eq_scan (h : Reachable cfg c) (s : Nat) :
    (c.cells s).size = cfg.size ∧
      (c.cells s).used = {i ∈ Finset.range cfg.size | ((c.cells s).cell i).pos ≠ -1} ∧
      (∀ i < cfg.size, ((c.cells s).cell i).pos = -1 → ((c.cells s).cell i).seq = ∅) ∧
      (∀ i < cfg.size, ∀ q ∈ ((c.cells s).cell i).seq,
        (((c.cells s).seqPos q).lookup ((c.cells s).cell i).pos).isSome ∧
          0 < (c.cells s).seqUsed q) ∧
      ∀ q, (c.cells s).seqPosMin q = (c.cells s).scanPosMin q ∧
        (c.cells s).seqPosMax q = (c.cells s).scanPosMax q ∧
        (c.cells s).seqSize q = (c.cells s).scanSize q := by
  have hTables : Tables cfg c := h.invariant
    (by rintro c rfl; exact ⟨rfl, fun _ => ⟨rfl, indexInv_blank _⟩⟩)
    fun _ _ _ hc hCall hStep => hStep ▸ hCall.tables hc
  obtain ⟨hSize, hIndex⟩ := hTables.table s
  refine ⟨hSize, ?_, ?_, ?_, fun q => ⟨hIndex.seqPosMin_eq q, hIndex.seqPosMax_eq q,
    hIndex.seqSize_eq q⟩⟩
  · rw [hIndex.used, hSize]
  · exact hSize ▸ hIndex.unowned
  · exact fun i hi q hq => hIndex.seqPosDec_asserts (hSize.symm ▸ hi) hq

theorem fourCells_groups : 0 < 1 ∧ 0 < 1 ∧ 4 % 1 = 0 := by decide

theorem fourCells_seqs : ∀ t ∈ (none : Option TailConfig), t.nSeqMax = 2 :=
  fun t h => absurd h (Option.not_mem_none t)

/-- One stream of four cells. -/
def fourCells : CacheConfig where
  size := 4
  nSeqMax := 2
  unified := true
  seqsFit := CacheConfig.seqsFit_two
  groups := fourCells_groups
  tailSeqs := fourCells_seqs

/-- Two tokens of sequence 1. -/
def twoTokens : Ubatch where
  tokens := [{ pos := 5, seqId := [1] }, { pos := 6, seqId := [1] }]
  seqIdUnq := [1]

def placed : KvCache := finalState (applyUbatch [⟨0, [0, 1]⟩] twoTokens) (new fourCells)

/-- Sequence 0 gets both cells, sequence 1 leaves the second, and sequence 0 is moved by three. -/
def shared : KvCache := finalState (seqCp 1 0 (-1) (-1)) placed

def trimmed : KvCache := finalState (seqRm 1 6 (-1) >>= fun _ => pure ()) shared

def moved : KvCache := finalState (seqAdd 0 0 100 3) trimmed

set_option maxRecDepth 20000 in
theorem placed_fits : CopyFits 1 0 (-1) (-1) placed := by
  refine ⟨fun _ _ i _ _ => ?_, fun hStreams => absurd (by decide +kernel) hStreams⟩
  match i with
  | 0 => decide +kernel
  | 1 => decide +kernel
  | _ + 2 => exact Finset.notMem_empty 0

/-- Sequence 0 is at 8 and 9, and sequence 1 shares the first of its cells. -/
theorem moved_indexes_eq_scan :
    (moved.cells 0).seqPosMin 0 = 8 ∧ (moved.cells 0).seqPosMax 0 = 9 ∧
      (moved.cells 0).seqPosMax 1 = 8 ∧
      (moved.cells 0).used = {i ∈ Finset.range 4 | ((moved.cells 0).cell i).pos ≠ -1} ∧
      (∀ i < 4, ((moved.cells 0).cell i).pos = -1 → ((moved.cells 0).cell i).seq = ∅) ∧
      (∀ i < 4, ∀ q ∈ ((moved.cells 0).cell i).seq,
        (((moved.cells 0).seqPos q).lookup ((moved.cells 0).cell i).pos).isSome ∧
          0 < (moved.cells 0).seqUsed q) ∧
      ∀ q, (moved.cells 0).seqPosMin q = (moved.cells 0).scanPosMin q ∧
        (moved.cells 0).seqPosMax q = (moved.cells 0).scanPosMax q ∧
        (moved.cells 0).seqSize q = (moved.cells 0).scanSize q := by
  have hPlaced : Reachable fourCells placed :=
    .step (applyUbatch [⟨0, [0, 1]⟩] twoTokens) (.start rfl)
      (.applyUbatch (by unfold TokenFits; decide +kernel)) rfl
  have hShared : Reachable fourCells shared :=
    .step (seqCp 1 0 (-1) (-1)) hPlaced (.seqCp placed_fits) rfl
  have hTrimmed : Reachable fourCells trimmed :=
    .step (seqRm 1 6 (-1) >>= fun _ => pure ()) hShared (.seqRm 1 6 (-1)) rfl
  have hMoved : Reachable fourCells moved :=
    .step (seqAdd 0 0 100 3) hTrimmed (.seqAdd 0 0 100 3) rfl
  exact ⟨by decide +kernel, by decide +kernel, by decide +kernel,
    (run_indexes_eq_scan hMoved 0).2⟩

end KvCache

end Beellama.Ports
