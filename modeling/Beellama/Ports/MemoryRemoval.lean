import Beellama.Ports.KvCacheRemoval
import Beellama.Ports.Kvarn
import Beellama.Ports.RecurrentInvariant
import Beellama.Verified.Guarded

/-!
# `seq_rm` and `can_seq_rm` of every memory

`can_seq_rm` is a promise: a `seq_rm` that fails afterwards is a hard error, and the composite memories
rely on the promises of their children, which they change one after the other.
`llama_kv_cache_dsv4` does not override it, and the default promises everything.
-/

namespace Beellama.Ports

open Beellama.Verified

/-! ## The memories -/

namespace KvCache

/-- `llama_kv_cache` -/
def removal : Guarded KvCache RmArgs where
  can c r := c.canSeqRm r.seqId r.p0 r.p1
  run c r :=
    match seqRm r.seqId r.p0 r.p1 c with
    | .ok b c' => some (b, c')
    | .error _ _ => none

end KvCache

/-- A `llama_kv_cache` whose cells are those of another cache (`other != nullptr`); its
exact tail, if it has one, is its own. -/
structure SharedCache where
  cfg : CacheConfig
  other : KvCache

namespace SharedCache

def canSeqRm (c : SharedCache) (seqId p0 p1 : Int) : Bool :=
  if !c.cfg.hasCompactTail then true
  else if !c.cfg.validSeq seqId then p0 ≤ 0 ∧ p1 < 0
  else if p0 ≤ 0 ∧ p1 < 0 then true
  else if p0 ≤ 0 ∨ 0 ≤ p1 then false
  else if c.cfg.tailHasBody then true
  else tailCanRemoveSuffix (c.other.seqPosMax seqId) p0 p1 c.cfg.tailRollbackTokens

/-- `seq_rm` returns before it asks. -/
def removal : Guarded SharedCache RmArgs where
  can c r := c.canSeqRm r.seqId r.p0 r.p1
  run c _ := some (true, c)

end SharedCache

/-- `llama_kv_cache_kvarn` as far as a removal goes. -/
structure KvarnCache where
  metadata : KvCache

namespace KvarnCache

/-- `stream_is_exclusive_for` -/
def streamIsExclusiveFor (k : KvarnCache) (seqId : Int) : Bool :=
  let cfg := k.metadata.cfg
  if cfg.nStream = 0 ∨ seqId < 0 ∨ cfg.nSeqMax ≤ seqId then false
  else if 1 < cfg.nStream then true
  else (List.range cfg.nSeqMax).all fun other =>
    decide ((other : Int) = seqId ∨ k.metadata.seqPosMax other < 0)

def canRemove (k : KvarnCache) (seqId p0 p1 : Int) : Bool :=
  if seqId < 0 then p0 ≤ 0 ∧ p1 < 0
  else if !k.metadata.canSeqRm seqId p0 p1 then false
  else
    let posMax := k.metadata.seqPosMax seqId
    if kvarnCanRemoveRange posMax p0 p1 kvarnGroup then true
    else if p0 ≤ 0 ∨ 0 ≤ p1 then false
    else kvarnPlanRemoveRange posMax p0 p1 kvarnGroup (k.streamIsExclusiveFor seqId) =
      some (p0, p1)

def removal : Guarded KvarnCache RmArgs :=
  Guarded.guard (fun k r => k.canRemove r.seqId r.p0 r.p1) fun k r =>
    (KvCache.removal.run k.metadata r).map fun p => (p.1, ⟨p.2⟩)

end KvarnCache

/-- The caches that keep attention layers. -/
inductive LayerCache
  | standard (c : KvCache)
  | shared (c : SharedCache)
  | kvarn (k : KvarnCache)

namespace LayerCache

def removal : Guarded LayerCache RmArgs where
  can
    | .standard c, r => KvCache.removal.can c r
    | .shared c, r => SharedCache.removal.can c r
    | .kvarn k, r => KvarnCache.removal.can k r
  run
    | .standard c, r => (KvCache.removal.run c r).map fun p => (p.1, .standard p.2)
    | .shared c, r => (SharedCache.removal.run c r).map fun p => (p.1, .shared p.2)
    | .kvarn k, r => (KvarnCache.removal.run k r).map fun p => (p.1, .kvarn p.2)

def nSeqMax : LayerCache → Nat
  | .standard c => c.cfg.nSeqMax
  | .shared c => c.cfg.nSeqMax
  | .kvarn k => k.metadata.cfg.nSeqMax

end LayerCache

/-- `llama_kv_cache_iswa`: `kv_base` and `kv_swa`. -/
abbrev Iswa := LayerCache × LayerCache

def Iswa.removal : Guarded Iswa RmArgs := Guarded.both LayerCache.removal LayerCache.removal

def RecurrentMemory.removal : Guarded RecurrentMemory RmArgs where
  can mem r := mem.canSeqRm r.seqId r.p0 r.p1
  run mem r := some (mem.seqRm r.seqId r.p0 r.p1)

/-- `llama_memory_hybrid`: `mem_recr` and `mem_attn`. -/
abbrev Hybrid := RecurrentMemory × LayerCache

/-- The recurrent part is changed first. -/
def Hybrid.removal : Guarded Hybrid RmArgs :=
  Guarded.both RecurrentMemory.removal LayerCache.removal

/-! ### `llama_kv_cache_dsv4` -/

/-- A cache that was constructed without an exact tail. -/
structure PlainCache where
  cfg : CacheConfig
  noTailCfg : cfg.tailCfg = none
  cache : KvCache
  plain : cache.Plain cfg

namespace PlainCache

def seqRm (c : PlainCache) (seqId p0 p1 : Int) : Option (Bool × PlainCache) :=
  match h : KvCache.seqRm seqId p0 p1 c.cache with
  | .ok b cache => some (b, { c with cache, plain := KvCache.seqRm_plain c.plain h })
  | .error _ _ => none

def clear (c : PlainCache) : PlainCache :=
  { c with
    cache := finalState KvCache.clear c.cache
    plain := by
      obtain ⟨c', hRun, hPlain⟩ := KvCache.clear_plain c.plain
      unfold finalState
      rw [hRun]
      exact hPlain }

def removal : Guarded PlainCache RmArgs where
  can c r := c.cache.canSeqRm r.seqId r.p0 r.p1
  run c r := c.seqRm r.seqId r.p0 r.p1

end PlainCache

/-- The block lengths of the compressed caches. -/
def dsv4CsaRatio : Nat := 4
def dsv4HcaRatio : Nat := 128

/-- `llama_kv_cache_dsv4` as far as a removal goes: `kv_raw` (of which only the window has an exact
tail), the compressed caches, and the pending rollbacks. -/
structure Dsv4 where
  nSeqMax : Nat
  nRsSeq : Nat
  base : PlainCache
  swa : KvCache
  csa : PlainCache
  hca : PlainCache
  lid : PlainCache
  rsIdx : Nat → Nat := fun _ => 0

namespace Dsv4

/-- `kv_raw`, an `llama_kv_cache_iswa` -/
def rawRemoval : Guarded (PlainCache × KvCache) RmArgs :=
  Guarded.both PlainCache.removal KvCache.removal

/-- `kv_raw->seq_rm` -/
def rawRm (d : Dsv4) (r : RmArgs) : Option (Bool × Dsv4) :=
  (rawRemoval.run (d.base, d.swa) r).map fun p => (p.1, { d with base := p.2.1, swa := p.2.2 })

/-- `kv_csa->seq_rm`, `kv_hca->seq_rm` and `kv_lid->seq_rm`, one after the other; the rows
of `hca` are longer. -/
def compressedRm (d : Dsv4) (seqId csaRow hcaRow : Int) : Option (Bool × Dsv4) :=
  match d.csa.seqRm seqId csaRow (-1) with
  | none => none
  | some (csaRes, csa) =>
    match d.hca.seqRm seqId hcaRow (-1) with
    | none => none
    | some (hcaRes, hca) =>
      match d.lid.seqRm seqId csaRow (-1) with
      | none => none
      | some (lidRes, lid) => some (csaRes && hcaRes && lidRes, { d with csa, hca, lid })

/-- `clear_compressed` -/
def clearCompressed (d : Dsv4) (seqId : Int) : Option Dsv4 :=
  if seqId < 0 then
    some { d with
      csa := d.csa.clear
      hca := d.hca.clear
      lid := d.lid.clear
      rsIdx := fun _ => 0 }
  else if d.nSeqMax ≤ seqId then none
  else
    match d.compressedRm seqId (-1) (-1) with
    | none => none
    | some (_, d) => some { d with rsIdx := Function.update d.rsIdx seqId.toNat 0 }

def seqPosMax (d : Dsv4) (seqId : Int) : Int := d.swa.seqPosMax seqId

def seqRm (d : Dsv4) (r : RmArgs) : Option (Bool × Dsv4) :=
  if 0 ≤ r.p1 then some (false, d)
  else if 0 < r.p0 then
    if r.seqId < 0 ∨ d.nSeqMax ≤ r.seqId then some (false, d)
    else if d.seqPosMax r.seqId < r.p0 then
      match d.rawRm { r with p1 := -1 } with
      | none => none
      | some (res, d) =>
        (d.compressedRm r.seqId (r.p0.tdiv dsv4CsaRatio) (r.p0.tdiv dsv4HcaRatio)).map fun p =>
          (res && p.1, p.2)
    else if d.nRsSeq = 0 then some (false, d)
    else
      let rollback := d.seqPosMax r.seqId - (r.p0 - 1)
      if rollback < 1 ∨ d.nRsSeq < rollback then some (false, d)
      else
        (d.rawRm r).map fun p => (p.1,
          if p.1 then
            { p.2 with rsIdx := Function.update p.2.rsIdx r.seqId.toNat rollback.toNat }
          else p.2)
  else
    match d.rawRm r with
    | none => none
    | some (false, d) => some (false, d)
    | some (true, d) => (d.clearCompressed r.seqId).map fun d => (true, d)

/-- The query is the default of `llama_memory_i`. -/
def removal : Guarded Dsv4 RmArgs where
  can _ _ := true
  run := seqRm

/-- The sequence ids below the limits of all caches. -/
def seqLimit (d : Dsv4) : Nat :=
  [d.base.cfg.nSeqMax, d.swa.cfg.nSeqMax, d.csa.cfg.nSeqMax, d.hca.cfg.nSeqMax,
    d.lid.cfg.nSeqMax].foldl min d.nSeqMax

end Dsv4

/-! ## What a single store does -/

variable {s : Int} {c : KvCache} {r : RmArgs}

namespace KvCache

/-- A removal that the cache accepts also returns. -/
def Returns (c : KvCache) (r : RmArgs) : Prop := -1 ≤ r.seqId ∧ c.Removable r

theorem below_seqLimit {cfg : CacheConfig} (h : s < cfg.nSeqMax) : s < cfg.seqLimit := by
  have hFit := cfg.seqsFit.2
  unfold CacheConfig.seqLimit CacheConfig.nStream
  split_ifs <;> omega

theorem seqRm_run_accepted (hCan : c.canSeqRm r.seqId r.p0 r.p1 = true) :
    seqRm r.seqId r.p0 r.p1 c =
      (seqRmUnchecked r.seqId r.p0 r.p1 >>= fun _ => pure true : CacheM Bool) c := by
  change (if c.canSeqRm r.seqId r.p0 r.p1 = true then
    seqRmUnchecked r.seqId r.p0 r.p1 >>= fun _ => pure true else pure false : CacheM Bool) c = _
  rw [if_pos hCan]

theorem seqRm_run_refused (hCan : c.canSeqRm r.seqId r.p0 r.p1 = false) :
    seqRm r.seqId r.p0 r.p1 c = .ok false c := by
  change (if c.canSeqRm r.seqId r.p0 r.p1 = true then
    seqRmUnchecked r.seqId r.p0 r.p1 >>= fun _ => pure true else pure false : CacheM Bool) c = _
  rw [hCan]
  rfl

/-- What an accepted removal answers: `true`, when it answers. -/
theorem seqRm_accepted (hBelow : r.seqId < c.cfg.nSeqMax)
    (hCan : c.canSeqRm r.seqId r.p0 r.p1 = true) :
    (c.Returns r ∧ ∃ c', seqRm r.seqId r.p0 r.p1 c = .ok true c') ∨
      (¬ c.Returns r ∧ ∃ e c', seqRm r.seqId r.p0 r.p1 c = .error e c') := by
  have hReturns := seqRmUnchecked_returns (r := r) (below_seqLimit hBelow)
  rw [seqRm_run_accepted hCan]
  unfold returns at hReturns
  cases hRun : seqRmUnchecked r.seqId r.p0 r.p1 c with
  | ok u c' =>
    rw [hRun] at hReturns
    exact Or.inl ⟨hReturns.mp rfl, c', run_bind hRun⟩
  | error e c' =>
    rw [hRun] at hReturns
    exact Or.inr ⟨fun h => Bool.false_ne_true (hReturns.mpr h), e, c', run_bind_error hRun⟩

theorem removal_accepts_iff (hBelow : r.seqId < c.cfg.nSeqMax)
    (hCan : removal.can c r = true) : removal.Accepts c r ↔ c.Returns r := by
  unfold Guarded.Accepts removal
  dsimp only
  rcases seqRm_accepted hBelow hCan with ⟨hReturns, c', hRun⟩ | ⟨hNot, e, c', hRun⟩
  · rw [hRun]
    exact ⟨fun _ => hReturns, fun _ => ⟨c', rfl⟩⟩
  rw [hRun]
  refine ⟨fun ⟨_, h⟩ => ?_, fun h => absurd h hNot⟩
  cases h

theorem removal_refuses (c : KvCache) (r : RmArgs) : removal.Refuses c r := by
  intro hCan
  unfold removal
  dsimp only
  rw [seqRm_run_refused hCan]

end KvCache

namespace LayerCache

/-- A removal that the cache accepts also returns. -/
def Returns : LayerCache → RmArgs → Prop
  | .standard c, r => c.Returns r
  | .shared _, _ => True
  | .kvarn k, r => k.metadata.Returns r

theorem kvarn_can_metadata {k : KvarnCache} (h : KvarnCache.removal.can k r = true) :
    KvCache.removal.can k.metadata r = true := by
  change k.canRemove r.seqId r.p0 r.p1 = true at h
  change k.metadata.canSeqRm r.seqId r.p0 r.p1 = true
  unfold KvarnCache.canRemove at h
  split at h
  · have hAll := of_decide_eq_true h
    have hInvalid : k.metadata.cfg.validSeq r.seqId = false := by
      exact decide_eq_false (by omega)
    unfold KvCache.canSeqRm
    rw [hInvalid]
    cases k.metadata.cfg.hasCompactTail
    · rfl
    · exact decide_eq_true hAll
  cases hMetadata : k.metadata.canSeqRm r.seqId r.p0 r.p1 with
  | true => rfl
  | false =>
    rw [hMetadata] at h
    cases h

theorem removal_accepts_iff {c : LayerCache} (hBelow : r.seqId < c.nSeqMax)
    (hCan : removal.can c r = true) : removal.Accepts c r ↔ c.Returns r := by
  cases c with
  | standard c => exact Guarded.map_accepts.trans (KvCache.removal_accepts_iff hBelow hCan)
  | shared c => exact ⟨fun _ => trivial, fun _ => ⟨.shared c, rfl⟩⟩
  | kvarn k =>
    have hRun : KvarnCache.removal.run k r =
        (KvCache.removal.run k.metadata r).map fun p => (p.1, KvarnCache.mk p.2) := if_pos hCan
    refine Guarded.map_accepts.trans ?_
    rw [hRun]
    exact Guarded.map_accepts.trans (KvCache.removal_accepts_iff hBelow (kvarn_can_metadata hCan))

end LayerCache

namespace RecurrentMemory

theorem seqRm_fst (mem : RecurrentMemory) (s p0 p1 : Int) :
    (mem.seqRm s p0 p1).1 = mem.canSeqRm s p0 p1 := by
  cases hCan : mem.canSeqRm s p0 p1 with
  | false =>
    unfold seqRm
    rw [if_pos hCan]
  | true =>
    obtain ⟨hCells, -, -, hShape, -⟩ := rmStart_cells mem s (rangeStart p0) (rangeEnd p1)
    unfold seqRm
    rw [if_neg fun hFalse => Bool.false_ne_true (hFalse.symm.trans hCan)]
    have hSize : ¬ (mem.size : Int) ≤ s := by
      intro hLe
      rw [canSeqRm, if_pos hLe] at hCan
      exact Bool.false_ne_true hCan
    dsimp only
    rw [hShape.size, if_neg hSize, hCells]
    by_cases hNeg : 0 ≤ s
    · rw [if_pos hNeg]
      cases hTail : (mem.cells s.toNat).tail with
      | none => rfl
      | some t =>
        dsimp only
        by_cases hCuts : CutsOff (rangeStart p0) (rangeEnd p1) (mem.cells t).pos
        · rw [canSeqRm_of_tail hSize (not_lt.mpr hNeg) hTail hCuts] at hCan
          rw [if_pos hCuts, hShape.nRsSeq, if_pos (of_decide_eq_true hCan)]
        · rw [if_neg hCuts]
    rw [if_neg hNeg]
    have hRange : rangeStart p0 = rangeEnd p1 ∨
        rangeStart p0 = 0 ∧ rangeEnd p1 = posLimit := by
      rw [canSeqRm, if_neg hSize, if_pos (not_le.mp hNeg)] at hCan
      exact of_decide_eq_true hCan
    rw [if_neg (by tauto)]

theorem removal_accepts {mem : RecurrentMemory} (hCan : removal.can mem r = true) :
    removal.Accepts mem r := by
  have hFst := mem.seqRm_fst r.seqId r.p0 r.p1
  refine ⟨(mem.seqRm r.seqId r.p0 r.p1).2, ?_⟩
  change some (mem.seqRm r.seqId r.p0 r.p1) = _
  rw [← show (mem.seqRm r.seqId r.p0 r.p1).1 = true from hFst.trans hCan]

theorem removal_refuses (mem : RecurrentMemory) (r : RmArgs) : removal.Refuses mem r := by
  intro hCan
  change some (mem.seqRm r.seqId r.p0 r.p1) = _
  change mem.canSeqRm r.seqId r.p0 r.p1 = false at hCan
  unfold seqRm
  rw [if_pos hCan]

end RecurrentMemory

namespace PlainCache

theorem canSeqRm (c : PlainCache) (s p0 p1 : Int) : c.cache.canSeqRm s p0 p1 = true := by
  unfold KvCache.canSeqRm CacheConfig.hasCompactTail
  rw [c.plain.config, c.noTailCfg]
  rfl

theorem returns_iff (c : PlainCache) (r : RmArgs) : c.cache.Returns r ↔ -1 ≤ r.seqId := by
  refine and_iff_left fun t ht => ?_
  rw [c.plain.noTail] at ht
  cases ht

/-- A cache without an exact tail accepts every removal. -/
theorem seqRm_cases {c : PlainCache} (hBelow : s < c.cfg.nSeqMax) (p0 p1 : Int) :
    (-1 ≤ s ∧ ∃ c', c.seqRm s p0 p1 = some (true, c') ∧ c'.cfg = c.cfg) ∨
      (¬ -1 ≤ s ∧ c.seqRm s p0 p1 = none) := by
  have hCfg : s < c.cache.cfg.nSeqMax := by
    rw [c.plain.config]
    exact hBelow
  have hRuns := KvCache.seqRm_accepted (r := ⟨s, p0, p1⟩) hCfg (c.canSeqRm s p0 p1)
  rw [c.returns_iff] at hRuns
  unfold seqRm
  rcases hRuns with ⟨hLow, c', hRun⟩ | ⟨hLow, e, c', hRun⟩
  · refine Or.inl ⟨hLow, ?_⟩
    split
    · rename_i b cache hOk
      obtain ⟨rfl, rfl⟩ : b = true ∧ cache = c' := by
        rw [hRun] at hOk
        cases hOk
        exact ⟨rfl, rfl⟩
      exact ⟨_, rfl, rfl⟩
    rename_i hError
    rw [hRun] at hError
    cases hError
  refine Or.inr ⟨hLow, ?_⟩
  split
  · rename_i hOk
    rw [hRun] at hOk
    cases hOk
  · rfl

end PlainCache

namespace Dsv4

variable {d : Dsv4} {r : RmArgs}

/-- The limits of the parts. -/
structure Below (d : Dsv4) (s : Int) : Prop where
  own : s < d.nSeqMax
  base : s < d.base.cfg.nSeqMax
  swa : s < d.swa.cfg.nSeqMax
  csa : s < d.csa.cfg.nSeqMax
  hca : s < d.hca.cfg.nSeqMax
  lid : s < d.lid.cfg.nSeqMax

theorem below_seqLimit (h : s < d.seqLimit) : d.Below s := by
  unfold seqLimit at h
  simp only [List.foldl_cons, List.foldl_nil] at h
  constructor <;> omega

theorem rawRm_refused (h : d.swa.canSeqRm r.seqId r.p0 r.p1 = false) :
    d.rawRm r = some (false, d) := by
  have hCan : rawRemoval.can (d.base, d.swa) r = false := by
    change (_ && d.swa.canSeqRm r.seqId r.p0 r.p1) = false
    rw [h, Bool.and_false]
  unfold rawRm
  rw [show rawRemoval.run (d.base, d.swa) r = _ from Guarded.guard_refuses _ _ _ _ hCan]
  rfl

theorem rawRm_accepted (hBelow : d.Below r.seqId)
    (h : d.swa.canSeqRm r.seqId r.p0 r.p1 = true) :
    (d.swa.Returns r ∧ ∃ base swa, d.rawRm r = some (true, { d with base, swa })) ∨
      (¬ d.swa.Returns r ∧ d.rawRm r = none) := by
  have hBase : PlainCache.removal.can d.base r = true := d.base.canSeqRm _ _ _
  unfold rawRm
  rcases PlainCache.seqRm_cases hBelow.base r.p0 r.p1 with ⟨hLow, base, hRun, -⟩ | ⟨hLow, hRun⟩
  · rw [show rawRemoval.run (d.base, d.swa) r = _ from Guarded.both_run hBase h,
      Guarded.chain_accepted hRun]
    rcases KvCache.seqRm_accepted hBelow.swa h with ⟨hReturns, swa, hSwa⟩ | ⟨hNot, e, swa, hSwa⟩
    · refine Or.inl ⟨hReturns, base, swa, ?_⟩
      unfold KvCache.removal
      dsimp only
      rw [hSwa]
      rfl
    refine Or.inr ⟨hNot, ?_⟩
    unfold KvCache.removal
    dsimp only
    rw [hSwa]
    rfl
  refine Or.inr ⟨fun hReturns => hLow hReturns.1, ?_⟩
  rw [show rawRemoval.run (d.base, d.swa) r = _ from Guarded.both_run hBase h,
    Guarded.chain_none hRun]
  rfl

/-- The sequence is in the range of the compressed caches. -/
structure InCompressed (d : Dsv4) (s : Int) : Prop where
  low : -1 ≤ s
  own : s < d.nSeqMax
  csa : s < d.csa.cfg.nSeqMax
  hca : s < d.hca.cfg.nSeqMax
  lid : s < d.lid.cfg.nSeqMax

theorem Below.inCompressed (h : d.Below s) (hLow : -1 ≤ s) (base : PlainCache)
    (swa : KvCache) : InCompressed { d with base, swa } s :=
  ⟨hLow, h.own, h.csa, h.hca, h.lid⟩

theorem compressedRm_accepts (h : d.InCompressed s) (csaRow hcaRow : Int) :
    ∃ d', d.compressedRm s csaRow hcaRow = some (true, d') := by
  rcases PlainCache.seqRm_cases h.csa csaRow (-1) with ⟨-, csa, hCsa, -⟩ | ⟨hNot, -⟩
  · rcases PlainCache.seqRm_cases h.hca hcaRow (-1) with ⟨-, hca, hHca, -⟩ | ⟨hNot, -⟩
    · rcases PlainCache.seqRm_cases h.lid csaRow (-1) with ⟨-, lid, hLid, -⟩ | ⟨hNot, -⟩
      · refine ⟨{ d with csa, hca, lid }, ?_⟩
        unfold compressedRm
        rw [hCsa]
        rw [hHca]
        dsimp only
        rw [hLid]
        rfl
      · exact absurd h.low hNot
    · exact absurd h.low hNot
  · exact absurd h.low hNot

theorem clearCompressed_returns (h : d.InCompressed s) : ∃ d', d.clearCompressed s = some d' := by
  unfold clearCompressed
  split
  · exact ⟨_, rfl⟩
  rw [if_neg (not_le.mpr h.own)]
  obtain ⟨d', hRun⟩ := compressedRm_accepts h (-1) (-1)
  rw [hRun]
  exact ⟨_, rfl⟩

/-- Everything of one or all sequences, what lies past the end, and a suffix within the snapshots
that the window cache lets go. -/
def Removes (d : Dsv4) (r : RmArgs) : Prop :=
  r.p1 < 0 ∧ (0 < r.p0 → 0 ≤ r.seqId ∧ (d.seqPosMax r.seqId < r.p0 ∨
    d.seqPosMax r.seqId - (r.p0 - 1) ≤ d.nRsSeq ∧
      d.swa.canSeqRm r.seqId r.p0 r.p1 = true))

theorem removable_toEnd (hEnd : r.p1 < 0) : c.Removable { r with p1 := -1 } ↔ c.Removable r := by
  have hKeys : ∀ rows, KvCache.survivingKeys r.p0 (-1) rows =
      KvCache.survivingKeys r.p0 r.p1 rows := by
    unfold KvCache.survivingKeys TailStore.inRange
    simp [hEnd]
  unfold KvCache.Removable
  simp only [hKeys]

variable {p0 : Int}

theorem canSeqRm_all {p1 : Int} (hStart : p0 ≤ 0) (hEnd : p1 < 0) : c.canSeqRm s p0 p1 = true := by
  unfold KvCache.canSeqRm
  simp [hStart, hEnd]

theorem canSeqRm_past (hBelow : s < c.cfg.nSeqMax) (hNonneg : 0 ≤ s)
    (hStart : 0 < p0) (hPast : c.seqPosMax s < p0) : c.canSeqRm s p0 (-1) = true := by
  have hValid : c.cfg.validSeq s = true := by
    exact decide_eq_true ⟨hNonneg, KvCache.below_seqLimit hBelow⟩
  have hNotAll : ¬ p0 ≤ 0 := not_le.mpr hStart
  unfold KvCache.canSeqRm tailCanRemoveSuffix
  simp [hValid, hPast]

/-- Past the end of a sequence every cache has nothing to refuse. -/
theorem seqRm_past (hBelow : d.Below r.seqId) (hNonneg : 0 ≤ r.seqId) (hStart : 0 < r.p0)
    (hEnd : r.p1 < 0) (hPast : d.seqPosMax r.seqId < r.p0) :
    removal.Accepts d r ↔ d.swa.Returns r := by
  have hRun : d.seqRm r =
      match d.rawRm { r with p1 := -1 } with
      | none => none
      | some (res, d) =>
        (d.compressedRm r.seqId (r.p0.tdiv dsv4CsaRatio) (r.p0.tdiv dsv4HcaRatio)).map fun p =>
          (res && p.1, p.2) := by
    unfold seqRm
    rw [if_neg (not_le.mpr hEnd), if_pos hStart,
      if_neg (not_or.mpr ⟨not_lt.mpr hNonneg, not_le.mpr hBelow.own⟩), if_pos hPast]
  have hReturns : d.swa.Returns { r with p1 := -1 } ↔ d.swa.Returns r :=
    and_congr_right fun _ => removable_toEnd hEnd
  change (∃ d', d.seqRm r = some (true, d')) ↔ _
  rw [hRun]
  rcases rawRm_accepted (r := { r with p1 := -1 }) hBelow
    (canSeqRm_past hBelow.swa hNonneg hStart hPast) with ⟨hSwa, base, swa, hRaw⟩ | ⟨hNot, hRaw⟩
  · rw [hRaw]
    obtain ⟨d', hRows⟩ := compressedRm_accepts (hBelow.inCompressed (by omega) base swa)
      (r.p0.tdiv dsv4CsaRatio) (r.p0.tdiv dsv4HcaRatio)
    refine ⟨fun _ => hReturns.mp hSwa, fun _ => ⟨d', ?_⟩⟩
    dsimp only
    rw [hRows]
    rfl
  rw [hRaw]
  refine ⟨fun ⟨_, h⟩ => ?_, fun h => absurd (hReturns.mpr h) hNot⟩
  cases h

/-- A rollback is done when a snapshot is old enough and the window cache agrees. -/
theorem seqRm_rollback (hBelow : d.Below r.seqId) (hNonneg : 0 ≤ r.seqId) (hStart : 0 < r.p0)
    (hEnd : r.p1 < 0) (hReach : ¬ d.seqPosMax r.seqId < r.p0) :
    removal.Accepts d r ↔ d.swa.Returns r ∧ d.seqPosMax r.seqId - (r.p0 - 1) ≤ d.nRsSeq ∧
      d.swa.canSeqRm r.seqId r.p0 r.p1 = true := by
  have hRun : d.seqRm r =
      if d.nRsSeq = 0 then some (false, d)
      else
        let rollback := d.seqPosMax r.seqId - (r.p0 - 1)
        if rollback < 1 ∨ d.nRsSeq < rollback then some (false, d)
        else
          (d.rawRm r).map fun p => (p.1,
            if p.1 then
              { p.2 with rsIdx := Function.update p.2.rsIdx r.seqId.toNat rollback.toNat }
            else p.2) := by
    unfold seqRm
    rw [if_neg (not_le.mpr hEnd), if_pos hStart,
      if_neg (not_or.mpr ⟨not_lt.mpr hNonneg, not_le.mpr hBelow.own⟩), if_neg hReach]
  change (∃ d', d.seqRm r = some (true, d')) ↔ _
  rw [hRun]
  by_cases hDepth : d.seqPosMax r.seqId - (r.p0 - 1) ≤ d.nRsSeq
  · rw [if_neg (by omega), if_neg (by omega)]
    cases hCan : d.swa.canSeqRm r.seqId r.p0 r.p1 with
    | false =>
      rw [rawRm_refused hCan]
      exact ⟨fun ⟨_, h⟩ => by simp at h, fun h => absurd h.2.2 Bool.false_ne_true⟩
    | true =>
      rcases rawRm_accepted hBelow hCan with ⟨hSwa, base, swa, hRaw⟩ | ⟨hNot, hRaw⟩
      · rw [hRaw]
        exact ⟨fun _ => ⟨hSwa, hDepth, rfl⟩, fun _ => ⟨_, rfl⟩⟩
      · rw [hRaw]
        exact ⟨fun ⟨_, h⟩ => by simp at h, fun h => absurd h.1 hNot⟩
  refine ⟨fun ⟨_, h⟩ => ?_, fun h => absurd h.2.1 hDepth⟩
  split at h
  · simp at h
  · rw [if_pos (by omega)] at h
    simp at h

theorem seqRm_all (hBelow : d.Below r.seqId) (hStart : ¬ 0 < r.p0) (hEnd : r.p1 < 0) :
    removal.Accepts d r ↔ d.swa.Returns r := by
  have hRun : d.seqRm r =
      match d.rawRm r with
      | none => none
      | some (false, d) => some (false, d)
      | some (true, d) => (d.clearCompressed r.seqId).map fun d => (true, d) := by
    unfold seqRm
    rw [if_neg (not_le.mpr hEnd), if_neg hStart]
  change (∃ d', d.seqRm r = some (true, d')) ↔ _
  rw [hRun]
  rcases rawRm_accepted hBelow (canSeqRm_all (not_lt.mp hStart) hEnd) with
    ⟨hSwa, base, swa, hRaw⟩ | ⟨hNot, hRaw⟩
  · rw [hRaw]
    obtain ⟨d', hClear⟩ := clearCompressed_returns (hBelow.inCompressed hSwa.1 base swa)
    refine ⟨fun _ => hSwa, fun _ => ⟨d', ?_⟩⟩
    dsimp only
    rw [hClear]
    rfl
  rw [hRaw]
  refine ⟨fun ⟨_, h⟩ => ?_, fun h => absurd h hNot⟩
  cases h

/-- The removals that `llama_kv_cache_dsv4` does. -/
theorem seqRm_accepts_iff (hLimit : r.seqId < d.seqLimit) :
    removal.Accepts d r ↔ d.swa.Returns r ∧ d.Removes r := by
  have hBelow := below_seqLimit hLimit
  unfold Removes
  by_cases hEnd : r.p1 < 0
  · by_cases hStart : 0 < r.p0
    · by_cases hSeq : 0 ≤ r.seqId
      · by_cases hPast : d.seqPosMax r.seqId < r.p0
        · rw [seqRm_past hBelow hSeq hStart hEnd hPast]
          tauto
        · rw [seqRm_rollback hBelow hSeq hStart hEnd hPast]
          tauto
      have hRun : d.seqRm r = some (false, d) := by
        unfold seqRm
        rw [if_neg (not_le.mpr hEnd), if_pos hStart, if_pos (Or.inl (not_le.mp hSeq))]
      refine ⟨fun ⟨d', h⟩ => ?_, fun h => absurd (h.2.2 hStart).1 hSeq⟩
      rw [show removal.run d r = _ from hRun] at h
      simp at h
    · rw [seqRm_all hBelow hStart hEnd]
      tauto
  have hRun : d.seqRm r = some (false, d) := if_pos (not_lt.mp hEnd)
  refine ⟨fun ⟨d', h⟩ => ?_, fun h => absurd h.2.1 hEnd⟩
  rw [show removal.run d r = _ from hRun] at h
  simp at h

/-- `can_seq_rm` promises every removal. -/
theorem removal_predicted_iff (hLimit : r.seqId < d.seqLimit) :
    removal.Predicted d r ↔ d.swa.Returns r ∧ d.Removes r := by
  have hRefuses : removal.Refuses d r := fun hCan =>
    absurd (show true = false from hCan) Bool.noConfusion
  rw [Guarded.predicted_iff, and_iff_left hRefuses, seqRm_accepts_iff hLimit]
  exact ⟨fun h => h rfl, fun h _ => h⟩

end Dsv4

/-! ## When the promise is kept -/

/-- The memories with their own removal. -/
inductive Memory
  /-- `llama_kv_cache`, also as a view of another one, and `llama_kv_cache_kvarn` -/
  | layers (c : LayerCache)
  | iswa (c : Iswa)
  | recurrent (mem : RecurrentMemory)
  | hybrid (mem : Hybrid)
  | dsv4 (d : Dsv4)

namespace Memory

/-- `can_seq_rm` and `seq_rm` of a memory. -/
def removal : Guarded Memory RmArgs where
  can
    | .layers c, r => LayerCache.removal.can c r
    | .iswa c, r => Iswa.removal.can c r
    | .recurrent mem, r => RecurrentMemory.removal.can mem r
    | .hybrid mem, r => Hybrid.removal.can mem r
    | .dsv4 d, r => Dsv4.removal.can d r
  run
    | .layers c, r => (LayerCache.removal.run c r).map fun p => (p.1, .layers p.2)
    | .iswa c, r => (Iswa.removal.run c r).map fun p => (p.1, .iswa p.2)
    | .recurrent mem, r => (RecurrentMemory.removal.run mem r).map fun p => (p.1, .recurrent p.2)
    | .hybrid mem, r => (Hybrid.removal.run mem r).map fun p => (p.1, .hybrid p.2)
    | .dsv4 d, r => (Dsv4.removal.run d r).map fun p => (p.1, .dsv4 p.2)

/-- The sequence limit. -/
def seqLimit : Memory → Nat
  | .layers c => c.nSeqMax
  | .iswa c => min c.1.nSeqMax c.2.nSeqMax
  | .recurrent mem => mem.nSeqMax
  | .hybrid mem => min mem.1.nSeqMax mem.2.nSeqMax
  | .dsv4 d => d.seqLimit

/-- A view of another cache answers without asking; the raw cache of `llama_kv_cache_dsv4` is asked
by nobody. -/
def Keeps : Memory → RmArgs → Prop
  | .layers (.shared c), r => c.canSeqRm r.seqId r.p0 r.p1 = true
  | .layers c, r => LayerCache.removal.can c r = true → c.Returns r
  | .iswa c, r => LayerCache.removal.can c.1 r = true → LayerCache.removal.can c.2 r = true →
      c.1.Returns r ∧ c.2.Returns r
  | .recurrent _, _ => True
  | .hybrid mem, r => mem.1.canSeqRm r.seqId r.p0 r.p1 = true →
      LayerCache.removal.can mem.2 r = true → mem.2.Returns r
  | .dsv4 d, r => d.swa.Returns r ∧ d.Removes r

theorem predicted_map {σ : Type} {m : Guarded σ RmArgs} {s : σ} {f : σ → Memory}
    (hInj : Function.Injective f) (hCan : removal.can (f s) r = m.can s r)
    (hRun : removal.run (f s) r = (m.run s r).map fun p => (p.1, f p.2)) :
    removal.Predicted (f s) r ↔ m.Predicted s r := by
  unfold Guarded.Predicted
  rw [hRun, hCan]
  constructor
  · rintro ⟨b, m', h, hb, hSame⟩
    obtain ⟨p, hp, hEq⟩ := Option.map_eq_some_iff.mp h
    cases hEq
    exact ⟨p.1, p.2, hp, hb, fun hFalse => hInj (hSame hFalse)⟩
  · rintro ⟨b, s', h, hb, hSame⟩
    exact ⟨b, f s', by rw [h]; rfl, hb, fun hFalse => congrArg f (hSame hFalse)⟩

theorem layers_predicted_iff {c : LayerCache} (hBelow : r.seqId < c.nSeqMax) :
    LayerCache.removal.Predicted c r ↔ (Memory.layers c).Keeps r := by
  cases c with
  | standard c =>
    have hRefuses : LayerCache.removal.Refuses (.standard c) r := by
      intro hCan
      change (KvCache.removal.run c r).map _ = _
      rw [KvCache.removal_refuses c r hCan]
      rfl
    rw [Guarded.predicted_iff, and_iff_left hRefuses]
    exact forall_congr' fun hCan => LayerCache.removal_accepts_iff hBelow hCan
  | shared c =>
    constructor
    · rintro ⟨b, c', hRun, hb, -⟩
      cases hRun
      exact hb.symm
    · intro hCan
      exact ⟨true, .shared c, rfl, hCan.symm, fun hFalse => absurd hFalse Bool.noConfusion⟩
  | kvarn k =>
    have hRefuses : LayerCache.removal.Refuses (.kvarn k) r := by
      intro hCan
      change (KvarnCache.removal.run k r).map _ = _
      rw [show KvarnCache.removal.run k r = _ from Guarded.guard_refuses _ _ k r hCan]
      rfl
    rw [Guarded.predicted_iff, and_iff_left hRefuses]
    exact forall_congr' fun hCan => LayerCache.removal_accepts_iff hBelow hCan

/-- For every memory, in every state, `seq_rm` answers what `can_seq_rm` has promised and
a refusal changes nothing exactly when the promise can be kept. -/
theorem seqRm_predicted_iff (m : Memory) (r : RmArgs) (hBelow : r.seqId < m.seqLimit) :
    removal.Predicted m r ↔ m.Keeps r := by
  cases m with
  | layers c =>
    rw [predicted_map (f := Memory.layers) (fun _ _ h => by cases h; rfl) rfl rfl]
    exact layers_predicted_iff hBelow
  | iswa c =>
    obtain ⟨base, swa⟩ := c
    have hBase : r.seqId < base.nSeqMax := lt_of_lt_of_le hBelow (by exact_mod_cast min_le_left _ _)
    have hSwa : r.seqId < swa.nSeqMax := lt_of_lt_of_le hBelow (by exact_mod_cast min_le_right _ _)
    rw [predicted_map (f := Memory.iswa) (fun _ _ h => by cases h; rfl) rfl rfl]
    refine Guarded.both_predicted_iff.trans ?_
    refine forall_congr' fun hFirst => forall_congr' fun hSecond => ?_
    rw [LayerCache.removal_accepts_iff hBase hFirst, LayerCache.removal_accepts_iff hSwa hSecond]
  | recurrent mem =>
    rw [predicted_map (m := RecurrentMemory.removal) (f := Memory.recurrent)
      (fun _ _ h => by cases h; rfl) rfl rfl, Guarded.predicted_iff]
    exact ⟨fun _ => trivial, fun _ => ⟨fun hCan => RecurrentMemory.removal_accepts hCan,
      RecurrentMemory.removal_refuses mem r⟩⟩
  | hybrid mem =>
    obtain ⟨recr, attn⟩ := mem
    have hAttn : r.seqId < attn.nSeqMax := lt_of_lt_of_le hBelow (by exact_mod_cast min_le_right _ _)
    rw [predicted_map (f := Memory.hybrid) (fun _ _ h => by cases h; rfl) rfl rfl]
    refine Guarded.both_predicted_iff.trans ?_
    refine forall_congr' fun hFirst => forall_congr' fun hSecond => ?_
    rw [LayerCache.removal_accepts_iff hAttn hSecond,
      and_iff_right (RecurrentMemory.removal_accepts hFirst)]
  | dsv4 d =>
    rw [predicted_map (f := Memory.dsv4) (fun _ _ h => by cases h; rfl) rfl rfl]
    exact Dsv4.removal_predicted_iff hBelow

/-! ### A removal that is promised and refused -/

theorem fourCells_groups : 0 < 1 ∧ 0 < 1 ∧ 4 % 1 = 0 := by decide

theorem noTail_seqs : ∀ t ∈ (none : Option TailConfig), t.nSeqMax = 2 := by
  intro t h
  cases h

/-- The configuration of a small cache. -/
def smallConfig : CacheConfig where
  size := 4
  nSeqMax := 2
  unified := false
  seqsFit := CacheConfig.seqsFit_two
  groups := fourCells_groups
  tailSeqs := noTail_seqs

def smallCache : PlainCache where
  cfg := smallConfig
  noTailCfg := rfl
  cache := KvCache.new smallConfig
  plain := ⟨rfl, rfl⟩

/-- A `llama_kv_cache_dsv4` without snapshots, as the constructor leaves it. -/
def smallDsv4 : Dsv4 where
  nSeqMax := 2
  nRsSeq := 0
  base := smallCache
  swa := KvCache.new smallConfig
  csa := smallCache
  hca := smallCache
  lid := smallCache

/-- Four tokens of sequence 0. -/
def fourTokens : Ubatch where
  tokens := (List.range 4).map fun p => { pos := p, seqId := [0] }
  seqIdUnq := [0]

def filledSwa : KvCache :=
  finalState (KvCache.applyUbatch [⟨0, [0, 1, 2, 3]⟩] fourTokens) (KvCache.new smallConfig)

set_option maxRecDepth 20000 in
theorem filledSwa_plain : filledSwa.Plain smallConfig := ⟨rfl, rfl⟩

def filledCache : PlainCache where
  cfg := smallConfig
  noTailCfg := rfl
  cache := filledSwa
  plain := filledSwa_plain

/-- All caches hold the four tokens, and a rollback may go back by two. -/
def filledDsv4 : Dsv4 where
  nSeqMax := 2
  nRsSeq := 2
  base := filledCache
  swa := filledSwa
  csa := filledCache
  hca := filledCache
  lid := filledCache

set_option maxRecDepth 20000 in
/-- The last two tokens are taken back, as the query has promised. -/
theorem filledDsv4_predicted :
    filledDsv4.seqPosMax 0 = 3 ∧ (0 : Int) < (Memory.dsv4 filledDsv4).seqLimit ∧
      removal.can (.dsv4 filledDsv4) ⟨0, 2, -1⟩ = true ∧
      removal.Predicted (.dsv4 filledDsv4) ⟨0, 2, -1⟩ := by
  have hMax : filledDsv4.seqPosMax 0 = 3 := by decide +kernel
  refine ⟨hMax, by decide, rfl, (seqRm_predicted_iff _ _ (by decide)).mpr ⟨⟨by decide, ?_⟩, by decide,
    fun _ => ⟨by decide, Or.inr ⟨?_, by decide +kernel⟩⟩⟩⟩
  · intro t ht
    cases filledSwa_plain.noTail.symm.trans ht
  · rw [hMax]
    decide

/-- Nobody has overridden the query: `seq_rm` refuses a range that it had promised. -/
theorem smallDsv4_refuses :
    (0 : Int) < (Memory.dsv4 smallDsv4).seqLimit ∧
      removal.can (.dsv4 smallDsv4) ⟨0, 0, 2⟩ = true ∧
      removal.run (.dsv4 smallDsv4) ⟨0, 0, 2⟩ = some (false, .dsv4 smallDsv4) ∧
      ¬ removal.Predicted (.dsv4 smallDsv4) ⟨0, 0, 2⟩ := by
  have hRun : removal.run (.dsv4 smallDsv4) ⟨0, 0, 2⟩ = some (false, .dsv4 smallDsv4) := rfl
  refine ⟨by decide, rfl, hRun, ?_⟩
  rintro ⟨b, m', hSome, hb, -⟩
  cases hSome
  cases hb

end Memory

end Beellama.Ports
