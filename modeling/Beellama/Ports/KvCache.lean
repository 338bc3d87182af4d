import Beellama.Ports.KvCells
import Beellama.Ports.KvTailStore

/-!
# The KV cache (`llama_kv_cache`): state and sequence operations

The metadata side of `src/src/llama-kv-cache.cpp`: a cell table and a search head per stream, the
exact-tail store, and the allocation heads.  A cache that shares the cells of another one returns
from every method at once and is left out.

An operation keeps what it has written when it throws; a failed `GGML_ASSERT` is `assertFailed`.
-/

namespace Beellama.Ports

open TailStore

/-- `llama_swa_type` -/
inductive SwaType
  | none
  | standard
  | chunked
  | symmetric
  deriving DecidableEq, Repr

/-- The cast to `int32_t`. -/
def toInt32 (n : Nat) : Int := (n : Int).bmod (2 ^ 32)

/-- `llama_hparams::is_masked_swa`, which asserts that the positions are not negative; the window is
an unsigned number of 32 bits, cast where a signed one is compared with it. -/
def isMaskedSwa (nSwa : Nat) (swaType : SwaType) (p0 p1 : Int) : Bool :=
  match swaType with
  | .none => false
  | .standard => toInt32 nSwa ≤ p1 - p0
  | .chunked => p0 < ((p1.toNat / nSwa * nSwa : Nat) : Int)
  | .symmetric => p1 - p0 < -(toInt32 nSwa).tdiv 2 ∨ (toInt32 nSwa).tdiv 2 < p1 - p0

/-- The constructor arguments, with what the constructors and
`set_allocation_group_size` check. -/
structure CacheConfig where
  /-- cells per stream -/
  size : Nat
  nSeqMax : Nat
  unified : Bool
  nSwa : Nat := 0
  swaType : SwaType := .none
  nPosPerEmbd : Nat := 1
  allocationGroupSize : Nat := 1
  allocationStageGroups : Nat := 1
  tailCfg : Option TailConfig := none
  /-- `tail_metadata_only || has_owned_body || has_shared_body` -/
  tailHasBody : Bool := true
  tailRollbackTokens : Nat := 0
  seqsFit : 0 < nSeqMax ∧ nSeqMax ≤ maxSeq
  groups : 0 < allocationGroupSize ∧ 0 < allocationStageGroups ∧
    size % allocationGroupSize = 0
  tailSeqs : ∀ t ∈ tailCfg, t.nSeqMax = nSeqMax

namespace CacheConfig

theorem seqsFit_two : 0 < 2 ∧ 2 ≤ maxSeq := by decide

def nStream (cfg : CacheConfig) : Nat := if cfg.unified then 1 else cfg.nSeqMax

/-- `seq_to_stream.size()` -/
def seqLimit (cfg : CacheConfig) : Nat := if 1 < cfg.nStream then cfg.nStream else maxSeq

/-- `seq_to_stream[s]` -/
def seqToStream (cfg : CacheConfig) (s : Nat) : Nat := if 1 < cfg.nStream then s else 0

/-- `has_compact_tail()` -/
def hasCompactTail (cfg : CacheConfig) : Bool := cfg.tailCfg.any (·.compact)

/-- The per-sequence allocation heads are in use. -/
def grouped (cfg : CacheConfig) : Bool := 1 < cfg.allocationGroupSize ∧ cfg.nStream = 1

/-- The sequence ids the methods accept. -/
def validSeq (cfg : CacheConfig) (seqId : Int) : Bool := 0 ≤ seqId ∧ seqId < cfg.seqLimit

end CacheConfig

/-- `stream_copy_info`: buffer copies queued by `seq_cp`. -/
structure StreamCopyInfo where
  /-- `ssrc` and `sdst` -/
  streams : List (Nat × Nat) := []
  /-- `tail_src_slots` and `tail_dst_slots` -/
  tailSlots : List SlotCopy := []
  tailTransaction : Bool := false

def StreamCopyInfo.isEmpty (info : StreamCopyInfo) : Bool :=
  info.streams.isEmpty && info.tailSlots.isEmpty && !info.tailTransaction

structure KvCache where
  cfg : CacheConfig
  /-- `v_cells` -/
  cells : Nat → KvCells
  /-- `v_heads` -/
  heads : Nat → Nat := fun _ => 0
  /-- `allocation_seq_heads` -/
  allocationHeads : Nat → Nat := fun _ => 0
  tail : Option TailStore := none
  /-- `tail_generations` -/
  generations : Nat → Nat → Nat := fun _ _ => 0
  /-- `tail_generations_before_batch`, `none` when the vector is empty -/
  generationsBefore : Option (Nat → Nat → Nat) := none
  /-- `tail_ordinal` -/
  ordinal : Nat := 0
  tailPreparing : Bool := false
  scInfo : StreamCopyInfo := {}

/-- What the methods throw. -/
inductive CacheError
  | tail (e : TailError)
  | stageAlias
  | noOwner
  | invalidOwner
  /-- a `GGML_ASSERT` ended the process -/
  | assertFailed
  deriving DecidableEq, Repr

/-- The texts of the exceptions. -/
def CacheError.what : CacheError → String
  | .tail e => e.what
  | .stageAlias => "structured KV live groups alias one F16 stage slot"
  | .noOwner => "structured KV allocation token has no sequence owner"
  | .invalidOwner => "structured KV allocation token has an invalid sequence owner"
  | .assertFailed => "GGML_ASSERT"

abbrev CacheM := EStateM CacheError KvCache

namespace KvCache

/-- A cache as the constructor leaves it. -/
def new (cfg : CacheConfig) : KvCache where
  cfg
  cells _ := { size := cfg.size }
  tail := cfg.tailCfg.map fun t => { cfg := t }

/-! ## Helpers -/

/-- Run a method of the tail store; `skip` is the answer without a tail. -/
def onTail {α : Type} (skip : α) (x : TailM α) : CacheM α := fun c =>
  match c.tail with
  | none => .ok skip c
  | some t =>
    match x t with
    | .ok a t => .ok a { c with tail := some t }
    | .error e t => .error (.tail e) { c with tail := some t }

def ggmlAssert (p : Prop) [Decidable p] : CacheM Unit :=
  if p then pure () else throw .assertFailed

/-- Replace the cell table of one stream. -/
def setCells (c : KvCache) (stream : Nat) (cells : KvCells) : KvCache :=
  { c with cells := Function.update c.cells stream cells }

def setHead (c : KvCache) (stream head : Nat) : KvCache :=
  { c with heads := Function.update c.heads stream head }

def setAllocationHead (c : KvCache) (s head : Nat) : KvCache :=
  { c with allocationHeads := Function.update c.allocationHeads s head }

/-- One turn of a loop over all cells, which keeps the first freed cell in `new_head`. -/
def sweepTurn (body : KvCells → Nat → KvCells × Bool) (size : Nat) (acc : KvCells × Nat)
    (i : Nat) : KvCells × Nat :=
  let r := body acc.1 i
  (r.1, if r.2 ∧ acc.2 = size then i else acc.2)

/-- Run the body of a loop over all cells of a table; also returns the first
freed cell, or the size. -/
def sweep (body : KvCells → Nat → KvCells × Bool) (cells : KvCells) : KvCells × Nat :=
  (List.range cells.size).foldl (sweepTurn body cells.size) (cells, cells.size)

/-- "If we freed up a slot, set head to it so searching can start there." -/
def lowerHead (size newHead head : Nat) : Nat :=
  if newHead ≠ size ∧ newHead < head then newHead else head

/-- The lower bound of a position range; negative means zero. -/
def rangeLo (p0 : Int) : Int := if p0 < 0 then 0 else p0

/-- The upper bound; negative means the largest `llama_pos`. -/
def rangeHi (p1 : Int) : Int := if p1 < 0 then int32Max else p1

/-! ## Allocation heads -/

def resetAllocationHead (c : KvCache) (seqId : Nat) : KvCache :=
  if c.cfg.nSeqMax ≤ seqId then c else c.setAllocationHead seqId 0

/-- The cell of a sequence with the largest position, the first of them. -/
def newestCell (cells : KvCells) (s : Nat) : Option Nat :=
  ((List.range cells.size).foldl
    (fun (acc : Int × Option Nat) i =>
      if cells.seqHas i s ∧ acc.1 < cells.posGet i then (cells.posGet i, some i) else acc)
    (-1, none)).2

def rebuildAllocationHead (c : KvCache) (seqId : Nat) : KvCache :=
  if c.cfg.nSeqMax ≤ seqId ∨ !c.cfg.grouped then c
  else
    match newestCell (c.cells 0) seqId with
    | none => c.resetAllocationHead seqId
    | some cell => c.setAllocationHead seqId (cell + 1)

/-- `rebuild_allocation_head` for every sequence. -/
def rebuildAllocationHeads (c : KvCache) : KvCache :=
  (List.range c.cfg.nSeqMax).foldl rebuildAllocationHead c

/-! ## Sequence operations -/

def clear : CacheM Unit := do
  modify fun c => { c with scInfo := {} }
  onTail () TailStore.clear
  modify fun c => { c with
    ordinal := if c.tail.isSome then 0 else c.ordinal
    generations := if c.tail.isSome then fun _ _ => 0 else c.generations
    cells := fun s => if s < c.cfg.nStream then (c.cells s).reset else c.cells s
    heads := fun s => if s < c.cfg.nStream then 0 else c.heads s }
  modify fun c => (List.range c.cfg.nSeqMax).foldl resetAllocationHead c

/-- The metadata part of `materialize_pending_copies`. -/
def materializePendingCopies : CacheM Unit := do
  let c ← get
  if !c.scInfo.isEmpty then
    if c.scInfo.tailTransaction then onTail () commitSeqCp
    modify fun c => { c with scInfo := {} }

/-- Mark a sequence degraded when its tail covers less than it could. -/
def markIfIncomplete (seqId : Int) : CacheM Unit := fun c =>
  match c.tail with
  | none => .ok () c
  | some t =>
    let available := (c.cells (c.cfg.seqToStream seqId.toNat)).seqSize seqId.toNat
    let coverage := t.coverage seqId available
    if coverage.exact < coverage.requested then
      onTail () (markDegraded seqId degradedHistoricalOp) c
    else .ok () c

/-- `for (current = 0; current < n_seq_max; ++current)` -/
def forSeqs (f : Int → CacheM Unit) : CacheM Unit := do
  let c ← get
  (List.range c.cfg.nSeqMax).forM fun current => f current

/-- The cells loop of `seq_rm` for one sequence. -/
def rmBody (s : Nat) (p0 p1 : Int) (cells : KvCells) (i : Nat) : KvCells × Bool :=
  if cells.posIn i p0 p1 ∧ cells.seqHas i s then cells.seqRm i s else (cells, false)

/-- The cells loop of `seq_rm` for all sequences. -/
def rmAnyBody (p0 p1 : Int) (cells : KvCells) (i : Nat) : KvCells × Bool :=
  if cells.posIn i p0 p1 then (cells.rm i, true) else (cells, false)

/-- Sweep one stream and lower its head to the first freed cell. -/
def sweepStream (body : KvCells → Nat → KvCells × Bool) (stream : Nat) (c : KvCache) : KvCache :=
  let r := sweep body (c.cells stream)
  (c.setCells stream r.1).setHead stream
    (lowerHead (c.cells stream).size r.2 (c.heads stream))

def seqRmUnchecked (seqId p0 p1 : Int) : CacheM Unit := do
  materializePendingCopies
  let c ← get
  ggmlAssert (seqId = -1 ∨ c.cfg.validSeq seqId)
  if 0 ≤ seqId then
    onTail () (TailStore.seqRm seqId p0 p1)
    modify (sweepStream (rmBody seqId.toNat (rangeLo p0) (rangeHi p1))
      (c.cfg.seqToStream seqId.toNat))
    markIfIncomplete seqId
    modify fun c => c.rebuildAllocationHead seqId.toNat
  else
    forSeqs fun current => onTail () (TailStore.seqRm current p0 p1)
    modify fun c => (List.range c.cfg.nStream).foldl
      (fun c s => sweepStream (rmAnyBody (rangeLo p0) (rangeHi p1)) s c) c
    forSeqs markIfIncomplete
    modify rebuildAllocationHeads

def seqPosMax (c : KvCache) (seqId : Int) : Int :=
  (c.cells (c.cfg.seqToStream seqId.toNat)).seqPosMax seqId.toNat

def canSeqRm (c : KvCache) (seqId p0 p1 : Int) : Bool :=
  if !c.cfg.hasCompactTail then true
  else if !c.cfg.validSeq seqId then p0 ≤ 0 ∧ p1 < 0
  else if p0 ≤ 0 ∧ p1 < 0 then true
  else if p0 ≤ 0 ∨ 0 ≤ p1 then false
  else if c.cfg.tailHasBody then true
  else tailCanRemoveSuffix (c.seqPosMax seqId) p0 p1 c.cfg.tailRollbackTokens

def seqRm (seqId p0 p1 : Int) : CacheM Bool := do
  let c ← get
  if c.canSeqRm seqId p0 p1 then
    seqRmUnchecked seqId p0 p1
    return true
  else return false

def seqRmCell (seqId : Int) (cell : Nat) : CacheM Unit := do
  let c ← get
  ggmlAssert (c.cfg.validSeq seqId)
  let stream := c.cfg.seqToStream seqId.toNat
  let r := (c.cells stream).seqRmCell cell seqId.toNat
  set (c.setCells stream r.1)
  if r.2 then
    onTail () (TailStore.seqRmCell seqId stream cell)
    markIfIncomplete seqId
    modify fun c => c.setHead stream (if cell < c.heads stream then cell else c.heads stream)
    modify fun c => c.rebuildAllocationHead seqId.toNat

/-- `queue_tail_copies` -/
def queueTailCopies (src dst : Int) (s0 s1 : Nat) (p0 p1 : Int) : CacheM Unit := do
  let copies ← onTail [] (prepareSeqCp src dst s0 s1 p0 p1)
  modify fun c => { c with
    scInfo := { c.scInfo with
      tailSlots := c.scInfo.tailSlots ++ copies
      tailTransaction :=
        match c.tail with
        | none => c.scInfo.tailTransaction
        | some t => t.pending.isSome } }

/-- The cells loop of `seq_cp` inside one stream. -/
def cpBody (src dst : Nat) (p0 p1 : Int) (cells : KvCells) (i : Nat) : KvCells × Bool :=
  if cells.posIn i p0 p1 ∧ cells.seqHas i src then (cells.seqAdd i dst, false)
  else (cells, false)

/-- One cell of the copy between two streams: the position is entered without
its pending shift, which `pos_add` then records. -/
def copyCell (src dst : KvCells) (s d i : Nat) : KvCells :=
  if src.seqHas i s then
    let shift := src.getShift i
    let cells := (dst.posSet i (src.posGet i - shift)).seqAdd i d
    let cells := if shift ≠ 0 then (cells.posAdd i shift).1 else cells
    cells.extSet i (src.extGet i)
  else dst

/-- The metadata of `seq_cp` between two streams. -/
def copyStream (src dst s0 s1 : Nat) (c : KvCache) : KvCache :=
  let copied := (List.range (c.cells s0).size).foldl
    (fun cells i => copyCell (c.cells s0) cells src dst i) (c.cells s1).reset
  let generations i := if (c.cells s0).seqHas i src then c.generations s0 i else 0
  { c with
    scInfo := { c.scInfo with streams := c.scInfo.streams ++ [(s0, s1)] }
    cells := Function.update c.cells s1 copied
    generations :=
      if c.tail.isSome then Function.update c.generations s1 generations else c.generations }

def seqCp (src dst p0 p1 : Int) : CacheM Unit := do
  materializePendingCopies
  let c ← get
  ggmlAssert (c.cfg.validSeq src)
  ggmlAssert (c.cfg.validSeq dst)
  let s0 := c.cfg.seqToStream src.toNat
  let s1 := c.cfg.seqToStream dst.toNat
  if s0 = s1 then
    queueTailCopies src dst s0 s1 p0 p1
    if src ≠ dst then
      modify fun c => c.setCells s0
        (sweep (cpBody src.toNat dst.toNat (rangeLo p0) (rangeHi p1)) (c.cells s0)).1
      markIfIncomplete dst
      modify fun c => c.rebuildAllocationHead dst.toNat
  else
    ggmlAssert (¬ (0 < p0 ∧ p0 + 1 < c.cfg.size) ∧ ¬ (0 < p1 ∧ p1 + 1 < c.cfg.size))
    modify (copyStream src.toNat dst.toNat s0 s1)
    queueTailCopies src dst s0 s1 p0 p1
    markIfIncomplete dst
    modify fun c => c.setHead s1 (c.heads s0)
    modify fun c => c.rebuildAllocationHead dst.toNat

/-- The cells loop of `seq_keep`. -/
def keepBody (s : Nat) (cells : KvCells) (i : Nat) : KvCells × Bool := cells.seqKeep i s

def seqKeep (seqId : Int) : CacheM Unit := do
  materializePendingCopies
  let c ← get
  ggmlAssert (c.cfg.validSeq seqId)
  onTail () (TailStore.seqKeep seqId)
  modify (sweepStream (keepBody seqId.toNat) (c.cfg.seqToStream seqId.toNat))
  modify rebuildAllocationHeads

/-- The cells loop of `seq_add`. -/
def addBody (s : Nat) (p0 p1 shift : Int) (cells : KvCells) (i : Nat) : KvCells × Bool :=
  if cells.posIn i p0 p1 ∧ cells.seqHas i s then cells.posAdd i shift else (cells, false)

/-- The cells loop of `seq_div`. -/
def divBody (s : Nat) (p0 p1 d : Int) (cells : KvCells) (i : Nat) : KvCells × Bool :=
  if cells.posIn i p0 p1 ∧ cells.seqHas i s then (cells.posDiv i d, false) else (cells, false)

def seqAdd (seqId p0 p1 shift : Int) : CacheM Unit := do
  materializePendingCopies
  let c ← get
  ggmlAssert (c.cfg.validSeq seqId)
  ggmlAssert (c.cfg.nPosPerEmbd = 1)
  let stream := c.cfg.seqToStream seqId.toNat
  onTail () (TailStore.seqAdd seqId p0 p1 shift)
  if shift ≠ 0 ∧ ¬ (p0 ≤ 0 ∧ p1 < 0) then
    onTail () (markDegraded seqId degradedHistoricalOp)
  if shift ≠ 0 ∧ rangeLo p0 ≠ rangeHi p1 then
    modify fun c =>
      let r := sweep (addBody seqId.toNat (rangeLo p0) (rangeHi p1) shift) (c.cells stream)
      (c.setCells stream r.1).setHead stream
        (if r.2 ≠ (c.cells stream).size then r.2 else 0)
    modify fun c => c.rebuildAllocationHead seqId.toNat

def seqDiv (seqId p0 p1 d : Int) : CacheM Unit := do
  materializePendingCopies
  let c ← get
  ggmlAssert (c.cfg.validSeq seqId)
  ggmlAssert (c.cfg.nPosPerEmbd = 1)
  let stream := c.cfg.seqToStream seqId.toNat
  onTail () (TailStore.seqDiv seqId p0 p1 d)
  if d ≠ 1 ∧ ¬ (p0 ≤ 0 ∧ p1 < 0) then
    onTail () (markDegraded seqId degradedHistoricalOp)
  if d ≠ 1 ∧ rangeLo p0 ≠ rangeHi p1 then
    modify fun c => c.setCells stream
      (sweep (divBody seqId.toNat (rangeLo p0) (rangeHi p1) d) (c.cells stream)).1
    modify fun c => c.rebuildAllocationHead seqId.toNat

end KvCache

end Beellama.Ports
