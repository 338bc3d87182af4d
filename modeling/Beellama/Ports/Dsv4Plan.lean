import Beellama.Ports.BatchAllocr
import Beellama.Ports.Dsv4Rows
import Beellama.Verified.RowStore

/-!
# The compressor plans of `llama_kv_cache_dsv4`

`dsv4_build_comp_plan` says for one micro-batch which rows of a compressor state are restored, which
are gathered into every block, and which go to the ring and to the snapshots.  The graph of
`models/deepseek4.cpp` executes the plan: restore, blocks, snapshots, ring.

A row of `ρ` is what the graph computes of a token, keys and scores together, and `Dsv4Graph.compress`
what it makes of the gathered rows, a row of `κ`.
-/

namespace Beellama.Ports

open Beellama.Verified

/-! ## Micro-batches -/

namespace SplitUbatch

/-- `ubatch.pos[i]` -/
def posAt (u : SplitUbatch) (i : Nat) : Int := u.pos.getD i 0

/-- `ubatch.seq_id[i]` -/
def seqsAt (u : SplitUbatch) (i : Nat) : List Nat := u.seqId.getD i []

/-- `dsv4_ubatch_has_coupled` -/
def hasCoupled (u : SplitUbatch) : Bool :=
  (List.range u.nTokens).any fun i => 1 < (u.seqsAt i).length

/-- The tokens of a sequence: `dsv4_token_has_seq` -/
def tokenIdxs (u : SplitUbatch) (s : Nat) : List Nat :=
  (List.range u.nTokens).filter fun i => s ∈ u.seqsAt i

/-- `curr_token_idx_map`: the last token of the sequence at the position. -/
def tokenAt (u : SplitUbatch) (s : Nat) (pos : Int) : Option Nat :=
  (List.range u.nTokens).reverse.find? fun i => s ∈ u.seqsAt i ∧ u.posAt i = pos

/-- The first token of the sequence with a position. -/
def firstToken (u : SplitUbatch) (s : Nat) : Option Nat :=
  (List.range u.nTokens).find? fun i => 0 ≤ u.posAt i ∧ s ∈ u.seqsAt i

end SplitUbatch

/-! ## Plans -/

structure PlanArgs where
  ratio : Nat
  overlap : Bool
  stateSize : Nat
  kvSize : Nat
  nStream : Nat
  nRsSeq : Nat
  deriving DecidableEq, Repr

/-- `comp_plan` -/
structure CompPlan where
  statePos : List Nat
  statePersist : List (Nat × Nat)
  stateRestore : List (Nat × Nat)
  stateSnapshot : List (Nat × Nat)
  stateReadIdxs : List Nat
  stateWriteIdxs : List Nat
  stateWritePos : List Int
  nVisible : List Nat
  nStream : Nat
  nKv : Nat
  deriving DecidableEq, Repr

/-- `persist_row` -/
structure PersistRow where
  dst : Nat
  src : Nat
  pos : Int
  deriving DecidableEq, Repr

/-- What the loop over the tokens collects. -/
structure PlanAcc where
  persistRows : List PersistRow := []
  readIdxs : List Nat := []
  prevReads : List Nat := []
  curReads : List Nat := []
  writeIdxs : List Nat := []
  writePos : List Int := []
  /-- `state_write_counts` -/
  counts : Nat → Nat := fun _ => 0

/-- `GGML_PAD(x, 256)` -/
def pad256 (x : Nat) : Nat := (x + 255) / 256 * 256

/-- `dsv4_comp_size`, padded -/
def compSize (kvSize ratio : Nat) : Nat := pad256 (max 1 ((kvSize + ratio - 1) / ratio))

/-- `dsv4_stream_offset` -/
def streamOffset (nStream s size : Nat) : Except String Nat :=
  if nStream ≤ 1 then .ok 0
  else if nStream ≤ s then .error "DSV4 sequence id out of stream range"
  else .ok (s * size)

/-- `dsv4_comp_graph_n_stream` -/
def compGraphNStream (u : SplitUbatch) (nStream : Nat) : Nat :=
  if nStream ≤ 1 ∨ u.seqIdUnq.length ≤ 1 ∨ u.hasCoupled then 1 else u.seqIdUnq.length

namespace PlanArgs

def stateRows (a : PlanArgs) : Nat := a.stateSize * a.nStream

/-- `state_source_idx` -/
def sourceIdx (a : PlanArgs) (u : SplitUbatch) (s : Nat) (pos : Int) : Except String Nat :=
  if pos < 0 then .ok (a.stateRows + u.nTokens)
  else
    match u.tokenAt s pos with
    | some i => .ok (a.stateRows + i)
    | none => do
        let off ← streamOffset a.nStream s a.stateSize
        return off + pos.toNat % a.stateSize

/-- The rows of `ratio` positions. -/
def window (a : PlanArgs) (u : SplitUbatch) (s : Nat) (start : Int) : Except String (List Nat) :=
  (List.range a.ratio).mapM fun j => a.sourceIdx u s (start + j)

end PlanArgs

/-- Keep the latest row of a slot of the ring. -/
def persist (row : PersistRow) : List PersistRow → List PersistRow
  | [] => [row]
  | r :: rest =>
    if r.dst = row.dst then
      if r.pos < row.pos then { r with src := row.src, pos := row.pos } :: rest else r :: rest
    else r :: persist row rest

/-- Append a block. -/
def PlanAcc.addBlock (acc : PlanAcc) (a : PlanArgs) (dst : Nat) (pos : Int) (prev cur : List Nat) :
    PlanAcc :=
  let acc := { acc with writeIdxs := acc.writeIdxs ++ [dst], writePos := acc.writePos ++ [pos] }
  if a.overlap then
    { acc with prevReads := acc.prevReads ++ prev, curReads := acc.curReads ++ cur }
  else { acc with readIdxs := acc.readIdxs ++ cur }

namespace PlanArgs

/-- One sequence of token `i`. -/
def planSeq (a : PlanArgs) (u : SplitUbatch) (i : Nat) (acc : PlanAcc) (s : Nat) :
    Except String PlanAcc := do
  let pos := u.posAt i
  let off ← streamOffset a.nStream s a.stateSize
  let row : PersistRow := ⟨off + pos.toNat % a.stateSize, i, pos⟩
  let acc := { acc with persistRows := persist row acc.persistRows }
  if (pos + 1) % a.ratio ≠ 0 then return acc
  else
    let start := pos + 1 - a.ratio
    let cacheOff ← streamOffset a.nStream s a.kvSize
    let acc := { acc with counts := Function.update acc.counts s (acc.counts s + 1) }
    let prev ← if a.overlap then a.window u s (start - a.ratio) else pure []
    let cur ← a.window u s start
    return acc.addBlock a (cacheOff + (pos / a.ratio).toNat) start prev cur

/-- Token `i`. -/
def planToken (a : PlanArgs) (u : SplitUbatch) (acc : PlanAcc) (i : Nat) : Except String PlanAcc :=
  if u.posAt i < 0 then .ok acc else (u.seqsAt i).foldlM (a.planSeq u i) acc

/-- `append_dummy_block`: all its rows are the row of token `i`, and it is written to the last
row of the stream. -/
def dummyBlock (a : PlanArgs) (u : SplitUbatch) (acc : PlanAcc) (s i : Nat) :
    Except String PlanAcc := do
  let cacheOff ← streamOffset a.nStream s a.kvSize
  let src ← a.sourceIdx u s (u.posAt i)
  let reads := List.replicate a.ratio src
  return acc.addBlock a (cacheOff + a.kvSize - 1) 0 reads reads

/-- Pad one sequence to `nBlocks` blocks. -/
def padSeq (a : PlanArgs) (u : SplitUbatch) (nBlocks : Nat) (acc : PlanAcc) (s : Nat) :
    Except String PlanAcc :=
  if nBlocks ≤ acc.counts s then .ok acc
  else if acc.counts s + 1 ≠ nBlocks then
    .error "DSV4 CSA sequence positions are not contiguous"
  else
    match u.firstToken s with
    | none => .error "assertion failed: i < ubatch.n_tokens"
    | some i => a.dummyBlock u acc s i

/-- Pad each stream to the block count of the reserve plan. -/
def padBlocks (a : PlanArgs) (u : SplitUbatch) (acc : PlanAcc) : Except String PlanAcc :=
  if u.hasCoupled then
    if acc.writeIdxs ≠ [] then .ok acc
    else
      match (List.range u.nTokens).find? fun i => 0 ≤ u.posAt i with
      | none => .error "assertion failed: i < ubatch.n_tokens"
      | some i => a.dummyBlock u acc ((u.seqsAt i).getD 0 0) i
  else
    let nBlocks := (max 1 u.nSeqTokens + a.ratio - 1) / a.ratio
    u.seqIdUnq.foldlM (a.padSeq u nBlocks) acc

/-- The plane that the next micro-batch of a sequence continues from. -/
def restorePlane (a : PlanArgs) (rsIdx : Nat → Nat) (s : Nat) : Nat :=
  if 0 < rsIdx s ∧ rsIdx s ≤ a.nRsSeq then rsIdx s else 0

/-- The rows of a sequence that are restored. -/
def restoreSeq (a : PlanArgs) (rsIdx : Nat → Nat) (s : Nat) : List (Nat × Nat) :=
  (List.range a.stateSize).map fun r =>
    (a.restorePlane rsIdx s * a.stateRows + (s * a.stateSize + r), s * a.stateSize + r)

/-- Where row `r` of snapshot `d` comes from: from the ring with all tokens but the last `d`,
or from an older snapshot. -/
def snapshotSrc (a : PlanArgs) (u : SplitUbatch) (s d r : Nat) : Nat :=
  let toks := u.tokenIdxs s
  if d ≤ toks.length then
    (toks.take (toks.length - d)).foldl
      (fun src i =>
        if 0 ≤ u.posAt i ∧ (u.posAt i).toNat % a.stateSize = r then
          a.stateRows * (1 + a.nRsSeq) + i
        else src)
      (s * a.stateSize + r)
  else (d - toks.length) * a.stateRows + (s * a.stateSize + r)

def snapshotSeq (a : PlanArgs) (u : SplitUbatch) (s : Nat) : List (Nat × Nat) :=
  if u.tokenIdxs s = [] then []
  else
    (List.range a.nRsSeq).flatMap fun d =>
      (List.range a.stateSize).map fun r =>
        (a.snapshotSrc u s (d + 1) r, (d + 1) * a.stateRows + (s * a.stateSize + r))

/-- The sequences that have planes. -/
def planSeqs (a : PlanArgs) (u : SplitUbatch) : List Nat :=
  if a.nRsSeq = 0 then [] else u.seqIdUnq.filter (· < a.nStream)

/-- `state_pos` -/
def statePos (a : PlanArgs) (u : SplitUbatch) : List Nat :=
  ((List.range u.nTokens).filter fun i => 0 ≤ u.posAt i).map fun i => (u.posAt i).toNat % a.ratio

/-- `n_visible` -/
def nVisible (a : PlanArgs) (u : SplitUbatch) : List Nat :=
  (List.range u.nTokens).map fun i =>
    if u.posAt i < 0 then 0 else ((u.posAt i + 1) / a.ratio).toNat

/-- The blocks: the loop over the tokens and the padding. -/
def planBlocks (a : PlanArgs) (u : SplitUbatch) : Except String PlanAcc := do
  let acc ← (List.range u.nTokens).foldlM (a.planToken u) {}
  if a.ratio = 4 ∧ a.statePos u ≠ [] then a.padBlocks u acc else return acc

end PlanArgs

/-- `dsv4_build_comp_plan` -/
def buildCompPlan (a : PlanArgs) (rsIdx : Nat → Nat) (u : SplitUbatch) : Except String CompPlan :=
  if a.nStream ≤ 1 ∧ 1 < u.seqIdUnq.length then
    .error "DSV4 single compressed stream cannot serve multiple sequences"
  else do
    let acc ← a.planBlocks u
    let rows := acc.persistRows.mergeSort fun x y => x.dst ≤ y.dst
    return {
      statePos := a.statePos u
      statePersist := rows.map fun row => (row.src, row.dst)
      stateRestore := (a.planSeqs u).flatMap (a.restoreSeq rsIdx)
      stateSnapshot := (a.planSeqs u).flatMap (a.snapshotSeq u)
      -- the previous windows of all blocks, then the current ones
      stateReadIdxs := acc.readIdxs ++ acc.prevReads ++ acc.curReads
      stateWriteIdxs := acc.writeIdxs
      stateWritePos := acc.writePos
      nVisible := a.nVisible u
      nStream := compGraphNStream u a.nStream
      nKv := pad256 ((a.nVisible u).foldl max 0) }

/-! ## Execution -/

/-- What the graph computes. -/
structure Dsv4Graph (κ ρ : Type) where
  /-- the row that is appended for positions before the first: keys 0, scores −∞ -/
  zeroRow : ρ
  /-- a block, from its position and the rows of the previous and the current window -/
  compress : Dsv4Part → Int → List ρ → List ρ → κ

namespace CompPlan

variable {κ ρ : Type}

/-- `dsv4_build_state_restore` -/
def restore (plan : CompPlan) (a : PlanArgs) (rows : Nat → Nat → ρ) : Nat → Nat → ρ :=
  setRows a.stateSize rows
    (plan.stateRestore.map fun pair => (pair.2, rowAt a.stateSize rows pair.1))

/-- A row of the ring planes, the rows of the micro-batch, and the appended row. -/
def sourceRow (a : PlanArgs) (nTokens : Nat) (rows : Nat → Nat → ρ) (scratch : Nat → ρ)
    (zeroRow : ρ) (k : Nat) : ρ :=
  if k < a.stateRows then rowAt a.stateSize rows k
  else if k < a.stateRows + nTokens then scratch (k - a.stateRows)
  else zeroRow

/-- The rows of block `j`: the previous window and the current one. -/
def blockRows (plan : CompPlan) (a : PlanArgs) (j : Nat) : List Nat × List Nat :=
  let chunk k := (plan.stateReadIdxs.drop (k * a.ratio)).take a.ratio
  if a.overlap then (chunk j, chunk (plan.stateWritePos.length + j)) else ([], chunk j)

/-- The compressed rows that are written, with their indices. -/
def blocks (plan : CompPlan) (a : PlanArgs) (compress : Int → List ρ → List ρ → κ)
    (source : Nat → ρ) : List (Nat × κ) :=
  (List.range plan.stateWritePos.length).map fun j =>
    let rows := plan.blockRows a j
    (plan.stateWriteIdxs.getD j 0,
      compress (plan.stateWritePos.getD j 0) (rows.1.map source) (rows.2.map source))

/-- `dsv4_build_state_snapshot` -/
def snapshot (plan : CompPlan) (a : PlanArgs) (rows : Nat → Nat → ρ) (scratch : Nat → ρ) :
    Nat → Nat → ρ :=
  let scratchOff := a.stateRows * (1 + a.nRsSeq)
  setRows a.stateSize rows (plan.stateSnapshot.map fun pair =>
    (pair.2, if pair.1 < scratchOff then rowAt a.stateSize rows pair.1
      else scratch (pair.1 - scratchOff)))

/-- The ring. -/
def persist (plan : CompPlan) (a : PlanArgs) (rows : Nat → Nat → ρ) (scratch : Nat → ρ) :
    Nat → Nat → ρ :=
  setRows a.stateSize rows (plan.statePersist.map fun pair => (pair.2, scratch pair.1))

end CompPlan

/-- A micro-batch and the rows that the graph computes of its tokens. -/
structure Micro (ρ : Type) where
  u : SplitUbatch
  rows : Dsv4Part → Nat → ρ

def Dsv4Part.planArgs (p : Dsv4Part) (kvSize nSeqMax nRsSeq : Nat) : PlanArgs :=
  match p with
  | .hca => ⟨128, false, 128, compSize kvSize 128, nSeqMax, nRsSeq⟩
  | _ => ⟨4, true, 8, compSize kvSize 4, nSeqMax, nRsSeq⟩

namespace Dsv4Graph

variable {κ ρ : Type}

/-- Execute the plan of one micro-batch for a part. -/
def execute (g : Dsv4Graph κ ρ) (p : Dsv4Part) (a : PlanArgs) (plan : CompPlan) (b : Micro ρ)
    (rows : Nat → Nat → ρ) (cache : Nat → Nat → κ) : (Nat → Nat → ρ) × (Nat → Nat → κ) :=
  if plan.statePos = [] then (rows, cache)
  else
    let scratch := b.rows p
    let restored := plan.restore a rows
    let source := CompPlan.sourceRow a b.u.nTokens restored scratch g.zeroRow
    (plan.persist a (plan.snapshot a restored scratch) scratch,
      setRows a.kvSize cache (plan.blocks a (g.compress p) source))

/-- The plans of a batch, one after the other. -/
def executeAll (g : Dsv4Graph κ ρ) (p : Dsv4Part) (a : PlanArgs) (rows : Nat → Nat → ρ)
    (cache : Nat → Nat → κ) : List (Micro ρ × CompPlan) → (Nat → Nat → ρ) × (Nat → Nat → κ)
  | [] => (rows, cache)
  | (b, plan) :: rest =>
    let next := g.execute p a plan b rows cache
    g.executeAll p a next.1 next.2 rest

end Dsv4Graph

namespace Dsv4Rows

variable {nSeqMax nRsSeq : Nat} {κ ρ : Type}

/-- `reset_rs_idx_for_ubatches` -/
def resetRsIdx (m : Dsv4Rows nSeqMax nRsSeq κ ρ) (bs : List (Micro ρ)) : Nat → Nat := fun s =>
  if nRsSeq ≠ 0 ∧ s < nSeqMax ∧ ∃ b ∈ bs, ∃ i < b.u.nTokens, s ∈ b.u.seqsAt i then 0
  else m.rsIdx s

/-- `dsv4_build_comp_plans` -/
def buildCompPlans (m : Dsv4Rows nSeqMax nRsSeq κ ρ) (kvSize : Nat) (bs : List (Micro ρ))
    (p : Dsv4Part) : Except String (List CompPlan) :=
  bs.mapM fun b => buildCompPlan (p.planArgs kvSize nSeqMax nRsSeq) m.rsIdx b.u

/-- A batch: the context of all its micro-batches is built first, which also resets the
rollback indices; then they are computed. -/
def decode (g : Dsv4Graph κ ρ) (kvSize : Nat) (m : Dsv4Rows nSeqMax nRsSeq κ ρ)
    (bs : List (Micro ρ)) : Except String (Dsv4Rows nSeqMax nRsSeq κ ρ) := do
  let csa ← m.buildCompPlans kvSize bs .csa
  let hca ← m.buildCompPlans kvSize bs .hca
  let lid ← m.buildCompPlans kvSize bs .lid
  let plans : Dsv4Part → List CompPlan
    | .csa => csa
    | .hca => hca
    | .lid => lid
  let result p := g.executeAll p (p.planArgs kvSize nSeqMax nRsSeq) (m.state p).rows
    (m.cache p).rows (bs.zip (plans p))
  return {
    cache := fun p => { m.cache p with rows := (result p).2 }
    state := fun p => { m.state p with rows := (result p).1 }
    rsIdx := m.resetRsIdx bs }

end Dsv4Rows

end Beellama.Ports
