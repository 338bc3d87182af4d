import Beellama.Ports.KvCache

/-!
# The KV cache: finding slots and placing micro-batches

`find_slot`, `apply_ubatch` and `finish_tail_batch` of `src/src/llama-kv-cache.cpp`.  A
unified cache with record groups uses the structured allocator; every other cache walks the ring of
cells from the search head, a `while (true)` with a step counter here (`searchSlots_enough`).

`s0`, `s1` and `tail_write_slots` are left out.
-/

namespace Beellama.Ports

/-- One token of a micro-batch. -/
structure UbatchToken where
  pos : Int := 0
  /-- the second and third row of a 2D position -/
  ext : KvCellExt := {}
  seqId : List Nat := []
  deriving DecidableEq, Repr, Inhabited

/-- `llama_ubatch`.  A sequence id is a natural number: the batch allocator
rejects negative ones. -/
structure Ubatch where
  tokens : List UbatchToken
  /-- `seq_id_unq` -/
  seqIdUnq : List Nat
  isPos2d : Bool := false
  deriving DecidableEq, Repr

def Ubatch.token (u : Ubatch) (i : Nat) : UbatchToken := u.tokens.getD i default

/-- A micro-batch of the batch allocator: owners are distinct, and tokens of several streams are
grouped by sequence.  Positions are not negative, though the allocator lets -1 pass too. -/
structure Ubatch.WellFormed (cfg : CacheConfig) (u : Ubatch) : Prop where
  unique : u.seqIdUnq.Nodup
  pos : ∀ tok ∈ u.tokens, 0 ≤ tok.pos
  owners : ∀ tok ∈ u.tokens, tok.seqId.Nodup ∧ ∀ s ∈ tok.seqId, s < cfg.nSeqMax
  grouped : 1 < cfg.nStream → ∀ s q, u.seqIdUnq[s]? = some q →
    ∀ i < u.tokens.length / u.seqIdUnq.length,
      (u.token (s * (u.tokens.length / u.seqIdUnq.length) + i)).seqId = [q]

/-- The slots of one stream. -/
structure SlotRun where
  strm : Nat
  idxs : List Nat
  deriving DecidableEq, Repr

/-- `slot_info`; no run at all is the empty result of `find_slot`. -/
abbrev SlotInfo := List SlotRun

/-- `slot_info::size`: the number of slots of the first stream. -/
def slotCount (sinfo : SlotInfo) : Nat := (sinfo.head?.map fun r => r.idxs.length).getD 0

namespace KvCache

/-! ## Record groups -/

/-- The cells of a record group. -/
def groupCells (groupSize size group : Nat) : List Nat :=
  (List.range' (group * groupSize) groupSize).filter fun i => i < size

/-- Every cell in use of the group is owned by exactly the sequences `seqs`. -/
def compatible (cells : KvCells) (groupSize group : Nat) (seqs : List Nat) : Bool :=
  (groupCells groupSize cells.size group).all fun i =>
    cells.isEmpty i ||
      (decide (cells.seqCount i = seqs.length) && seqs.all fun s => cells.seqHas i s)

/-! ## The structured allocator -/

/-- The local variables of the structured search. -/
structure GroupSearch where
  heads : Nat → Nat
  reserved : Nat → Bool := fun _ => false
  groupUsed : Nat → Nat
  /-- the group that occupies a stage slot, `none` for `-1` -/
  stageOwners : Nat → Option Nat := fun _ => none

def stageSlot (stageGroups group : Nat) : Nat :=
  if group = 0 then 0 else 1 + (group - 1) % stageGroups

/-- Enter the frontier of every sequence into the stage. -/
def stageFrontiers (cfg : CacheConfig) (heads : Nat → Nat) :
    List Nat → (Nat → Option Nat) → Except CacheError (Nat → Option Nat)
  | [], owners => .ok owners
  | s :: ss, owners =>
    let head := heads s
    let group := (head - 1) / cfg.allocationGroupSize
    if head = 0 ∨ head % cfg.allocationGroupSize = 0 ∨ group = 0 then
      stageFrontiers cfg heads ss owners
    else
      let slot := stageSlot cfg.allocationStageGroups group
      if (owners slot).any (· ≠ group) then .error .stageAlias
      else stageFrontiers cfg heads ss (Function.update owners slot (some group))

def groupSearch (c : KvCache) : Except CacheError GroupSearch := do
  let cells := c.cells 0
  let owners : Nat → Option Nat := fun slot =>
    if slot = 0 ∧ !cells.isEmpty 0 then some 0 else none
  let owners ← stageFrontiers c.cfg c.allocationHeads (List.range c.cfg.nSeqMax) owners
  return {
    heads := c.allocationHeads
    groupUsed := fun group => ((List.range cells.size).filter fun i =>
      i / c.cfg.allocationGroupSize = group ∧ !cells.isEmpty i).length
    stageOwners := owners }

/-- The structured allocator may give the cell to a token of `seqs`. -/
def groupUsable (c : KvCache) (st : GroupSearch) (seqs : List Nat) (idx : Nat) : Bool :=
  let cells := c.cells 0
  let group := idx / c.cfg.allocationGroupSize
  let slot := stageSlot c.cfg.allocationStageGroups group
  !st.reserved idx && cells.isEmpty idx &&
    compatible cells c.cfg.allocationGroupSize group seqs &&
    !(decide (st.groupUsed group = 0) && (st.stageOwners slot).any (· ≠ group))

/-- The first usable cell from the head on, wrapping at the end of the table. -/
def nextGroupCell (c : KvCache) (st : GroupSearch) (seqs : List Nat) : Nat → Nat → Option Nat
  | 0, _ => none
  | tests + 1, head =>
    let idx := if (c.cells 0).size ≤ head then 0 else head
    if groupUsable c st seqs idx then some idx else nextGroupCell c st seqs tests (idx + 1)

/-- Reserve a cell for a token of `seqs`. -/
def reserveCell (cfg : CacheConfig) (st : GroupSearch) (seqs : List Nat) (idx : Nat) :
    GroupSearch :=
  let group := idx / cfg.allocationGroupSize
  let slot := stageSlot cfg.allocationStageGroups group
  let owners :=
    if st.groupUsed group = 0 then Function.update st.stageOwners slot (some group)
    else st.stageOwners
  let used := st.groupUsed group + 1
  { heads := seqs.foldl (fun heads s => Function.update heads s (idx + 1)) st.heads
    reserved := Function.update st.reserved idx true
    groupUsed := Function.update st.groupUsed group used
    stageOwners :=
      if used = cfg.allocationGroupSize ∧ 0 < group then Function.update owners slot none
      else owners }

/-- Find a cell for every token; `none` when one of them finds no cell. -/
def groupSlots (c : KvCache) : List UbatchToken → GroupSearch →
    Except CacheError (Option (List Nat))
  | [], _ => .ok (some [])
  | tok :: toks, st =>
    match tok.seqId.min? with
    | none => .error .noOwner
    | some owner =>
      if tok.seqId.any (c.cfg.nSeqMax ≤ ·) then .error .invalidOwner
      else
        match nextGroupCell c st tok.seqId (c.cells 0).size (st.heads owner) with
        | none => .ok none
        | some idx => do
            let rest ← groupSlots c toks (reserveCell c.cfg st tok.seqId idx)
            return rest.map (idx :: ·)

/-! ## The ring search -/

/-- The local variables of the ring search. -/
structure RingSearch where
  head : Nat
  tested : Nat := 0
  idxs : List Nat := []

section Ring

variable (cfg : CacheConfig) (cells : KvCells) (u : Ubatch) (cont : Bool) (s seqId nTokens : Nat)

/-- The sequences of the token that takes the next free cell. -/
def nextOwners (found : Nat) : List Nat :=
  if cfg.nStream = 1 then (u.token found).seqId else [seqId]

/-- A cell with one sequence whose position the attention window no longer
reaches. -/
def swaReusable (idx : Nat) : Bool :=
  cells.seqCount idx = 1 ∧
    (cells.seqGet idx).any fun owner =>
      isMaskedSwa cfg.nSwa cfg.swaType (cells.posGet idx) (cells.seqPosMax owner + 1)

/-- The ring search may use the cell. -/
def canUse (idx found : Nat) : Except CacheError Bool :=
  if cells.isEmpty idx ∧ 1 < cfg.allocationGroupSize then
    if nextOwners cfg u seqId found = [] then .error .noOwner
    else .ok (compatible cells cfg.allocationGroupSize (idx / cfg.allocationGroupSize)
      (nextOwners cfg u seqId found) || swaReusable cfg cells idx)
  else .ok (cells.isEmpty idx || swaReusable cfg cells idx)

/-- Test `n` cells from the head on; a continuous search stops at the first
cell it cannot use. -/
def testCells : Nat → RingSearch → Except CacheError RingSearch
  | 0, st => .ok st
  | n + 1, st => do
      let next : RingSearch := { st with head := st.head + 1, tested := st.tested + 1 }
      if ← canUse cfg cells u seqId st.head st.idxs.length then
        testCells n { next with idxs := st.idxs ++ [st.head] }
      else if cont then .ok next
      else testCells n next

/-- The `while (true)` of the ring search. -/
def searchSlots : Nat → RingSearch → Except CacheError (Option (List Nat))
  | 0, _ => .ok none
  | steps + 1, st =>
    let nTest := if cont then nTokens else 1
    if cells.size < st.head + nTest then
      searchSlots steps { st with tested := st.tested + (cells.size - st.head), head := 0 }
    else do
      let st ← testCells cfg cells u cont seqId nTest st
      if st.idxs.length = nTokens then .ok (some st.idxs)
      else
        let st := if cont then { st with idxs := [] } else st
        if cells.size ≤ st.tested then .ok none else searchSlots steps st

end Ring

/-- Where the ring search of a stream starts. -/
def searchStart (used nTokens head : Nat) : Nat := if used + 2 * nTokens < head then 0 else head

/-- The ring search of one stream. -/
def ringSlots (c : KvCache) (u : Ubatch) (cont : Bool) (seqId nTokens : Nat) :
    Except CacheError (Option (List Nat)) :=
  let stream := c.cfg.seqToStream seqId
  let cells := c.cells stream
  if cells.size < nTokens then .ok none
  else searchSlots c.cfg cells u cont seqId nTokens (2 * cells.size + 2)
    { head := searchStart cells.getUsed nTokens (c.heads stream) }

/-- The ring search for the sequences from number `s` on. -/
def ringRuns (c : KvCache) (u : Ubatch) (cont : Bool) (nTokens : Nat) :
    List Nat → Nat → Except CacheError (Option SlotInfo)
  | [], _ => .ok (some [])
  | seqId :: seqIds, s =>
    if 1 < c.cfg.nStream ∧ (u.token (s * nTokens)).seqId ≠ [seqId] then .error .assertFailed
    else do
      match ← ringSlots c u cont seqId nTokens with
      | none => .ok none
      | some idxs =>
        let rest ← ringRuns c u cont nTokens seqIds (s + 1)
        return rest.map (⟨c.cfg.seqToStream seqId, idxs⟩ :: ·)

def findSlot (c : KvCache) (u : Ubatch) (cont : Bool) : Except CacheError SlotInfo := do
  let nSeqs := u.seqIdUnq.length
  if 1 < c.cfg.nStream ∧ u.tokens.length % nSeqs ≠ 0 then .error .assertFailed
  else if c.cfg.grouped ∧ !cont then
    let st ← groupSearch c
    let idxs ← groupSlots c u.tokens st
    return (idxs.map fun idxs => [⟨0, idxs⟩]).getD []
  else if 1 < c.cfg.nStream then
    let runs ← ringRuns c u cont (u.tokens.length / nSeqs) u.seqIdUnq 0
    return runs.getD []
  else
    let runs ← ringRuns c u cont u.tokens.length (u.seqIdUnq.take 1) 0
    return runs.getD []

/-! ## Placing a micro-batch -/

/-- One slot of a slot info: stream, cell and token number. -/
structure Placement where
  stream : Nat
  idx : Nat
  token : Nat
  deriving DecidableEq, Repr

/-- The two nested loops of `apply_ubatch`. -/
def placements (sinfo : SlotInfo) : List Placement :=
  sinfo.zipIdx.flatMap fun r =>
    r.1.idxs.zipIdx.map fun x => ⟨r.1.strm, x.1, r.2 * slotCount sinfo + x.2⟩

/-- `tail && !tail_preparing` -/
def recordsTail (c : KvCache) : Bool := c.tail.isSome && !c.tailPreparing

/-- Give the cell a new generation and drop the exact rows of the old one. -/
def recycleCell (stream idx : Nat) : CacheM Unit := do
  let c ← get
  if c.recordsTail then
    let generation := c.generations stream idx + 1
    let row := Function.update (c.generations stream) idx generation
    set { c with generations := Function.update c.generations stream row }
    onTail () (TailStore.recycle stream idx generation)

/-- Empty the cell, enter the position and, for 2D positions, the extension. -/
def resetCell (u : Ubatch) (tok : UbatchToken) (idx : Nat) (cells : KvCells) : KvCells :=
  let cells := if cells.isEmpty idx then cells else cells.rm idx
  let cells := cells.posSet idx tok.pos
  if u.isPos2d then cells.extSet idx tok.ext else cells

/-- Enter one owner of a token. -/
def addOwner (p : Placement) (pos : Int) (owner : Nat) : CacheM Unit := do
  modify fun c => c.setCells p.stream ((c.cells p.stream).seqAdd p.idx owner)
  modify fun c => if c.cfg.grouped then c.setAllocationHead owner (p.idx + 1) else c
  let c ← get
  if c.recordsTail then
    set { c with ordinal := c.ordinal + 1 }
    let _ ← onTail 0 (TailStore.commit owner
      ⟨p.stream, p.idx, c.generations p.stream p.idx⟩ pos c.ordinal
      (if c.cfg.hasCompactTail then some p.token else none))

/-- The position a placement overwrites, by sequence (`seq_pos_max_rm`). -/
def overwritten (cells : KvCells) (idx : Nat) (rm : Nat → Int) : Nat → Int :=
  if cells.isEmpty idx then rm
  else
    match cells.seqGet idx with
    | none => rm
    | some s => Function.update rm s (max (rm s) (cells.posGet idx))

/-- One turn of the loops of `apply_ubatch`. -/
def placeToken (u : Ubatch) (rm : Nat → Int) (p : Placement) : CacheM (Nat → Int) := do
  let tok := u.token p.token
  recycleCell p.stream p.idx
  let c ← get
  set (c.setCells p.stream (resetCell u tok p.idx (c.cells p.stream)))
  tok.seqId.forM (addOwner p tok.pos)
  return overwritten (c.cells p.stream) p.idx rm

/-- Purge the positions of a sequence below those that were overwritten. -/
def purge (rm : Nat → Int) (s : Nat) : CacheM Unit := do
  if rm s ≠ -1 then
    let c ← get
    ggmlAssert (s < c.cfg.seqLimit)
    let posMin := (c.cells (c.cfg.seqToStream s)).seqPosMin s
    if posMin ≤ rm s then seqRmUnchecked s posMin (rm s + 1)

/-- Open the batch of the tail. -/
def beginTailBatch : CacheM Unit := do
  let c ← get
  if c.recordsTail then
    set { c with
      generationsBefore :=
        if c.cfg.hasCompactTail then some c.generations else c.generationsBefore }
    onTail () TailStore.beginBatch

/-- "move the head at the end of the slot" -/
def moveHeads (sinfo : SlotInfo) (c : KvCache) : KvCache :=
  sinfo.foldl (fun c r => c.setHead r.strm ((r.idxs.getLast?.map (· + 1)).getD 0)) c

def applyUbatch (sinfo : SlotInfo) (u : Ubatch) : CacheM Unit := do
  beginTailBatch
  let rm ← (placements sinfo).foldlM (placeToken u) fun _ => -1
  (List.range maxSeq).forM (purge rm)
  modify (moveHeads sinfo)

def finishTailBatch (success payloadMayBeModified : Bool) : CacheM Unit := do
  let c ← get
  if c.recordsTail then
    onTail () (TailStore.finishBatch success payloadMayBeModified)
    modify fun c => { c with
      generations :=
        if !success ∧ c.cfg.hasCompactTail then c.generationsBefore.getD c.generations
        else c.generations
      generationsBefore := none }

end KvCache

end Beellama.Ports
