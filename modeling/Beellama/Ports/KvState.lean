import Beellama.Ports.KvCacheSlots

/-!
# The KV cache: saving and restoring one sequence

The metadata of `state_v2_collect` and `state_v2_read_payload_and_install` of
`src/src/llama-kv-cache.cpp`.  A self-contained state is moved group by group into empty groups, one
with its body goes back to its source cells, and a reference-only partial state is laid over
the cells of the sequence that still carry the saved positions.
-/

namespace Beellama.Ports

open TailStore

/-! ## The manifest -/

/-- `state_v2_manifest::cell`.  Only cells in use are saved. -/
structure SavedCell where
  pos : Int
  ext : KvCellExt := {}
  sourceCell : Nat
  generation : Nat := 0
  used : pos ≠ -1

/-- `state_v2_manifest::tail_record` -/
structure TailRecord where
  stream : Nat
  bodyOrdinal : Nat
  generation : Nat
  position : Int
  insertionOrdinal : Nat
  localSlot : Nat

/-- `state_v2_manifest` of one sequence. -/
structure StateManifest where
  nPosPerEmbd : Nat := 1
  bodyOnly : Bool := false
  /-- the saved cells of every stream -/
  streams : List (List SavedCell)
  tailOrdinal : Nat := 0
  tailRecords : List TailRecord := []
  provenance : List TailProvenance := []
  tailWriteCursors : List Nat := []

namespace StateManifest

/-- The saved cells in the order of the loops over streams and cells. -/
def savedCells (mf : StateManifest) : List SavedCell := mf.streams.flatten

/-- The saved cell a tail record refers to. -/
def cellAt (mf : StateManifest) (stream ordinal : Nat) : Option SavedCell :=
  mf.streams[stream]?.bind fun cells => cells[ordinal]?

/-- The generation a restore leaves in the destination of a saved cell: the
tail records are written after the cells. -/
def writtenGeneration (mf : StateManifest) (stream ordinal : Nat) (saved : SavedCell) : Nat :=
  if mf.bodyOnly then saved.generation
  else mf.tailRecords.foldl
    (fun generation r =>
      if r.stream = stream ∧ r.bodyOrdinal = ordinal then r.generation else generation)
    saved.generation

end StateManifest

/-- The carried position and extension of a cell are the saved ones; a manifest
of one position per embedding has no extensions. -/
def SavedCell.fits (saved : SavedCell) (nPosPerEmbd : Nat) (v : KvCell) : Prop :=
  v.pos = saved.pos ∧ (1 < nPosPerEmbd → v.ext = saved.ext)

instance (saved : SavedCell) (n : Nat) (v : KvCell) : Decidable (saved.fits n v) :=
  inferInstanceAs (Decidable (_ ∧ _))

/-- What a restore throws. -/
inductive StateError
  | cache (e : CacheError)
  /-- `std::vector::at` -/
  | outOfRange
  | clearFailed
  | invalidSourceCell
  | noDestinationGroup
  | destinationOccupied
  | anchorMissing
  | duplicateSourceCell
  | staleGeneration
  | liveConflict
  | sequenceConflict
  | identityRange
  | noPayloadSlot
  deriving DecidableEq, Repr

/-- The texts of the exceptions; that of `std::vector::at` is the library's. -/
def StateError.what : StateError → String
  | .cache e => e.what
  | .outOfRange => "vector::_M_range_check"
  | .clearFailed => "failed to clear KV state destination sequence"
  | .invalidSourceCell => "invalid self-contained KV state source cell"
  | .noDestinationGroup => "failed to allocate a complete KV state destination group"
  | .destinationOccupied => "self-contained KV state destination cell is occupied"
  | .anchorMissing => "partial KV state no longer has its self-contained anchor record"
  | .duplicateSourceCell => "duplicate per-sequence KV state source cell"
  | .staleGeneration => "selective KV state source cell generation is stale"
  | .liveConflict => "selective KV state source cell conflicts with live data"
  | .sequenceConflict => "selective KV state conflicts with another logical sequence"
  | .identityRange => "KV tail state destination identity is out of range"
  | .noPayloadSlot => "KV tail state could not reserve an exact payload slot"

abbrev InstallM := EStateM StateError KvCache

/-- How a restore finds the destination cells. -/
inductive RestoreMode
  | selfContained
  | exactSource
  | referenceOnlyPartial
  deriving DecidableEq, Repr

/-- The flags of `llama_state_seq_flags` that choose the destination cells. -/
structure StateSeqFlags where
  partialOnly : Bool := false
  selfContained : Bool := false
  deriving DecidableEq, Repr

def restoreMode (flags : StateSeqFlags) (bodyPayloadSize : Nat) : RestoreMode :=
  if flags.selfContained then .selfContained
  else if flags.partialOnly ∧ bodyPayloadSize = 0 then .referenceOnlyPartial
  else .exactSource

namespace KvCache

/-- Run a method of the cache during a restore. -/
def liftCache {α : Type} (x : CacheM α) : InstallM α := fun c =>
  match x c with
  | .ok a c => .ok a c
  | .error e c => .error (.cache e) c

/-! ## Entering cells -/

def setGeneration (c : KvCache) (stream cell generation : Nat) : KvCache :=
  { c with
    generations := Function.update c.generations stream
      (Function.update (c.generations stream) cell generation) }

/-- Enter position and extension of a saved cell into an empty cell. -/
def occupyCell (nPosPerEmbd : Nat) (saved : SavedCell) (i : Nat) (cells : KvCells) : KvCells :=
  let cells := cells.posSet i saved.pos
  if 1 < nPosPerEmbd then cells.extSet i saved.ext else cells

/-- Add the sequence to the cell and enter the saved generation. -/
def claimCell (stream s i generation : Nat) (c : KvCache) : KvCache :=
  let c := c.setCells stream ((c.cells stream).seqAdd i s)
  if c.tail.isSome then c.setGeneration stream i generation else c

/-- Restore one cell.  A cell in use is refused, or with `reuse` shared when it
carries the saved position. -/
def placeSaved (nPosPerEmbd stream s : Nat) (reuse : Bool) (dst : SavedCell → Nat)
    (saved : SavedCell) : InstallM Nat := do
  let c ← get
  let cells := c.cells stream
  if cells.isEmpty (dst saved) then
    set (c.setCells stream (occupyCell nPosPerEmbd saved (dst saved) cells))
  else if !reuse then
    throw .destinationOccupied
  else if ¬ saved.fits nPosPerEmbd (cells.cell (dst saved)) then
    throw .sequenceConflict
  modify (claimCell stream s (dst saved) saved.generation)
  return dst saved

/-- The loop that restores the cells; returns `restored_cells`. -/
def placeStreams (place : SavedCell → InstallM Nat) (mf : StateManifest) :
    InstallM (List (List Nat)) :=
  mf.streams.mapM fun cells => cells.mapM place

/-! ## Self-contained states -/

/-- All cells of the group are empty. -/
def groupEmpty (cells : KvCells) (groupSize group : Nat) : Bool :=
  (List.range groupSize).all fun offset => cells.isEmpty (group * groupSize + offset)

/-- The destination of a source group: the group itself, else the first other
one, that is empty and not reserved. -/
def pickGroup (cells : KvCells) (groupSize : Nat) (reserved : List Nat) (source : Nat) :
    Option Nat :=
  let nGroups := cells.size / groupSize
  let free (candidate : Nat) : Bool :=
    decide (candidate ∉ reserved) && groupEmpty cells groupSize candidate
  match (List.range nGroups).find? fun candidate => candidate = source ∧ free candidate with
  | some group => some group
  | none => (List.range nGroups).find? fun candidate => candidate ≠ source ∧ free candidate

/-- `destination_groups`: a destination for every source group, in order. -/
def pickGroups (cells : KvCells) (groupSize : Nat) :
    List Nat → List (Nat × Nat) → Option (List (Nat × Nat))
  | [], groups => some groups
  | source :: sources, groups =>
    match pickGroup cells groupSize (groups.map Prod.snd) source with
    | none => none
    | some group => pickGroups cells groupSize sources (groups ++ [(source, group)])

/-- `source_groups`, a `std::set`: without repetitions and ascending. -/
def sourceGroups (groupSize size : Nat) (saved : List SavedCell) : List Nat :=
  (List.range (size / groupSize)).filter fun group =>
    saved.any fun x => x.sourceCell / groupSize = group

/-- The destination of a saved cell once the groups are chosen. -/
def remapCell (groupSize : Nat) (groups : List (Nat × Nat)) (saved : SavedCell) : Nat :=
  (groups.lookup (saved.sourceCell / groupSize)).getD 0 * groupSize +
    saved.sourceCell % groupSize

/-- Every source cell is a cell of the table and none occurs twice. -/
def sourceCellsValid (size : Nat) (saved : List SavedCell) : Bool :=
  (saved.all fun x => x.sourceCell < size) && decide (saved.map fun x => x.sourceCell).Nodup

def installSelfContained (groupSize stream s : Nat) (mf : StateManifest) :
    InstallM (List (List Nat)) := do
  let cleared ← liftCache (seqRm s (-1) (-1))
  if !cleared then throw .clearFailed
  let c ← get
  let cells := c.cells stream
  if !sourceCellsValid cells.size mf.savedCells then throw .invalidSourceCell
  match pickGroups cells groupSize (sourceGroups groupSize cells.size mf.savedCells) [] with
  | none => throw .noDestinationGroup
  | some groups =>
    placeStreams (placeSaved mf.nPosPerEmbd stream s false (remapCell groupSize groups)) mf

/-! ## States of known cells -/

/-- The first cell of the sequence that carries the saved position. -/
def anchorCell (nPosPerEmbd s : Nat) (cells : KvCells) (saved : SavedCell) : Option Nat :=
  (List.range cells.size).find? fun i =>
    cells.seqHas i s ∧ saved.fits nPosPerEmbd (cells.cell i)

/-- Where a state of known cells puts a saved cell. -/
def destinationCell (isPartial : Bool) (nPosPerEmbd s : Nat) (cells : KvCells)
    (saved : SavedCell) : Option Nat :=
  if isPartial then anchorCell nPosPerEmbd s cells saved else some saved.sourceCell

/-- The first loop over the saved cells.  The pairs found so far are
`reference_destinations`, their second components `destinations`. -/
def checkSaved (isPartial : Bool) (nPosPerEmbd stream s : Nat) (c : KvCache) :
    List SavedCell → List (Nat × Nat) → Except StateError (List (Nat × Nat))
  | [], found => .ok found
  | saved :: rest, found =>
    let cells := c.cells stream
    match destinationCell isPartial nPosPerEmbd s cells saved with
    | none => .error .anchorMissing
    | some dst =>
      if dst ∈ found.map Prod.snd then .error .duplicateSourceCell
      else if !isPartial ∧ c.tail.isSome ∧ !cells.isEmpty saved.sourceCell ∧
          c.generations stream saved.sourceCell ≠ saved.generation then
        .error .staleGeneration
      else if !isPartial ∧ !cells.isEmpty saved.sourceCell ∧
          ¬ saved.fits nPosPerEmbd (cells.cell saved.sourceCell) then
        .error .liveConflict
      else checkSaved isPartial nPosPerEmbd stream s c rest
        (found ++ [(saved.sourceCell, dst)])

/-- The destination in the second loop.  `emplace` keeps the first destination
entered for a source cell. -/
def foundCell (isPartial : Bool) (found : List (Nat × Nat)) (saved : SavedCell) : Nat :=
  if isPartial then (found.lookup saved.sourceCell).getD 0 else saved.sourceCell

def installKnownCells (isPartial : Bool) (stream s : Nat) (mf : StateManifest) :
    InstallM (List (List Nat)) := do
  let c ← get
  match checkSaved isPartial mf.nPosPerEmbd stream s c mf.savedCells [] with
  | .error e => throw e
  | .ok found =>
    let _ ← liftCache (seqRm s (-1) (-1))
    placeStreams
      (placeSaved mf.nPosPerEmbd stream s true (foundCell isPartial found)) mf

/-! ## The tail -/

/-- The destination of the saved cell a record refers to. -/
def restoredAt (restored : List (List Nat)) (stream ordinal : Nat) : Option Nat :=
  restored[stream]?.bind fun cells => cells[ordinal]?

/-- Restore one exact row. -/
def restoreRecord (stream s : Nat) (restored : List (List Nat)) (r : TailRecord) :
    InstallM Unit := do
  let c ← get
  match restoredAt restored r.stream r.bodyOrdinal with
  | none => throw .outOfRange
  | some cell =>
    if c.cfg.nStream ≤ stream ∨ c.cfg.size ≤ cell then throw .identityRange
    set (c.setGeneration stream cell r.generation)
    let slot ← liftCache (onTail tailBodySlot (TailStore.restore s ⟨stream, cell, r.generation⟩
      r.position r.insertionOrdinal r.localSlot))
    if slot < 0 then throw .noPayloadSlot

/-- The exact rows, provenance and write cursor of the sequence. -/
def installTail (stream s liveOrdinal : Nat) (mf : StateManifest) (restored : List (List Nat)) :
    InstallM Unit := do
  liftCache (onTail () (TailStore.seqRm s (-1) (-1)))
  if mf.bodyOnly then
    liftCache (onTail () (markDegraded s degradedBodyOnlyState))
  else
    mf.tailRecords.forM (restoreRecord stream s restored)
    modify fun c => { c with ordinal := max liveOrdinal mf.tailOrdinal }
    liftCache (onTail () (restoreProvenance mf.provenance s))
    liftCache (ggmlAssert (mf.tailWriteCursors.length = mf.provenance.length))
    mf.tailWriteCursors.forM fun cursor => liftCache (onTail () (restoreWriteCursor s cursor))

/-- The cells of the sequence; returns `restored_cells`. -/
def installCells (groupSize stream s : Nat) (mf : StateManifest) :
    RestoreMode → InstallM (List (List Nat))
  | .selfContained => installSelfContained groupSize stream s mf
  | .exactSource => installKnownCells false stream s mf
  | .referenceOnlyPartial => installKnownCells true stream s mf

/-- `state_v2_read_payload_and_install` for one sequence; returns
`restored_cells`. -/
def stateV2Install (groupSize s : Nat) (mode : RestoreMode) (mf : StateManifest) :
    InstallM (List (List Nat)) := do
  let c ← get
  if !c.cfg.validSeq s then throw .outOfRange
  let stream := c.cfg.seqToStream s
  let restored ← installCells groupSize stream s mf mode
  installTail stream s c.ordinal mf restored
  modify fun c => c.rebuildAllocationHead s
  return restored

end KvCache

end Beellama.Ports
