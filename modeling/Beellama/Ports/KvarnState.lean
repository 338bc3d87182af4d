import Beellama.Ports.KvStageRun

/-!
# KVarN: self-contained states

`llama_kv_cache_kvarn::state_write` and `state_read` of a sequence of a unified cache without a sliding
window, with the flag `SELF_CONTAINED`.  Cells in the stage of the source are saved as stage rows, the
other groups as whole records.  What a restore leaves in a stage row or a record is named by the
source cell or group it was saved from; all layers and tensors are treated alike.
-/

namespace Beellama.Ports

open TailStore

/-- `llama_kvarn_state_stage_cell` -/
structure StageCell where
  sourceCell : Nat
  stageRow : Nat
  deriving DecidableEq, Repr

/-- What saving and restoring throw. -/
inductive KvarnStateError
  | state (e : StateError)
  | cache (e : CacheError)
  | invalidSequence
  | stageLayout
  | sourceExtent
  | recordArena
  | legacyCompact
  | restoreFailed
  | stageDepth (saved own : Nat)
  | tailDepth (saved own : Nat)
  | exactTail
  | stageRowCount
  | stageMapping
  | recordCount
  | recordMapping
  | missingStageRow
  | rowOffset
  | remapInconsistent
  | noRecordDestination
  | staleStageRow
  deriving DecidableEq, Repr

/-- The texts of the exceptions; the figures of the exact-tail text are left
out. -/
def KvarnStateError.what : KvarnStateError → String
  | .state e => e.what
  | .cache e => e.what
  | .invalidSequence => "invalid KV state sequence ID"
  | .stageLayout => "invalid KVarN state stage layout"
  | .sourceExtent => "KVarN state source cell exceeds the live stream extent"
  | .recordArena => "KVarN state source cell exceeds the record arena"
  | .legacyCompact => "legacy KV state lacks compact-tail representation metadata"
  | .restoreFailed => "failed to restore kv cache"
  | .stageDepth saved own =>
    s!"KVarN cache stage depth mismatch: state has {saved} stage groups, cache has {own}; " ++
      "re-save the prompt cache with the current --ubatch setting"
  | .tailDepth saved own =>
    s!"KVarN cache tail depth mismatch: state has {saved} tail groups, cache has {own}; " ++
      "re-save the prompt cache with this build"
  | .exactTail => "KVarN exact-tail state configuration does not match the context"
  | .stageRowCount => "invalid KVarN selective stage row count"
  | .stageMapping => "invalid KVarN selective stage cell mapping"
  | .recordCount => "invalid KVarN selective record group count"
  | .recordMapping => "invalid KVarN selective record group mapping"
  | .missingStageRow => "KVarN selective state is missing a required live stage row"
  | .rowOffset => "KVarN selective state did not preserve record row offsets"
  | .remapInconsistent => "KVarN selective record group remapped inconsistently"
  | .noRecordDestination => "KVarN selective record group has no destination mapping"
  | .staleStageRow => "on-device KVarN selective stage row became stale"

/-! ## Which form a cell is saved in -/

/-- `llama_kvarn_select_state_stage_cells` -/
def kvarnSelectStateStageCells (sourceCells : List Nat) (liveCellMaxP1 stageGroups tailGroups : Nat)
    (swa : Bool) (stagedGroups : Option (List Nat)) : Except KvarnStateError (List StageCell) :=
  if liveCellMaxP1 = 0 then .ok []
  else if stageGroups < 2 ∨ tailGroups = 0 ∨ stageGroups < tailGroups ∨
      (swa = false ∧ stageGroups ≤ tailGroups) then .error .stageLayout
  else if sourceCells.any (liveCellMaxP1 ≤ ·) then .error .sourceExtent
  else
    let liveGroup := (liveCellMaxP1 - 1) / kvarnGroup
    let stageBegin := liveGroup - (tailGroups - 1)
    let staged (group : Nat) : Bool :=
      if swa then stageBegin ≤ group ∧ group ≤ liveGroup
      else
        match stagedGroups with
        | some groups => group ∈ groups
        | none => group = 0 ∨ (0 < group ∧ stageBegin ≤ group ∧ group ≤ liveGroup)
    let slot (group : Nat) : Nat :=
      if swa then group % stageGroups else kvarnStageSlot tailGroups group
    .ok ((sourceCells.filter fun cell => staged (cell / kvarnGroup)).map fun cell =>
      ⟨cell, slot (cell / kvarnGroup) * kvarnGroup + cell % kvarnGroup⟩)

/-- `llama_kvarn_select_state_record_groups`: the groups without a staged cell,
ascending as a `std::set` is. -/
def kvarnSelectStateRecordGroups (sourceCells : List Nat) (stageCells : List StageCell)
    (groupsPerStream : Nat) : Except KvarnStateError (List Nat) :=
  if sourceCells.any fun cell => groupsPerStream ≤ cell / kvarnGroup then .error .recordArena
  else .ok ((List.range groupsPerStream).filter fun group =>
    (sourceCells.any fun cell => cell / kvarnGroup = group) &&
      !(stageCells.any fun cell => cell.sourceCell / kvarnGroup = group))

namespace KvCache

/-- `allocation_cell_uses_stage` -/
def allocationCellUsesStage (c : KvCache) (cell : Nat) : Bool :=
  if !c.cfg.grouped ∨ (c.cells 0).size ≤ cell then false
  else
    let group := cell / c.cfg.allocationGroupSize
    group = 0 ∨ (List.range c.cfg.nSeqMax).any fun t => c.liveGroup t = some group

/-- The cells of a sequence that a state of it carries. -/
def carriesCell (c : KvCache) (s i : Nat) : Bool :=
  let cells := c.cells (c.cfg.seqToStream s)
  !cells.isEmpty i && cells.seqHas i s &&
    !isMaskedSwa c.cfg.nSwa c.cfg.swaType (cells.posGet i) (cells.seqPosMax s)

/-- `state_source_cells` -/
def stateSourceCells (c : KvCache) (s : Nat) : Except KvarnStateError (List Nat) :=
  if c.cfg.nSeqMax ≤ s then .error .invalidSequence
  else .ok ((List.range (c.cells (c.cfg.seqToStream s)).size).filter (c.carriesCell s))

/-- `tail_groups` and `stage_groups` of a cache without a sliding window. -/
def tailGroups (c : KvCache) : Nat := c.cfg.allocationStageGroups

def stageGroups (c : KvCache) : Nat := c.tailGroups + 1

/-- `n_groups_per_stream` -/
def groupsPerStream (c : KvCache) : Nat := (c.cfg.size + kvarnGroup - 1) / kvarnGroup

/-- The stage rows of a sequence, as the writer and the reader both select
them.  `staged_groups` is used as a set. -/
def stageCellsOf (c : KvCache) (s : Nat) : Except KvarnStateError (List StageCell) := do
  let cells ← c.stateSourceCells s
  let staged := (cells.filter c.allocationCellUsesStage).map (· / kvarnGroup)
  kvarnSelectStateStageCells cells ((cells.max?.map (· + 1)).getD 0) c.stageGroups c.tailGroups
    false (some staged)

/-! ## Saving -/

/-- The saved cells of one stream in `state_v2_collect` and `state_write_body`. -/
def collectCells (c : KvCache) (s : Nat) : List SavedCell :=
  let cells := c.cells (c.cfg.seqToStream s)
  ((List.range cells.size).filter (c.carriesCell s)).filterMap fun i =>
    if h : (cells.cell i).pos ≠ -1 then
      some {
        pos := (cells.cell i).pos
        ext := if 1 < c.cfg.nPosPerEmbd then (cells.cell i).ext else {}
        sourceCell := i
        generation := if c.tail.isSome then c.generations (c.cfg.seqToStream s) i else 0
        used := h }
    else none

end KvCache

/-- The metadata part of a state: a manifest, or without an exact tail the
older body format, which has no source cells. -/
inductive SavedMeta
  | manifest (mf : StateManifest)
  | body (cells : List SavedCell)

namespace SavedMeta

def cells : SavedMeta → List SavedCell
  | .manifest mf => mf.savedCells
  | .body cells => cells

/-- The metadata is that of a sequence of the cache. -/
def Collected (metadata : SavedMeta) (c : KvCache) (s : Nat) : Prop := metadata.cells = c.collectCells s

end SavedMeta

/-- A self-contained KVarN state. -/
structure KvarnState where
  metadata : SavedMeta
  stageGroups : Nat
  tailGroups : Nat
  hasExactTail : Bool
  stageCells : List StageCell
  recordGroups : List Nat

namespace KvCache

/-- `llama_kv_cache_kvarn::state_write` behind the metadata. -/
def kvarnStateWrite (c : KvCache) (s : Nat) (metadata : SavedMeta) :
    Except KvarnStateError KvarnState := do
  let stageCells ← c.stageCellsOf s
  let sourceCells ← c.stateSourceCells s
  let recordGroups ← kvarnSelectStateRecordGroups sourceCells stageCells c.groupsPerStream
  return {
    metadata
    stageGroups := c.stageGroups
    tailGroups := c.tailGroups
    hasExactTail := c.tail.isSome
    stageCells
    recordGroups }

/-! ## Placing the cells -/

abbrev KvarnM := EStateM KvarnStateError KvCache

def liftInstall {α : Type} (x : InstallM α) : KvarnM α := fun c =>
  match x c with
  | .ok a c => .ok a c
  | .error e c => .error (.state e) c

def liftMethod {α : Type} (x : CacheM α) : KvarnM α := fun c =>
  match x c with
  | .ok a c => .ok a c
  | .error e c => .error (.cache e) c

def liftSelect {α : Type} (x : Except KvarnStateError α) : KvarnM α := fun c =>
  match x with
  | .ok a => .ok a c
  | .error e => .error e c

/-- The micro-batch that `state_read_meta` builds from the saved cells. -/
def savedUbatch (nPosPerEmbd s : Nat) (saved : List SavedCell) : Ubatch where
  tokens := saved.map fun x =>
    { pos := x.pos, ext := if 1 < nPosPerEmbd then x.ext else {}, seqId := [s] }
  seqIdUnq := [s]
  isPos2d := 3 ≤ nPosPerEmbd

/-- `state_read_meta` for one sequence; returns the cells. -/
def stateReadMeta (s : Nat) (saved : List SavedCell) : KvarnM (List Nat) := do
  let _ ← liftMethod (seqRm s (-1) (-1))
  let c ← get
  let u := savedUbatch c.cfg.nPosPerEmbd s saved
  match c.findSlot u false with
  | .error e => throw (.cache e)
  | .ok [] => throw .restoreFailed
  | .ok (run :: runs) =>
    set { c with tailPreparing := true }
    liftMethod (applyUbatch (run :: runs) u)
    modify fun c' => { c' with tailPreparing := c.tailPreparing }
    let c' ← get
    liftMethod (ggmlAssert (runs = [] ∧ run.idxs.length = saved.length))
    liftMethod (ggmlAssert (∀ x ∈ saved.zip run.idxs,
      ((c'.cells (c'.cfg.seqToStream s)).cell x.2).pos = x.1.pos ∧
        s ∈ ((c'.cells (c'.cfg.seqToStream s)).cell x.2).seq))
    return run.idxs

/-- `state_read_body` of one stream, and the degradation of a tail. -/
def stateReadBody (s : Nat) (saved : List SavedCell) : KvarnM (List Nat) := do
  let c ← get
  if c.cfg.hasCompactTail then throw .legacyCompact
  liftMethod (ggmlAssert (c.cfg.validSeq s))
  let idxs ← if saved = [] then pure [] else stateReadMeta s saved
  modify fun c => c.rebuildAllocationHead s
  liftMethod (onTail () (TailStore.seqRm s (-1) (-1)))
  liftMethod (onTail () (markDegraded s degradedBodyOnlyState))
  return idxs

/-- The metadata of a state; returns the destination of every saved cell and
`state_cell_remap`. -/
def readMeta (s : Nat) : SavedMeta → KvarnM (List (SavedCell × Nat) × List (Nat × Nat))
  | .manifest mf => do
      let restored ← liftInstall (stateV2Install kvarnGroup s .selfContained mf)
      let placed := mf.savedCells.zip restored.flatten
      return (placed, placed.map fun x => (x.1.sourceCell, x.2))
  | .body cells => do
      let idxs ← stateReadBody s cells
      return (cells.zip idxs, [])

/-! ## Installing rows and records -/

/-- The source and destination of every restored cell, and the source of every stage row and record.
-/
structure KvarnDelivery where
  restored : List (Nat × Nat)
  stage : Nat → Option Nat
  records : Nat → Option Nat
  deriving Inhabited

/-- `std::set::insert(..).second` of every element, and all below the bound. -/
def distinctBelow (bound : Nat) (l : List Nat) : Bool := l.all (· < bound) && decide l.Nodup

/-- Where the reader takes a saved cell to be. -/
def takenCell (remap : List (Nat × Nat)) (source : Nat) : Nat := (remap.lookup source).getD source

/-- `install_stage_rows`: the row every saved stage row goes to, if any. -/
def installRows (remap : List (Nat × Nat)) (desired saved : List StageCell) : List (Nat × Nat) :=
  saved.filterMap fun cell =>
    (desired.find? fun d => d.sourceCell = takenCell remap cell.sourceCell).map fun d =>
      (cell.sourceCell, d.stageRow)

/-- `selective_record_destinations` -/
def recordDestination (remap : List (Nat × Nat)) (group : Nat) : Option Nat :=
  (remap.find? fun x => x.1 / kvarnGroup = group).map fun x => x.2 / kvarnGroup

/-- Two cells of one source group went to different groups. -/
def remapSplits (remap : List (Nat × Nat)) : Bool :=
  remap.any fun x => remap.any fun y =>
    decide (x.1 / kvarnGroup = y.1 / kvarnGroup ∧ x.2 / kvarnGroup ≠ y.2 / kvarnGroup)

/-- Write the sources to their places, one after the other. -/
def writeAll (writes : List (Nat × Nat)) : Nat → Option Nat :=
  writes.foldl (fun m w => Function.update m w.2 (some w.1)) fun _ => none

/-- The checks on the stage layout and on the saved rows and groups. -/
def checkKvarnState (st : KvarnState) (c : KvCache) : Except KvarnStateError Unit := do
  if st.stageGroups ≠ c.stageGroups then throw (.stageDepth st.stageGroups c.stageGroups)
  if st.tailGroups ≠ c.tailGroups then throw (.tailDepth st.tailGroups c.tailGroups)
  if st.hasExactTail ≠ c.tail.isSome then throw .exactTail
  if st.stageGroups * kvarnGroup < st.stageCells.length then throw .stageRowCount
  if !distinctBelow (st.stageGroups * kvarnGroup) (st.stageCells.map (·.stageRow)) ∨
      ¬ (st.stageCells.map (·.sourceCell)).Nodup then
    throw .stageMapping
  if c.groupsPerStream < st.recordGroups.length then throw .recordCount
  if !distinctBelow c.groupsPerStream st.recordGroups then throw .recordMapping

/-- `llama_kv_cache_kvarn::state_read` of a self-contained state; all offsets of the remap are
tested first here. -/
def kvarnStateRead (s : Nat) (onDevice : Bool) (st : KvarnState) : KvarnM KvarnDelivery := do
  let (placed, remap) ← readMeta s st.metadata
  let c ← get
  liftSelect (checkKvarnState st c)
  let desired ← liftSelect (c.stageCellsOf s)
  let install := installRows remap desired st.stageCells
  if install.length ≠ desired.length then throw .missingStageRow
  if remap.any fun x => x.2 % kvarnGroup ≠ x.1 % kvarnGroup then throw .rowOffset
  if remapSplits remap then throw .remapInconsistent
  if st.recordGroups.any fun group => (recordDestination remap group).isNone then
    throw .noRecordDestination
  if onDevice ∧ install.length ≠ st.stageCells.length then throw .staleStageRow
  return {
    restored := placed.map fun x => (x.1.sourceCell, x.2)
    stage := writeAll install
    records := writeAll (st.recordGroups.filterMap fun group =>
      (recordDestination remap group).map fun destination => (group, destination)) }

end KvCache

end Beellama.Ports
