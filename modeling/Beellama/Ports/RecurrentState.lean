import Beellama.Ports.RecurrentFindSlot

/-!
# Saving and restoring the recurrent memory

A shallow embedding of `state_write` and `state_read` of `llama_memory_recurrent`: the
cells of a saved state and the rows of the state tensors that are saved with them.  The
state of all sequences tells who is in a cell, the state of one sequence does not.  A
restored state goes to cell `0` and what follows, or to a slot of its own.
-/

namespace Beellama.Ports

open Beellama.Verified

/-- A saved cell, with the sequence ids in ascending order. -/
structure SavedMemCell where
  pos : Int
  ids : List Nat
  deriving DecidableEq, Repr

/-- The metadata of a saved state and the rows of the tensors that follow. -/
structure SavedState where
  cells : List SavedMemCell
  rows : List Nat
  deriving DecidableEq, Repr

/-- How `state_read` ends. -/
inductive ReadResult
  | aborted
  /-- it throws, and the memory is as it was -/
  | failed
  | committed (mem : RecurrentMemory)

namespace RecurrentMemory

/-! ## `state_write` -/

/-- The cell is saved, for all sequences or for one. -/
def isSaved (mem : RecurrentMemory) (q : Option Nat) (c : Nat) : Bool :=
  match q with
  | none => (mem.cells c).seqId ≠ ∅
  | some s => s ∈ (mem.cells c).seqId

/-- The members of a cell in ascending order; sequence ids are below the number of
cells. -/
def members (mem : RecurrentMemory) (c : Nat) : List Nat :=
  (List.range mem.size).filter fun s => s ∈ (mem.cells c).seqId

/-- The snapshot that a cell is saved from; the members of a cell must agree on it. -/
def savedIdx (mem : RecurrentMemory) (q : Option Nat) (c : Nat) : Option Nat :=
  if mem.nRsSeq = 0 then some 0
  else
    match q with
    | some s => if s < mem.nSeqMax then some (mem.rsIdx s) else none
    | none =>
      match mem.members c with
      | [] => some 0
      | s :: rest =>
        if (∀ x ∈ s :: rest, x < mem.nSeqMax) ∧ ∀ x ∈ rest, mem.rsIdx x = mem.rsIdx s then
          some (mem.rsIdx s)
        else none

def savedCell (mem : RecurrentMemory) (q : Option Nat) (c : Nat) : SavedMemCell :=
  { pos := (mem.cells c).pos, ids := if q = none then mem.members c else [] }

/-- The row of the tensors that holds the state of a cell. -/
def savedRow (mem : RecurrentMemory) (q : Option Nat) (c : Nat) : Option Nat :=
  (mem.savedIdx q c).map fun idx => idx * mem.size + (mem.cells c).src.getD c

/-- The cells that are saved, in order. -/
def savedCells (mem : RecurrentMemory) (q : Option Nat) : List Nat :=
  (List.range mem.size).filter (mem.isSaved q)

/-- `state_write`; no sequence stands for all of them. -/
def stateWrite (mem : RecurrentMemory) (q : Option Nat) : Option SavedState :=
  ((mem.savedCells q).mapM (mem.savedRow q)).map fun rows =>
    { cells := (mem.savedCells q).map (mem.savedCell q), rows := rows }

/-! ## `state_read` -/

/-- Read the sequence ids of cell `i`. -/
def readIds (mem : RecurrentMemory) (i : Nat) : List Nat → Option RecurrentMemory
  | [] => some mem
  | s :: rest =>
    if mem.nSeqMax ≤ s then none
    else
      let mem := mem.onCell i fun cell => { cell with seqId := insert s cell.seqId }
      -- a sequence has one cell
      if (mem.cells s).tail ≠ none then none
      else (mem.setTail s (some i)).readIds i rest

/-- Read the cells from cell `i` on. -/
def readCells (mem : RecurrentMemory) (i : Nat) : List SavedMemCell → Option RecurrentMemory
  | [] => some mem
  | cell :: rest =>
    match (mem.onCell i fun c => { c with pos := cell.pos }).readIds i cell.ids with
    | none => none
    | some mem => mem.readCells (i + 1) rest

/-- The restored cells keep their states. -/
def ownRows (mem : RecurrentMemory) (n : Nat) : RecurrentMemory :=
  { mem with
    cells := fun c =>
      if mem.head ≤ c ∧ c < mem.head + n then { mem.cells c with src := some c }
      else mem.cells c }

/-- `state_read_meta` for all sequences. -/
def readAll (mem : RecurrentMemory) (saved : List SavedMemCell) : ReadResult :=
  if mem.size < saved.length then .failed
  else
    match mem.clear.readCells 0 saved with
    | none => .failed
    | some mem =>
      .committed ({ mem with head := 0, used := saved.length : RecurrentMemory }.ownRows
        saved.length)

/-- The ubatch that reserves the cell of a restored sequence. -/
def restoreBatch (s : Nat) (saved : List SavedMemCell) : RecurrentUbatch :=
  { nSeqTokens := saved.length, seqs := [{ first := s, pos := saved.map SavedMemCell.pos }] }

/-- What is asserted of the slot of a restored sequence. -/
def SlotHolds (mem : RecurrentMemory) (s : Nat) (saved : List SavedMemCell) : Prop :=
  mem.head + saved.length ≤ mem.size ∧
    (mem.cells mem.head).pos = (saved.map SavedMemCell.pos).getD 0 (-1) ∧
    (mem.cells (mem.head + saved.length - 1)).pos =
      (saved.map SavedMemCell.pos).getD (saved.length - 1) (-1) ∧
    s ∈ (mem.cells mem.head).seqId ∧ s ∈ (mem.cells (mem.head + saved.length - 1)).seqId

instance (mem : RecurrentMemory) (s : Nat) (saved : List SavedMemCell) :
    Decidable (SlotHolds mem s saved) := by
  unfold SlotHolds
  infer_instance

/-- `state_read_meta` for one sequence. -/
def readOne (mem : RecurrentMemory) (s : Nat) (saved : List SavedMemCell) : ReadResult :=
  let mem := (mem.seqRm s (-1) (-1)).2
  if saved = [] then .committed mem
  else if ∃ cell ∈ saved, cell.ids ≠ [] then .failed
  else
    match mem.findSlot (restoreBatch s saved) with
    | none => .aborted
    | some (false, _) => .failed
    | some (true, mem) =>
      if SlotHolds mem s saved then .committed (mem.ownRows saved.length) else .aborted

/-- `state_read` and its commit, where the tensors of the saved state match: the rollback
indices of what was restored are zero. -/
def stateRead (mem : RecurrentMemory) (dest : Option Nat) (saved : List SavedMemCell) : ReadResult :=
  match dest with
  | none =>
    match mem.readAll saved with
    | .committed mem =>
      .committed (if mem.nRsSeq ≠ 0 then { mem with rsIdx := fun _ => 0 } else mem)
    | r => r
  | some s =>
    match mem.readOne s saved with
    | .committed mem => .committed (if mem.nRsSeq ≠ 0 then mem.setRsIdx s 0 else mem)
    | r => r

end RecurrentMemory

end Beellama.Ports
