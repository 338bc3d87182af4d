import Beellama.Verified.RingSearch
import Beellama.Verified.Sweep

/-!
# The cells of the recurrent memory (`llama_memory_recurrent`)

The cell metadata of `src/src/llama-memory-recurrent.cpp`.  A sequence has one cell, its tail, which
several may share.  A cell carries the position of its last token, the row that its state is to
be copied from and its sequences; the tail of sequence `s` is a field of the cell with index `s`.

A failed assertion and an index that is no cell are `none`.
-/

namespace Beellama.Ports

open Beellama.Verified

/-- The greatest `llama_pos`, what a negative end of a range stands for. -/
def posLimit : Int := 2147483647

/-- `mem_cell`; the source writes `-1` for no index. -/
structure MemCell where
  pos : Int := -1
  /-- the row the state is to be copied from -/
  src : Option Nat := none
  /-- like `src`, for the inputs of the graph -/
  src0 : Option Nat := none
  /-- the tail of the sequence whose id is this cell's index -/
  tail : Option Nat := none
  seqId : Finset Nat := ∅

/-- The state of `llama_memory_recurrent`; `rsIdx` is zero from `nSeqMax` on. -/
structure RecurrentMemory where
  size : Nat
  nSeqMax : Nat
  nRsSeq : Nat
  head : Nat := 0
  used : Nat := 0
  n : Nat := 0
  rsZ : Option Nat := none
  cells : Nat → MemCell := fun _ => {}
  /-- the rollback index of every sequence -/
  rsIdx : Nat → Nat := fun _ => 0

/-- The tokens of one sequence set of a ubatch: the first sequence id, those coupled to
it, and the positions. -/
structure SlotSeq where
  first : Nat
  coupled : List Nat := []
  pos : List Int
  deriving DecidableEq, Repr

/-- A ubatch with an equal number of tokens for every sequence set. -/
structure RecurrentUbatch where
  nSeqTokens : Nat
  seqs : List SlotSeq
  deriving DecidableEq, Repr

namespace SlotSeq

def ids (set : SlotSeq) : List Nat := set.first :: set.coupled

/-- The position of the last token of the set. -/
def lastPos (set : SlotSeq) (nSeqTokens : Nat) : Int := set.pos.getD (nSeqTokens - 1) (-1)

end SlotSeq

namespace RecurrentMemory

/-- The memory as it is constructed. -/
def empty (size nSeqMax nRsSeq : Nat) : RecurrentMemory :=
  { size := size, nSeqMax := nSeqMax, nRsSeq := nRsSeq }

/-- Apply a function to a cell. -/
def onCell (mem : RecurrentMemory) (i : Nat) (f : MemCell → MemCell) : RecurrentMemory :=
  { mem with cells := Function.update mem.cells i (f (mem.cells i)) }

def setTail (mem : RecurrentMemory) (s : Nat) (tail : Option Nat) : RecurrentMemory :=
  mem.onCell s fun cell => { cell with tail := tail }

/-- Change the count of used cells. -/
def setUsed (mem : RecurrentMemory) (used : Nat) : RecurrentMemory := { mem with used := used }

/-- Change the head. -/
def setHead (mem : RecurrentMemory) (head : Nat) : RecurrentMemory := { mem with head := head }

/-! ## Clearing and removal -/

def clear (mem : RecurrentMemory) : RecurrentMemory :=
  { mem with
    cells := fun i =>
      if i < mem.size then { mem.cells i with pos := -1, seqId := ∅, src := none, tail := none }
      else mem.cells i
    head := 0
    used := 0
    rsIdx := fun _ => 0 }

/-- `set_rs_idx` -/
def setRsIdx (mem : RecurrentMemory) (s idx : Nat) : RecurrentMemory :=
  if mem.nSeqMax ≤ s then mem
  else { mem with rsIdx := Function.update mem.rsIdx s (min idx mem.nRsSeq) }

/-- The start of a range of positions; a negative one is the first. -/
def rangeStart (p0 : Int) : Int := if p0 < 0 then 0 else p0

/-- The end of a range of positions; a negative one is the last. -/
def rangeEnd (p1 : Int) : Int := if p1 < 0 then posLimit else p1

/-- The range cuts the end of a sequence off whose last position is `pos`. -/
def CutsOff (p0 p1 pos : Int) : Prop := 0 < p0 ∧ p0 ≤ pos ∧ pos < p1

instance (p0 p1 pos : Int) : Decidable (CutsOff p0 p1 pos) := by
  unfold CutsOff
  infer_instance

def canSeqRm (mem : RecurrentMemory) (s p0 p1 : Int) : Bool :=
  let p0 := rangeStart p0
  let p1 := rangeEnd p1
  if (mem.size : Int) ≤ s then false
  else if s < 0 then p0 = p1 ∨ (p0 = 0 ∧ p1 = posLimit)
  else
    match (mem.cells s.toNat).tail with
    | none => true
    | some t =>
      let pos := (mem.cells t).pos
      if CutsOff p0 p1 pos then 1 ≤ pos - (p0 - 1) ∧ pos - (p0 - 1) ≤ mem.nRsSeq
      else true

/-- A turn of the loop of `seq_rm`, which keeps the index of the first cell that it
freed. -/
def rmTurn (s p0 p1 : Int) (st : RecurrentMemory × Nat) (i : Nat) : RecurrentMemory × Nat :=
  let mem := st.1
  let cell := mem.cells i
  if p0 ≤ cell.pos ∧ cell.pos < p1 ∧ (s < 0 ∨ s.toNat ∈ cell.seqId) then
    let rest := if s < 0 then ∅ else cell.seqId.erase s.toNat
    if rest = ∅ then
      ((mem.onCell i fun cell => { cell with seqId := rest, pos := -1, src := none }).setUsed
          (if 0 ≤ cell.pos then mem.used - 1 else mem.used),
        if st.2 = mem.size then i else st.2)
    else (mem.onCell i fun cell => { cell with seqId := rest }, st.2)
  else st

/-- The loop of `seq_rm` and the move of the head to the first freed cell. -/
def rmCells (mem : RecurrentMemory) (s p0 p1 : Int) : RecurrentMemory :=
  let r := sweep (rmTurn s p0 p1) mem.size (mem, mem.size)
  if r.2 ≠ mem.size ∧ r.2 < r.1.head then r.1.setHead r.2 else r.1

/-- What `seq_rm` does to the rollback indices when the range is everything. -/
def resetRsIdx (mem : RecurrentMemory) (s : Int) : RecurrentMemory :=
  if 0 ≤ s then mem.setRsIdx s.toNat 0 else { mem with rsIdx := fun _ => 0 }

/-- What the rest of `seq_rm` works on. -/
def rmStart (mem : RecurrentMemory) (s p0 p1 : Int) : RecurrentMemory :=
  if p0 = 0 ∧ p1 = posLimit then mem.resetRsIdx s else mem

def seqRm (mem : RecurrentMemory) (s p0 p1 : Int) : Bool × RecurrentMemory :=
  if mem.canSeqRm s p0 p1 = false then (false, mem)
  else
    let p0 := rangeStart p0
    let p1 := rangeEnd p1
    let mem := mem.rmStart s p0 p1
    if (mem.size : Int) ≤ s then (false, mem)
    else if 0 ≤ s then
      match (mem.cells s.toNat).tail with
      | none => (true, mem.rmCells s p0 p1)
      | some t =>
        let pos := (mem.cells t).pos
        -- partial rollback to a snapshot
        if CutsOff p0 p1 pos then
          let rollback := pos - (p0 - 1)
          if 1 ≤ rollback ∧ rollback ≤ mem.nRsSeq then
            (true, (mem.setRsIdx s.toNat rollback.toNat).onCell t fun cell =>
              { cell with pos := p0 - 1 })
          else (false, mem)
        else
          let mem := if p0 ≤ pos ∧ pos < p1 then mem.setTail s.toNat none else mem
          (true, mem.rmCells s p0 p1)
    else if p0 ≠ p1 ∧ (p0 ≠ 0 ∨ p1 ≠ posLimit) then (false, mem)
    else (true, mem.rmCells s p0 p1)

def seqRmCell (mem : RecurrentMemory) (s : Int) (c : Nat) : Bool × RecurrentMemory :=
  if s < 0 ∨ mem.size ≤ c then (false, mem)
  else
    let cell := mem.cells c
    if s.toNat ∉ cell.seqId then (false, mem)
    else
      let rest := cell.seqId.erase s.toNat
      let mem :=
        if rest = ∅ then
          ((mem.onCell c fun cell => { cell with seqId := rest, pos := -1, src := none }).setUsed
            (if 0 ≤ cell.pos then mem.used - 1 else mem.used)).setHead
              (if c < mem.head then c else mem.head)
        else mem.onCell c fun cell => { cell with seqId := rest }
      if s.toNat < mem.size ∧ (mem.cells s.toNat).tail = some c then
        (true, mem.setTail s.toNat none)
      else (true, mem)

/-- Take a sequence out of its tail `t`, which is freed when nobody else is in it. -/
def release (mem : RecurrentMemory) (s t : Nat) : RecurrentMemory :=
  let rest := (mem.cells t).seqId.erase s
  let mem := (mem.onCell t fun cell => { cell with seqId := rest }).setTail s none
  if rest = ∅ then
    (mem.onCell t fun cell => { cell with pos := -1, src := none }).setUsed (mem.used - 1)
  else mem

/-- Take a sequence out of its tail, if it has one. -/
def releaseTail (mem : RecurrentMemory) (s : Nat) : RecurrentMemory :=
  match (mem.cells s).tail with
  | some t => mem.release s t
  | none => mem

/-- `seq_cp`, which copies the whole sequence whatever the range is. -/
def seqCp (mem : RecurrentMemory) (s d : Int) : RecurrentMemory :=
  if s = d then mem
  else if 0 ≤ d ∧ d < mem.size ∧ 0 ≤ s ∧ s < mem.size then
    let mem := mem.releaseTail d.toNat
    match (mem.cells s.toNat).tail with
    | some t =>
      (mem.onCell t fun cell => { cell with seqId := insert d.toNat cell.seqId }).setTail
        d.toNat (some t)
    | none => mem
  else mem

/-- The other sequences have no tail any more. -/
def forgetTail (mem : RecurrentMemory) (s : Int) (i : Nat) : RecurrentMemory :=
  if (i : Int) ≠ s then mem.setTail i none else mem

/-- A turn of the loop of `seq_keep`. -/
def keepTurn (s : Int) (st : RecurrentMemory × Nat) (i : Nat) : RecurrentMemory × Nat :=
  let mem := st.1.forgetTail s i
  let cell := mem.cells i
  if s < 0 ∨ s.toNat ∉ cell.seqId then
    ((mem.onCell i fun cell => { cell with pos := -1, src := none, seqId := ∅ }).setUsed
        (if 0 ≤ cell.pos then mem.used - 1 else mem.used),
      if st.2 = mem.size then i else st.2)
  else (mem.onCell i fun cell => { cell with seqId := {s.toNat} }, st.2)

def seqKeep (mem : RecurrentMemory) (s : Int) : RecurrentMemory :=
  let r := sweep (keepTurn s) mem.size (mem, mem.size)
  if r.2 ≠ mem.size ∧ r.2 < r.1.head then r.1.setHead r.2 else r.1

end RecurrentMemory

end Beellama.Ports
