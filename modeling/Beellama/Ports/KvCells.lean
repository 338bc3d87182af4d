import Beellama.Verified.CountedMap

/-!
# The KV cell table (`llama_kv_cells`)

The cells of `src/src/llama-kv-cells.h`, one record per cell, with three redundant indexes: the used
cells, a counted map of positions and the number of cells of every sequence.

The methods are total functions that follow the source with `assert` compiled out; what a method
asserts is in `Op.Pre`.
-/

namespace Beellama.Ports

open Beellama.Verified

/-- `LLAMA_MAX_SEQ`: the width of the per-cell sequence bitset. -/
def maxSeq : Nat := 256

/-- `llama_kv_cell_ext`: 2D spatial position, zero when reset. -/
structure KvCellExt where
  x : Int := 0
  y : Int := 0
  deriving DecidableEq, Repr, Inhabited

/-- The per-cell fields; the default value is a cell after `reset()`. -/
structure KvCell where
  pos : Int := -1
  ext : KvCellExt := {}
  shift : Int := 0
  seq : Finset Nat := ∅
  deriving DecidableEq

/-- The state of `llama_kv_cells`. -/
structure KvCells where
  /-- number of cells, the length of the source's parallel vectors -/
  size : Nat := 0
  cell : Nat → KvCell := fun _ => {}
  hasShift : Bool := false
  /-- indices of used cells -/
  used : Finset Nat := ∅
  /-- how many times a position is present for a sequence -/
  seqPos : Nat → CountedMap Int := fun _ => ∅
  /-- number of cells of a sequence -/
  seqUsed : Nat → Nat := fun _ => 0

namespace KvCells

/-! ## Reading -/

def isEmpty (c : KvCells) (i : Nat) : Bool := (c.cell i).pos = -1

def getUsed (c : KvCells) : Nat := c.used.card

def seqCount (c : KvCells) (i : Nat) : Nat := (c.cell i).seq.card

def seqHas (c : KvCells) (i s : Nat) : Bool := s ∈ (c.cell i).seq

def seqSize (c : KvCells) (s : Nat) : Nat := c.seqUsed s

/-- The sequence of a cell with exactly one; the source scans from id 0. -/
def seqGet (c : KvCells) (i : Nat) : Option Nat :=
  (List.range maxSeq).find? fun s => s ∈ (c.cell i).seq

/-- `seq_pos[s].begin()->first`, or `-1`. -/
def seqPosMin (c : KvCells) (s : Nat) : Int := (c.seqPos s).keys.min.untopD (-1)

/-- `seq_pos[s].rbegin()->first`, or `-1`. -/
def seqPosMax (c : KvCells) (s : Nat) : Int := (c.seqPos s).keys.max.unbotD (-1)

def posGet (c : KvCells) (i : Nat) : Int := (c.cell i).pos

def extGet (c : KvCells) (i : Nat) : KvCellExt := (c.cell i).ext

def getShift (c : KvCells) (i : Nat) : Int := (c.cell i).shift

def posIn (c : KvCells) (i : Nat) (p0 p1 : Int) : Bool :=
  p0 ≤ (c.cell i).pos ∧ (c.cell i).pos < p1

/-! ## Index maintenance -/

/-- Overwrite the fields of one cell. -/
def setCell (c : KvCells) (i : Nat) (v : KvCell) : KvCells :=
  { c with cell := Function.update c.cell i v }

/-- Change the two indexes of one sequence. -/
def updSeq (c : KvCells) (s : Nat) (f : CountedMap Int → CountedMap Int) (g : Nat → Nat) :
    KvCells :=
  { c with
    seqPos := Function.update c.seqPos s (f (c.seqPos s))
    seqUsed := Function.update c.seqUsed s (g (c.seqUsed s)) }

def seqPosDec (c : KvCells) (s : Nat) (p : Int) : KvCells :=
  c.updSeq s (·.decr p) (· - 1)

def seqPosInc (c : KvCells) (s : Nat) (p : Int) : KvCells :=
  c.updSeq s (·.incr p) (· + 1)

/-- Take cell `i` out of the position indexes of all its sequences. -/
def seqPosRm (c : KvCells) (i : Nat) : KvCells :=
  (List.range maxSeq).foldl
    (fun acc s => if s ∈ (c.cell i).seq then acc.seqPosDec s (c.cell i).pos else acc) c

/-- Enter cell `i` into the position indexes of all its sequences. -/
def seqPosAdd (c : KvCells) (i : Nat) : KvCells :=
  (List.range maxSeq).foldl
    (fun acc s => if s ∈ (c.cell i).seq then acc.seqPosInc s (c.cell i).pos else acc) c

def usedErase (c : KvCells) (i : Nat) : KvCells := { c with used := c.used.erase i }

def usedInsert (c : KvCells) (i : Nat) : KvCells := { c with used := insert i c.used }

/-! ## Operations -/

def reset (c : KvCells) : KvCells := { size := c.size }

def resetShift (c : KvCells) : KvCells :=
  { c with
    hasShift := false
    cell := fun i => if i < c.size then { c.cell i with shift := 0 } else c.cell i }

def resize (_ : KvCells) (n : Nat) : KvCells := { size := n }

/-- Copy the cells `idxs` into a table of their own.  The shift is not
copied: the source asserts that it is zero. -/
def cpIdxs (c : KvCells) (idxs : List Nat) : KvCells :=
  { size := idxs.length
    cell := fun j =>
      match idxs[j]? with
      | some idx => { c.cell idx with shift := 0 }
      | none => {} }

/-- Copy the cells `[i, i + n)`. -/
def cp (c : KvCells) (i n : Nat) : KvCells := c.cpIdxs ((List.range n).map (i + ·))

/-- One iteration of `set`: overwrite cell `idx` with the position, extension
and sequences of `v`, keeping the indexes and the shift. -/
def setOne (c : KvCells) (idx : Nat) (v : KvCell) : KvCells :=
  let c := if (c.cell idx).pos = -1 ∧ v.pos ≠ -1 then c.usedInsert idx else c
  let c := if (c.cell idx).pos ≠ -1 ∧ v.pos = -1 then c.usedErase idx else c
  let c := if (c.cell idx).pos ≠ -1 then c.seqPosRm idx else c
  let c := c.setCell idx { v with shift := (c.cell idx).shift }
  if v.pos ≠ -1 then c.seqPosAdd idx else c

/-- Set the state of the cells `idxs` from the table `other`. -/
def setIdxs (c : KvCells) (idxs : List Nat) (other : KvCells) : KvCells :=
  (List.range other.size).foldl
    (fun acc j => match idxs[j]? with
      | some idx => acc.setOne idx (other.cell j)
      | none => acc) c

/-- Set the state of the cells `[i, i + other.size)`. -/
def set (c : KvCells) (i : Nat) (other : KvCells) : KvCells :=
  c.setIdxs ((List.range other.size).map (i + ·)) other

/-- Clear a non-empty cell. -/
def rm (c : KvCells) (i : Nat) : KvCells :=
  ((c.seqPosRm i).setCell i {}).usedErase i

/-- Remove a sequence from a cell; the flag tells that the cell became empty. -/
def seqRm (c : KvCells) (i s : Nat) : KvCells × Bool :=
  let p := (c.cell i).pos
  let c := c.setCell i { c.cell i with seq := (c.cell i).seq.erase s }
  let c := c.seqPosDec s p
  if (c.cell i).seq = ∅ then ((c.setCell i {}).usedErase i, true) else (c, false)

/-- Remove a sequence from a cell whatever its position; a cell that does not
have it is left alone. -/
def seqRmCell (c : KvCells) (i s : Nat) : KvCells × Bool :=
  if (c.cell i).pos = -1 ∨ s ∉ (c.cell i).seq then (c, false) else c.seqRm i s

/-- Keep only one sequence in a cell; the flag tells that the cell became
empty. -/
def seqKeep (c : KvCells) (i s : Nat) : KvCells × Bool :=
  if s ∈ (c.cell i).seq then
    let c := c.seqPosRm i
    let c := c.setCell i { c.cell i with seq := {s} }
    (c.seqPosInc s (c.cell i).pos, false)
  else if (c.cell i).seq ≠ ∅ then
    (((c.seqPosRm i).setCell i {}).usedErase i, true)
  else
    (c, false)

def seqAdd (c : KvCells) (i s : Nat) : KvCells :=
  (c.setCell i { c.cell i with seq := insert s (c.cell i).seq }).seqPosInc s (c.cell i).pos

def posSet (c : KvCells) (i : Nat) (p : Int) : KvCells :=
  (c.setCell i { c.cell i with pos := p }).usedInsert i

def extSet (c : KvCells) (i : Nat) (e : KvCellExt) : KvCells :=
  c.setCell i { c.cell i with ext := e }

def markShift (c : KvCells) : KvCells := { c with hasShift := true }

/-- Move a cell by `d`; one that falls below zero is emptied, but for its 2D extension. -/
def posAdd (c : KvCells) (i : Nat) (d : Int) : KvCells × Bool :=
  let c := c.seqPosRm i
  let v := c.cell i
  if v.pos + d < 0 then
    (((c.setCell i { v with pos := -1, shift := 0, seq := ∅ }).usedErase i).markShift, true)
  else
    (((c.setCell i { v with pos := v.pos + d, shift := v.shift + d }).seqPosAdd i).markShift,
      false)

/-- Divide a position, rounding toward zero as the source's `/` does. -/
def posDiv (c : KvCells) (i : Nat) (d : Int) : KvCells :=
  let c := c.seqPosRm i
  let v := c.cell i
  let p := v.pos.tdiv d
  ((c.setCell i { v with pos := p, shift := v.shift + (v.pos - p) }).seqPosAdd i).markShift

/-! ## Runs

`Op` lists the methods that change one table in place.  Setting one table from
another involves two tables and is a constructor of `Reachable` itself. -/

inductive Op
  | resize (n : Nat)
  | reset
  | resetShift
  | posSet (i : Nat) (p : Int)
  | extSet (i : Nat) (e : KvCellExt)
  | seqAdd (i s : Nat)
  | seqRm (i s : Nat)
  | seqRmCell (i s : Nat)
  | seqKeep (i s : Nat)
  | rm (i : Nat)
  | posAdd (i : Nat) (d : Int)
  | posDiv (i : Nat) (d : Int)
  deriving DecidableEq

def Op.apply : Op → KvCells → KvCells
  | .resize n, c => c.resize n
  | .reset, c => c.reset
  | .resetShift, c => c.resetShift
  | .posSet i p, c => c.posSet i p
  | .extSet i e, c => c.extSet i e
  | .seqAdd i s, c => c.seqAdd i s
  | .seqRm i s, c => (c.seqRm i s).1
  | .seqRmCell i s, c => (c.seqRmCell i s).1
  | .seqKeep i s, c => (c.seqKeep i s).1
  | .rm i, c => c.rm i
  | .posAdd i d, c => (c.posAdd i d).1
  | .posDiv i d, c => c.posDiv i d

/-- What the method asserts on entry; a sequence id has to fit the bitset, and a divisor to be
non-zero. -/
def Op.Pre : Op → KvCells → Prop
  | .resize _, _ | .reset, _ | .resetShift, _ => True
  | .posSet i _, c => i < c.size ∧ (c.cell i).pos = -1 ∧ (c.cell i).seq = ∅
  | .extSet i _, c => i < c.size
  | .seqAdd i s, c => i < c.size ∧ (c.cell i).pos ≠ -1 ∧ s < maxSeq ∧ s ∉ (c.cell i).seq
  | .seqRm i s, c => i < c.size ∧ s < maxSeq ∧ s ∈ (c.cell i).seq ∧ (c.cell i).pos ≠ -1
  | .seqRmCell i s, c => i < c.size ∧ s < maxSeq
  | .seqKeep i s, c => i < c.size ∧ s < maxSeq ∧
      (s ∉ (c.cell i).seq → (c.cell i).seq = ∅ → (c.cell i).pos = -1)
  | .rm i, c => i < c.size ∧ (c.cell i).pos ≠ -1
  | .posAdd i _, c => i < c.size ∧ (c.cell i).pos ≠ -1
  | .posDiv i d, c => i < c.size ∧ (c.cell i).pos ≠ -1 ∧ d ≠ 0

instance (op : Op) (c : KvCells) : Decidable (op.Pre c) := by
  cases op <;> unfold Op.Pre <;> infer_instance

/-- A full copy of a table, or a snapshot of one of the two `cp` forms, which carries no indexes of
its own. -/
def IsSnapshot (c snap : KvCells) : Prop :=
  snap = c ∨
  (∃ i n, i + n ≤ c.size ∧ (∀ j < n, (c.cell (i + j)).shift = 0) ∧ snap = c.cp i n) ∨
  ∃ idxs : List Nat, (∀ i ∈ idxs, i < c.size ∧ (c.cell i).shift = 0) ∧ snap = c.cpIdxs idxs

/-- Tables produced by runs of the methods that respect the asserted
preconditions and whose in-place steps also satisfy `G`. -/
inductive Reachable (G : Op → KvCells → Prop) : KvCells → Prop
  | new : Reachable G {}
  | step {c : KvCells} (op : Op) :
      Reachable G c → op.Pre c → G op c → Reachable G (op.apply c)
  | set {c o snap : KvCells} (i : Nat) :
      Reachable G c → Reachable G o → IsSnapshot o snap → i + snap.size ≤ c.size →
      (∀ j < snap.size, (c.cell (i + j)).shift = 0) → Reachable G (c.set i snap)
  | setIdxs {c o snap : KvCells} (idxs : List Nat) :
      Reachable G c → Reachable G o → IsSnapshot o snap → idxs.length = snap.size →
      (∀ i ∈ idxs, i < c.size ∧ (c.cell i).shift = 0) → Reachable G (c.setIdxs idxs snap)

end KvCells

end Beellama.Ports
