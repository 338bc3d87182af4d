import Beellama.Ports.RecurrentInvariant

/-!
# Finding a slot in the recurrent memory (`find_slot`)

Every sequence set of a ubatch gets a cell of its own; the cells are then moved to the start of the
range that holds them, and told from which rows their states are to be copied.  What is handed out
next is the first cell that looks empty, in ring order from the head.
-/

namespace Beellama.Ports

open Beellama.Verified

namespace RecurrentMemory

/-- The coupled sequences of a set leave their cells; the flag tells that the sequence ids
fit. -/
def fitCoupled (mem : RecurrentMemory) : List Nat → Bool × RecurrentMemory
  | [] => (true, mem)
  | s :: rest =>
    if mem.size ≤ s then (false, mem) else (mem.releaseTail s).fitCoupled rest

/-- The first loop of `find_slot`. -/
def fitSeqs (mem : RecurrentMemory) : List SlotSeq → Bool × RecurrentMemory
  | [] => (true, mem)
  | set :: rest =>
    if mem.size ≤ set.first then (false, mem)
    else
      let r := mem.fitCoupled set.coupled
      if r.1 then r.2.fitSeqs rest else r

/-- `is_empty` of a cell -/
def looksEmpty (mem : RecurrentMemory) (c : Nat) : Bool := (mem.cells c).seqId = ∅

/-- Copy the old tail of a sequence into an empty cell. -/
def moveOut (mem : RecurrentMemory) (s t next : Nat) : RecurrentMemory :=
  let orig := mem.cells t
  let mem := mem.onCell next fun cell => { cell with pos := orig.pos, src := orig.src }
  let mem := mem.onCell t fun cell => { cell with seqId := cell.seqId.erase s }
  mem.onCell next fun cell => { cell with seqId := insert s cell.seqId }

/-- The local variables of the search for the range of cells. -/
structure SlotSearch where
  mem : RecurrentMemory
  /-- `next_empty_cell` -/
  next : Nat
  low : Nat
  high : Nat

namespace SlotSearch

/-- The range takes a cell in. -/
def widen (st : SlotSearch) (c : Nat) : SlotSearch :=
  { st with low := if c < st.low then c else st.low, high := if st.high < c then c else st.high }

/-- The next empty cell becomes the tail of a sequence; if there are `more` sequences the
search goes on. -/
def handOut (st : SlotSearch) (s : Nat) (more : Bool) : SlotSearch :=
  let mem := st.mem.setTail s (some st.next)
  let out := { st with mem := mem }.widen st.next
  if more then { out with next := scanAfter mem.looksEmpty mem.size mem.size st.next } else out

/-- A sequence gets a cell of its own. -/
def placeSeq (st : SlotSearch) (s : Nat) (more : Bool) : Option SlotSearch :=
  let mem := st.mem
  match (mem.cells s).tail with
  | some t =>
    -- the cell has the sequence
    if s ∉ (mem.cells t).seqId then none
    else if (mem.cells t).seqId.card = 1 then some (st.widen t)
    -- the next empty cell is there and empty
    else if mem.size ≤ st.next ∨ (mem.cells st.next).seqId ≠ ∅ then none
    else
      let mem := mem.moveOut s t st.next
      -- the old tail has a sequence left
      if (mem.cells t).seqId = ∅ then none
      else some ({ st with mem := mem }.handOut s more)
  | none =>
    if mem.size ≤ st.next ∨ (mem.cells st.next).seqId ≠ ∅ then none
    else some (st.handOut s more)

/-- The loop over the sequence sets. -/
def placeSeqs (st : SlotSearch) : List SlotSeq → Option SlotSearch
  | [] => some st
  | set :: rest =>
    match st.placeSeq set.first (!rest.isEmpty) with
    | none => none
    | some st => st.placeSeqs rest

end SlotSearch

/-- Swap what is in two cells, and the tails that point to them. -/
def swapCells (mem : RecurrentMemory) (a b : Nat) : RecurrentMemory :=
  { mem with
    cells := fun c =>
      let cell := mem.cells (Equiv.swap a b c)
      { mem.cells c with
        pos := cell.pos
        src := cell.src
        seqId := cell.seqId
        tail := (mem.cells c).tail.map (Equiv.swap a b) } }

/-- Move the cells of the sequence sets to `dst` and what follows. -/
def gather (mem : RecurrentMemory) : List SlotSeq → Nat → Option RecurrentMemory
  | [], _ => some mem
  | set :: rest, dst =>
    match (mem.cells set.first).tail with
    | none => none
    | some src => (if dst ≠ src then mem.swapCells dst src else mem).gather rest (dst + 1)

/-- The sequences of a set become the members of a cell. -/
def emplaceSet (mem : RecurrentMemory) (nSeqTokens : Nat) (set : SlotSeq) (c : Nat) :
    RecurrentMemory :=
  let mem := mem.onCell c fun cell => { cell with pos := set.lastPos nSeqTokens, seqId := ∅ }
  set.ids.foldl (fun mem s =>
    (mem.onCell c fun cell => { cell with seqId := insert s cell.seqId }).setTail s (some c)) mem

def emplace (mem : RecurrentMemory) (nSeqTokens : Nat) : List SlotSeq → Nat → RecurrentMemory
  | [], _ => mem
  | set :: rest, c => (mem.emplaceSet nSeqTokens set c).emplace nSeqTokens rest (c + 1)

/-- How many cells are to be copied from a row. -/
def refcount (mem : RecurrentMemory) (row : Nat) : Nat :=
  ((List.range mem.size).filter fun c => (mem.cells c).src = some row).length

/-- The first row of a range that no cell is to be copied from. -/
def zeroRow (mem : RecurrentMemory) (low n : Nat) : Option Nat :=
  (List.range' low n).find? fun i => mem.refcount i = 0

/-- Tell the cells of a range where their states come from. -/
def stage (mem : RecurrentMemory) (low n : Nat) (z : Option Nat) : RecurrentMemory :=
  { mem with
    cells := fun c =>
      if low ≤ c ∧ c < low + n then
        { mem.cells c with
          src0 := if (mem.cells c).src = none then z else (mem.cells c).src
          src := some c }
      else mem.cells c
    rsZ := z }

/-- The rest of `find_slot`, once the sequences have their cells. -/
def finishSlot (st : SlotSearch) (u : RecurrentUbatch) : Option (Bool × RecurrentMemory) :=
  match st.mem.gather u.seqs st.low with
  | none => none
  | some mem =>
    let mem := mem.emplace u.nSeqTokens u.seqs st.low
    let n := st.high + 1 - st.low
    let z := mem.zeroRow st.low n
    -- a cell without a source needs the zero row
    if (∃ c ∈ List.range' st.low n, (mem.cells c).src = none) ∧ z = none then none
    else
      let mem := mem.stage st.low n z
      some (decide (u.seqs.length ≤ n),
        { mem with head := st.low, n := n, used := mem.usedCells.card })

def findSlot (mem : RecurrentMemory) (u : RecurrentUbatch) : Option (Bool × RecurrentMemory) :=
  let mem := if mem.used + 2 * u.seqs.length < mem.head then mem.setHead 0 else mem
  let r := mem.fitSeqs u.seqs
  if r.1 = false then some r
  else
    let mem := r.2
    let st : SlotSearch :=
      { mem := mem, next := scanFrom mem.looksEmpty mem.size mem.size mem.head
        low := mem.size - 1, high := 0 }
    match st.placeSeqs u.seqs with
    | none => none
    | some st => finishSlot st u

/-- A ubatch as the batch allocator makes it: sequence ids below the number of cells, and no
sequence in two sets.  Positions are not negative, though the allocator lets -1 pass too. -/
structure Fits (u : RecurrentUbatch) (size : Nat) : Prop where
  some : u.seqs ≠ []
  ids : ∀ set ∈ u.seqs, ∀ s ∈ set.ids, s < size
  disjoint : u.seqs.Pairwise fun a b => ∀ s ∈ a.ids, s ∉ b.ids
  pos : ∀ set ∈ u.seqs, 0 ≤ set.lastPos u.nSeqTokens

end RecurrentMemory

end Beellama.Ports
