import Beellama.Ports.KvCells
import Beellama.Verified.DeferredCopies

/-!
# The compressed rows and the compressor states of `llama_kv_cache_dsv4`

Beside its raw cache the memory has three compressed caches of K rows and three compressor states.  A
state keeps, for every sequence, a ring of rows in plane 0 and its snapshots in the planes above;
`rs_idx[s]` names the plane that the next ubatch of `s` continues from.  A sequence copy is queued.

The layers of a cache are one value of `κ`, those of a state one of `ρ`.
-/

namespace Beellama.Ports

open Beellama.Verified

/-- The compressed caches and their states. -/
inductive Dsv4Part
  | csa
  | hca
  | lid
  deriving DecidableEq, Repr

/-- The K rows of a compressed cache by stream and row, and the stream copies that are
queued (`sc_info`). -/
structure CompCache (κ : Type) where
  rows : Nat → Nat → κ
  copies : List (Nat × Nat) := []

namespace CompCache

variable {κ : Type}

/-- `materialize_pending_copies`, and the stream copies of `update` -/
def materialize (c : CompCache κ) : CompCache κ where
  rows := applyCopies c.copies c.rows

/-- `llama_kv_cache::seq_cp` between streams -/
def seqCp (c : CompCache κ) (src dst : Nat) : CompCache κ :=
  if src = dst then c.materialize else { c.materialize with copies := [(src, dst)] }

variable [Zero κ]

/-- `llama_kv_cache::clear(true)` -/
def clear (_ : CompCache κ) : CompCache κ where
  rows := 0

/-- `clear_seq` of `clear_compressed`: `seq_rm` and the clearing of the stream. -/
def clearSeq (c : CompCache κ) (s : Nat) : CompCache κ :=
  { c.materialize with rows := Function.update c.materialize.rows s 0 }

end CompCache

/-- `llama_dsv4_comp_state`: plane `d` of sequence `s` is the tensor stream `d*n_stream + s`. -/
structure CompState (nStream nRsSeq : Nat) (ρ : Type) where
  rows : Nat → Nat → ρ
  scInfo : List (Nat × Nat) := []

namespace CompState

variable {nStream nRsSeq : Nat} {ρ : Type}

/-- The tensor stream belongs to a plane of a sequence. -/
def inPlanes (nStream nRsSeq s k : Nat) : Bool :=
  (List.range (nRsSeq + 1)).any fun d => k == d * nStream + s

/-- `apply_copies` -/
def applyCopies (c : CompState nStream nRsSeq ρ) : CompState nStream nRsSeq ρ where
  rows := Verified.applyCopies c.scInfo c.rows

variable [Zero ρ]

/-- `clear` of one sequence: all its planes. -/
def clearSeq (c : CompState nStream nRsSeq ρ) (s : Nat) : CompState nStream nRsSeq ρ :=
  { c with rows := zeroCells (fun k => inPlanes nStream nRsSeq s k = true) c.rows }

/-- `clear` of all sequences -/
def clear (c : CompState nStream nRsSeq ρ) : CompState nStream nRsSeq ρ := { c with rows := 0 }

def seqCp (c : CompState nStream nRsSeq ρ) (src dst : Nat) : CompState nStream nRsSeq ρ :=
  if src = dst then c else { c.clearSeq dst with scInfo := c.scInfo ++ [(src, dst)] }

end CompState

/-- The compressed part of `llama_kv_cache_dsv4`. -/
structure Dsv4Rows (nSeqMax nRsSeq : Nat) (κ ρ : Type) where
  cache : Dsv4Part → CompCache κ
  state : Dsv4Part → CompState nSeqMax nRsSeq ρ
  /-- `rs_idx` -/
  rsIdx : Nat → Nat := fun _ => 0

/-- What the raw cache answers to `seq_rm`: the last position of the sequence and
whether the raw rows were removed. -/
structure RawAnswer where
  posMax : Int
  removed : Bool
  deriving DecidableEq, Repr

/-- A call between two updates. -/
inductive Dsv4Call
  | clear
  | seqRm (seqId p0 p1 : Int) (raw : RawAnswer)
  /-- a copy of a whole sequence, the only one that the assertion lets through -/
  | seqCp (src dst : Nat)
  | seqKeep (s : Nat)
  deriving DecidableEq, Repr

namespace Dsv4Rows

variable {nSeqMax nRsSeq : Nat} {κ ρ : Type}

/-- `init_update` followed by `apply` -/
def update (m : Dsv4Rows nSeqMax nRsSeq κ ρ) : Dsv4Rows nSeqMax nRsSeq κ ρ :=
  { m with
    cache := fun p => (m.cache p).materialize
    state := fun p => (m.state p).applyCopies }

variable [Zero κ] [Zero ρ]

/-- `clear_compressed` of one sequence -/
def clearSeq (m : Dsv4Rows nSeqMax nRsSeq κ ρ) (s : Nat) : Dsv4Rows nSeqMax nRsSeq κ ρ where
  cache p := (m.cache p).clearSeq s
  state p := (m.state p).clearSeq s
  rsIdx := Function.update m.rsIdx s 0

/-- `clear_compressed` of all sequences -/
def clearAll (m : Dsv4Rows nSeqMax nRsSeq κ ρ) : Dsv4Rows nSeqMax nRsSeq κ ρ where
  cache p := (m.cache p).clear
  state p := (m.state p).clear

def clearCompressed (m : Dsv4Rows nSeqMax nRsSeq κ ρ) (seqId : Int) : Dsv4Rows nSeqMax nRsSeq κ ρ :=
  if seqId < 0 then m.clearAll else m.clearSeq seqId.toNat

def seqRm (m : Dsv4Rows nSeqMax nRsSeq κ ρ) (seqId p0 p1 : Int) (raw : RawAnswer) :
    Dsv4Rows nSeqMax nRsSeq κ ρ :=
  if 0 ≤ p1 then m
  else if 0 < p0 then
    if seqId < 0 ∨ nSeqMax ≤ seqId then m
    -- the compressed caches have no cells to remove, but make their copies
    else if raw.posMax < p0 then { m with cache := fun p => (m.cache p).materialize }
    else if nRsSeq = 0 then m
    else
      let rollback := raw.posMax - (p0 - 1)
      if rollback < 1 ∨ nRsSeq < rollback then m
      else if raw.removed then
        { m with rsIdx := Function.update m.rsIdx seqId.toNat rollback.toNat }
      else m
  else if raw.removed then m.clearCompressed seqId
  else m

def seqCp (m : Dsv4Rows nSeqMax nRsSeq κ ρ) (src dst : Nat) : Dsv4Rows nSeqMax nRsSeq κ ρ where
  cache p := (m.cache p).seqCp src dst
  state p := (m.state p).seqCp src dst
  rsIdx := if src = dst then m.rsIdx else Function.update m.rsIdx dst 0

def seqKeep (m : Dsv4Rows nSeqMax nRsSeq κ ρ) (s : Nat) : Dsv4Rows nSeqMax nRsSeq κ ρ :=
  (List.range nSeqMax).foldl (fun m id => if id = s then m else m.clearSeq id) m

def step (m : Dsv4Rows nSeqMax nRsSeq κ ρ) : Dsv4Call → Dsv4Rows nSeqMax nRsSeq κ ρ
  | .clear => m.clearAll
  | .seqRm seqId p0 p1 raw => m.seqRm seqId p0 p1 raw
  | .seqCp src dst => m.seqCp src dst
  | .seqKeep s => m.seqKeep s

/-- The assertions of a call hold; the process ends otherwise. -/
def Asserted (nSeqMax : Nat) : Dsv4Call → Prop
  | .clear => True
  | .seqRm seqId p0 p1 raw => p1 < 0 → p0 ≤ 0 → raw.removed = true → seqId < nSeqMax
  | .seqCp src dst => src < nSeqMax ∧ dst < nSeqMax
  | .seqKeep s => s < nSeqMax

instance (n : Nat) : DecidablePred (Asserted n) := fun c => by
  cases c <;> unfold Asserted <;> infer_instance

/-- A memory as the constructor leaves it. -/
def empty (nSeqMax nRsSeq : Nat) (κ ρ : Type) [Zero κ] [Zero ρ] : Dsv4Rows nSeqMax nRsSeq κ ρ where
  cache _ := { rows := 0 }
  state _ := { rows := 0 }

end Dsv4Rows

end Beellama.Ports
