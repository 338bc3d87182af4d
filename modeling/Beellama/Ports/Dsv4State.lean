import Beellama.Ports.Dsv4Rows
import Beellama.Ports.KvState
import Beellama.Verified.StagedReader

/-!
# Restoring a state into `llama_kv_cache_dsv4`

`state_read` reads a header, the raw caches, the rows of the compressed caches and the rings of the
compressor states.  Tensor writes are staged and made by a commit.

A raw cache captures its metadata, lets `state_read_impl` change it, and installs what it captured
until the commit; what `state_read_impl` makes of the bytes is a parameter, `RawReader`.  The rows are
read by bytes; `Dsv4Layout` says how a row of a tensor is decoded.
-/

namespace Beellama.Ports

open Beellama.Verified

/-- What a saved tensor is checked against: `type`, `ne[0]` and the size of a row. -/
structure TensorShape where
  type : Nat
  ne0 : Nat
  rowSize : Nat
  deriving DecidableEq, Repr

/-- The compressed tensors of a memory: rows of `κ` in the caches, of `ρ` in the states. -/
structure Dsv4Layout (κ ρ : Type) where
  kvSize : Dsv4Part → Nat
  layerIds : Dsv4Part → List Nat
  kShape : Dsv4Part → Nat → TensorShape
  ratio : Dsv4Part → Nat
  stateSize : Dsv4Part → Nat
  nEmbdState : Dsv4Part → Nat
  stateLayerIds : Dsv4Part → List Nat
  kRow : List UInt8 → κ
  stateRow : List UInt8 → ρ

/-- The tensors of a state are of type F32. -/
def Dsv4Layout.stateShape {κ ρ : Type} (L : Dsv4Layout κ ρ) (p : Dsv4Part) : TensorShape :=
  ⟨0, L.nEmbdState p, 4 * L.nEmbdState p⟩

/-- The rows of one stream of a tensor that a commit writes. -/
inductive StagedRows (κ ρ : Type)
  | k (part : Dsv4Part) (layer stream : Nat) (rows : List κ)
  | state (part : Dsv4Part) (layer : Nat) (score : Bool) (stream : Nat) (rows : List ρ)

def StagedRows.stream {κ ρ : Type} : StagedRows κ ρ → Nat
  | .k _ _ stream _ => stream
  | .state _ _ _ stream _ => stream

/-! ## The reader -/

abbrev Dsv4Reader (κ ρ : Type) := StagedReader (StagedRows κ ρ) String

namespace Dsv4Reader

variable {κ ρ : Type}

open StagedReader

def endOfBuffer : String := "unexpectedly reached end of buffer"

def readU32 : Dsv4Reader κ ρ Nat := leNat <$> take endOfBuffer 4

def readU64 : Dsv4Reader κ ρ Nat := leNat <$> take endOfBuffer 8

/-- The rows of a block of data. -/
def rowsOf (rowSize nRows : Nat) (data : List UInt8) : List (List UInt8) :=
  (List.range nRows).map fun r => (data.drop (r * rowSize)).take rowSize

/-- `dsv4_state_read_tensor_streams`; `put` says what is staged for a stream. -/
def readTensorStreams (t : TensorShape) (tensorRows nRows s0 ns : Nat)
    (put : Nat → List (List UInt8) → StagedRows κ ρ) : Dsv4Reader κ ρ Unit := do
  let type ← readU32
  let ne0 ← readU64
  let rows ← readU64
  let rowSize ← readU64
  check (type = t.type ∧ ne0 = t.ne0 ∧ rows = nRows ∧ rowSize = t.rowSize)
    "DSV4 state tensor metadata mismatch"
  check (nRows ≤ tensorRows) "DSV4 state tensor row count exceeds storage"
  let size := nRows * t.rowSize
  if size = 0 then return
  else
    (List.range ns).forM fun s => do
      let data ← take endOfBuffer size
      stage (put (s0 + s) (rowsOf t.rowSize nRows data))

/-- `dsv4_state_dst_stream_range` -/
def dstStreamRange (nStream : Nat) (seqId : Int) (ns : Nat) : Dsv4Reader κ ρ Nat :=
  if 0 ≤ seqId then do
    check (ns = 1) "DSV4 sequence state stream count mismatch"
    check (¬(1 < nStream ∧ nStream ≤ seqId)) "DSV4 state sequence id out of stream range"
    return if 1 < nStream then seqId.toNat else 0
  else do
    check (ns = nStream) "DSV4 full state stream count mismatch"
    return 0

/-- `dsv4_state_read_k_cache` -/
def readKCache (L : Dsv4Layout κ ρ) (nStream : Nat) (p : Dsv4Part) (seqId : Int) :
    Dsv4Reader κ ρ Unit := do
  let version ← readU32
  let nRows ← readU32
  let ns ← readU32
  let nLayer ← readU32
  check (version = 1 ∨ version = 2) "DSV4 K-cache state version mismatch"
  check (¬(version = 1 ∧ nRows ≠ L.kvSize p)) "DSV4 K-cache state size mismatch"
  check (nRows ≤ L.kvSize p) "DSV4 K-cache state size mismatch"
  let s0 ← dstStreamRange nStream seqId ns
  check (nLayer = (L.layerIds p).length) "DSV4 K-cache layer count mismatch"
  (L.layerIds p).forM fun il => do
    let ilRef ← readU32
    check (ilRef = il) "DSV4 K-cache layer id mismatch"
    readTensorStreams (L.kShape p il) (L.kvSize p) nRows s0 ns
      fun stream rows => .k p il stream (rows.map L.kRow)

/-- `llama_dsv4_comp_state::state_read` -/
def readCompState (L : Dsv4Layout κ ρ) (nStream : Nat) (p : Dsv4Part) (seqId : Int) :
    Dsv4Reader κ ρ Unit := do
  let version ← readU32
  let ratio ← readU32
  let stateSize ← readU32
  let nEmbdState ← readU32
  let ns ← readU32
  let nLayer ← readU32
  check (version = 1) "DSV4 compressor state version mismatch"
  check (ratio = L.ratio p ∧ stateSize = L.stateSize p ∧ nEmbdState = L.nEmbdState p)
    "DSV4 compressor state metadata mismatch"
  check (nLayer = (L.stateLayerIds p).length) "DSV4 compressor state layer count mismatch"
  let s0 ← dstStreamRange nStream seqId ns
  (L.stateLayerIds p).forM fun il => do
    let ilRef ← readU32
    check (ilRef = il) "DSV4 compressor state layer id mismatch"
    [false, true].forM fun score =>
      readTensorStreams (L.stateShape p) (L.stateSize p) (L.stateSize p) s0 ns
        fun stream rows => .state p il score stream (rows.map L.stateRow)

def parts : List Dsv4Part := [.csa, .hca, .lid]

/-- What follows the raw caches; a partial state has no compressed rows. -/
def readCompressed (L : Dsv4Layout κ ρ) (nStream : Nat) (partialOnly : Bool) (seqId : Int) :
    Dsv4Reader κ ρ Unit := do
  if partialOnly then pure () else parts.forM fun p => readKCache L nStream p seqId
  parts.forM fun p => readCompState L nStream p seqId

/-- The header: the magic number, the version and the mode. -/
def readHeader (partialOnly : Bool) : Dsv4Reader κ ρ Unit := do
  let magic ← readU32
  let version ← readU32
  check (magic = 0x34565344) "DSV4 state magic mismatch"
  check (version = 1) "DSV4 state version mismatch"
  let mode ← readU32
  check (mode = 0 ∨ mode = 1) "DSV4 state mode mismatch"
  check (mode = 1 ↔ partialOnly = true) "DSV4 state flags mismatch"

end Dsv4Reader

/-! ## The memory -/

/-- A raw cache.  `logical` is what `logical_state` captures of it: the cells, the heads, the streams,
the generations and the tail store; `llama_kv_cells::set` asserts that no shift is pending. -/
structure RawCache (μ τ : Type) where
  logical : μ
  tensors : τ
  /-- the tail store is in a batch, or a copy waits for its payload -/
  inTransaction : Bool := false

/-- How the bytes of a raw cache are read. -/
structure RawReader (μ τ : Type) where
  /-- `state_read_impl`: the metadata that it leaves, and the tensor writes that it stages with the
  rest of the stream -/
  stateReadImpl : RawCache μ τ → Int → StateSeqFlags → List UInt8 →
    μ × Except String ((τ → τ) × List UInt8)
  /-- `requires_state_for_partial_restore` -/
  required : RawCache μ τ → Bool

namespace RawCache

variable {μ τ : Type}

def capture (c : RawCache μ τ) : Except String μ :=
  if c.inTransaction then .error "cannot clone KV tail logical state during a transaction"
  else .ok c.logical

def install (state : μ) (c : RawCache μ τ) : RawCache μ τ := { c with logical := state }

/-- `llama_kv_cache::state_read`: the cache that the call leaves, and its commit with the rest of the
stream. -/
def stateRead (R : RawReader μ τ) (c : RawCache μ τ) (seqId : Int) (flags : StateSeqFlags)
    (bytes : List UInt8) :
    RawCache μ τ × Except String ((RawCache μ τ → RawCache μ τ) × List UInt8) :=
  match c.capture with
  | .error e => (c, .error e)
  | .ok original =>
    let (logical, outcome) := R.stateReadImpl c seqId flags bytes
    let c := { c with logical }
    match outcome with
    | .error e => (c.install original, .error e)
    | .ok (writes, rest) =>
      match c.capture with
      | .error e => (c, .error e)
      | .ok prepared =>
        (c.install original,
          .ok ((fun c => { c with tensors := writes c.tensors }.install prepared), rest))

end RawCache

/-- `llama_kv_cache_dsv4`: the raw caches, and the rows of all layers. -/
structure Dsv4Memory (nSeqMax nRsSeq : Nat) (μ τ κ ρ : Type) where
  base : RawCache μ τ
  swa : RawCache μ τ
  comp : Dsv4Rows nSeqMax nRsSeq (Nat → κ) (Nat → Bool → ρ)

/-- How `state_read` ends. -/
inductive Dsv4ReadResult (M : Type)
  | aborted
  | thrown (what : String) (live : M)
  /-- the memory until the commit, and the commit -/
  | staged (live : M) (commit : M → M)

namespace Dsv4Memory

variable {nSeqMax nRsSeq : Nat} {μ τ κ ρ : Type}

/-- Make one staged write. -/
def write (m : Dsv4Rows nSeqMax nRsSeq (Nat → κ) (Nat → Bool → ρ)) :
    StagedRows κ ρ → Dsv4Rows nSeqMax nRsSeq (Nat → κ) (Nat → Bool → ρ)
  | .k part layer stream rows =>
    let c := m.cache part
    let written r := match rows[r]? with
      | some row => Function.update (c.rows stream r) layer row
      | none => c.rows stream r
    { m with
      cache := Function.update m.cache part
        { c with rows := Function.update c.rows stream written } }
  | .state part layer score stream rows =>
    let c := m.state part
    let written r := match rows[r]? with
      | some row => Function.update (c.rows stream r) layer
          (Function.update (c.rows stream r layer) score row)
      | none => c.rows stream r
    { m with
      state := Function.update m.state part
        { c with rows := Function.update c.rows stream written } }

def commitRows (ws : List (StagedRows κ ρ)) (m : Dsv4Memory nSeqMax nRsSeq μ τ κ ρ) :
    Dsv4Memory nSeqMax nRsSeq μ τ κ ρ :=
  { m with comp := ws.foldl write m.comp }

/-- The base cache is left out of a partial state, unless it needs it. -/
def includeBase (R : RawReader μ τ) (m : Dsv4Memory nSeqMax nRsSeq μ τ κ ρ) (flags : StateSeqFlags) :
    Bool :=
  !flags.partialOnly || R.required m.base

/-- `llama_kv_cache_iswa::state_read`: the memory that the call leaves, and the commit of the
raw caches with the rest of the stream. -/
def readRaw (R : RawReader μ τ) (m : Dsv4Memory nSeqMax nRsSeq μ τ κ ρ) (seqId : Int)
    (flags : StateSeqFlags) (bytes : List UInt8) :
    Dsv4Memory nSeqMax nRsSeq μ τ κ ρ ×
      Except String ((Dsv4Memory nSeqMax nRsSeq μ τ κ ρ → Dsv4Memory nSeqMax nRsSeq μ τ κ ρ) ×
        List UInt8) :=
  let withSwa (live : Dsv4Memory nSeqMax nRsSeq μ τ κ ρ)
      (publishBase : RawCache μ τ → RawCache μ τ) (rest : List UInt8) :=
    let (swa, outcome) := live.swa.stateRead R seqId flags rest
    ({ live with swa }, outcome.map fun (publishSwa, rest) =>
      ((fun m => { m with base := publishBase m.base, swa := publishSwa m.swa }), rest))
  if m.includeBase R flags then
    let (base, outcome) := m.base.stateRead R seqId flags bytes
    let live := { m with base }
    match outcome with
    | .error e => (live, .error e)
    | .ok (publishBase, rest) => withSwa live publishBase rest
  else withSwa m id bytes

variable [Zero κ] [Zero ρ]

/-- The clearing of the compressed caches, of all sequences. -/
def clearCaches (m : Dsv4Memory nSeqMax nRsSeq μ τ κ ρ) : Dsv4Memory nSeqMax nRsSeq μ τ κ ρ :=
  { m with comp := { m.comp with cache := fun p => (m.comp.cache p).clear } }

/-- The rollback index of a restored sequence is zero. -/
def resetRsIdx (m : Dsv4Memory nSeqMax nRsSeq μ τ κ ρ) (seqId : Int) :
    Dsv4Memory nSeqMax nRsSeq μ τ κ ρ :=
  { m with comp := { m.comp with
      rsIdx := if 0 ≤ seqId then Function.update m.comp.rsIdx seqId.toNat 0 else fun _ => 0 } }

def stateRead (L : Dsv4Layout κ ρ) (R : RawReader μ τ) (m : Dsv4Memory nSeqMax nRsSeq μ τ κ ρ)
    (seqId : Int) (flags : StateSeqFlags) (bytes : List UInt8) :
    Dsv4ReadResult (Dsv4Memory nSeqMax nRsSeq μ τ κ ρ) :=
  match (Dsv4Reader.readHeader flags.partialOnly : Dsv4Reader κ ρ Unit) bytes with
  | .error e => .thrown e m
  | .ok (_, _, rest) =>
    match m.readRaw R seqId flags rest with
    | (live, .error e) => .thrown e live
    | (live, .ok (publish, rest)) =>
      let live := if flags.partialOnly then live else live.clearCaches
      match Dsv4Reader.readCompressed L nSeqMax flags.partialOnly seqId rest with
      | .error e => .thrown e live
      | .ok (_, ws, _) =>
        if 0 ≤ seqId ∧ nSeqMax ≤ seqId then .aborted
        else .staged (live.resetRsIdx seqId) fun m => publish (m.commitRows ws)

end Dsv4Memory

end Beellama.Ports
