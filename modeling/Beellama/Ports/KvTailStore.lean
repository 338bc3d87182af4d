import Mathlib.Data.Finmap
import Mathlib.Data.List.Sort

/-!
# The exact-tail store (`llama_kv_tail_store`)

The class of `src/src/llama-kv-cache-tail.cpp` assigns the slots of a compact arena to the newest
tokens of every sequence.  `SeqTail` groups the fields of one sequence.  A `std::list` iterator is the
number of its node, and the 64-bit key of the index is the pair of its halves.

A method is a state transformer that keeps what it has written when it throws, as the C++ does.
-/

namespace Beellama.Ports

/-- `LLAMA_KV_TAIL_BODY_SLOT`: the answer for a token without an exact row. -/
def tailBodySlot : Int := -1

def int32Max : Nat := 2 ^ 31 - 1

def int32Min : Int := -2 ^ 31

structure TailIdentity where
  stream : Nat
  cell : Nat
  generation : Nat
  deriving DecidableEq, Repr, Inhabited

/-- The key under which a sequence indexes a physical cell. -/
def TailIdentity.cellKey (identity : TailIdentity) : Nat × Nat :=
  (identity.stream, identity.cell)

structure ExactEntry where
  /-- the list node that holds the entry -/
  node : Nat
  identity : TailIdentity
  position : Int
  insertionOrdinal : Nat
  slot : Nat
  deriving DecidableEq, Repr, Inhabited

namespace ExactEntry

def key (e : ExactEntry) : Nat × Nat := e.identity.cellKey

/-- The comparator of every sort and insertion. -/
def lt (a b : ExactEntry) : Bool :=
  a.position < b.position ∨
    (a.position = b.position ∧ a.insertionOrdinal < b.insertionOrdinal)

/-- `a` may stand before `b`: `b` is not strictly smaller. -/
def le (a b : ExactEntry) : Prop := ¬ b.lt a

instance : DecidableRel le := fun a b => inferInstanceAs (Decidable (¬ b.lt a))

end ExactEntry

/-- What the methods throw. -/
inductive TailError
  | duplicateCell
  | batchPending
  | copyPending
  | arenaExhausted (sequence stride : Nat)
  | currentSourceOverflow
  | invalidRestoreDestination
  | conflictingRestoreDestination
  | invalidSequenceCursor
  | invalidRestoredCursor
  | invalidProvenance
  | duplicateProvenance
  | invalidSequenceProvenance
  | incompatibleClone
  | cloneDuringTransaction
  deriving DecidableEq, Repr

/-- The texts of the exceptions. -/
def TailError.what : TailError → String
  | .duplicateCell => "duplicate physical cell in KV tail sequence"
  | .batchPending => "a compact KV tail batch transaction is already pending"
  | .copyPending => "a KV tail sequence-copy transaction is already pending"
  | .arenaExhausted q stride =>
    "KV tail sequence arena exhausted (sequence=" ++ toString q ++
      ", stride=" ++ toString stride ++ ")"
  | .currentSourceOverflow => "compact KV tail current source index overflows int32_t"
  | .invalidRestoreDestination => "invalid KV tail state restore destination"
  | .conflictingRestoreDestination => "conflicting KV tail state restore destination"
  | .invalidSequenceCursor => "invalid KV tail sequence cursor"
  | .invalidRestoredCursor => "invalid KV tail restored write cursor"
  | .invalidProvenance => "invalid KV tail degradation provenance"
  | .duplicateProvenance => "duplicate KV tail degradation provenance"
  | .invalidSequenceProvenance => "invalid per-sequence KV tail degradation provenance"
  | .incompatibleClone => "cannot clone incompatible KV tail logical state"
  | .cloneDuringTransaction => "cannot clone KV tail logical state during a transaction"

/-! ## Degradation flags -/

def degradedBodyOnlyState : Nat := 1
def degradedHistoricalOp : Nat := 2
def degradedStateRestore : Nat := 4
def degradedPayloadInvalid : Nat := 8

/-- The mask `restore_provenance` and the manifest reader accept. -/
def knownDegradation : Nat :=
  degradedBodyOnlyState ||| degradedHistoricalOp ||| degradedStateRestore

/-- `(flags & ~known_flags) == 0`. -/
def flagsKnown (flags : Nat) : Bool := flags ||| knownDegradation = knownDegradation

/-! ## State -/

/-- The constructor arguments: the arena of a sequence holds its history, and every slot number fits
a 32-bit integer. -/
structure TailConfig where
  nTokens : Nat
  rollbackTokens : Nat
  nSeqMax : Nat
  arenaStride : Nat
  sinkSlots : Nat
  compact : Bool
  overlay : compact = false → rollbackTokens = 0
  fits : nTokens + rollbackTokens ≤ arenaStride
  slotsFit : arenaStride * nSeqMax + sinkSlots ≤ int32Max

namespace TailConfig

/-- `history_limit`: the retained tokens plus the rollback reserve. -/
def historyLimit (cfg : TailConfig) : Nat := cfg.nTokens + cfg.rollbackTokens

/-- `compact_storage ? history_limit : n_tokens`. -/
def retained (cfg : TailConfig) : Nat :=
  if cfg.compact then cfg.historyLimit else cfg.nTokens

def nSlots (cfg : TailConfig) : Nat := cfg.arenaStride * cfg.nSeqMax + cfg.sinkSlots

theorem overlay_zero {compact : Bool} : compact = false → (0 : Nat) = 0 := fun _ => rfl

theorem slotsFit_two : 2 * 1 + 0 ≤ int32Max := by decide

end TailConfig

abbrev TailIndex := Finmap (fun _ : Nat × Nat => Nat)

/-- Everything the store keeps for one sequence. -/
structure SeqTail where
  entries : List ExactEntry := []
  index : TailIndex := ∅
  /-- used arena slots, relative to the sequence's base -/
  used : Nat → Bool := fun _ => false
  cursor : Nat := 0
  degradation : Nat := 0
  recovery : Nat := 0

structure SlotCopy where
  srcSlot : Nat
  dstSlot : Nat
  deriving DecidableEq, Repr

/-- A prepared sequence copy that waits for its payload. -/
structure PendingSeqCp where
  src : Nat
  dst : Nat
  destination : List ExactEntry
  copies : List SlotCopy
  acquired : List Nat
  degradation : Nat
  recovery : Nat

/-- The state a compact batch can be rolled back to. -/
structure BatchTransaction where
  seqs : Nat → SeqTail
  current : Nat → List ExactEntry := fun _ => []
  affected : Nat → Bool := fun _ => false

structure TailStore where
  cfg : TailConfig
  seqs : Nat → SeqTail := fun _ => {}
  pending : Option PendingSeqCp := none
  batch : Option BatchTransaction := none
  inBatch : Bool := false
  /-- next unused list node -/
  nextNode : Nat := 0

abbrev TailM := EStateM TailError TailStore

/-! ## One sequence -/

namespace SeqTail

/-- Follow an index entry to the list node it names. -/
def find (t : SeqTail) (k : Nat × Nat) : Option ExactEntry :=
  match t.index.lookup k with
  | none => none
  | some n => t.entries.find? fun e => e.node = n

def release (t : SeqTail) (cfg : TailConfig) (q slot : Nat) : SeqTail :=
  { t with used := Function.update t.used (slot - q * cfg.arenaStride) false }

/-- Unlink one node from the list and the index. -/
def eraseEntry (t : SeqTail) (cfg : TailConfig) (q : Nat) (e : ExactEntry)
    (releaseSlot : Bool) : SeqTail :=
  let t := if releaseSlot then t.release cfg q e.slot else t
  { t with
    index := t.index.erase e.key
    entries := t.entries.filter fun x => x.node ≠ e.node }

/-- One turn of the loop of `trim`. -/
def popFront (cfg : TailConfig) (q : Nat) (t : SeqTail) : SeqTail :=
  match t.entries with
  | [] => t
  | e :: es =>
    { (t.release cfg q e.slot) with entries := es, index := t.index.erase e.key }

/-- Drop the oldest entries until at most `limit` are left. -/
def trim (t : SeqTail) (cfg : TailConfig) (q limit : Nat) : SeqTail :=
  (popFront cfg q)^[t.entries.length - limit] t

/-- The first free slot at or after the cursor, as an arena-relative number. -/
def freeSlot (t : SeqTail) (cfg : TailConfig) : Option Nat :=
  ((List.range cfg.arenaStride).map fun offset =>
    (t.cursor + offset) % cfg.arenaStride).find? fun l => !t.used l

/-- Take the first free slot; `none` when the arena is exhausted. -/
def acquire (t : SeqTail) (cfg : TailConfig) (q : Nat) : Option (SeqTail × Nat) :=
  match t.freeSlot cfg with
  | none => none
  | some l =>
    some ({ t with
      used := Function.update t.used l true
      cursor := (l + 1) % cfg.arenaStride }, q * cfg.arenaStride + l)

/-- Stable sort by `(position, insertion ordinal)`. -/
def sort (t : SeqTail) : SeqTail :=
  { t with entries := t.entries.insertionSort ExactEntry.le }

/-- Remove the entries that satisfy `P` and release their slots. -/
def dropWhere (t : SeqTail) (cfg : TailConfig) (q : Nat) (P : ExactEntry → Bool) : SeqTail :=
  { (t.entries.filter P).foldl (fun acc e => acc.release cfg q e.slot) t with
    entries := t.entries.filter fun e => !P e }

end SeqTail

/-- Enter the entries of a list into an index; the flag tells that no cell
occurred twice. -/
def buildIndex : List ExactEntry → TailIndex → TailIndex × Bool
  | [], index => (index, true)
  | e :: es, index =>
    if e.key ∈ index then (index, false) else buildIndex es (index.insert e.key e.node)

/-- Insert before the first entry that is strictly greater. -/
def insertBefore (e : ExactEntry) (l : List ExactEntry) : List ExactEntry :=
  l.takeWhile (fun x => !e.lt x) ++ e :: l.dropWhile (fun x => !e.lt x)

/-- The insertion of `commit`, with its fast path for the end of the list. -/
def insertCommitted (e : ExactEntry) (l : List ExactEntry) : List ExactEntry :=
  match l.getLast? with
  | none => l ++ [e]
  | some last => if last.le e then l ++ [e] else insertBefore e l

namespace TailStore

/-! ## Helpers -/

def validSeq (s : TailStore) (seqId : Int) : Bool :=
  0 ≤ seqId ∧ seqId < s.cfg.nSeqMax

/-- Change the state of one sequence. -/
def modSeq (s : TailStore) (q : Nat) (f : SeqTail → SeqTail) : TailStore :=
  { s with seqs := Function.update s.seqs q (f (s.seqs q)) }

def rebuildIndex (q : Nat) : TailM Unit := fun s =>
  let r := buildIndex (s.seqs q).entries ∅
  let s := s.modSeq q fun t => { t with index := r.1 }
  if r.2 then .ok () s else .error .duplicateCell s

/-- `[p0, p1)`, unbounded above when `p1` is negative. -/
def inRange (p0 p1 position : Int) : Bool :=
  p0 ≤ position ∧ (p1 < 0 ∨ position < p1)

/-! ## Batches -/

def clear : TailM Unit := fun s => .ok () { cfg := s.cfg, nextNode := s.nextNode }

def markDegraded (seqId : Int) (flags : Nat) : TailM Unit := fun s =>
  let mark (t : SeqTail) : SeqTail :=
    { t with degradation := t.degradation ||| flags, recovery := 0 }
  let markPending (p : PendingSeqCp) : PendingSeqCp :=
    { p with degradation := p.degradation ||| flags, recovery := 0 }
  if seqId < 0 then
    .ok () { s with
      seqs := fun q => if q < s.cfg.nSeqMax then mark (s.seqs q) else s.seqs q
      pending := s.pending.map markPending }
  else if s.validSeq seqId then
    match s.pending with
    | some p =>
      if p.dst = seqId.toNat then .ok () { s with pending := some (markPending p) }
      else .ok () (s.modSeq seqId.toNat mark)
    | none => .ok () (s.modSeq seqId.toNat mark)
  else .ok () s

/-- The per-sequence part of `invalidate_slots`. -/
def invalidateSeq (slots : List Nat) (flags q : Nat) : TailM Unit := do
  let s ← get
  let P (e : ExactEntry) : Bool := e.slot ∈ slots
  if (s.seqs q).entries.any P then
    set (s.modSeq q fun t => t.dropWhere s.cfg q P)
    rebuildIndex q
    modify fun s => s.modSeq q fun t =>
      { t with degradation := t.degradation ||| flags, recovery := 0 }

def invalidateSlots (slots : List Nat) (flags : Nat) : TailM Unit := do
  let s ← get
  (List.range s.cfg.nSeqMax).forM (invalidateSeq slots flags)

def beginBatch : TailM Unit := fun s =>
  if s.cfg.compact ∧ s.batch.isSome then .error .batchPending s
  else .ok () { s with
    batch := if s.cfg.compact then some { seqs := s.seqs } else s.batch
    seqs := fun q =>
      if q < s.cfg.nSeqMax then (s.seqs q).trim s.cfg q s.cfg.retained else s.seqs q
    inBatch := true }

/-- Forget every entry of a sequence whose payload a failed graph may have
overwritten. -/
def dropAffected (cfg : TailConfig) (q : Nat) (t : SeqTail) : SeqTail :=
  { t.dropWhere cfg q (fun _ => true) with
    index := ∅
    degradation := t.degradation ||| degradedPayloadInvalid
    recovery := 0 }

/-- The per-sequence part of rolling a compact batch back. -/
def rollbackSeq (tx : BatchTransaction) (payloadMayBeModified : Bool) (q : Nat) :
    TailM Unit := do
  rebuildIndex q
  if payloadMayBeModified && tx.affected q then
    modify fun s => s.modSeq q (dropAffected s.cfg q)

def finishBatch (success payloadMayBeModified : Bool) : TailM Unit := do
  let s ← get
  if !s.cfg.compact then
    set { s with inBatch := false }
  else
    match s.batch with
    | none => pure ()
    | some tx =>
      if !success then
        set { s with seqs := tx.seqs }
        (List.range s.cfg.nSeqMax).forM (rollbackSeq tx payloadMayBeModified)
      modify fun s => { s with batch := none, inBatch := false }

/-! ## Commit and recycle -/

/-- Remember a row of the current micro-batch as a source for attention. -/
def recordCurrent (q : Nat) (identity : TailIdentity) (position : Int) (ordinal : Nat)
    (currentRow : Option Nat) (result : Int) : TailM Int := fun s =>
  match s.batch, currentRow with
  | some tx, some row =>
    if result < 0 then .ok result s
    else if s.cfg.nSlots + row > int32Max then .error .currentSourceOverflow s
    else .ok result { s with batch := some { tx with
      current := Function.update tx.current q
        (tx.current q ++ [⟨0, identity, position, ordinal, s.cfg.nSlots + row⟩])
      affected := Function.update tx.affected q true } }
  | _, _ => .ok result s

theorem recordCurrent_idle {q : Nat} {identity : TailIdentity} {position : Int} {ordinal : Nat}
    {currentRow : Option Nat} {result : Int} {s : TailStore} (h : s.batch = none) :
    recordCurrent q identity position ordinal currentRow result s = .ok result s := by
  unfold recordCurrent
  rw [h]

/-- The slot `commit` reports: that of the entry if it is still retained. -/
def retainedSlot (t : SeqTail) (identity : TailIdentity) : Int :=
  match t.find identity.cellKey with
  | some e => if e.identity = identity then e.slot else tailBodySlot
  | none => tailBodySlot

/-- A commit of an identity the sequence already holds moves the entry. -/
def moveEntry (cfg : TailConfig) (q : Nat) (dup : ExactEntry) (position : Int) (ordinal : Nat)
    (t : SeqTail) : SeqTail :=
  SeqTail.trim (SeqTail.sort { t with
    entries := t.entries.map fun e : ExactEntry =>
      if e.node = dup.node then { e with position, insertionOrdinal := ordinal } else e })
    cfg q cfg.retained

/-- The entry a commit has to replace: same cell, another generation. -/
def eraseStale (cfg : TailConfig) (q : Nat) (identity : TailIdentity) (t : SeqTail) : SeqTail :=
  match t.find identity.cellKey with
  | some dup => t.eraseEntry cfg q dup true
  | none => t

/-- The slot a new entry goes to: the victim's when the sequence is full, else
a free one. -/
def takeSlot (cfg : TailConfig) (q : Nat) (inBatch : Bool) (t : SeqTail) : Option (SeqTail × Nat) :=
  match t.entries with
  | victim :: _ =>
    if (cfg.compact || !inBatch) && cfg.retained ≤ t.entries.length then
      some (t.eraseEntry cfg q victim false, victim.slot)
    else t.acquire cfg q
  | [] => t.acquire cfg q

/-- Count a commit toward the recovery of a degraded sequence. -/
def countRecovery (cfg : TailConfig) (t : SeqTail) : SeqTail :=
  if t.degradation ≠ 0 then
    if cfg.nTokens ≤ t.recovery + 1 then { t with degradation := 0, recovery := 0 }
    else { t with recovery := t.recovery + 1 }
  else t

/-- Link a new entry, count it toward recovery and trim. -/
def linkEntry (cfg : TailConfig) (q : Nat) (inBatch : Bool) (e : ExactEntry) (t : SeqTail) :
    SeqTail :=
  let t := countRecovery cfg { t with
    entries := insertCommitted e t.entries
    index := t.index.insert e.key e.node }
  if inBatch then t else t.trim cfg q cfg.retained

/-- A commit of an identity the sequence does not hold; `none` when the arena
of the sequence is exhausted. -/
def commitNew (cfg : TailConfig) (q : Nat) (inBatch : Bool) (node : Nat)
    (identity : TailIdentity) (position : Int) (ordinal : Nat) (t : SeqTail) : Option SeqTail :=
  match takeSlot cfg q inBatch (eraseStale cfg q identity t) with
  | none => none
  | some (t, slot) => some (linkEntry cfg q inBatch ⟨node, identity, position, ordinal, slot⟩ t)

/-- The per-sequence part of `commit`. -/
def commitSeq (cfg : TailConfig) (q : Nat) (inBatch : Bool) (node : Nat)
    (identity : TailIdentity) (position : Int) (ordinal : Nat) (t : SeqTail) : Option SeqTail :=
  match t.find identity.cellKey with
  | some dup =>
    if dup.identity = identity then some (moveEntry cfg q dup position ordinal t)
    else commitNew cfg q inBatch node identity position ordinal t
  | none => commitNew cfg q inBatch node identity position ordinal t

def commit (seqId : Int) (identity : TailIdentity) (position : Int) (ordinal : Nat)
    (currentRow : Option Nat) : TailM Int := fun s =>
  if !s.validSeq seqId ∨ s.cfg.nTokens = 0 then .ok tailBodySlot s
  else
    let q := seqId.toNat
    match commitSeq s.cfg q s.inBatch s.nextNode identity position ordinal (s.seqs q) with
    | none =>
      .error (.arenaExhausted q s.cfg.arenaStride)
        (s.modSeq q (eraseStale s.cfg q identity))
    | some t =>
      recordCurrent q identity position ordinal currentRow (retainedSlot t identity)
        { s.modSeq q (fun _ => t) with nextNode := s.nextNode + 1 }

/-- The per-sequence part of `recycle`. -/
def recycleSeq (cfg : TailConfig) (stream cell nextGeneration q : Nat) (t : SeqTail) : SeqTail :=
  match t.find (stream, cell) with
  | some e =>
    if e.identity.generation ≠ nextGeneration then t.eraseEntry cfg q e true else t
  | none => t

/-- The sequence holds the cell under an older generation. -/
def holdsStale (t : SeqTail) (stream cell nextGeneration : Nat) : Bool :=
  match t.find (stream, cell) with
  | some e => e.identity.generation ≠ nextGeneration
  | none => false

def recycle (stream cell nextGeneration : Nat) : TailM Unit := fun s =>
  .ok () { s with
    seqs := fun q =>
      if q < s.cfg.nSeqMax then recycleSeq s.cfg stream cell nextGeneration q (s.seqs q)
      else s.seqs q
    batch := s.batch.map fun tx => { tx with
      affected := fun q => tx.affected q ||
        (decide (q < s.cfg.nSeqMax) && holdsStale (s.seqs q) stream cell nextGeneration) } }

/-! ## Sequence copies -/

/-- An entry that may be retained in the destination of a copy. -/
structure CopyCandidate where
  entry : ExactEntry
  copied : Bool

/-- Entries kept by the destination, followed by the entries of the source
under the destination's stream. -/
def copyCandidates (s : TailStore) (src dst srcStream dstStream : Nat) (p0 p1 : Int) :
    List CopyCandidate :=
  ((s.seqs dst).entries.filter fun e => !inRange p0 p1 e.position).map (⟨·, false⟩) ++
  ((s.seqs src).entries.filter fun e =>
      e.identity.stream = srcStream ∧ inRange p0 p1 e.position).map fun e =>
    ⟨{ e with identity := { e.identity with stream := dstStream } }, true⟩

/-- The newest candidates, as many as a sequence retains. -/
def retainedCandidates (cfg : TailConfig) (l : List CopyCandidate) : List CopyCandidate :=
  let l := l.insertionSort fun a b => a.entry.le b.entry
  l.drop (l.length - cfg.retained)

/-- A destination slot for every retained candidate: copied entries take the slots no longer needed,
last first, and then free ones. Returns the acquired slots alone when the arena is exhausted. -/
def assignSlots (cfg : TailConfig) (dst : Nat) :
    List CopyCandidate → List Nat → SeqTail →
      SeqTail × Option (List ExactEntry × List SlotCopy) × List Nat
  | [], _, t => (t, some ([], []), [])
  | c :: cs, reusable, t =>
    if c.copied then
      match reusable.getLast? with
      | some slot =>
        match assignSlots cfg dst cs reusable.dropLast t with
        | (t, some (es, copies), acquired) =>
          (t, some ({ c.entry with slot } :: es, ⟨c.entry.slot, slot⟩ :: copies), acquired)
        | (t, none, acquired) => (t, none, acquired)
      | none =>
        match t.acquire cfg dst with
        | none => (t, none, [])
        | some (t, slot) =>
          match assignSlots cfg dst cs reusable t with
          | (t, some (es, copies), acquired) =>
            (t, some ({ c.entry with slot } :: es, ⟨c.entry.slot, slot⟩ :: copies),
              slot :: acquired)
          | (t, none, acquired) => (t, none, slot :: acquired)
    else
      match assignSlots cfg dst cs reusable t with
      | (t, some (es, copies), acquired) => (t, some (c.entry :: es, copies), acquired)
      | (t, none, acquired) => (t, none, acquired)

/-- Slots of the destination that no surviving entry needs. -/
def reusableSlots (t : SeqTail) (retained : List CopyCandidate) : List Nat :=
  let survivors := (retained.filter fun c => !c.copied).map fun c => c.entry.slot
  (t.entries.map fun e => e.slot).filter fun slot => slot ∉ survivors

def releaseAll (cfg : TailConfig) (q : Nat) (slots : List Nat) (t : SeqTail) : SeqTail :=
  slots.foldl (fun acc slot => acc.release cfg q slot) t

def prepareSeqCp (src dst : Int) (srcStream dstStream : Nat) (p0 p1 : Int) :
    TailM (List SlotCopy) := fun s =>
  if !s.validSeq src ∨ !s.validSeq dst ∨ src = dst then .ok [] s
  else if s.pending.isSome then .error .copyPending s
  else
    let src := src.toNat
    let dst := dst.toNat
    let retained := retainedCandidates s.cfg (s.copyCandidates src dst srcStream dstStream p0 p1)
    match assignSlots s.cfg dst retained (reusableSlots (s.seqs dst) retained) (s.seqs dst) with
    | (t, none, acquired) =>
      .error (.arenaExhausted dst s.cfg.arenaStride)
        (s.modSeq dst fun _ => releaseAll s.cfg dst acquired t)
    | (t, some (destination, copies), acquired) =>
      let degradation := (s.seqs dst).degradation ||| (s.seqs src).degradation
      .ok copies { s.modSeq dst (fun _ => t) with
        pending := some {
          src, dst, destination, copies, acquired, degradation
          recovery := if degradation = 0 then min (s.seqs dst).recovery (s.seqs src).recovery
            else 0 } }

/-- Give the copied destination fresh list nodes. -/
def numberNodes : Nat → List ExactEntry → List ExactEntry
  | _, [] => []
  | next, e :: es => { e with node := next } :: numberNodes (next + 1) es

def commitSeqCp : TailM Unit := do
  let s ← get
  match s.pending with
  | none => pure ()
  | some p =>
    let kept := p.destination.map fun e => e.slot
    let stale := ((s.seqs p.dst).entries.map fun e => e.slot).filter fun slot => slot ∉ kept
    set { (s.modSeq p.dst fun t =>
        { releaseAll s.cfg p.dst stale t with
          entries := numberNodes s.nextNode p.destination }) with
      pending := none
      nextNode := s.nextNode + p.destination.length }
    rebuildIndex p.dst
    modify fun s => s.modSeq p.dst fun t =>
      { t with degradation := p.degradation, recovery := p.recovery }

def cancelSeqCp : TailM Unit := fun s =>
  match s.pending with
  | none => .ok () s
  | some p =>
    .ok () { s.modSeq p.dst (releaseAll s.cfg p.dst p.acquired) with pending := none }

def seqCpRemap (src dst : Int) (srcStream dstStream : Nat) (p0 p1 : Int) :
    TailM (List SlotCopy) := do
  let result ← prepareSeqCp src dst srcStream dstStream p0 p1
  commitSeqCp
  return result

/-- The stream of the first entry of a sequence. -/
def frontStream (t : SeqTail) : Nat :=
  match t.entries with
  | [] => 0
  | e :: _ => e.identity.stream

def seqCp (src dst : Int) (p0 p1 : Int) : TailM Unit := do
  let s ← get
  if !(!s.validSeq src ∨ !s.validSeq dst ∨ src = dst) then
    let stream := frontStream (s.seqs src.toNat)
    let _ ← seqCpRemap src dst stream stream p0 p1

/-! ## Removal and position changes -/

def seqRm (seqId : Int) (p0 p1 : Int) : TailM Unit := do
  let s ← get
  if s.validSeq seqId then
    let q := seqId.toNat
    set (s.modSeq q fun t => t.dropWhere s.cfg q fun e => inRange p0 p1 e.position)
    rebuildIndex q
    modify fun s =>
      if (s.seqs q).entries = [] ∧ p0 ≤ 0 ∧ p1 < 0 then
        s.modSeq q fun t => { t with degradation := 0, recovery := 0 }
      else s

def seqRmCell (seqId : Int) (stream cell : Nat) : TailM Unit := do
  let s ← get
  if s.validSeq seqId then
    let q := seqId.toNat
    set (s.modSeq q fun t => t.dropWhere s.cfg q fun e =>
      e.identity.stream = stream ∧ e.identity.cell = cell)
    rebuildIndex q

def seqKeep (seqId : Int) : TailM Unit := do
  let s ← get
  (List.range s.cfg.nSeqMax).forM fun current =>
    if (current : Int) ≠ seqId then seqRm current 0 (-1) else pure ()

/-- The identities a position change touches: those of the addressed sequence. -/
def touchedIdentities (t : SeqTail) (p0 p1 : Int) : List TailIdentity :=
  (t.entries.filter fun e => inRange p0 p1 e.position).map fun e => e.identity

/-- Change the positions of the touched entries, drop those that `dropNegative` no longer wants, and
restore order and size. -/
def repositionEntries (cfg : TailConfig) (q : Nat) (identities : List TailIdentity)
    (f : Int → Int) (dropNegative : Bool) (t : SeqTail) : SeqTail :=
  let moved : SeqTail := { t with
    entries := t.entries.map fun e : ExactEntry =>
      if e.identity ∈ identities then { e with position := f e.position } else e }
  let kept := moved.dropWhere cfg q fun e =>
    dropNegative && decide (e.identity ∈ identities) && decide (e.position < 0)
  kept.sort.trim cfg q cfg.retained

/-- The common tail of `seq_add` and `seq_div` for one sequence. -/
def repositionSeq (identities : List TailIdentity) (f : Int → Int) (dropNegative degrade : Bool)
    (q : Nat) : TailM Unit := do
  let s ← get
  if (s.seqs q).entries.any fun e => e.identity ∈ identities then
    set (s.modSeq q (repositionEntries s.cfg q identities f dropNegative))
    rebuildIndex q
    if degrade then
      modify fun s => s.modSeq q fun t =>
        { t with degradation := t.degradation ||| degradedHistoricalOp, recovery := 0 }

def seqAdd (seqId : Int) (p0 p1 shift : Int) : TailM Unit := do
  let s ← get
  if s.validSeq seqId then
    let identities := touchedIdentities (s.seqs seqId.toNat) p0 p1
    (List.range s.cfg.nSeqMax).forM
      (repositionSeq identities (· + shift) true (shift ≠ 0 ∧ ¬ (p0 ≤ 0 ∧ p1 < 0)))

/-- Unlike `seqAdd` this keeps every touched entry. -/
def seqDiv (seqId : Int) (p0 p1 divisor : Int) : TailM Unit := do
  let s ← get
  if s.validSeq seqId ∧ divisor ≠ 0 then
    let identities := touchedIdentities (s.seqs seqId.toNat) p0 p1
    (List.range s.cfg.nSeqMax).forM
      (repositionSeq identities (·.tdiv divisor) false (divisor ≠ 1 ∧ ¬ (p0 ≤ 0 ∧ p1 < 0)))

/-! ## Saved state -/

inductive TailCoverageState
  | none
  | partialCoverage
  | complete
  deriving DecidableEq, Repr

structure TailCoverage where
  state : TailCoverageState
  requested : Nat
  exact : Nat
  degradationFlags : Nat
  deriving DecidableEq, Repr

structure SnapshotEntry where
  seqId : Nat
  identity : TailIdentity
  position : Int
  insertionOrdinal : Nat
  slot : Nat
  deriving DecidableEq, Repr

structure TailProvenance where
  seqId : Int
  degradationFlags : Nat
  recoveryCommits : Nat
  deriving DecidableEq, Repr

/-- The pending copy into a sequence. -/
def pendingInto (s : TailStore) (seqId : Int) : Option PendingSeqCp :=
  s.pending.filter fun p => (p.dst : Int) = seqId

/-- The entries a saved state and the coverage report show for a sequence. -/
def shownEntries (s : TailStore) (q : Nat) : List ExactEntry :=
  match s.pendingInto q with
  | some p => p.destination
  | none => (s.seqs q).entries

def shownDegradation (s : TailStore) (q : Nat) : Nat :=
  match s.pendingInto q with
  | some p => p.degradation
  | none => (s.seqs q).degradation

def shownRecovery (s : TailStore) (q : Nat) : Nat :=
  match s.pendingInto q with
  | some p => p.recovery
  | none => (s.seqs q).recovery

def coverage (s : TailStore) (seqId : Int) (available : Nat) : TailCoverage :=
  let exact := if s.validSeq seqId then (s.shownEntries seqId.toNat).length else 0
  let requested := min s.cfg.nTokens available
  let flags := if s.validSeq seqId then s.shownDegradation seqId.toNat else 0
  { state :=
      if exact = 0 then .none
      else if requested ≤ exact ∧ flags = 0 then .complete else .partialCoverage
    requested
    exact := min exact requested
    degradationFlags := flags }

def snapshotSeq (s : TailStore) (q : Nat) : List SnapshotEntry :=
  let ordered := s.shownEntries q
  (ordered.drop (ordered.length - s.cfg.retained)).map fun e =>
    ⟨q, e.identity, e.position, e.insertionOrdinal, e.slot⟩

def snapshot (s : TailStore) (seqId : Int) : List SnapshotEntry :=
  ((List.range s.cfg.nSeqMax).filter fun q : Nat => !(0 ≤ seqId ∧ (q : Int) ≠ seqId)).flatMap
    s.snapshotSeq

def provenanceOf (s : TailStore) (q : Nat) : TailProvenance :=
  ⟨q, s.shownDegradation q, s.shownRecovery q⟩

def snapshotProvenance (s : TailStore) (seqId : Int) : List TailProvenance :=
  if 0 ≤ seqId then
    if s.validSeq seqId then [s.provenanceOf seqId.toNat] else []
  else (List.range s.cfg.nSeqMax).map s.provenanceOf

/-- The checks on one record of saved provenance. -/
def provenanceValid (s : TailStore) (p : TailProvenance) : Bool :=
  s.validSeq p.seqId && flagsKnown p.degradationFlags &&
    decide (p.recoveryCommits ≤ s.cfg.nTokens) &&
    !(decide (p.degradationFlags = 0) && decide (p.recoveryCommits ≠ 0))

/-- The first loop of `restore_provenance`. -/
def checkProvenance (s : TailStore) : List TailProvenance → List Int → Option TailError
  | [], _ => none
  | p :: ps, seen =>
    if !s.provenanceValid p then some .invalidProvenance
    else if p.seqId ∈ seen then some .duplicateProvenance
    else checkProvenance s ps (p.seqId :: seen)

def setProvenance (p : TailProvenance) (t : SeqTail) : SeqTail :=
  { t with degradation := p.degradationFlags, recovery := p.recoveryCommits }

def restoreProvenance (provenance : List TailProvenance) (destSeqId : Int) : TailM Unit :=
  fun s =>
    match s.checkProvenance provenance [] with
    | some err => .error err s
    | none =>
      if 0 ≤ destSeqId then
        match provenance with
        | [p] =>
          if s.validSeq destSeqId then .ok () (s.modSeq destSeqId.toNat (setProvenance p))
          else .error .invalidSequenceProvenance s
        | _ => .error .invalidSequenceProvenance s
      else
        let zeroed : TailStore := { s with
          seqs := fun q =>
            if q < s.cfg.nSeqMax then { s.seqs q with degradation := 0, recovery := 0 }
            else s.seqs q }
        .ok () (provenance.foldl
          (fun acc p => acc.modSeq p.seqId.toNat (setProvenance p)) zeroed)

/-- The store is inside a batch or a copy transaction. -/
def busy (s : TailStore) : Bool := s.inBatch || s.pending.isSome || s.batch.isSome

/-- The per-sequence part of `restore`. -/
def restoreSeq (cfg : TailConfig) (q node : Nat) (identity : TailIdentity) (position : Int)
    (ordinal localSlot : Nat) (t : SeqTail) : SeqTail :=
  let e : ExactEntry := ⟨node, identity, position, ordinal, q * cfg.arenaStride + localSlot⟩
  { t with
    entries := insertBefore e t.entries
    index := t.index.insert e.key e.node
    used := Function.update t.used localSlot true }

def restore (seqId : Int) (identity : TailIdentity) (position : Int) (ordinal localSlot : Nat) :
    TailM Int := fun s =>
  if !s.validSeq seqId ∨ s.cfg.arenaStride ≤ localSlot ∨ s.busy then
    .error .invalidRestoreDestination s
  else
    let q := seqId.toNat
    let t := s.seqs q
    if s.cfg.historyLimit ≤ t.entries.length ∨ t.used localSlot ∨ identity.cellKey ∈ t.index then
      .error .conflictingRestoreDestination s
    else
      .ok ((q * s.cfg.arenaStride + localSlot : Nat) : Int)
        { s.modSeq q (restoreSeq s.cfg q s.nextNode identity position ordinal localSlot) with
          nextNode := s.nextNode + 1 }

def stateWriteCursor (seqId : Int) : TailM Nat := fun s =>
  if !s.validSeq seqId then .error .invalidSequenceCursor s
  else .ok (s.seqs seqId.toNat).cursor s

def restoreWriteCursor (seqId : Int) (cursor : Nat) : TailM Unit := fun s =>
  if !s.validSeq seqId ∨ s.cfg.arenaStride ≤ cursor ∨ s.busy then
    .error .invalidRestoredCursor s
  else .ok () (s.modSeq seqId.toNat fun t => { t with cursor })

/-- `clone_logical_state`; the copies of the lists have nodes of their own. -/
def cloneLogicalState : TailM TailStore := fun s =>
  if s.busy then .error .cloneDuringTransaction s
  else
    match (List.range s.cfg.nSeqMax).forM rebuildIndex
        { s with pending := none, batch := none, inBatch := false } with
    | .ok () copy => .ok copy s
    | .error err _ => .error err s

end TailStore

/-- A suffix removal the tail can undo; the reserve is converted to a signed 32-bit integer. -/
def tailCanRemoveSuffix (posMax p0 p1 : Int) (rollbackTokens : Nat) : Bool :=
  if p0 ≤ 0 ∧ p1 < 0 then true
  else if p0 ≤ 0 ∨ 0 ≤ p1 then false
  else if posMax < p0 then true
  else
    let rollback := posMax - (p0 - 1)
    1 ≤ rollback ∧ rollback ≤ (rollbackTokens : Int).bmod (2 ^ 32)

end Beellama.Ports
