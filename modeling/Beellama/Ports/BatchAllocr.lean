import Beellama.Ports.KvCells

/-!
# Validating and splitting batches (`llama_batch_allocr`)

`init` of `src/src/llama-batch.cpp` validates a batch and fills in what the caller left out; the three
split methods hand it out as micro-batches.

Arrays of the batch are functions of the token index, read below `nTokens`, and the index from a
sequence set to its tokens is computed from the tokens.
-/

namespace Beellama.Ports

/-- `llama_batch`: a missing array is one the caller left null.  Every token
names at least one sequence. -/
structure LlamaBatch where
  nTokens : Nat
  token : Option (Nat → Int) := none
  pos : Option (Nat → Int) := none
  seqId : Option (Nat → List Int) := none
  logits : Option (Nat → Bool) := none
  owned : ∀ f, seqId = some f → ∀ i < nTokens, f i ≠ []

/-- What `init` reads of the memory module. -/
structure BatchMemory where
  seqPosMin : Nat → Int
  seqPosMax : Nat → Int

/-- Why a batch is rejected, with the values the source logs.  `noTokens` and
`keepTail` are assertions. -/
inductive BatchError
  | noTokens
  | tooManySequences (nSeqMax : Nat)
  | invalidToken (i : Nat) (token : Int)
  | invalidSeqId (i : Nat) (seqId : Int)
  | overlapsMemory (s : Nat) (p0 first : Int)
  | notConsecutive (s : Nat) (p0 first : Int)
  | notContinuous (s : Nat)
  | diverged (s0 s1 : Nat)
  | incompatibleSets (s : Nat)
  | decreasingPositions (s : Nat)
  | keepTail
  deriving DecidableEq, Repr

/-! ## A validated batch -/

/-- The batch after `init` with the missing fields filled in. -/
structure FullBatch where
  nTokens : Nat
  nPosPerEmbd : Nat
  nSeqMax : Nat
  token : Option (Nat → Int)
  pos : Nat → Int
  seqId : Nat → List Nat
  logits : Nat → Bool

namespace FullBatch

/-- `seq_set[i]`. -/
def seqSet (b : FullBatch) (i : Nat) : Finset Nat := (b.seqId i).toFinset

/-- `batch.seq_id[i][0]`. -/
def firstSeq (b : FullBatch) (i : Nat) : Nat := (b.seqId i).headD 0

def indices (b : FullBatch) : List Nat := List.range b.nTokens

/-- `seq_set_map[set]`: the tokens of a sequence set in batch order. -/
def seqSetMap (b : FullBatch) (S : Finset Nat) : List Nat :=
  b.indices.filter fun i => b.seqSet i = S

/-- Some token belongs to more than one sequence. -/
def hasCpl (b : FullBatch) : Bool := b.indices.any fun i => decide (1 < (b.seqId i).length)

/-- `seq_cpl[s1][s0]`: a token lists `s1` after `s0`. -/
def seqCpl (b : FullBatch) (s1 s0 : Nat) : Bool :=
  b.indices.any fun i => decide (s1 ∈ (b.seqId i).tail) && decide (b.firstSeq i = s0)

/-- `seq_pos[s]`: the positions of a sequence. -/
def seqPos (b : FullBatch) (s : Nat) : Finset Int :=
  ((b.indices.filter fun i => s ∈ b.seqId i).map b.pos).toFinset

def seqPosMin (b : FullBatch) (s : Nat) : Int := (b.seqPos s).min.untopD (-1)

def seqPosMax (b : FullBatch) (s : Nat) : Int := (b.seqPos s).max.unbotD (-1)

/-! ## Consistency checks -/

/-- The last position of a sequence in the memory module. -/
def memoryPosMax (memory : Option BatchMemory) (s : Nat) : Int :=
  match memory with
  | some m => m.seqPosMax s
  | none => -1

/-- With several positions per token a sequence may jump forward only. -/
def checkJump (b : FullBatch) (memory : Option BatchMemory) (s : Nat) : Option BatchError :=
  let p0 := memoryPosMax memory s
  if b.token.isSome then
    if 0 ≤ p0 ∧ b.seqPosMin s ≤ p0 then some (.overlapsMemory s p0 (b.seqPosMin s)) else none
  else if 0 ≤ p0 ∧ b.seqPosMin s < p0 then some (.overlapsMemory s p0 (b.seqPosMin s))
  else none

/-- With one position per token a sequence continues without gaps. -/
def checkContinuous (b : FullBatch) (memory : Option BatchMemory) (s : Nat) : Option BatchError :=
  let p0 := memoryPosMax memory s
  if 0 ≤ p0 ∧ b.seqPosMin s ≠ p0 + 1 then some (.notConsecutive s p0 (b.seqPosMin s))
  else if ((b.seqPos s).card : Int) < b.seqPosMax s - b.seqPosMin s + 1 then
    some (.notContinuous s)
  else none

def checkPositions (b : FullBatch) (memory : Option BatchMemory) : Option BatchError :=
  (List.range b.nSeqMax).findSome? fun s =>
    if b.seqPos s = ∅ then none
    else if 1 < b.nPosPerEmbd then b.checkJump memory s
    else b.checkContinuous memory s

/-- Coupled sequences have the same range in the memory module. -/
def checkCoupled (b : FullBatch) : Option BatchMemory → Option BatchError
  | none => none
  | some m =>
    (List.range b.nSeqMax).findSome? fun s0 =>
      (List.range b.nSeqMax).findSome? fun s1 =>
        if b.seqCpl s0 s1 ∧ (m.seqPosMin s0 ≠ m.seqPosMin s1 ∨ m.seqPosMax s0 ≠ m.seqPosMax s1)
        then some (.diverged s0 s1) else none

/-- `cur_seq_set` and `cur_seq_pos` of the last check. -/
structure SubsetCheck where
  curSet : Nat → Finset Nat := fun _ => Finset.range maxSeq
  curPos : Nat → Int := fun _ => -1

/-- The last check for one sequence of token `i`. -/
def checkSubset (b : FullBatch) (i : Nat) (c : SubsetCheck) (s : Nat) :
    Except BatchError SubsetCheck :=
  let S := c.curSet s ∩ b.seqSet i
  if S = ∅ then .error (.incompatibleSets s)
  else if b.pos i < c.curPos s then .error (.decreasingPositions s)
  else .ok ⟨Function.update c.curSet s S, Function.update c.curPos s (b.pos i)⟩

def checkSubsets (b : FullBatch) : Except BatchError SubsetCheck :=
  b.indices.foldlM (fun c i => (b.seqId i).foldlM (b.checkSubset i) c) {}

end FullBatch

/-! ## Filling in missing fields -/

namespace LlamaBatch

def checkTokens (inp : LlamaBatch) (nVocab : Nat) : Option BatchError :=
  match inp.token with
  | none => none
  | some token => (List.range inp.nTokens).findSome? fun i =>
    if token i < 0 ∨ (nVocab : Int) ≤ token i then some (.invalidToken i (token i)) else none

def checkSeqIds (inp : LlamaBatch) (nSeqMax : Nat) : Option BatchError :=
  match inp.seqId with
  | none => none
  | some seqId => (List.range inp.nTokens).findSome? fun i =>
    (seqId i).findSome? fun s =>
      if s < 0 ∨ (nSeqMax : Int) ≤ s then some (.invalidSeqId i s) else none

/-- The sequence ids, all zero when the caller gave none. -/
def fillSeqId (inp : LlamaBatch) (i : Nat) : List Nat :=
  match inp.seqId with
  | none => [0]
  | some seqId => (seqId i).map Int.toNat

/-- Positions counted on from those in the memory module. -/
def countPositions (seqId : Nat → List Nat) : List Nat → (Nat → Int) → List Int
  | [], _ => []
  | i :: is, p0 =>
    let p := p0 ((seqId i).headD 0)
    p :: countPositions seqId is fun s => if s ∈ seqId i then p + 1 else p0 s

def fillPos (inp : LlamaBatch) (memory : Option BatchMemory) : Nat → Int :=
  match inp.pos with
  | some pos => pos
  | none =>
    let counted := countPositions inp.fillSeqId (List.range inp.nTokens) fun s =>
      match memory with
      | none => 0
      | some m => m.seqPosMax s + 1
    fun i => counted.getD i 0

/-- Without flags only the last token is an output; `outputAll` overrides. -/
def fillLogits (inp : LlamaBatch) (outputAll : Bool) (i : Nat) : Bool :=
  match inp.logits with
  | none => outputAll || decide (i = inp.nTokens - 1)
  | some logits => outputAll || logits i

def fill (inp : LlamaBatch) (memory : Option BatchMemory) (nPosPerEmbd nSeqMax : Nat)
    (outputAll : Bool) : FullBatch where
  nTokens := inp.nTokens
  nPosPerEmbd := nPosPerEmbd
  nSeqMax := nSeqMax
  token := inp.token
  pos := inp.fillPos memory
  seqId := inp.fillSeqId
  logits := inp.fillLogits outputAll

end LlamaBatch

/-! ## The allocator -/

structure BatchAllocr where
  batch : FullBatch
  /-- batch indices of the outputs in the order they were emitted -/
  outIds : List Nat := []
  nUsed : Nat := 0
  /-- tokens handed out in an earlier micro-batch -/
  used : Finset Nat := ∅

/-- The fields of a `llama_ubatch` that the split decides; `idxs` are the batch
indices of its tokens. -/
structure SplitUbatch where
  idxs : List Nat
  equalSeqs : Bool
  nTokens : Nat
  nSeqTokens : Nat
  nSeqs : Nat
  token : Option (List Int)
  pos : List Int
  seqId : List (List Nat)
  output : List Bool
  seqIdUnq : List Nat
  deriving DecidableEq

/-- `{}`: the answer when nothing is left. -/
def SplitUbatch.none : SplitUbatch := ⟨[], false, 0, 0, 0, Option.none, [], [], [], []⟩

namespace BatchAllocr

def reject : Option BatchError → Except BatchError Unit
  | none => .ok ()
  | some err => .error err

def splitReset (a : BatchAllocr) : BatchAllocr := { batch := a.batch }

def init (inp : LlamaBatch) (nVocab : Nat) (memory : Option BatchMemory)
    (nPosPerEmbd nSeqMax : Nat) (outputAll : Bool) : Except BatchError BatchAllocr := do
  if inp.nTokens = 0 then throw .noTokens
  if maxSeq < nSeqMax then throw (.tooManySequences nSeqMax)
  reject (inp.checkTokens nVocab)
  reject (inp.checkSeqIds nSeqMax)
  let batch := inp.fill memory nPosPerEmbd nSeqMax outputAll
  reject (batch.checkPositions memory)
  reject (batch.checkCoupled memory)
  let _ ← batch.checkSubsets
  return splitReset { batch }

/-- Count tokens as used. -/
def mark (a : BatchAllocr) (idxs : List Nat) : BatchAllocr :=
  { a with used := a.used ∪ idxs.toFinset, nUsed := a.nUsed + idxs.length }

/-- Hand tokens back to the pool. -/
def unmark (a : BatchAllocr) (idxs : List Nat) : BatchAllocr :=
  { a with used := a.used \ idxs.toFinset, nUsed := a.nUsed - idxs.length }

/-- The positions of a micro-batch: text repeats its position in every section,
embeddings bring all sections. -/
def ubatchPos (b : FullBatch) (idxs : List Nat) : List Int :=
  (List.range b.nPosPerEmbd).flatMap fun j =>
    idxs.map fun i => b.pos ((if b.token.isSome then 0 else j * b.nTokens) + i)

def ubatchAdd (a : BatchAllocr) (idxs : List Nat) (nSeqs : Nat) (equalSeqs : Bool) :
    SplitUbatch × BatchAllocr :=
  let b := a.batch
  ({ idxs, equalSeqs, nSeqs
     nTokens := idxs.length
     nSeqTokens := idxs.length / nSeqs
     token := b.token.map fun token => idxs.map token
     pos := ubatchPos b idxs
     seqId := idxs.map b.seqId
     output := idxs.map b.logits
     seqIdUnq := (List.range b.nSeqMax).filter fun s => idxs.any fun i => s ∈ b.seqId i },
   { a with outIds := a.outIds ++ idxs.filter b.logits })

/-- The first token that was not handed out yet. -/
def firstUnused (a : BatchAllocr) : Option Nat := a.batch.indices.find? fun i => i ∉ a.used

/-! ## Simple and sequence-wise splits -/

/-- Consecutive tokens from the first unused one, at least one of them. -/
def splitSimple (a : BatchAllocr) (nUbatch : Nat) : SplitUbatch × BatchAllocr :=
  match a.firstUnused with
  | none => (.none, a)
  | some cur =>
    let idxs := (List.range' cur (a.batch.nTokens - cur)).take (max nUbatch 1)
    (a.mark idxs).ubatchAdd idxs idxs.length false

/-- Take an unused token whose set is contained in that of the last token taken. -/
def seqLoop (a : BatchAllocr) (nUbatch : Nat) : List Nat → Finset Nat → Nat → List Nat
  | [], _, _ => []
  | i :: is, curSet, count =>
    if nUbatch ≤ count then []
    else if i ∈ a.used ∨ ¬ a.batch.seqSet i ⊆ curSet then a.seqLoop nUbatch is curSet count
    else i :: a.seqLoop nUbatch is (a.batch.seqSet i) (count + 1)

def splitSeq (a : BatchAllocr) (nUbatch : Nat) : SplitUbatch × BatchAllocr :=
  match a.firstUnused with
  | none => (.none, a)
  | some cur =>
    let rest := List.range' (cur + 1) (a.batch.nTokens - (cur + 1))
    let idxs := cur :: a.seqLoop nUbatch rest (a.batch.seqSet cur) 1
    (a.mark idxs).ubatchAdd idxs 1 true

/-! ## Equal splits -/

/-- The sequence sets of the next micro-batch: pairwise disjoint, by their first unused token. -/
def scanSets (a : BatchAllocr) (nUbatch : Nat) (sequential : Bool) :
    List Nat → List (Finset Nat) → Int → List (Finset Nat)
  | [], sets, _ => sets
  | i :: is, sets, lastSeqId =>
    if i ∈ a.used then a.scanSets nUbatch sequential is sets lastSeqId
    else
      let apart := sets.all fun S => decide (S ∩ a.batch.seqSet i = ∅)
      let follows := sets.isEmpty || decide ((a.batch.firstSeq i : Int) = lastSeqId + 1)
      if apart && (!sequential || follows) then
        let sets := sets ++ [a.batch.seqSet i]
        if nUbatch < sets.length then sets
        else a.scanSets nUbatch sequential is sets (a.batch.firstSeq i)
      else a.scanSets nUbatch sequential is sets lastSeqId

def curSeqSets (a : BatchAllocr) (nUbatch : Nat) (sequential : Bool) : List (Finset Nat) :=
  a.scanSets nUbatch sequential a.batch.indices [] (-1)

/-- One sequence set of an equal split: the tokens taken and those after
`cur_idx`. -/
structure SetCursor where
  taken : List Nat := []
  rest : List Nat
  deriving DecidableEq

/-- Start at the first unused token of a set. -/
def startCursor (a : BatchAllocr) (S : Finset Nat) : SetCursor :=
  { rest := (a.batch.seqSetMap S).dropWhile fun i => i ∈ a.used }

def SetCursor.advance (c : SetCursor) : SetCursor :=
  match c.rest with
  | [] => c
  | i :: is => ⟨c.taken ++ [i], is⟩

/-- Advance all sets in lockstep while each of them has a token left and one
more round fits.  The counter is never what ends the loop. -/
def expand (nUbatch : Nat) : Nat → List SetCursor → List SetCursor
  | 0, cs => cs
  | fuel + 1, cs =>
    if cs.any fun c => c.rest.isEmpty then cs
    else
      let cs := cs.map SetCursor.advance
      let n := (cs.head?.map fun c => c.taken.length).getD 0
      if nUbatch < (n + 1) * cs.length then cs else expand nUbatch fuel cs

/-- The set finishes here or leaves enough tokens for a later micro-batch. -/
def SetCursor.keepsTail (nKeepTail : Nat) (c : SetCursor) : Bool :=
  decide (c.rest.length = 0) || decide (nKeepTail ≤ c.rest.length)

/-- The first set alone when no set keeps its tail: completed if it fits, else cut so that its tail
is long enough. -/
def resolveFirst (a : BatchAllocr) (nUbatch nKeepTail : Nat) (c : SetCursor) :
    BatchAllocr × SetCursor :=
  if c.taken.length + c.rest.length ≤ nUbatch then
    (a.mark c.rest, ⟨c.taken ++ c.rest, []⟩)
  else
    let keep := c.taken.length - (nKeepTail - c.rest.length)
    (a.unmark (c.taken.drop keep), ⟨c.taken.take keep, c.taken.drop keep ++ c.rest⟩)

/-- The part of `split_equal` for a positive `n_keep_tail`. -/
def keepTails (a : BatchAllocr) (nUbatch nKeepTail : Nat) (cs : List SetCursor) :
    BatchAllocr × List SetCursor :=
  let kept := cs.takeWhile (SetCursor.keepsTail nKeepTail)
  match kept, cs with
  | [], c :: rest =>
    let (a, c) := a.resolveFirst nUbatch nKeepTail c
    (a.unmark (rest.flatMap fun c => c.taken), [c])
  | _, _ =>
    (a.unmark ((cs.drop kept.length).flatMap fun c => c.taken), kept)

def splitEqual (a : BatchAllocr) (nUbatch : Nat) (sequential : Bool) (nKeepTail : Nat) :
    Except BatchError (SplitUbatch × BatchAllocr) :=
  if sequential && a.batch.hasCpl then .ok (.none, a)
  else
    let sets := a.curSeqSets nUbatch sequential
    if sets.isEmpty then .ok (.none, a)
    else
      let cs := expand nUbatch a.batch.nTokens (sets.map a.startCursor)
      let a := a.mark (cs.flatMap fun c => c.taken)
      if nKeepTail = 0 then
        .ok (a.ubatchAdd (cs.flatMap fun c => c.taken) cs.length true)
      else if nUbatch ≤ nKeepTail then .error .keepTail
      else
        let (a, kept) := a.keepTails nUbatch nKeepTail cs
        .ok (a.ubatchAdd (kept.flatMap fun c => c.taken) kept.length true)

/-! ## Splitting a whole batch -/

inductive SplitMode
  | simple
  | equal (sequential : Bool) (nKeepTail : Nat)
  | seq
  deriving DecidableEq, Repr

def split (a : BatchAllocr) (nUbatch : Nat) : SplitMode →
    Except BatchError (SplitUbatch × BatchAllocr)
  | .simple => .ok (a.splitSimple nUbatch)
  | .equal sequential nKeepTail => a.splitEqual nUbatch sequential nKeepTail
  | .seq => .ok (a.splitSeq nUbatch)

/-- Call one split method until it returns an empty micro-batch; `none` when it
throws or `fuel` calls were not enough. -/
def splitAll (mode : SplitMode) (nUbatch : Nat) :
    Nat → BatchAllocr → Option (List SplitUbatch × BatchAllocr)
  | 0, _ => none
  | fuel + 1, a =>
    match a.split nUbatch mode with
    | .error _ => none
    | .ok (u, a) =>
      if u.nTokens = 0 then some ([], a)
      else (splitAll mode nUbatch fuel a).map fun r => (u :: r.1, r.2)

end BatchAllocr

end Beellama.Ports
