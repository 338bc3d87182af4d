import Beellama.Ports.ServerTokens

/-!
# `server_prompt_cache`

A list of saved prompts, the oldest first, with a limit on the bytes that they hold; a checkpoint buffer
is shared between copies and counted once.  The number of a node stands for its address.  The
allocations that may fail and the figures in floating point are arguments.
-/

namespace Beellama.Ports

open Beellama.Verified

/-- `common_prompt_checkpoint_buffer`: the shared storage and its bytes. -/
structure CheckpointBuffer where
  storageId : Nat
  bytes : List UInt8
  deriving DecidableEq

/-- `common_prompt_checkpoint` -/
structure PromptCheckpoint where
  nTokens : Int
  posMax : Int
  dataTgt : CheckpointBuffer
  dataDft : CheckpointBuffer
  dataSpec : List UInt8
  deriving DecidableEq

/-- `common_prompt_checkpoint::size` -/
def PromptCheckpoint.size (c : PromptCheckpoint) : Nat :=
  c.dataTgt.bytes.length + c.dataDft.bytes.length + c.dataSpec.length

/-- `server_prompt` -/
structure ServerPrompt (χ : Type) where
  tokens : ServerTokens χ
  checkpoints : List PromptCheckpoint
  deriving DecidableEq

def ServerPrompt.clone {χ : Type} (mtmd : Mtmd χ) (p : ServerPrompt χ) : ServerPrompt χ :=
  { p with tokens := p.tokens.clone mtmd }

/-- `server_prompt_data` -/
structure PromptData where
  main : List UInt8
  drft : List UInt8
  spec : List UInt8
  deriving DecidableEq

def PromptData.size (d : PromptData) : Nat := d.main.length + d.drft.length + d.spec.length

/-- `server_prompt_cache_state` -/
structure CacheState (χ : Type) where
  prompt : ServerPrompt χ
  data : PromptData
  deriving DecidableEq

/-- `server_prompt_cache_state::accounted_size` -/
def CacheState.accountedSize {χ : Type} (s : CacheState χ) : Nat :=
  s.data.size + (s.prompt.checkpoints.map PromptCheckpoint.size).sum

/-- A node of the list. -/
structure CacheNode (χ : Type) where
  address : Nat
  state : CacheState χ
  deriving DecidableEq

structure PromptCache (χ : Type) where
  states : List (CacheNode χ)
  limitSize : Nat
  limitTokens : Nat
  admissionAttempts : Nat := 0
  admissionSuccesses : Nat := 0
  admissionFailures : Nat := 0
  restoreAttempts : Nat := 0
  restoreSuccesses : Nat := 0
  restoreFailures : Nat := 0
  /-- the address of the next node -/
  nextAddress : Nat := 0
  deriving DecidableEq

namespace PromptCache

variable {χ : Type} (mtmd : Mtmd χ)

/-! ## Accounting -/

/-- Count a buffer that is not empty and has not been seen. -/
def accountBuffer (acc : List Nat × Nat) (b : CheckpointBuffer) : List Nat × Nat :=
  if b.bytes ≠ [] ∧ b.storageId ∉ acc.1 then (b.storageId :: acc.1, acc.2 + b.bytes.length) else acc

def accountCheckpoint (acc : List Nat × Nat) (c : PromptCheckpoint) : List Nat × Nat :=
  let acc := accountBuffer (accountBuffer acc c.dataTgt) c.dataDft
  (acc.1, acc.2 + c.dataSpec.length)

def accountState (acc : List Nat × Nat) (s : CacheState χ) : List Nat × Nat :=
  s.prompt.checkpoints.foldl accountCheckpoint (acc.1, acc.2 + s.data.size)

/-- `accounted_size` of some entries -/
def sizeOfStates (states : List (CacheNode χ)) : Nat :=
  (states.foldl (fun acc node => accountState acc node.state) ([], 0)).2

def accountedSize (c : PromptCache χ) : Nat := sizeOfStates c.states

/-- `n_tokens` of some entries -/
def tokensOfStates (states : List (CacheNode χ)) : Nat :=
  (states.map fun node => node.state.prompt.tokens.size).sum

/-! ## Admission -/

/-- The loops that remove the oldest entry while a figure exceeds a limit. -/
def popWhile (figure : List (CacheNode χ) → Nat) (limit : Nat) :
    List (CacheNode χ) → List (CacheNode χ)
  | [] => []
  | node :: rest =>
    if limit < figure (node :: rest) then popWhile figure limit rest else node :: rest

/-- Some entry contains the prompt of the candidate. -/
def alreadyCached (candidate : ServerTokens χ) : List (CacheNode χ) → Except String Bool
  | [] => return false
  | node :: rest => do
      let len ← node.state.prompt.tokens.getCommonPrefix mtmd candidate
      if len = candidate.size then return true else alreadyCached candidate rest

/-- Remove the entries whose prompts are contained in the admitted one. -/
def removeObsolete (admitted : ServerTokens χ) :
    List (CacheNode χ) → Except String (List (CacheNode χ))
  | [] => return []
  | node :: rest => do
      let len ← node.state.prompt.tokens.getCommonPrefix mtmd admitted
      let kept ← removeObsolete admitted rest
      return if len = node.state.prompt.tokens.size then kept else node :: kept

/-- The bytes of the checkpoints of a candidate that no entry has. -/
def newCheckpointsSize (c : PromptCache χ) (candidate : CacheState χ) : Nat :=
  let retained := c.states.flatMap fun node =>
    node.state.prompt.checkpoints.flatMap fun ckpt =>
      [ckpt.dataTgt.storageId, ckpt.dataDft.storageId]
  (candidate.prompt.checkpoints.foldl accountCheckpoint (retained, 0)).2

/-- `admit`: the address of the entry, or none.  `fits` says whether the node can be
allocated. -/
def admitEntry (c : PromptCache χ) (candidate : CacheState χ) (fits : Bool) :
    Except String (Option Nat × PromptCache χ) := do
  let c := { c with admissionAttempts := c.admissionAttempts + 1 }
  let failed := { c with admissionFailures := c.admissionFailures + 1 }
  if ← alreadyCached mtmd candidate.prompt.tokens c.states then return (none, failed)
  let stateSizeNew := candidate.data.size + c.newCheckpointsSize candidate
  let standaloneSize := candidate.accountedSize
  if 0 < c.limitSize ∧ (c.limitSize < stateSizeNew ∨ c.limitSize < standaloneSize) then
    return (none, failed)
  if !fits then return (none, failed)
  -- the candidate is published before anything is removed
  let admitted : CacheNode χ := ⟨c.nextAddress, candidate⟩
  let kept ← removeObsolete mtmd candidate.prompt.tokens c.states
  let states := kept ++ [admitted]
  let states := if 0 < c.limitSize then popWhile sizeOfStates c.limitSize states else states
  return (some admitted.address, { c with
    states
    admissionSuccesses := c.admissionSuccesses + 1
    nextAddress := c.nextAddress + 1 })

def insert (c : PromptCache χ) (prompt : ServerPrompt χ) (data : PromptData) (fits : Bool) :
    Except String (Option Nat × PromptCache χ) :=
  c.admitEntry mtmd ⟨prompt.clone mtmd, data⟩ fits

/-- `alloc`; `dataFits` says whether the data can be allocated. -/
def alloc (c : PromptCache χ) (prompt : ServerPrompt χ) (stateSizeTgt stateSizeDft : Nat)
    (dataFits fits : Bool) : Except String (Option Nat × PromptCache χ) :=
  if dataFits then
    c.insert mtmd prompt ⟨List.replicate stateSizeTgt 0, List.replicate stateSizeDft 0, []⟩ fits
  else
    .ok (none, { c with
      admissionAttempts := c.admissionAttempts + 1
      admissionFailures := c.admissionFailures + 1 })

def erase (c : PromptCache χ) (entry : Nat) : Bool × PromptCache χ :=
  (c.states.any (·.address = entry),
    { c with states := c.states.eraseP (·.address = entry) })

/-- `update`; `limitTokensCur` is the limit of tokens that is estimated from the average size of
a token. -/
def update (c : PromptCache χ) (limitTokensCur : Nat) : PromptCache χ :=
  let states :=
    if 0 < c.limitSize then popWhile sizeOfStates c.limitSize c.states else c.states
  { c with
    states := if 0 < c.limitTokens then popWhile tokensOfStates limitTokensCur states else states }

/-! ## Loading -/

/-- What a restore is asked with, `server_prompt_cache_state_io`. -/
structure RestoreIo where
  hasDraft : Bool
  hasSpeculative : Bool
  /-- `restore_transaction`, when there is one -/
  restoreTransaction : Option (PromptData → Bool)

/-- `load`, into a slot with a prompt, once the most similar entry has been chosen. -/
def load (c : PromptCache χ) (prompt : ServerPrompt χ) (best : Option (CacheNode χ))
    (io : RestoreIo) : (Bool × ServerPrompt χ) × PromptCache χ :=
  match best with
  | none => ((true, prompt), c)
  | some node =>
    let c := { c with restoreAttempts := c.restoreAttempts + 1 }
    let failed := { c with restoreFailures := c.restoreFailures + 1 }
    let data := node.state.data
    if data.main = [] ∨ io.hasDraft ≠ (data.drft ≠ [] : Bool) ∨
        (!io.hasSpeculative && data.spec ≠ []) then ((false, prompt), failed)
    else
      match io.restoreTransaction with
      | none => ((false, prompt), failed)
      | some restore =>
        if restore data then
          ((true, node.state.prompt.clone mtmd),
            { c with restoreSuccesses := c.restoreSuccesses + 1 })
        else ((false, prompt), failed)

end PromptCache

end Beellama.Ports
