import Beellama.Ports.PromptCache
import Beellama.Ports.ServerQueue

/-!
# `process_single_task`

The slots of a server, the choice of a slot for a task with the exchange between its prompt and the
prompt cache, and what the server does with one task.  What the library and the sampler answer and
the rounding of the figures are arguments.  A quotient by zero is `none` and compares false.
-/

namespace Beellama.Ports

/-- `slot_state` -/
inductive SlotState
  | idle | waitOther | started | processingPrompt | donePrompt | generating
  deriving DecidableEq

/-- `error_type`, of the errors that are sent here. -/
inductive ErrorType
  | invalidRequest | notSupported | server
  deriving DecidableEq

/-- `server_task_result`, of a task that does not run on a slot. -/
inductive TaskResult
  | error (message : String) (type : ErrorType)
  | control (success : Bool) (message : String)
  | metrics (nIdleSlots nProcessingSlots nTasksDeferred : Nat)
  | slotSave (idSlot : Int) (filename : String) (nTokens nBytes : Nat)
  | slotRestore (idSlot : Int) (filename : String) (nTokens nBytes : Nat)
  | slotErase (idSlot : Int) (nErased : Nat)
  | getLora
  | applyLora
  deriving DecidableEq

/-- `server_slot`, with what the memories hold of its sequence. -/
structure Slot (χ μ : Type) where
  prompt : ServerPrompt χ
  memory : μ
  task : Option (SlotTask χ) := none
  state : SlotState := .idle
  tLastUsed : Int := -1
  nCtx : Nat
  deriving DecidableEq

/-- What the server is built on. -/
structure Backend (χ μ : Type) where
  mtmd : Mtmd χ
  hasMtmd : Bool
  round : Rat → Rat
  round_zero : round 0 = 0
  /-- `ggml_time_us` -/
  now : Int
  /-- a sequence after `seq_rm(id, -1, -1)` -/
  emptyMemory : μ
  hasDraft : Bool
  hasSpeculative : Bool
  /-- the saved states of a sequence -/
  getState : μ → Option PromptData
  /-- `server_prompt_restore_transaction` -/
  restoreState : μ → PromptData → Option μ
  /-- whether a cache entry can be allocated -/
  entryFits : Bool
  /-- `restorable_tokens` of `server_prompt_plan_reuse` -/
  restorable : Slot χ μ → ServerTokens χ → Nat
  /-- the entry that `load` finds better than the live prompt -/
  bestEntry : PromptCache χ → Slot χ μ → ServerTokens χ → Option (CacheNode χ)
  limitTokensCur : PromptCache χ → Nat
  tokenize : String → Except String (ServerTokens χ)
  /-- `lora_should_clear_cache`, for adapters that change -/
  clearsForLora : Slot χ μ → SlotTask χ → Bool
  /-- several aLoRAs are enabled -/
  multipleAloras : SlotTask χ → Bool
  validTokens : ServerTokens χ → Bool
  samplerError : SlotTask χ → Option String
  /-- `llama_state_seq_save_file` -/
  saveFile : String → List UInt8 → μ → Nat
  /-- `llama_state_seq_load_file`: the packed tokens, the sequence and the bytes -/
  loadFile : String → μ → Option (List Int32 × μ × Nat)
  forceReasoningEnd : Slot χ μ → Bool

/-- `server_context_impl` -/
structure ServerContext (χ μ : Type) where
  slots : List (Slot χ μ)
  promptCache : Option (PromptCache χ)
  queue : ServerQueue χ := {}
  /-- what has been sent, with the ids of the tasks -/
  results : List (Int × TaskResult) := []
  slotPromptSimilarity : Rat
  cacheIdleSlots : Bool := false
  kvUnified : Bool := false
  deriving DecidableEq

section Slots

variable {χ μ : Type} (b : Backend χ μ)

def ServerPrompt.clear (p : ServerPrompt χ) : ServerPrompt χ := ⟨p.tokens.clear, []⟩

namespace Slot

def isProcessing (slot : Slot χ μ) : Bool := slot.state ≠ .idle

def promptClear (slot : Slot χ μ) : Slot χ μ :=
  { slot with prompt := slot.prompt.clear, memory := b.emptyMemory }

/-- `prompt_save` -/
def promptSave (slot : Slot χ μ) (cache : PromptCache χ) : Except String (Bool × PromptCache χ) :=
  if slot.prompt.tokens.size = 0 then .ok (false, cache)
  else
    match b.getState slot.memory with
    | none => .ok (false, cache)
    | some data => do
        let (entry, cache) ← cache.insert b.mtmd slot.prompt data b.entryFits
        return (entry.isSome, cache)

/-- `prompt_load` -/
def promptLoad (slot : Slot χ μ) (cache : PromptCache χ) (tokens : ServerTokens χ) :
    (Bool × Slot χ μ) × PromptCache χ :=
  let best := b.bestEntry cache slot tokens
  let ((loaded, prompt), cache) := cache.load b.mtmd slot.prompt best
    ⟨b.hasDraft, b.hasSpeculative, some fun data => (b.restoreState slot.memory data).isSome⟩
  let memory :=
    match best with
    | some node =>
      if loaded then (b.restoreState slot.memory node.state.data).getD slot.memory
      else slot.memory
    | none => slot.memory
  ((loaded, { slot with prompt, memory }), cache)

/-- The exchange with the cache in `get_available_slot`. -/
def exchange (slot : Slot χ μ) (cache : PromptCache χ) (tokens : ServerTokens χ) :
    Except String (Slot χ μ × PromptCache χ) := do
  let (_, cache) ← slot.promptSave b cache
  let ((loaded, slot), cache) := slot.promptLoad b cache tokens
  let slot := if loaded then slot else slot.promptClear b
  return (slot, cache.update (b.limitTokensCur cache))

end Slot

namespace ServerContext

/-! ## The choice of a slot -/

/-- An `int` as a `size_t`. -/
def sizeOfInt (n : Int) : Nat := if 0 ≤ n then n.toNat else (n + 2 ^ 64).toNat

/-- `get_slot_by_id`, which wraps around. -/
def getSlotById (ctx : ServerContext χ μ) (idSlot : Int) : Option Nat :=
  let i := sizeOfInt idSlot % ctx.slots.length
  if i < ctx.slots.length then some i else none

/-- A quotient of two counts. -/
def quotient (x n : Nat) : Option Rat :=
  if n = 0 then none else some (b.round (b.round x / b.round n))

/-- `f_keep`, from the similarity that was found. -/
def keepRatio (simBest : Rat) (nTask size : Nat) : Option Rat :=
  if size = 0 then none else some (b.round (b.round (simBest * b.round nTask) / b.round size))

/-- What the loop over the similarities has found. -/
structure SlotChoice where
  ret : Option Nat
  simBest : Rat := 0
  restorableBest : Nat := 0

/-- One slot of the loop over the similarities. -/
def similarityStep (ctx : ServerContext χ μ) (task : ServerTask χ) (acc : SlotChoice)
    (e : Slot χ μ × Nat) : SlotChoice :=
  let (slot, i) := e
  if task.idSlot ≠ -1 ∧ (i : Int) ≠ task.idSlot then acc
  else if slot.isProcessing then acc
  else if slot.prompt.tokens.size = 0 then acc
  else
    let restorable := b.restorable slot task.tokens
    match quotient b restorable task.tokens.size with
    | none => acc
    | some sim =>
      if (acc.restorableBest < restorable ∨
          restorable = acc.restorableBest ∧ acc.simBest < sim) ∧
          ctx.slotPromptSimilarity < sim then ⟨some i, sim, restorable⟩
      else acc

/-- One slot of the loop over the times. -/
def lruStep (acc : Option (Nat × Int)) (e : Slot χ μ × Nat) : Option (Nat × Int) :=
  let (slot, i) := e
  if slot.isProcessing then acc
  else
    match acc with
    | none => some (i, slot.tLastUsed)
    | some (_, tLast) => if slot.tLastUsed ≤ tLast then some (i, slot.tLastUsed) else acc

/-- The tokens that the prompt of a slot has. -/
def promptSize (ctx : ServerContext χ μ) (i : Nat) : Nat :=
  (ctx.slots[i]?.map fun slot => slot.prompt.tokens.size).getD 0

/-- The slot for a task, and `update_cache`. -/
def chooseSlot (ctx : ServerContext χ μ) (task : ServerTask χ) : Option Nat × Bool :=
  let byId := if task.idSlot = -1 then none else ctx.getSlotById task.idSlot
  let cached := ctx.promptCache.any fun c => 0 < PromptCache.tokensOfStates c.states
  let updateById := cached && byId.any fun i => ctx.promptSize i = 0
  let choice : SlotChoice :=
    if ctx.slotPromptSimilarity ≠ 0 then
      ctx.slots.zipIdx.foldl (similarityStep b ctx task) { ret := byId }
    else { ret := byId }
  let updateBySim := ctx.slotPromptSimilarity ≠ 0 && choice.ret.any fun i =>
    (keepRatio b choice.simBest task.tokens.size (ctx.promptSize i)).any fun keep => keep < 1 / 2
  match choice.ret with
  | some i => (some i, updateById || updateBySim)
  | none =>
    match ctx.slots.zipIdx.foldl lruStep none with
    | some (i, _) => (some i, true)
    | none => (none, false)

/-- Whether the prompts of a task are cached. -/
def caches (task : ServerTask χ) : Prop := task.type = .completion ∧ task.cachePrompt = true

instance (task : ServerTask χ) : Decidable (caches task) := by unfold caches; infer_instance

def getAvailableSlot (ctx : ServerContext χ μ) (task : ServerTask χ) :
    Except String (Option Nat × ServerContext χ μ) :=
  match chooseSlot b ctx task with
  | (none, _) => .ok (none, ctx)
  | (some i, updateCache) =>
    match ctx.promptCache, ctx.slots[i]? with
    | some cache, some slot =>
      if updateCache ∧ caches task then do
        let (slot, cache) ← slot.exchange b cache task.tokens
        return (some i, { ctx with slots := ctx.slots.set i slot, promptCache := some cache })
      else .ok (some i, ctx)
    | _, _ => .ok (some i, ctx)

/-- The loop of `get_free_slots`. -/
def freeSlotsFrom (nSlotsNeeded exclude : Nat) (acc : List Nat) :
    List (Slot χ μ × Nat) → List Nat
  | [] => acc
  | (slot, i) :: rest =>
    let acc := if !slot.isProcessing ∧ i ≠ exclude then acc ++ [i] else acc
    if nSlotsNeeded ≤ acc.length then acc else freeSlotsFrom nSlotsNeeded exclude acc rest

def getFreeSlots (ctx : ServerContext χ μ) (nSlotsNeeded exclude : Nat) : List Nat :=
  freeSlotsFrom nSlotsNeeded exclude [] ctx.slots.zipIdx

/-! ## Launch and release -/

def sendResult (ctx : ServerContext χ μ) (idTask : Int) (result : TaskResult) : ServerContext χ μ :=
  { ctx with results := ctx.results ++ [(idTask, result)] }

def sendError (ctx : ServerContext χ μ) (idTask : Int) (message : String)
    (type : ErrorType) : ServerContext χ μ :=
  ctx.sendResult idTask (.error message type)

def setSlot (ctx : ServerContext χ μ) (i : Nat) (slot : Slot χ μ) : ServerContext χ μ :=
  { ctx with slots := ctx.slots.set i slot }

/-- Why a task cannot be launched. -/
def launchError (task : SlotTask χ) : Option String :=
  if b.multipleAloras task then some "Cannot run multiple aLoRAs in a single request"
  else if !b.validTokens task.tokens then some "Prompt contains invalid tokens"
  else if task.needSampling then
    (b.samplerError task).map fun e => "Failed to initialize samplers: " ++ e
  else none

def launchSlotWithTask (ctx : ServerContext χ μ) (i : Nat) (task : SlotTask χ) :
    Bool × ServerContext χ μ :=
  match ctx.slots[i]? with
  | none => (false, ctx)
  | some slot =>
    let slot :=
      if b.clearsForLora slot task then { slot with prompt := slot.prompt.clear } else slot
    match launchError b task with
    | some message => (false, (ctx.setSlot i slot).sendError task.id message .invalidRequest)
    | none =>
      (true, ctx.setSlot i { slot with
        task := some task
        state := if task.isChild then .waitOther else .started })

/-- `server_slot::release` -/
def release (ctx : ServerContext χ μ) (i : Nat) : ServerContext χ μ :=
  match ctx.slots[i]? with
  | none => ctx
  | some slot =>
    if slot.isProcessing then
      let isChild := slot.task.any SlotTask.isChild
      let slot := { slot with state := .idle, tLastUsed := b.now }
      let slot := if isChild then slot.promptClear b else slot
      { ctx.setSlot i { slot with task := none } with queue := ctx.queue.popDeferredTask i }
    else ctx

/-- The slot works for a parent task. -/
def worksFor (idParent : Int) (slot : Slot χ μ) : Bool :=
  slot.isProcessing && slot.task.any fun task => task.id = idParent ∨ task.idParent = idParent

/-- Release a slot that works for a parent task. -/
def releaseFor (idParent : Int) (ctx : ServerContext χ μ) (i : Nat) : ServerContext χ μ :=
  if ctx.slots[i]?.any (worksFor idParent) then ctx.release b i else ctx

/-- `release_slots` -/
def releaseSlots (ctx : ServerContext χ μ) (idParent : Int) : ServerContext χ μ :=
  (List.range ctx.slots.length).foldl (releaseFor b idParent) ctx

/-- Launch tasks on slots, and give up at the first failure. -/
def launchAll (idParent : Int) (ctx : ServerContext χ μ) :
    List (Nat × SlotTask χ) → Bool × ServerContext χ μ
  | [] => (true, ctx)
  | (i, task) :: rest =>
    match launchSlotWithTask b ctx i task with
    | (true, ctx) => launchAll idParent ctx rest
    | (false, ctx) => (false, ctx.releaseSlots b idParent)

/-- `launch_slots_with_parent_task`: the children first. -/
def launchSlotsWithParentTask (ctx : ServerContext χ μ) (parentSlot : Nat)
    (childSlots : List Nat) (parentTask : ServerTask χ) : Bool × ServerContext χ μ :=
  launchAll b parentTask.id ctx
    (childSlots.zip parentTask.childTasks ++ [(parentSlot, parentTask.toSlotTask)])

/-- One slot of the loop that saves the idle slots. -/
def saveIdleSlot (ctx : ServerContext χ μ) (i : Nat) : Except String (ServerContext χ μ) :=
  match ctx.promptCache, ctx.slots[i]? with
  | some cache, some slot =>
    if slot.isProcessing then .ok ctx
    else do
      let (saved, cache) ← slot.promptSave b cache
      let cache := if saved then cache.update (b.limitTokensCur cache) else cache
      let slot := if ctx.kvUnified ∧ saved then slot.promptClear b else slot
      return { ctx.setSlot i slot with promptCache := some cache }
  | _, _ => .ok ctx

def saveIdleSlots (ctx : ServerContext χ μ) : Except String (ServerContext χ μ) :=
  if ctx.cacheIdleSlots then (List.range ctx.slots.length).foldlM (saveIdleSlot b) ctx
  else .ok ctx

def defer (ctx : ServerContext χ μ) (task : ServerTask χ) : ServerContext χ μ :=
  { ctx with queue := ctx.queue.defer task }

/-! ## The tasks -/

/-- `tokenize_cli_input` -/
def tokenizeCliInput (task : ServerTask χ) : Except String (ServerTask χ) :=
  if task.cli then
    match b.tokenize task.cliPrompt with
    | .ok tokens => .ok { task with tokens, cliPrompt := "" }
    | .error e => .error ("Failed to format input: " ++ e)
  else .ok task

/-- A launch on a slot, alone or with the children. -/
def launch (ctx : ServerContext χ μ) (i : Nat) (childSlots : List Nat) (task : ServerTask χ) :
    Bool × ServerContext χ μ :=
  if task.isParent then launchSlotsWithParentTask b ctx i childSlots task
  else launchSlotWithTask b ctx i task.toSlotTask

/-- A task that runs on a slot, once its input is tokenized. -/
def processSlotTask (ctx : ServerContext χ μ) (task : ServerTask χ) :
    Except String (ServerContext χ μ) := do
  let (ret, ctx) ← getAvailableSlot b ctx task
  match ret with
  | none => return ctx.defer task
  | some i =>
    if ctx.slots[i]?.any Slot.isProcessing then return ctx.defer task
    else
      let nChildTasks := task.childTasks.length
      let childSlots := ctx.getFreeSlots nChildTasks i
      if task.isParent ∧ childSlots.length < nChildTasks then return ctx.defer task
      else
        let (launched, ctx) := launch b ctx i childSlots task
        if launched then saveIdleSlots b ctx else return ctx

/-- The slot whose task has an id. -/
def slotOfTask (ctx : ServerContext χ μ) (idTask : Int) : Option Nat :=
  ctx.slots.findIdx? fun slot => slot.task.any fun task => task.id = idTask

def processCancel (ctx : ServerContext χ μ) (idTarget : Int) : ServerContext χ μ :=
  match ctx.slotOfTask idTarget with
  | some i => ctx.release b i
  | none => ctx

/-- `get_slot_by_cmpl_id` -/
def getSlotByCmplId (ctx : ServerContext χ μ) (cmplId : String) : Option (Slot χ μ) :=
  if cmplId = "" then none
  else ctx.slots.find? fun slot =>
    slot.isProcessing && slot.task.any fun task => task.cmplId = cmplId

def processControl (ctx : ServerContext χ μ) (task : ServerTask χ) : ServerContext χ μ :=
  match ctx.getSlotByCmplId task.controlCmplId with
  | none => ctx.sendResult task.id (.control false "no active completion for this id")
  | some slot =>
    if task.controlAction = "reasoning_end" then
      if slot.task.any SlotTask.reasoningControl then
        let success := b.forceReasoningEnd slot
        ctx.sendResult task.id
          (.control success (if success then "" else "reasoning is not active"))
      else
        ctx.sendResult task.id
          (.control false "reasoning control not enabled for this completion")
    else ctx.sendResult task.id (.control false "unknown control action")

def processMetrics (ctx : ServerContext χ μ) (task : ServerTask χ) : ServerContext χ μ :=
  ctx.sendResult task.id (.metrics (ctx.slots.countP (!·.isProcessing))
    (ctx.slots.countP Slot.isProcessing) ctx.queue.queueTasksDeferred.length)

/-- An action on the prompt of a slot, which waits until the slot is free. -/
def processSlotAction (ctx : ServerContext χ μ) (task : ServerTask χ)
    (act : Nat → Slot χ μ → ServerContext χ μ) : ServerContext χ μ :=
  match ctx.getSlotById task.actionSlot with
  | none => ctx.sendError task.id "Invalid slot ID" .invalidRequest
  | some i =>
    match ctx.slots[i]? with
    | none => ctx.sendError task.id "Invalid slot ID" .invalidRequest
    | some slot => if slot.isProcessing then ctx.defer task else act i slot

def slotSave (ctx : ServerContext χ μ) (task : ServerTask χ) (slot : Slot χ μ) :
    ServerContext χ μ :=
  match slot.prompt.tokens.serialize b.mtmd with
  | .error e => ctx.sendError task.id e .notSupported
  | .ok packed =>
    let nwrite := b.saveFile task.filename packed slot.memory
    if nwrite = 0 then ctx.sendError task.id "Unable to save slot" .server
    else ctx.sendResult task.id
      (.slotSave task.actionSlot task.filename slot.prompt.tokens.size nwrite)

/-- The prompt and the sequence that a file holds. -/
def readSlotFile (slot : Slot χ μ) (filename : String) : Except String (ServerTokens χ × μ × Nat) :=
  match b.loadFile filename slot.memory with
  | none => .error "No available space in KV cache or invalid slot save file"
  | some (packed, memory, nread) => do
      let restored ← ServerTokens.deserialize b.mtmd packed b.hasMtmd
      if slot.nCtx < restored.size then .error "Restored prompt does not fit in the slot context"
      else if !b.validTokens restored then .error "Invalid tokens in slot save file"
      else return (restored, memory, nread)

def slotRestore (ctx : ServerContext χ μ) (task : ServerTask χ) (i : Nat) (slot : Slot χ μ) :
    ServerContext χ μ :=
  match readSlotFile b slot task.filename with
  | .error e =>
    (ctx.setSlot i (slot.promptClear b)).sendError task.id ("Unable to restore slot: " ++ e)
      .invalidRequest
  | .ok (restored, memory, nread) =>
    (ctx.setSlot i { slot with prompt := ⟨restored, []⟩, memory }).sendResult task.id
      (.slotRestore task.actionSlot task.filename restored.size nread)

def slotErase (ctx : ServerContext χ μ) (task : ServerTask χ) (i : Nat) (slot : Slot χ μ) :
    ServerContext χ μ :=
  (ctx.setSlot i (slot.promptClear b)).sendResult task.id
    (.slotErase task.actionSlot slot.prompt.tokens.size)

/-- `process_single_task` -/
def processSingleTask (ctx : ServerContext χ μ) (task : ServerTask χ) :
    Except String (ServerContext χ μ) :=
  match task.type with
  | .completion | .infill | .embedding | .rerank =>
    match tokenizeCliInput b task with
    | .error e => .ok (ctx.sendError task.id e .invalidRequest)
    | .ok task => processSlotTask b ctx task
  | .cancel => .ok (processCancel b ctx task.idTarget)
  | .control => .ok (processControl b ctx task)
  | .nextResponse => .ok ctx
  | .metrics => .ok (processMetrics ctx task)
  | .slotSave => .ok (processSlotAction ctx task fun _ slot => slotSave b ctx task slot)
  | .slotRestore => .ok (processSlotAction ctx task fun i slot => slotRestore b ctx task i slot)
  | .slotErase => .ok (processSlotAction ctx task fun i slot => slotErase b ctx task i slot)
  | .getLora => .ok (ctx.sendResult task.id .getLora)
  | .setLora => .ok (ctx.sendResult task.id .applyLora)

end ServerContext

end Slots

end Beellama.Ports
