import Beellama.Ports.PromptCacheRuns
import Beellama.Ports.ServerSlots

/-!
# What a task does to the busy slots

Everything that a task is launched on is free, and so is every slot whose prompt is saved or
cleared on the way.  The exception is a slot that the task names: it is chosen before its state is
looked at, and its prompt is exchanged with the cache before the task is deferred.
-/

namespace Beellama.Ports

open Beellama.Verified List Option

namespace ServerContext

variable {χ μ : Type} {b : Backend χ μ} {ctx ctx' ctx₀ : ServerContext χ μ}
  {task : ServerTask χ} {slot : Slot χ μ} {i : Nat}

/-! ## Frames -/

/-- The busy slots of a state are as they were. -/
def Spares (ctx₀ ctx : ServerContext χ μ) : Prop :=
  ∀ (i : Nat) (slot : Slot χ μ), ctx₀.slots[i]? = some slot → slot.isProcessing = true →
    ctx.slots[i]? = some slot

/-- No busy slot has this index. -/
def FreeAt (ctx : ServerContext χ μ) (i : Nat) : Prop :=
  ∀ slot : Slot χ μ, ctx.slots[i]? = some slot → slot.isProcessing = false

theorem Spares.refl (ctx : ServerContext χ μ) : Spares ctx ctx := fun _ _ hSlot _ => hSlot

theorem Spares.freeAt (h : Spares ctx₀ ctx) (hFree : ctx.FreeAt i) : ctx₀.FreeAt i := by
  intro slot hSlot
  by_contra hBusy
  have hNow := hFree slot (h i slot hSlot (by simpa using hBusy))
  exact hBusy hNow

theorem Spares.setSlot (h : Spares ctx₀ ctx) (hFree : ctx₀.FreeAt i) (slot : Slot χ μ) :
    Spares ctx₀ (ctx.setSlot i slot) := by
  intro j old hOld hBusy
  have hNe : i ≠ j := by
    rintro rfl
    rw [hFree old hOld] at hBusy
    exact absurd hBusy Bool.false_ne_true
  have hSame : (ctx.setSlot i slot).slots[j]? = ctx.slots[j]? := getElem?_set_ne hNe
  rw [hSame]
  exact h j old hOld hBusy

theorem Spares.of_slots (h : Spares ctx₀ ctx) (hSlots : ctx'.slots = ctx.slots) :
    Spares ctx₀ ctx' := by
  intro j old hOld hBusy
  rw [hSlots]
  exact h j old hOld hBusy

theorem freeAt_of_eq (hSlot : ctx.slots[i]? = some slot) (hIdle : slot.isProcessing = false) :
    ctx.FreeAt i := by
  intro other hOther
  rw [hSlot] at hOther
  rw [← some.inj hOther]
  exact hIdle

/-! ## The choice -/

/-- The slot that a task names. -/
def Names (ctx : ServerContext χ μ) (task : ServerTask χ) (i : Nat) : Prop :=
  task.idSlot ≠ -1 ∧ ctx.getSlotById task.idSlot = some i

theorem getSlotById_lt {idSlot : Int} (h : ctx.getSlotById idSlot = some i) :
    i < ctx.slots.length := by
  unfold getSlotById at h
  dsimp only at h
  split at h
  · rename_i hLt
    rw [← some.inj h]
    exact hLt
  · cases h

theorem getSlotById_of_lt (hLt : i < ctx.slots.length) : ctx.getSlotById i = some i := by
  have hIndex : sizeOfInt i % ctx.slots.length = i := by
    unfold sizeOfInt
    rw [if_pos (Int.natCast_nonneg i), Int.toNat_natCast, Nat.mod_eq_of_lt hLt]
  unfold getSlotById
  dsimp only
  rw [hIndex, if_pos hLt]

theorem slot_of_lt (hLt : i < ctx.slots.length) : ∃ slot, ctx.slots[i]? = some slot :=
  ⟨_, getElem?_eq_getElem hLt⟩

/-- The busy slot that a task names is not looked at by the loop over the similarities. -/
theorem similarityStep_named (hNames : ctx.Names task i) (hSlot : ctx.slots[i]? = some slot)
    (hBusy : slot.isProcessing = true) (acc : SlotChoice) (e : Slot χ μ × Nat)
    (hMem : e ∈ ctx.slots.zipIdx) : similarityStep b ctx task acc e = acc := by
  obtain ⟨other, j⟩ := e
  have hOther : ctx.slots[j]? = some other := mem_zipIdx_iff_getElem?.mp hMem
  obtain ⟨hNamed, hById⟩ := hNames
  unfold similarityStep
  dsimp only
  by_cases hHere : (j : Int) = task.idSlot
  · have hIndex : ctx.getSlotById j = some j :=
      getSlotById_of_lt (List.getElem?_eq_some_iff.mp hOther).1
    rw [hHere, hById] at hIndex
    have hSame : other = slot := by
      rw [some.inj hIndex, hOther] at hSlot
      exact some.inj hSlot
    rw [if_neg fun h => h.2 hHere, hSame, if_pos hBusy]
  · rw [if_pos ⟨hNamed, hHere⟩]

variable {P : Nat → Prop}

/-- What the loop over the similarities finds is free. -/
theorem similarityStep_ret (acc : SlotChoice) (e : Slot χ μ × Nat)
    (hFree : e.1.isProcessing = false → P e.2) (hAcc : ∀ j, acc.ret = some j → P j) (j : Nat)
    (hRet : (similarityStep b ctx task acc e).ret = some j) : P j := by
  unfold similarityStep at hRet
  dsimp only at hRet
  split at hRet
  · exact hAcc j hRet
  split at hRet
  · exact hAcc j hRet
  rename_i hIdle
  split at hRet
  · exact hAcc j hRet
  split at hRet
  · exact hAcc j hRet
  split at hRet
  · rw [← some.inj hRet]
    exact hFree (by simpa using hIdle)
  · exact hAcc j hRet

theorem lruStep_ret (acc : Option (Nat × Int)) (e : Slot χ μ × Nat)
    (hFree : e.1.isProcessing = false → P e.2) (hAcc : ∀ j t, acc = some (j, t) → P j) (j : Nat)
    (t : Int) (hRet : lruStep acc e = some (j, t)) : P j := by
  unfold lruStep at hRet
  dsimp only at hRet
  split at hRet
  · exact hAcc j t hRet
  rename_i hIdle
  have hHere : P e.2 := hFree (by simpa using hIdle)
  split at hRet
  · cases hRet
    exact hHere
  split at hRet
  · cases hRet
    exact hHere
  · exact hAcc j t hRet

/-- The chosen slot is the one that the task names, or a free one. -/
theorem chooseSlot_ret (hNamed : ∀ j, ctx.Names task j → P j)
    (hFree : ∀ j slot, ctx.slots[j]? = some slot → slot.isProcessing = false → P j)
    (hRet : (chooseSlot b ctx task).1 = some i) : P i := by
  have hById : ∀ j, (if task.idSlot = -1 then none else ctx.getSlotById task.idSlot) = some j →
      P j := by
    intro j hSome
    split at hSome
    · cases hSome
    · rename_i hId
      exact hNamed j ⟨hId, hSome⟩
  have hAt : ∀ e ∈ ctx.slots.zipIdx, e.1.isProcessing = false → P e.2 := fun e he =>
    hFree e.2 e.1 (mem_zipIdx_iff_getElem?.mp he)
  have hLoop : ∀ j, (ctx.slots.zipIdx.foldl (similarityStep b ctx task)
      { ret := if task.idSlot = -1 then none else ctx.getSlotById task.idSlot }).ret = some j →
      P j :=
    foldlRecOn _ _ hById fun acc hAcc e he => similarityStep_ret acc e (hAt e he) hAcc
  have hLru : ∀ j t, ctx.slots.zipIdx.foldl lruStep none = some (j, t) → P j :=
    foldlRecOn _ _ (fun j t hNone => by cases hNone) fun acc hAcc e he =>
      lruStep_ret acc e (hAt e he) hAcc
  unfold chooseSlot at hRet
  dsimp only at hRet
  split at hRet
  · rename_i j hSome
    cases hRet
    split at hSome
    · exact hLoop _ hSome
    · exact hById _ hSome
  split at hRet
  · rename_i j t hSome
    cases hRet
    exact hLru _ _ hSome
  · cases hRet

/-- A task that names no busy slot gets a free one. -/
theorem chooseSlot_free (hNamed : ∀ j, ctx.Names task j → ctx.FreeAt j)
    (hRet : (chooseSlot b ctx task).1 = some i) : ctx.FreeAt i :=
  chooseSlot_ret hNamed (fun _ _ hSlot hIdle => freeAt_of_eq hSlot hIdle) hRet

theorem chooseSlot_lt (hRet : (chooseSlot b ctx task).1 = some i) : i < ctx.slots.length :=
  chooseSlot_ret (P := (· < ctx.slots.length)) (fun _ hNamed => getSlotById_lt hNamed.2)
    (fun _ _ hSlot _ => (List.getElem?_eq_some_iff.mp hSlot).1) hRet

/-- Whether the exchange of a busy slot that a task names is due. -/
def ExchangeDue (ctx : ServerContext χ μ) (slot : Slot χ μ) (cache : PromptCache χ) : Prop :=
  if slot.prompt.tokens.size = 0 then 0 < PromptCache.tokensOfStates cache.states
  else ctx.slotPromptSimilarity ≠ 0

instance (cache : PromptCache χ) : Decidable (ctx.ExchangeDue slot cache) := by
  unfold ExchangeDue
  infer_instance

theorem promptSize_eq (hSlot : ctx.slots[i]? = some slot) :
    ctx.promptSize i = slot.prompt.tokens.size := by
  unfold promptSize
  rw [hSlot]
  rfl

theorem keepRatio_zero (nTask size : Nat) :
    ((keepRatio b 0 nTask size).any fun keep => decide (keep < 1 / 2)) = decide (size ≠ 0) := by
  unfold keepRatio
  by_cases hSize : size = 0
  · rw [if_pos hSize, decide_eq_false (not_not.mpr hSize)]
    rfl
  have hZero : ∀ x : Rat, 0 / x = 0 := fun x => by rw [Rat.div_def, Rat.zero_mul]
  have hHalf : (0 : Rat) < 1 / 2 := by decide +kernel
  rw [if_neg hSize, Rat.zero_mul, b.round_zero, hZero, b.round_zero, decide_eq_true hSize]
  exact decide_eq_true hHalf

/-- A task gets the busy slot that it names. -/
theorem chooseSlot_named {cache : PromptCache χ} (hNames : ctx.Names task i)
    (hSlot : ctx.slots[i]? = some slot) (hBusy : slot.isProcessing = true)
    (hCache : ctx.promptCache = some cache) :
    chooseSlot b ctx task = (some i, decide (ctx.ExchangeDue slot cache)) := by
  obtain ⟨hId, hById⟩ := hNames
  have hLoop : ctx.slots.zipIdx.foldl (similarityStep b ctx task) { ret := some i } =
      { ret := some i } :=
    foldlRecOn (motive := fun acc : SlotChoice => acc = { ret := some i }) _ _ rfl
      fun acc hAcc e hMem =>
        (similarityStep_named ⟨hId, hById⟩ hSlot hBusy acc e hMem).trans hAcc
  unfold chooseSlot
  dsimp only
  rw [if_neg hId, hById, hLoop, ite_self]
  dsimp only [any_some]
  rw [promptSize_eq hSlot, keepRatio_zero, hCache]
  refine congrArg (Prod.mk _) ?_
  unfold ExchangeDue
  by_cases hSize : slot.prompt.tokens.size = 0
  · simp [hSize]
  · simp [hSize]

end ServerContext

/-! ## The exchange -/

namespace Slot

variable {χ μ : Type} {b : Backend χ μ} {slot slot' : Slot χ μ} {cache cache' : PromptCache χ}
  {tokens : ServerTokens χ}

/-- The exchange leaves everything but the prompt and the sequence of the slot. -/
theorem exchange_eq (h : slot.exchange b cache tokens = .ok (slot', cache')) :
    slot' = { slot with prompt := slot'.prompt, memory := slot'.memory } := by
  obtain ⟨⟨_, c⟩, -, hRest⟩ := exists_of_bind h
  obtain ⟨prompt, memory, hLoad⟩ : ∃ prompt memory,
      (slot.promptLoad b c tokens).1.2 = { slot with prompt, memory } := ⟨_, _, rfl⟩
  dsimp only at hRest
  generalize slot.promptLoad b c tokens = r at hLoad hRest
  obtain ⟨⟨loaded, loadedSlot⟩, c'⟩ := r
  dsimp only at hLoad
  subst hLoad
  cases hRest
  cases loaded <;> rfl

/-- What a request holds of a slot. -/
def SameWork (slot slot' : Slot χ μ) : Prop :=
  slot'.prompt = slot.prompt ∧ slot'.memory = slot.memory ∧ slot'.task = slot.task

end Slot

namespace ServerContext

variable {χ μ : Type} {b : Backend χ μ} {ctx ctx' ctx₀ : ServerContext χ μ}
  {task : ServerTask χ} {slot : Slot χ μ} {i : Nat}

/-! ## The choice with the exchange -/

/-- The prompt of a busy slot is not exchanged with the cache: the task names no busy slot, or
there is no cache, or the task is not cached, or no exchange is due. -/
def NoExchange (ctx : ServerContext χ μ) (task : ServerTask χ) : Prop :=
  ∀ i slot cache, ctx.Names task i → ctx.slots[i]? = some slot → slot.isProcessing = true →
    ctx.promptCache = some cache → caches task → ¬ctx.ExchangeDue slot cache

variable {ret : Option Nat}

/-- What `get_available_slot` returns: nothing has happened, or the slot has been exchanged. -/
theorem getAvailableSlot_cases (h : getAvailableSlot b ctx task = .ok (ret, ctx')) :
    ret = (chooseSlot b ctx task).1 ∧ (ctx' = ctx ∨
      ∃ i slot prompt memory cache cache', ret = some i ∧ ctx.slots[i]? = some slot ∧
        ctx.promptCache = some cache ∧ (chooseSlot b ctx task).2 = true ∧ caches task ∧
        ctx' = { ctx.setSlot i { slot with prompt, memory } with
          promptCache := some cache' }) := by
  unfold getAvailableSlot at h
  generalize chooseSlot b ctx task = chosen at h ⊢
  obtain ⟨choice, updateCache⟩ := chosen
  cases choice with
  | none =>
    cases h
    exact ⟨rfl, Or.inl rfl⟩
  | some i =>
    dsimp only at h
    split at h
    · rename_i cache slot hCache hSlot
      split at h
      · rename_i hUpdate
        obtain ⟨⟨slot', cache'⟩, hExchange, hRest⟩ := exists_of_bind h
        cases hRest
        refine ⟨rfl, Or.inr ⟨i, slot, slot'.prompt, slot'.memory, cache, cache', rfl, hSlot, hCache,
          hUpdate.1, hUpdate.2, ?_⟩⟩
        rw [← Slot.exchange_eq hExchange]
        rfl
      · cases h
        exact ⟨rfl, Or.inl rfl⟩
    · cases h
      exact ⟨rfl, Or.inl rfl⟩

/-- Only a free slot is exchanged when none is due for a busy one. -/
theorem getAvailableSlot_spares (hNone : ctx.NoExchange task)
    (h : getAvailableSlot b ctx task = .ok (ret, ctx')) : Spares ctx ctx' := by
  obtain ⟨hRet, hSame | ⟨i, slot, prompt, memory, cache, cache', hSome, hSlot, hCache, hUpdate,
    hCaches, hAfter⟩⟩ := getAvailableSlot_cases h
  · rw [hSame]
    exact Spares.refl ctx
  have hChosen : (chooseSlot b ctx task).1 = some i := hRet.symm.trans hSome
  have hFree : ctx.FreeAt i := by
    by_cases hNames : ctx.Names task i
    · -- a busy slot that is named would be exchanged only when that is due
      refine freeAt_of_eq hSlot ?_
      by_contra hIdle
      have hBusy : slot.isProcessing = true := by simpa using hIdle
      rw [chooseSlot_named hNames hSlot hBusy hCache] at hUpdate
      exact hNone i slot cache hNames hSlot hBusy hCache hCaches (of_decide_eq_true hUpdate)
    refine chooseSlot_free (fun j hNamed other hOther => ?_) hChosen
    by_contra hBusy
    rw [chooseSlot_named hNamed hOther (by simpa using hBusy) hCache] at hChosen
    exact hNames (some.inj hChosen ▸ hNamed)
  rw [hAfter]
  exact ((Spares.refl ctx).setSlot hFree _).of_slots rfl

/-! ## The launch -/

variable {nSlotsNeeded exclude : Nat}

theorem freeSlotsFrom_free {acc : List Nat}
    {l : List (Slot χ μ × Nat)} (hAcc : ∀ j ∈ acc, ctx.FreeAt j)
    (hList : ∀ e ∈ l, ctx.slots[e.2]? = some e.1) :
    ∀ j ∈ freeSlotsFrom nSlotsNeeded exclude acc l, ctx.FreeAt j := by
  induction l generalizing acc with
  | nil => exact hAcc
  | cons e rest ih =>
    have hNext : ∀ j ∈ (if !e.1.isProcessing ∧ e.2 ≠ exclude then acc ++ [e.2] else acc),
        ctx.FreeAt j := by
      intro j hj
      split at hj
      · rename_i hFree
        rcases mem_append.mp hj with hOld | hNew
        · exact hAcc j hOld
        · rw [mem_singleton.mp hNew]
          exact freeAt_of_eq (hList e (by simp)) (by simpa using hFree.1)
      · exact hAcc j hj
    unfold freeSlotsFrom
    dsimp only
    generalize (if !e.1.isProcessing ∧ e.2 ≠ exclude then acc ++ [e.2] else acc) = next at hNext ⊢
    split
    · exact hNext
    · exact ih hNext fun x hx => hList x (mem_cons_of_mem _ hx)

theorem getFreeSlots_free : ∀ j ∈ ctx.getFreeSlots nSlotsNeeded exclude, ctx.FreeAt j :=
  freeSlotsFrom_free (fun j hj => by cases hj) fun _ he => mem_zipIdx_iff_getElem?.mp he

variable (h : Spares ctx₀ ctx)

include h

theorem Spares.launchSlotWithTask {work : SlotTask χ} (hFree : ctx₀.FreeAt i) : Spares ctx₀
    (launchSlotWithTask b ctx i work).2 := by
  unfold ServerContext.launchSlotWithTask
  split
  · exact h
  dsimp only
  split
  · exact (h.setSlot hFree _).of_slots rfl
  · exact h.setSlot hFree _

theorem Spares.release (hFree : ctx₀.FreeAt i) : Spares ctx₀ (ctx.release b i) := by
  unfold ServerContext.release
  split
  · exact h
  split
  · exact (h.setSlot hFree _).of_slots rfl
  · exact h

/-- No busy slot works for a parent task. -/
def Unused (ctx : ServerContext χ μ) (idParent : Int) : Prop :=
  ∀ slot ∈ ctx.slots, worksFor idParent slot = false

variable {idParent : Int}

theorem Spares.releaseSlots (hUnused : ctx₀.Unused idParent) : Spares ctx₀
    (ctx.releaseSlots b idParent) := by
  refine foldlRecOn _ _ h fun c hSpares j _ => ?_
  unfold releaseFor
  split
  · rename_i hWorks
    refine hSpares.release fun old hOld => ?_
    by_contra hBusy
    rw [hSpares j old hOld (by simpa using hBusy), any_some,
      hUnused old (mem_of_getElem? hOld)] at hWorks
    exact absurd hWorks Bool.false_ne_true
  · exact hSpares

theorem Spares.launchAll {l : List (Nat × SlotTask χ)} (hUnused : ctx₀.Unused idParent)
    (hFree : ∀ e ∈ l, ctx₀.FreeAt e.1) :
    Spares ctx₀ (launchAll b idParent ctx l).2 := by
  induction l generalizing ctx with
  | nil => exact h
  | cons e rest ih =>
    have hOne : Spares ctx₀ (ctx.launchSlotWithTask b e.1 e.2).2 :=
      h.launchSlotWithTask (hFree e (by simp))
    unfold ServerContext.launchAll
    split
    · rename_i c hLaunch
      rw [hLaunch] at hOne
      exact ih hOne fun x hx => hFree x (mem_cons_of_mem _ hx)
    rename_i c hLaunch
    rw [hLaunch] at hOne
    exact hOne.releaseSlots hUnused

theorem Spares.launch {childSlots : List Nat} (hUnused : ctx₀.Unused task.id)
    (hFree : ctx₀.FreeAt i)
    (hChildren : ∀ j ∈ childSlots, ctx₀.FreeAt j) :
    Spares ctx₀ (launch b ctx i childSlots task).2 := by
  unfold ServerContext.launch
  split
  · refine h.launchAll hUnused fun e he => ?_
    rcases mem_append.mp he with hChild | hParent
    · exact hChildren e.1 (of_mem_zip hChild).1
    · rw [mem_singleton.mp hParent]
      exact hFree
  · exact h.launchSlotWithTask hFree

theorem Spares.saveIdleSlots (hOk : saveIdleSlots b ctx = .ok ctx') : Spares ctx₀ ctx' := by
  unfold ServerContext.saveIdleSlots at hOk
  split at hOk
  · refine foldlM_keeps (fun j _ c c' hSpares hTurn => ?_) h hOk
    unfold saveIdleSlot at hTurn
    split at hTurn
    · rename_i cache slot hCache hSlot
      split at hTurn
      · cases hTurn
        exact hSpares
      rename_i hIdle
      obtain ⟨⟨saved, cache'⟩, -, hRest⟩ := exists_of_bind hTurn
      cases hRest
      have hFree : ctx₀.FreeAt j :=
        hSpares.freeAt (freeAt_of_eq hSlot (by simpa using hIdle))
      exact (hSpares.setSlot hFree _).of_slots rfl
    · cases hTurn
      exact hSpares
  · cases hOk
    exact h

omit h

theorem processSlotTask_spares (hUnused : ctx.Unused task.id)
    (hNone : ctx.NoExchange task) (h : processSlotTask b ctx task = .ok ctx') :
    Spares ctx ctx' := by
  obtain ⟨⟨ret, c⟩, hGet, hRest⟩ := exists_of_bind h
  have hSpares := getAvailableSlot_spares hNone hGet
  dsimp only at hRest
  split at hRest
  · cases hRest
    exact hSpares.of_slots rfl
  rename_i i
  split at hRest
  · cases hRest
    exact hSpares.of_slots rfl
  rename_i hIdle
  split at hRest
  · cases hRest
    exact hSpares.of_slots rfl
  have hFree : ctx.FreeAt i := by
    refine hSpares.freeAt fun slot hSlot => ?_
    rw [hSlot, any_some] at hIdle
    simpa using hIdle
  have hLaunch :
      Spares ctx (launch b c i (c.getFreeSlots task.childTasks.length i) task).2 :=
    hSpares.launch hUnused hFree fun j hj => hSpares.freeAt (getFreeSlots_free j hj)
  split at hRest
  · exact hLaunch.saveIdleSlots hRest
  · cases hRest
    exact hLaunch

/-! ## One task -/

/-- What the requests of the busy slots hold is as it was. -/
def Untouched (ctx ctx' : ServerContext χ μ) : Prop :=
  ∀ (i : Nat) (slot : Slot χ μ), ctx.slots[i]? = some slot → slot.isProcessing = true →
    ∃ slot', ctx'.slots[i]? = some slot' ∧ slot.SameWork slot'

theorem Spares.untouched (h : Spares ctx ctx') : Untouched ctx ctx' :=
  fun i slot hSlot hBusy => ⟨slot, h i slot hSlot hBusy, rfl, rfl, rfl⟩

theorem processSingleTask_onSlot (hType : task.type.OnSlot) :
    processSingleTask b ctx task =
      match tokenizeCliInput b task with
      | .error e => .ok (ctx.sendError task.id e .invalidRequest)
      | .ok task => processSlotTask b ctx task := by
  unfold processSingleTask
  generalize task.type = type at hType ⊢
  rcases hType with rfl | rfl | rfl | rfl <;> rfl

theorem tokenizeCliInput_eq {task' : ServerTask χ} (h : tokenizeCliInput b task = .ok task') :
    ∃ tokens cliPrompt, task' = { task with tokens, cliPrompt } := by
  unfold tokenizeCliInput at h
  split at h
  · split at h
    · exact ⟨_, _, (Except.ok.inj h).symm⟩
    · cases h
  · exact ⟨task.tokens, task.cliPrompt, (Except.ok.inj h).symm⟩

/-- The ranking of `load`, for prompts without media. -/
def rankedEntry (cache : PromptCache UInt8) (slot : Slot UInt8 (List UInt8))
    (tokens : ServerTokens UInt8) : Option (CacheNode UInt8) :=
  let shared := fun s : ServerTokens UInt8 =>
    ServerTokens.firstDifference s.tokens tokens.tokens
  let keep := fun s : ServerTokens UInt8 => (shared s : Rat) / s.size
  let live := slot.prompt.tokens
  (cache.states.foldl (fun acc node =>
    let s := node.state.prompt.tokens
    if 1 / 4 ≤ keep s ∧ (acc.2.1 < shared s ∨ shared s = acc.2.1 ∧ acc.2.2 < keep s) then
      (some node, shared s, keep s)
    else acc) (none, shared live, if live.size = 0 then -1 else keep live)).1

/-- A backend whose sequences are lists of bytes. -/
def bytesBackend : Backend UInt8 (List UInt8) where
  mtmd := TokensOp.countedChunks
  hasMtmd := false
  round x := x
  round_zero := rfl
  now := 0
  emptyMemory := []
  hasDraft := false
  hasSpeculative := false
  getState m := some ⟨m, [], []⟩
  restoreState _ data := some data.main
  entryFits := true
  restorable slot tokens :=
    ServerTokens.firstDifference slot.prompt.tokens.tokens tokens.tokens
  bestEntry := rankedEntry
  limitTokensCur cache := cache.limitTokens
  tokenize _ := .error "no text"
  clearsForLora _ _ := false
  multipleAloras _ := false
  validTokens _ := true
  samplerError _ := none
  saveFile _ packed _ := packed.length
  loadFile _ _ := none
  forceReasoningEnd _ := false

/-- A completion of some tokens. -/
def completion (id idSlot : Int) (tokens : List Int32) : ServerTask UInt8 where
  id := id
  type := .completion
  tokens := .ofTokens tokens false
  idSlot := idSlot

/-- A slot at work, and a cached prompt of another conversation. -/
def oneBusySlot : ServerContext UInt8 (List UInt8) where
  slots := [{
    prompt := ⟨.ofTokens [1, 2, 3] false, []⟩
    memory := [1, 2, 3]
    task := some (completion 0 0 [1, 2, 3]).toSlotTask
    state := .generating
    nCtx := 64 }]
  promptCache := some {
    states := [⟨0, ⟨⟨.ofTokens [7, 8, 9] false, []⟩, ⟨[7, 8, 9], [], []⟩⟩⟩]
    limitSize := 0
    limitTokens := 0
    nextAddress := 1 }
  slotPromptSimilarity := 1 / 10

/-- The request of the other conversation, for the same slot. -/
def secondRequest : ServerTask UInt8 := completion 1 0 [7, 8, 9, 10]

/-- The slot at work beside a free one, without a threshold for the similarity. -/
def similarityOff : ServerContext UInt8 (List UInt8) :=
  { oneBusySlot with
    slots := oneBusySlot.slots ++
      [{ prompt := ⟨.ofTokens [] false, []⟩, memory := [], nCtx := 64 }]
    slotPromptSimilarity := 0 }

theorem similarityOff_noExchange (task : ServerTask UInt8)
    (h : similarityOff.getSlotById task.idSlot ∈ [some 0, some 1]) :
    similarityOff.NoExchange task := by
  intro i slot cache hNames hSlot hBusy hCache _
  rw [hNames.2, List.mem_pair, some.injEq, some.injEq] at h
  cases hCache
  rcases h with rfl | rfl
  · -- the slot at work has a prompt, and nothing is compared with it
    cases hSlot
    decide
  · cases hSlot
    exact absurd hBusy (by decide)

end ServerContext

end Beellama.Ports
