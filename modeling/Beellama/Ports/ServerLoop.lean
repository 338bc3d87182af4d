import Beellama.Ports.ServerWorkload

/-!
# The worker and the readers

The server as a step relation: every section under `mutex_tasks` and every call of
`process_single_task` is one step.

A deferred task is put back when a slot is released, one for one.  So it waits for ever when the task
that was put back is completed at once, cannot be launched, or is cancelled before it is taken.
-/

namespace Beellama.Ports

open Beellama.Verified List Option

/-- What `server_response_reader` has to do with the tasks. -/
structure QueueReader where
  idTasks : List Int := []
  /-- the ids from `get_new_id` that no task has yet -/
  newIds : List Int := []
  cancelled : Bool := false
  deriving DecidableEq

structure ServerSystem (χ μ : Type) where
  ctx : ServerContext χ μ
  /-- the task that the worker has taken and not processed -/
  hand : Option (ServerTask χ) := none
  readers : List QueueReader := []
  /-- the ids whose cancel tasks have been processed -/
  processedCancels : List Int := []
  deriving DecidableEq

inductive ServerOp (χ μ : Type)
  | newReader
  | getNewId (r : Nat)
  | post (r : Nat) (tasks : List (ServerTask χ)) (front : Bool)
  | stop (r : Nat) (order : List Int)
  | pop
  | process (b : Backend χ μ)
  | release (b : Backend χ μ) (i : Nat)
  | nextResponse
  /-- what `update_slots` does to a slot that it does not release -/
  | work (i : Nat) (prompt : ServerPrompt χ) (memory : μ) (state : SlotState)

namespace ServerSystem

variable {χ μ : Type}

def setQueue (s : ServerSystem χ μ) (queue : ServerQueue χ) : ServerSystem χ μ :=
  { s with ctx := { s.ctx with queue } }

def setReader (s : ServerSystem χ μ) (r : Nat) (reader : QueueReader) : ServerSystem χ μ :=
  { s with readers := s.readers.set r reader }

/-- `SERVER_TASK_TYPE_NEXT_RESPONSE`, with an id. -/
def nextResponseTask (id : Int) : ServerTask χ where
  id := id
  type := .nextResponse
  tokens := .ofTokens [] false

/-- A reader may post these tasks: it has not posted any, their ids are its own and all distinct,
and cancel tasks are left to `stop`. -/
def MayPost (reader : QueueReader) (tasks : List (ServerTask χ)) : Prop :=
  reader.idTasks = [] ∧ (getListId tasks).Nodup ∧ (∀ id ∈ getListId tasks, id ∈ reader.newIds) ∧
    ∀ task ∈ tasks, task.type ≠ .cancel

instance (reader : QueueReader) (tasks : List (ServerTask χ)) :
    Decidable (MayPost reader tasks) := by
  unfold MayPost
  infer_instance

/-- A reader whose tasks are not cancelled stops; the tasks are listed in some order. -/
def MayStop (reader : QueueReader) (order : List Int) : Prop :=
  reader.cancelled = false ∧ reader.idTasks ≠ [] ∧ order.Perm reader.idTasks

instance (reader : QueueReader) (order : List Int) : Decidable (MayStop reader order) := by
  unfold MayStop
  infer_instance

/-- A slot after some work on it. -/
def worked (slot : Slot χ μ) (prompt : ServerPrompt χ) (memory : μ) (state : SlotState) :
    Slot χ μ :=
  { slot with
    prompt
    memory
    state := if slot.isProcessing ∧ state ≠ .idle then state else slot.state }

/-- One step, of a request thread or of the worker. -/
def exec (s : ServerSystem χ μ) : ServerOp χ μ → Option (ServerSystem χ μ)
  | .newReader => some { s with readers := s.readers ++ [{}] }
  | .getNewId r =>
    s.readers[r]?.map fun reader =>
      (s.setQueue s.ctx.queue.getNewId.2).setReader r
        { reader with newIds := s.ctx.queue.getNewId.1 :: reader.newIds }
  | .post r tasks front =>
    match s.readers[r]? with
    | none => none
    | some reader =>
      if MayPost reader tasks then
        some ((s.setQueue (s.ctx.queue.postAll tasks front)).setReader r { reader with
          idTasks := getListId tasks
          newIds := reader.newIds.filter (· ∉ getListId tasks) })
      else none
  | .stop r order =>
    match s.readers[r]? with
    | none => none
    | some reader =>
      if MayStop reader order then
        some ((s.setQueue (s.ctx.queue.postAll (order.map cancelTask) true)).setReader r
          { reader with cancelled := true })
      else none
  | .pop =>
    match s.hand, s.ctx.queue.queueTasks with
    | none, task :: rest =>
      some { s.setQueue { s.ctx.queue with queueTasks := rest } with hand := some task }
    | _, _ => none
  | .process b =>
    match s.hand with
    | none => none
    | some task =>
      match ServerContext.processSingleTask b s.ctx task with
      | .error _ => none
      | .ok ctx => some { s with
          ctx
          hand := none
          processedCancels :=
            if task.type = .cancel then task.idTarget :: s.processedCancels
            else s.processedCancels }
  | .release b i => if s.hand.isNone then some { s with ctx := s.ctx.release b i } else none
  | .nextResponse =>
    if s.hand.isNone then
      some (s.setQueue
        (s.ctx.queue.getNewId.2.post (nextResponseTask s.ctx.queue.getNewId.1) false))
    else none
  | .work i prompt memory state =>
    match s.hand, s.ctx.slots[i]? with
    | none, some slot => some { s with ctx := s.ctx.setSlot i (worked slot prompt memory state) }
    | _, _ => none

def step (op : ServerOp χ μ) (s s' : ServerSystem χ μ) : Prop := s.exec op = some s'

/-- The server when its loop starts. -/
structure IsNew (s : ServerSystem χ μ) : Prop where
  idle : ∀ w ∈ s.ctx.work, w = (none, false)
  queue : s.ctx.queue = {}
  hand : s.hand = none
  readers : s.readers = []
  processedCancels : s.processedCancels = []

end ServerSystem

/-! ## Deferred tasks -/

variable {i : Nat}

namespace ServerContext

variable {χ μ : Type} {b : Backend χ μ} {ctx ctx' : ServerContext χ μ} {task : ServerTask χ}

/-- Nothing is queued and no slot is at work. -/
def Quiet (ctx : ServerContext χ μ) : Prop := ctx.queue.queueTasks = [] ∧ ¬ctx.Busy

/-- Deferred tasks are waited for: something is queued or at work as long as there are any. -/
def Live (ctx : ServerContext χ μ) : Prop := ctx.Quiet → ctx.queue.queueTasksDeferred = []

/-- The first task that is launched for a task. -/
def firstLaunch (task : ServerTask χ) : SlotTask χ := task.childTasks.head?.getD task.toSlotTask

/-- The task comes to a slot. -/
def Starts (b : Backend χ μ) (task : ServerTask χ) : Prop :=
  task.type.OnSlot ∧ ∃ task', tokenizeCliInput b task = .ok task' ∧
    launchError b (firstLaunch task') = none

theorem SameWorkload.live (h : SameWorkload ctx ctx') (hLive : ctx.Live) : ctx'.Live := by
  unfold Live Quiet at hLive ⊢
  rw [h.queue, h.busy_iff]
  exact hLive

theorem Launches.live {work : SlotTask χ} (h : Launches ctx work ctx') : ctx'.Live := by
  rintro ⟨-, hIdle⟩
  obtain ⟨i, hLt, hWork⟩ := h.work
  refine absurd (busy_iff.mpr ⟨(some work, true), ?_, rfl⟩) hIdle
  rw [hWork]
  exact mem_set (by rw [work_length]; exact hLt) _

theorem Releases.live (h : Releases ctx i ctx') : ctx'.Live := by
  rintro ⟨hQueue, -⟩
  rw [h.queue] at hQueue ⊢
  by_contra hDeferred
  by_cases hBefore : ctx.queue.queueTasksDeferred = []
  · rw [ServerQueue.popDeferredTask_of_nil _ _ hBefore] at hDeferred
    exact hDeferred hBefore
  · exact ctx.queue.popDeferredTask_queueTasks _ hBefore hQueue

theorem live_kept (b : Backend χ μ) : Kept b fun _ (ctx : ServerContext χ μ) => ctx.Live where
  same hLive hSame := hSame.live hLive
  drop hLive := hLive
  launched _ hLaunch := hLaunch.live
  released _ hRelease := hRelease.live

theorem launch_live {c : ServerContext χ μ} {childSlots : List Nat}
    (hPlaces : Places c task i childSlots) (hStart : launchError b (firstLaunch task) = none) :
    (launch b c i childSlots task).2.Live := by
  have hFirst : ∀ (j : Nat) (work : SlotTask χ), j < c.slots.length → launchError b work = none →
      (launchSlotWithTask b c j work).1 = true ∧
        Launches c work (launchSlotWithTask b c j work).2 := by
    intro j work hLt hNone
    rcases launchSlotWithTask_cases b work hLt with h | ⟨hError, -⟩
    · exact h.2
    · exact absurd hNone hError
  unfold launch
  unfold firstLaunch at hStart
  split
  · rename_i hParent
    have hEnough := hPlaces.enough hParent
    have hPos : 0 < task.childTasks.length := of_decide_eq_true hParent
    obtain ⟨work, rest, hChildren⟩ := exists_cons_of_length_pos hPos
    obtain ⟨j, js, hSlots⟩ := exists_cons_of_length_pos (hPos.trans_le hEnough)
    have hLt : ∀ k ∈ j :: js, k < c.slots.length := fun k hk =>
      hPlaces.children_lt k (by rw [hSlots]; exact hk)
    rw [hChildren] at hStart
    obtain ⟨hOk, hLaunch⟩ := hFirst j work (hLt j (by simp)) hStart
    have hLength : (launchSlotWithTask b c j work).2.slots.length = c.slots.length := by
      obtain ⟨k, -, hWork⟩ := hLaunch.work
      rw [← work_length, hWork, length_set, work_length]
    unfold launchSlotsWithParentTask
    rw [hSlots, hChildren, zip_cons_cons, cons_append]
    unfold launchAll
    generalize launchSlotWithTask b c j work = launched at hOk hLaunch hLength ⊢
    obtain ⟨ok, d⟩ := launched
    cases hOk
    refine (live_kept b).launchAll hLaunch.live fun e he => ?_
    rw [hLength]
    rcases mem_append.mp he with hChild | hSelf
    · exact hLt e.1 (mem_cons_of_mem _ (of_mem_zip hChild).1)
    · rw [mem_singleton.mp hSelf]
      exact hPlaces.lt
  rename_i hSingle
  have hNil : task.childTasks = [] := by
    unfold ServerTask.isParent at hSingle
    simpa using hSingle
  rw [hNil] at hStart
  exact (hFirst i task.toSlotTask hPlaces.lt hStart).2.live

/-- When nothing else is queued or at work, the task does not wait, and it comes to a slot if
others wait. -/
def KeepsGoing (b : Backend χ μ) (ctx : ServerContext χ μ) (task : ServerTask χ) : Prop :=
  ctx.Quiet → ¬Waits b ctx task ∧ (ctx.queue.queueTasksDeferred ≠ [] → Starts b task)

theorem processSingleTask_live (hGoing : ctx.KeepsGoing b task)
    (h : processSingleTask b ctx task = .ok ctx') : ctx'.Live := by
  have hCases := processSingleTask_cases h
  by_cases hLive : ctx.Live
  · rcases hCases with ⟨hWaits, -, hWork, tokens, cliPrompt, hQueue⟩ |
      ⟨-, task', c, i, childSlots, -, hBefore, hPlaces, hAfter⟩ | ⟨-, rfl⟩ | ⟨-, hSame, -⟩
    · rintro ⟨hEmpty, hIdle⟩
      rw [hQueue] at hEmpty
      rw [busy_iff, hWork, ← busy_iff] at hIdle
      exact absurd hWaits (hGoing ⟨hEmpty, hIdle⟩).1
    · exact hAfter.live ((live_kept b).launchOn hPlaces fun _ _ => hBefore.live hLive)
    · unfold processCancel
      split
      · exact (live_kept b).releaseAt [] hLive
      · exact hLive
    · exact hSame.live hLive
  obtain ⟨hQuiet, hDeferred⟩ := Classical.not_imp.mp hLive
  obtain ⟨hNoWait, hStarts⟩ := hGoing hQuiet
  obtain ⟨hOnSlot, started, hTokens, hNone⟩ := hStarts hDeferred
  rcases hCases with ⟨hWaits, -⟩ |
    ⟨-, task', c, i, childSlots, hTokens', -, hPlaces, hAfter⟩ | ⟨hCancel, -⟩ | ⟨-, -, hFail⟩
  · exact absurd hWaits hNoWait
  · rw [hTokens] at hTokens'
    cases hTokens'
    exact hAfter.live (launch_live hPlaces hNone)
  · rw [hCancel] at hOnSlot
    exact absurd hOnSlot (by decide)
  obtain ⟨e, hError⟩ := hFail hOnSlot
  rw [hTokens] at hError
  cases hError

end ServerContext

namespace ServerQueue

variable {χ : Type} (q : ServerQueue χ)

theorem push_ne_nil (task : ServerTask χ) (front : Bool) : (q.push task front).queueTasks ≠ [] := by
  intro hNil
  have hPerm := q.push_perm task front
  rw [hNil] at hPerm
  exact cons_ne_nil _ _ hPerm.symm.eq_nil

theorem postAll_ne_nil {tasks : List (ServerTask χ)} (hTasks : tasks ≠ []) (front : Bool) :
    (q.postAll tasks front).queueTasks ≠ [] := by
  obtain ⟨init, last, rfl⟩ : ∃ init last, tasks = init ++ [last] :=
    ⟨_, _, (dropLast_append_getLast hTasks).symm⟩
  unfold postAll
  rw [foldl_append]
  exact push_ne_nil _ _ _

end ServerQueue

namespace ServerSystem

open ServerContext

variable {χ μ : Type} {s s' : ServerSystem χ μ}

/-- The condition on the steps: what the worker processes keeps the server going.  Deferred tasks
are put back one at a time by a release, so the last activity must end in one. -/
def GoesOn : ServerOp χ μ → ServerSystem χ μ → Prop
  | .process b, s => ∀ task, s.hand = some task → s.ctx.KeepsGoing b task
  | _, _ => True

theorem worked_sameWorkload {ctx : ServerContext χ μ} {slot : Slot χ μ}
    (hSlot : ctx.slots[i]? = some slot) (prompt : ServerPrompt χ) (memory : μ)
    (state : SlotState) : SameWorkload ctx (ctx.setSlot i (worked slot prompt memory state)) := by
  refine sameWorkload_setSlot hSlot rfl ?_
  unfold worked Slot.isProcessing
  by_cases hBusy : decide (slot.state ≠ .idle) = true ∧ state ≠ .idle
  · rw [if_pos hBusy, decide_eq_true hBusy.2, hBusy.1]
  · rw [if_neg hBusy]

/-- Between two tasks, deferred tasks are waited for. -/
def Attended (s : ServerSystem χ μ) : Prop := s.hand = none → s.ctx.Live

theorem live_of_queueTasks {ctx : ServerContext χ μ} (h : ctx.queue.queueTasks ≠ []) : ctx.Live :=
  fun hQuiet => absurd hQuiet.1 h

theorem Attended.step {op : ServerOp χ μ} (h : s.Attended) (hOp : GoesOn op s)
    (hStep : step op s s') : s'.Attended := by
  unfold ServerSystem.step exec at hStep
  cases op with
  | newReader =>
    cases hStep
    exact h
  | getNewId r =>
    obtain ⟨reader, -, rfl⟩ := map_eq_some_iff.mp hStep
    exact h
  | post r tasks front =>
    dsimp only at hStep
    split at hStep
    · cases hStep
    split at hStep
    · cases hStep
      by_cases hTasks : tasks = []
      · rw [hTasks]
        exact h
      · exact fun _ => live_of_queueTasks (s.ctx.queue.postAll_ne_nil hTasks front)
    · cases hStep
  | stop r order =>
    dsimp only at hStep
    split at hStep
    · cases hStep
    split at hStep
    · rename_i hMay
      cases hStep
      have hOrder : order.map cancelTask ≠ ([] : List (ServerTask χ)) := by
        intro hNil
        have hPerm := hMay.2.2
        rw [map_eq_nil_iff.mp hNil] at hPerm
        exact hMay.2.1 hPerm.symm.eq_nil
      exact fun _ => live_of_queueTasks (s.ctx.queue.postAll_ne_nil hOrder true)
    · cases hStep
  | pop =>
    dsimp only at hStep
    split at hStep
    · cases hStep
      exact fun hNone => absurd hNone (some_ne_none _)
    · cases hStep
  | process b =>
    dsimp only at hStep
    split at hStep
    · cases hStep
    rename_i task hHand
    split at hStep
    · cases hStep
    rename_i ctx hOk
    cases hStep
    exact fun _ => processSingleTask_live (hOp task hHand) hOk
  | release b i =>
    dsimp only at hStep
    split at hStep
    · rename_i hHand
      cases hStep
      exact fun _ => (live_kept b).releaseAt [] (h (isNone_iff_eq_none.mp hHand))
    · cases hStep
  | nextResponse =>
    dsimp only at hStep
    split at hStep
    · cases hStep
      exact fun _ => live_of_queueTasks (ServerQueue.push_ne_nil _ _ _)
    · cases hStep
  | work i prompt memory state =>
    dsimp only at hStep
    split at hStep
    · rename_i slot hHand hSlot
      cases hStep
      exact fun _ => (worked_sameWorkload hSlot prompt memory state).live (h hHand)
    · cases hStep

/-- In a run that keeps the server going, no task is deferred when nothing is queued, processed or
at work. -/
theorem run_noneStranded (hRun : Run IsNew step GoesOn s) (hHand : s.hand = none)
    (hQuiet : s.ctx.Quiet) : s.ctx.queue.queueTasksDeferred = [] := by
  have hAttended : s.Attended :=
    hRun.invariant (fun s hNew _ _ => by rw [hNew.queue]) fun _ _ _ h hOp hStep => h.step hOp hStep
  exact hAttended hHand hQuiet

/-! ## A task that waits for ever -/

/-- A server with one slot. -/
def oneSlot : ServerSystem UInt8 (List UInt8) where
  ctx := {
    slots := [{ prompt := ⟨.ofTokens [] false, []⟩, memory := [], nCtx := 64 }]
    promptCache := none
    slotPromptSimilarity := 0 }

theorem oneSlot_isNew : oneSlot.IsNew where
  idle _ hw := mem_singleton.mp hw
  queue := rfl
  hand := rfl
  readers := rfl
  processedCancels := rfl

/-- A request to erase the prompt of slot 0. -/
def eraseTask (id : Int) : ServerTask UInt8 where
  id := id
  type := .slotErase
  tokens := .ofTokens [] false
  actionSlot := 0

/-- A reader of one task. -/
def request (r : Nat) (task : ServerTask UInt8) : List (ServerOp UInt8 (List UInt8)) :=
  [.newReader, .getNewId r, .post r [task] false]

/-- The worker takes a task and processes it. -/
def serve : List (ServerOp UInt8 (List UInt8)) := [.pop, .process bytesBackend]

theorem quiet_of_idle {s : ServerSystem UInt8 (List UInt8)} (hQueue : s.ctx.queue.queueTasks = [])
    (hSlots : s.ctx.slots.map Slot.isProcessing = [false]) : s.ctx.Quiet := by
  refine ⟨hQueue, ?_⟩
  rintro ⟨slot, hSlot, hBusy⟩
  have hMem := mem_map_of_mem (f := Slot.isProcessing) hSlot
  rw [hSlots, hBusy] at hMem
  exact absurd hMem (by decide)

theorem completion_keepsGoing {ctx : ServerContext UInt8 (List UInt8)} {id : Int}
    (hSlots : ctx.slots.length = 1) (hLive : ctx.queue.queueTasksDeferred = [] ∨ ctx.Busy) :
    ctx.KeepsGoing bytesBackend (completion id 0 [1, 2]) := by
  rintro ⟨-, hIdle⟩
  refine ⟨?_, fun hSome => absurd (hLive.resolve_right hIdle) hSome⟩
  rintro (⟨-, -, ⟨i, -, slot, hSlot, hBusy⟩ | hFree⟩ | ⟨hAction, -⟩)
  · exact hIdle ⟨slot, mem_of_getElem? hSlot, hBusy⟩
  · have hAll : ctx.freeSlots = ctx.slots.length :=
      countP_eq_length.mpr fun slot hSlot => by
        rw [Bool.not_eq_true']
        exact Bool.eq_false_iff.mpr fun hBusy => hIdle ⟨slot, hSlot, hBusy⟩
    rw [hAll, hSlots] at hFree
    exact absurd hFree (by simp [completion])
  · exact absurd (show TaskType.completion.SlotAction from hAction) (by decide)

/-- The server has one slot, the worker takes completions only, and a task is deferred only while
the slot is at work. -/
def attends (s : ServerSystem UInt8 (List UInt8)) : Bool :=
  s.ctx.slots.length = 1 ∧ (∀ task ∈ s.hand, task = completion task.id 0 [1, 2]) ∧
    (s.ctx.queue.queueTasksDeferred = [] ∨ s.ctx.slots.any Slot.isProcessing)

theorem goesOn_of_attends {s : ServerSystem UInt8 (List UInt8)} (h : attends s = true) :
    GoesOn (.process bytesBackend) s := by
  obtain ⟨hSlots, hHand, hLive⟩ := of_decide_eq_true h
  intro task hSome
  rw [hHand task hSome]
  exact completion_keepsGoing hSlots (hLive.imp_right any_eq_true.mp)

/-- The second of two completions is deferred. -/
def secondDeferred : List (ServerOp UInt8 (List UInt8)) :=
  request 0 (completion 0 0 [1, 2]) ++ serve ++ request 1 (completion 1 0 [1, 2]) ++ serve

/-- The release of the first puts it back, and it runs. -/
def secondRuns : List (ServerOp UInt8 (List UInt8)) :=
  [.release bytesBackend 0] ++ serve ++ [.release bytesBackend 0]

theorem goesOn_of_mem {op : ServerOp UInt8 (List UInt8)} (h : op ∈ secondDeferred ++ secondRuns)
    (s : ServerSystem UInt8 (List UInt8)) (hOk : attends s = true) : GoesOn op s := by
  simp only [secondDeferred, secondRuns, request, serve, cons_append, nil_append, mem_cons,
    not_mem_nil, or_false] at h
  rcases h with rfl | rfl | rfl | rfl | rfl | rfl | rfl | rfl | rfl | rfl | rfl | rfl | rfl | rfl
  all_goals first | trivial | exact goesOn_of_attends hOk

/-- The deferred completion runs to its end, and nothing is left behind. -/
theorem twoCompletions_noneStranded :
    ∃ t s : ServerSystem UInt8 (List UInt8), Run IsNew step GoesOn t ∧
      t.ctx.queue.queueTasksDeferred = [completion 1 0 [1, 2]] ∧
      Run IsNew step GoesOn s ∧ s.hand = none ∧ s.ctx.Quiet ∧
      s.ctx.queue.queueTasksDeferred = [] := by
  have hRun : (secondDeferred.foldlM (fun s op => if attends s then exec s op else none)
      oneSlot).bind (fun t => (secondRuns.foldlM (fun s op =>
        if attends s then exec s op else none) t).map fun s =>
          (t.ctx.queue.queueTasksDeferred, s.hand, s.ctx.queue.queueTasks,
            s.ctx.slots.map Slot.isProcessing)) =
      some ([completion 1 0 [1, 2]], none, [], [false]) := by
    decide
  obtain ⟨t, hDeferred, hEnd⟩ := bind_eq_some_iff.mp hRun
  obtain ⟨s, hRuns, hLast⟩ := map_eq_some_iff.mp hEnd
  simp only [Prod.mk.injEq] at hLast
  obtain ⟨hTask, hHand, hQueue, hIdle⟩ := hLast
  have hWaiting : Run IsNew step GoesOn t := (Run.start oneSlot_isNew).execChecked
    (fun op hOp c => goesOn_of_mem (mem_append_left _ hOp) c) hDeferred
  have hDone : Run IsNew step GoesOn s := hWaiting.execChecked
    (fun op hOp c => goesOn_of_mem (mem_append_right _ hOp) c) hRuns
  have hQuiet := quiet_of_idle hQueue hIdle
  exact ⟨t, s, hWaiting, hTask, hDone, hHand, hQuiet, run_noneStranded hDone hHand hQuiet⟩

/-- A completion runs, two erasures of its slot are deferred, and the release puts back one of
them. -/
def twoErasures : List (ServerOp UInt8 (List UInt8)) :=
  request 0 (completion 0 0 [1, 2]) ++ serve ++ request 1 (eraseTask 1) ++ request 2 (eraseTask 2) ++
    serve ++ serve ++ [.release bytesBackend 0] ++ serve

/-- The second erasure waits on an idle server. -/
theorem twoErasures_stranded :
    ∃ s : ServerSystem UInt8 (List UInt8), Run IsNew step (fun _ _ => True) s ∧
      s.hand = none ∧ s.ctx.Quiet ∧ s.ctx.queue.queueTasksDeferred = [eraseTask 2] := by
  have hRun : (twoErasures.foldlM exec oneSlot).map (fun s =>
      (s.hand, s.ctx.queue.queueTasks, s.ctx.slots.map Slot.isProcessing,
        s.ctx.queue.queueTasksDeferred)) = some (none, [], [false], [eraseTask 2]) := by
    decide
  obtain ⟨s, hExec, hEnd⟩ := map_eq_some_iff.mp hRun
  simp only [Prod.mk.injEq] at hEnd
  obtain ⟨hHand, hQueue, hSlots, hDeferred⟩ := hEnd
  exact ⟨s, (Run.start oneSlot_isNew).execAll (fun _ _ _ => trivial) hExec, hHand,
    quiet_of_idle hQueue hSlots, hDeferred⟩

end ServerSystem

end Beellama.Ports
