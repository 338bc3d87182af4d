import Beellama.Ports.ServerTokens

/-!
# `server_queue`

The tasks of the server and the two queues that hold them: the main queue, and the queue of tasks
that wait for a slot.  Every operation is one section under `mutex_tasks`.
-/

namespace Beellama.Ports

open List

/-- `server_task_type` -/
inductive TaskType
  | completion | embedding | rerank | infill | cancel | control | nextResponse | metrics
  | slotSave | slotRestore | slotErase | getLora | setLora
  deriving DecidableEq

/-- The tasks that run on a slot. -/
def TaskType.OnSlot (t : TaskType) : Prop :=
  t = .completion ∨ t = .infill ∨ t = .embedding ∨ t = .rerank

/-- The tasks that act on the prompt of a slot. -/
def TaskType.SlotAction (t : TaskType) : Prop :=
  t = .slotSave ∨ t = .slotRestore ∨ t = .slotErase

instance (t : TaskType) : Decidable t.OnSlot := by unfold TaskType.OnSlot; infer_instance
instance (t : TaskType) : Decidable t.SlotAction := by unfold TaskType.SlotAction; infer_instance

/-- What a slot reads of a `server_task`, and what a child task has. -/
structure SlotTask (χ : Type) where
  id : Int
  idParent : Int := -1
  type : TaskType
  tokens : ServerTokens χ
  cachePrompt : Bool := true
  /-- `oaicompat_cmpl_id` -/
  cmplId : String := ""
  reasoningControl : Bool := false
  deriving DecidableEq

/-- `server_task`, before it is moved to a slot. -/
structure ServerTask (χ : Type) extends SlotTask χ where
  idTarget : Int := -1
  idSlot : Int := -1
  childTasks : List (SlotTask χ) := []
  cli : Bool := false
  cliPrompt : String := ""
  /-- `slot_action.id_slot` -/
  actionSlot : Int := -1
  filename : String := ""
  controlAction : String := ""
  controlCmplId : String := ""
  deriving DecidableEq

section Tasks

variable {χ : Type}

def SlotTask.isChild (task : SlotTask χ) : Bool := task.idParent ≠ -1

/-- `need_sampling` -/
def SlotTask.needSampling (task : SlotTask χ) : Bool :=
  task.type = .completion ∨ task.type = .infill

def ServerTask.isParent (task : ServerTask χ) : Bool := 0 < task.childTasks.length

/-- The ids that a task brings along. -/
def ServerTask.ids (task : ServerTask χ) : List Int :=
  task.id :: task.childTasks.map SlotTask.id

/-- `get_list_id` -/
def getListId (tasks : List (ServerTask χ)) : List Int := tasks.flatMap ServerTask.ids

/-- A cancel task of `server_response_reader::stop`. -/
def cancelTask (idTask : Int) : ServerTask χ where
  id := -1
  type := .cancel
  tokens := .ofTokens [] false
  idTarget := idTask

end Tasks

/-- `server_queue` -/
structure ServerQueue (χ : Type) where
  /-- `id`, of the next task -/
  nextId : Int := 0
  queueTasks : List (ServerTask χ) := []
  queueTasksDeferred : List (ServerTask χ) := []
  deriving DecidableEq

namespace ServerQueue

variable {χ : Type}

def cleanupPendingTask (q : ServerQueue χ) (idTarget : Int) : ServerQueue χ :=
  { q with
    queueTasks := q.queueTasks.filter (·.id ≠ idTarget)
    queueTasksDeferred := q.queueTasksDeferred.filter (·.id ≠ idTarget) }

/-- Put a task into the main queue. -/
def push (q : ServerQueue χ) (task : ServerTask χ) (front : Bool) : ServerQueue χ :=
  { q with queueTasks := if front then task :: q.queueTasks else q.queueTasks ++ [task] }

/-- The body of the loop of `post`. -/
def postOne (front : Bool) (q : ServerQueue χ) (task : ServerTask χ) : ServerQueue χ :=
  let (q, task) :=
    if task.id = -1 then ({ q with nextId := q.nextId + 1 }, { task with id := q.nextId })
    else (q, task)
  let q := if task.type = .cancel then q.cleanupPendingTask task.idTarget else q
  q.push task front

/-- `post`, of several tasks -/
def postAll (q : ServerQueue χ) (tasks : List (ServerTask χ)) (front : Bool) : ServerQueue χ :=
  tasks.foldl (postOne front) q

/-- `post`, of a task with an id -/
def post (q : ServerQueue χ) (task : ServerTask χ) (front : Bool) : ServerQueue χ :=
  let q := if task.type = .cancel then q.cleanupPendingTask task.idTarget else q
  q.push task front

/-- `get_new_id` -/
def getNewId (q : ServerQueue χ) : Int × ServerQueue χ :=
  (q.nextId, { q with nextId := q.nextId + 1 })

def defer (q : ServerQueue χ) (task : ServerTask χ) : ServerQueue χ :=
  { q with queueTasksDeferred := q.queueTasksDeferred ++ [task] }

/-- `pop_deferred_task`: a task for the slot, or else the first one. -/
def popDeferredTask (q : ServerQueue χ) (idSlot : Int) : ServerQueue χ :=
  match q.queueTasksDeferred.find? (·.idSlot = idSlot) with
  | some task =>
    { q with
      queueTasks := task :: q.queueTasks
      queueTasksDeferred := q.queueTasksDeferred.eraseP (·.idSlot = idSlot) }
  | none =>
    match q.queueTasksDeferred with
    | [] => q
    | task :: rest =>
      { q with queueTasks := task :: q.queueTasks, queueTasksDeferred := rest }

/-- The tasks that are not taken yet. -/
def waiting (q : ServerQueue χ) : List (ServerTask χ) := q.queueTasks ++ q.queueTasksDeferred

/-! ## What the operations do -/

variable (q : ServerQueue χ)

section

variable (task : ServerTask χ)

include task

theorem push_perm (front : Bool) : (q.push task front).queueTasks.Perm (task :: q.queueTasks) := by
  cases front with
  | true => exact List.Perm.refl _
  | false => exact perm_append_singleton task q.queueTasks

theorem waiting_push_perm (front : Bool) :
    (q.push task front).waiting.Perm (task :: q.waiting) := by
  exact (q.push_perm task front).append_right _

end

theorem waiting_cleanup (idTarget : Int) :
    (q.cleanupPendingTask idTarget).waiting = q.waiting.filter (·.id ≠ idTarget) := by
  unfold waiting
  rw [filter_append]
  rfl

@[simp] theorem popDeferredTask_nextId (idSlot : Int) :
    (q.popDeferredTask idSlot).nextId = q.nextId := by
  unfold popDeferredTask
  split
  · rfl
  · split <;> rfl

theorem waiting_popDeferredTask (idSlot : Int) :
    (q.popDeferredTask idSlot).waiting.Perm q.waiting := by
  have hMove : ∀ (task : ServerTask χ) (rest : List (ServerTask χ)),
      (task :: rest).Perm q.queueTasksDeferred →
      ((task :: q.queueTasks) ++ rest).Perm q.waiting := by
    intro task rest hPerm
    exact perm_middle.symm.trans (hPerm.append_left q.queueTasks)
  unfold popDeferredTask
  split
  · rename_i task hFind
    obtain ⟨hSlot, before, after, hSplit, hBefore⟩ := find?_eq_some_iff_append.mp hFind
    refine hMove task _ ?_
    have hErase : q.queueTasksDeferred.eraseP (·.idSlot = idSlot) = before ++ after := by
      rw [hSplit, eraseP_append_right _ fun x hx => by simpa using hBefore x hx]
      exact congrArg (before ++ ·) (eraseP_cons_of_pos hSlot)
    rw [hErase, hSplit]
    exact perm_middle.symm
  split
  · exact List.Perm.refl _
  rename_i task rest hDeferred
  refine hMove task rest ?_
  rw [hDeferred]

theorem popDeferredTask_queueTasks (idSlot : Int) (hDeferred : q.queueTasksDeferred ≠ []) :
    (q.popDeferredTask idSlot).queueTasks ≠ [] := by
  unfold popDeferredTask
  split
  · exact cons_ne_nil _ _
  split
  · rename_i hNil
    exact absurd hNil hDeferred
  · exact cons_ne_nil _ _

/-- A post of tasks with ids, none of which is a cancel task. -/
theorem waiting_postAll {tasks : List (ServerTask χ)} (front : Bool)
    (hIds : ∀ task ∈ tasks, task.id ≠ -1) (hTypes : ∀ task ∈ tasks, task.type ≠ .cancel) :
    (q.postAll tasks front).nextId = q.nextId ∧
      (q.postAll tasks front).waiting.Perm (tasks ++ q.waiting) := by
  induction tasks generalizing q with
  | nil => exact ⟨rfl, List.Perm.refl _⟩
  | cons task rest ih =>
    have hOne : postOne front q task = q.push task front := by
      unfold postOne
      rw [if_neg (hIds task (by simp))]
      dsimp only
      rw [if_neg (hTypes task (by simp))]
    obtain ⟨hNext, hPerm⟩ := ih (postOne front q task)
      (fun t ht => hIds t (mem_cons_of_mem _ ht))
      fun t ht => hTypes t (mem_cons_of_mem _ ht)
    rw [hOne] at hNext hPerm
    refine ⟨?_, ?_⟩
    · unfold postAll
      rw [foldl_cons, hOne]
      exact hNext
    unfold postAll
    rw [foldl_cons, hOne]
    refine hPerm.trans (((q.waiting_push_perm task front).append_left rest).trans ?_)
    exact perm_middle

/-- The tasks that a post of cancel tasks adds: each has an id of its own and no children. -/
structure CancelTasks (first : Int) (order : List Int) (tasks : List (ServerTask χ)) : Prop where
  type : ∀ task ∈ tasks, task.type = .cancel
  children : ∀ task ∈ tasks, task.childTasks = []
  idTarget : ∀ task ∈ tasks, task.idTarget ∈ order
  id_le : ∀ task ∈ tasks, first ≤ task.id
  id_lt : ∀ task ∈ tasks, task.id < first + order.length
  nodup : (tasks.map (·.id)).Nodup

/-- A post of cancel tasks removes their targets from both queues. -/
theorem waiting_postAll_cancel {order : List Int} (hOrder : ∀ id ∈ order, id < q.nextId) :
    (q.postAll (order.map cancelTask) true).nextId = q.nextId + order.length ∧
      ∃ tasks, CancelTasks q.nextId order tasks ∧
        (q.postAll (order.map cancelTask) true).waiting.Perm
          (tasks ++ q.waiting.filter (·.id ∉ order)) := by
  induction order generalizing q with
  | nil =>
    refine ⟨(Int.add_zero _).symm, [], ⟨?_, ?_, ?_, ?_, ?_, nodup_nil⟩, ?_⟩
    · exact fun _ h => by cases h
    · exact fun _ h => by cases h
    · exact fun _ h => by cases h
    · exact fun _ h => by cases h
    · exact fun _ h => by cases h
    · rw [filter_eq_self.mpr fun task _ => by simp]
      exact List.Perm.refl _
  | cons id rest ih =>
    let added : ServerTask χ := { cancelTask id with id := q.nextId }
    let q₁ : ServerQueue χ := postOne true q (cancelTask id)
    have hNext₁ : q₁.nextId = q.nextId + 1 := rfl
    have hWaiting₁ : q₁.waiting.Perm (added :: q.waiting.filter (·.id ≠ id)) := by
      have hPush := ({ q with nextId := q.nextId + 1 }.cleanupPendingTask id).waiting_push_perm
        added true
      rw [waiting_cleanup] at hPush
      exact hPush
    have hRest : ∀ id' ∈ rest, id' < q₁.nextId := fun id' h => by
      have hLt := hOrder id' (mem_cons_of_mem _ h)
      omega
    obtain ⟨hNext, tasks, hTasks, hPerm⟩ := ih q₁ hRest
    have hFresh : added.id ∉ rest := fun hMem => by
      have hLt : added.id < q.nextId := hOrder _ (mem_cons_of_mem _ hMem)
      exact Int.lt_irrefl _ hLt
    have hFilter : (added :: q.waiting.filter (·.id ≠ id)).filter (·.id ∉ rest) =
        added :: q.waiting.filter (·.id ∉ id :: rest) := by
      rw [filter_cons, if_pos (decide_eq_true hFresh), filter_filter]
      refine congrArg (added :: ·) (filter_congr fun task _ => ?_)
      rw [← Bool.decide_and, decide_eq_decide, mem_cons, not_or]
      exact and_comm
    refine ⟨?_, added :: tasks, ⟨?_, ?_, ?_, ?_, ?_, ?_⟩, ?_⟩
    · change (q₁.postAll (rest.map cancelTask) true).nextId = _
      rw [hNext, length_cons]
      omega
    · exact forall_mem_cons.mpr ⟨rfl, hTasks.type⟩
    · exact forall_mem_cons.mpr ⟨rfl, hTasks.children⟩
    · exact forall_mem_cons.mpr ⟨mem_cons_self, fun task h =>
        mem_cons_of_mem _ (hTasks.idTarget task h)⟩
    · refine forall_mem_cons.mpr ⟨Int.le_refl _, fun task h => ?_⟩
      have hLe := hTasks.id_le task h
      omega
    · rw [length_cons]
      refine forall_mem_cons.mpr ⟨?_, fun task h => ?_⟩
      · change q.nextId < _
        omega
      · have hLt := hTasks.id_lt task h
        omega
    · refine nodup_cons.mpr ⟨fun hMem => ?_, hTasks.nodup⟩
      obtain ⟨task, hTask, hEq⟩ := mem_map.mp hMem
      have hLe := hTasks.id_le task hTask
      rw [hEq] at hLe
      change q.nextId + 1 ≤ q.nextId at hLe
      omega
    refine hPerm.trans ?_
    have hOld := (hWaiting₁.filter (·.id ∉ rest)).append_left tasks
    rw [hFilter] at hOld
    exact hOld.trans perm_middle

theorem popDeferredTask_of_nil (idSlot : Int) (hDeferred : q.queueTasksDeferred = []) :
    q.popDeferredTask idSlot = q := by
  unfold popDeferredTask
  rw [hDeferred]
  rfl

end ServerQueue

end Beellama.Ports
