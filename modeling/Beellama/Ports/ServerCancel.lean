import Beellama.Ports.ServerLoop
import Beellama.Verified.SlotList

/-!
# Cancelled tasks

A stop removes the tasks of a reader from both queues when it posts their cancel tasks, and the worker
then releases their slots.  A task that the worker has taken in between is in neither place; if it is
deferred, nothing finds it.  An id is in one place at a time (`Custody`).
-/

namespace Beellama.Ports

open Beellama.Verified List

namespace ServerContext

variable {χ μ : Type} {b : Backend χ μ} {ctx ctx' ctx₀ : ServerContext χ μ}
  {task : ServerTask χ} {ids ids₀ : List Int}

/-- The ids of the tasks on the slots. -/
def workIds (ctx : ServerContext χ μ) : List Int :=
  ctx.work.flatMap fun w => (w.1.map SlotTask.id).toList

/-- The ids that wait, those in the hands of the worker and those on the slots. -/
def holds (ids : List Int) (ctx : ServerContext χ μ) : List Int :=
  getListId ctx.queue.waiting ++ (ids ++ ctx.workIds)

/-- A slot is at work when it has a task. -/
def WorksOnTasks (ctx : ServerContext χ μ) : Prop := ∀ w ∈ ctx.work, w.2 = w.1.isSome

/-- Tasks have only moved: from the deferred tasks to the main queue, to the slots, or away. -/
structure Moved (ids₀ : List Int) (ctx₀ : ServerContext χ μ) (ids : List Int)
    (ctx : ServerContext χ μ) : Prop where
  held : (ctx.holds ids).Subperm (ctx₀.holds ids₀)
  waiting : ctx.queue.waiting.Perm ctx₀.queue.waiting
  nextId : ctx.queue.nextId = ctx₀.queue.nextId
  works : ctx.WorksOnTasks

theorem Moved.refl (hWorks : ctx.WorksOnTasks) : Moved ids ctx ids ctx :=
  ⟨List.Subperm.refl _, List.Perm.refl _, rfl, hWorks⟩

theorem Moved.same (h : Moved ids₀ ctx₀ ids ctx) (hSame : SameWorkload ctx ctx') :
    Moved ids₀ ctx₀ ids ctx' := by
  obtain ⟨hHeld, hWaiting, hNext, hWorks⟩ := h
  have hHolds : ctx'.holds ids = ctx.holds ids := by
    unfold holds workIds
    rw [hSame.queue, hSame.work]
  refine ⟨hHolds ▸ hHeld, hSame.queue ▸ hWaiting, hSame.queue ▸ hNext, ?_⟩
  unfold WorksOnTasks
  rw [hSame.work]
  exact hWorks

/-- Replace the ids in the hands and on the slots. -/
theorem Moved.update {ids' : List Int} (h : Moved ids₀ ctx₀ ids ctx)
    (hWaiting : ctx'.queue.waiting.Perm ctx.queue.waiting)
    (hNext : ctx'.queue.nextId = ctx.queue.nextId) (hWorks : ctx'.WorksOnTasks)
    (hHeld : (ids' ++ ctx'.workIds).Subperm (ids ++ ctx.workIds)) : Moved ids₀ ctx₀ ids' ctx' where
  held := ((hWaiting.flatMap_right _).subperm.append hHeld).trans h.held
  waiting := hWaiting.trans h.waiting
  nextId := hNext.trans h.nextId
  works := hWorks

theorem worksOnTasks_set {i : Nat} {w : Option (SlotTask χ) × Bool} (h : ctx.WorksOnTasks)
    (hWork : ctx'.work = ctx.work.set i w) (hNew : w.2 = w.1.isSome) : ctx'.WorksOnTasks := by
  intro w' hMem
  rw [hWork] at hMem
  rcases mem_or_eq_of_mem_set hMem with hOld | rfl
  · exact h w' hOld
  · exact hNew

theorem moved_kept (b : Backend χ μ) (ids₀ : List Int) (ctx₀ : ServerContext χ μ) :
    Kept b (Moved ids₀ ctx₀) where
  same h hSame := h.same hSame
  drop h := h.update (List.Perm.refl _) rfl h.works
    ((List.Sublist.cons _ (List.Sublist.refl _)).subperm)
  launched {work ids ctx ctx'} h hLaunch := by
    obtain ⟨i, hLt, hWork⟩ := hLaunch.work
    rw [← work_length] at hLt
    have hIds : ctx'.workIds.Subperm (work.id :: ctx.workIds) := by
      unfold workIds
      rw [hWork]
      exact flatMap_set_subperm hLt (some work, true)
    refine h.update (by rw [hLaunch.queue]) (by rw [hLaunch.queue])
      (worksOnTasks_set h.works hWork rfl) ?_
    exact ((List.Subperm.refl ids).append hIds).trans perm_middle.subperm
  released {i ids ctx ctx'} h hRelease := by
    obtain ⟨work, hAt⟩ := hRelease.busy
    have hLt : i < ctx.work.length := (List.getElem?_eq_some_iff.mp hAt).1
    have hIds : ctx'.workIds.Subperm ctx.workIds := by
      unfold workIds
      rw [hRelease.work]
      exact flatMap_set_subperm hLt (none, false)
    refine h.update ?_ ?_ (worksOnTasks_set h.works hRelease.work rfl)
      ((List.Subperm.refl ids).append hIds)
    · rw [hRelease.queue]
      exact ctx.queue.waiting_popDeferredTask _
    · rw [hRelease.queue]
      exact ctx.queue.popDeferredTask_nextId _

variable {idTarget : Int}

theorem processCancel_workIds (hWorks : ctx.WorksOnTasks)
    (hNodup : ctx.workIds.Nodup) : idTarget ∉ (processCancel b ctx idTarget).workIds := by
  have hOn : ∀ (c : ServerContext χ μ), idTarget ∈ c.workIds →
      ∃ slot ∈ c.slots, slot.task.any (fun task => task.id = idTarget) = true := by
    intro c hMem
    obtain ⟨w, hw, hId⟩ := mem_flatMap.mp hMem
    obtain ⟨slot, hSlot, rfl⟩ := mem_map.mp hw
    obtain ⟨task, hTask, rfl⟩ := Option.map_eq_some_iff.mp (Option.mem_toList.mp hId)
    dsimp only at hTask
    exact ⟨slot, hSlot, by rw [hTask]; exact decide_eq_true rfl⟩
  unfold processCancel slotOfTask
  split
  · rename_i i hFind
    obtain ⟨hLt, hTask, -⟩ := findIdx?_eq_some_iff_getElem.mp hFind
    obtain ⟨task, hSome, hId⟩ := (Option.any_eq_true _ _).mp hTask
    have hAt : ctx.work[i]? = some (some task, true) := by
      have hHere : ctx.work[i]? = some (ctx.slots[i].task, ctx.slots[i].isProcessing) := by
        rw [work_getElem?, getElem?_eq_getElem hLt]
        rfl
      have hBusy := hWorks _ (mem_of_getElem? hHere)
      dsimp only at hBusy
      rw [hHere, hBusy, hSome]
      rfl
    have hPerm : ctx.workIds.Perm ([idTarget] ++
        (ctx.work.set i (none, false)).flatMap fun w => (w.1.map SlotTask.id).toList) := by
      refine flatMap_set_given hAt ?_
      rw [← of_decide_eq_true hId]
      exact List.Perm.refl _
    have hBusy : ctx.slots[i].isProcessing = true := by
      rw [work_getElem?, getElem?_eq_getElem hLt] at hAt
      exact congrArg Prod.snd (Option.some.inj hAt)
    have hRelease : Releases ctx i (ctx.release b i) :=
      release_busy (getElem?_eq_getElem hLt) hBusy
    have hNodup' := hPerm.nodup_iff.mp hNodup
    unfold workIds
    rw [hRelease.work]
    exact (nodup_cons.mp hNodup').1
  rename_i hNone
  intro hMem
  obtain ⟨slot, hSlot, hTask⟩ := hOn ctx hMem
  rw [findIdx?_eq_none_iff.mp hNone slot hSlot] at hTask
  exact absurd hTask Bool.false_ne_true

theorem processCancel_moved (h : Moved ids₀ ctx₀ ids ctx) :
    Moved ids₀ ctx₀ ids (processCancel b ctx idTarget) := by
  unfold processCancel
  split
  · exact (moved_kept b ids₀ ctx₀).releaseAt ids h
  · exact h

end ServerContext

/-! ## Every id is in one place -/

namespace ServerSystem

open ServerContext

variable {χ μ : Type} {s s' : ServerSystem χ μ}

def waiting (s : ServerSystem χ μ) : List (ServerTask χ) := s.ctx.queue.waiting

/-- The tasks that may still come to a slot. -/
def pending (s : ServerSystem χ μ) : List (ServerTask χ) := s.waiting ++ s.hand.toList

def heldIds (s : ServerSystem χ μ) : List Int := s.ctx.holds (getListId s.hand.toList)

/-- The ids that readers have and no task has yet. -/
def newIds (s : ServerSystem χ μ) : List Int := s.readers.flatMap QueueReader.newIds

/-- A cancel task for the id has been posted. -/
def IsTarget (s : ServerSystem χ μ) (t : Int) : Prop :=
  t ∈ s.processedCancels ∨ ∃ task ∈ s.pending, task.type = .cancel ∧ task.idTarget = t

structure Custody (s : ServerSystem χ μ) : Prop where
  works : s.ctx.WorksOnTasks
  nodup : (s.newIds ++ s.heldIds).Nodup
  nextId : 0 ≤ s.ctx.queue.nextId
  issued : ∀ id ∈ s.newIds ++ s.heldIds, 0 ≤ id ∧ id < s.ctx.queue.nextId
  target_issued : ∀ t, s.IsTarget t → t < s.ctx.queue.nextId
  /-- a target is not new and does not wait -/
  target_apart : ∀ t, s.IsTarget t → t ∉ s.newIds ∧ t ∉ getListId s.waiting
  /-- what a processed cancel task has not found anywhere is gone -/
  gone : ∀ t ∈ s.processedCancels, t ∉ s.heldIds
  owned : ∀ reader ∈ s.readers, ∀ id ∈ reader.idTasks,
    0 ≤ id ∧ id < s.ctx.queue.nextId ∧ id ∉ s.newIds
  /-- a task belongs to a reader with all its children -/
  whole : ∀ reader ∈ s.readers, ∀ task ∈ s.pending, ∀ id ∈ task.ids,
    id ∈ reader.idTasks → task.id ∈ reader.idTasks

variable {tasks : List (ServerTask χ)} {id : Int}

theorem mem_getListId :
    id ∈ getListId tasks ↔ ∃ task ∈ tasks, id ∈ task.ids := mem_flatMap

theorem mem_heldIds : id ∈ s.heldIds ↔ id ∈ getListId s.pending ∨ id ∈ s.ctx.workIds := by
  unfold heldIds holds pending waiting getListId
  rw [flatMap_append, mem_append, mem_append, mem_append, or_assoc]

variable (h : s.Custody)

include h

/-- What the worker does keeps every id in at most one place; a task that it puts back keeps its ids
and kind. -/
theorem Custody.worked (hReaders : s'.readers = s.readers)
    (hNext : s'.ctx.queue.nextId = s.ctx.queue.nextId) (hWorks : s'.ctx.WorksOnTasks)
    (hHeld : s'.heldIds.Subperm s.heldIds)
    (hPending : ∀ task ∈ s'.pending, ∃ old ∈ s.pending, old.ids = task.ids ∧
      old.type = task.type ∧ old.idTarget = task.idTarget)
    (hWaiting : ∀ t, s.IsTarget t → t ∉ getListId s'.waiting) (hGone : ∀ t ∈ s'.processedCancels,
      t ∈ s.processedCancels ∨ s.IsTarget t ∧ t ∉ s'.heldIds) : s'.Custody := by
  have hNewIds : s'.newIds = s.newIds := by
    unfold newIds
    rw [hReaders]
  have hTarget : ∀ t, s'.IsTarget t → s.IsTarget t := by
    rintro t (hDone | ⟨task, hMem, hType, rfl⟩)
    · rcases hGone t hDone with hOld | ⟨hOld, -⟩
      · exact Or.inl hOld
      · exact hOld
    · obtain ⟨old, hOld, -, hOldType, hOldTarget⟩ := hPending task hMem
      exact Or.inr ⟨old, hOld, hOldType.trans hType, hOldTarget⟩
  have hAll : (s'.newIds ++ s'.heldIds).Subperm (s.newIds ++ s.heldIds) := by
    rw [hNewIds]
    exact (List.Subperm.refl _).append hHeld
  refine ⟨hWorks, ?_, ?_, ?_, ?_, ?_, ?_, ?_, ?_⟩
  · obtain ⟨l, hPerm, hSub⟩ := hAll
    exact hPerm.nodup_iff.mp (h.nodup.sublist hSub)
  · rw [hNext]
    exact h.nextId
  · intro id hMem
    rw [hNext]
    exact h.issued id (hAll.subset hMem)
  · intro t ht
    rw [hNext]
    exact h.target_issued t (hTarget t ht)
  · intro t ht
    rw [hNewIds]
    exact ⟨(h.target_apart t (hTarget t ht)).1, hWaiting t (hTarget t ht)⟩
  · intro t ht
    rcases hGone t ht with hOld | ⟨-, hNot⟩
    · exact fun hMem => h.gone t hOld (hHeld.subset hMem)
    · exact hNot
  · rw [hReaders, hNext, hNewIds]
    exact h.owned
  intro reader hReader task hTask id hId hOwn
  rw [hReaders] at hReader
  obtain ⟨old, hOld, hIds, -⟩ := hPending task hTask
  have hSame : old.id = task.id := (cons.inj hIds).1
  rw [← hSame]
  exact h.whole reader hReader old hOld id (hIds ▸ hId) hOwn

/-- Ids are handed out, and tasks with fresh ids and no children come to what is left of the
queues. -/
theorem Custody.added {kept : List (ServerTask χ)} (fresh : List Int)
    (tasks : List (ServerTask χ)) (hSub : kept.Sublist s.waiting) (hWaiting : s'.waiting.Perm (tasks ++ kept))
    (hWork : s'.ctx.workIds = s.ctx.workIds) (hWorks : s'.ctx.WorksOnTasks)
    (hHand : s'.hand = s.hand) (hProcessed : s'.processedCancels = s.processedCancels)
    (hNext : s.ctx.queue.nextId ≤ s'.ctx.queue.nextId) (hReaders : ∀ reader ∈ s'.readers,
      reader.idTasks = [] ∨ ∃ old ∈ s.readers, old.idTasks = reader.idTasks)
    (hNewIds : s'.newIds.Perm (fresh ++ s.newIds))
    (hChildren : ∀ task ∈ tasks, task.childTasks = []) (hIds : ∀ id ∈ fresh ++ tasks.map (·.id),
      s.ctx.queue.nextId ≤ id ∧ id < s'.ctx.queue.nextId)
    (hNodup : (fresh ++ tasks.map (·.id)).Nodup)
    (hTargets : ∀ task ∈ tasks, task.type = .cancel → task.idTarget < s.ctx.queue.nextId ∧
      task.idTarget ∉ s.newIds ∧ task.idTarget ∉ getListId kept) : s'.Custody := by
  have hOwnIds : ∀ task ∈ tasks, task.ids = [task.id] := fun task hTask => by
    unfold ServerTask.ids
    rw [hChildren task hTask]
    rfl
  have hAddedIds : getListId tasks = tasks.map (·.id) := by
    unfold getListId
    rw [flatMap_congr hOwnIds]
    exact map_eq_flatMap.symm
  have hWaitingIds : (getListId s'.waiting).Perm (tasks.map (·.id) ++ getListId kept) := by
    have hPerm := hWaiting.flatMap_right ServerTask.ids
    rw [flatMap_append] at hPerm
    exact hAddedIds ▸ hPerm
  have hHeld : s'.heldIds.Subperm (tasks.map (·.id) ++ s.heldIds) := by
    have hKept : (getListId kept).Subperm (getListId s.waiting) := (hSub.flatMap _).subperm
    unfold heldIds holds
    rw [hHand, hWork, ← append_assoc (tasks.map _)]
    exact (hWaitingIds.subperm.trans ((List.Subperm.refl _).append hKept)).append
      (List.Subperm.refl _)
  have hAll : (s'.newIds ++ s'.heldIds).Subperm
      ((fresh ++ tasks.map (·.id)) ++ (s.newIds ++ s.heldIds)) := by
    refine (hNewIds.subperm.append hHeld).trans ?_
    rw [append_assoc, append_assoc]
    exact ((perm_append_comm_assoc _ _ _).append_left fresh).subperm
  have hAllNodup : ((fresh ++ tasks.map (·.id)) ++ (s.newIds ++ s.heldIds)).Nodup := by
    refine nodup_append.mpr ⟨hNodup, h.nodup, ?_⟩
    rintro id hNew _ hOld rfl
    have hLe := (hIds id hNew).1
    have hLt := (h.issued id hOld).2
    omega
  have hTarget : ∀ t, s'.IsTarget t →
      t < s.ctx.queue.nextId ∧ t ∉ s.newIds ∧ t ∉ getListId kept := by
    have hOld : ∀ t, s.IsTarget t → t < s.ctx.queue.nextId ∧ t ∉ s.newIds ∧ t ∉ getListId kept :=
      fun t ht => ⟨h.target_issued t ht, (h.target_apart t ht).1, fun hMem =>
        (h.target_apart t ht).2 ((hSub.flatMap _).subset hMem)⟩
    rintro t (hDone | ⟨task, hMem, hType, rfl⟩)
    · exact hOld t (Or.inl (hProcessed ▸ hDone))
    rcases mem_append.mp hMem with hWait | hInHand
    · rcases mem_append.mp (hWaiting.subset hWait) with hAdded | hKept
      · exact hTargets task hAdded hType
      · exact hOld _ (Or.inr ⟨task, mem_append_left _ (hSub.subset hKept), hType, rfl⟩)
    · rw [hHand] at hInHand
      exact hOld _ (Or.inr ⟨task, mem_append_right _ hInHand, hType, rfl⟩)
  -- an id that was handed out before is none of the fresh ones
  have hNotFresh : ∀ id, id < s.ctx.queue.nextId → id ∉ fresh ++ tasks.map (·.id) :=
    fun id hLt hMem => absurd (hIds id hMem).1 (by omega)
  have hNotNew : ∀ id, id < s.ctx.queue.nextId → id ∉ s.newIds → id ∉ s'.newIds :=
    fun id hLt hNot hMem => (mem_append.mp (hNewIds.subset hMem)).elim
      (fun hFresh => hNotFresh id hLt (mem_append_left _ hFresh)) hNot
  have hNextId := h.nextId
  refine ⟨hWorks, ?_, by omega, ?_, ?_, ?_, ?_, ?_, ?_⟩
  · obtain ⟨l, hPerm, hSublist⟩ := hAll
    exact hPerm.nodup_iff.mp (hAllNodup.sublist hSublist)
  · intro id hMem
    rcases mem_append.mp (hAll.subset hMem) with hNew | hOld
    · have hBounds := hIds id hNew
      omega
    · have hBounds := h.issued id hOld
      omega
  · intro t ht
    have hLt := (hTarget t ht).1
    omega
  · intro t ht
    obtain ⟨hLt, hNot, hNotKept⟩ := hTarget t ht
    refine ⟨hNotNew t hLt hNot, fun hMem => ?_⟩
    rcases mem_append.mp (hWaitingIds.subset hMem) with hNew | hKept
    · exact hNotFresh t hLt (mem_append_right _ hNew)
    · exact hNotKept hKept
  · intro t ht hMem
    rw [hProcessed] at ht
    rcases mem_append.mp (hHeld.subset hMem) with hNew | hOld
    · exact hNotFresh t (h.target_issued t (Or.inl ht)) (mem_append_right _ hNew)
    · exact h.gone t ht hOld
  · intro reader hReader id hId
    rcases hReaders reader hReader with hNil | ⟨old, hOld, hSame⟩
    · rw [hNil] at hId
      cases hId
    · obtain ⟨hPos, hLt, hNot⟩ := h.owned old hOld id (hSame ▸ hId)
      exact ⟨hPos, by omega, hNotNew id hLt hNot⟩
  intro reader hReader task hTask id hId hOwn
  rcases hReaders reader hReader with hNil | ⟨old, hOld, hSame⟩
  · rw [hNil] at hOwn
    cases hOwn
  rcases mem_append.mp hTask with hWait | hInHand
  · rcases mem_append.mp (hWaiting.subset hWait) with hAdded | hKept
    · rw [hOwnIds task hAdded] at hId
      rw [← mem_singleton.mp hId]
      exact hOwn
    · rw [← hSame] at hOwn ⊢
      exact h.whole old hOld task (mem_append_left _ (hSub.subset hKept)) id hId hOwn
  rw [hHand] at hInHand
  rw [← hSame] at hOwn ⊢
  exact h.whole old hOld task (mem_append_right _ hInHand) id hId hOwn

variable {r : Nat} {reader : QueueReader}

theorem Custody.posted {front : Bool} (hReader : s.readers[r]? = some reader)
    (hMay : MayPost reader tasks) :
    ((s.setQueue (s.ctx.queue.postAll tasks front)).setReader r { reader with
      idTasks := getListId tasks
      newIds := reader.newIds.filter (· ∉ getListId tasks) }).Custody := by
  obtain ⟨-, hListNodup, hOwn, hTypes⟩ := hMay
  have hMemReader := mem_of_getElem? hReader
  have hNewOf : ∀ id ∈ getListId tasks, id ∈ s.newIds := fun id hId =>
    mem_flatMap.mpr ⟨reader, hMemReader, hOwn id hId⟩
  have hIds : ∀ task ∈ tasks, task.id ≠ -1 := by
    intro task hTask hEq
    have hMem : task.id ∈ getListId tasks :=
      mem_getListId.mpr ⟨task, hTask, mem_cons_self⟩
    have hPos := (h.issued _ (mem_append_left _ (hNewOf _ hMem))).1
    omega
  obtain ⟨hNext, hWaiting⟩ := s.ctx.queue.waiting_postAll front hIds hTypes
  have hSplit : reader.newIds.Perm
      (getListId tasks ++ reader.newIds.filter (· ∉ getListId tasks)) := by
    have hReaderNodup : reader.newIds.Nodup :=
      (nodup_flatMap.mp (nodup_append.mp h.nodup).1).1 reader hMemReader
    have hUsed : (reader.newIds.filter (· ∈ getListId tasks)).Perm (getListId tasks) := by
      refine (perm_ext_iff_of_nodup (hReaderNodup.filter _) hListNodup).mpr fun id => ?_
      rw [mem_filter, decide_eq_true_iff]
      exact and_iff_right_of_imp (hOwn id)
    have hParts := filter_append_perm (fun id => decide (id ∈ getListId tasks)) reader.newIds
    simp only [← decide_not] at hParts
    exact hParts.symm.trans (hUsed.append_right _)
  generalize hPost : (s.setQueue (s.ctx.queue.postAll tasks front)).setReader r { reader with
    idTasks := getListId tasks
    newIds := reader.newIds.filter (· ∉ getListId tasks) } = s'
  have hNewIds : s.newIds.Perm (getListId tasks ++ s'.newIds) := by
    rw [← hPost]
    exact flatMap_set_given hReader hSplit
  have hWaitingIds : (getListId s'.waiting).Perm (getListId tasks ++ getListId s.waiting) := by
    rw [← hPost]
    have hPerm := hWaiting.flatMap_right ServerTask.ids
    rwa [flatMap_append] at hPerm
  have hHeld : s'.heldIds.Perm (getListId tasks ++ s.heldIds) := by
    have hRest := hWaitingIds.append_right (getListId s.hand.toList ++ s.ctx.workIds)
    rw [append_assoc] at hRest
    rw [← hPost] at hRest ⊢
    exact hRest
  have hAll : (s'.newIds ++ s'.heldIds).Perm (s.newIds ++ s.heldIds) := by
    refine (hHeld.append_left s'.newIds).trans ((perm_append_comm_assoc _ _ _).trans ?_)
    rw [← append_assoc]
    exact hNewIds.symm.append_right s.heldIds
  have hNewSub : ∀ id ∈ s'.newIds, id ∈ s.newIds := fun id hId =>
    hNewIds.symm.subset (mem_append_right _ hId)
  have hListApart : ∀ id ∈ getListId tasks, id ∉ s'.newIds ∧ id ∉ s.heldIds := by
    intro id hId
    have hNodup := hNewIds.nodup_iff.mp (nodup_append.mp h.nodup).1
    exact ⟨fun hMem => (nodup_append.mp hNodup).2.2 id hId id hMem rfl, fun hMem =>
      (nodup_append.mp h.nodup).2.2 id (hNewOf id hId) id hMem rfl⟩
  have hPending : ∀ task ∈ s'.pending, task ∈ tasks ∨ task ∈ s.pending := by
    intro task hTask
    rw [← hPost] at hTask
    rcases mem_append.mp hTask with hWait | hInHand
    · rcases mem_append.mp (hWaiting.subset hWait) with hNew | hOld
      · exact Or.inl hNew
      · exact Or.inr (mem_append_left _ hOld)
    · exact Or.inr (mem_append_right _ hInHand)
  have hNext' : s'.ctx.queue.nextId = s.ctx.queue.nextId := by
    rw [← hPost]
    exact hNext
  have hProcessed : s'.processedCancels = s.processedCancels := by
    rw [← hPost]
    rfl
  have hTarget : ∀ t, s'.IsTarget t → s.IsTarget t := by
    rintro t (hDone | ⟨task, hMem, hType, rfl⟩)
    · exact Or.inl (hProcessed ▸ hDone)
    rcases hPending task hMem with hNew | hOld
    · exact absurd hType (hTypes task hNew)
    · exact Or.inr ⟨task, hOld, hType, rfl⟩
  have hReaders : ∀ other ∈ s'.readers,
      other ∈ s.readers ∨ other.idTasks = getListId tasks := by
    intro other hOther
    rw [← hPost] at hOther
    rcases mem_or_eq_of_mem_set hOther with hOld | rfl
    · exact Or.inl hOld
    · exact Or.inr rfl
  refine ⟨?_, hAll.nodup_iff.mpr h.nodup, hNext' ▸ h.nextId, ?_, ?_, ?_, ?_, ?_, ?_⟩
  · rw [← hPost]
    exact h.works
  · intro id hMem
    rw [hNext']
    exact h.issued id (hAll.subset hMem)
  · intro t ht
    rw [hNext']
    exact h.target_issued t (hTarget t ht)
  · intro t ht
    obtain ⟨hNotNew, hNotWaiting⟩ := h.target_apart t (hTarget t ht)
    refine ⟨fun hMem => hNotNew (hNewSub t hMem), fun hMem => ?_⟩
    rcases mem_append.mp (hWaitingIds.subset hMem) with hList | hOld
    · exact hNotNew (hNewOf t hList)
    · exact hNotWaiting hOld
  · intro t ht hMem
    rw [hProcessed] at ht
    rcases mem_append.mp (hHeld.subset hMem) with hList | hOld
    · exact (h.target_apart t (Or.inl ht)).1 (hNewOf t hList)
    · exact h.gone t ht hOld
  · intro other hOther id hId
    rw [hNext']
    rcases hReaders other hOther with hOld | hNew
    · obtain ⟨hPos, hLt, hNotNew⟩ := h.owned other hOld id hId
      exact ⟨hPos, hLt, fun hMem => hNotNew (hNewSub id hMem)⟩
    rw [hNew] at hId
    obtain ⟨hPos, hLt⟩ := h.issued id (mem_append_left _ (hNewOf id hId))
    exact ⟨hPos, hLt, (hListApart id hId).1⟩
  intro other hOther task hTask id hId hOwned
  rcases hReaders other hOther with hOld | hNew
  · rcases hPending task hTask with hAdded | hBefore
    · have hList := mem_getListId.mpr ⟨task, hAdded, hId⟩
      exact absurd (hNewOf id hList) (h.owned other hOld id hOwned).2.2
    · exact h.whole other hOld task hBefore id hId hOwned
  rw [hNew] at hOwned ⊢
  rcases hPending task hTask with hAdded | hBefore
  · exact mem_getListId.mpr ⟨task, hAdded, mem_cons_self⟩
  · have hHolds := mem_heldIds.mpr (Or.inl (mem_getListId.mpr ⟨task, hBefore, hId⟩))
    exact absurd hHolds (hListApart id hOwned).2

theorem Custody.stopped {order : List Int} (hReader : s.readers[r]? = some reader)
    (hMay : MayStop reader order) :
    ((s.setQueue (s.ctx.queue.postAll (order.map cancelTask) true)).setReader r
      { reader with cancelled := true }).Custody := by
  have hMemReader := mem_of_getElem? hReader
  have hOrder : ∀ id ∈ order, 0 ≤ id ∧ id < s.ctx.queue.nextId ∧ id ∉ s.newIds := fun id hId =>
    h.owned reader hMemReader id (hMay.2.2.subset hId)
  obtain ⟨hNext, tasks, hTasks, hWaiting⟩ :=
    s.ctx.queue.waiting_postAll_cancel fun id hId => (hOrder id hId).2.1
  have hNewIds : ((s.readers.set r { reader with cancelled := true }).flatMap
      QueueReader.newIds).Perm ([] ++ s.newIds) :=
    flatMap_set_received hReader (List.Perm.refl _)
  refine h.added [] tasks (filter_sublist (l := s.waiting)) hWaiting rfl h.works rfl rfl ?_ ?_
    hNewIds hTasks.children ?_ hTasks.nodup ?_
  · change s.ctx.queue.nextId ≤ (s.ctx.queue.postAll (order.map cancelTask) true).nextId
    omega
  · intro other hOther
    rcases mem_or_eq_of_mem_set hOther with hOld | rfl
    · exact Or.inr ⟨other, hOld, rfl⟩
    · exact Or.inr ⟨reader, hMemReader, rfl⟩
  · intro id hMem
    obtain ⟨task, hTask, rfl⟩ := mem_map.mp hMem
    have hLt := hTasks.id_lt task hTask
    refine ⟨hTasks.id_le task hTask, ?_⟩
    change task.id < (s.ctx.queue.postAll (order.map cancelTask) true).nextId
    omega
  intro task hTask _
  have hTarget := hTasks.idTarget task hTask
  refine ⟨(hOrder _ hTarget).2.1, (hOrder _ hTarget).2.2, fun hMem => ?_⟩
  -- a task that has the target among its ids belongs to the reader, and has been removed
  obtain ⟨other, hOther, hId⟩ := mem_getListId.mp hMem
  obtain ⟨hWait, hKept⟩ := mem_filter.mp hOther
  have hOwn := h.whole reader hMemReader other (mem_append_left _ hWait) _ hId
    (hMay.2.2.subset hTarget)
  exact of_decide_eq_true hKept (hMay.2.2.symm.subset hOwn)

/-- The condition on the steps: a task that has to wait has no cancel task in the queues.  The
cleanup of a cancel task looks through the queues only, so a task in the worker's hands is missed
when it comes, and would be deferred behind it. -/
def Findable : ServerOp χ μ → ServerSystem χ μ → Prop
  | .process b, s => ∀ task, s.hand = some task → Waits b s.ctx task →
      ∀ other ∈ s.waiting, other.type = .cancel → other.idTarget ∉ task.ids
  | _, _ => True

variable {task : ServerTask χ}

omit h in
theorem handIds_eq (hHand : s.hand = some task) : getListId s.hand.toList = task.ids := by
  rw [hHand]
  exact append_nil _

variable {ctx' : ServerContext χ μ}

theorem Custody.moved {processed : List Int}
    (hMoved : Moved (getListId s.hand.toList) s.ctx [] ctx')
    (hGone : ∀ t ∈ processed, t ∈ s.processedCancels ∨ s.IsTarget t ∧ t ∉ ctx'.holds []) :
    ({ s with ctx := ctx', hand := none, processedCancels := processed } :
      ServerSystem χ μ).Custody := by
  refine h.worked rfl hMoved.nextId hMoved.works hMoved.held (fun task hTask => ?_)
    (fun t ht hMem => ?_) hGone
  · have hWait : task ∈ ctx'.queue.waiting := by
      rcases mem_append.mp hTask with hWait | hNone
      · exact hWait
      · cases hNone
    exact ⟨task, mem_append_left _ (hMoved.waiting.subset hWait), rfl, rfl, rfl⟩
  · exact (h.target_apart t ht).2 ((hMoved.waiting.flatMap_right _).subset hMem)

omit h in
/-- What waits and what is on the slots, when the hands of the worker are empty. -/
theorem Custody.dropped {ids : List Int} {ctx : ServerContext χ μ} (hWorks : ctx.WorksOnTasks) :
    Moved ids ctx [] ctx :=
  (Moved.refl hWorks).update (List.Perm.refl _) rfl hWorks
    (sublist_append_right _ _).subperm

theorem Custody.deferred (task' : ServerTask χ)
    (hHand : s.hand = some task) (hIds : task.ids = task'.ids) (hType : task.type = task'.type)
    (hTarget : task.idTarget = task'.idTarget) (hNotCancel : task.type ≠ .cancel)
    (hFree : ∀ other ∈ s.waiting, other.type = .cancel → other.idTarget ∉ task.ids)
    (hQueue : ctx'.queue = s.ctx.queue.defer task') (hWork : ctx'.work = s.ctx.work) :
    ({ s with ctx := ctx', hand := none } : ServerSystem χ μ).Custody := by
  have hWaiting : ctx'.queue.waiting = s.waiting ++ [task'] := by
    rw [hQueue]
    exact (append_assoc _ _ _).symm
  have hWaitingIds : getListId ctx'.queue.waiting = getListId s.waiting ++ task.ids := by
    rw [hWaiting, hIds]
    unfold getListId
    rw [flatMap_append, flatMap_singleton]
  have hWorkIds : ctx'.workIds = s.ctx.workIds := by
    unfold workIds
    rw [hWork]
  have hWorks : ctx'.WorksOnTasks := by
    unfold WorksOnTasks
    rw [hWork]
    exact h.works
  refine h.worked rfl (by rw [hQueue]; rfl) hWorks ?_ (fun other hOther => ?_)
    (fun t ht hMem => ?_) fun _ => Or.inl
  · change (ctx'.holds []).Subperm (s.ctx.holds _)
    unfold holds
    rw [hWaitingIds, hWorkIds, handIds_eq hHand, append_assoc]
    exact List.Subperm.refl _
  · have hWait : other ∈ ctx'.queue.waiting := by
      rcases mem_append.mp hOther with hWait | hNone
      · exact hWait
      · cases hNone
    rw [hWaiting] at hWait
    rcases mem_append.mp hWait with hOld | hBack
    · exact ⟨other, mem_append_left _ hOld, rfl, rfl, rfl⟩
    rw [mem_singleton.mp hBack]
    refine ⟨task, mem_append_right _ ?_, hIds, hType, hTarget⟩
    rw [hHand]
    exact mem_singleton_self task
  change t ∈ getListId ctx'.queue.waiting at hMem
  rw [hWaitingIds] at hMem
  rcases mem_append.mp hMem with hOld | hBack
  · exact (h.target_apart t ht).2 hOld
  rcases ht with hDone | ⟨other, hOther, hCancel, rfl⟩
  · refine h.gone t hDone (mem_heldIds.mpr (Or.inl (mem_getListId.mpr ⟨task, ?_, hBack⟩)))
    refine mem_append_right _ ?_
    rw [hHand]
    exact mem_singleton_self task
  rcases mem_append.mp hOther with hWait | hInHand
  · exact hFree other hWait hCancel hBack
  rw [hHand] at hInHand
  rw [mem_singleton.mp hInHand] at hCancel
  exact hNotCancel hCancel

theorem Custody.processed {b : Backend χ μ} (hHand : s.hand = some task)
    (hFind : Findable (.process b) s)
    (hOk : processSingleTask b s.ctx task = .ok ctx') :
    ({ s with
      ctx := ctx'
      hand := none
      processedCancels :=
        if task.type = .cancel then task.idTarget :: s.processedCancels
        else s.processedCancels } : ServerSystem χ μ).Custody := by
  rcases processSingleTask_cases hOk with
    ⟨hWaits, hNotCancel, hWork, tokens, cliPrompt, hQueue⟩ |
    ⟨hOnSlot, task', c, i, childSlots, hTokens, hBefore, hPlaces, hAfter⟩ | ⟨hCancel, rfl⟩ |
    ⟨hNotCancel, hSame, -⟩
  · rw [if_neg hNotCancel]
    exact h.deferred { task with tokens, cliPrompt } hHand rfl rfl rfl hNotCancel
      (hFind task hHand hWaits) hQueue hWork
  · have hNotCancel : task.type ≠ .cancel := by
      intro hCancel
      rw [hCancel] at hOnSlot
      exact absurd hOnSlot (by decide)
    rw [if_neg hNotCancel]
    obtain ⟨tokens, cliPrompt, rfl⟩ := tokenizeCliInput_eq hTokens
    have hStart : ∀ ids : List Int, ids.Perm task.ids →
        Moved (getListId s.hand.toList) s.ctx ids c := by
      intro ids hPerm
      rw [handIds_eq hHand]
      exact ((Moved.refl h.works).update (List.Perm.refl _) rfl h.works
        (hPerm.append_right _).subperm).same hBefore
    exact h.moved (((moved_kept b _ s.ctx).launchOn hPlaces hStart).same hAfter) fun _ => Or.inl
  · rw [if_pos hCancel]
    have hTarget : s.IsTarget task.idTarget := by
      refine Or.inr ⟨task, mem_append_right _ ?_, hCancel, rfl⟩
      rw [hHand]
      exact mem_singleton_self task
    have hMoved : Moved (getListId s.hand.toList) s.ctx []
        (processCancel b s.ctx task.idTarget) := processCancel_moved (Custody.dropped h.works)
    have hWorkNodup : s.ctx.workIds.Nodup := by
      refine List.Nodup.sublist ?_ (nodup_append.mp h.nodup).2.1
      exact (sublist_append_right _ _).trans (sublist_append_right _ _)
    refine h.moved hMoved fun t ht => ?_
    rcases mem_cons.mp ht with rfl | hOld
    · refine Or.inr ⟨hTarget, fun hMem => ?_⟩
      rcases mem_append.mp hMem with hWait | hWork
      · exact (h.target_apart _ hTarget).2 ((hMoved.waiting.flatMap_right _).subset hWait)
      · exact processCancel_workIds h.works hWorkNodup hWork
    · exact Or.inl hOld
  · rw [if_neg hNotCancel]
    exact h.moved ((Custody.dropped h.works).same hSame) fun _ => Or.inl

theorem Custody.idle (hHand : s.hand = none)
    (hMoved : Moved [] s.ctx [] ctx') : ({ s with ctx := ctx' } : ServerSystem χ μ).Custody := by
  have hFree : ({ s with ctx := ctx', hand := none } : ServerSystem χ μ).Custody :=
    h.moved (by rw [hHand]; exact hMoved) fun _ => Or.inl
  rw [← hHand] at hFree
  exact hFree

theorem Custody.step {op : ServerOp χ μ} (hOp : Findable op s)
    (hStep : step op s s') : s'.Custody := by
  unfold ServerSystem.step exec at hStep
  cases op with
  | newReader =>
    cases hStep
    refine h.added [] [] (List.Sublist.refl _) (List.Perm.refl _) rfl h.works rfl rfl
      (Int.le_refl _) ?_ ?_ (fun _ hTask => by cases hTask) (fun _ hId => by cases hId) nodup_nil
      fun _ hTask => by cases hTask
    · intro reader hReader
      rcases mem_append.mp hReader with hOld | hNew
      · exact Or.inr ⟨reader, hOld, rfl⟩
      · rw [mem_singleton.mp hNew]
        exact Or.inl rfl
    unfold newIds
    rw [flatMap_append, nil_append]
    exact List.Perm.of_eq (append_nil _)
  | getNewId r =>
    obtain ⟨reader, hReader, rfl⟩ := Option.map_eq_some_iff.mp hStep
    have hMemReader := mem_of_getElem? hReader
    have hNewIds : ((s.readers.set r
        { reader with newIds := s.ctx.queue.nextId :: reader.newIds }).flatMap
        QueueReader.newIds).Perm ([s.ctx.queue.nextId] ++ s.newIds) :=
      flatMap_set_received hReader (List.Perm.refl _)
    refine h.added [s.ctx.queue.nextId] [] (List.Sublist.refl _) (List.Perm.refl _) rfl h.works rfl
      rfl (Int.le_add_one (Int.le_refl _)) ?_ hNewIds (fun _ hTask => by cases hTask) ?_
      (nodup_singleton _) fun _ hTask => by cases hTask
    · intro other hOther
      rcases mem_or_eq_of_mem_set hOther with hOld | rfl
      · exact Or.inr ⟨other, hOld, rfl⟩
      · exact Or.inr ⟨reader, hMemReader, rfl⟩
    intro id hMem
    rw [mem_singleton.mp hMem]
    exact ⟨Int.le_refl _, Int.lt_succ _⟩
  | post r tasks front =>
    dsimp only at hStep
    split at hStep
    · cases hStep
    rename_i reader hReader
    split at hStep
    · rename_i hMay
      cases hStep
      exact h.posted hReader hMay
    · cases hStep
  | stop r order =>
    dsimp only at hStep
    split at hStep
    · cases hStep
    rename_i reader hReader
    split at hStep
    · rename_i hMay
      cases hStep
      exact h.stopped hReader hMay
    · cases hStep
  | pop =>
    dsimp only at hStep
    split at hStep
    · rename_i task rest hHand hQueue
      cases hStep
      have hSame : s.waiting.Perm
          (({ s.ctx.queue with queueTasks := rest } : ServerQueue χ).waiting ++ [task]) := by
        unfold waiting ServerQueue.waiting
        rw [hQueue]
        exact (perm_append_singleton _ _).symm
      have hPending : s.pending = s.waiting := by
        unfold pending
        rw [hHand]
        exact append_nil _
      refine h.worked rfl rfl h.works ?_ (fun other hOther => ?_) (fun t ht hMem => ?_)
        fun _ => Or.inl
      · have hIds := hSame.symm.flatMap_right ServerTask.ids
        rw [flatMap_append] at hIds
        change (_ ++ (_ ++ s.ctx.workIds)).Subperm (_ ++ (getListId s.hand.toList ++ s.ctx.workIds))
        rw [hHand, ← append_assoc, ← append_assoc]
        refine (List.Perm.append_right _ ?_).subperm
        exact hIds.trans (List.Perm.of_eq (append_nil _).symm)
      · refine ⟨other, ?_, rfl, rfl, rfl⟩
        rw [hPending]
        exact hSame.symm.subset hOther
      obtain ⟨other, hOther, hId⟩ := mem_getListId.mp hMem
      exact (h.target_apart t ht).2 (mem_getListId.mpr
        ⟨other, hSame.symm.subset (mem_append_left _ hOther), hId⟩)
    · cases hStep
  | process b =>
    dsimp only at hStep
    split at hStep
    · cases hStep
    rename_i task hHand
    split at hStep
    · cases hStep
    rename_i ctx hOk
    cases hStep
    exact h.processed hHand hOp hOk
  | release b i =>
    dsimp only at hStep
    split at hStep
    · rename_i hHand
      cases hStep
      exact h.idle (Option.isNone_iff_eq_none.mp hHand)
        ((moved_kept b [] s.ctx).releaseAt [] (Moved.refl h.works))
    · cases hStep
  | nextResponse =>
    dsimp only at hStep
    split at hStep
    · cases hStep
      refine h.added [] [nextResponseTask s.ctx.queue.nextId] (List.Sublist.refl _)
        (ServerQueue.waiting_push_perm _ _ false) rfl h.works rfl rfl
        (Int.le_add_one (Int.le_refl _)) (fun reader hReader => Or.inr ⟨reader, hReader, rfl⟩)
        (List.Perm.refl _) ?_ ?_ (nodup_singleton _) ?_
      · intro task hTask
        rw [mem_singleton.mp hTask]
        rfl
      · intro id hMem
        rw [mem_singleton.mp hMem]
        exact ⟨Int.le_refl _, Int.lt_succ _⟩
      intro task hTask hType
      rw [mem_singleton.mp hTask] at hType
      cases hType
    · cases hStep
  | work i prompt memory state =>
    dsimp only at hStep
    split at hStep
    · rename_i slot hHand hSlot
      cases hStep
      exact h.idle hHand
        ((Moved.refl h.works).same (worked_sameWorkload hSlot prompt memory state))
    · cases hStep

omit h

theorem IsNew.custody (h : s.IsNew) : s.Custody := by
  have hNewIds : s.newIds = [] := by
    unfold newIds
    rw [h.readers]
    rfl
  have hWorkIds : s.ctx.workIds = [] :=
    flatMap_eq_nil_iff.mpr fun w hw => by rw [h.idle w hw]; rfl
  have hHeld : s.heldIds = [] := by
    unfold heldIds holds
    rw [h.queue, h.hand, hWorkIds]
    rfl
  have hPending : s.pending = [] := by
    unfold pending waiting
    rw [h.queue, h.hand]
    rfl
  have hTarget : ∀ t, ¬s.IsTarget t := by
    rintro t (hDone | ⟨task, hTask, -⟩)
    · rw [h.processedCancels] at hDone
      cases hDone
    · rw [hPending] at hTask
      cases hTask
  refine ⟨fun w hw => ?_, ?_, ?_, ?_, fun t ht => absurd ht (hTarget t),
    fun t ht => absurd ht (hTarget t), fun t ht => absurd (Or.inl ht) (hTarget t), ?_, ?_⟩
  · rw [h.idle w hw]
    rfl
  · rw [hNewIds, hHeld]
    exact nodup_nil
  · rw [h.queue]
  · rw [hNewIds, hHeld]
    exact fun id hId => by cases hId
  · rw [h.readers]
    exact fun reader hReader => by cases hReader
  · rw [h.readers]
    exact fun reader hReader => by cases hReader

/-- In a run that puts no cancelled task back, a task whose cancel task has been processed is on no
slot and comes to none. -/
theorem run_cancelled (hRun : Run IsNew step Findable s) {t : Int}
    (ht : t ∈ s.processedCancels) :
    (∀ slot ∈ s.ctx.slots, ∀ task, slot.task = some task → task.id ≠ t) ∧
      ∀ task ∈ s.pending, t ∉ task.ids := by
  have hCustody : s.Custody :=
    hRun.invariant (fun _ hNew => hNew.custody) fun _ _ _ h hOp hStep => h.step hOp hStep
  have hGone := hCustody.gone t ht
  refine ⟨fun slot hSlot task hTask hId => hGone (mem_heldIds.mpr (Or.inr ?_)),
    fun task hTask hId => hGone (mem_heldIds.mpr (Or.inl (mem_getListId.mpr ⟨task, hTask, hId⟩)))⟩
  refine List.mem_flatMap.mpr ⟨_, List.mem_map_of_mem hSlot, ?_⟩
  rw [hTask, ← hId]
  exact List.mem_singleton_self task.id

/-! ## A stop while the task is in the hands of the worker -/

/-- A request is posted and cancelled, and the worker has the cancel task. -/
def cancelledEarly : List (ServerOp UInt8 (List UInt8)) :=
  request 0 (completion 0 0 [1, 2]) ++ [.stop 0 [0], .pop]

/-- The cleanup has removed the request from the queue, and no slot works for it. -/
theorem cancelledEarly_cancelled :
    ∃ s : ServerSystem UInt8 (List UInt8), Run IsNew step Findable s ∧ 0 ∈ s.processedCancels ∧
      (∀ slot ∈ s.ctx.slots, ∀ task, slot.task = some task → task.id ≠ 0) ∧
        ∀ task ∈ s.pending, 0 ∉ task.ids := by
  have hExec : (cancelledEarly.foldlM exec oneSlot).map (fun s =>
      (s.hand, (s.exec (.process bytesBackend)).map processedCancels)) =
      some (some { cancelTask 0 with id := 1 }, some [0]) := by
    decide
  obtain ⟨s, hTaken, hEnd⟩ := Option.map_eq_some_iff.mp hExec
  simp only [Prod.mk.injEq] at hEnd
  obtain ⟨hHand, hNext⟩ := hEnd
  obtain ⟨s', hProcess, hDone⟩ := Option.map_eq_some_iff.mp hNext
  have hRun : Run IsNew step Findable s := by
    refine (Run.start oneSlot_isNew).execAll (fun op hOp c => ?_) hTaken
    simp only [cancelledEarly, request, List.cons_append, List.nil_append, List.mem_cons,
      List.not_mem_nil, or_false] at hOp
    rcases hOp with rfl | rfl | rfl | rfl | rfl <;> trivial
  have hOp : Findable (.process bytesBackend) s := by
    intro task hSome hWaits
    rw [hHand] at hSome
    rw [← Option.some.inj hSome] at hWaits
    rcases hWaits with ⟨hOnSlot, -⟩ | ⟨hAction, -⟩
    · exact absurd hOnSlot (by decide)
    · exact absurd hAction (by decide)
  have hLast : Run IsNew step Findable s' :=
    .step (ServerOp.process bytesBackend) hRun hOp hProcess
  have hMem : (0 : Int) ∈ s'.processedCancels := by
    rw [hDone]
    exact List.mem_singleton_self 0
  exact ⟨s', hLast, hMem, run_cancelled hLast hMem⟩

/-- The worker takes a second request, its reader stops, and the request is deferred before its
cancel task is processed. -/
def cancelledLate : List (ServerOp UInt8 (List UInt8)) :=
  request 0 (completion 0 0 [1, 2]) ++ serve ++ request 1 (completion 1 0 [3, 4]) ++
    [.pop, .stop 1 [1], .process bytesBackend] ++ serve ++ [.release bytesBackend 0] ++ serve

/-- The cancel task for request 1 has been processed, and request 1 is at work. -/
theorem cancelledLate_runs :
    ∃ s : ServerSystem UInt8 (List UInt8), Run IsNew step (fun _ _ => True) s ∧
      s.processedCancels = [1] ∧
      s.ctx.slots.map (fun slot => (slot.isProcessing, slot.task.map SlotTask.id)) =
        [(true, some 1)] := by
  have hRun : (cancelledLate.foldlM exec oneSlot).map (fun s =>
      (s.processedCancels, s.ctx.slots.map fun slot =>
        (slot.isProcessing, slot.task.map SlotTask.id))) = some ([1], [(true, some 1)]) := by
    decide
  obtain ⟨s, hExec, hEnd⟩ := Option.map_eq_some_iff.mp hRun
  simp only [Prod.mk.injEq] at hEnd
  exact ⟨s, (Run.start oneSlot_isNew).execAll (fun _ _ _ => trivial) hExec, hEnd.1, hEnd.2⟩

end ServerSystem

end Beellama.Ports
