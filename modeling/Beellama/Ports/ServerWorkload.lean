import Beellama.Ports.ServerSlotsFrame

/-!
# What a task does to the queues and the work of the slots

`process_single_task` sees the two queues and the tasks of the slots through four
moves: it defers the task, puts it or one of its children on a slot, releases a slot, or
leaves them alone.  Whatever these moves keep is kept by the whole function.
-/

namespace Beellama.Ports

open Beellama.Verified List Option

namespace ServerContext

variable {χ μ : Type} {b : Backend χ μ} {ctx ctx' c : ServerContext χ μ}
  {task : ServerTask χ} {slot : Slot χ μ} {i : Nat}

/-- The tasks of the slots, with whether they are at work. -/
def work (ctx : ServerContext χ μ) : List (Option (SlotTask χ) × Bool) :=
  ctx.slots.map fun slot => (slot.task, slot.isProcessing)

/-- Some slot is at work. -/
def Busy (ctx : ServerContext χ μ) : Prop := ∃ slot ∈ ctx.slots, slot.isProcessing = true

/-- The queues and the work are the same. -/
structure SameWorkload (ctx ctx' : ServerContext χ μ) : Prop where
  queue : ctx'.queue = ctx.queue
  work : ctx'.work = ctx.work

theorem SameWorkload.refl (ctx : ServerContext χ μ) : SameWorkload ctx ctx := ⟨rfl, rfl⟩

theorem SameWorkload.trans (h : SameWorkload ctx c) (h' : SameWorkload c ctx') :
    SameWorkload ctx ctx' :=
  ⟨h'.queue.trans h.queue, h'.work.trans h.work⟩

theorem busy_iff : ctx.Busy ↔ ∃ w ∈ ctx.work, w.2 = true := by
  constructor
  · rintro ⟨slot, hMem, hBusy⟩
    exact ⟨_, mem_map_of_mem hMem, hBusy⟩
  rintro ⟨w, hMem, hBusy⟩
  obtain ⟨slot, hSlot, rfl⟩ := mem_map.mp hMem
  exact ⟨slot, hSlot, hBusy⟩

theorem SameWorkload.busy_iff (h : SameWorkload ctx ctx') : ctx'.Busy ↔ ctx.Busy := by
  rw [ServerContext.busy_iff, ServerContext.busy_iff, h.work]

theorem work_length (ctx : ServerContext χ μ) : ctx.work.length = ctx.slots.length :=
  length_map _

theorem work_getElem? (ctx : ServerContext χ μ) (i : Nat) :
    ctx.work[i]? = ctx.slots[i]?.map fun slot => (slot.task, slot.isProcessing) :=
  getElem?_map

theorem work_setSlot (ctx : ServerContext χ μ) (i : Nat) (slot : Slot χ μ) :
    (ctx.setSlot i slot).work = ctx.work.set i (slot.task, slot.isProcessing) :=
  map_set

theorem sameWorkload_setSlot {slot' : Slot χ μ} (hSlot : ctx.slots[i]? = some slot)
    (hTask : slot'.task = slot.task) (hBusy : slot'.isProcessing = slot.isProcessing) :
    SameWorkload ctx (ctx.setSlot i slot') := by
  refine ⟨rfl, ?_⟩
  have hAt : ctx.work[i]? = some (slot.task, slot.isProcessing) := by
    rw [work_getElem?, hSlot]
    rfl
  rw [work_setSlot, hTask, hBusy]
  obtain ⟨hLt', hEq⟩ := List.getElem?_eq_some_iff.mp hAt
  rw [← hEq, set_getElem_self]

theorem SameWorkload.of_eq {c' : ServerContext χ μ} (h : SameWorkload ctx c)
    (hQueue : c'.queue = c.queue) (hSlots : c'.slots = c.slots) : SameWorkload ctx c' := by
  refine h.trans ⟨hQueue, ?_⟩
  unfold ServerContext.work
  rw [hSlots]

/-! ## The choice of the slots -/

theorem getAvailableSlot_sameWorkload {ret : Option Nat}
    (h : getAvailableSlot b ctx task = .ok (ret, ctx')) : SameWorkload ctx ctx' := by
  obtain ⟨-, hSame | ⟨i, slot, prompt, memory, cache, cache', -, hSlot, -, -, -, hAfter⟩⟩ :=
    getAvailableSlot_cases h
  · rw [hSame]
    exact SameWorkload.refl ctx
  rw [hAfter]
  refine (sameWorkload_setSlot hSlot ?_ ?_).of_eq rfl rfl
  · rfl
  · rfl

variable {l : List (Slot χ μ × Nat)}

theorem foldl_lruStep_none {acc : Option (Nat × Int)}
    (h : l.foldl lruStep acc = none) : acc = none ∧ ∀ e ∈ l, e.1.isProcessing = true := by
  induction l generalizing acc with
  | nil => exact ⟨h, fun e he => by cases he⟩
  | cons e rest ih =>
    obtain ⟨hStep, hRest⟩ := ih h
    unfold lruStep at hStep
    dsimp only at hStep
    split at hStep
    · rename_i hBusy
      exact ⟨hStep, forall_mem_cons.mpr ⟨hBusy, hRest⟩⟩
    split at hStep
    · cases hStep
    · split at hStep <;> cases hStep

theorem chooseSlot_none (h : (chooseSlot b ctx task).1 = none) :
    ∀ slot ∈ ctx.slots, slot.isProcessing = true := by
  unfold chooseSlot at h
  dsimp only at h
  split at h
  · cases h
  split at h
  · cases h
  rename_i hLru
  intro slot hSlot
  obtain ⟨i, hi, hEq⟩ := getElem_of_mem hSlot
  refine (foldl_lruStep_none hLru).2 (slot, i) (mem_zipIdx_iff_getElem?.mpr ?_)
  rw [getElem?_eq_getElem hi, hEq]

/-- The free slots. -/
def freeSlots (ctx : ServerContext χ μ) : Nat := ctx.slots.countP fun slot => !slot.isProcessing

variable {nSlotsNeeded exclude : Nat}

/-- When the loop does not find enough slots, it has seen all of them. -/
theorem freeSlotsFrom_short {acc : List Nat}
    (h : (freeSlotsFrom nSlotsNeeded exclude acc l).length < nSlotsNeeded) :
    (freeSlotsFrom nSlotsNeeded exclude acc l).length =
      acc.length + (l.filter (·.2 ≠ exclude)).countP fun e => !e.1.isProcessing := by
  induction l generalizing acc with
  | nil => rfl
  | cons e rest ih =>
    have hStep : freeSlotsFrom nSlotsNeeded exclude acc (e :: rest) =
        freeSlotsFrom nSlotsNeeded exclude
          (if !e.1.isProcessing ∧ e.2 ≠ exclude then acc ++ [e.2] else acc) rest := by
      unfold freeSlotsFrom at h
      conv_lhs => unfold freeSlotsFrom
      dsimp only at h ⊢
      generalize (if !e.1.isProcessing ∧ e.2 ≠ exclude then acc ++ [e.2] else acc) = next at h ⊢
      split at h
      · rename_i hEnough
        exact absurd h (not_lt.mpr hEnough)
      · rename_i hMore
        exact if_neg hMore
    rw [hStep] at h ⊢
    rw [ih h]
    by_cases hHere : e.2 ≠ exclude
    · rw [filter_cons, if_pos (decide_eq_true hHere), countP_cons]
      by_cases hFree : (!e.1.isProcessing) = true
      · rw [if_pos ⟨hFree, hHere⟩, if_pos hFree, length_append, length_singleton]
        omega
      · rw [if_neg fun h => hFree h.1, if_neg hFree]
        rfl
    · rw [filter_cons, if_neg fun h => hHere (of_decide_eq_true h), if_neg fun h => hHere h.2]

theorem countP_index_le (l : List (Slot χ μ)) (i : Nat) :
    (l.zipIdx.filter fun e => !decide (e.2 ≠ i)).length ≤ 1 := by
  rw [← countP_eq_length_filter]
  have hCount : l.zipIdx.countP (fun e => !decide (e.2 ≠ i)) =
      (l.zipIdx.map Prod.snd).count i := by
    rw [count, countP_map]
    refine countP_congr fun e _ => ?_
    simp
  rw [hCount, zipIdx_map_snd]
  exact nodup_iff_count_le_one.mp (nodup_range' _) i

/-- All free slots but the chosen one are offered, when they are not enough. -/
theorem getFreeSlots_short (h : (ctx.getFreeSlots nSlotsNeeded i).length < nSlotsNeeded) :
    ctx.freeSlots ≤ (ctx.getFreeSlots nSlotsNeeded i).length + 1 := by
  have hAll : ctx.freeSlots = ctx.slots.zipIdx.countP fun e => !e.1.isProcessing := by
    unfold freeSlots
    conv_lhs => rw [← zipIdx_map_fst 0 ctx.slots, countP_map]
    rfl
  have hOthers := freeSlotsFrom_short h
  have hOne := countP_index_le ctx.slots i
  have hSplit := countP_eq_countP_filter_add ctx.slots.zipIdx
    (fun e => !e.1.isProcessing) fun e => decide (e.2 ≠ i)
  have hChosen := countP_le_length (p := fun e : Slot χ μ × Nat => !e.1.isProcessing)
    (l := ctx.slots.zipIdx.filter fun e => !decide (e.2 ≠ i))
  unfold getFreeSlots
  omega

theorem getFreeSlots_lt {j : Nat}
    (h : j ∈ ctx.getFreeSlots nSlotsNeeded exclude) : j < ctx.slots.length := by
  have hFrom : ∀ (acc : List Nat) (l : List (Slot χ μ × Nat)), (∀ k ∈ acc, k < ctx.slots.length) →
      (∀ e ∈ l, e.2 < ctx.slots.length) →
      ∀ k ∈ freeSlotsFrom nSlotsNeeded exclude acc l, k < ctx.slots.length := by
    intro acc l hAcc hList
    induction l generalizing acc with
    | nil => exact hAcc
    | cons e rest ih =>
      have hNext : ∀ k ∈ (if !e.1.isProcessing ∧ e.2 ≠ exclude then acc ++ [e.2] else acc),
          k < ctx.slots.length := by
        split
        · exact forall_mem_append.mpr
            ⟨hAcc, forall_mem_singleton.mpr (hList e (by simp))⟩
        · exact hAcc
      unfold freeSlotsFrom
      dsimp only
      generalize (if !e.1.isProcessing ∧ e.2 ≠ exclude then acc ++ [e.2] else acc) = next
        at hNext ⊢
      split
      · exact hNext
      · exact ih next hNext fun x hx => hList x (mem_cons_of_mem _ hx)
  refine hFrom [] ctx.slots.zipIdx (fun k hk => by cases hk) (fun e he => ?_) j h
  exact (List.getElem?_eq_some_iff.mp (List.mem_zipIdx_iff_getElem?.mp he)).1

/-! ## Launch and release -/

/-- A task that is put on a slot. -/
structure Launches (ctx : ServerContext χ μ) (work : SlotTask χ) (ctx' : ServerContext χ μ) :
    Prop where
  queue : ctx'.queue = ctx.queue
  work : ∃ i < ctx.slots.length, ctx'.work = ctx.work.set i (some work, true)

/-- A slot that is released. -/
structure Releases (ctx : ServerContext χ μ) (i : Nat) (ctx' : ServerContext χ μ) : Prop where
  queue : ctx'.queue = ctx.queue.popDeferredTask i
  busy : ∃ task, ctx.work[i]? = some (task, true)
  work : ctx'.work = ctx.work.set i (none, false)

theorem launchSlotWithTask_cases (b : Backend χ μ) (work : SlotTask χ)
    (hLt : i < ctx.slots.length) :
    (launchError b work = none ∧ (launchSlotWithTask b ctx i work).1 = true ∧
      Launches ctx work (launchSlotWithTask b ctx i work).2) ∨
    (launchError b work ≠ none ∧ (launchSlotWithTask b ctx i work).1 = false ∧
      SameWorkload ctx (launchSlotWithTask b ctx i work).2) := by
  obtain ⟨slot, hSlot⟩ := slot_of_lt hLt
  unfold launchSlotWithTask
  rw [hSlot]
  cases launchError b work with
  | none =>
    refine Or.inl ⟨rfl, rfl, rfl, i, hLt, ?_⟩
    rw [work_setSlot]
    refine congrArg (ctx.work.set i) (congrArg (Prod.mk _) ?_)
    cases work.isChild <;> rfl
  | some message =>
    refine Or.inr ⟨some_ne_none _, rfl, ?_⟩
    refine (sameWorkload_setSlot hSlot ?_ ?_).of_eq rfl rfl
    · split <;> rfl
    · split <;> rfl

theorem release_busy (hSlot : ctx.slots[i]? = some slot) (hBusy : slot.isProcessing = true) :
    Releases ctx i (ctx.release b i) := by
  unfold release
  rw [hSlot]
  dsimp only
  rw [if_pos hBusy]
  refine ⟨rfl, ⟨slot.task, ?_⟩, ?_⟩
  · rw [work_getElem?, hSlot, map_some, hBusy]
  change (ctx.setSlot i _).work = _
  rw [work_setSlot]
  split <;> rfl

theorem release_cases (b : Backend χ μ) (ctx : ServerContext χ μ) (i : Nat) :
    SameWorkload ctx (ctx.release b i) ∨ Releases ctx i (ctx.release b i) := by
  cases hSlot : ctx.slots[i]? with
  | none =>
    unfold release
    rw [hSlot]
    exact Or.inl (SameWorkload.refl ctx)
  | some slot =>
    by_cases hBusy : slot.isProcessing = true
    · exact Or.inr (release_busy hSlot hBusy)
    unfold release
    rw [hSlot]
    dsimp only
    rw [if_neg hBusy]
    exact Or.inl (SameWorkload.refl ctx)

/-! ## Rules -/

section Rules

variable {P : List Int → ServerContext χ μ → Prop}

/-- What the moves of a launch keep: `P` has the ids that are still to be launched. -/
structure Kept (b : Backend χ μ) (P : List Int → ServerContext χ μ → Prop) : Prop where
  same : ∀ {ids ctx ctx'}, P ids ctx → SameWorkload ctx ctx' → P ids ctx'
  drop : ∀ {id ids ctx}, P (id :: ids) ctx → P ids ctx
  launched : ∀ {work : SlotTask χ} {ids ctx ctx'}, P (work.id :: ids) ctx →
    Launches ctx work ctx' → P ids ctx'
  released : ∀ {i ids ctx ctx'}, P ids ctx → Releases ctx i ctx' → P ids ctx'

variable {ids : List Int}

variable (hKept : Kept b P)

include hKept

theorem Kept.dropAll (h : P ids ctx) : P [] ctx := by
  induction ids with
  | nil => exact h
  | cons id rest ih => exact ih (hKept.drop h)

theorem Kept.releaseAt (ids : List Int) (h : P ids ctx) : P ids (ctx.release b i) := by
  rcases release_cases b ctx i with hSame | hReleases
  · exact hKept.same h hSame
  · exact hKept.released h hReleases

variable {idParent : Int}

theorem Kept.releaseSlots (h : P ids ctx) : P ids (ctx.releaseSlots b idParent) := by
  refine foldlRecOn _ _ h fun c hc i _ => ?_
  unfold releaseFor
  split
  · exact hKept.releaseAt _ hc
  · exact hc

theorem Kept.launchAll {l : List (Nat × SlotTask χ)} (h : P (l.map fun e => e.2.id) ctx)
    (hLt : ∀ e ∈ l, e.1 < ctx.slots.length) :
    P [] (launchAll b idParent ctx l).2 := by
  induction l generalizing ctx with
  | nil => exact h
  | cons e rest ih =>
    have hHere := hLt e (by simp)
    unfold ServerContext.launchAll
    rcases launchSlotWithTask_cases b e.2 hHere with
      ⟨-, hOk, hLaunch⟩ | ⟨-, hFail, hSame⟩
    · have hLength : (launchSlotWithTask b ctx e.1 e.2).2.slots.length = ctx.slots.length := by
        obtain ⟨i, -, hWork⟩ := hLaunch.work
        rw [← work_length, hWork, length_set, work_length]
      have hNext := hKept.launched h hLaunch
      generalize launchSlotWithTask b ctx e.1 e.2 = launched at hOk hLength hNext
      obtain ⟨ok, c⟩ := launched
      cases hOk
      exact ih hNext fun x hx => by
        rw [hLength]
        exact hLt x (mem_cons_of_mem _ hx)
    have hNext := hKept.dropAll (hKept.same h hSame)
    generalize launchSlotWithTask b ctx e.1 e.2 = launched at hFail hNext
    obtain ⟨ok, c⟩ := launched
    cases hFail
    exact hKept.releaseSlots hNext

/-- The slots that a launch is given are there, one for each child. -/
structure Places (ctx : ServerContext χ μ) (task : ServerTask χ) (i : Nat)
    (childSlots : List Nat) : Prop where
  lt : i < ctx.slots.length
  children_lt : ∀ j ∈ childSlots, j < ctx.slots.length
  enough : task.isParent = true → task.childTasks.length ≤ childSlots.length

theorem Kept.launchOn {childSlots : List Nat} (hPlaces : Places ctx task i childSlots)
    (h : ∀ ids, ids.Perm task.ids → P ids ctx) : P [] (launch b ctx i childSlots task).2 := by
  unfold ServerContext.launch
  split
  · rename_i hParent
    refine hKept.launchAll (h _ ?_) fun e he => ?_
    · have hChildren : (childSlots.zip task.childTasks).map (fun e => e.2.id) =
          task.childTasks.map SlotTask.id := by
        rw [← List.map_snd_zip (hPlaces.enough hParent), List.map_map]
        rw [map_snd_zip (hPlaces.enough hParent)]
        rfl
      rw [map_append, hChildren]
      exact perm_append_singleton _ _
    rcases mem_append.mp he with hChild | hSelf
    · exact hPlaces.children_lt e.1 (of_mem_zip hChild).1
    · rw [mem_singleton.mp hSelf]
      exact hPlaces.lt
  rename_i hSingle
  have hIds : task.ids = [task.id] := by
    unfold ServerTask.isParent at hSingle
    have hNil : task.childTasks = [] := by simpa using hSingle
    unfold ServerTask.ids
    rw [hNil]
    rfl
  have hP := h task.ids (List.Perm.refl _)
  rw [hIds] at hP
  rcases launchSlotWithTask_cases b task.toSlotTask hPlaces.lt with
    ⟨-, -, hLaunch⟩ | ⟨-, -, hSame⟩
  · exact hKept.launched hP hLaunch
  · exact hKept.drop (hKept.same hP hSame)

end Rules

/-! ## One task -/

/-- A slot that cannot be acted on now. -/
def BusyAt (ctx : ServerContext χ μ) (i : Nat) : Prop :=
  ∃ slot, ctx.slots[i]? = some slot ∧ slot.isProcessing = true

/-- The slots that a task needs are not free: the one that it names is at work, or there are too
few for it and its children. -/
def LacksSlots (ctx : ServerContext χ μ) (task : ServerTask χ) : Prop :=
  (∃ i, ctx.Names task i ∧ ctx.BusyAt i) ∨ ctx.freeSlots ≤ task.childTasks.length

/-- A task that has to wait. -/
def Waits (b : Backend χ μ) (ctx : ServerContext χ μ) (task : ServerTask χ) : Prop :=
  (task.type.OnSlot ∧ (∃ task', tokenizeCliInput b task = .ok task') ∧ ctx.LacksSlots task) ∨
    (task.type.SlotAction ∧ ∃ i, ctx.getSlotById task.actionSlot = some i ∧ ctx.BusyAt i)

theorem freeSlots_eq (ctx : ServerContext χ μ) : ctx.freeSlots = ctx.work.countP fun w => !w.2 := by
  unfold freeSlots work
  rw [countP_map]
  rfl

theorem SameWorkload.freeSlots (h : SameWorkload ctx ctx') : ctx'.freeSlots = ctx.freeSlots := by
  rw [freeSlots_eq, freeSlots_eq, h.work]

theorem saveIdleSlots_sameWorkload (h : saveIdleSlots b ctx = .ok ctx') :
    SameWorkload ctx ctx' := by
  unfold saveIdleSlots at h
  split at h
  · refine foldlM_keeps (fun i _ c c' hc hTurn => ?_) (SameWorkload.refl ctx) h
    unfold saveIdleSlot at hTurn
    split at hTurn
    · rename_i cache slot hCache hSlot
      split at hTurn
      · cases hTurn
        exact hc
      obtain ⟨⟨saved, cache'⟩, -, hRest⟩ := exists_of_bind hTurn
      cases hRest
      refine hc.trans ((sameWorkload_setSlot hSlot ?_ ?_).of_eq rfl rfl)
      · split <;> rfl
      · split <;> rfl
    · cases hTurn
      exact hc
  · cases h
    exact SameWorkload.refl ctx

theorem processSlotTask_cases (h : processSlotTask b ctx task = .ok ctx') :
    (ctx.LacksSlots task ∧ ctx'.queue = ctx.queue.defer task ∧ ctx'.work = ctx.work) ∨
    ∃ c i childSlots, SameWorkload ctx c ∧ Places c task i childSlots ∧
      SameWorkload (launch b c i childSlots task).2 ctx' := by
  obtain ⟨⟨ret, c⟩, hGet, hRest⟩ := exists_of_bind h
  have hSame := getAvailableSlot_sameWorkload hGet
  have hChosen := (getAvailableSlot_cases hGet).1
  have hDefer : ctx.LacksSlots task → c.defer task = ctx' →
      ctx.LacksSlots task ∧ ctx'.queue = ctx.queue.defer task ∧ ctx'.work = ctx.work := by
    rintro hLacks rfl
    exact ⟨hLacks, congrArg (·.defer task) hSame.queue, hSame.work⟩
  dsimp only at hRest
  split at hRest
  · refine Or.inl (hDefer (Or.inr ?_) (Except.ok.inj hRest))
    have hNone : ctx.freeSlots = 0 := by
      refine countP_eq_zero.mpr fun slot hSlot => ?_
      rw [chooseSlot_none hChosen.symm slot hSlot]
      exact Bool.false_ne_true
    omega
  rename_i i
  have hLt : i < c.slots.length := by
    rw [← work_length, hSame.work, work_length]
    exact chooseSlot_lt hChosen.symm
  obtain ⟨slot, hSlot⟩ := slot_of_lt hLt
  rw [hSlot, any_some] at hRest
  split at hRest
  · rename_i hBusy
    refine Or.inl (hDefer (Or.inl ?_) (Except.ok.inj hRest))
    -- the chosen slot is at work, so the task names it
    have hBusyAt : ctx.BusyAt i := by
      have hWork : ctx.work[i]? = some (slot.task, true) := by
        rw [← hSame.work, work_getElem?, hSlot, map_some, hBusy]
      rw [work_getElem?] at hWork
      obtain ⟨old, hOld, hEq⟩ := map_eq_some_iff.mp hWork
      exact ⟨old, hOld, congrArg Prod.snd hEq⟩
    refine ⟨i, ?_, hBusyAt⟩
    by_contra hNot
    obtain ⟨old, hOld, hOldBusy⟩ := hBusyAt
    have hNamed : ctx.Names task i ∨ ctx.FreeAt i :=
      chooseSlot_ret (P := fun j => ctx.Names task j ∨ ctx.FreeAt j) (fun _ hNamed => Or.inl hNamed)
        (fun _ _ hSlot hIdle => Or.inr (freeAt_of_eq hSlot hIdle)) hChosen.symm
    rcases hNamed with hNamed | hFree
    · exact hNot hNamed
    · rw [hFree old hOld] at hOldBusy
      exact absurd hOldBusy Bool.false_ne_true
  split at hRest
  · rename_i hShort
    refine Or.inl (hDefer (Or.inr ?_) (Except.ok.inj hRest))
    have hFree := getFreeSlots_short hShort.2
    rw [hSame.freeSlots] at hFree
    omega
  rename_i hEnough
  refine Or.inr ⟨c, i, c.getFreeSlots task.childTasks.length i, hSame,
    ⟨hLt, fun j hj => getFreeSlots_lt hj, fun hParent => ?_⟩, ?_⟩
  · exact not_lt.mp fun hShort => hEnough ⟨hParent, hShort⟩
  split at hRest
  · exact saveIdleSlots_sameWorkload hRest
  · rw [← Except.ok.inj hRest]
    exact SameWorkload.refl _

theorem sendResult_sameWorkload (idTask : Int) (result : TaskResult) :
    SameWorkload ctx (ctx.sendResult idTask result) := ⟨rfl, rfl⟩

theorem processSlotAction_cases {act : Nat → Slot χ μ → ServerContext χ μ}
    (hType : task.type.SlotAction)
    (hAct : ∀ i slot, ctx.slots[i]? = some slot → SameWorkload ctx (act i slot)) :
    (Waits b ctx task ∧ (processSlotAction ctx task act).queue = ctx.queue.defer task ∧
      (processSlotAction ctx task act).work = ctx.work) ∨
    SameWorkload ctx (processSlotAction ctx task act) := by
  unfold processSlotAction
  split
  · exact Or.inr ⟨rfl, rfl⟩
  rename_i i hId
  split
  · exact Or.inr ⟨rfl, rfl⟩
  rename_i slot hSlot
  split
  · rename_i hBusy
    exact Or.inl ⟨Or.inr ⟨hType, i, hId, slot, hSlot, hBusy⟩, rfl, rfl⟩
  · exact Or.inr (hAct i slot hSlot)

theorem processControl_sameWorkload : SameWorkload ctx (processControl b ctx task) := by
  unfold processControl
  split
  · exact sendResult_sameWorkload _ _
  split
  · split
    · exact sendResult_sameWorkload _ _
    · exact sendResult_sameWorkload _ _
  · exact sendResult_sameWorkload _ _

theorem slotSave_sameWorkload : SameWorkload ctx (slotSave b ctx task slot) := by
  unfold slotSave
  split
  · exact sendResult_sameWorkload _ _
  dsimp only
  split
  · exact sendResult_sameWorkload _ _
  · exact sendResult_sameWorkload _ _

section

variable (hSlot : ctx.slots[i]? = some slot)

include hSlot

theorem promptClear_sameWorkload : SameWorkload ctx (ctx.setSlot i (slot.promptClear b)) :=
  sameWorkload_setSlot hSlot rfl rfl

theorem slotRestore_sameWorkload : SameWorkload ctx (slotRestore b ctx task i slot) := by
  unfold slotRestore
  split
  · exact (promptClear_sameWorkload hSlot).trans (sendResult_sameWorkload _ _)
  rename_i restored memory nread _
  have hSet : SameWorkload ctx (ctx.setSlot i { slot with prompt := ⟨restored, []⟩, memory }) :=
    sameWorkload_setSlot hSlot rfl rfl
  exact hSet.trans (sendResult_sameWorkload _ _)

theorem slotErase_sameWorkload : SameWorkload ctx (slotErase b ctx task i slot) :=
  (promptClear_sameWorkload hSlot).trans (sendResult_sameWorkload _ _)

end

/-- What the server does with a task: it defers it, launches it, cancels another one, or leaves
the queues and the work as they are. -/
theorem processSingleTask_cases (h : processSingleTask b ctx task = .ok ctx') :
    (Waits b ctx task ∧ task.type ≠ .cancel ∧ ctx'.work = ctx.work ∧
      ∃ tokens cliPrompt, ctx'.queue = ctx.queue.defer { task with tokens, cliPrompt }) ∨
    (task.type.OnSlot ∧ ∃ task' c i childSlots, tokenizeCliInput b task = .ok task' ∧
      SameWorkload ctx c ∧ Places c task' i childSlots ∧
      SameWorkload (launch b c i childSlots task').2 ctx') ∨
    (task.type = .cancel ∧ ctx' = processCancel b ctx task.idTarget) ∨
    (task.type ≠ .cancel ∧ SameWorkload ctx ctx' ∧
      (task.type.OnSlot → ∃ e, tokenizeCliInput b task = .error e)) := by
  by_cases hOnSlot : task.type.OnSlot
  · have hNotCancel : task.type ≠ .cancel := by
      intro hCancel
      rw [hCancel] at hOnSlot
      exact absurd hOnSlot (by decide)
    rw [processSingleTask_onSlot hOnSlot] at h
    cases hTokens : tokenizeCliInput b task with
    | error e =>
      rw [hTokens] at h
      cases h
      exact Or.inr (Or.inr (Or.inr ⟨hNotCancel, ⟨rfl, rfl⟩, fun _ => ⟨e, rfl⟩⟩))
    | ok task' =>
      rw [hTokens] at h
      rcases processSlotTask_cases h with ⟨hLacks, hQueue, hWork⟩ | ⟨c, i, childSlots, hLaunch⟩
      · obtain ⟨tokens, cliPrompt, rfl⟩ := tokenizeCliInput_eq hTokens
        exact Or.inl ⟨Or.inl ⟨hOnSlot, ⟨_, hTokens⟩, hLacks⟩, hNotCancel, hWork, tokens, cliPrompt,
          hQueue⟩
      · exact Or.inr (Or.inl ⟨hOnSlot, task', c, i, childSlots, rfl, hLaunch⟩)
  have hAction : ∀ act : Nat → Slot χ μ → ServerContext χ μ, task.type.SlotAction →
      (∀ i slot, ctx.slots[i]? = some slot → SameWorkload ctx (act i slot)) →
      ctx' = processSlotAction ctx task act →
      (Waits b ctx task ∧ task.type ≠ .cancel ∧ ctx'.work = ctx.work ∧
        ∃ tokens cliPrompt, ctx'.queue = ctx.queue.defer { task with tokens, cliPrompt }) ∨
      (task.type ≠ .cancel ∧ SameWorkload ctx ctx') := by
    rintro act hType hAct rfl
    have hNotCancel : task.type ≠ .cancel := by
      intro hCancel
      rw [hCancel] at hType
      exact absurd hType (by decide)
    rcases processSlotAction_cases (b := b) hType hAct with ⟨hWaits, hQueue, hWork⟩ | hSame
    · exact Or.inl ⟨hWaits, hNotCancel, hWork, task.tokens, task.cliPrompt, hQueue⟩
    · exact Or.inr ⟨hNotCancel, hSame⟩
  have hEither : ((Waits b ctx task ∧ task.type ≠ .cancel ∧ ctx'.work = ctx.work ∧
      ∃ tokens cliPrompt, ctx'.queue = ctx.queue.defer { task with tokens, cliPrompt }) ∨
      (task.type ≠ .cancel ∧ SameWorkload ctx ctx')) ∨
      (task.type = .cancel ∧ ctx' = processCancel b ctx task.idTarget) := by
    have hOther : ∀ c, task.type ≠ .cancel → SameWorkload ctx c → Except.ok (ε := String) c =
        .ok ctx' → task.type ≠ .cancel ∧ SameWorkload ctx ctx' := by
      intro c hNotCancel hSame hEq
      rw [← Except.ok.inj hEq]
      exact ⟨hNotCancel, hSame⟩
    unfold processSingleTask at h
    cases hType : task.type with
    | completion | infill | embedding | rerank =>
      rw [hType] at hOnSlot
      exact absurd hOnSlot (by decide)
    | cancel =>
      rw [hType] at h
      exact Or.inr ⟨rfl, (Except.ok.inj h).symm⟩
    | control =>
      rw [hType] at h hOther
      exact Or.inl (Or.inr (hOther _ (by decide) processControl_sameWorkload h))
    | nextResponse =>
      rw [hType] at h hOther
      exact Or.inl (Or.inr (hOther _ (by decide) (SameWorkload.refl ctx) h))
    | metrics | getLora | setLora =>
      rw [hType] at h hOther
      exact Or.inl (Or.inr (hOther _ (by decide) (sendResult_sameWorkload _ _) h))
    | slotSave =>
      rw [hType] at h hAction
      exact Or.inl (hAction _ (by decide) (fun _ _ _ => slotSave_sameWorkload)
        (Except.ok.inj h).symm)
    | slotRestore =>
      rw [hType] at h hAction
      exact Or.inl (hAction _ (by decide) (fun _ _ hSlot => slotRestore_sameWorkload hSlot)
        (Except.ok.inj h).symm)
    | slotErase =>
      rw [hType] at h hAction
      exact Or.inl (hAction _ (by decide) (fun _ _ hSlot => slotErase_sameWorkload hSlot)
        (Except.ok.inj h).symm)
  rcases hEither with (hDeferred | ⟨hNotCancel, hSame⟩) | hCancel
  · exact Or.inl hDeferred
  · exact Or.inr (Or.inr (Or.inr ⟨hNotCancel, hSame, fun hType => absurd hType hOnSlot⟩))
  · exact Or.inr (Or.inr (Or.inl hCancel))

end ServerContext

end Beellama.Ports
