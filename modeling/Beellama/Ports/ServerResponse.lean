import Beellama.Verified.Mailbox
import Beellama.Verified.Run
import Mathlib.Data.List.Perm.Basic
import Mathlib.Data.List.Infix

/-!
# Results for the readers

`server_response` keeps one queue with the results of all tasks and the set of ids that someone waits
for.  Every section under `mutex_results` is one step.  Only `remove_waiting_task_id` removes queued
results, and a stop calls it only when results are missing: what is in the queue for a reader that has
all its final results remains there.
-/

namespace Beellama.Ports

open Beellama.Verified List Option

/-- `server_task_result`; what it carries is of no interest here. -/
structure ServerTaskResult (ρ : Type) where
  id : Int
  isError : Bool := false
  isStop : Bool := true
  data : ρ
  deriving DecidableEq

/-- `server_response`. -/
structure ServerResponse (ρ : Type) where
  waitingTaskIds : List Int := []
  queueResults : List (ServerTaskResult ρ) := []
  deriving DecidableEq

namespace ServerResponse

variable {ρ : Type}

def addWaitingTaskIds (response : ServerResponse ρ) (idTasks : List Int) : ServerResponse ρ :=
  { response with waitingTaskIds := idTasks ∪ response.waitingTaskIds }

/-- Stop waiting for a task and clean up its pending results. -/
def removeWaitingTaskId (response : ServerResponse ρ) (idTask : Int) : ServerResponse ρ where
  waitingTaskIds := response.waitingTaskIds.filter (· ≠ idTask)
  queueResults := response.queueResults.filter fun res => res.id ≠ idTask

/-- Stop waiting for several tasks; the pending results stay. -/
def removeWaitingTaskIds (response : ServerResponse ρ) (idTasks : List Int) : ServerResponse ρ :=
  { response with waitingTaskIds := response.waitingTaskIds.filter (· ∉ idTasks) }

/-- The first result for one of the ids, if there is one before the timeout. -/
def recvWithTimeout (response : ServerResponse ρ) (idTasks : List Int) :
    Option (ServerTaskResult ρ × ServerResponse ρ) :=
  (response.queueResults.find? fun res => res.id ∈ idTasks).map fun res =>
    (res, { response with
      queueResults := response.queueResults.eraseP fun res => res.id ∈ idTasks })

def send (response : ServerResponse ρ) (res : ServerTaskResult ρ) : ServerResponse ρ :=
  if res.id ∈ response.waitingTaskIds then
    { response with queueResults := response.queueResults ++ [res] }
  else response

/-- The copies of a broadcast, for the waiting ids in the order of the iteration. -/
def copies (res : ServerTaskResult ρ) (order : List Int) : List (ServerTaskResult ρ) :=
  order.map fun id => { res with id }

/-- What the queue has after some results have been sent: those for waiting ids. -/
def deliver (response : ServerResponse ρ) (news : List (ServerTaskResult ρ)) : ServerResponse ρ :=
  { response with
    queueResults := response.queueResults ++
      news.filter fun res => res.id ∈ response.waitingTaskIds }

def broadcast (response : ServerResponse ρ) (res : ServerTaskResult ρ) (order : List Int) :
    ServerResponse ρ :=
  { response with queueResults := response.queueResults ++ copies res order }

end ServerResponse

/-- Where the thread of a reader is. -/
inductive ReaderPhase
  | ready
  /-- `next` has taken an error result and is about to stop -/
  | failed
  /-- `stop` has yet to clean up these ids -/
  | cancelling (rest : List Int)
  deriving DecidableEq

/-- `server_response_reader`, with a record of what it did. -/
structure ResponseReader (ρ : Type) where
  idTasks : List Int := []
  receivedCount : Nat := 0
  cancelled : Bool := false
  phase : ReaderPhase := .ready
  /-- it has posted its tasks and not begun to stop -/
  waits : Bool := false
  /-- how many results had been sent when it posted -/
  since : Nat := 0
  /-- the results that `next` has returned -/
  received : List (ServerTaskResult ρ) := []
  deriving DecidableEq

namespace ResponseReader

variable {ρ : Type}

def owns (reader : ResponseReader ρ) (res : ServerTaskResult ρ) : Bool := res.id ∈ reader.idTasks

def hasNext (reader : ResponseReader ρ) : Bool :=
  !reader.cancelled && reader.receivedCount < reader.idTasks.length

/-- `post_tasks`, and `post_task` with one id, as far as results are concerned. -/
def post (reader : ResponseReader ρ) (idTasks : List Int) (since : Nat) : ResponseReader ρ :=
  { reader with idTasks, waits := true, since }

/-- What `next` does with a result. -/
def receive (reader : ResponseReader ρ) (res : ServerTaskResult ρ) : ResponseReader ρ :=
  { reader with
    received := reader.received ++ [res]
    receivedCount :=
      if !res.isError && res.isStop then reader.receivedCount + 1 else reader.receivedCount
    phase := if res.isError then .failed else reader.phase }

/-- The first section of `stop`. -/
def stop (reader : ResponseReader ρ) : ResponseReader ρ :=
  if reader.hasNext then
    { reader with waits := false, cancelled := true, phase := .cancelling reader.idTasks }
  else { reader with waits := false, phase := .ready }

/-- One of the ids has been cleaned up. -/
def cleanup (reader : ResponseReader ρ) (rest : List Int) : ResponseReader ρ :=
  { reader with phase := if rest.isEmpty then .ready else .cancelling rest }

/-- The stop of the reader has returned. -/
def Stopped (reader : ResponseReader ρ) : Prop :=
  reader.waits = false ∧ reader.phase = .ready

end ResponseReader

/-- The results, any number of readers, and what has been sent so far. -/
structure ResponseSystem (ρ : Type) where
  response : ServerResponse ρ := {}
  readers : Nat → ResponseReader ρ := fun _ => {}
  sent : List (ServerTaskResult ρ) := []

inductive ResponseOp (ρ : Type)
  | post (i : Nat) (idTasks : List Int)
  | next (i : Nat)
  | stop (i : Nat)
  | cleanup (i : Nat) (idTask : Int)
  | send (res : ServerTaskResult ρ)
  | broadcast (res : ServerTaskResult ρ) (order : List Int)

namespace ResponseSystem

variable {ρ : Type}

def setReader (s : ResponseSystem ρ) (i : Nat) (reader : ResponseReader ρ) : ResponseSystem ρ :=
  { s with readers := Function.update s.readers i reader }

/-- One step, of a reader or of the worker. -/
def exec (s : ResponseSystem ρ) : ResponseOp ρ → Option (ResponseSystem ρ)
  | .post i idTasks =>
    if (s.readers i).idTasks = [] ∧ (s.readers i).phase = .ready then
      some { s.setReader i ((s.readers i).post idTasks s.sent.length) with
        response := s.response.addWaitingTaskIds idTasks }
    else none
  | .next i =>
    if (s.readers i).phase = .ready then
      match s.response.recvWithTimeout (s.readers i).idTasks with
      | none => some s
      | some (res, response) =>
        some { s.setReader i ((s.readers i).receive res) with response }
    else none
  | .stop i =>
    match (s.readers i).phase with
    | .cancelling _ => none
    | _ => some { s.setReader i (s.readers i).stop with
        response := s.response.removeWaitingTaskIds (s.readers i).idTasks }
  | .cleanup i idTask =>
    match (s.readers i).phase with
    | .cancelling rest =>
      if idTask ∈ rest then
        some { s.setReader i ((s.readers i).cleanup (rest.erase idTask)) with
          response := s.response.removeWaitingTaskId idTask }
      else none
    | _ => none
  | .send res => some { s with response := s.response.send res, sent := s.sent ++ [res] }
  | .broadcast res order =>
    if order.Perm s.response.waitingTaskIds then
      some { s with
        response := s.response.broadcast res order
        sent := s.sent ++ ServerResponse.copies res order }
    else none

def step (op : ResponseOp ρ) (s s' : ResponseSystem ρ) : Prop := s.exec op = some s'

/-- Nothing is sent, nobody waits and no reader has posted. -/
def IsNew (s : ResponseSystem ρ) : Prop := s = {}

/-- The ids of the tasks that a reader posts are distinct and its own. -/
def OwnIds : ResponseOp ρ → ResponseSystem ρ → Prop
  | .post i idTasks, s =>
    idTasks.Nodup ∧ ∀ j, j ≠ i → ∀ id ∈ idTasks, id ∉ (s.readers j).idTasks
  | _, _ => True

/-- A reader that has as many final results as ids stops only when it has taken all of its
results from the queue. -/
def NothingLeft : ResponseOp ρ → ResponseSystem ρ → Prop
  | .stop i, s =>
    (s.readers i).idTasks.length ≤ (s.readers i).receivedCount →
      ∀ res ∈ s.response.queueResults, res.id ∉ (s.readers i).idTasks
  | _, _ => True

end ResponseSystem

/-! ## What one reader sees of the results -/

variable {ids : List Int}

namespace ResponseReader

variable {ρ : Type} {reader : ResponseReader ρ} {response response' : ServerResponse ρ}
  {sent : List (ServerTaskResult ρ)}

/-- How many of some results are final ones, as `next` counts them. -/
def finals (results : List (ServerTaskResult ρ)) : Nat :=
  results.countP fun res => !res.isError && res.isStop

/-- The results sent to a reader since it posted. -/
def sentTo (reader : ResponseReader ρ) (sent : List (ServerTaskResult ρ)) :
    List (ServerTaskResult ρ) :=
  (sent.drop reader.since).filter reader.owns

/-- The results sent to a waiting reader are those received and then those in the queue; afterwards
only a stop at work leaves any there. -/
structure Served (reader : ResponseReader ρ) (response : ServerResponse ρ)
    (sent : List (ServerTaskResult ρ)) : Prop where
  waiting : ∀ id ∈ reader.idTasks, (id ∈ response.waitingTaskIds ↔ reader.waits = true)
  since_le : reader.since ≤ sent.length
  all : reader.waits = true →
    reader.received ++ response.queueResults.filter reader.owns = reader.sentTo sent
  received_prefix : reader.received <+: reader.sentTo sent
  counted : reader.receivedCount = finals reader.received
  left : reader.waits = false → ∀ res ∈ response.queueResults.filter reader.owns,
    ∃ rest, reader.phase = .cancelling rest ∧ res.id ∈ rest
  cancelled : reader.cancelled = true → reader.idTasks ≠ [] ∧ reader.waits = false
  cancelling : ∀ rest, reader.phase = .cancelling rest →
    reader.waits = false ∧ ∀ id ∈ rest, id ∈ reader.idTasks

variable {res : ServerTaskResult ρ}

theorem owns_iff : reader.owns res = true ↔ res.id ∈ reader.idTasks :=
  decide_eq_true_iff

theorem owns_of_nil (hNil : reader.idTasks = []) : reader.owns = fun _ => false := by
  funext res
  unfold owns
  rw [hNil]
  exact decide_eq_false not_mem_nil

theorem Served.new : Served ({} : ResponseReader ρ) {} [] where
  waiting _ hMem := absurd hMem not_mem_nil
  since_le := Nat.le_refl _
  all _ := rfl
  received_prefix := prefix_refl _
  counted := rfl
  left _ _ hMem := absurd hMem not_mem_nil
  cancelled h := absurd h Bool.false_ne_true
  cancelling _ h := absurd h (by simp)

/-- A section of another reader, as this one sees it. -/
def SameFor (reader : ResponseReader ρ) (response response' : ServerResponse ρ) : Prop :=
  (∀ id ∈ reader.idTasks, (id ∈ response'.waitingTaskIds ↔ id ∈ response.waitingTaskIds)) ∧
    response'.queueResults.filter reader.owns = response.queueResults.filter reader.owns

variable (h : Served reader response sent)

include h

theorem Served.same (hSame : reader.SameFor response response') : Served reader response' sent where
  waiting id hId := (hSame.1 id hId).trans (h.waiting id hId)
  since_le := h.since_le
  all hWaits := by rw [hSame.2, h.all hWaits]
  received_prefix := h.received_prefix
  counted := h.counted
  left hWaits := by rw [hSame.2]; exact h.left hWaits
  cancelled := h.cancelled
  cancelling := h.cancelling

variable (hDisjoint : ∀ id ∈ ids, id ∉ reader.idTasks)

include hDisjoint

omit h in
theorem sameFor_add : reader.SameFor response (response.addWaitingTaskIds ids) := by
  refine ⟨fun id hId => ?_, rfl⟩
  unfold ServerResponse.addWaitingTaskIds
  rw [mem_union_iff]
  exact or_iff_right fun hNew => hDisjoint id hNew hId

omit h in
theorem sameFor_removeAll : reader.SameFor response (response.removeWaitingTaskIds ids) := by
  refine ⟨fun id hId => ?_, rfl⟩
  unfold ServerResponse.removeWaitingTaskIds
  rw [mem_filter]
  exact and_iff_left (decide_eq_true fun hOther => hDisjoint id hOther hId)

variable {idTask : Int}

omit h hDisjoint in
theorem sameFor_remove (hOther : idTask ∉ reader.idTasks) :
    reader.SameFor response (response.removeWaitingTaskId idTask) := by
  have hNe : ∀ id ∈ reader.idTasks, id ≠ idTask := fun id hId hEq => hOther (hEq ▸ hId)
  refine ⟨fun id hId => ?_, ?_⟩
  · unfold ServerResponse.removeWaitingTaskId
    rw [mem_filter]
    exact and_iff_left (decide_eq_true (hNe id hId))
  unfold ServerResponse.removeWaitingTaskId
  rw [List.filter_filter]
  refine filter_congr fun res _ => ?_
  by_cases hOwn : reader.owns res = true
  · rw [decide_eq_true (hNe _ (owns_iff.mp hOwn)), Bool.and_true]
  · rw [Bool.eq_false_iff.mpr hOwn, Bool.false_and]

omit h in
theorem sameFor_recv (hRecv : response.recvWithTimeout ids = some (res, response')) :
    reader.SameFor response response' := by
  obtain ⟨first, -, hPair⟩ := map_eq_some_iff.mp hRecv
  obtain ⟨-, rfl⟩ := Prod.mk.inj hPair
  refine ⟨fun _ _ => Iff.rfl, filter_eraseP_of_disjoint fun other hOther => ?_⟩
  exact decide_eq_false (hDisjoint other.id (of_decide_eq_true hOther))

/-! ## What a reader does -/

omit hDisjoint

theorem Served.received_nil (hNil : reader.idTasks = []) : reader.received = [] := by
  have hPrefix := h.received_prefix
  unfold sentTo at hPrefix
  rw [owns_of_nil hNil, filter_false] at hPrefix
  exact prefix_nil.mp hPrefix

theorem Served.post (hNil : reader.idTasks = []) (hPhase : reader.phase = .ready)
    (hFree : ∀ res ∈ response.queueResults, res.id ∉ ids) :
    Served (reader.post ids sent.length) (response.addWaitingTaskIds ids) sent := by
  have hSentTo : (reader.post ids sent.length).sentTo sent = [] := by
    unfold sentTo ResponseReader.post
    rw [drop_length, filter_nil]
  have hReceived : (reader.post ids sent.length).received = [] := h.received_nil hNil
  refine ⟨fun id hId => ?_, Nat.le_refl _, fun _ => ?_, ?_, h.counted, fun hWaits => ?_,
    fun hCancelled => ?_, fun rest hRest => ?_⟩
  · exact iff_of_true (mem_union_iff.mpr (.inl hId)) rfl
  · rw [hSentTo, hReceived]
    exact filter_eq_nil_iff.mpr fun res hRes hOwns => hFree res hRes (owns_iff.mp hOwns)
  · rw [hSentTo, hReceived]
  · exact absurd hWaits.symm Bool.false_ne_true
  · exact absurd hNil (h.cancelled hCancelled).1
  · exact absurd (hPhase.symm.trans hRest) (by simp)

omit h in
theorem receive_phase (hPhase : reader.phase = .ready)
    (rest : List Int) : (reader.receive res).phase ≠ .cancelling rest := by
  unfold receive
  dsimp only
  split
  · simp
  · rw [hPhase]
    simp

theorem Served.receive (hPhase : reader.phase = .ready)
    (hRecv : response.recvWithTimeout reader.idTasks = some (res, response')) :
    Served (reader.receive res) response' sent := by
  obtain ⟨first, hFind, hPair⟩ := map_eq_some_iff.mp hRecv
  obtain ⟨rfl, rfl⟩ := Prod.mk.inj hPair
  have hView : response.queueResults.filter reader.owns =
      first :: (response.queueResults.eraseP reader.owns).filter reader.owns :=
    filter_of_find? hFind
  have hWaits : reader.waits = true := by
    by_contra hNot
    obtain ⟨rest, hRest, -⟩ := h.left (Bool.eq_false_iff.mpr hNot) first
      (hView ▸ mem_cons_self)
    exact absurd (hPhase.symm.trans hRest) (by simp)
  have hAll : reader.received ++ [first] ++
      (response.queueResults.eraseP reader.owns).filter reader.owns = reader.sentTo sent := by
    rw [append_assoc, singleton_append, ← hView]
    exact h.all hWaits
  refine ⟨h.waiting, h.since_le, fun _ => hAll, ⟨_, hAll⟩, ?_, fun hNot => ?_,
    fun hCancelled => ?_, fun rest hRest => absurd hRest (receive_phase hPhase rest)⟩
  · have hCounted := h.counted
    unfold finals at hCounted
    unfold ResponseReader.receive finals
    rw [countP_append, countP_singleton, ← hCounted]
    split <;> rfl
  · exact absurd (hWaits.symm.trans hNot).symm Bool.false_ne_true
  · exact absurd (hWaits.symm.trans (h.cancelled hCancelled).2).symm Bool.false_ne_true

theorem Served.stop (hPhase : ∀ rest, reader.phase ≠ .cancelling rest)
    (hLeft : reader.idTasks.length ≤ reader.receivedCount →
      ∀ res ∈ response.queueResults, res.id ∉ reader.idTasks) :
    Served reader.stop (response.removeWaitingTaskIds reader.idTasks) sent := by
  have hIds : reader.stop.idTasks = reader.idTasks := by
    unfold ResponseReader.stop; split <;> rfl
  have hWaits : reader.stop.waits = false := by
    unfold ResponseReader.stop; split <;> rfl
  have hOwns : reader.stop.owns = reader.owns := by
    unfold owns; rw [hIds]
  have hSentTo : reader.stop.sentTo sent = reader.sentTo sent := by
    unfold sentTo; rw [hOwns]; unfold ResponseReader.stop; split <;> rfl
  refine ⟨fun id hId => ?_, ?_, fun hTrue => ?_, ?_, ?_, fun _ res hRes => ?_,
    fun hCancelled => ?_, fun rest hRest => ⟨hWaits, ?_⟩⟩
  · refine iff_of_false (fun hMem => ?_) (by rw [hWaits]; exact Bool.false_ne_true)
    exact of_decide_eq_true (mem_filter.mp hMem).2 (hIds ▸ hId)
  · unfold ResponseReader.stop
    split <;> exact h.since_le
  · exact absurd (hWaits.symm.trans hTrue) Bool.false_ne_true
  · unfold ResponseReader.stop
    split <;> exact h.received_prefix
  · unfold ResponseReader.stop
    split <;> exact h.counted
  · rw [hOwns] at hRes
    have hOwn : res.id ∈ reader.idTasks := owns_iff.mp (mem_filter.mp hRes).2
    by_cases hNext : reader.hasNext = true
    · exact ⟨reader.idTasks, by unfold ResponseReader.stop; rw [if_pos hNext], hOwn⟩
    exfalso
    by_cases hCancelled : reader.cancelled = true
    · obtain ⟨rest, hRest, -⟩ := h.left (h.cancelled hCancelled).2 res hRes
      exact hPhase rest hRest
    refine hLeft ?_ res (mem_filter.mp hRes).1 hOwn
    unfold hasNext at hNext
    rw [Bool.eq_false_iff.mpr hCancelled, Bool.not_false] at hNext
    exact Nat.le_of_not_lt fun hLt => hNext (decide_eq_true hLt)
  · refine ⟨?_, hWaits⟩
    rw [hIds]
    by_cases hNext : reader.hasNext = true
    · unfold hasNext at hNext
      have hLt := of_decide_eq_true (Bool.and_eq_true_iff.mp hNext).2
      exact ne_nil_of_length_pos (Nat.lt_of_le_of_lt (Nat.zero_le _) hLt)
    unfold ResponseReader.stop at hCancelled
    rw [if_neg hNext] at hCancelled
    exact (h.cancelled hCancelled).1
  rw [hIds]
  unfold ResponseReader.stop at hRest
  split at hRest
  · exact fun id hId => (ReaderPhase.cancelling.inj hRest).symm ▸ hId
  · exact absurd hRest (by simp)

theorem Served.cleanup {rest : List Int} (hPhase : reader.phase = .cancelling rest) :
    Served (reader.cleanup (rest.erase idTask)) (response.removeWaitingTaskId idTask) sent := by
  obtain ⟨hWaits, hRestIds⟩ := h.cancelling rest hPhase
  refine ⟨fun id hId => ?_, h.since_le, fun hTrue => ?_, h.received_prefix, h.counted,
    fun _ res hRes => ?_, h.cancelled, fun rest' hRest => ⟨hWaits, fun id hId => ?_⟩⟩
  · refine iff_of_false (fun hMem => ?_) (by rw [show (reader.cleanup _).waits = _ from hWaits]; simp)
    have hOld := (h.waiting id hId).mp (mem_filter.mp hMem).1
    exact absurd (hWaits.symm.trans hOld) Bool.false_ne_true
  · exact absurd (hWaits.symm.trans hTrue) Bool.false_ne_true
  · obtain ⟨hQueue, hOwn⟩ := mem_filter.mp hRes
    obtain ⟨hOld, hNe⟩ := mem_filter.mp hQueue
    obtain ⟨rest', hRest, hIn⟩ := h.left hWaits res (mem_filter.mpr ⟨hOld, hOwn⟩)
    rw [hPhase] at hRest
    have hEq := ReaderPhase.cancelling.inj hRest
    rw [← hEq] at hIn
    have hErase : res.id ∈ rest.erase idTask :=
      (mem_erase_of_ne (of_decide_eq_true hNe)).mpr hIn
    refine ⟨rest.erase idTask, ?_, hErase⟩
    unfold ResponseReader.cleanup
    rw [isEmpty_eq_false_iff.mpr (ne_nil_of_mem hErase)]
    rfl
  unfold ResponseReader.cleanup at hRest
  split at hRest
  · exact absurd hRest (by simp)
  · rw [← ReaderPhase.cancelling.inj hRest] at hId
    exact hRestIds id (mem_of_mem_erase hId)

/-! ## What the worker does -/

/-- New results are sent; those for waiting ids come to the queue. -/
theorem Served.deliver {news : List (ServerTaskResult ρ)} :
    Served reader (response.deliver news) (sent ++ news) := by
  have hSentTo : reader.sentTo (sent ++ news) = reader.sentTo sent ++ news.filter reader.owns := by
    unfold sentTo
    rw [drop_append_of_le_length h.since_le, filter_append]
  have hQueue : (response.deliver news).queueResults.filter reader.owns =
      response.queueResults.filter reader.owns ++
        if reader.waits then news.filter reader.owns else [] := by
    unfold ServerResponse.deliver
    rw [List.filter_append, List.filter_filter]
    refine congrArg _ ?_
    by_cases hWaits : reader.waits = true
    · rw [if_pos hWaits]
      refine filter_congr fun res _ => ?_
      by_cases hOwn : reader.owns res = true
      · rw [decide_eq_true ((h.waiting _ (owns_iff.mp hOwn)).mpr hWaits), Bool.and_true]
      · rw [Bool.eq_false_iff.mpr hOwn, Bool.false_and]
    rw [if_neg hWaits]
    refine filter_eq_nil_iff.mpr fun res _ hBoth => ?_
    obtain ⟨hOwn, hMem⟩ := Bool.and_eq_true_iff.mp hBoth
    exact hWaits ((h.waiting _ (owns_iff.mp hOwn)).mp (of_decide_eq_true hMem))
  refine ⟨h.waiting, Nat.le_trans h.since_le (by simp), fun hWaits => ?_, ?_, h.counted,
    fun hWaits => ?_, h.cancelled, h.cancelling⟩
  · rw [hSentTo, hQueue, if_pos hWaits, ← append_assoc, h.all hWaits]
  · rw [hSentTo]
    exact h.received_prefix.trans (prefix_append _ _)
  · rw [hQueue, if_neg (by rw [hWaits]; exact Bool.false_ne_true), append_nil]
    exact h.left hWaits

end ResponseReader

namespace ServerResponse

variable {ρ : Type} {response : ServerResponse ρ} {res : ServerTaskResult ρ} {order : List Int}

theorem send_eq (response : ServerResponse ρ) (res : ServerTaskResult ρ) :
    response.send res = response.deliver [res] := by
  unfold send deliver
  split
  · rename_i hMem
    simp [hMem]
  · rename_i hNot
    simp [hNot]

theorem broadcast_eq (hOrder : order.Perm response.waitingTaskIds) :
    response.broadcast res order = response.deliver (copies res order) := by
  have hAll : (copies res order).filter (fun res => res.id ∈ response.waitingTaskIds) =
      copies res order := by
    refine filter_eq_self.mpr fun copy hCopy => ?_
    obtain ⟨id, hId, rfl⟩ := mem_map.mp hCopy
    exact decide_eq_true (hOrder.mem_iff.mp hId)
  unfold deliver
  rw [hAll]
  rfl

end ServerResponse

namespace ResponseSystem

variable {ρ : Type} {s s' : ResponseSystem ρ} {i : Nat}

/-! ## Runs -/

/-- Every reader is served, their ids are disjoint, and all ids and results in `server_response`
belong to them. -/
structure Invariant (s : ResponseSystem ρ) : Prop where
  served : ∀ i, (s.readers i).Served s.response s.sent
  disjoint : ∀ i j, i ≠ j → ∀ id ∈ (s.readers i).idTasks, id ∉ (s.readers j).idTasks
  waitingOwned : ∀ id ∈ s.response.waitingTaskIds, ∃ i, id ∈ (s.readers i).idTasks
  queuedOwned : ∀ res ∈ s.response.queueResults, ∃ i, res.id ∈ (s.readers i).idTasks

theorem invariant_of_new (hNew : IsNew s) : s.Invariant := by
  subst hNew
  exact ⟨fun _ => .new, fun _ _ _ _ hMem => absurd hMem not_mem_nil,
    fun _ hMem => absurd hMem not_mem_nil, fun _ hMem => absurd hMem not_mem_nil⟩

@[simp] theorem setReader_self (reader : ResponseReader ρ) :
    (s.setReader i reader).readers i = reader :=
  Function.update_self _ _ _

theorem setReader_ne {j : Nat} (reader : ResponseReader ρ) (hNe : j ≠ i) :
    (s.setReader i reader).readers j = s.readers j :=
  Function.update_of_ne hNe _ _

variable {reader : ResponseReader ρ}

/-- A section of reader `i` that keeps its ids and adds no ids and no results. -/
theorem Invariant.section {response : ServerResponse ρ}
    (h : s.Invariant) (hIds : reader.idTasks = (s.readers i).idTasks)
    (hServed : reader.Served response s.sent)
    (hOthers : ∀ j, j ≠ i → (s.readers j).SameFor s.response response)
    (hWaiting : ∀ id ∈ response.waitingTaskIds, id ∈ s.response.waitingTaskIds)
    (hQueue : ∀ res ∈ response.queueResults, res ∈ s.response.queueResults) :
    Invariant { s.setReader i reader with response } := by
  have hAllIds : ∀ j, ((s.setReader i reader).readers j).idTasks = (s.readers j).idTasks := by
    intro j
    by_cases hEq : j = i
    · rw [hEq, setReader_self, hIds]
    · rw [setReader_ne reader hEq]
  refine ⟨fun j => ?_, fun j k hNe => ?_, fun id hId => ?_, fun res hRes => ?_⟩
  · by_cases hEq : j = i
    · rw [hEq, setReader_self]
      exact hServed
    · rw [setReader_ne reader hEq]
      exact (h.served j).same (hOthers j hEq)
  · rw [hAllIds j, hAllIds k]
    exact h.disjoint j k hNe
  · obtain ⟨j, hOwn⟩ := h.waitingOwned id (hWaiting id hId)
    exact ⟨j, (hAllIds j).symm ▸ hOwn⟩
  · obtain ⟨j, hOwn⟩ := h.queuedOwned res (hQueue res hRes)
    exact ⟨j, (hAllIds j).symm ▸ hOwn⟩

theorem Invariant.post (h : s.Invariant) (hNil : (s.readers i).idTasks = [])
    (hPhase : (s.readers i).phase = .ready)
    (hOwn : ∀ j, j ≠ i → ∀ id ∈ ids, id ∉ (s.readers j).idTasks) :
    Invariant { s.setReader i ((s.readers i).post ids s.sent.length) with
      response := s.response.addWaitingTaskIds ids } := by
  have hFree : ∀ j, ∀ id ∈ ids, id ∉ (s.readers j).idTasks := by
    intro j id hId
    by_cases hEq : j = i
    · rw [hEq, hNil]
      exact not_mem_nil
    · exact hOwn j hEq id hId
  have hAt : ∀ j, ((s.setReader i ((s.readers i).post ids s.sent.length)).readers j).idTasks =
      if j = i then ids else (s.readers j).idTasks := by
    intro j
    by_cases hEq : j = i
    · rw [if_pos hEq, hEq, setReader_self]
      rfl
    · rw [if_neg hEq, setReader_ne _ hEq]
  refine ⟨fun j => ?_, fun j k hNe id hId hMem => ?_, fun id hId => ?_, fun res hRes => ?_⟩
  · by_cases hEq : j = i
    · rw [hEq, setReader_self]
      refine (h.served i).post hNil hPhase fun res hRes hMem => ?_
      obtain ⟨k, hOwner⟩ := h.queuedOwned res hRes
      exact hFree k _ hMem hOwner
    · rw [setReader_ne _ hEq]
      exact (h.served j).same (ResponseReader.sameFor_add (hFree j))
  · rw [hAt] at hId hMem
    by_cases hj : j = i
    · rw [if_pos hj] at hId
      rw [if_neg fun hk => hNe (hj.trans hk.symm)] at hMem
      exact hFree k id hId hMem
    rw [if_neg hj] at hId
    by_cases hk : k = i
    · rw [if_pos hk] at hMem
      exact hFree j id hMem hId
    · rw [if_neg hk] at hMem
      exact h.disjoint j k hNe id hId hMem
  · rcases mem_union_iff.mp hId with hNew | hOld
    · exact ⟨i, by rw [hAt, if_pos rfl]; exact hNew⟩
    obtain ⟨j, hOwner⟩ := h.waitingOwned id hOld
    have hNe : j ≠ i := fun hEq => not_mem_nil (hNil ▸ hEq ▸ hOwner)
    exact ⟨j, by rw [hAt, if_neg hNe]; exact hOwner⟩
  obtain ⟨j, hOwner⟩ := h.queuedOwned res hRes
  have hNe : j ≠ i := fun hEq => not_mem_nil (hNil ▸ hEq ▸ hOwner)
  exact ⟨j, by rw [hAt, if_neg hNe]; exact hOwner⟩

theorem Invariant.send {news : List (ServerTaskResult ρ)} (h : s.Invariant) :
    Invariant { s with response := s.response.deliver news, sent := s.sent ++ news } := by
  refine ⟨fun i => (h.served i).deliver, h.disjoint, h.waitingOwned, fun res hRes => ?_⟩
  rcases mem_append.mp hRes with hOld | hNew
  · exact h.queuedOwned res hOld
  · exact h.waitingOwned _ (of_decide_eq_true (mem_filter.mp hNew).2)

variable {op : ResponseOp ρ}

/-- Every step keeps the invariant, when a reader with all its final results has nothing left in
the queue at its stop. -/
theorem Invariant.step (h : s.Invariant) (hOwn : OwnIds op s)
    (hLeft : NothingLeft op s) (hStep : step op s s') : s'.Invariant := by
  unfold ResponseSystem.step at hStep
  cases op with
  | post i ids =>
    obtain ⟨⟨hNil, hPhase⟩, hEq⟩ := ite_none_right_eq_some.mp hStep
    exact some.inj hEq ▸ h.post hNil hPhase hOwn.2
  | next i =>
    obtain ⟨hPhase, hNext⟩ := ite_none_right_eq_some.mp hStep
    split at hNext
    · exact some.inj hNext ▸ h
    rename_i res response hRecv
    have hQueue : ∀ res ∈ response.queueResults, res ∈ s.response.queueResults := by
      unfold ServerResponse.recvWithTimeout at hRecv
      obtain ⟨first, -, hPair⟩ := map_eq_some_iff.mp hRecv
      obtain ⟨-, rfl⟩ := Prod.mk.inj hPair
      exact fun _ hRes => mem_of_mem_eraseP hRes
    have hWaiting : response.waitingTaskIds = s.response.waitingTaskIds := by
      unfold ServerResponse.recvWithTimeout at hRecv
      obtain ⟨first, -, hPair⟩ := map_eq_some_iff.mp hRecv
      obtain ⟨-, rfl⟩ := Prod.mk.inj hPair
      rfl
    rw [← some.inj hNext]
    exact h.section rfl ((h.served i).receive hPhase hRecv)
      (fun j hNe => ResponseReader.sameFor_recv (h.disjoint i j hNe.symm) hRecv)
      (fun _ hId => hWaiting ▸ hId) hQueue
  | stop i =>
    dsimp only [exec] at hStep
    split at hStep
    · exact absurd hStep (by simp)
    rename_i hPhase
    have hIds : (s.readers i).stop.idTasks = (s.readers i).idTasks := by
      unfold ResponseReader.stop; split <;> rfl
    rw [← some.inj hStep]
    exact h.section hIds ((h.served i).stop hPhase hLeft)
      (fun j hNe => ResponseReader.sameFor_removeAll (h.disjoint i j hNe.symm))
      (fun _ hId => (mem_filter.mp hId).1) (fun _ hRes => hRes)
  | cleanup i idTask =>
    dsimp only [exec] at hStep
    split at hStep
    · rename_i rest hPhase
      obtain ⟨hIn, hEq⟩ := ite_none_right_eq_some.mp hStep
      have hOwner := ((h.served i).cancelling rest hPhase).2 idTask hIn
      rw [← some.inj hEq]
      exact h.section rfl ((h.served i).cleanup hPhase)
        (fun j hNe => ResponseReader.sameFor_remove (h.disjoint i j hNe.symm idTask hOwner))
        (fun _ hId => (mem_filter.mp hId).1) (fun _ hRes => (mem_filter.mp hRes).1)
    · exact absurd hStep (by simp)
  | send res =>
    dsimp only [exec] at hStep
    rw [ServerResponse.send_eq] at hStep
    exact some.inj hStep ▸ h.send
  | broadcast res order =>
    obtain ⟨hOrder, hEq⟩ := ite_none_right_eq_some.mp hStep
    rw [ServerResponse.broadcast_eq hOrder] at hEq
    exact some.inj hEq ▸ h.send

/-- Nobody waits for these ids and no result for them is in the queue. -/
def Gone (ids : List Int) (s : ResponseSystem ρ) : Prop :=
  (∀ id ∈ ids, id ∉ s.response.waitingTaskIds) ∧ ∀ res ∈ s.response.queueResults, res.id ∉ ids

/-- Ids that are gone come back only when they are posted again, and a reader posts once. -/
theorem Gone.step (h : Gone ids s) (hOwn : OwnIds op s)
    (hIds : (s.readers i).idTasks = ids) (hNonempty : ids ≠ []) (hStep : step op s s') :
    Gone ids s' ∧ (s'.readers i).idTasks = ids := by
  have hKept : ∀ (j : Nat) (reader : ResponseReader ρ),
      reader.idTasks = (s.readers j).idTasks →
        ((s.setReader j reader).readers i).idTasks = ids := by
    intro j reader hSame
    by_cases hEq : i = j
    · rw [hEq, setReader_self, hSame, ← hEq, hIds]
    · rw [setReader_ne reader hEq, hIds]
  have hDeliver : ∀ news, Gone ids { s with response := s.response.deliver news } := by
    refine fun news => ⟨h.1, fun res hRes hId => ?_⟩
    rcases mem_append.mp hRes with hOld | hNew
    · exact h.2 res hOld hId
    · exact h.1 _ hId (of_decide_eq_true (mem_filter.mp hNew).2)
  unfold ResponseSystem.step at hStep
  cases op with
  | post j news =>
    obtain ⟨⟨hNil, -⟩, hEq⟩ := ite_none_right_eq_some.mp hStep
    have hNe : i ≠ j := fun hij => hNonempty (hIds ▸ hij ▸ hNil)
    rw [← some.inj hEq]
    refine ⟨⟨fun id hId hMem => ?_, h.2⟩, ?_⟩
    · rcases mem_union_iff.mp hMem with hNew | hOld
      · exact hOwn.2 i hNe id hNew (hIds ▸ hId)
      · exact h.1 id hId hOld
    · exact (congrArg ResponseReader.idTasks (setReader_ne _ hNe)).trans hIds
  | next j =>
    obtain ⟨-, hNext⟩ := ite_none_right_eq_some.mp hStep
    split at hNext
    · exact some.inj hNext ▸ ⟨h, hIds⟩
    rename_i res response hRecv
    unfold ServerResponse.recvWithTimeout at hRecv
    obtain ⟨first, -, hPair⟩ := map_eq_some_iff.mp hRecv
    obtain ⟨-, rfl⟩ := Prod.mk.inj hPair
    rw [← some.inj hNext]
    exact ⟨⟨h.1, fun res hRes => h.2 res (mem_of_mem_eraseP hRes)⟩, hKept j _ rfl⟩
  | stop j =>
    dsimp only [exec] at hStep
    split at hStep
    · exact absurd hStep (by simp)
    have hSame : (s.readers j).stop.idTasks = (s.readers j).idTasks := by
      unfold ResponseReader.stop; split <;> rfl
    rw [← some.inj hStep]
    exact ⟨⟨fun id hId hMem => h.1 id hId (mem_filter.mp hMem).1, h.2⟩, hKept j _ hSame⟩
  | cleanup j idTask =>
    dsimp only [exec] at hStep
    split at hStep
    · obtain ⟨-, hEq⟩ := ite_none_right_eq_some.mp hStep
      rw [← some.inj hEq]
      exact ⟨⟨fun id hId hMem => h.1 id hId (mem_filter.mp hMem).1,
        fun res hRes => h.2 res (mem_filter.mp hRes).1⟩, hKept j _ rfl⟩
    · exact absurd hStep (by simp)
  | send res =>
    dsimp only [exec] at hStep
    rw [ServerResponse.send_eq] at hStep
    exact some.inj hStep ▸ ⟨hDeliver [res], hIds⟩
  | broadcast res order =>
    obtain ⟨hOrder, hEq⟩ := ite_none_right_eq_some.mp hStep
    rw [ServerResponse.broadcast_eq hOrder] at hEq
    exact some.inj hEq ▸ ⟨hDeliver _, hIds⟩

/-- The ids of a step are its reader's own, and a stop without anything missing leaves
nothing. -/
def Settles (op : ResponseOp ρ) (s : ResponseSystem ρ) : Prop := OwnIds op s ∧ NothingLeft op s

theorem run_invariant (hRun : Run IsNew step Settles s) : s.Invariant :=
  hRun.invariant (fun _ => invariant_of_new) fun _ _ _ hInv hOp hStep =>
    hInv.step hOp.1 hOp.2 hStep

/-! ## Results that are sent in time -/

/-- Each of some results comes before the last of `n` final ones. -/
def InTime (n : Nat) (results : List (ServerTaskResult ρ)) : Prop :=
  ∀ k < results.length, ResponseReader.finals (results.take k) < n

/-- No waiting reader has been sent a result after as many final ones as it has ids. -/
def AllInTime (s : ResponseSystem ρ) : Prop :=
  ∀ i, (s.readers i).waits = true →
    InTime (s.readers i).idTasks.length ((s.readers i).sentTo s.sent)

/-- The worker sends a waiting reader nothing after its last final result, neither by a send nor by
a broadcast to all who wait: a late result would still be queued when the reader stops. -/
def Awaited : ResponseOp ρ → ResponseSystem ρ → Prop
  | .send res, s => AllInTime { s with sent := s.sent ++ [res] }
  | .broadcast res order, s =>
    AllInTime { s with sent := s.sent ++ ServerResponse.copies res order }
  | _, _ => True

/-- A reader that has all its final results then has taken all results. -/
theorem nothingLeft_of_inTime (h : reader.Served s.response s.sent)
    (hPhase : ∀ rest, reader.phase ≠ .cancelling rest)
    (hInTime : reader.waits = true → InTime reader.idTasks.length (reader.sentTo s.sent))
    (hCount : reader.idTasks.length ≤ reader.receivedCount) :
    ∀ res ∈ s.response.queueResults, res.id ∉ reader.idTasks := by
  intro res hRes hId
  have hMem : res ∈ s.response.queueResults.filter reader.owns :=
    mem_filter.mpr ⟨hRes, ResponseReader.owns_iff.mpr hId⟩
  by_cases hWaits : reader.waits = true
  · have hAll := h.all hWaits
    have hLt : reader.received.length < (reader.sentTo s.sent).length := by
      rw [← hAll, length_append]
      have := length_pos_of_mem hMem
      omega
    have hFinals := hInTime hWaits _ hLt
    rw [← hAll, take_left, ← h.counted] at hFinals
    omega
  · obtain ⟨rest, hRest, -⟩ := h.left (Bool.eq_false_iff.mpr hWaits) res hMem
    exact hPhase rest hRest

theorem AllInTime.section {i : Nat} {response : ServerResponse ρ} (h : AllInTime s)
    (hReader : reader.waits = true → InTime reader.idTasks.length (reader.sentTo s.sent)) :
    AllInTime { s.setReader i reader with response } := by
  intro j
  by_cases hEq : j = i
  · rw [hEq, setReader_self]
    exact hReader
  · rw [setReader_ne reader hEq]
    exact h j

theorem AllInTime.step (h : AllInTime s) (hAwaited : Awaited op s)
    (hStep : step op s s') : AllInTime s' := by
  unfold ResponseSystem.step at hStep
  cases op with
  | post i ids =>
    obtain ⟨-, hEq⟩ := ite_none_right_eq_some.mp hStep
    rw [← some.inj hEq]
    refine h.section fun _ k hLt => ?_
    have hNone : ((s.readers i).post ids s.sent.length).sentTo s.sent = [] := by
      unfold ResponseReader.sentTo ResponseReader.post
      rw [drop_length, filter_nil]
    rw [hNone] at hLt
    exact absurd hLt (Nat.not_lt_zero k)
  | next i =>
    obtain ⟨-, hNext⟩ := ite_none_right_eq_some.mp hStep
    split at hNext
    · exact some.inj hNext ▸ h
    · rw [← some.inj hNext]
      exact h.section fun hWaits => h i hWaits
  | stop i =>
    dsimp only [exec] at hStep
    split at hStep
    · exact absurd hStep (by simp)
    rw [← some.inj hStep]
    refine h.section fun hWaits => absurd hWaits ?_
    unfold ResponseReader.stop
    split <;> exact Bool.false_ne_true
  | cleanup i idTask =>
    dsimp only [exec] at hStep
    split at hStep
    · obtain ⟨-, hEq⟩ := ite_none_right_eq_some.mp hStep
      rw [← some.inj hEq]
      exact h.section fun hWaits => h i hWaits
    · exact absurd hStep (by simp)
  | send res => exact some.inj hStep ▸ hAwaited
  | broadcast res order =>
    obtain ⟨-, hEq⟩ := ite_none_right_eq_some.mp hStep
    exact some.inj hEq ▸ hAwaited

/-- What the readers and the worker keep to: the ids of a step are its reader's own, and nothing is
sent too late. -/
def Timely (op : ResponseOp ρ) (s : ResponseSystem ρ) : Prop := OwnIds op s ∧ Awaited op s

/-- In such a run a stop with nothing missing leaves nothing in the queue. -/
theorem settles_of_timely (hRun : Run IsNew step Timely s) :
    Run IsNew step Settles s ∧ AllInTime s := by
  induction hRun with
  | start hInit =>
    refine ⟨.start hInit, fun i hWaits => ?_⟩
    rw [hInit] at hWaits
    exact absurd hWaits Bool.false_ne_true
  | @step op s s' _ hOp hStep ih =>
    refine ⟨.step op ih.1 ⟨hOp.1, ?_⟩ hStep, ih.2.step hOp.2 hStep⟩
    cases op with
    | stop i =>
      have hPhase : ∀ rest, (s.readers i).phase ≠ .cancelling rest := by
        intro rest hRest
        unfold ResponseSystem.step at hStep
        dsimp only [exec] at hStep
        rw [hRest] at hStep
        exact absurd hStep (by simp)
      exact nothingLeft_of_inTime ((run_invariant ih.1).served i) hPhase (ih.2 i)
    | _ => trivial

/-- In every run in which the worker sends a reader nothing after its last final result, a reader
receives what was sent to it since it posted, once and in order; while it waits, all the rest is in
the queue; and once its stop has returned, no result with one of its ids is ever in the queue
again, whatever is sent. -/
theorem run_delivered (hRun : Run IsNew step Timely s) (i : Nat) :
    (∀ res ∈ (s.readers i).received, res.id ∈ (s.readers i).idTasks) ∧
      (s.readers i).received <+: (s.readers i).sentTo s.sent ∧
      ((s.readers i).waits = true →
        (s.readers i).received ++ s.response.queueResults.filter (s.readers i).owns =
          (s.readers i).sentTo s.sent) ∧
      ((s.readers i).Stopped → ∀ s', Run (fun s₀ => s₀ = s) step OwnIds s' →
        ∀ res ∈ s'.response.queueResults, res.id ∉ (s.readers i).idTasks) := by
  have hServed := (run_invariant (settles_of_timely hRun).1).served i
  refine ⟨fun res hRes => ?_, hServed.received_prefix, hServed.all, ?_⟩
  · have hSent := hServed.received_prefix.subset hRes
    exact ResponseReader.owns_iff.mp (mem_filter.mp hSent).2
  rintro ⟨hWaits, hPhase⟩ s' hLater
  by_cases hNil : (s.readers i).idTasks = []
  · rw [hNil]
    exact fun _ _ => not_mem_nil
  have hGone : Gone (s.readers i).idTasks s := by
    refine ⟨fun id hId hMem => ?_, fun res hRes hId => ?_⟩
    · have hTrue := (hServed.waiting id hId).mp hMem
      exact absurd (hWaits.symm.trans hTrue) Bool.false_ne_true
    obtain ⟨rest, hRest, -⟩ := hServed.left hWaits res
      (mem_filter.mpr ⟨hRes, ResponseReader.owns_iff.mpr hId⟩)
    exact absurd (hPhase.symm.trans hRest) (by simp)
  have hEnd : Gone (s.readers i).idTasks s' ∧
      (s'.readers i).idTasks = (s.readers i).idTasks :=
    hLater.invariant
      (I := fun c => Gone (s.readers i).idTasks c ∧
        (c.readers i).idTasks = (s.readers i).idTasks)
      (fun c hEq => by rw [hEq]; exact ⟨hGone, rfl⟩)
      fun _ _ _ hInv hOp hStep => hInv.1.step hOp hInv.2 hNil hStep
  exact hEnd.1.2

/-- A waiting reader with all its final results has taken everything that was sent to it: when it
stops, nothing of it is in the queue. -/
theorem run_drained (hRun : Run IsNew step Timely s) {i : Nat}
    (hWaits : (s.readers i).waits = true)
    (hCount : (s.readers i).idTasks.length ≤ (s.readers i).receivedCount) :
    (s.readers i).received = (s.readers i).sentTo s.sent ∧
      ∀ res ∈ s.response.queueResults, res.id ∉ (s.readers i).idTasks := by
  obtain ⟨hSettles, hInTime⟩ := settles_of_timely hRun
  have hServed := (run_invariant hSettles).served i
  have hPhase : ∀ rest, (s.readers i).phase ≠ .cancelling rest := fun rest hRest =>
    absurd (hWaits.symm.trans (hServed.cancelling rest hRest).1) (by simp)
  have hNone := nothingLeft_of_inTime hServed hPhase (hInTime i) hCount
  refine ⟨?_, hNone⟩
  have hQueue : s.response.queueResults.filter (s.readers i).owns = [] :=
    filter_eq_nil_iff.mpr fun res hRes hOwn => hNone res hRes (ResponseReader.owns_iff.mp hOwn)
  rw [← hServed.all hWaits, hQueue, append_nil]

/-! ## A result after the last one -/

/-- A reader has posted task 1. -/
def onePosted : ResponseSystem UInt8 where
  response := { waitingTaskIds := [1] }
  readers := Function.update (fun _ => {}) 0 { idTasks := [1], waits := true }

theorem onePosted_run : Run IsNew step OwnIds onePosted :=
  .step (ResponseOp.post 0 [1]) (.start rfl) ⟨by decide, fun _ _ _ _ => not_mem_nil⟩ rfl

def partialResult : ServerTaskResult UInt8 := { id := 1, isStop := false, data := 10 }

def finalResult : ServerTaskResult UInt8 := { id := 1, data := 20 }

/-- The worker sends a partial result and the final one, and the reader takes both. -/
def bothTaken : ResponseSystem UInt8 :=
  ([.send partialResult, .send finalResult, .next 0, .next 0].foldlM exec onePosted).getD {}

theorem onePosted_inTime {s : ResponseSystem UInt8} (hReaders : s.readers = onePosted.readers)
    (hInTime : InTime 1 ((onePosted.readers 0).sentTo s.sent)) : AllInTime s := by
  intro i hWaits
  rw [hReaders] at hWaits ⊢
  by_cases hEq : i = 0
  · rw [hEq]
    exact hInTime
  unfold onePosted at hWaits
  dsimp only at hWaits
  rw [Function.update_of_ne hEq] at hWaits
  exact absurd hWaits Bool.false_ne_true

theorem bothTaken_run : Run IsNew step Timely bothTaken := by
  have hPosted : Run IsNew step Timely onePosted :=
    .step (ResponseOp.post 0 [1]) (.start rfl)
      ⟨⟨by decide, fun _ _ _ _ => not_mem_nil⟩, trivial⟩ rfl
  have hFirst := Run.step (ResponseOp.send partialResult) hPosted
    ⟨trivial, onePosted_inTime rfl (by unfold InTime; decide)⟩ rfl
  have hSecond := Run.step (ResponseOp.send finalResult) hFirst
    ⟨trivial, onePosted_inTime rfl (by unfold InTime; decide)⟩ rfl
  exact .step (ResponseOp.next 0) (.step (ResponseOp.next 0) hSecond ⟨trivial, trivial⟩ rfl)
    ⟨trivial, trivial⟩ rfl

/-- The reader has both results, and its stop finds nothing to clean up. -/
theorem bothTaken_drained : (bothTaken.readers 0).received = [partialResult, finalResult] ∧
    ∀ res ∈ bothTaken.response.queueResults, res.id ∉ [(1 : Int)] :=
  @run_drained _ _ bothTaken_run 0 rfl (by decide)

/-- Then the reader stops, and later results for task 1 go nowhere. -/
theorem bothTaken_delivered : ∃ s : ResponseSystem UInt8, bothTaken.exec (.stop 0) = some s ∧
    (s.readers 0).received <+: [partialResult, finalResult] ∧
    ∀ s', Run (fun s₀ => s₀ = s) step OwnIds s' →
      ∀ res ∈ s'.response.queueResults, res.id ∉ [(1 : Int)] := by
  have hRun := Run.step (ResponseOp.stop 0) bothTaken_run ⟨trivial, trivial⟩ rfl
  obtain ⟨-, hPrefix, -, hGone⟩ := run_delivered hRun 0
  exact ⟨_, rfl, hPrefix, hGone ⟨rfl, rfl⟩⟩

/-- The worker sends the final result and then a broadcast, and the reader stops after the final
result. -/
def broadcastLate : List (ResponseOp UInt8) :=
  [.send { id := 1, data := 20 }, .broadcast { id := 0, isStop := false, data := 30 } [1], .next 0,
    .stop 0]

/-- The copy of the broadcast remains in the queue. -/
theorem broadcastLate_leaks :
    ∃ s : ResponseSystem UInt8, Run IsNew step OwnIds s ∧ (s.readers 0).Stopped ∧
      ∃ res ∈ s.response.queueResults, res.id ∈ (s.readers 0).idTasks := by
  have hExec : (broadcastLate.foldlM exec onePosted).map (fun s =>
      (s.response.queueResults, s.readers 0)) =
      some ([{ id := 1, isStop := false, data := 30 }],
        { idTasks := [1], receivedCount := 1, received := [{ id := 1, data := 20 }] }) := by
    decide
  obtain ⟨s, hRun, hEnd⟩ := map_eq_some_iff.mp hExec
  obtain ⟨hQueue, hReader⟩ := Prod.mk.inj hEnd
  refine ⟨s, onePosted_run.execAll (fun op hOp c => ?_) hRun, ?_, ?_⟩
  · simp only [broadcastLate, mem_cons, not_mem_nil, or_false] at hOp
    rcases hOp with rfl | rfl | rfl | rfl <;> trivial
  · rw [hReader]
    exact ⟨rfl, rfl⟩
  · rw [hQueue, hReader]
    exact ⟨_, mem_singleton_self _, mem_singleton_self _⟩

end ResponseSystem

end Beellama.Ports
