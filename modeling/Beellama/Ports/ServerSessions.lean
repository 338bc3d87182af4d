import Beellama.Ports.ServerStream

/-!
# The table of stream sessions and the requests that use it

`stream_session_manager` and `server_res_spipe` of `src/tools/server/server-stream.cpp`.  Sessions are
looked up by conversation id: a request that fails before it streams evicts whatever session its id
stands for.  Every critical section is one step of the thread that makes it.  `Reachable.endsOwn` says
what may end a session as long as a failing request finds its own session under its id.
-/

namespace Beellama.Ports

open Beellama.Verified List Option

/-- What a session was finalized by. -/
inductive EndCause
  /-- the producer of a request was destroyed -/
  | producer (r : Nat)
  /-- `on_complete` of a request whose `set_next` never ran -/
  | failed (r : Nat)
  /-- `set_req` of a request with the same conversation id -/
  | replaced (r : Nat)
  /-- `DELETE` -/
  | deleted (conv : String)
  /-- `gc_loop` -/
  | expired
  /-- `stop_gc` -/
  | shutdown
  deriving DecidableEq, Repr

/-- `stream_session`, with the request that installed it and what ended it. -/
structure ServerSession where
  /-- `conversation_id` -/
  conv : String
  owner : Nat
  stream : StreamSession
  cancelled : Bool := false
  completedTs : Nat := 0
  endedBy : Option EndCause := none
  deriving DecidableEq, Repr

/-- `server_res_spipe` -/
structure StreamRequest where
  /-- the conversation id of the headers, empty when absent -/
  conv : String
  /-- `spipe`: the session of the producer -/
  spipe : Option Nat := none
  /-- `next_orig` is there -/
  nextOrig : Bool := false
  nextFinished : Bool := false
  deriving DecidableEq, Repr

/-- What is left to do for a call that has left the table. -/
inductive SessionTask
  | cancel (i : Nat)
  | finalize (i : Nat) (cause : EndCause)
  deriving DecidableEq, Repr

/-- The sessions ever installed, the table, the requests and the calls under way. -/
structure SessionSystem where
  sessions : List ServerSession := []
  /-- `sessions` of the manager -/
  table : List (String × Nat) := []
  requests : List StreamRequest := []
  threads : List (List SessionTask) := []
  deriving DecidableEq, Repr

inductive SessionOp
  | setReq (conv : String)
  | setNext (r : Nat)
  /-- `next` of the response -/
  | next (r : Nat) (out : List UInt8) (hasNext : Bool)
  /-- one turn of the loop of `on_complete` -/
  | drain (r : Nat) (chunk : List UInt8)
  | onComplete (r : Nat)
  /-- the response is destroyed -/
  | destroy (r : Nat) (now : Nat)
  | delete (conv : String)
  | gc (cutoff : Nat)
  | stop
  /-- a call under way does what is next -/
  | run (t : Nat) (now : Nat)

/-- `STREAM_SESSION_MAX_BYTES` -/
def streamSessionMaxBytes : Nat := 4 * 1024 * 1024

namespace ServerSession

/-- `finalize` -/
def finalize (now : Nat) (cause : EndCause) (s : ServerSession) : ServerSession :=
  if s.stream.done then s
  else { s with stream := s.stream.finalize, completedTs := now, endedBy := some cause }

/-- `append` -/
def append (data : List UInt8) (s : ServerSession) : ServerSession :=
  { s with stream := (s.stream.append data).1 }

def cancel (s : ServerSession) : ServerSession := { s with cancelled := true }

end ServerSession

namespace SessionSystem

/-- `sessions.erase` -/
def erase (table : List (String × Nat)) (conv : String) : List (String × Nat) :=
  table.filter fun entry => entry.1 ≠ conv

/-- Apply a function to a session. -/
def onSession (sys : SessionSystem) (i : Nat) (f : ServerSession → ServerSession) : SessionSystem :=
  { sys with sessions := sys.sessions.modify i f }

/-- A call leaves the table with tasks to do. -/
def leave (sys : SessionSystem) (tasks : List SessionTask) : SessionSystem :=
  { sys with threads := sys.threads ++ [tasks] }

/-- `create_or_replace` for request `r`, up to the end of its critical section. -/
def createOrReplace (sys : SessionSystem) (conv : String) (r : Nat) : SessionSystem :=
  let fresh := sys.sessions.length
  let installed := { sys with
    sessions := sys.sessions ++
      [{ conv := conv, owner := r, stream := { cap := streamSessionMaxBytes } }]
    table := (conv, fresh) :: erase sys.table conv }
  match sys.table.lookup conv with
  | some previous => installed.leave [.cancel previous, .finalize previous (.replaced r)]
  | none => installed

/-- `evict` -/
def evict (sys : SessionSystem) (conv : String) (cause : EndCause) : SessionSystem :=
  match sys.table.lookup conv with
  | none => sys
  | some i => { sys with table := erase sys.table conv }.leave [.finalize i cause]

/-- `evict_and_cancel` -/
def evictAndCancel (sys : SessionSystem) (conv : String) : SessionSystem :=
  match sys.table.lookup conv with
  | none => sys
  | some i =>
    { sys with table := erase sys.table conv }.leave [.cancel i, .finalize i (.deleted conv)]

/-- One turn of `gc_loop`: sessions that were completed up to the cutoff are dropped. -/
def gcTurn (sys : SessionSystem) (cutoff : Nat) : SessionSystem :=
  let dropped := fun entry : String × Nat =>
    match sys.sessions[entry.2]? with
    | some s => decide (s.completedTs ≠ 0 ∧ s.completedTs ≤ cutoff)
    | none => false
  { sys with table := sys.table.filter fun entry => !dropped entry }.leave
    ((sys.table.filter dropped).map fun entry : String × Nat =>
      SessionTask.finalize entry.2 .expired)

/-- `stop_gc` -/
def stopGc (sys : SessionSystem) : SessionSystem :=
  { sys with table := [] }.leave (sys.table.map fun entry : String × Nat =>
    SessionTask.finalize entry.2 .shutdown)

/-- `set_req` of a new response; its producer exists when its call of
`create_or_replace` has done its tasks. -/
def setReq (sys : SessionSystem) (conv : String) : SessionSystem :=
  if conv = "" then { sys with requests := sys.requests ++ [{ conv := conv }] }
  else
    let next := sys.createOrReplace conv sys.requests.length
    { next with requests := next.requests ++ [{ conv := conv, spipe := some sys.sessions.length }] }

/-- `set_next` -/
def setNext (sys : SessionSystem) (r : Nat) : SessionSystem :=
  { sys with requests := sys.requests.modify r fun q => { q with nextOrig := true } }

/-- `next`, where it was set. -/
def next (sys : SessionSystem) (r : Nat) (out : List UInt8) (hasNext : Bool) : SessionSystem :=
  match sys.requests[r]? with
  | none => sys
  | some q =>
    if q.nextOrig then
      let written := match q.spipe with
        | some i => sys.onSession i (ServerSession.append out)
        | none => sys
      if hasNext then written
      else { written with
        requests := written.requests.modify r fun q => { q with nextFinished := true } }
    else sys

/-- One turn of the loop of `on_complete`. -/
def drain (sys : SessionSystem) (r : Nat) (chunk : List UInt8) : SessionSystem :=
  match sys.requests[r]? with
  | none => sys
  | some q =>
    match q.spipe with
    | none => sys
    | some i =>
      if q.nextFinished = false ∧ q.nextOrig ∧
          (sys.sessions[i]?.map ServerSession.cancelled).getD false = false then
        sys.onSession i (ServerSession.append chunk)
      else sys

/-- `on_complete` up to its loop. -/
def onComplete (sys : SessionSystem) (r : Nat) : SessionSystem :=
  match sys.requests[r]? with
  | none => sys
  | some q =>
    if q.spipe = none ∨ q.nextFinished then sys
    -- the request failed before streaming started
    else if q.nextOrig = false then sys.evict q.conv (.failed r)
    else sys

/-- The response is destroyed, and its producer with it. -/
def destroy (sys : SessionSystem) (r : Nat) (now : Nat) : SessionSystem :=
  match sys.requests[r]? with
  | none => sys
  | some q =>
    match q.spipe with
    | none => sys
    | some i =>
      { sys.onSession i (ServerSession.finalize now (.producer r)) with
        requests := sys.requests.modify r fun q => { q with spipe := none } }

def runTask (sys : SessionSystem) (now : Nat) : SessionTask → SessionSystem
  | .cancel i => sys.onSession i ServerSession.cancel
  | .finalize i cause => sys.onSession i (ServerSession.finalize now cause)

/-- A call under way does its next task. -/
def runThread (sys : SessionSystem) (t : Nat) (now : Nat) : SessionSystem :=
  match sys.threads[t]? with
  | some (task :: _) =>
    { sys.runTask now task with threads := sys.threads.modify t List.tail }
  | _ => sys

def step (sys : SessionSystem) : SessionOp → SessionSystem
  | .setReq conv => sys.setReq conv
  | .setNext r => sys.setNext r
  | .next r out hasNext => sys.next r out hasNext
  | .drain r chunk => sys.drain r chunk
  | .onComplete r => sys.onComplete r
  | .destroy r now => sys.destroy r now
  | .delete conv => sys.evictAndCancel conv
  | .gc cutoff => sys.gcTurn cutoff
  | .stop => sys.stopGc
  | .run t now => sys.runThread t now

/-! ## What may end a session -/

/-- What may end the session that request `owner` has installed: its own request, a later one of the
conversation, a `DELETE`, and the shutdown. -/
def MayEnd (convs : List String) (s : ServerSession) : EndCause → Prop
  | .producer r | .failed r => r = s.owner
  | .replaced r => s.owner < r ∧ convs[r]? = some s.conv
  | .deleted conv => conv = s.conv
  | .expired => False
  | .shutdown => True

instance (convs : List String) (s : ServerSession) (cause : EndCause) :
    Decidable (MayEnd convs s cause) := by
  cases cause <;> (unfold MayEnd; infer_instance)

/-- Every session that is done was ended by something that may end it. -/
def EndsOwn (sys : SessionSystem) : Prop :=
  ∀ s ∈ sys.sessions, s.stream.done = true →
    ∃ cause ∈ s.endedBy, MayEnd (sys.requests.map StreamRequest.conv) s cause

instance (sys : SessionSystem) : Decidable (EndsOwn sys) := by
  unfold EndsOwn
  infer_instance

/-- The failing request finds its own session under its conversation id, or none. -/
def FindsOwn (op : SessionOp) (sys : SessionSystem) : Prop :=
  match op with
  | .onComplete r =>
    ∀ q ∈ sys.requests[r]?, q.nextFinished = false → q.nextOrig = false →
      ∀ i ∈ q.spipe, ∀ j ∈ sys.table.lookup q.conv, j = i
  | _ => True

instance (op : SessionOp) (sys : SessionSystem) : Decidable (FindsOwn op sys) := by
  cases op <;> (unfold FindsOwn; infer_instance)

/-- The request that completes leaves the sessions of the others under their ids. -/
def LeavesOthers (op : SessionOp) (sys : SessionSystem) : Prop :=
  match op with
  | .onComplete r =>
    ∀ conv i, sys.table.lookup conv = some i → (∀ s ∈ sys.sessions[i]?, s.owner ≠ r) →
      (sys.step op).table.lookup conv = some i
  | _ => True

/-- The states of the interleavings in which failing requests find their own sessions. -/
def Reachable (sys : SessionSystem) : Prop :=
  Run (· = {}) (fun op sys sys' => sys' = step sys op) FindsOwn sys

/-- The conversations of the requests, by request. -/
def convs (sys : SessionSystem) : List String := sys.requests.map StreamRequest.conv

/-! ## The sessions -/

/-- What holds of every session in every state. -/
structure SoundSession (convs : List String) (s : ServerSession) : Prop where
  owner : s.owner < convs.length
  completed : s.completedTs ≠ 0 → s.stream.done = true
  ended : s.stream.done = true → ∃ cause ∈ s.endedBy, MayEnd convs s cause

/-- `s'` is the session `s` later on. -/
structure SameSession (s s' : ServerSession) : Prop where
  conv : s'.conv = s.conv
  owner : s'.owner = s.owner
  done : s.stream.done = true → s'.stream.done = true

theorem SameSession.refl (s : ServerSession) : SameSession s s := ⟨rfl, rfl, id⟩

variable {convs convs' : List String} {s : ServerSession} {cause : EndCause}

theorem MayEnd.later {s' : ServerSession}
    (h : MayEnd convs s cause) (hConvs : convs <+: convs') (hSame : SameSession s s') :
    MayEnd convs' s' cause := by
  cases cause with
  | producer r => exact h.trans hSame.owner.symm
  | failed r => exact h.trans hSame.owner.symm
  | replaced r =>
    obtain ⟨hBefore, hConv⟩ := h
    refine ⟨hSame.owner ▸ hBefore, ?_⟩
    rw [hSame.conv]
    obtain ⟨more, rfl⟩ := hConvs
    rw [List.getElem?_append_left (List.getElem?_eq_some_iff.mp hConv).1]
    exact hConv
  | deleted conv => exact Eq.trans h hSame.conv.symm
  | expired => exact h
  | shutdown => trivial

theorem SoundSession.later
    (h : SoundSession convs s) (hConvs : convs <+: convs') : SoundSession convs' s where
  owner := Nat.lt_of_lt_of_le h.owner hConvs.length_le
  completed := h.completed
  ended hDone := by
    obtain ⟨cause, hCause, hMay⟩ := h.ended hDone
    exact ⟨cause, hCause, hMay.later hConvs (SameSession.refl s)⟩

theorem sameSession_append (data : List UInt8) (s : ServerSession) :
    SameSession s (s.append data) where
  conv := rfl
  owner := rfl
  done hDone := by
    show (s.stream.append data).1.done = true
    rw [(StreamSystem.append_dropped_le s.stream data).2]
    exact hDone

theorem sameSession_cancel (s : ServerSession) : SameSession s s.cancel := ⟨rfl, rfl, id⟩

theorem sameSession_finalize (now : Nat) (cause : EndCause) (s : ServerSession) :
    SameSession s (s.finalize now cause) := by
  unfold ServerSession.finalize
  by_cases hDone : s.stream.done = true
  · rw [if_pos hDone]
    exact SameSession.refl s
  · rw [if_neg hDone]
    exact ⟨rfl, rfl, fun _ => rfl⟩

theorem SoundSession.append
    (h : SoundSession convs s) (data : List UInt8) : SoundSession convs (s.append data) := by
  have hDone : (s.append data).stream.done = s.stream.done :=
    (StreamSystem.append_dropped_le s.stream data).2
  refine ⟨h.owner, fun hCompleted => hDone.trans (h.completed hCompleted), fun hNow => ?_⟩
  obtain ⟨cause, hCause, hMay⟩ := h.ended (hDone.symm.trans hNow)
  exact ⟨cause, hCause, hMay.later (prefix_refl _) (sameSession_append data s)⟩

theorem SoundSession.cancel (h : SoundSession convs s) : SoundSession convs s.cancel where
  owner := h.owner
  completed := h.completed
  ended hDone := by
    obtain ⟨cause, hCause, hMay⟩ := h.ended hDone
    exact ⟨cause, hCause, hMay.later (prefix_refl _) (sameSession_cancel s)⟩

/-- Whoever finalizes a session may end it, or comes too late. -/
theorem SoundSession.finalize
    (h : SoundSession convs s) (now : Nat) (hMay : s.stream.done = true ∨ MayEnd convs s cause) :
    SoundSession convs (s.finalize now cause) := by
  have hSame := sameSession_finalize now cause s
  unfold ServerSession.finalize at hSame ⊢
  by_cases hDone : s.stream.done = true
  · rw [if_pos hDone]
    exact h
  rw [if_neg hDone] at hSame ⊢
  have hCause := hMay.resolve_left hDone
  exact ⟨h.owner, fun _ => rfl,
    fun _ => ⟨cause, rfl, hCause.later (prefix_refl _) hSame⟩⟩

/-! ## What holds in every state -/

/-- The task finalizes a session that its cause may end, or that is done. -/
def Legitimate (sys : SessionSystem) : SessionTask → Prop
  | .cancel _ => True
  | .finalize i cause =>
    ∃ s, sys.sessions[i]? = some s ∧ (s.stream.done = true ∨ MayEnd sys.convs s cause)

/-- The table and the requests point to sessions of their own conversations, and every
call under way may end what it is about to end. -/
structure Consistent (sys : SessionSystem) : Prop where
  sessions : ∀ (i : Nat) s, sys.sessions[i]? = some s → SoundSession sys.convs s
  table : ∀ entry ∈ sys.table,
    ∃ s : ServerSession, sys.sessions[entry.2]? = some s ∧ s.conv = entry.1
  spipe : ∀ (r : Nat) q, sys.requests[r]? = some q → ∀ i ∈ q.spipe,
    ∃ s : ServerSession, sys.sessions[i]? = some s ∧ s.owner = r ∧ s.conv = q.conv
  tasks : ∀ tasks ∈ sys.threads, ∀ task ∈ tasks, Legitimate sys task

variable {task : SessionTask}

theorem Legitimate.later {sys sys' : SessionSystem}
    (h : Legitimate sys task) (hConvs : sys.convs <+: sys'.convs)
    (hSessions : ∀ (i : Nat) s, sys.sessions[i]? = some s →
      ∃ s', sys'.sessions[i]? = some s' ∧ SameSession s s') : Legitimate sys' task := by
  cases task with
  | cancel i => trivial
  | finalize i cause =>
    obtain ⟨s, hSession, hMay⟩ := h
    obtain ⟨s', hSession', hSame⟩ := hSessions i s hSession
    refine ⟨s', hSession', ?_⟩
    rcases hMay with hDone | hMay
    · exact Or.inl (hSame.done hDone)
    · exact Or.inr (hMay.later hConvs hSame)

theorem consistent_empty : Consistent {} := by
  refine ⟨?_, ?_, ?_, ?_⟩
  · intro i s hSession
    simp at hSession
  · intro entry hEntry
    exact absurd hEntry not_mem_nil
  · intro r q hRequest
    simp at hRequest
  · intro tasks hTasks
    exact absurd hTasks not_mem_nil

variable {sys : SessionSystem}

variable {table : List (String × Nat)} {conv : String} {i : Nat}

theorem mem_of_lookup (h : table.lookup conv = some i) : (conv, i) ∈ table := by
  induction table with
  | nil => simp at h
  | cons entry rest ih =>
    rw [lookup_cons] at h
    by_cases hKey : conv == entry.1
    · rw [hKey] at h
      have hValue : entry.2 = i := by simpa using h
      have hEq : entry = (conv, i) := Prod.ext (eq_of_beq hKey).symm hValue
      rw [hEq]
      exact mem_cons_self
    rw [Bool.not_eq_true] at hKey
    rw [hKey] at h
    exact mem_cons_of_mem _ (ih h)

section

variable (h : Consistent sys)

include h

theorem Consistent.onSession (i : Nat) {f : ServerSession → ServerSession}
    (hSame : ∀ s, SameSession s (f s))
    (hSound : ∀ s, sys.sessions[i]? = some s → SoundSession sys.convs (f s)) :
    Consistent (sys.onSession i f) := by
  have hLater : ∀ (j : Nat) s, sys.sessions[j]? = some s →
      ∃ s', (sys.onSession i f).sessions[j]? = some s' ∧ SameSession s s' := by
    intro j s hSession
    show ∃ s', (sys.sessions.modify i f)[j]? = some s' ∧ SameSession s s'
    rw [getElem?_modify, hSession]
    by_cases hIndex : i = j
    · exact ⟨f s, by simp [hIndex], hSame s⟩
    · exact ⟨s, by simp [hIndex], SameSession.refl s⟩
  refine ⟨?_, ?_, ?_, ?_⟩
  · intro j s hSession
    have hModify : (sys.sessions.modify i f)[j]? = some s := hSession
    by_cases hIndex : i = j
    · rw [hIndex, getElem?_modify_eq] at hModify
      obtain ⟨before, hBefore, rfl⟩ := map_eq_some_iff.mp hModify
      exact hSound before (hIndex ▸ hBefore)
    · rw [getElem?_modify_ne _ _ hIndex] at hModify
      exact h.sessions j s hModify
  · intro entry hEntry
    obtain ⟨s, hSession, hConv⟩ := h.table entry hEntry
    obtain ⟨s', hSession', hLaterSame⟩ := hLater entry.2 s hSession
    exact ⟨s', hSession', hLaterSame.conv.trans hConv⟩
  · intro r q hRequest j hSpipe
    obtain ⟨s, hSession, hOwner, hConv⟩ := h.spipe r q hRequest j hSpipe
    obtain ⟨s', hSession', hLaterSame⟩ := hLater j s hSession
    exact ⟨s', hSession', hLaterSame.owner.trans hOwner, hLaterSame.conv.trans hConv⟩
  · intro tasks hTasks task hTask
    exact (h.tasks tasks hTasks task hTask).later (prefix_refl _) hLater

theorem Consistent.leave {tasks : List SessionTask}
    (hTasks : ∀ task ∈ tasks, Legitimate sys task) : Consistent (sys.leave tasks) := by
  refine ⟨h.sessions, h.table, h.spipe, ?_⟩
  intro some hSome task hTask
  rcases mem_append.mp hSome with hOld | hNew
  · exact h.tasks some hOld task hTask
  · rw [mem_singleton.mp hNew] at hTask
    exact hTasks task hTask

theorem Consistent.shrink (hTable : ∀ entry ∈ table, entry ∈ sys.table) : Consistent
    { sys with table := table } :=
  ⟨h.sessions, fun entry hEntry => h.table entry (hTable entry hEntry), h.spipe, h.tasks⟩

omit h in
theorem erase_subset : ∀ entry ∈ erase table conv, entry ∈ table :=
  fun _ hEntry => (mem_filter.mp hEntry).1

/-- A request changes, but not its conversation, and it gets no other producer. -/
theorem Consistent.onRequest (r : Nat) {f : StreamRequest → StreamRequest}
    (hConv : ∀ q, (f q).conv = q.conv) (hSpipe : ∀ q, ∀ i ∈ (f q).spipe, i ∈ q.spipe) :
    Consistent { sys with requests := sys.requests.modify r f } := by
  have hConvs : convs { sys with requests := sys.requests.modify r f } = sys.convs := by
    refine ext_getElem? fun j => ?_
    show ((sys.requests.modify r f).map StreamRequest.conv)[j]? =
      (sys.requests.map StreamRequest.conv)[j]?
    by_cases hIndex : r = j
    · simp [hIndex, Function.comp_def, hConv]
    · simp [hIndex]
  refine ⟨?_, h.table, ?_, ?_⟩
  · rw [hConvs]
    exact h.sessions
  · intro j q hRequest i hPipe
    have hModify : (sys.requests.modify r f)[j]? = some q := hRequest
    by_cases hIndex : r = j
    · rw [hIndex, getElem?_modify_eq] at hModify
      obtain ⟨before, hBefore, rfl⟩ := map_eq_some_iff.mp hModify
      obtain ⟨s, hSession, hOwner, hSame⟩ := h.spipe j before hBefore i (hSpipe before i hPipe)
      exact ⟨s, hSession, hOwner, hSame.trans (hConv before).symm⟩
    · rw [getElem?_modify_ne _ _ hIndex] at hModify
      exact h.spipe j q hModify i hPipe
  intro tasks hTasks task hTask
  exact (h.tasks tasks hTasks task hTask).later (hConvs ▸ prefix_refl _)
    (fun _ s hSession => ⟨s, hSession, .refl s⟩)

omit h in
theorem getElem?_concat_cases {α : Type} {l : List α} {a b : α}
    (h : (l ++ [a])[i]? = some b) : l[i]? = some b ∨ (i = l.length ∧ b = a) := by
  rcases Nat.lt_trichotomy i l.length with hLt | hEq | hGt
  · rw [getElem?_append_left hLt] at h
    exact Or.inl h
  · rw [hEq, getElem?_concat_length] at h
    exact Or.inr ⟨hEq, (some.inj h).symm⟩
  rw [getElem?_append_right (Nat.le_of_lt hGt),
    getElem?_eq_none (Nat.succ_le_of_lt (Nat.sub_pos_of_lt hGt))] at h
  cases h

omit h in
theorem convs_concat (l : List StreamRequest) (q : StreamRequest) :
    l.map StreamRequest.conv <+: (l ++ [q]).map StreamRequest.conv := by
  rw [map_append]
  exact prefix_append _ _

theorem Consistent.arrive (conv : String) :
    Consistent { sys with requests := sys.requests ++ [{ conv := conv }] } := by
  have hConvs : sys.convs <+: convs { sys with requests := sys.requests ++ [{ conv := conv }] } :=
    convs_concat sys.requests _
  refine ⟨fun i s hSession => (h.sessions i s hSession).later hConvs, h.table, ?_, ?_⟩
  · intro r q hRequest i hPipe
    rcases getElem?_concat_cases hRequest with hOld | hNew
    · exact h.spipe r q hOld i hPipe
    · rw [hNew.2] at hPipe
      cases hPipe
  intro tasks hTasks task hTask
  exact (h.tasks tasks hTasks task hTask).later hConvs
    (fun _ s hSession => ⟨s, hSession, .refl s⟩)

/-- The system in which request `r` has installed a session for its conversation. -/
def installed (sys : SessionSystem) (conv : String) : SessionSystem :=
  { sys with
    sessions := sys.sessions ++ [{ conv := conv, owner := sys.requests.length
                                   stream := { cap := streamSessionMaxBytes } }]
    table := (conv, sys.sessions.length) :: erase sys.table conv
    requests := sys.requests ++ [{ conv := conv, spipe := some sys.sessions.length }] }

theorem Consistent.install (conv : String) : Consistent (sys.installed conv) := by
  have hConvs : sys.convs <+: (sys.installed conv).convs := convs_concat sys.requests _
  have hKept : ∀ (i : Nat) s, sys.sessions[i]? = some s →
      (sys.installed conv).sessions[i]? = some s := by
    intro i s hSession
    exact (List.getElem?_append_left (List.getElem?_eq_some_iff.mp hSession).1).trans hSession
  have hFresh : (sys.installed conv).sessions[sys.sessions.length]? =
      some { conv := conv, owner := sys.requests.length
             stream := { cap := streamSessionMaxBytes } } := by
    show (sys.sessions ++ [_])[sys.sessions.length]? = _
    rw [getElem?_concat_length]
  refine ⟨?_, ?_, ?_, ?_⟩
  · intro i s hSession
    rcases getElem?_concat_cases hSession with hOld | hNew
    · exact (h.sessions i s hOld).later hConvs
    rw [hNew.2]
    refine ⟨?_, fun hCompleted => absurd rfl hCompleted, fun hDone => ?_⟩
    · show sys.requests.length < ((sys.requests ++ [_]).map StreamRequest.conv).length
      rw [length_map, length_append]
      exact Nat.lt_succ_self _
    · exact absurd hDone Bool.false_ne_true
  · intro entry hEntry
    rcases mem_cons.mp hEntry with rfl | hOld
    · exact ⟨_, hFresh, rfl⟩
    · obtain ⟨s, hSession, hConv⟩ := h.table entry (erase_subset entry hOld)
      exact ⟨s, hKept _ s hSession, hConv⟩
  · intro r q hRequest i hPipe
    rcases getElem?_concat_cases hRequest with hOld | hNew
    · obtain ⟨s, hSession, hOwner, hConv⟩ := h.spipe r q hOld i hPipe
      exact ⟨s, hKept _ s hSession, hOwner, hConv⟩
    rw [hNew.2] at hPipe ⊢
    obtain rfl : sys.sessions.length = i := some.inj hPipe
    exact ⟨_, hFresh, hNew.1.symm, rfl⟩
  intro tasks hTasks task hTask
  exact (h.tasks tasks hTasks task hTask).later hConvs
    (fun i s hSession => ⟨s, hKept i s hSession, .refl s⟩)

theorem Consistent.setReq (conv : String) : Consistent (sys.setReq conv) := by
  unfold SessionSystem.setReq
  by_cases hEmpty : conv = ""
  · rw [if_pos hEmpty]
    exact h.arrive conv
  rw [if_neg hEmpty]
  unfold createOrReplace
  cases hLookup : sys.table.lookup conv with
  | none => exact h.install conv
  | some previous =>
    refine (h.install conv).leave ?_
    intro task hTask
    rcases mem_cons.mp hTask with rfl | hTask
    · trivial
    rw [mem_singleton.mp hTask]
    obtain ⟨s, hSession, hConv⟩ := h.table _ (mem_of_lookup hLookup)
    refine ⟨s, ?_, Or.inr ⟨?_, ?_⟩⟩
    · exact (List.getElem?_append_left (List.getElem?_eq_some_iff.mp hSession).1).trans hSession
    · have hOwner := (h.sessions _ s hSession).owner
      rwa [convs, length_map] at hOwner
    show ((sys.requests ++ [_]).map StreamRequest.conv)[sys.requests.length]? = some s.conv
    rw [getElem?_map, getElem?_concat_length, hConv]
    rfl

theorem Consistent.next (r : Nat) (out : List UInt8) (hasNext : Bool) :
    Consistent (sys.next r out hasNext) := by
  have hAppend : ∀ i, Consistent (sys.onSession i (ServerSession.append out)) := fun i =>
    h.onSession i (sameSession_append out) (fun s hSession => (h.sessions i s hSession).append out)
  unfold SessionSystem.next
  cases hRequest : sys.requests[r]? with
  | none => exact h
  | some q =>
    dsimp only
    by_cases hNext : q.nextOrig = true
    · rw [if_pos hNext]
      have hWritten : Consistent (match q.spipe with
          | some i => sys.onSession i (ServerSession.append out)
          | none => sys) := by
        cases q.spipe with
        | none => exact h
        | some i => exact hAppend i
      by_cases hMore : hasNext = true
      · rw [if_pos hMore]
        exact hWritten
      · rw [if_neg hMore]
        exact hWritten.onRequest r (fun _ => rfl) (fun _ _ hPipe => hPipe)
    · rw [if_neg hNext]
      exact h

theorem Consistent.drain (r : Nat) (chunk : List UInt8) : Consistent (sys.drain r chunk) := by
  unfold SessionSystem.drain
  cases hRequest : sys.requests[r]? with
  | none => exact h
  | some q =>
    dsimp only
    cases hPipe : q.spipe with
    | none => exact h
    | some i =>
      dsimp only
      split
      · exact h.onSession i (sameSession_append chunk)
          (fun s hSession => (h.sessions i s hSession).append chunk)
      · exact h

/-- `evict` by a cause that may end the session found. -/
theorem Consistent.evict
    (hMay : ∀ i, sys.table.lookup conv = some i → Legitimate sys (.finalize i cause)) :
    Consistent (sys.evict conv cause) := by
  unfold SessionSystem.evict
  cases hLookup : sys.table.lookup conv with
  | none => exact h
  | some i =>
    refine (h.shrink erase_subset).leave ?_
    intro task hTask
    rw [mem_singleton.mp hTask]
    exact hMay i hLookup

theorem Consistent.evictAndCancel (conv : String) : Consistent (sys.evictAndCancel conv) := by
  unfold SessionSystem.evictAndCancel
  cases hLookup : sys.table.lookup conv with
  | none => exact h
  | some i =>
    refine (h.shrink erase_subset).leave ?_
    intro task hTask
    rcases mem_cons.mp hTask with rfl | hTask
    · trivial
    rw [mem_singleton.mp hTask]
    obtain ⟨s, hSession, hConv⟩ := h.table _ (mem_of_lookup hLookup)
    exact ⟨s, hSession, Or.inr hConv.symm⟩

theorem Consistent.gcTurn (cutoff : Nat) : Consistent (sys.gcTurn cutoff) := by
  refine (h.shrink fun entry hEntry => (mem_filter.mp hEntry).1).leave ?_
  intro task hTask
  obtain ⟨entry, hEntry, rfl⟩ := mem_map.mp hTask
  obtain ⟨hMem, hDropped⟩ := mem_filter.mp hEntry
  obtain ⟨s, hSession, _⟩ := h.table entry hMem
  rw [hSession] at hDropped
  have hCompleted := (of_decide_eq_true hDropped).1
  exact ⟨s, hSession, Or.inl ((h.sessions _ s hSession).completed hCompleted)⟩

theorem Consistent.stopGc : Consistent sys.stopGc := by
  refine (h.shrink fun _ hEntry => absurd hEntry not_mem_nil).leave ?_
  intro task hTask
  obtain ⟨entry, hEntry, rfl⟩ := mem_map.mp hTask
  obtain ⟨s, hSession, _⟩ := h.table entry hEntry
  exact ⟨s, hSession, Or.inr trivial⟩

/-- What a failing request evicts is its own. -/
theorem Consistent.onComplete (r : Nat)
    (hOwn : FindsOwn (.onComplete r) sys) : Consistent (sys.onComplete r) := by
  unfold SessionSystem.onComplete
  cases hRequest : sys.requests[r]? with
  | none => exact h
  | some q =>
    dsimp only
    by_cases hLeave : q.spipe = none ∨ q.nextFinished = true
    · rw [if_pos hLeave]
      exact h
    rw [if_neg hLeave]
    obtain ⟨hPipe, hFinished⟩ := not_or.mp hLeave
    by_cases hNext : q.nextOrig = false
    · rw [if_pos hNext]
      refine h.evict fun j hLookup => ?_
      obtain ⟨i, hSpipe⟩ := ne_none_iff_exists'.mp hPipe
      have hSame : j = i :=
        hOwn q hRequest (Bool.eq_false_iff.mpr hFinished) hNext i hSpipe j hLookup
      obtain ⟨s, hSession, hOwner, _⟩ := h.spipe r q hRequest i hSpipe
      exact ⟨s, hSame ▸ hSession, Or.inr hOwner.symm⟩
    · rw [if_neg hNext]
      exact h

theorem Consistent.destroy (r now : Nat) : Consistent (sys.destroy r now) := by
  unfold SessionSystem.destroy
  cases hRequest : sys.requests[r]? with
  | none => exact h
  | some q =>
    dsimp only
    cases hPipe : q.spipe with
    | none => exact h
    | some i =>
      obtain ⟨own, hOwn, hOwner, _⟩ := h.spipe r q hRequest i hPipe
      have hEnded : Consistent (sys.onSession i (ServerSession.finalize now (.producer r))) := by
        refine h.onSession i (sameSession_finalize now (.producer r)) ?_
        intro s hSession
        obtain rfl : own = s := some.inj (hOwn.symm.trans hSession)
        exact (h.sessions i own hSession).finalize now (Or.inr hOwner.symm)
      exact hEnded.onRequest r (fun _ => rfl) (fun _ _ hNone => by cases hNone)

theorem Consistent.runTask (now : Nat)
    (hTask : Legitimate sys task) : Consistent (sys.runTask now task) := by
  cases task with
  | cancel i =>
    exact h.onSession i sameSession_cancel (fun s hSession => (h.sessions i s hSession).cancel)
  | finalize i cause =>
    obtain ⟨found, hFound, hMay⟩ := hTask
    refine h.onSession i (sameSession_finalize now cause) ?_
    intro s hSession
    obtain rfl : found = s := some.inj (hFound.symm.trans hSession)
    exact (h.sessions i found hSession).finalize now hMay

theorem Consistent.runThread (t now : Nat) : Consistent (sys.runThread t now) := by
  unfold SessionSystem.runThread
  split
  · rename_i task rest hThread
    have hDone := h.runTask now (h.tasks _ (mem_of_getElem? hThread) task mem_cons_self)
    refine ⟨hDone.sessions, hDone.table, hDone.spipe, ?_⟩
    intro tasks hTasks todo hTodo
    have hThreads : (sys.runTask now task).threads = sys.threads := by cases task <;> rfl
    obtain ⟨u, hAt⟩ := mem_iff_getElem?.mp hTasks
    by_cases hSame : t = u
    · have hTail : (sys.threads.modify t tail)[u]? = some tasks := hAt
      rw [hSame, getElem?_modify_eq] at hTail
      obtain ⟨before, hBefore, rfl⟩ := map_eq_some_iff.mp hTail
      refine hDone.tasks before ?_ todo (mem_of_mem_tail hTodo)
      rw [hThreads]
      exact mem_of_getElem? hBefore
    have hKept : (sys.threads.modify t tail)[u]? = some tasks := hAt
    rw [getElem?_modify_ne _ _ hSame, ← hThreads] at hKept
    exact hDone.tasks tasks (mem_of_getElem? hKept) todo hTodo
  · exact h

/-- Every step keeps what holds in every state, if a failing request finds its own
session. -/
theorem Consistent.step (op : SessionOp) (hOwn : FindsOwn op sys) : Consistent (sys.step op) := by
  cases op with
  | setReq conv => exact h.setReq conv
  | setNext r => exact h.onRequest r (fun _ => rfl) (fun _ _ hPipe => hPipe)
  | next r out hasNext => exact h.next r out hasNext
  | drain r chunk => exact h.drain r chunk
  | onComplete r => exact h.onComplete r hOwn
  | destroy r now => exact h.destroy r now
  | delete conv => exact h.evictAndCancel conv
  | gc cutoff => exact h.gcTurn cutoff
  | stop => exact h.stopGc
  | run t now => exact h.runThread t now

omit h in
theorem Reachable.consistent (h : Reachable sys) : Consistent sys :=
  h.invariant (fun _ hInit => hInit ▸ consistent_empty)
    (fun op _ _ hBefore hOwn hStep => hStep ▸ hBefore.step op hOwn)

/-! ## The failing request and the others -/

omit h in
theorem lookup_erase_ne {other : String}
    (hNe : other ≠ conv) : (erase table conv).lookup other = table.lookup other := by
  induction table with
  | nil => rfl
  | cons entry rest ih =>
    have hErase : erase (entry :: rest) conv =
        if entry.1 ≠ conv then entry :: erase rest conv else erase rest conv := by
      simp [erase, filter_cons]
    rw [hErase, lookup_cons]
    by_cases hKey : entry.1 = conv
    · have hMiss : (other == entry.1) = false := beq_eq_false_iff_ne.mpr (hKey ▸ hNe)
      rw [if_neg (not_not.mpr hKey), hMiss]
      exact ih
    · rw [if_pos hKey, lookup_cons, ih]

/-- A request that finds its own session, or none, leaves the sessions of the others
under their ids. -/
theorem Consistent.leavesOthers (op : SessionOp)
    (hOwn : FindsOwn op sys) : LeavesOthers op sys := by
  cases op with
  | onComplete r =>
    intro conv i hLookup hOther
    show (sys.onComplete r).table.lookup conv = some i
    unfold SessionSystem.onComplete
    cases hRequest : sys.requests[r]? with
    | none => exact hLookup
    | some q =>
      dsimp only
      by_cases hLeave : q.spipe = none ∨ q.nextFinished = true
      · rw [if_pos hLeave]
        exact hLookup
      rw [if_neg hLeave]
      obtain ⟨hPipe, hFinished⟩ := not_or.mp hLeave
      by_cases hNext : q.nextOrig = false
      · rw [if_pos hNext]
        unfold SessionSystem.evict
        cases hFound : sys.table.lookup q.conv with
        | none => exact hLookup
        | some j =>
          obtain ⟨k, hSpipe⟩ := ne_none_iff_exists'.mp hPipe
          have hSame : j = k :=
            hOwn q hRequest (Bool.eq_false_iff.mpr hFinished) hNext k hSpipe j hFound
          obtain ⟨s, hSession, hOwner, _⟩ := h.spipe r q hRequest k hSpipe
          show (erase sys.table q.conv).lookup conv = some i
          rw [lookup_erase_ne, hLookup]
          rintro rfl
          have hIndex : i = k := (some.inj (hLookup.symm.trans hFound)).trans hSame
          exact hOther s (hIndex ▸ hSession) hOwner
      · rw [if_neg hNext]
        exact hLookup
  | _ => trivial

end

/-- A request only ends its own session: what ends a session is its own request, a later
request of its conversation, a `DELETE`, or the shutdown, and no request takes another's
session from the table, in every interleaving in which a failing request finds its own
session under its conversation id, or none. -/
theorem Reachable.endsOwn (h : Reachable sys) :
    EndsOwn sys ∧ ∀ op, FindsOwn op sys → LeavesOthers op sys := by
  have hAll := h.consistent
  refine ⟨?_, hAll.leavesOthers⟩
  intro s hMem hDone
  obtain ⟨i, hSession⟩ := mem_iff_getElem?.mp hMem
  exact (hAll.sessions i s hSession).ended hDone

/-- The states of the interleavings without any condition. -/
def Possible (sys : SessionSystem) : Prop :=
  Run (· = {}) (fun op sys sys' => sys' = step sys op) (fun _ _ => True) sys

/-- A request whose session was replaced streams on, and the later one fails: each ends
its own session only. -/
def ownRun : List SessionOp :=
  [.setReq "c", .setReq "c", .run 0 1, .run 0 1, .setNext 0, .onComplete 1, .run 1 2,
    .destroy 1 3, .destroy 0 4]

/-- A request whose session was replaced fails before it streams. -/
def failedRun : List SessionOp :=
  [.setReq "c", .setReq "c", .run 0 1, .run 0 1, .onComplete 0, .run 1 2]

theorem reachable_foldl (ops : List SessionOp) (hRun : Reachable sys)
    (hOwn : ∀ k < ops.length, ∀ op ∈ ops[k]?, FindsOwn op ((ops.take k).foldl step sys)) :
    Reachable (ops.foldl step sys) := by
  induction ops generalizing sys with
  | nil => exact hRun
  | cons op ops ih =>
    refine ih (Run.step op hRun (hOwn 0 (Nat.succ_pos _) op rfl) rfl) ?_
    intro k hLt next hNext
    exact hOwn (k + 1) (Nat.succ_lt_succ hLt) next hNext

/-- The first session is replaced, and the failed request ends the second one, its own. -/
theorem ownRun_endsOwn :
    EndsOwn (ownRun.foldl step {}) ∧
      (∀ op, FindsOwn op (ownRun.foldl step {}) → LeavesOthers op (ownRun.foldl step {})) ∧
      (ownRun.foldl step {}).sessions.map ServerSession.endedBy =
        [some (.replaced 1), some (.failed 1)] := by
  have hRun : Reachable (ownRun.foldl step {}) :=
    reachable_foldl ownRun (Run.start rfl) (by decide)
  exact ⟨hRun.endsOwn.1, hRun.endsOwn.2, by decide⟩

theorem possible_foldl (ops : List SessionOp) (hRun : Possible sys) :
    Possible (ops.foldl step sys) := by
  induction ops generalizing sys with
  | nil => exact hRun
  | cons op ops ih => exact ih (Run.step op hRun trivial rfl)

/-- The second session is taken from the table by the first request, and is done. -/
theorem failedRun_ends_other : ¬ ∀ sys, Possible sys → EndsOwn sys ∧ ∀ op, LeavesOthers op sys := by
  intro hClaim
  have hEnds := (hClaim _ (possible_foldl failedRun (Run.start rfl))).1
  revert hEnds
  decide

end SessionSystem

end Beellama.Ports
