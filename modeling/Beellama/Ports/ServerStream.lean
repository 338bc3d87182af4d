import Beellama.Verified.Run
import Mathlib.Data.List.Basic

/-!
# The replay buffer of a streamed response (`stream_session`)

One producer appends bytes to a buffer of `src/tools/server/server-stream.cpp`, which drops its oldest
bytes when it is full.  Readers drain it from logical offsets, copying a chunk under the lock and handing
it to a sink without it.  `append`, `finalize` and one turn of the loop of `read_from` are steps; the
answers of `should_stop` and of the sink are free.
-/

namespace Beellama.Ports

open Beellama.Verified List

/-- `stream_session` -/
structure StreamSession where
  /-- `cap_bytes` -/
  cap : Nat
  buffer : List UInt8 := []
  /-- `prefix_dropped` -/
  dropped : Nat := 0
  done : Bool := false
  deriving DecidableEq, Repr

namespace StreamSession

/-- `append`; the flag tells that the session took the bytes. -/
def append (s : StreamSession) (data : List UInt8) : StreamSession × Bool :=
  if data.length = 0 then (s, true)
  else if s.done then (s, false)
  else if s.cap ≤ data.length then
    -- a chunk as large as the buffer: only its tail is kept
    let skip := data.length - s.cap
    ({ s with
      dropped := s.dropped + (s.buffer.length + skip)
      buffer := data.drop skip }, true)
  else
    let needed := s.buffer.length + data.length
    let toDrop := needed - s.cap
    let s := if s.cap < needed then
        { s with buffer := s.buffer.drop toDrop, dropped := s.dropped + toDrop }
      else s
    ({ s with buffer := s.buffer ++ data }, true)

def finalize (s : StreamSession) : StreamSession := { s with done := true }

/-- `total_size` -/
def totalSize (s : StreamSession) : Nat := s.dropped + s.buffer.length

end StreamSession

/-- How `read_from` returned. -/
inductive StreamReturn
  /-- `should_stop` said so -/
  | stopped
  /-- the sink wants no more -/
  | refused
  /-- the session is done and drained -/
  | drained
  /-- `OFFSET_LOST`; the others are `OK` -/
  | offsetLost
  deriving DecidableEq, Repr

/-- A reader: the local variables of its `read_from`, the offset it began with
and what it has handed to its sink. -/
structure StreamReader where
  start : Nat
  offset : Nat
  delivered : List UInt8 := []
  /-- `none` while the call is running -/
  returned : Option StreamReturn := none
  deriving DecidableEq, Repr

namespace StreamReader

/-- A reader that calls `read_from` at an offset. -/
def opened (offset : Nat) : StreamReader := ⟨offset, offset, [], none⟩

/-- One turn of the loop of `read_from`. -/
def turn (s : StreamSession) (stop keepGoing : Bool) (r : StreamReader) : StreamReader :=
  if stop then { r with returned := some .stopped }
  else if r.offset < s.dropped then { r with returned := some .offsetLost }
  else if r.offset < s.dropped + s.buffer.length then
    let localOff := r.offset - s.dropped
    let n := s.buffer.length - localOff
    { r with
      offset := r.offset + n
      delivered := r.delivered ++ (s.buffer.drop localOff).take n
      returned := if keepGoing then none else some .refused }
  else if s.done then { r with returned := some .drained }
  else r

end StreamReader

/-- A session with the bytes it ever took and its readers. -/
structure StreamSystem where
  session : StreamSession
  history : List UInt8 := []
  readers : List StreamReader := []
  deriving DecidableEq, Repr

inductive StreamOp
  | append (data : List UInt8)
  | finalize
  /-- a new reader calls `read_from` -/
  | read (offset : Nat)
  /-- reader `r` runs one turn of its loop -/
  | turn (r : Nat) (stop keepGoing : Bool)
  /-- the response handler calls `read_from` again where its sink stopped -/
  | resume (r : Nat)

namespace StreamSystem

/-- Run a turn of a reader that is still in its loop. -/
def turnReader (s : StreamSession) (stop keepGoing : Bool) (r : StreamReader) : StreamReader :=
  if r.returned = none then r.turn s stop keepGoing else r

def resumeReader (r : StreamReader) : StreamReader :=
  if r.returned = some .refused then { r with returned := none } else r

def step (op : StreamOp) (sys : StreamSystem) : StreamSystem :=
  match op with
  | .append data =>
    let r := sys.session.append data
    { sys with session := r.1, history := if r.2 then sys.history ++ data else sys.history }
  | .finalize => { sys with session := sys.session.finalize }
  | .read offset => { sys with readers := sys.readers ++ [.opened offset] }
  | .turn r stop keepGoing =>
    { sys with readers := sys.readers.modify r (turnReader sys.session stop keepGoing) }
  | .resume r => { sys with readers := sys.readers.modify r resumeReader }

/-- A session that took nothing yet. -/
def Initial (sys : StreamSystem) : Prop := ∃ cap, sys = { session := { cap := cap } }

/-- The states of the interleavings of any number of steps. -/
def Reachable (sys : StreamSystem) : Prop :=
  Run Initial (fun op sys sys' => sys' = step op sys) (fun _ _ => True) sys

/-! ## The buffer -/

/-- The buffer holds the last `min(cap, total)` bytes. -/
structure Retains (s : StreamSession) (history : List UInt8) : Prop where
  total : s.totalSize = history.length
  kept : s.buffer = history.drop s.dropped
  size : s.buffer.length = min s.cap history.length

variable {s : StreamSession} {history : List UInt8}

theorem Retains.dropped_le (h : Retains s history) : s.dropped ≤ history.length := by
  have hTotal := h.total
  unfold StreamSession.totalSize at hTotal
  omega

/-- What `append` does to the buffer and to the stream. -/
theorem Retains.append (h : Retains s history)
    (data : List UInt8) :
    Retains (s.append data).1 (if (s.append data).2 then history ++ data else history) := by
  have hTotal := h.total
  have hSize := h.size
  have hDropped := h.dropped_le
  unfold StreamSession.totalSize at hTotal
  unfold StreamSession.append
  by_cases hEmpty : data.length = 0
  · rw [eq_nil_of_length_eq_zero hEmpty]
    simpa using h
  rw [if_neg hEmpty]
  by_cases hDone : s.done = true
  · rw [if_pos hDone]
    simpa using h
  rw [if_neg hDone]
  by_cases hLarge : s.cap ≤ data.length
  · rw [if_pos hLarge]
    refine ⟨?_, ?_, ?_⟩
    · simp only [StreamSession.totalSize, if_true, length_drop, length_append]
      omega
    · have hSkip : s.dropped + (s.buffer.length + (data.length - s.cap)) =
          history.length + (data.length - s.cap) := by omega
      simp only [if_true, hSkip, drop_append, drop_eq_nil_of_le (Nat.le_add_right _ _),
        nil_append, Nat.add_sub_cancel_left]
    · simp only [if_true, length_drop, length_append]
      omega
  rw [if_neg hLarge]
  dsimp only
  by_cases hFull : s.cap < s.buffer.length + data.length
  · rw [if_pos hFull]
    refine ⟨?_, ?_, ?_⟩
    · simp only [StreamSession.totalSize, if_true, length_drop, length_append]
      omega
    · generalize hDrop : s.buffer.length + data.length - s.cap = toDrop
      rw [if_pos rfl, h.kept, drop_drop, ← drop_append_of_le_length (by omega)]
    · simp only [if_true, length_drop, length_append]
      omega
  rw [if_neg hFull]
  refine ⟨?_, ?_, ?_⟩
  · simp only [StreamSession.totalSize, if_true, length_append]
    omega
  · rw [if_pos rfl, h.kept, ← drop_append_of_le_length hDropped]
  · simp only [if_true, length_append]
    omega

theorem append_done (h : s.done = true) (data : List UInt8) :
    (s.append data).1 = s ∧ ((s.append data).2 = true → data = []) := by
  unfold StreamSession.append
  by_cases hEmpty : data.length = 0
  · rw [if_pos hEmpty]
    exact ⟨rfl, fun _ => eq_nil_of_length_eq_zero hEmpty⟩
  · rw [if_neg hEmpty, if_pos h]
    exact ⟨rfl, fun hTaken => absurd hTaken Bool.false_ne_true⟩

/-! ## The readers -/

/-- A reader has delivered the stream from its first offset to its present one, and stands in it
unless it began beyond the end. -/
structure Delivers (s : StreamSession) (history : List UInt8) (r : StreamReader) : Prop where
  order : r.start ≤ r.offset
  place : r.offset ≤ history.length ∨ r.offset = r.start
  bytes : r.delivered = (history.take r.offset).drop r.start
  drained : r.returned = some .drained → s.done = true ∧ history.length ≤ r.offset
  lost : r.returned = some .offsetLost → r.offset < s.dropped

theorem delivers_opened (s : StreamSession) (history : List UInt8) (offset : Nat) :
    Delivers s history (.opened offset) where
  order := Nat.le_refl offset
  place := Or.inr rfl
  bytes := (drop_eq_nil_of_le (length_take_le _ _)).symm
  drained h := by cases h
  lost h := by cases h

/-- Appending leaves the delivered part of the stream as it is. -/
theorem take_append_drop {data : List UInt8} {start offset : Nat}
    (hPlace : offset ≤ history.length ∨ offset = start) :
    ((history ++ data).take offset).drop start = (history.take offset).drop start := by
  rcases hPlace with hIn | rfl
  · rw [take_append_of_le_length hIn]
  · rw [drop_eq_nil_of_le (length_take_le _ _),
      drop_eq_nil_of_le (length_take_le _ _)]

theorem append_dropped_le (s : StreamSession) (data : List UInt8) :
    s.dropped ≤ (s.append data).1.dropped ∧ (s.append data).1.done = s.done := by
  unfold StreamSession.append
  split
  · exact ⟨Nat.le_refl _, rfl⟩
  split
  · exact ⟨Nat.le_refl _, rfl⟩
  split
  · exact ⟨Nat.le_add_right _ _, rfl⟩
  dsimp only
  split
  · exact ⟨Nat.le_add_right _ _, rfl⟩
  · exact ⟨Nat.le_refl _, rfl⟩

variable {r : StreamReader}

section

variable (h : Delivers s history r)

include h

theorem Delivers.append (data : List UInt8) :
    Delivers (s.append data).1 (if (s.append data).2 then history ++ data else history) r := by
  obtain ⟨hDropped, hDone⟩ := append_dropped_le s data
  by_cases hTaken : (s.append data).2 = true
  · rw [if_pos hTaken]
    refine ⟨h.order, ?_, ?_, ?_, fun hLost => ?_⟩
    · rw [length_append]
      exact h.place.imp (fun hIn => by omega) id
    · rw [h.bytes, take_append_drop h.place]
    · intro hDrained
      obtain ⟨hEnd, hAll⟩ := h.drained hDrained
      have hNothing := (append_done hEnd data).2 hTaken
      rw [hDone]
      exact ⟨hEnd, by simpa [hNothing] using hAll⟩
    · have := h.lost hLost
      omega
  rw [if_neg hTaken]
  refine ⟨h.order, h.place, h.bytes, ?_, fun hLost => ?_⟩
  · rw [hDone]
    exact h.drained
  · have := h.lost hLost
    omega

theorem Delivers.finalize : Delivers s.finalize history r :=
  ⟨h.order, h.place, h.bytes, fun hDrained => ⟨rfl, (h.drained hDrained).2⟩, h.lost⟩

/-- A turn of a reader delivers what the buffer holds from its offset on. -/
theorem Delivers.turn (hRetains : Retains s history) (stop keepGoing : Bool) :
    Delivers s history (turnReader s stop keepGoing r) := by
  unfold turnReader
  by_cases hRunning : r.returned = none
  · rw [if_pos hRunning]
    have hTotal := hRetains.total
    unfold StreamSession.totalSize at hTotal
    unfold StreamReader.turn
    by_cases hStop : stop = true
    · rw [if_pos hStop]
      exact ⟨h.order, h.place, h.bytes, by simp, by simp⟩
    rw [if_neg hStop]
    by_cases hLost : r.offset < s.dropped
    · rw [if_pos hLost]
      exact ⟨h.order, h.place, h.bytes, by simp, fun _ => hLost⟩
    rw [if_neg hLost]
    by_cases hAvailable : r.offset < s.dropped + s.buffer.length
    · rw [if_pos hAvailable]
      have hEnd : r.offset + (s.buffer.length - (r.offset - s.dropped)) = history.length := by
        omega
      have hChunk : (s.buffer.drop (r.offset - s.dropped)).take
          (s.buffer.length - (r.offset - s.dropped)) = history.drop r.offset := by
        have hPlace : s.dropped + (r.offset - s.dropped) = r.offset := by omega
        rw [take_of_length_le (Nat.le_of_eq length_drop), hRetains.kept, drop_drop,
          hPlace]
      have hOrder := h.order
      refine ⟨?_, Or.inl ?_, ?_, ?_, ?_⟩
      · dsimp only
        omega
      · exact Nat.le_of_eq hEnd
      · dsimp only
        rw [hChunk, hEnd, take_length, h.bytes]
        calc (history.take r.offset).drop r.start ++ history.drop r.offset
            = (history.take r.offset ++ history.drop r.offset).drop r.start := by
              rw [drop_append_of_le_length]
              rw [length_take]
              omega
          _ = history.drop r.start := by rw [List.take_append_drop]
      · dsimp only
        split <;> simp
      · dsimp only
        split <;> simp
    rw [if_neg hAvailable]
    by_cases hDone : s.done = true
    · rw [if_pos hDone]
      have hAll : history.length ≤ r.offset := by omega
      exact ⟨h.order, h.place, h.bytes, fun _ => ⟨hDone, hAll⟩, by simp⟩
    · rw [if_neg hDone]
      exact h
  · rw [if_neg hRunning]
    exact h

theorem Delivers.resume : Delivers s history (resumeReader r) := by
  unfold resumeReader
  split
  · exact ⟨h.order, h.place, h.bytes, by simp, by simp⟩
  · exact h

/-! ## Interleavings -/

end

/-- The invariant of the system. -/
structure Replays (sys : StreamSystem) : Prop where
  retains : Retains sys.session sys.history
  delivers : ∀ r ∈ sys.readers, Delivers sys.session sys.history r

theorem mem_modify {l : List StreamReader} {n : Nat} {f : StreamReader → StreamReader}
    (h : r ∈ l.modify n f) : ∃ r' ∈ l, r = r' ∨ r = f r' := by
  obtain ⟨i, hi⟩ := getElem?_of_mem h
  rw [getElem?_modify] at hi
  obtain ⟨r', hr', hEq⟩ := Option.map_eq_some_iff.mp hi
  refine ⟨r', mem_of_getElem? hr', ?_⟩
  split at hEq
  · exact Or.inr hEq.symm
  · exact Or.inl hEq.symm

variable {sys : StreamSystem}

theorem replays_initial (h : Initial sys) : Replays sys := by
  obtain ⟨cap, rfl⟩ := h
  exact ⟨⟨rfl, rfl, by simp⟩, by simp⟩

theorem Replays.step (h : Replays sys) (op : StreamOp) : Replays (sys.step op) := by
  cases op with
  | append data => exact ⟨h.retains.append data, fun r hr => (h.delivers r hr).append data⟩
  | finalize =>
    exact ⟨⟨h.retains.total, h.retains.kept, h.retains.size⟩,
      fun r hr => (h.delivers r hr).finalize⟩
  | read offset =>
    refine ⟨h.retains, fun r hr => ?_⟩
    rcases mem_append.mp hr with hOld | hNew
    · exact h.delivers r hOld
    · rw [mem_singleton.mp hNew]
      exact delivers_opened _ _ offset
  | turn n stop keepGoing =>
    refine ⟨h.retains, fun r hr => ?_⟩
    obtain ⟨r', hr', rfl | rfl⟩ := mem_modify hr
    · exact h.delivers _ hr'
    · exact (h.delivers r' hr').turn h.retains stop keepGoing
  | resume n =>
    refine ⟨h.retains, fun r hr => ?_⟩
    obtain ⟨r', hr', rfl | rfl⟩ := mem_modify hr
    · exact h.delivers _ hr'
    · exact (h.delivers r' hr').resume

theorem Reachable.replays (h : Reachable sys) : Replays sys := by
  refine Run.invariant h (fun _ => replays_initial) ?_
  rintro op sys' _ hSys - rfl
  exact hSys.step op

/-- In every interleaving the dropped and the retained bytes are all that was
appended, the retained ones are the last of them, and a reader has delivered the
stream from its offset up to where it is.  A reader that returns because the
session is done has reached the end of the stream, or began beyond it. -/
theorem Reachable.replay_exact {sys : StreamSystem} (h : Reachable sys) :
    sys.session.dropped + sys.session.buffer.length = sys.history.length ∧
    sys.session.buffer =
      sys.history.drop (sys.history.length - min sys.session.cap sys.history.length) ∧
    ∀ r ∈ sys.readers,
      r.delivered = (sys.history.take r.offset).drop r.start ∧
      (r.returned = some .drained →
        r.offset = max r.start sys.history.length ∧ r.delivered = sys.history.drop r.start) := by
  obtain ⟨hRetains, hDelivers⟩ := h.replays
  have hTotal := hRetains.total
  have hSize := hRetains.size
  unfold StreamSession.totalSize at hTotal
  refine ⟨hTotal, ?_, fun r hr => ?_⟩
  · have hDropped : sys.session.dropped =
        sys.history.length - min sys.session.cap sys.history.length := by omega
    rw [← hDropped]
    exact hRetains.kept
  have hReader := hDelivers r hr
  refine ⟨hReader.bytes, fun hDrained => ?_⟩
  have hAll := (hReader.drained hDrained).2
  have hOrder := hReader.order
  refine ⟨?_, ?_⟩
  · rcases hReader.place with hIn | hStart <;> omega
  · rw [hReader.bytes, take_of_length_le hAll]

/-- A session of capacity `cap` after a list of steps. -/
def after (cap : Nat) (ops : List StreamOp) : StreamSystem :=
  ops.foldl (fun sys op => step op sys) { session := { cap := cap } }

theorem after_reachable (cap : Nat) (ops : List StreamOp) : Reachable (after cap ops) := by
  have hSteps : ∀ sys : StreamSystem, Reachable sys →
      Reachable (ops.foldl (fun sys op => step op sys) sys) := by
    induction ops with
    | nil => exact fun sys hSys => hSys
    | cons op ops ih => exact fun sys hSys => ih (step op sys) (Run.step op hSys trivial rfl)
  exact hSteps _ (Run.start ⟨cap, rfl⟩)

/-- A reader that follows three bytes through a buffer of two. -/
def followed : StreamSystem :=
  after 2 [.read 0, .append [1], .turn 0 false true, .append [2, 3], .turn 0 false true, .finalize,
    .turn 0 false true]

/-- The first byte was dropped from the buffer after the reader had it. -/
theorem followed_exact : followed.session.buffer = [2, 3] ∧
    ∀ r ∈ followed.readers, r.returned = some .drained → r.delivered = [1, 2, 3] := by
  obtain ⟨-, hBuffer, hReaders⟩ := (after_reachable 2 [.read 0, .append [1], .turn 0 false true,
    .append [2, 3], .turn 0 false true, .finalize, .turn 0 false true]).replay_exact
  refine ⟨hBuffer, fun r hr hDrained => ?_⟩
  have hStart : r.start = 0 := by
    have hAll : ∀ r ∈ followed.readers, r.start = 0 := by decide
    exact hAll r hr
  rw [((hReaders r hr).2 hDrained).2, hStart]
  rfl

/-- A reader that asks for bytes beyond the end of a finished session. -/
def beyondEnd : StreamSystem := after 4 [.read 5, .finalize, .turn 0 false true]

/-- It is told that all is drained, at an offset that is not the end. -/
theorem beyondEnd_not_at_end : Reachable beyondEnd ∧
    ∃ r ∈ beyondEnd.readers, r.returned = some .drained ∧
      r.offset ≠ beyondEnd.session.totalSize :=
  ⟨after_reachable 4 _, by decide⟩

end StreamSystem

end Beellama.Ports
