import Beellama.Ports.KvarnSwaRecords

/-!
# The rows of the exact tail in a state

The writer of a state writes each run of consecutive slots as one slice, and the reader has runs of its
own.  The bytes are those of one row after the other (`writeTailRuns_rows`), and the reader leaves
what a write of every row to each of its destinations leaves (`readTailComponent_rows`).
-/

namespace Beellama.Ports

open Beellama.Verified List
open Beellama.Verified.StagedReader

/-- `llama_kv_tail_slot_run` -/
structure TailSlotRun where
  payloadBegin : Nat
  slotBegin : Int
  length : Nat
  deriving DecidableEq

/-- The loop of `llama_kv_tail_contiguous_slot_runs`: the open run, the slot before, and the slots
that are left. -/
def slotRunsFrom (payload : Nat) (run : TailSlotRun) (last : Int) : List Int → List TailSlotRun
  | [] => [run]
  | slot :: slots =>
    if slot = last + 1 then
      slotRunsFrom (payload + 1) { run with length := run.length + 1 } slot slots
    else run :: slotRunsFrom (payload + 1) ⟨payload, slot, 1⟩ slot slots

/-- `llama_kv_tail_contiguous_slot_runs` -/
def contiguousSlotRuns : List Int → List TailSlotRun
  | [] => []
  | slot :: slots => slotRunsFrom 1 ⟨0, slot, 1⟩ slot slots

/-- `std::numeric_limits<size_t>::max()` -/
def sizeMax : Nat := 2 ^ 64 - 1

/-- `kvarn_tail_checked_span` for a tensor of `nbytes` bytes. -/
def checkedSpan (nbytes : Nat) (slotBegin : Int) (length rowSize : Nat) :
    Except String (Nat × Nat) :=
  if slotBegin < 0 ∨ length = 0 ∨ rowSize = 0 then
    .error "invalid KVarN exact-tail tensor span"
  else
    let slot := slotBegin.toNat
    if sizeMax / rowSize < slot ∨ sizeMax / rowSize < length then
      .error "KVarN exact-tail tensor span overflows size_t"
    else
      let offset := slot * rowSize
      let size := length * rowSize
      if nbytes < offset ∨ nbytes - offset < size then
        .error "KVarN exact-tail tensor span exceeds its allocation"
      else .ok (offset, size)

/-- `kvarn_tail_checked_bytes` -/
def checkedBytes (payloads rowSize : Nat) : Except String Nat :=
  if rowSize ≠ 0 ∧ sizeMax / rowSize < payloads then
    .error "KVarN exact-tail state byte count overflows uint64_t"
  else .ok (payloads * rowSize)

/-- What `state_write` writes for one tensor: on the host the runs, on a device the rows. -/
def writeTailComponent (nbytes rowSize : Nat) (m : Nat → UInt8) (slots : List Int)
    (onDevice : Bool) : Except String (List UInt8) := do
  let _ ← checkedBytes slots.length rowSize
  let spans ← if onDevice then slots.mapM fun slot => checkedSpan nbytes slot 1 rowSize
    else (contiguousSlotRuns slots).mapM fun run =>
      checkedSpan nbytes run.slotBegin run.length rowSize
  return spans.flatMap fun span => readSlice m span.1 span.2

/-- Throws what a check has thrown. -/
def liftCheck {α : Type} (x : Except String α) : StagedReader TensorWrite String α := fun bytes =>
  match x with
  | .error e => .error e
  | .ok a => .ok (a, [], bytes)

/-- The length of the run that continues after a slot: the payloads with a single destination that
is the next slot. -/
def runAfter (last : Int) : List (List Int) → Nat
  | [slot] :: rest => if slot = last + 1 then runAfter slot rest + 1 else 0
  | _ => 0

theorem runAfter_le (last : Int) (destinations : List (List Int)) :
    runAfter last destinations ≤ destinations.length := by
  induction destinations generalizing last with
  | nil => exact Nat.le_refl 0
  | cons slots rest ih =>
    unfold runAfter
    split
    · rename_i slot rest' hEq
      obtain ⟨rfl, rfl⟩ := cons.inj hEq
      split
      · exact Nat.succ_le_succ (ih slot)
      · exact Nat.zero_le _
    · exact Nat.zero_le _

/-- The tensor writes of a row to each of its destinations; the result is their number. -/
def stageRow (nbytes rowSize : Nat) (row : List UInt8) :
    List Int → StagedReader TensorWrite String Nat
  | [] => pure 0
  | slot :: slots => do
      let span ← liftCheck (checkedSpan nbytes slot 1 rowSize)
      stage (.set span.1 (row.take span.2))
      let ops ← stageRow nbytes rowSize row slots
      return ops + 1

/-- The loop of `read_kvarn_exact_tail_v13_component` on the host. -/
def readTailRuns (nbytes rowSize : Nat) : List (List Int) → StagedReader TensorWrite String Nat
  | [] => pure 0
  | [slot] :: rest => do
      let length := 1 + runAfter slot rest
      let span ← liftCheck (checkedSpan nbytes slot length rowSize)
      let bytes ← take endOfBuffer span.2
      stage (.set span.1 bytes)
      let ops ← readTailRuns nbytes rowSize (rest.drop (runAfter slot rest))
      return ops + 1
  | slots :: rest => do
      let row ← take endOfBuffer rowSize
      let first ← stageRow nbytes rowSize row slots
      let ops ← readTailRuns nbytes rowSize rest
      return first + ops
  termination_by destinations => destinations.length
  decreasing_by
    · rw [List.length_drop, List.length_cons]
      omega
    · exact Nat.lt_succ_self _

/-- The loop of `read_kvarn_exact_tail_v13_component` on a device. -/
def readTailDevice (nbytes rowSize : Nat) : List (List Int) → StagedReader TensorWrite String Nat
  | [] => pure 0
  | [slot] :: rest => do
      let span ← liftCheck (checkedSpan nbytes slot 1 rowSize)
      let bytes ← take endOfBuffer span.2
      stage (.set span.1 bytes)
      let ops ← readTailDevice nbytes rowSize rest
      return ops + 1
  | _ :: _ =>
    fail "on-device KVarN exact-tail state requires one destination slot per payload"

/-- `read_kvarn_exact_tail_v13_component`; the tensor is given by its bytes. -/
def readTailComponent (tensor : Option Nat) (rowSize : Nat) (destinations : List (List Int))
    (onDevice : Bool) : StagedReader TensorWrite String Nat :=
  match tensor with
  | none => do
      check (rowSize = 0) "KVarN exact-tail state has a row for an absent tensor"
      return 0
  | some nbytes => do
      let expectedBytes ← liftCheck (checkedBytes (destinations.length % 2 ^ 32) rowSize)
      let atBegin ← remaining
      if onDevice then readTailDevice nbytes rowSize destinations
      else
        let ops ← readTailRuns nbytes rowSize destinations
        let atEnd ← remaining
        check (atBegin - atEnd = expectedBytes)
          "KVarN exact-tail component byte count mismatch"
        return ops

/-- `kvarn_exact_tail_destination_runs` -/
def destinationRuns : List (List Int) → Nat
  | [] => 0
  | [slot] :: rest => destinationRuns (rest.drop (runAfter slot rest)) + 1
  | slots :: rest => slots.length + destinationRuns rest
  termination_by destinations => destinations.length
  decreasing_by
    · rw [List.length_drop, List.length_cons]
      omega
    · exact Nat.lt_succ_self _

/-! ## Spans -/

/-- The row of a slot lies in the tensor. -/
def SlotInRange (nbytes rowSize : Nat) (slot : Int) : Prop :=
  0 ≤ slot ∧ (slot.toNat + 1) * rowSize ≤ nbytes

variable {slot : Int}

section Spans

variable {nbytes rowSize : Nat}

/-- A run of slots in range is a span of the tensor. -/
theorem checkedSpan_ok (hRow : 0 < rowSize) (hSize : nbytes ≤ sizeMax) {slotBegin : Int}
    {length : Nat} (hLength : 0 < length) (hBegin : 0 ≤ slotBegin)
    (hEnd : (slotBegin.toNat + length) * rowSize ≤ nbytes) :
    checkedSpan nbytes slotBegin length rowSize =
      .ok (slotBegin.toNat * rowSize, length * rowSize) := by
  rw [Nat.add_mul] at hEnd
  have hSlotFits : slotBegin.toNat ≤ sizeMax / rowSize :=
    (Nat.le_div_iff_mul_le hRow).mpr (by omega)
  have hLengthFits : length ≤ sizeMax / rowSize := (Nat.le_div_iff_mul_le hRow).mpr (by omega)
  unfold checkedSpan
  rw [if_neg (by omega), if_neg (by omega), if_neg (by omega)]

theorem checkedSpan_slot (hRow : 0 < rowSize) (hSize : nbytes ≤ sizeMax)
    (hSlot : SlotInRange nbytes rowSize slot) :
    checkedSpan nbytes slot 1 rowSize = .ok (slot.toNat * rowSize, rowSize) := by
  have hSpan := checkedSpan_ok hRow hSize Nat.one_pos hSlot.1 hSlot.2
  rw [Nat.one_mul] at hSpan
  exact hSpan

end Spans

/-! ## The writer -/

section Writer

variable {nbytes rowSize : Nat} {m : Nat → UInt8}

/-- The slots of a run. -/
def TailSlotRun.slots (run : TailSlotRun) : List Int :=
  (List.range run.length).map fun (i : Nat) => run.slotBegin + (i : Int)

theorem TailSlotRun.slots_succ (run : TailSlotRun) :
    { run with length := run.length + 1 }.slots = run.slots ++ [run.slotBegin + run.length] := by
  unfold TailSlotRun.slots
  rw [range_succ, map_append]
  rfl

/-- The runs have the slots of the payloads, in order, and none is empty. -/
theorem slotRunsFrom_spec {payload : Nat} {run : TailSlotRun} {last : Int} {slots : List Int}
    (hPositive : 0 < run.length) (hLast : last = run.slotBegin + run.length - 1) :
    (slotRunsFrom payload run last slots).flatMap TailSlotRun.slots = run.slots ++ slots ∧
      ∀ r ∈ slotRunsFrom payload run last slots, 0 < r.length := by
  induction slots generalizing payload run last with
  | nil => simp [slotRunsFrom, hPositive]
  | cons slot slots ih =>
    unfold slotRunsFrom
    by_cases hNext : slot = last + 1
    · rw [if_pos hNext]
      obtain ⟨hSlots, hRuns⟩ := @ih (payload + 1) { run with length := run.length + 1 } slot
        (Nat.succ_pos _) (by push_cast; omega)
      have hSlot : run.slotBegin + run.length = slot := by omega
      rw [hSlots, TailSlotRun.slots_succ, hSlot, append_assoc]
      exact ⟨rfl, hRuns⟩
    rw [if_neg hNext]
    obtain ⟨hSlots, hRuns⟩ := @ih (payload + 1) ⟨payload, slot, 1⟩ slot Nat.one_pos (by simp)
    rw [flatMap_cons, hSlots]
    refine ⟨by simp [TailSlotRun.slots], ?_⟩
    intro r hr
    rcases mem_cons.mp hr with rfl | hRest
    · exact hPositive
    · exact hRuns r hRest

theorem contiguousSlotRuns_spec (slots : List Int) :
    (contiguousSlotRuns slots).flatMap TailSlotRun.slots = slots ∧
      ∀ r ∈ contiguousSlotRuns slots, 0 < r.length := by
  cases slots with
  | nil => simp [contiguousSlotRuns]
  | cons slot slots =>
    have hSpec := @slotRunsFrom_spec 1 ⟨0, slot, 1⟩ slot slots Nat.one_pos (by simp)
    have hFirst : (TailSlotRun.mk 0 slot 1).slots = [slot] := by simp [TailSlotRun.slots]
    rw [hFirst] at hSpec
    exact hSpec

/-- The rows of slots. -/
def tailRows (rowSize : Nat) (m : Nat → UInt8) (slots : List Int) : List (List UInt8) :=
  slots.map fun slot => rowOf rowSize m slot.toNat

theorem writeRun (hRow : 0 < rowSize) (hSize : nbytes ≤ sizeMax) {run : TailSlotRun}
    (hPositive : 0 < run.length) (hRange : ∀ slot ∈ run.slots, SlotInRange nbytes rowSize slot) :
    ∃ span, checkedSpan nbytes run.slotBegin run.length rowSize = .ok span ∧
      readSlice m span.1 span.2 = (tailRows rowSize m run.slots).flatten := by
  have hFirst := hRange run.slotBegin
    (mem_map.mpr ⟨0, mem_range.mpr hPositive, by simp⟩)
  have hLast := hRange (run.slotBegin + ((run.length - 1 : Nat) : Int))
    (mem_map.mpr ⟨run.length - 1, mem_range.mpr (by omega), rfl⟩)
  have hEnd : (run.slotBegin.toNat + run.length) * rowSize ≤ nbytes := by
    have hSum : (run.slotBegin + ((run.length - 1 : Nat) : Int)).toNat + 1 =
        run.slotBegin.toNat + run.length := by
      have hBegin := hFirst.1
      omega
    rw [← hSum]
    exact hLast.2
  refine ⟨_, checkedSpan_ok hRow hSize hPositive hFirst.1 hEnd, ?_⟩
  rw [readSlice_rows, tailRows, TailSlotRun.slots, map_map, range'_eq_map_range, map_map]
  congr 1
  apply map_congr_left
  intro i _
  have hBegin := hFirst.1
  simp only [Function.comp_apply]
  congr 1
  omega

theorem mapM_spans {α : Type} {f : α → Except String (Nat × Nat)} {rows : α → List UInt8}
    {l : List α} (h : ∀ a ∈ l, ∃ span, f a = .ok span ∧ readSlice m span.1 span.2 = rows a) :
    ∃ spans, l.mapM f = .ok spans ∧
      (spans.flatMap fun span => readSlice m span.1 span.2) = l.flatMap rows := by
  induction l with
  | nil => exact ⟨[], rfl, rfl⟩
  | cons a l ih =>
    obtain ⟨span, hSpan, hRows⟩ := h a mem_cons_self
    obtain ⟨spans, hSpans, hRest⟩ := ih fun b hb => h b (mem_cons_of_mem _ hb)
    refine ⟨span :: spans, ?_, ?_⟩
    · rw [mapM_cons, hSpan, hSpans]
      rfl
    · rw [flatMap_cons, flatMap_cons, hRows, hRest]

theorem checkedBytes_ok {payloads : Nat} (h : payloads * rowSize ≤ sizeMax) :
    checkedBytes payloads rowSize = .ok (payloads * rowSize) := by
  unfold checkedBytes
  rw [if_neg]
  rintro ⟨hRow, hOver⟩
  have hFits := (Nat.le_div_iff_mul_le (Nat.pos_of_ne_zero hRow)).mpr h
  omega

theorem tailRows_flatMap {α : Type} (l : List α) (f : α → List Int) :
    (l.flatMap fun a => (tailRows rowSize m (f a)).flatten) =
      (tailRows rowSize m (l.flatMap f)).flatten := by
  induction l with
  | nil => rfl
  | cons a l ih =>
    rw [flatMap_cons, ih, flatMap_cons, tailRows, tailRows, tailRows, map_append,
      flatten_append]

/-- The runs are written as the rows one after the other. -/
theorem writeTailComponent_rows (hRow : 0 < rowSize) (hSize : nbytes ≤ sizeMax) {slots : List Int}
    (hBytes : slots.length * rowSize ≤ sizeMax)
    (hRange : ∀ slot ∈ slots, SlotInRange nbytes rowSize slot) :
    writeTailComponent nbytes rowSize m slots false = .ok (tailRows rowSize m slots).flatten := by
  obtain ⟨hSlots, hPositive⟩ := contiguousSlotRuns_spec slots
  obtain ⟨spans, hSpans, hRows⟩ := @mapM_spans m TailSlotRun
    (fun run => checkedSpan nbytes run.slotBegin run.length rowSize)
    (fun run => (tailRows rowSize m run.slots).flatten) (contiguousSlotRuns slots) fun run hRun =>
      writeRun hRow hSize (hPositive run hRun) fun slot hSlot =>
        hRange slot (by rw [← hSlots]; exact mem_flatMap.mpr ⟨run, hRun, hSlot⟩)
  rw [tailRows_flatMap, hSlots] at hRows
  unfold writeTailComponent
  rw [checkedBytes_ok hBytes, hSpans, ← hRows]
  rfl

end Writer

/-! ## The reader -/

variable {rows : List (List UInt8)} {destinations : List (List Int)}

section Reader

variable {nbytes rowSize : Nat} {m : Nat → UInt8}

/-- The writes of each row to each of its destinations, one after the other. -/
def rowPairs : List (List Int) → List (List UInt8) → List (Nat × List UInt8)
  | slots :: rest, row :: rows =>
    (slots.map fun (slot : Int) => (slot.toNat, row)) ++ rowPairs rest rows
  | _, _ => []

theorem rowPairs_append {d d' : List (List Int)} {rows rows' : List (List UInt8)}
    (hLength : d.length = rows.length) :
    rowPairs (d ++ d') (rows ++ rows') = rowPairs d rows ++ rowPairs d' rows' := by
  induction d generalizing rows with
  | nil =>
    rw [length_eq_zero_iff.mp hLength.symm]
    rfl
  | cons slots d ih =>
    cases rows with
    | nil => exact absurd hLength (by simp)
    | cons row rows =>
      have hRest := ih (Nat.succ.inj hLength)
      show _ ++ rowPairs (d ++ d') (rows ++ rows') = (_ ++ rowPairs d rows) ++ _
      rw [hRest, append_assoc]

variable {d : List (List Int)}

theorem rowPairs_length (hRows : ∀ row ∈ rows, row.length = rowSize) :
    ∀ pair ∈ rowPairs d rows, pair.2.length = rowSize := by
  induction d generalizing rows with
  | nil =>
    intro pair hPair
    cases hPair
  | cons slots d ih =>
    cases rows with
    | nil =>
      intro pair hPair
      cases hPair
    | cons row rows =>
      intro pair hPair
      rcases mem_append.mp hPair with hFirst | hRest
      · obtain ⟨slot, -, rfl⟩ := mem_map.mp hFirst
        exact hRows row mem_cons_self
      · exact ih (fun r hr => hRows r (mem_cons_of_mem _ hr)) pair hRest

theorem mem_rowPairs {pair : Nat × List UInt8}
    (h : pair ∈ rowPairs d rows) : ∃ slots ∈ d, ∃ slot ∈ slots, pair.1 = slot.toNat := by
  induction d generalizing rows with
  | nil => cases h
  | cons slots d ih =>
    cases rows with
    | nil => cases h
    | cons row rows =>
      rcases mem_append.mp h with hFirst | hRest
      · obtain ⟨slot, hSlot, rfl⟩ := mem_map.mp hFirst
        exact ⟨slots, mem_cons_self, slot, hSlot, rfl⟩
      · obtain ⟨slots', hMem, hSlot⟩ := ih hRest
        exact ⟨slots', mem_cons_of_mem _ hMem, hSlot⟩

theorem take_runAfter (last : Int) (destinations : List (List Int)) :
    destinations.take (runAfter last destinations) =
      (range (runAfter last destinations)).map fun (i : Nat) => [last + 1 + (i : Int)] := by
  induction destinations generalizing last with
  | nil => rfl
  | cons slots rest ih =>
    unfold runAfter
    split
    · rename_i slot rest' hEq
      obtain ⟨rfl, rfl⟩ := cons.inj hEq
      split
      · rename_i hNext
        rw [take_succ_cons, ih, range_succ_eq_map, map_cons, map_map, hNext]
        congr 1
        · simp
        apply map_congr_left
        simp only [Function.comp_apply, cons.injEq, and_true]
        omega
      · rfl
    · rfl

theorem rowPairs_consecutive (hSlot : 0 ≤ slot) :
    rowPairs ((range rows.length).map fun (i : Nat) => [slot + (i : Int)]) rows =
      rows.mapIdx fun i row => (slot.toNat + i, row) := by
  induction rows generalizing slot with
  | nil => rfl
  | cons row rows ih =>
    have hRest := @ih (slot + 1) (by omega)
    have hShift : ((range rows.length).map fun (i : Nat) => [slot + ((i + 1 : Nat) : Int)]) =
        (range rows.length).map fun (i : Nat) => [slot + 1 + (i : Int)] := by
      apply map_congr_left
      simp only [cons.injEq, and_true]
      omega
    rw [length_cons, range_succ_eq_map, map_cons, map_map, mapIdx_cons]
    show (_, row) :: rowPairs ((range rows.length).map fun (i : Nat) =>
      [slot + ((i + 1 : Nat) : Int)]) rows = _
    rw [hShift, hRest]
    congr 1
    · simp
    congr 1
    funext i r
    rw [Prod.mk.injEq]
    refine ⟨?_, rfl⟩
    omega

theorem delivers_liftCheck {α : Type} {x : Except String α} {a : α} (h : x = .ok a) :
    Delivers (liftCheck x) [] a [] := by
  intro rest
  rw [h]
  rfl

/-- A row is staged for each of its destinations. -/
theorem delivers_stageRow (hRow : 0 < rowSize) (hSize : nbytes ≤ sizeMax) {row : List UInt8}
    (hLength : row.length = rowSize) {slots : List Int}
    (hRange : ∀ slot ∈ slots, SlotInRange nbytes rowSize slot) :
    Delivers (stageRow nbytes rowSize row slots) [] slots.length
      ((slots.map fun (slot : Int) => (slot.toNat, row)).map (rowWrite rowSize)) := by
  induction slots with
  | nil => exact delivers_pure 0
  | cons slot slots ih =>
    have hSpan := checkedSpan_slot hRow hSize (hRange slot mem_cons_self)
    have hRest := ih fun s hs => hRange s (mem_cons_of_mem _ hs)
    have hTake : row.take rowSize = row := take_of_length_le (Nat.le_of_eq hLength)
    refine (delivers_liftCheck hSpan).bind_nil ?_
    rw [hTake]
    refine delivers_stage_bind _ ?_
    exact hRest.bind_pure

/-- The rows of a run are taken and staged at once. -/
theorem putSlice_run (hSlot : 0 ≤ slot) (hRows : ∀ row ∈ rows, row.length = rowSize)
    (hRun : d = (range rows.length).map fun (i : Nat) => [slot + (i : Int)]) :
    putSlice m (slot.toNat * rowSize) rows.flatten = writeRows rowSize m (rowPairs d rows) := by
  rw [hRun, rowPairs_consecutive hSlot, putSlice_rows m slot.toNat hRows]

theorem flatten_length (hRows : ∀ row ∈ rows, row.length = rowSize) :
    rows.flatten.length = rows.length * rowSize := by
  induction rows with
  | nil => rw [length_nil, Nat.zero_mul]; rfl
  | cons row rows ih =>
    rw [flatten_cons, length_append, hRows row mem_cons_self,
      ih fun r hr => hRows r (mem_cons_of_mem _ hr), length_cons, Nat.succ_mul,
      Nat.add_comm]

/-- The reader on the host leaves what the writes of all rows leave, with as many writes as runs of
destinations. -/
theorem delivers_readTailRuns (hRow : 0 < rowSize) (hSize : nbytes ≤ sizeMax)
    (destinations : List (List Int)) : ∀ {rows : List (List UInt8)},
      destinations.length = rows.length → (∀ row ∈ rows, row.length = rowSize) →
      (∀ slots ∈ destinations, ∀ slot ∈ slots, SlotInRange nbytes rowSize slot) →
      ∃ ws, Delivers (readTailRuns nbytes rowSize destinations) rows.flatten
          (destinationRuns destinations) ws ∧
        ws.length = destinationRuns destinations ∧
        ∀ m, commitWrites m ws = writeRows rowSize m (rowPairs destinations rows) := by
  induction destinations using readTailRuns.induct with
  | case1 =>
    intro rows hLength _ _
    rw [length_eq_zero_iff.mp hLength.symm]
    refine ⟨[], ?_, ?_, fun m => rfl⟩
    · rw [readTailRuns, destinationRuns]
      exact delivers_pure 0
    · rw [destinationRuns]
      rfl
  | case2 slot rest ih =>
    intro rows hLength hRows hRange
    obtain ⟨row, rows, rfl⟩ := exists_cons_of_length_eq_add_one hLength.symm
    have hCount : rest.length = rows.length := Nat.succ.inj hLength
    have hLe := runAfter_le slot rest
    generalize hk : runAfter slot rest = k at hLe ih
    have hTaken : (rows.take k).length = k := by
      rw [length_take]
      omega
    have hSlot := hRange [slot] mem_cons_self slot mem_cons_self
    obtain ⟨ws, hDelivers, hOps, hCommit⟩ := @ih (rows.drop k)
      (by rw [length_drop, length_drop, hCount])
      (fun r hr => hRows r (mem_cons_of_mem _ (mem_of_mem_drop hr)))
      (fun slots hSlots => hRange slots (mem_cons_of_mem _ (mem_of_mem_drop hSlots)))
    have hRun : [slot] :: rest.take k =
        (range (row :: rows.take k).length).map fun (i : Nat) => [slot + (i : Int)] := by
      have hTake := take_runAfter slot rest
      rw [hk] at hTake
      rw [hTake, length_cons, hTaken, range_succ_eq_map, map_cons, map_map]
      congr 1
      · simp
      apply map_congr_left
      simp only [Function.comp_apply, cons.injEq, and_true]
      omega
    have hRunRows : ∀ r ∈ row :: rows.take k, r.length = rowSize := by
      intro r hr
      rcases mem_cons.mp hr with rfl | hRest
      · exact hRows r mem_cons_self
      · exact hRows r (mem_cons_of_mem _ (mem_of_mem_take hRest))
    have hEnd : (slot.toNat + (1 + k)) * rowSize ≤ nbytes := by
      have hMem : [slot + (k : Int)] ∈ [slot] :: rest := by
        have hTakeMem : [slot + (k : Int)] ∈ [slot] :: rest.take k := by
          rw [hRun]
          refine mem_map.mpr ⟨k, mem_range.mpr ?_, rfl⟩
          rw [length_cons]
          omega
        rcases mem_cons.mp hTakeMem with hEq | hTail
        · rw [hEq]
          exact mem_cons_self
        · exact mem_cons_of_mem _ (mem_of_mem_take hTail)
      have hLast := hRange _ hMem _ mem_cons_self
      have hSum : (slot + (k : Int)).toNat + 1 = slot.toNat + (1 + k) := by
        have hBegin := hSlot.1
        omega
      rw [← hSum]
      exact hLast.2
    have hSpan := checkedSpan_ok hRow hSize (by omega : 0 < 1 + k) hSlot.1 hEnd
    have hBytes : (row :: rows.take k).flatten.length = (1 + k) * rowSize := by
      rw [flatten_length hRunRows, length_cons, hTaken, Nat.add_comm k 1]
    have hSplit : (row :: rows).flatten = (row :: rows.take k).flatten ++ (rows.drop k).flatten := by
      rw [flatten_cons, flatten_cons, append_assoc, ← flatten_append,
        take_append_drop]
    refine ⟨.set (slot.toNat * rowSize) (row :: rows.take k).flatten :: ws, ?_, ?_, fun m => ?_⟩
    · rw [readTailRuns, destinationRuns, hk, hSplit]
      refine (delivers_liftCheck hSpan).bind_nil ?_
      refine delivers_take_bind endOfBuffer hBytes ?_
      refine delivers_stage_bind _ ?_
      exact hDelivers.bind_pure
    · rw [destinationRuns, hk, length_cons, hOps]
    have hPairs : rowPairs ([slot] :: rest) (row :: rows) =
        rowPairs ([slot] :: rest.take k) (row :: rows.take k) ++
          rowPairs (rest.drop k) (rows.drop k) := by
      have hHead : ([slot] :: rest.take k).length = (row :: rows.take k).length := by
        rw [length_cons, length_cons, hTaken, length_take]
        omega
      rw [← rowPairs_append hHead, cons_append, cons_append, take_append_drop,
        take_append_drop]
    rw [hPairs, writeRows_append, ← putSlice_run hSlot.1 hRunRows hRun]
    exact hCommit _
  | case3 slots rest hNotSingle ih =>
    intro rows hLength hRows hRange
    obtain ⟨row, rows, rfl⟩ := exists_cons_of_length_eq_add_one hLength.symm
    obtain ⟨ws, hDelivers, hOps, hCommit⟩ := @ih rows (Nat.succ.inj hLength)
      (fun r hr => hRows r (mem_cons_of_mem _ hr))
      (fun l hl => hRange l (mem_cons_of_mem _ hl))
    have hRowLength := hRows row mem_cons_self
    have hStage := delivers_stageRow hRow hSize hRowLength (hRange slots mem_cons_self)
    refine ⟨(slots.map fun (slot : Int) => (slot.toNat, row)).map (rowWrite rowSize) ++ ws, ?_, ?_,
      fun m => ?_⟩
    · rw [readTailRuns, destinationRuns]
      · refine delivers_take_bind endOfBuffer hRowLength ?_
        exact hStage.bind hDelivers.bind_pure
      · exact hNotSingle
      · exact hNotSingle
    · rw [destinationRuns, length_append, length_map, length_map, hOps]
      exact hNotSingle
    · rw [commitWrites_append, commitWrites_rows, hCommit, ← writeRows_append]
      rfl

/-- The component is read as the rows, and its bytes are accounted for. -/
theorem delivers_readTailComponent (hRow : 0 < rowSize) (hSize : nbytes ≤ sizeMax)
    (hLength : destinations.length = rows.length) (hCount : destinations.length < 2 ^ 32)
    (hBytes : destinations.length * rowSize ≤ sizeMax) (hRows : ∀ row ∈ rows, row.length = rowSize)
    (hRange : ∀ slots ∈ destinations, ∀ slot ∈ slots, SlotInRange nbytes rowSize slot) :
    ∃ ws, Delivers (readTailComponent (some nbytes) rowSize destinations false) rows.flatten
        (destinationRuns destinations) ws ∧
      ws.length = destinationRuns destinations ∧
      ∀ m, commitWrites m ws = writeRows rowSize m (rowPairs destinations rows) := by
  obtain ⟨ws, hDelivers, hOps, hCommit⟩ :=
    delivers_readTailRuns hRow hSize destinations hLength hRows hRange
  refine ⟨ws, fun rest => ?_, hOps, hCommit⟩
  have hExpected : checkedBytes (destinations.length % 2 ^ 32) rowSize =
      .ok (destinations.length * rowSize) := by
    rw [Nat.mod_eq_of_lt hCount]
    exact checkedBytes_ok hBytes
  have hTaken : (rows.flatten ++ rest).length - rest.length = destinations.length * rowSize := by
    rw [length_append, flatten_length hRows, hLength, Nat.add_sub_cancel]
  have hBegin : liftCheck (checkedBytes (destinations.length % 2 ^ 32) rowSize)
      (rows.flatten ++ rest) = .ok (destinations.length * rowSize, [], rows.flatten ++ rest) :=
    delivers_liftCheck hExpected (rows.flatten ++ rest)
  unfold readTailComponent
  dsimp only
  rw [run_bind hBegin, run_bind rfl]
  rw [← append_nil ws]
  refine run_bind_ok (hDelivers rest) ?_
  rw [run_bind rfl, run_check hTaken]
  rfl

end Reader

section Transfer

variable {nbytes nbytes' rowSize : Nat} {m m' : Nat → UInt8}

/-- The row that a payload leaves in each of its destinations, unless a later payload has it too. -/
theorem rowOf_rowPairs (hLength : destinations.length = rows.length)
    (hRows : ∀ row ∈ rows, row.length = rowSize)
    (hRange : ∀ slots ∈ destinations, ∀ slot ∈ slots, SlotInRange nbytes rowSize slot)
    {p : Nat} {slots : List Int} {row : List UInt8} (hSlots : destinations[p]? = some slots) (hRow : rows[p]? = some row) (hSlot : slot ∈ slots)
    (hLast : ∀ q l, p < q → destinations[q]? = some l → slot ∉ l) :
    rowOf rowSize (writeRows rowSize m (rowPairs destinations rows)) slot.toNat = row := by
  obtain ⟨hIndex, hSlotsAt⟩ := List.getElem?_eq_some_iff.mp hSlots
  obtain ⟨hRowIndex, hRowAt⟩ := List.getElem?_eq_some_iff.mp hRow
  have hBefore : (destinations.take p).length = (rows.take p).length := by
    rw [length_take, length_take, hLength]
  have hDestinations : destinations = destinations.take p ++ slots :: destinations.drop (p + 1) := by
    rw [← hSlotsAt, getElem_cons_drop, take_append_drop]
  have hRowsSplit : rows = rows.take p ++ row :: rows.drop (p + 1) := by
    rw [← hRowAt, getElem_cons_drop, take_append_drop]
  have hNonneg := (hRange slots (mem_of_getElem? hSlots) slot hSlot).1
  have hSplit : rowPairs destinations rows =
      rowPairs (destinations.take p) (rows.take p) ++
        rowPairs (slots :: destinations.drop (p + 1)) (row :: rows.drop (p + 1)) := by
    rw [← rowPairs_append hBefore, ← hDestinations, ← hRowsSplit]
  rw [hSplit, writeRows_append]
  refine rowOf_writeRows_of_all (rowPairs_length ?_) ?_ ?_
  · intro r hr
    rcases mem_cons.mp hr with rfl | hRest
    · exact hRows r (mem_of_getElem? hRow)
    · exact hRows r (mem_of_mem_drop hRest)
  · intro pair hPair hEq
    rcases mem_append.mp hPair with hFirst | hLater
    · obtain ⟨s, -, rfl⟩ := mem_map.mp hFirst
      rfl
    obtain ⟨l, hl, s, hs, hIs⟩ := mem_rowPairs hLater
    obtain ⟨q, hq⟩ := mem_iff_getElem?.mp hl
    rw [getElem?_drop] at hq
    have hPos := (hRange l (mem_of_getElem? hq) s hs).1
    have hSame : s = slot := by omega
    rw [hSame] at hs
    exact absurd hs (hLast _ _ (by omega) hq)
  · exact ⟨(slot.toNat, row), mem_append_left _ (mem_map.mpr ⟨slot, hSlot, rfl⟩), rfl⟩

/-- Rows that are saved in runs and restored in runs are transferred as they are one by one: the
bytes are those of the rows in order, every destination of a payload has the row of its slot unless
a later payload has the same destination, nothing else changes, and there are as many writes as the
runs of the destinations. -/
theorem tailRows_transferred (hRow : 0 < rowSize) (hSource : nbytes ≤ sizeMax)
    (hTarget : nbytes' ≤ sizeMax) {slots : List Int} {destinations : List (List Int)}
    (hLength : destinations.length = slots.length) (hCount : slots.length < 2 ^ 32)
    (hBytes : slots.length * rowSize ≤ sizeMax)
    (hSlots : ∀ slot ∈ slots, SlotInRange nbytes rowSize slot)
    (hDestinations : ∀ l ∈ destinations, ∀ slot ∈ l, SlotInRange nbytes' rowSize slot) :
    ∃ bytes, writeTailComponent nbytes rowSize m slots false = .ok bytes ∧
      bytes = (tailRows rowSize m slots).flatten ∧ bytes.length = slots.length * rowSize ∧
      ∃ ws, Delivers (readTailComponent (some nbytes') rowSize destinations false) bytes
          (destinationRuns destinations) ws ∧
        ws.length = destinationRuns destinations ∧
        commitWrites m' ws =
          writeRows rowSize m' (rowPairs destinations (tailRows rowSize m slots)) ∧
        (∀ (p : Nat) (source : Int) (l : List Int) (slot : Int), slots[p]? = some source →
          destinations[p]? = some l → slot ∈ l →
          (∀ q l', p < q → destinations[q]? = some l' → slot ∉ l') →
            rowOf rowSize (commitWrites m' ws) slot.toNat = rowOf rowSize m source.toNat) ∧
        ∀ k, (∀ l ∈ destinations, ∀ slot ∈ l,
          ¬ (slot.toNat * rowSize ≤ k ∧ k < slot.toNat * rowSize + rowSize)) →
            commitWrites m' ws k = m' k := by
  have hRows : ∀ row ∈ tailRows rowSize m slots, row.length = rowSize := by
    intro row hMem
    obtain ⟨slot, -, rfl⟩ := mem_map.mp hMem
    exact readSlice_length m _ _
  have hRowsLength : (tailRows rowSize m slots).length = slots.length := length_map _
  obtain ⟨ws, hDelivers, hOps, hCommit⟩ := delivers_readTailComponent hRow hTarget
    (hLength.trans hRowsLength.symm) (by omega) (by rw [hLength]; exact hBytes) hRows hDestinations
  refine ⟨_, writeTailComponent_rows hRow hSource hBytes hSlots, rfl, ?_, ws, hDelivers, hOps,
    hCommit m', fun p source l slot hAt hl hSlot hLast => ?_, fun k hk => ?_⟩
  · rw [flatten_length hRows, hRowsLength]
  · have hRowAt : (tailRows rowSize m slots)[p]? = some (rowOf rowSize m source.toNat) := by
      rw [tailRows, getElem?_map, hAt]
      rfl
    rw [hCommit]
    exact rowOf_rowPairs (hLength.trans hRowsLength.symm) hRows hDestinations hl hRowAt hSlot hLast
  rw [hCommit]
  refine writeRows_of_not_mem (rowPairs_length hRows) fun pair hPair => ?_
  obtain ⟨l, hl, slot, hSlot, hEq⟩ := mem_rowPairs hPair
  rw [hEq]
  exact hk l hl slot hSlot

end Transfer

/-- Slots 2, 3 and 0 are saved; the second has two destinations, and the third overwrites one. -/
theorem threeRows_transferred :
    ∃ ws, Delivers (readTailComponent (some 8) 2 [[1], [0, 3], [3]] false) [4, 5, 6, 7, 0, 1] 4 ws ∧
      rowOf 2 (commitWrites (fun _ => 9) ws) 0 = [6, 7] ∧
        rowOf 2 (commitWrites (fun _ => 9) ws) 3 = [0, 1] := by
  obtain ⟨bytes, -, hBytes, -, ws, hDelivers, -, -, hRows, -⟩ :=
    @tailRows_transferred 8 8 2 (fun k => UInt8.ofNat k) (fun _ => 9) (by decide) (by decide)
      (by decide) [2, 3, 0] [[1], [0, 3], [3]] rfl (by decide) (by decide)
      (by unfold SlotInRange; decide) (by unfold SlotInRange; decide)
  have hRuns : destinationRuns [[1], [0, 3], [3]] = 4 := by
    simp [destinationRuns, runAfter]
  have hFlat : bytes = [4, 5, 6, 7, 0, 1] := hBytes
  rw [hRuns, hFlat] at hDelivers
  refine ⟨ws, hDelivers, ?_, ?_⟩
  · refine hRows 1 3 [0, 3] 0 rfl rfl (by decide) fun q l hq hl => ?_
    match q, hq, hl with
    | 2, _, hl =>
      cases hl
      decide
  refine hRows 2 0 [3] 3 rfl rfl (by decide) fun q l hq hl => ?_
  match q, hq, hl with
  | _ + 3, _, hl => cases hl

end Beellama.Ports
