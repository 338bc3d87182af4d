import Beellama.Verified.StagedMemory
import Beellama.Ports.Kvarn

/-!
# Restoring the record ring of a sliding attention

The record of a complete group is in the slot of its number modulo the depth of the ring.  On the host
`read_kvarn_swa_records` restores the last groups that both rings have places for and clears the other
slots (`readKvarnSwaRecords_restored`); on a device the ring is only copied as it is.
-/

namespace Beellama.Ports

open Beellama.Verified List
open Beellama.Verified.StagedReader

def endOfBuffer : String := "unexpectedly reached end of buffer"

/-- The last complete group. -/
def lastCompleteGroup (posMax : Int) : Int := (posMax + 1).tdiv kvarnGroup - 1

/-- The groups that are restored: from `first_current` to `last_complete`. -/
def restoredGroups (savedGroups currentGroups : Nat) (savedPosMax : Int) : List Nat :=
  let lastComplete := lastCompleteGroup savedPosMax
  let firstSaved := max 0 (lastComplete - savedGroups + 1)
  let firstCurrent := max firstSaved (lastComplete - currentGroups + 1)
  List.range' firstCurrent.toNat (lastComplete + 1 - firstCurrent).toNat

/-- `read_kvarn_swa_records` for a tensor of `currentGroups` groups of `groupBytes` bytes. -/
def readKvarnSwaRecords (groupBytes savedGroups currentGroups : Nat) (savedPosMax : Int)
    (onDevice : Bool) : StagedReader TensorWrite String Unit := do
  let savedSize ← take endOfBuffer 8
  check (leNat savedSize = savedGroups * groupBytes % 2 ^ 64)
    "mismatched KVarN SWA record tensor size"
  if onDevice then
    check (savedGroups = currentGroups)
      "on-device KVarN SWA state cannot remap record-ring depth"
    let bytes ← take endOfBuffer (leNat savedSize)
    stage (.set 0 bytes)
  else
    let saved ← take endOfBuffer (leNat savedSize)
    stage (.clear 0 (currentGroups * groupBytes))
    if savedPosMax < kvarnGroup - 1 then pure ()
    else
      (restoredGroups savedGroups currentGroups savedPosMax).forM fun group =>
        stage (.set (group % currentGroups * groupBytes)
          ((saved.drop (group % savedGroups * groupBytes)).take groupBytes))

/-- The slots of a ring of some depth have the records of the last `count` groups. -/
def HoldsGroups (depth count : Nat) (last : Int) (record ring : Nat → List UInt8) : Prop :=
  ∀ group : Nat, (group : Int) ≤ last → last < group + count → ring (group % depth) = record group

/-- The slots of no such group are zero. -/
def OthersZero (groupBytes depth count : Nat) (last : Int) (ring : Nat → List UInt8) : Prop :=
  ∀ slot < depth, (∀ group : Nat, (group : Int) ≤ last → last < group + count →
    group % depth ≠ slot) → ring slot = List.replicate groupBytes 0

/-- The slots of a ring that was saved. -/
def savedSlot (groupBytes : Nat) (saved : List UInt8) (slot : Nat) : List UInt8 :=
  (saved.drop (slot * groupBytes)).take groupBytes

/-- The last groups that both rings have places for are in their slots of the new ring, and all else
is zero. -/
def RingRestored (groupBytes savedGroups currentGroups : Nat) (savedPosMax : Int)
    (onDevice : Bool) (saved : List UInt8) : Prop :=
  ∀ (record : Nat → List UInt8) (rest : List UInt8) (m : Nat → UInt8),
    HoldsGroups savedGroups savedGroups (lastCompleteGroup savedPosMax) record
      (savedSlot groupBytes saved) →
    ∃ ws, readKvarnSwaRecords groupBytes savedGroups currentGroups savedPosMax onDevice
        (leBytes 8 saved.length ++ saved ++ rest) = .ok ((), ws, rest) ∧
      HoldsGroups currentGroups (min savedGroups currentGroups) (lastCompleteGroup savedPosMax)
        record (rowOf groupBytes (commitWrites m ws)) ∧
      OthersZero groupBytes currentGroups (min savedGroups currentGroups)
        (lastCompleteGroup savedPosMax) (rowOf groupBytes (commitWrites m ws))

section Restore

variable {groupBytes savedGroups currentGroups : Nat} {savedPosMax : Int} {saved : List UInt8}
  {m : Nat → UInt8}

variable {slot : Nat}

theorem rowOf_clear (hSlot : slot < currentGroups) :
    rowOf groupBytes (TensorWrite.apply m (.clear 0 (currentGroups * groupBytes))) slot =
      replicate groupBytes 0 := by
  have hRow := Nat.mul_le_mul_right groupBytes (Nat.succ_le_of_lt hSlot)
  rw [Nat.succ_mul] at hRow
  show readSlice (putSlice m 0 (replicate _ 0)) (slot * groupBytes) groupBytes = _
  unfold readSlice putSlice
  apply ext_getElem
  · simp
  intro i hi _
  have hBound : i < groupBytes := by simpa using hi
  rw [getElem_map, getElem_range, getElem_replicate, length_replicate,
    if_pos (by omega), getD_replicate _ (by omega)]

variable {group : Nat}

section

variable (hSaved : 0 < savedGroups) (hCurrent : 0 < currentGroups)

include hSaved hCurrent

theorem restoredGroups_spec : group ∈ restoredGroups savedGroups currentGroups savedPosMax ↔
      (group : Int) ≤ lastCompleteGroup savedPosMax ∧
        lastCompleteGroup savedPosMax < group + min savedGroups currentGroups := by
  unfold restoredGroups
  rw [mem_range'_1]
  omega

omit hSaved hCurrent in
/-- The groups of a window of at most the depth have slots of their own. -/
theorem slot_ne {depth first last : Nat} (hFirst : last < first + depth)
    (hGroup : first ≤ group) {group' : Nat} (hLater : group < group') (hLast : group' ≤ last) :
    group' % depth ≠ group % depth := by
  intro hEq
  have hDvd : depth ∣ group' - group := Nat.dvd_of_mod_eq_zero (Nat.sub_mod_eq_zero_of_mod_eq hEq)
  have hLe := Nat.le_of_dvd (by omega) hDvd
  omega

/-- The writes of the restored groups. -/
def groupRows (groupBytes savedGroups currentGroups : Nat) (savedPosMax : Int)
    (saved : List UInt8) : List (Nat × List UInt8) :=
  (restoredGroups savedGroups currentGroups savedPosMax).map fun group =>
    (group % currentGroups, savedSlot groupBytes saved (group % savedGroups))

section

variable (hLength : saved.length = savedGroups * groupBytes)

include hLength

omit hSaved hCurrent in
theorem savedSlot_length (hSlot : slot < savedGroups) :
    (savedSlot groupBytes saved slot).length = groupBytes := by
  have hRow := Nat.mul_le_mul_right groupBytes (Nat.succ_le_of_lt hSlot)
  rw [Nat.succ_mul] at hRow
  unfold savedSlot
  rw [length_take, length_drop]
  omega

omit hCurrent in
theorem groupRows_length : ∀ row ∈ groupRows groupBytes savedGroups currentGroups savedPosMax saved,
      row.2.length = groupBytes := by
  intro row hRow
  obtain ⟨group, -, rfl⟩ := mem_map.mp hRow
  exact savedSlot_length hLength (Nat.mod_lt _ hSaved)

theorem rowOf_groupRows (hGroup : group ∈ restoredGroups savedGroups currentGroups savedPosMax) :
    rowOf groupBytes (writeRows groupBytes m
      (groupRows groupBytes savedGroups currentGroups savedPosMax saved)) (group % currentGroups) =
      savedSlot groupBytes saved (group % savedGroups) := by
  have hRows := @groupRows_length groupBytes savedGroups currentGroups savedPosMax saved hSaved
    hLength
  have hSorted : (restoredGroups savedGroups currentGroups savedPosMax).Pairwise (· < ·) :=
    pairwise_lt_range'
  have hMem := hGroup
  obtain ⟨before, after, hSplit⟩ := append_of_mem hGroup
  unfold groupRows at hRows ⊢
  rw [hSplit] at hRows hSorted ⊢
  rw [map_append] at hRows ⊢
  refine rowOf_writeRows hRows fun row hRow => ?_
  obtain ⟨group', hAfter, rfl⟩ := mem_map.mp hRow
  have hLater : group < group' :=
    (pairwise_cons.mp (pairwise_append.mp hSorted).2.1).1 group' hAfter
  have hLast : group' ∈ restoredGroups savedGroups currentGroups savedPosMax := by
    rw [hSplit]
    exact mem_append_right _ (mem_cons_of_mem _ hAfter)
  obtain ⟨-, hRecent⟩ := (restoredGroups_spec hSaved hCurrent).mp hMem
  obtain ⟨hLe, -⟩ := (restoredGroups_spec hSaved hCurrent).mp hLast
  exact slot_ne (by omega : group' < group + currentGroups) le_rfl hLater le_rfl

end

/-- Below one complete group there is nothing to restore. -/
theorem restoredGroups_nil (hShort : savedPosMax < kvarnGroup - 1) :
    restoredGroups savedGroups currentGroups savedPosMax = [] := by
  apply eq_nil_iff_forall_not_mem.mpr
  intro group hGroup
  obtain ⟨hLe, -⟩ := (restoredGroups_spec hSaved hCurrent).mp hGroup
  unfold lastCompleteGroup at hLe
  unfold kvarnGroup at hShort hLe
  have hDiv : (savedPosMax + 1).tdiv (128 : Nat) ≤ 0 := by
    rcases Int.le_total 0 (savedPosMax + 1) with hSign | hSign
    · rw [Int.tdiv_eq_ediv_of_nonneg hSign]
      omega
    have hNeg : 0 ≤ (-(savedPosMax + 1)).tdiv (128 : Nat) :=
      Int.tdiv_nonneg (by omega) (by omega)
    rw [Int.neg_tdiv] at hNeg
    omega
  omega

omit hSaved hCurrent in
theorem leNat_length (hSize : savedGroups * groupBytes < 2 ^ 64)
    (hLength : saved.length = savedGroups * groupBytes) :
    leNat (leBytes 8 saved.length) = saved.length ∧
      leNat (leBytes 8 saved.length) = savedGroups * groupBytes % 2 ^ 64 := by
  have hNat : leNat (leBytes 8 saved.length) = saved.length := leNat_leBytes (by omega)
  exact ⟨hNat, by rw [hNat, hLength, Nat.mod_eq_of_lt hSize]⟩

/-- On the host the reader clears the ring and stages the groups that both rings have places for. -/
theorem readKvarnSwaRecords_host (hSize : savedGroups * groupBytes < 2 ^ 64)
    (hLength : saved.length = savedGroups * groupBytes) :
    Delivers (readKvarnSwaRecords groupBytes savedGroups currentGroups savedPosMax false)
      (leBytes 8 saved.length ++ saved) ()
      (.clear 0 (currentGroups * groupBytes) ::
        (groupRows groupBytes savedGroups currentGroups savedPosMax saved).map
          (rowWrite groupBytes)) := by
  obtain ⟨hNat, hCheck⟩ := leNat_length hSize hLength
  have hBody : Delivers (if savedPosMax < kvarnGroup - 1 then pure ()
      else (restoredGroups savedGroups currentGroups savedPosMax).forM fun group =>
        (stage (.set (group % currentGroups * groupBytes)
          ((saved.drop (group % savedGroups * groupBytes)).take groupBytes)) :
            StagedReader TensorWrite String Unit)) [] ()
      ((groupRows groupBytes savedGroups currentGroups savedPosMax saved).map
        (rowWrite groupBytes)) := by
    unfold groupRows
    rw [map_map]
    split
    · rename_i hShort
      rw [restoredGroups_nil hSaved hCurrent hShort]
      exact delivers_pure ()
    · exact delivers_forM_stage _ _
  refine (delivers_take endOfBuffer (leBytes_length 8 saved.length)).bind ?_
  refine Delivers.check_bind hCheck _ ?_
  rw [if_neg Bool.false_ne_true]
  intro rest
  rw [run_bind (consumes_take endOfBuffer hNat.symm rest)]
  exact run_bind_ok (delivers_stage (.clear 0 (currentGroups * groupBytes)) rest) (hBody rest)

theorem readKvarnSwaRecords_restored (hSize : savedGroups * groupBytes < 2 ^ 64)
    (hLength : saved.length = savedGroups * groupBytes) :
    RingRestored groupBytes savedGroups currentGroups savedPosMax false saved := by
  intro record rest m hHolds
  refine ⟨_, readKvarnSwaRecords_host hSaved hCurrent hSize hLength rest, ?_, ?_⟩
  · intro group hLe hRecent
    have hGroup : group ∈ restoredGroups savedGroups currentGroups savedPosMax :=
      (restoredGroups_spec hSaved hCurrent).mpr ⟨hLe, hRecent⟩
    show rowOf groupBytes (commitWrites (TensorWrite.apply m _) (map _ _)) _ = _
    rw [commitWrites_rows, rowOf_groupRows hSaved hCurrent hLength hGroup]
    exact hHolds group hLe (by omega)
  intro slot hSlot hNone
  show rowOf groupBytes (commitWrites (TensorWrite.apply m _) (map _ _)) _ = _
  rw [commitWrites_rows, rowOf_writeRows_of_not_mem (groupRows_length hSaved hLength) ?_,
    rowOf_clear hSlot]
  intro row hRow
  obtain ⟨group, hGroup, rfl⟩ := mem_map.mp hRow
  obtain ⟨hLe, hRecent⟩ := (restoredGroups_spec hSaved hCurrent).mp hGroup
  exact hNone group hLe hRecent

end

/-- On a device another depth is refused. -/
theorem readKvarnSwaRecords_refused (hSize : savedGroups * groupBytes < 2 ^ 64)
    (hLength : saved.length = savedGroups * groupBytes) (hDepth : savedGroups ≠ currentGroups)
    (rest : List UInt8) :
    readKvarnSwaRecords groupBytes savedGroups currentGroups savedPosMax true
        (leBytes 8 saved.length ++ saved ++ rest) =
      .error "on-device KVarN SWA state cannot remap record-ring depth" := by
  obtain ⟨hNat, hCheck⟩ := leNat_length hSize hLength
  unfold readKvarnSwaRecords
  rw [append_assoc, run_bind (consumes_take endOfBuffer (leBytes_length 8 saved.length) _),
    run_check hCheck, check, if_neg hDepth]
  rfl

/-- On a device the slots of a ring of the same depth are the saved ones. -/
theorem readKvarnSwaRecords_copied (hSize : savedGroups * groupBytes < 2 ^ 64)
    (hLength : saved.length = savedGroups * groupBytes) (rest : List UInt8) :
    readKvarnSwaRecords groupBytes savedGroups savedGroups savedPosMax true
        (leBytes 8 saved.length ++ saved ++ rest) = .ok ((), [.set 0 saved], rest) := by
  obtain ⟨hNat, hCheck⟩ := leNat_length hSize hLength
  unfold readKvarnSwaRecords
  rw [append_assoc, run_bind (consumes_take endOfBuffer (leBytes_length 8 saved.length) _),
    run_check hCheck, if_pos rfl, run_check rfl, run_bind (consumes_take endOfBuffer hNat.symm rest)]
  rfl

theorem rowOf_putSlice_zero (hLength : saved.length = savedGroups * groupBytes)
    (hSlot : slot < savedGroups) :
    rowOf groupBytes (putSlice m 0 saved) slot = savedSlot groupBytes saved slot := by
  have hRow := Nat.mul_le_mul_right groupBytes (Nat.succ_le_of_lt hSlot)
  rw [Nat.succ_mul] at hRow
  unfold rowOf readSlice putSlice savedSlot
  apply ext_getElem
  · simp only [length_map, length_range, length_take, length_drop]
    omega
  intro i hi _
  have hBound : i < groupBytes := by simpa using hi
  rw [getElem_map, getElem_range, if_pos (by omega), Nat.sub_zero,
    getD_eq_getElem _ _ (by omega), getElem_take, getElem_drop]

/-- On the host a ring of any depth is restored into a ring of any depth; on a device a ring of the
same depth is copied as it is, and a ring of another depth is refused. -/
theorem readKvarnSwaRecords_spec (hSaved : 0 < savedGroups) (hCurrent : 0 < currentGroups)
    (hSize : savedGroups * groupBytes < 2 ^ 64)
    (hLength : saved.length = savedGroups * groupBytes) :
    RingRestored groupBytes savedGroups currentGroups savedPosMax false saved ∧
      ∀ rest, (savedGroups ≠ currentGroups →
          readKvarnSwaRecords groupBytes savedGroups currentGroups savedPosMax true
              (leBytes 8 saved.length ++ saved ++ rest) =
            .error "on-device KVarN SWA state cannot remap record-ring depth") ∧
        (savedGroups = currentGroups → ∀ m, ∃ ws,
          readKvarnSwaRecords groupBytes savedGroups currentGroups savedPosMax true
              (leBytes 8 saved.length ++ saved ++ rest) = .ok ((), ws, rest) ∧
            ∀ slot < currentGroups,
              rowOf groupBytes (commitWrites m ws) slot = savedSlot groupBytes saved slot) := by
  refine ⟨readKvarnSwaRecords_restored hSaved hCurrent hSize hLength, fun rest => ⟨fun hDepth => ?_,
    fun hDepth m => ?_⟩⟩
  · exact readKvarnSwaRecords_refused hSize hLength hDepth rest
  subst hDepth
  exact ⟨_, readKvarnSwaRecords_copied hSize hLength rest, fun slot hSlot =>
    rowOf_putSlice_zero hLength hSlot⟩

end Restore

/-- A ring of two groups, of which the newer is left in a ring of one. -/
theorem twoGroups_restored : RingRestored 1 2 1 300 false [7, 9] :=
  (@readKvarnSwaRecords_spec 1 2 1 300 [7, 9] (by decide) (by decide) (by decide) rfl).1

/-- On a device a ring is not restored into a ring of another depth. -/
theorem deviceRing_not_restored : ¬ ∀ (groupBytes savedGroups currentGroups : Nat)
    (savedPosMax : Int) (onDevice : Bool) (saved : List UInt8), 0 < savedGroups →
      0 < currentGroups → savedGroups * groupBytes < 2 ^ 64 →
        saved.length = savedGroups * groupBytes →
          RingRestored groupBytes savedGroups currentGroups savedPosMax onDevice saved := by
  intro h
  obtain ⟨ws, hRun, -⟩ := h 1 1 2 127 true [7] (by decide) (by decide) (by decide) rfl
    (fun _ => [7]) [] (fun _ => 0) fun group hLe hRecent => by
      have hZero : group % 1 = 0 := Nat.mod_one group
      rw [hZero]
      rfl
  have hRefused := @readKvarnSwaRecords_refused 1 1 2 127 [7] (by decide) rfl (by decide) []
  exact absurd (hRefused.symm.trans hRun) (by simp)

end Beellama.Ports
