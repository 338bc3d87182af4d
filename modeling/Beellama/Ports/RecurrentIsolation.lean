import Beellama.Verified.Run
import Beellama.Ports.RecurrentRows

/-!
# Runs of the recurrent memory with its states

As long as no rollback index belongs to a sequence without a cell or to one of several sequences that
share a cell, every sequence of a ubatch is fed its own state and the others keep theirs
(`Reachable.isolated`).  A removal can leave an index behind: `staleRun_mixes`.
-/

namespace Beellama.Ports

open Beellama.Verified List Option Function RecurrentMemory

variable {σ : Type}

/-- The operations of a run. -/
inductive StateOp (σ : Type)
  /-- a ubatch, its number of planes and its results -/
  | decode (u : RecurrentUbatch) (planes : Nat) (results : List σ → Nat → Nat → σ)
  | rm (s p0 p1 : Int)
  | rmCell (s : Int) (c : Nat)
  | cp (s d : Int)
  | keep (s : Int)
  | clear (data : Bool)

/-! ## The operations on sequences -/

namespace RecurrentMemory

variable {mem mem' : RecurrentMemory}

/-- What the operations on sequences leave of the memory. -/
structure Quiet (mem mem' : RecurrentMemory) : Prop where
  shape : SameShape mem mem'
  inv : Invariant mem'
  indexed : Indexed mem'
  zeros : ∀ e, (mem'.cells e).seqId = ∅ → (mem'.cells e).src = some e →
    (mem.cells e).seqId = ∅ ∧ (mem.cells e).src = some e

theorem Indexed.of_rsIdx (h : Indexed mem) (hShape : SameShape mem mem')
    (hIdx : ∀ s, mem'.rsIdx s = 0 ∨ mem'.rsIdx s = mem.rsIdx s) : Indexed mem' := by
  refine ⟨fun s => ?_, fun s hS => ?_⟩
  · rw [hShape.nRsSeq]
    rcases hIdx s with hZero | hSame
    · exact hZero ▸ Nat.zero_le _
    · exact hSame ▸ h.le s
  rw [hShape.nSeqMax] at hS
  rcases hIdx s with hZero | hSame
  · exact hZero
  · exact hSame.trans (h.beyond s hS)

variable {D : Nat → Prop}

theorem Dropped.zeros (h : Dropped D mem mem') (e : Nat)
    (hEmpty : (mem'.cells e).seqId = ∅) (hOwn : (mem'.cells e).src = some e) :
    (mem.cells e).seqId = ∅ ∧ (mem.cells e).src = some e := by
  rcases (h.freed e hEmpty).2 with hNone | ⟨hOld, hSrc⟩
  · rw [hOwn] at hNone
    cases hNone
  · exact ⟨hOld, hSrc ▸ hOwn⟩

theorem Invariant.quiet_dropped (h : Invariant mem) (hIndexed : Indexed mem)
    (hDrop : Dropped D mem mem')
    (hIdx : ∀ s, mem'.rsIdx s = 0 ∨ mem'.rsIdx s = mem.rsIdx s) : Quiet mem mem' :=
  ⟨hDrop.shape, h.dropped hDrop, hIndexed.of_rsIdx hDrop.shape hIdx, hDrop.zeros⟩

theorem rmRsIdx_cases (mem : RecurrentMemory) (s p0 p1 : Int) (x : Nat) :
    mem.rmRsIdx s p0 p1 x = 0 ∨ mem.rmRsIdx s p0 p1 x = mem.rsIdx x := by
  unfold rmRsIdx resetRsIdx setRsIdx
  split
  · split
    · split
      · exact Or.inr rfl
      show update mem.rsIdx s.toNat (min 0 mem.nRsSeq) x = 0 ∨ _
      by_cases hX : x = s.toNat
      · rw [hX, update_self]
        exact Or.inl rfl
      · exact Or.inr (update_of_ne hX ..)
    · exact Or.inl rfl
  · exact Or.inr rfl

theorem Indexed.setRsIdx (h : Indexed mem) (s idx : Nat) : Indexed (mem.setRsIdx s idx) := by
  unfold RecurrentMemory.setRsIdx
  by_cases hBeyond : mem.nSeqMax ≤ s
  · rw [if_pos hBeyond]
    exact h
  rw [if_neg hBeyond]
  have hSet : ∀ x, x ≠ s → update mem.rsIdx s (min idx mem.nRsSeq) x = mem.rsIdx x :=
    fun x hX => update_of_ne hX ..
  refine ⟨fun x => ?_, fun x hX => ?_⟩
  · show update mem.rsIdx s (min idx mem.nRsSeq) x ≤ mem.nRsSeq
    by_cases hSame : x = s
    · rw [hSame, update_self]
      exact Nat.min_le_right _ _
    · rw [hSet x hSame]
      exact h.le x
  have hSame : x ≠ s := by
    rintro rfl
    exact hBeyond hX
  exact (hSet x hSame).trans (h.beyond x hX)

theorem Invariant.quiet_rm (h : Invariant mem) (hIndexed : Indexed mem) {s p0 p1 : Int}
    (hSafe : RmSafe mem s p0 p1) : Quiet mem (mem.seqRm s p0 p1).2 := by
  have hInv := h.seqRm hSafe
  have hOutcome := (seqRm_outcome h s p0 p1).1
  revert hOutcome hInv
  generalize mem.seqRm s p0 p1 = r
  intro hInv hOutcome
  cases hOutcome with
  | refused => exact ⟨.refl mem, h, hIndexed, fun _ hEmpty hOwn => ⟨hEmpty, hOwn⟩⟩
  | @rolledBack x t hSeq hTail hCuts hBound =>
    obtain ⟨hCells, _, _, hShape⟩ :=
      setRsIdx_cells mem x ((mem.cells t).pos - (rangeStart p0 - 1)).toNat
    have hKeeps := hIndexed.setRsIdx x ((mem.cells t).pos - (rangeStart p0 - 1)).toNat
    refine ⟨⟨hShape.size, hShape.nSeqMax, hShape.nRsSeq⟩, hInv, ⟨hKeeps.le, hKeeps.beyond⟩, ?_⟩
    intro e hEmpty hOwn
    by_cases hCell : e = t
    · rw [hCell, onCell_same, hCells] at hEmpty
      exact absurd hEmpty (Finset.ne_empty_of_mem (h.tail x t hTail).2)
    · rw [onCell_other _ _ hCell, hCells] at hEmpty hOwn
      exact ⟨hEmpty, hOwn⟩
  | dropped _ _ hDrop hIdx =>
    exact h.quiet_dropped hIndexed hDrop fun x => congrFun hIdx x ▸ rmRsIdx_cases ..
  | missed _ _ _ hShape hCells _ _ hIdx =>
    refine ⟨hShape, hInv, hIndexed.of_rsIdx hShape fun x => congrFun hIdx x ▸ rmRsIdx_cases .., ?_⟩
    intro e hEmpty hOwn
    rw [hCells] at hEmpty hOwn
    exact ⟨hEmpty, hOwn⟩
  | all hNeg hRange hShape hCells _ _ hIdx =>
    refine ⟨hShape, hInv, hIndexed.of_rsIdx hShape fun x => congrFun hIdx x ▸ rmRsIdx_cases .., ?_⟩
    intro e hEmpty hOwn
    have hSame : ∀ c, (if c < mem.size then rmCell s (rangeStart p0) (rangeEnd p1) (mem.cells c)
        else mem.cells c) = mem.cells c := by
      intro c
      split
      · rename_i hLt
        unfold rmCell
        rw [if_neg fun hIn => h.rmAll_cells hNeg hSafe hRange c hLt ⟨hIn.1, hIn.2.1⟩]
      · rfl
    dsimp only at hEmpty hOwn
    rw [hCells, hSame] at hEmpty hOwn
    exact ⟨hEmpty, hOwn⟩

theorem Invariant.quiet_rmCell (h : Invariant mem) (hIndexed : Indexed mem) (s : Int) (c : Nat) :
    Quiet mem (mem.seqRmCell s c).2 := by
  by_cases hRefused : s < 0 ∨ mem.size ≤ c ∨ s.toNat ∉ (mem.cells c).seqId
  · rw [seqRmCell_refused hRefused]
    exact ⟨.refl mem, h, hIndexed, fun _ hEmpty hOwn => ⟨hEmpty, hOwn⟩⟩
  obtain ⟨hNeg, hRest⟩ := not_or.mp hRefused
  obtain ⟨hLt, hMember⟩ := not_or.mp hRest
  obtain ⟨mem', hStep, hDrop, hIdx⟩ := h.seqRmCell hNeg hLt (not_not.mp hMember)
  rw [hStep]
  exact h.quiet_dropped hIndexed hDrop fun x => Or.inr (congrFun hIdx x)

theorem Invariant.quiet_cp (h : Invariant mem) (hIndexed : Indexed mem) (s d : Int) :
    Quiet mem (mem.seqCp s d) := by
  have hInv := h.seqCp s d
  have hOutcome := seqCp_outcome h s d
  revert hOutcome hInv
  generalize mem.seqCp s d = mem'
  intro hInv hOutcome
  cases hOutcome with
  | same => exact ⟨.refl mem, h, hIndexed, fun _ hEmpty hOwn => ⟨hEmpty, hOwn⟩⟩
  | left hDrop hIdx =>
    exact h.quiet_dropped hIndexed hDrop fun x => Or.inr (congrFun hIdx x)
  | @joined s d t m₀ hDrop hIdx hLt hTail hNone =>
    have hShape : ∀ f, SameShape mem ((m₀.onCell t f).setTail d (some t)) := fun f =>
      hDrop.shape.trans ((onCell_shape m₀ t f).trans (setTail_shape ..))
    refine ⟨hShape _, hInv, hIndexed.of_rsIdx (hShape _) fun x => Or.inr (congrFun hIdx x), ?_⟩
    intro e hEmpty hOwn
    rw [enter_cells] at hEmpty hOwn
    have hEmpty' : (if e = t then insert d (m₀.cells e).seqId else (m₀.cells e).seqId) = ∅ := hEmpty
    by_cases hCell : e = t
    · rw [if_pos hCell] at hEmpty'
      exact absurd hEmpty' (Finset.insert_ne_empty _ _)
    · rw [if_neg hCell] at hEmpty'
      exact hDrop.zeros e hEmpty' hOwn

end RecurrentMemory

/-! ## Runs -/

namespace RecurrentStates

open RecurrentMemory

variable {zero : σ} {st st' : RecurrentStates σ}

/-- The memory as it is constructed: the buffers are cleared. -/
def empty (zero : σ) (size nSeqMax nRsSeq : Nat) : RecurrentStates σ :=
  { mem := RecurrentMemory.empty size nSeqMax nRsSeq, rows := fun _ => zero }

/-- The memory after an operation that does not abort. -/
def step (zero : σ) (st : RecurrentStates σ) : StateOp σ → Option (RecurrentStates σ)
  | .decode u planes results => (st.decode zero u planes results).map Prod.snd
  | .rm s p0 p1 => some { st with mem := (st.mem.seqRm s p0 p1).2 }
  | .rmCell s c => some { st with mem := (st.mem.seqRmCell s c).2 }
  | .cp s d => some { st with mem := st.mem.seqCp s d }
  | .keep s => some { st with mem := st.mem.seqKeep s }
  | .clear data => some { mem := st.mem.clear, rows := if data then fun _ => zero else st.rows }

/-- The ubatches are those that the batch allocator makes. -/
def Legal (op : StateOp σ) (st : RecurrentStates σ) : Prop :=
  match op with
  | .decode u _ _ => Fits u st.mem.size
  | _ => True

/-- The operation meets no index that `find_slot` and `s_copy` do not expect. -/
def Safe (op : StateOp σ) (st : RecurrentStates σ) : Prop :=
  match op with
  | .decode u _ _ => StepSafe st.mem u
  | .rm s p0 p1 => RmSafe st.mem s p0 p1
  | _ => True

/-- The states of the runs whose operations are legal and meet a condition on the state
they start from. -/
def Reachable (zero : σ) (P : StateOp σ → RecurrentStates σ → Prop) : RecurrentStates σ → Prop :=
  Run (fun st => ∃ size nSeqMax nRsSeq, nSeqMax ≤ size ∧ st = empty zero size nSeqMax nRsSeq)
    (fun op st st' => st.step zero op = some st') (fun op st => Legal op st ∧ P op st)

variable {size : Nat}

theorem rowsInvariant_empty {nSeqMax nRsSeq : Nat} (hRoom : nSeqMax ≤ size) :
    RowsInvariant zero (empty zero size nSeqMax nRsSeq) where
  inv := invariant_empty hRoom
  indexed := ⟨fun _ => Nat.zero_le _, fun _ _ => rfl⟩
  zeros _ _ hOwn := by cases hOwn

theorem RowsInvariant.quiet {mem : RecurrentMemory} (h : RowsInvariant zero st)
    (hQuiet : Quiet st.mem mem) : RowsInvariant zero { st with mem := mem } where
  inv := hQuiet.inv
  indexed := hQuiet.indexed
  zeros e hEmpty hOwn := by
    obtain ⟨hOld, hSrc⟩ := hQuiet.zeros e hEmpty hOwn
    rw [show ({ st with mem := mem } : RecurrentStates σ).mem.size = st.mem.size from
      hQuiet.shape.size]
    exact h.zeros e hOld hSrc

variable {op : StateOp σ}

theorem RowsInvariant.step (h : RowsInvariant zero st) (hLegal : Legal op st)
    (hSafe : ∀ s p0 p1, op = .rm s p0 p1 → RmSafe st.mem s p0 p1)
    (hStep : st.step zero op = some st') : RowsInvariant zero st' := by
  cases op with
  | decode u planes results =>
    obtain ⟨_, _, _, _, next, _, hDecode, hDone⟩ := h.decoding hLegal planes results
    have hNext : (st.decode zero u planes results).map Prod.snd = some st' := hStep
    rw [hDecode] at hNext
    exact some.inj hNext ▸ hDone.keeps
  | rm s p0 p1 => exact some.inj hStep ▸ h.quiet (h.inv.quiet_rm h.indexed (hSafe s p0 p1 rfl))
  | rmCell s c => exact some.inj hStep ▸ h.quiet (h.inv.quiet_rmCell h.indexed s c)
  | cp s d => exact some.inj hStep ▸ h.quiet (h.inv.quiet_cp h.indexed s d)
  | keep s =>
    obtain ⟨hDrop, hIdx⟩ := h.inv.seqKeep s
    exact some.inj hStep ▸ h.quiet
      (h.inv.quiet_dropped h.indexed hDrop fun x => Or.inr (congrFun hIdx x))
  | clear data =>
    have hQuiet := h.quiet
      (h.inv.quiet_dropped h.indexed h.inv.clear fun _ => Or.inl rfl)
    refine some.inj hStep ▸ ⟨hQuiet.inv, hQuiet.indexed, fun e hEmpty hOwn => ?_⟩
    obtain ⟨hLt, hZero⟩ := hQuiet.zeros e hEmpty hOwn
    refine ⟨hLt, ?_⟩
    cases data with
    | true => rfl
    | false => exact hZero

theorem Reachable.invariant (h : Reachable zero Safe st) : RowsInvariant zero st := by
  refine Run.invariant h ?_ ?_
  · rintro _ ⟨_, _, _, hRoom, rfl⟩
    exact rowsInvariant_empty hRoom
  · rintro op st st' hInv ⟨hLegal, hSafe⟩ hStep
    exact hInv.step hLegal (fun s p0 p1 hRm => by subst hRm; exact hSafe) hStep

/-- In every state of a safe run a safe ubatch is decoded; each of its sequences is fed
its own state, or the zero state if it has none, and the states of the others stay. -/
theorem Reachable.isolated (h : Reachable zero Safe st) {u : RecurrentUbatch}
    (hFits : Fits u st.mem.size) (hSafe : StepSafe st.mem u) (planes : Nat)
    (results : List σ → Nat → Nat → σ) :
    ∃ fed st', st.decode zero u planes results = some (fed, st') ∧
      Isolated zero st u fed st' := by
  obtain ⟨_, _, _, fed, st', _, hDecode, hDone⟩ := h.invariant.decoding hFits planes results
  refine ⟨fed, st', hDecode, fun _ set hSet _ hX => ?_, fun _ hOut => hDone.stays hSafe hOut⟩
  have hMem := mem_of_getElem? hSet
  exact hDone.fed_own hFits hSet (hSafe.nodup set hMem) (hSafe.together set hMem)
    (hSafe.fresh set hMem) hX

/-- The memory after an operation, or the memory itself where the operation aborts. -/
def after (zero : σ) (st : RecurrentStates σ) (op : StateOp σ) : RecurrentStates σ :=
  (st.step zero op).getD st

theorem step_after (h : (st.step zero op).isSome = true) :
    st.step zero op = some (st.after zero op) := by
  obtain ⟨st', hStep⟩ := isSome_iff_exists.mp h
  rw [after, hStep]
  rfl

theorem Reachable.after {P : StateOp σ → RecurrentStates σ → Prop} (h : Reachable zero P st)
    (op : StateOp σ) (hLegal : Legal op st) (hOp : P op st)
    (hSome : (st.step zero op).isSome = true) : Reachable zero P (st.after zero op) :=
  .step op h ⟨hLegal, hOp⟩ (step_after hSome)

/-- A ubatch with the first two tokens of sequence `0`. -/
def twoTokens : RecurrentUbatch := { nSeqTokens := 2, seqs := [⟨0, [], [0, 1]⟩] }

theorem twoTokens_fits (hSize : 0 < size) : Fits twoTokens size where
  some := cons_ne_nil _ _
  ids set hMem x hX := by
    rw [mem_singleton.mp hMem] at hX
    obtain rfl : x = 0 := mem_singleton.mp hX
    exact hSize
  disjoint := pairwise_singleton _ _
  pos set hMem := by
    rw [mem_singleton.mp hMem]
    decide

/-- The result in plane `d` is the number `7 + d`. -/
def numbered (_ : List Nat) (_ d : Nat) : Nat := 7 + d

/-- Sequence `0` has decoded two tokens and the last one is removed. -/
def rolledRun (size : Nat) : RecurrentStates Nat :=
  ((empty 0 size size 1).after 0 (.decode twoTokens 2 numbered)).after 0 (.rm 0 1 (-1))

/-- The other sequence starts with the zero state, and the first one keeps the state
after its first token. -/
theorem rolledRun_isolated :
    ∃ fed st', (rolledRun 2).decode 0 (RecurrentMemory.oneToken 1 0) 1 numbered = some (fed, st') ∧
      Isolated 0 (rolledRun 2) (RecurrentMemory.oneToken 1 0) fed st' := by
  have hStart : Reachable (σ := Nat) 0 Safe (empty 0 2 2 1) :=
    .start ⟨2, 2, 1, Nat.le_refl 2, rfl⟩
  have hTwo := hStart.after (.decode twoTokens 2 numbered) (twoTokens_fits (by decide))
    ⟨by decide, fun set hMem x hX => by
        rw [mem_singleton.mp hMem] at hX
        exact absurd hX not_mem_nil,
      fun _ _ _ => rfl, fun _ _ _ _ _ _ _ _ => rfl⟩ (by decide)
  have hRun : Reachable 0 Safe (rolledRun 2) :=
    hTwo.after (.rm 0 1 (-1)) trivial (fun hNeg => absurd hNeg (by decide)) rfl
  refine hRun.isolated (oneToken_fits (by decide) (by decide)) ?_ 1 numbered
  refine ⟨by decide, fun set hMem x hX => ?_, ?_, ?_⟩
  · rw [mem_singleton.mp hMem] at hX
    exact absurd hX not_mem_nil
  · intro set hMem _
    rw [mem_singleton.mp hMem]
    decide
  -- only the first sequence has a cell
  have hOnly : ∀ x t, ((rolledRun 2).mem.cells x).tail = some t → x = 0 := by
    intro x t hTail
    have hLt : x < 2 := (hRun.invariant.inv.tail x t hTail).1
    by_contra hNe
    obtain rfl : x = 1 := by omega
    have hNone : ((rolledRun 2).mem.cells 1).tail = none := by decide
    rw [hNone] at hTail
    cases hTail
  intro x y t hNe _ _ hX hY
  exact absurd ((hOnly x t hX).trans (hOnly y t hY).symm) hNe

/-- Sequence `0` is rolled back and then removed by a range that is not everything. -/
def staleRun : RecurrentStates Nat := (rolledRun 1).after 0 (.rm 0 0 5)

/-- The rollback index outlives the removal: the next token of the sequence is fed a
snapshot of the removed one. -/
theorem staleRun_mixes :
    ¬ ∀ (st : RecurrentStates Nat), Reachable 0 (fun _ _ => True) st → ∀ u,
      Fits u st.mem.size → ∀ planes results, ∃ fed st',
        st.decode 0 u planes results = some (fed, st') ∧ Isolated 0 st u fed st' := by
  intro hClaim
  have hStart : Reachable (σ := Nat) 0 (fun _ _ => True) (empty 0 1 1 1) :=
    .start ⟨1, 1, 1, Nat.le_refl 1, rfl⟩
  have hTwo := hStart.after (.decode twoTokens 2 numbered) (twoTokens_fits (by decide)) trivial
    (by decide)
  have hRun : Reachable 0 (fun _ _ => True) staleRun :=
    (hTwo.after (.rm 0 1 (-1)) trivial trivial rfl).after (.rm 0 0 5) trivial trivial rfl
  obtain ⟨fed, st', hDecode, hIsolated⟩ := hClaim staleRun hRun (RecurrentMemory.oneToken 0 0)
    (oneToken_fits (by decide) (by decide)) 1 numbered
  have hFed := hIsolated.fed 0 ⟨0, [], [0]⟩ rfl 0 mem_cons_self
  have hNone : staleRun.logical 0 = none := logical_none (by decide)
  have hRead : (staleRun.decode 0 (RecurrentMemory.oneToken 0 0) 1 numbered).map Prod.fst =
      some [8] := by
    decide
  rw [hDecode] at hRead
  have hFedEq : fed = [8] := some.inj hRead
  rw [hFedEq] at hFed
  exact absurd hFed (by decide)

end RecurrentStates

end Beellama.Ports
