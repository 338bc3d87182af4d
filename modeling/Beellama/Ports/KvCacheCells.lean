import Beellama.Ports.KvCache
import Beellama.Verified.StateTriple
import Beellama.Ports.KvCellsIndex

/-!
# The cells loops of the KV cache, cell by cell

Every loop over the cells of a stream changes one cell per turn, and the new
value depends on the old value of that cell alone.  `Writes body g` says so for
the body of a loop; `sweep_cell` says what the loop then leaves in a cell.
-/

namespace Beellama.Ports

open List

/-! ## New values of a cell -/

namespace KvCell

variable (v : KvCell)

/-- The position lies in `[p0, p1)`. -/
def within (p0 p1 : Int) : Prop := p0 ≤ v.pos ∧ v.pos < p1

instance (p0 p1 : Int) : Decidable (v.within p0 p1) := inferInstanceAs (Decidable (_ ∧ _))

/-- `seq_rm`: a cell that loses its last sequence is reset. -/
def seqRm (s : Nat) : KvCell :=
  if v.seq.erase s = ∅ then {} else { v with seq := v.seq.erase s }

end KvCell

namespace KvCells

variable (c : KvCells) (i s : Nat)

theorem rm_cell : (c.rm i).cell = Function.update c.cell i {} := by
  simp [rm]

theorem seqRm_cell : (c.seqRm i s).1.cell = Function.update c.cell i ((c.cell i).seqRm s) := by
  unfold seqRm KvCell.seqRm
  dsimp only
  split_ifs with h₁ h₂ h₂
  · simp [seqPosDec]
  · simp [seqPosDec] at h₁
    exact absurd h₁ h₂
  · simp [seqPosDec] at h₁
    exact absurd h₂ h₁
  · simp [seqPosDec]

theorem seqAdd_cell :
    (c.seqAdd i s).cell =
      Function.update c.cell i { c.cell i with seq := insert s (c.cell i).seq } := by
  simp [seqAdd, seqPosInc]

theorem posSet_cell (p : Int) :
    (c.posSet i p).cell = Function.update c.cell i { c.cell i with pos := p } := by
  simp [posSet]

theorem extSet_cell (e : KvCellExt) :
    (c.extSet i e).cell = Function.update c.cell i { c.cell i with ext := e } := by
  simp [extSet]

@[simp] theorem rm_size : (c.rm i).size = c.size := by simp [rm]

@[simp] theorem seqRm_size : (c.seqRm i s).1.size = c.size := by
  unfold seqRm
  dsimp only
  split_ifs <;> simp [seqPosDec]

@[simp] theorem seqAdd_size : (c.seqAdd i s).size = c.size := by simp [seqAdd, seqPosInc]

@[simp] theorem posSet_size (p : Int) : (c.posSet i p).size = c.size := by simp [posSet]

@[simp] theorem extSet_size (e : KvCellExt) : (c.extSet i e).size = c.size := by simp [extSet]

end KvCells

namespace KvCache

open KvCells

/-! ## Loop bodies -/

/-- The body writes `g` of the old value into its cell and nothing else. -/
structure Writes (body : KvCells → Nat → KvCells × Bool) (g : KvCell → KvCell) : Prop where
  size : ∀ cells i, (body cells i).1.size = cells.size
  cell : ∀ cells i, (body cells i).1.cell = Function.update cells.cell i (g (cells.cell i))

variable {body : KvCells → Nat → KvCells × Bool} {g : KvCell → KvCell}

/-- A body that acts under a condition on its cell. -/
theorem Writes.ite {P : KvCell → Prop} [DecidablePred P] (h : Writes body g) :
    Writes (fun cells i => if P (cells.cell i) then body cells i else (cells, false))
      (fun v => if P v then g v else v) := by
  constructor
  · intro cells i
    by_cases hP : P (cells.cell i)
    · rw [if_pos hP]
      exact h.size cells i
    · rw [if_neg hP]
  intro cells i
  by_cases hP : P (cells.cell i)
  · rw [if_pos hP, if_pos hP]
    exact h.cell cells i
  · rw [if_neg hP, if_neg hP]
    exact (Function.update_eq_self i cells.cell).symm

theorem posIn_and_seqHas {cells : KvCells} {i s : Nat} {p0 p1 : Int} :
    (cells.posIn i p0 p1 = true ∧ cells.seqHas i s = true) ↔
      (cells.cell i).within p0 p1 ∧ s ∈ (cells.cell i).seq := by
  simp [posIn, seqHas, KvCell.within]

/-- The bodies of the loops over the cells of one sequence in a range. -/
theorem writes_seqRange (h : Writes body g) (s : Nat) (p0 p1 : Int) :
    Writes (fun cells i => if cells.posIn i p0 p1 ∧ cells.seqHas i s then body cells i
        else (cells, false))
      (fun v => if v.within p0 p1 ∧ s ∈ v.seq then g v else v) := by
  have hIte := h.ite (P := fun v => v.within p0 p1 ∧ s ∈ v.seq)
  simp only [posIn_and_seqHas]
  exact hIte

theorem rmBody_writes (s : Nat) (p0 p1 : Int) :
    Writes (rmBody s p0 p1) (fun v => if v.within p0 p1 ∧ s ∈ v.seq then v.seqRm s else v) :=
  writes_seqRange ⟨fun c i => seqRm_size c i s, fun c i => seqRm_cell c i s⟩ s p0 p1

theorem rmAnyBody_writes (p0 p1 : Int) :
    Writes (rmAnyBody p0 p1) (fun v => if v.within p0 p1 then {} else v) := by
  have hRm : Writes (fun cells i => (cells.rm i, true)) (fun _ => {}) :=
    ⟨fun c i => rm_size c i, fun c i => rm_cell c i⟩
  have hIte := hRm.ite (P := fun v => v.within p0 p1)
  unfold rmAnyBody
  simp only [posIn, decide_eq_true_eq]
  exact hIte

/-! ## The loop -/

/-- What a loop leaves behind: every cell of the table is rewritten. -/
theorem sweep_writes (h : Writes body g) (cells : KvCells) :
    (sweep body cells).1.size = cells.size ∧
      ∀ j, (sweep body cells).1.cell j =
        if j < cells.size then g (cells.cell j) else cells.cell j := by
  -- the first `n` cells are rewritten after `n` turns
  have hTurns : ∀ n,
      ((range n).foldl (sweepTurn body cells.size) (cells, cells.size)).1.size =
          cells.size ∧
        ∀ j, ((range n).foldl (sweepTurn body cells.size) (cells, cells.size)).1.cell j =
          if j < n then g (cells.cell j) else cells.cell j := by
    intro n
    induction n with
    | zero => simp
    | succ n ih =>
      rw [range_succ, foldl_append]
      simp only [foldl_cons, foldl_nil, sweepTurn]
      obtain ⟨hSize, hCell⟩ := ih
      refine ⟨(h.size _ _).trans hSize, fun j => ?_⟩
      rw [h.cell, Function.update_apply, hCell, hCell]
      by_cases hj : j = n
      · subst hj
        simp
      rw [if_neg hj]
      by_cases hLt : j < n
      · rw [if_pos hLt, if_pos (by omega)]
      · rw [if_neg hLt, if_neg (by omega)]
  exact hTurns cells.size

/-! ## Calls of the tail -/

section Tail

open Beellama.Verified TailStore

variable {c : KvCache}

variable {α : Type} {skip : α} {x : TailM α}

theorem onTail_none (h : c.tail = none) : onTail skip x c = .ok skip c := by
  unfold onTail
  rw [h]

variable {t : TailStore}

theorem onTail_some (h : c.tail = some t) :
    onTail skip x c =
      match x t with
      | .ok a t => .ok a { c with tail := some t }
      | .error e t => .error (.tail e) { c with tail := some t } := by
  cases hx : x t with
  | ok a t' => simp only [onTail, h, hx]
  | error e t' => simp only [onTail, h, hx]

theorem onTail_ok {a : α} {t' : TailStore}
    (h : c.tail = some t) (hRun : x t = .ok a t') :
    onTail skip x c = .ok a { c with tail := some t' } := by
  rw [onTail_some h, hRun]

theorem markDegraded_returns (t : TailStore) (seqId : Int) (flags : Nat) :
    ∃ t', markDegraded seqId flags t = .ok () t' := by
  unfold markDegraded
  split
  · exact ⟨_, rfl⟩
  split
  · split
    · split <;> exact ⟨_, rfl⟩
    · exact ⟨_, rfl⟩
  · exact ⟨_, rfl⟩

theorem ggmlAssert_spec {P : KvCache → Prop} (p : Prop) [Decidable p] :
    Triple P (ggmlAssert p) (fun _ s => P s ∧ p) (fun _ => P) := by
  intro s hs
  unfold ggmlAssert
  by_cases hp : p
  · rw [if_pos hp]
    exact ⟨hs, hp⟩
  · rw [if_neg hp]
    exact hs

end Tail

end KvCache

end Beellama.Ports
