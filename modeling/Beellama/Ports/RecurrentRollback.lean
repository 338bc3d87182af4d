import Beellama.Ports.RecurrentIsolation
import Beellama.Ports.BatchAllocr

/-!
# Rollback of the recurrent memory

A ubatch leaves the last states of its sequences in the snapshot planes, and a rollback only changes the
plane that is read.  A rollback that stays within the states that are still there (`fresh`) restores the
state after the last token that is kept (`Reachable.rollback`); `seq_rm` compares the distance with the
number of planes only, which is not enough after a short ubatch (`shortRun_differs`).
-/

namespace Beellama.Ports

open Beellama.Verified List Option Function

variable {σ τ : Type}

/-- A ubatch of a split; a sequence set has the ids and positions of its tokens. -/
def RecurrentUbatch.ofSplit (u : SplitUbatch) : RecurrentUbatch where
  nSeqTokens := u.nSeqTokens
  seqs := (List.range u.nSeqs).map fun s =>
    { first := (u.seqId.getD (s * u.nSeqTokens) []).headD 0
      coupled := (u.seqId.getD (s * u.nSeqTokens) []).tail
      pos := (u.pos.drop (s * u.nSeqTokens)).take u.nSeqTokens }

/-- The memory, and for every sequence its past positions and states, latest first, and the tokens
of the ubatch that wrote its snapshots. -/
structure TracedStates (σ : Type) where
  st : RecurrentStates σ
  past : Nat → List (Int × σ) := fun _ => []
  fresh : Nat → Nat := fun _ => 0

/-- The operations of a run. -/
inductive TraceOp (τ : Type)
  /-- a ubatch and the tokens of its sequences -/
  | decode (u : RecurrentUbatch) (toks : List (List τ))
  | rm (s p0 p1 : Int)
  | cp (s d : Int)

/-- The states after each of some tokens. -/
def statesAfter (next : σ → τ → σ) (v : σ) : List τ → List σ
  | [] => []
  | t :: rest => next v t :: statesAfter next (next v t) rest

theorem statesAfter_length (next : σ → τ → σ) (v : σ) (toks : List τ) :
    (statesAfter next v toks).length = toks.length := by
  induction toks generalizing v with
  | nil => rfl
  | cons t rest ih => exact congrArg Nat.succ (ih (next v t))

namespace TracedStates

open RecurrentMemory RecurrentStates

/-- The states of the tokens of sequence `i` of a ubatch, latest first. -/
def latest (zero : σ) (next : σ → τ → σ) (toks : List (List τ)) (fed : List σ) (i : Nat) : List σ :=
  (statesAfter next (fed.getD i zero) (toks.getD i [])).reverse

/-- A ubatch: the states after the last tokens of every sequence go to the planes. -/
def decode (zero : σ) (next : σ → τ → σ) (tr : TracedStates σ) (u : RecurrentUbatch)
    (toks : List (List τ)) : Option (TracedStates σ) :=
  match tr.st.decode zero u (min u.nSeqTokens (tr.st.mem.nRsSeq + 1)) fun fed i d =>
      (latest zero next toks fed i).getD d zero with
  | none => none
  | some (fed, st) => some
      { st := st
        past := fun x =>
          match u.seqs.findIdx? fun set => set.first = x with
          | some i => (((u.seqs[i]?).map SlotSeq.pos).getD []).reverse.zip
              (latest zero next toks fed i) ++ tr.past x
          | none => tr.past x
        fresh := fun x =>
          match u.seqs.findIdx? fun set => set.first = x with
          | some _ => u.nSeqTokens
          -- the snapshots stay behind when the cell is moved
          | none => if (st.mem.cells x).tail = (tr.st.mem.cells x).tail then tr.fresh x else 0 }

/-- `seq_rm` takes the last tokens of a sequence. -/
def RollsBack (mem : RecurrentMemory) (s p0 p1 : Int) : Prop :=
  0 ≤ s ∧ ∃ t ∈ (mem.cells s.toNat).tail, CutsOff (rangeStart p0) (rangeEnd p1) (mem.cells t).pos

instance (mem : RecurrentMemory) (s p0 p1 : Int) : Decidable (RollsBack mem s p0 p1) := by
  unfold RollsBack
  infer_instance

def rm (tr : TracedStates σ) (s p0 p1 : Int) : TracedStates σ :=
  let r := tr.st.mem.seqRm s p0 p1
  if r.1 = true ∧ RollsBack tr.st.mem s p0 p1 then
    { st := { tr.st with mem := r.2 }
      past := Function.update tr.past s.toNat
        ((tr.past s.toNat).filter fun token => token.1 < rangeStart p0)
      fresh := Function.update tr.fresh s.toNat 0 }
  else { tr with st := { tr.st with mem := r.2 } }

/-- A copy has the past of its source. -/
def cp (tr : TracedStates σ) (s d : Int) : TracedStates σ :=
  let st := { tr.st with mem := tr.st.mem.seqCp s d }
  if s ≠ d ∧ 0 ≤ d ∧ d < tr.st.mem.size ∧ 0 ≤ s ∧ s < tr.st.mem.size then
    { st := st
      past := Function.update tr.past d.toNat (tr.past s.toNat)
      fresh := Function.update tr.fresh d.toNat (tr.fresh s.toNat) }
  else { tr with st := st }

/-- The trace after an operation that does not abort. -/
def step (zero : σ) (next : σ → τ → σ) (tr : TracedStates σ) :
    TraceOp τ → Option (TracedStates σ)
  | .decode u toks => tr.decode zero next u toks
  | .rm s p0 p1 => some (tr.rm s p0 p1)
  | .cp s d => some (tr.cp s d)

/-- A ubatch of a sequential split, which refuses coupled sequences, and its tokens. -/
structure Sequential (u : RecurrentUbatch) (toks : List (List τ)) : Prop where
  uncoupled : ∀ set ∈ u.seqs, set.coupled = []
  pos : ∀ set ∈ u.seqs, set.pos.length = u.nSeqTokens
  count : toks.length = u.seqs.length
  length : ∀ tok ∈ toks, tok.length = u.nSeqTokens

def Legal (op : TraceOp τ) (tr : TracedStates σ) : Prop :=
  match op with
  | .decode u toks => Fits u tr.st.mem.size ∧ Sequential u toks
  | _ => True

/-- A removal of all sequences only finds empty cells. -/
def Safe (op : TraceOp τ) (tr : TracedStates σ) : Prop :=
  match op with
  | .rm s p0 p1 => RmSafe tr.st.mem s p0 p1
  | _ => True

/-- The states of the runs whose operations are legal and meet a condition. -/
def Reachable (zero : σ) (next : σ → τ → σ) (P : TraceOp τ → TracedStates σ → Prop) :
    TracedStates σ → Prop :=
  Run (fun tr => ∃ size nSeqMax nRsSeq, nSeqMax ≤ size ∧
      tr = { st := RecurrentStates.empty zero size nSeqMax nRsSeq })
    (fun op tr tr' => tr.step zero next op = some tr') (fun op tr => Legal op tr ∧ P op tr)

/-! ## What the snapshots hold -/

/-- The snapshots of the cell of a sequence hold the states after its latest tokens. -/
structure Aligned (zero : σ) (tr : TracedStates σ) : Prop where
  rows : RowsInvariant zero tr.st
  snapshot : ∀ x t, (tr.st.mem.cells x).tail = some t → ∀ d, 1 ≤ d → d < tr.fresh x →
    d ≤ tr.st.mem.nRsSeq →
    ((tr.past x)[d]?).map Prod.snd = some (tr.st.rows (d * tr.st.mem.size + t))

variable {zero : σ} {next : σ → τ → σ} {tr tr' : TracedStates σ} {u : RecurrentUbatch}
  {toks : List (List τ)}

variable {x i : Nat}

theorem findIdx?_first (h : (u.seqs.findIdx? fun set => set.first = x) = some i) :
    ∃ set, u.seqs[i]? = some set ∧ set.first = x := by
  obtain ⟨hLt, hHit, _⟩ := findIdx?_eq_some_iff_getElem.mp h
  exact ⟨u.seqs[i], getElem?_eq_getElem hLt, of_decide_eq_true hHit⟩

theorem findIdx?_outside (hSeq : Sequential u toks)
    (h : (u.seqs.findIdx? fun set => set.first = x) = none) : Outside u x := by
  intro set hMem hX
  have hMiss := findIdx?_eq_none_iff.mp h set hMem
  unfold SlotSeq.ids at hX
  rw [hSeq.uncoupled set hMem] at hX
  exact of_decide_eq_false hMiss (mem_singleton.mp hX).symm

variable {fed : List σ}

theorem latest_length (hSeq : Sequential u toks)
    (hI : i < u.seqs.length) : (latest zero next toks fed i).length = u.nSeqTokens := by
  unfold latest
  have hLt : i < toks.length := hSeq.count ▸ hI
  rw [length_reverse, statesAfter_length, getD_eq_getElem?_getD,
    getElem?_eq_getElem hLt]
  exact hSeq.length _ (getElem_mem hLt)

/-- The entry of a snapshot of a sequence of the ubatch. -/
theorem latest_entry (hSeq : Sequential u toks) {d : Nat} {set : SlotSeq}
    (hSet : u.seqs[i]? = some set) (hD : d < u.nSeqTokens) (old : List (Int × σ)) :
    (((((u.seqs[i]?).map SlotSeq.pos).getD []).reverse.zip (latest zero next toks fed i) ++
      old)[d]?).map Prod.snd = some ((latest zero next toks fed i).getD d zero) := by
  have hI := (List.getElem?_eq_some_iff.mp hSet).1
  have hLatest : (latest zero next toks fed i).length = u.nSeqTokens := latest_length hSeq hI
  have hPos : set.pos.length = u.nSeqTokens := hSeq.pos set (List.mem_of_getElem? hSet)
  rw [hSet]
  show ((set.pos.reverse.zip (latest zero next toks fed i) ++ old)[d]?).map Prod.snd = _
  have hZip : d < (set.pos.reverse.zip (latest zero next toks fed i)).length := by
    rw [length_zip, length_reverse, hPos, hLatest, Nat.min_self]
    exact hD
  rw [getElem?_append_left hZip, getElem?_eq_getElem hZip, getElem_zip,
    getD_eq_getElem?_getD, getElem?_eq_getElem (hLatest ▸ hD)]
  rfl

theorem Aligned.decode (h : Aligned zero tr) (hFits : Fits u tr.st.mem.size)
    (hSeq : Sequential u toks) :
    ∃ tr', tr.decode zero next u toks = some tr' ∧ Aligned zero tr' := by
  obtain ⟨m₀, π, mem, fed, st', _, hDecode, hDone⟩ := h.rows.decoding hFits
    (min u.nSeqTokens (tr.st.mem.nRsSeq + 1))
    fun fed i d => (latest zero next toks fed i).getD d zero
  obtain ⟨hCells, hSize⟩ := hDone.cells
  have hRs : st'.mem.nRsSeq = tr.st.mem.nRsSeq := by
    rw [hDone.done.cells]
    exact (hDone.drop.shape.trans hDone.slot.shape).nRsSeq
  unfold TracedStates.decode
  rw [hDecode]
  refine ⟨_, rfl, hDone.keeps, ?_⟩
  intro x t hTail d hOne hFresh hBound
  dsimp only at hTail hFresh hBound ⊢
  have hLt : t < mem.size := hSize ▸ hDone.inv.tail_lt hTail
  have hMember : x ∈ (mem.cells t).seqId := hCells ▸ (hDone.inv.tail x t hTail).2
  have hColumn : (d * mem.size + t) % mem.size = t := by
    rw [Nat.mul_add_mod_self_right, Nat.mod_eq_of_lt hLt]
  rw [hRs] at hBound
  rw [hSize]
  cases hFind : u.seqs.findIdx? fun set => set.first = x with
  | some i =>
    obtain ⟨set, hSet, hFirst⟩ := findIdx?_first hFind
    rw [hFind] at hFresh
    have hOwn : x ∈ (mem.cells (mem.head + i)).seqId := by
      rw [(hDone.slot.own i set hSet).1, ← hFirst]
      exact mem_toFinset.mpr mem_cons_self
    have hCell : t = mem.head + i :=
      some.inj ((hDone.slot.inv.member t x hMember).2.symm.trans
        (hDone.slot.inv.member _ x hOwn).2)
    have hPlane : (d * mem.size + t) / mem.size = d := by
      rw [Nat.add_comm, Nat.add_mul_div_right _ _ (Nat.zero_lt_of_lt hLt), Nat.div_eq_of_lt hLt,
        Nat.zero_add]
    have hI := (hDone.own_lt hSet).1
    have hResult := hDone.done.result (d * mem.size + t)
      (by rw [hPlane]; exact Nat.lt_min.mpr ⟨hFresh, Nat.lt_succ_of_le hBound⟩)
      (by rw [hColumn, hCell]; exact Nat.le_add_right _ _)
      (by rw [hColumn, hCell]; exact Nat.add_lt_add_left hI _)
    have hIndex : t - mem.head = i := by rw [hCell, Nat.add_sub_cancel_left]
    rw [hResult, hPlane, hColumn, hIndex, latest_entry hSeq hSet hFresh]
  | none =>
    rw [hFind] at hFresh
    dsimp only at hFresh ⊢
    have hOut := findIdx?_outside hSeq hFind
    by_cases hSame : (st'.mem.cells x).tail = (tr.st.mem.cells x).tail
    · rw [if_pos hSame] at hFresh
      rw [h.snapshot x t (hSame.symm.trans hTail) d hOne hFresh hBound, ← hDone.size]
      have hHigh := hDone.slot.high
      rw [← hDone.slot.shape.size] at hHigh
      have hLarge : mem.size ≤ d * mem.size := Nat.le_mul_of_pos_left _ hOne
      have hBeside : t < mem.head ∨ mem.head + u.seqs.length ≤ t := by
        by_cases hLow : mem.head ≤ t
        · exact Or.inr (hDone.outside_cell hOut hMember hLow)
        · exact Or.inl (not_le.mp hLow)
      rw [hDone.done.rest _ (hColumn.symm ▸ hBeside) (by omega)]
      -- the row that is zeroed is in plane `0`
      unfold zeroed
      cases hZ : mem.rsZ with
      | none => rfl
      | some z =>
        have hZLt := (hDone.slot.zero z hZ).1.2
        exact congrArg some (update_of_ne (by omega) ..).symm
    · rw [if_neg hSame] at hFresh
      exact absurd hFresh (Nat.not_lt_zero d)

variable {mem : RecurrentMemory} {s p0 p1 : Int} {t : Nat}

theorem seqRm_tail (h : Invariant mem)
    (hTail : ((mem.seqRm s p0 p1).2.cells x).tail = some t) : (mem.cells x).tail = some t := by
  have hOutcome := (seqRm_outcome h s p0 p1).1
  revert hOutcome hTail
  generalize mem.seqRm s p0 p1 = r
  intro hTail hOutcome
  cases hOutcome with
  | refused => exact hTail
  | @rolledBack y c =>
    have hCells := (setRsIdx_cells mem y ((mem.cells c).pos - (rangeStart p0 - 1)).toNat).1
    rwa [onCell_pos, hCells] at hTail
  | @dropped y _ _ _ hDrop =>
    by_cases hGone : x = y
    · rw [hDrop.gone x hGone] at hTail
      cases hTail
    · rwa [hDrop.stays x hGone] at hTail
  | missed _ _ _ _ hCells =>
    dsimp only at hTail
    rwa [hCells] at hTail
  | all _ _ _ hCells =>
    dsimp only at hTail
    rw [hCells] at hTail
    revert hTail
    unfold rmCell
    dsimp only
    split
    · split
      · split <;> exact id
      · exact id
    · exact id

theorem seqCp_tail (h : Invariant mem) {d : Int} (hNe : s ≠ d)
    (hIn : 0 ≤ d ∧ d < mem.size ∧ 0 ≤ s ∧ s < mem.size) (x : Nat) :
    ((mem.seqCp s d).cells x).tail =
      if x = d.toNat then (mem.cells s.toNat).tail else (mem.cells x).tail := by
  obtain ⟨hDrop, hNone⟩ := h.releaseTail d.toNat
  have hSource : ((mem.releaseTail d.toNat).cells s.toNat).tail = (mem.cells s.toNat).tail :=
    hDrop.stays _ (by omega)
  unfold RecurrentMemory.seqCp
  rw [if_neg hNe, if_pos hIn]
  dsimp only
  cases hTail : (mem.cells s.toNat).tail with
  | none =>
    rw [hTail] at hSource
    rw [hSource]
    by_cases hX : x = d.toNat
    · rw [if_pos hX, hX, hNone]
    · rw [if_neg hX, hDrop.stays x hX]
  | some t =>
    rw [hTail] at hSource
    rw [hSource]
    dsimp only
    rw [enter_cells]
    by_cases hX : x = d.toNat
    · rw [if_pos hX, if_pos hX]
    · rw [if_neg hX, if_neg hX, hDrop.stays x hX]

theorem Aligned.rm (h : Aligned zero tr) (hSafe : RmSafe tr.st.mem s p0 p1) :
    Aligned zero (tr.rm s p0 p1) := by
  have hQuiet := h.rows.inv.quiet_rm h.rows.indexed hSafe
  have hRows := h.rows.quiet hQuiet
  have hShape := hQuiet.shape
  unfold TracedStates.rm
  dsimp only
  split
  · refine ⟨hRows, fun x t hTail d hOne hFresh hBound => ?_⟩
    dsimp only at hTail hFresh hBound ⊢
    by_cases hX : x = s.toNat
    · rw [hX, update_self] at hFresh
      exact absurd hFresh (Nat.not_lt_zero d)
    rw [update_of_ne hX] at hFresh
    rw [update_of_ne hX, hShape.size]
    rw [hShape.nRsSeq] at hBound
    exact h.snapshot x t (seqRm_tail h.rows.inv hTail) d hOne hFresh hBound
  refine ⟨hRows, fun x t hTail d hOne hFresh hBound => ?_⟩
  dsimp only at hTail hFresh hBound ⊢
  rw [hShape.size]
  rw [hShape.nRsSeq] at hBound
  exact h.snapshot x t (seqRm_tail h.rows.inv hTail) d hOne hFresh hBound

theorem Aligned.cp (h : Aligned zero tr) (s d : Int) : Aligned zero (tr.cp s d) := by
  have hQuiet := h.rows.inv.quiet_cp h.rows.indexed s d
  have hRows := h.rows.quiet hQuiet
  have hShape := hQuiet.shape
  unfold TracedStates.cp
  split
  · rename_i hIn
    refine ⟨hRows, fun x t hTail k hOne hFresh hBound => ?_⟩
    dsimp only at hTail hFresh hBound ⊢
    rw [seqCp_tail h.rows.inv hIn.1 hIn.2] at hTail
    rw [hShape.size]
    rw [hShape.nRsSeq] at hBound
    by_cases hX : x = d.toNat
    · rw [if_pos hX] at hTail
      rw [hX, update_self] at hFresh ⊢
      exact h.snapshot _ t hTail k hOne hFresh hBound
    rw [if_neg hX] at hTail
    rw [update_of_ne hX] at hFresh ⊢
    exact h.snapshot x t hTail k hOne hFresh hBound
  rename_i hOut
  refine ⟨hRows, fun x t hTail k hOne hFresh hBound => ?_⟩
  have hSame : tr.st.mem.seqCp s d = tr.st.mem := by
    unfold RecurrentMemory.seqCp
    by_cases hEq : s = d
    · rw [if_pos hEq]
    · rw [if_neg hEq, if_neg fun hIn => hOut ⟨hEq, hIn⟩]
  dsimp only at hTail hFresh hBound ⊢
  rw [hSame] at hTail hBound ⊢
  exact h.snapshot x t hTail k hOne hFresh hBound

theorem aligned_start {size nSeqMax nRsSeq : Nat} (hRoom : nSeqMax ≤ size) :
    Aligned zero { st := RecurrentStates.empty zero size nSeqMax nRsSeq } where
  rows := rowsInvariant_empty hRoom
  snapshot _ _ hTail := by cases hTail

theorem Aligned.step {op : TraceOp τ} (h : Aligned zero tr) (hLegal : Legal op tr)
    (hSafe : Safe op tr) (hStep : tr.step zero next op = some tr') : Aligned zero tr' := by
  cases op with
  | decode u toks =>
    obtain ⟨tr₁, hDecode, hNext⟩ :
        ∃ tr₁, tr.decode zero next u toks = some tr₁ ∧ Aligned zero tr₁ :=
      h.decode hLegal.1 hLegal.2
    have hSame : tr.decode zero next u toks = some tr' := hStep
    rw [hDecode] at hSame
    exact some.inj hSame ▸ hNext
  | rm s p0 p1 => exact some.inj hStep ▸ h.rm hSafe
  | cp s d => exact some.inj hStep ▸ h.cp s d

theorem Reachable.aligned (h : Reachable zero next Safe tr) : Aligned zero tr := by
  refine Run.invariant h ?_ ?_
  · rintro _ ⟨_, _, _, hRoom, rfl⟩
    exact aligned_start hRoom
  · rintro op tr tr' hAligned ⟨hLegal, hSafe⟩ hStep
    exact hAligned.step hLegal hSafe hStep

/-! ## An accepted rollback -/

/-- The state after the latest token with a position. -/
def stateAt (past : List (Int × σ)) (pos : Int) : Option σ :=
  (past.find? fun token => token.1 = pos).map Prod.snd

/-- A rollback finds its snapshot: the sequence is alone in its cell, the ubatch had more of its
tokens than are taken, and these and the one before them are numbered in a row. -/
structure Standing (tr : TracedStates σ) (s t : Nat) (p0 : Int) : Prop where
  below : s < tr.st.mem.nSeqMax
  limit : (tr.st.mem.cells t).pos < posLimit
  alone : (tr.st.mem.cells t).seqId = {s}
  fresh : (tr.st.mem.cells t).pos - (p0 - 1) < tr.fresh s
  numbered : ∀ j : Nat, (j : Int) ≤ (tr.st.mem.cells t).pos - (p0 - 1) →
    ((tr.past s)[j]?).map Prod.fst = some ((tr.st.mem.cells t).pos - j)

/-- The rollback restores the state after the token before `p0` and leaves the other sequences
alone. -/
structure Restores (zero : σ) (tr : TracedStates σ) (s : Nat) (p0 : Int)
    (mem : RecurrentMemory) : Prop where
  state : ∃ v, stateAt (tr.past s) (p0 - 1) = some v ∧
    ({ tr.st with mem := mem } : RecurrentStates σ).logical s = some v ∧
    ∀ u, Fits u mem.size → (∀ set ∈ u.seqs, set.coupled = []) →
      ∀ (i : Nat) set, u.seqs[i]? = some set → set.first = s → ∀ planes results,
        ∃ fed st', ({ tr.st with mem := mem } : RecurrentStates σ).decode zero u planes results =
          some (fed, st') ∧ fed[i]? = some v
  others : ∀ x, x ≠ s → position mem x = position tr.st.mem x ∧
    ({ tr.st with mem := mem } : RecurrentStates σ).logical x = tr.st.logical x

theorem seqRm_rollback (h : Invariant mem) {s : Nat}
    (hTail : (mem.cells s).tail = some t) (hCuts : CutsOff p0 posLimit (mem.cells t).pos)
    (hAccept : (mem.seqRm s p0 (-1)).1 = true) :
    (mem.cells t).pos - (p0 - 1) ≤ mem.nRsSeq ∧
      mem.seqRm s p0 (-1) =
        (true, (mem.setRsIdx s ((mem.cells t).pos - (p0 - 1)).toNat).onCell t fun cell =>
          { cell with pos := p0 - 1 }) := by
  have hPos := hCuts.1
  have hStart : rangeStart p0 = p0 := if_neg (by omega)
  have hEnd : rangeEnd (-1) = posLimit := if_pos (by decide)
  have hNeg : ¬ (s : Int) < 0 := by omega
  have hSize : ¬ (mem.size : Int) ≤ s := by
    have hLt := (h.tail s t hTail).1
    omega
  have hBound : 1 ≤ (mem.cells t).pos - (p0 - 1) ∧
      (mem.cells t).pos - (p0 - 1) ≤ mem.nRsSeq := by
    have hCuts' : CutsOff (rangeStart p0) (rangeEnd (-1)) (mem.cells t).pos := by
      rw [hStart]
      exact hCuts
    have hCan := canSeqRm_of_tail hSize hNeg hTail hCuts'
    rw [hStart] at hCan
    by_contra hNot
    have hFalse : mem.canSeqRm s p0 (-1) = false := hCan.trans (decide_eq_false hNot)
    unfold RecurrentMemory.seqRm at hAccept
    rw [if_pos hFalse] at hAccept
    cases hAccept
  refine ⟨hBound.2, ?_⟩
  have hTrue : ¬ mem.canSeqRm s p0 (-1) = false := by
    intro hFalse
    unfold RecurrentMemory.seqRm at hAccept
    rw [if_pos hFalse] at hAccept
    cases hAccept
  have hNoReset : mem.rmStart s p0 posLimit = mem := if_neg (by omega)
  unfold RecurrentMemory.seqRm
  rw [if_neg hTrue, hStart, hEnd]
  dsimp only
  rw [hNoReset, if_neg hSize, if_pos (by omega), Int.toNat_natCast, hTail]
  dsimp only
  rw [if_pos hCuts, if_pos hBound]

/-- The snapshot of an accepted rollback. -/
theorem Aligned.stateAt (h : Aligned zero tr) {s : Nat}
    (hTail : (tr.st.mem.cells s).tail = some t) (hStanding : Standing tr s t p0)
    (hLow : p0 ≤ (tr.st.mem.cells t).pos)
    (hBound : (tr.st.mem.cells t).pos - (p0 - 1) ≤ tr.st.mem.nRsSeq) :
    TracedStates.stateAt (tr.past s) (p0 - 1) = some (tr.st.rows
      (((tr.st.mem.cells t).pos - (p0 - 1)).toNat * tr.st.mem.size + t)) := by
  obtain ⟨k, hK⟩ : ∃ k : Nat, (tr.st.mem.cells t).pos - (p0 - 1) = k :=
    ⟨((tr.st.mem.cells t).pos - (p0 - 1)).toNat, by omega⟩
  have hSnapshot := h.snapshot s t hTail k (by omega) (by have hF := hStanding.fresh; omega)
    (by omega)
  obtain ⟨token, hToken, hState⟩ := map_eq_some_iff.mp hSnapshot
  have hAt : token.1 = p0 - 1 := by
    have hNumber := hStanding.numbered k (le_of_eq hK.symm)
    rw [hToken] at hNumber
    have hPos : token.1 = (tr.st.mem.cells t).pos - k := some.inj hNumber
    omega
  obtain ⟨hKLt, hKGet⟩ := List.getElem?_eq_some_iff.mp hToken
  -- the later tokens have greater positions
  have hFind : (tr.past s).find? (fun token => token.1 = p0 - 1) = some token := by
    refine find?_eq_some_iff_getElem.mpr ⟨decide_eq_true hAt, k, hKLt, hKGet, ?_⟩
    intro j hJ
    have hNumber := hStanding.numbered j (by omega)
    rw [getElem?_eq_getElem (Nat.lt_trans hJ hKLt)] at hNumber
    have hPos : (tr.past s)[j].1 = (tr.st.mem.cells t).pos - j := some.inj hNumber
    rw [Bool.not_eq_true']
    exact decide_eq_false (by omega)
  unfold TracedStates.stateAt
  rw [hFind, hK]
  exact congrArg some hState

/-- In every state of a run a rollback that is accepted and stays within the snapshots
restores the state after the last token that is kept. -/
theorem Reachable.rollback (h : Reachable zero next Safe tr) {s t : Nat} {p0 : Int}
    (hTail : (tr.st.mem.cells s).tail = some t) (hPos : 0 < p0)
    (hLow : p0 ≤ (tr.st.mem.cells t).pos) (hAccept : (tr.st.mem.seqRm s p0 (-1)).1 = true)
    (hStanding : Standing tr s t p0) :
    Restores zero tr s p0 (tr.st.mem.seqRm s p0 (-1)).2 := by
  have hAligned := h.aligned
  have hInv := hAligned.rows.inv
  obtain ⟨hBound, hRm⟩ := seqRm_rollback hInv hTail ⟨hPos, hLow, hStanding.limit⟩ hAccept
  have hSafe : RmSafe tr.st.mem s p0 (-1) := fun hNeg => by omega
  have hQuiet := hAligned.rows.quiet (hInv.quiet_rm hAligned.rows.indexed hSafe)
  have hState := hAligned.stateAt hTail hStanding hLow hBound
  obtain ⟨k, hK⟩ : ∃ k : Nat, (tr.st.mem.cells t).pos - (p0 - 1) = k :=
    ⟨((tr.st.mem.cells t).pos - (p0 - 1)).toNat, by omega⟩
  rw [hK] at hBound hRm
  rw [hK] at hState
  rw [Int.toNat_natCast] at hRm
  rw [hRm] at hQuiet ⊢
  obtain ⟨hCells, _, _, hShape⟩ := setRsIdx_cells tr.st.mem s k
  have hTails : ∀ x, (((tr.st.mem.setRsIdx s k).onCell t fun cell =>
      { cell with pos := p0 - 1 }).cells x).tail = (tr.st.mem.cells x).tail := by
    intro x
    by_cases hCell : x = t
    · rw [hCell, onCell_same, hCells]
    · rw [onCell_other _ _ hCell, hCells]
  have hIdx : (tr.st.mem.setRsIdx s k).rsIdx s = k := by
    unfold RecurrentMemory.setRsIdx
    rw [if_neg (not_le.mpr hStanding.below)]
    exact (update_self ..).trans (Nat.min_eq_left (by omega))
  have hSize : (tr.st.mem.setRsIdx s k).size = tr.st.mem.size := hShape.size
  have hLogical : ({ tr.st with mem := (tr.st.mem.setRsIdx s k).onCell t fun cell =>
      { cell with pos := p0 - 1 } } : RecurrentStates σ).logical s =
      some (tr.st.rows (k * tr.st.mem.size + t)) := by
    rw [logical_some hQuiet.inv ((hTails s).trans hTail)]
    show some (tr.st.rows ((tr.st.mem.setRsIdx s k).rsIdx s * (tr.st.mem.setRsIdx s k).size + t)) = _
    rw [hIdx, hSize]
  refine ⟨⟨_, hState, hLogical, ?_⟩, fun x hX => ?_⟩
  · intro u hFits hAlone i set hSet hFirst planes results
    obtain ⟨_, _, _, fed, st', _, hDecode, hDone⟩ := hQuiet.decoding hFits planes results
    have hNone := hAlone set (mem_of_getElem? hSet)
    refine ⟨fed, st', hDecode, ?_⟩
    rw [hDone.fed_own hFits hSet (hNone ▸ not_mem_nil)
      (fun x hX => absurd (hNone ▸ hX) not_mem_nil)
      (fun hNoTail => by
        rw [hFirst] at hNoTail
        rw [hTails s, hTail] at hNoTail
        cases hNoTail)
      mem_cons_self, hFirst, hLogical]
    rfl
  have hIdxX : (tr.st.mem.setRsIdx s k).rsIdx x = tr.st.mem.rsIdx x := setRsIdx_other _ k hX
  cases hOld : (tr.st.mem.cells x).tail with
  | none =>
    unfold position
    rw [hTails x, hOld, logical_none hOld, logical_none ((hTails x).trans hOld)]
    exact ⟨rfl, rfl⟩
  | some c =>
    have hCell : c ≠ t := by
      rintro rfl
      have hMember := (hInv.tail x c hOld).2
      rw [hStanding.alone] at hMember
      exact hX (Finset.mem_singleton.mp hMember)
    constructor
    · unfold position
      rw [hTails x, hOld]
      refine congrArg some ?_
      dsimp only
      rw [onCell_other _ _ hCell, hCells]
    rw [logical_some hInv hOld, logical_some hQuiet.inv ((hTails x).trans hOld)]
    show some (tr.st.rows ((tr.st.mem.setRsIdx s k).rsIdx x *
      (tr.st.mem.setRsIdx s k).size + c)) = _
    rw [hIdxX, hSize]

/-- The trace after an operation, or the trace itself where the operation aborts. -/
def stepped (zero : σ) (next : σ → τ → σ) (tr : TracedStates σ) (op : TraceOp τ) :
    TracedStates σ := (tr.step zero next op).getD tr

theorem Reachable.stepped {P : TraceOp τ → TracedStates σ → Prop} (h : Reachable zero next P tr)
    (op : TraceOp τ) (hLegal : Legal op tr) (hOp : P op tr)
    (hSome : (tr.step zero next op).isSome = true) :
    Reachable zero next P (tr.stepped zero next op) := by
  refine .step op h ⟨hLegal, hOp⟩ ?_
  obtain ⟨tr', hStep⟩ := isSome_iff_exists.mp hSome
  rw [TracedStates.stepped, hStep]
  rfl

/-- A batch with `n` tokens of sequence `0` from position `start` on. -/
def oneSequence (n : Nat) (start : Nat) : FullBatch where
  nTokens := n
  nPosPerEmbd := 1
  nSeqMax := 1
  token := some fun i => i
  pos i := start + i
  seqId _ := [0]
  logits _ := false

/-- The first ubatch of a sequential split that keeps the last three tokens together. -/
def splitOf (b : FullBatch) : RecurrentUbatch :=
  match BatchAllocr.splitEqual { batch := b } 4 true 3 with
  | .ok (u, _) => .ofSplit u
  | .error _ => { nSeqTokens := 0, seqs := [] }

theorem legal_single {n : Nat} {pos : List Int} {toks : List τ} (hSize : 0 < tr.st.mem.size)
    (hPos : pos.length = n) (hToks : toks.length = n) (hLast : 0 ≤ pos.getD (n - 1) (-1)) :
    Legal (.decode { nSeqTokens := n, seqs := [⟨0, [], pos⟩] } [toks]) tr := by
  refine ⟨⟨cons_ne_nil _ _, ?_, pairwise_singleton _ _, ?_⟩, ?_, ?_, rfl, ?_⟩
  · intro set hMem x hX
    rw [mem_singleton.mp hMem] at hX
    obtain rfl : x = 0 := mem_singleton.mp hX
    exact hSize
  · intro set hMem
    rw [mem_singleton.mp hMem]
    exact hLast
  · intro set hMem
    rw [mem_singleton.mp hMem]
  · intro set hMem
    rw [mem_singleton.mp hMem]
    exact hPos
  intro tok hMem
  rw [mem_singleton.mp hMem]
  exact hToks

/-- The state is the list of the tokens. -/
def snoc (v : List Nat) (t : Nat) : List Nat := v ++ [t]

/-- Three tokens are decoded in one ubatch, with room for two snapshots. -/
def threeRun : TracedStates (List Nat) :=
  ({ st := RecurrentStates.empty [] 1 1 2 } : TracedStates (List Nat)).stepped [] snoc
    (.decode (splitOf (oneSequence 3 0)) [[10, 11, 12]])

theorem threeRun_reachable (P : TraceOp Nat → TracedStates (List Nat) → Prop)
    (hP : ∀ u toks tr, P (.decode u toks) tr) : Reachable [] snoc P threeRun := by
  refine Reachable.stepped (.start ⟨1, 1, 2, Nat.le_refl 1, rfl⟩) _ ?_ (hP _ _ _) (by decide)
  have hSplit : splitOf (oneSequence 3 0) = { nSeqTokens := 3, seqs := [⟨0, [], [0, 1, 2]⟩] } := by
    decide
  exact legal_single Nat.one_pos rfl rfl (by decide)

/-- The last of the three tokens is taken back. -/
theorem threeRun_rollback :
    Restores [] threeRun 0 2 (threeRun.st.mem.seqRm 0 2 (-1)).2 ∧
      stateAt (threeRun.past 0) 1 = some [10, 11] := by
  have hPos : (threeRun.st.mem.cells 0).pos = 2 := by decide
  refine ⟨Reachable.rollback (threeRun_reachable Safe fun _ _ _ => trivial)
    (show (threeRun.st.mem.cells 0).tail = some 0 by decide) (by decide)
    (hPos.symm ▸ by decide) (by decide) ?_, by decide⟩
  refine ⟨by decide, by decide, by decide, by decide, ?_⟩
  intro j hJ
  rw [hPos] at hJ ⊢
  have hCases : j = 0 ∨ j = 1 := by omega
  rcases hCases with rfl | rfl <;> decide

/-- A fourth token is decoded in a ubatch of its own. -/
def shortRun : TracedStates (List Nat) :=
  threeRun.stepped [] snoc (.decode (splitOf (oneSequence 1 3)) [[13]])

/-- The ubatch of one token leaves an old snapshot in plane `1`: the sequence is left without its
third token. -/
theorem shortRun_differs :
    ¬ ∀ tr, Reachable [] snoc (fun _ _ => True) tr → ∀ s t p0,
      (tr.st.mem.cells s).tail = some t → 0 < p0 → p0 ≤ (tr.st.mem.cells t).pos →
      (tr.st.mem.seqRm s p0 (-1)).1 = true →
      Restores [] tr s p0 (tr.st.mem.seqRm s p0 (-1)).2 := by
  intro hClaim
  have hRun : Reachable [] snoc (fun _ _ => True) shortRun := by
    refine (threeRun_reachable _ fun _ _ _ => trivial).stepped _ ?_ trivial (by decide)
    have hSplit : splitOf (oneSequence 1 3) = { nSeqTokens := 1, seqs := [⟨0, [], [3]⟩] } := by
      decide
    exact legal_single (by decide) rfl rfl (by decide)
  obtain ⟨v, hPast, hLogical, _⟩ := (hClaim shortRun hRun 0 0 3 (by decide) (by decide)
    (by decide) (by decide)).state
  have hThree : stateAt (shortRun.past 0) (3 - 1) = some [10, 11, 12] := by decide
  have hTwo : ({ shortRun.st with mem := (shortRun.st.mem.seqRm 0 3 (-1)).2 } :
      RecurrentStates (List Nat)).logical 0 = some [10, 11] := by decide
  rw [some.inj (hPast.symm.trans hThree)] at hLogical
  exact absurd (hLogical.symm.trans hTwo) (by decide)

end TracedStates

end Beellama.Ports
