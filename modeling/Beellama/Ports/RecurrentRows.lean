import Beellama.Ports.RecurrentRuns

/-!
# The states of the recurrent memory

The rows of a state tensor, and what one ubatch does to them: `find_slot`, `s_copy`, which forgets a
rollback index when it has read it, and `build_rs`.  A sequence of a ubatch is fed its own state
(`Decoding.fed_own`) and the others keep theirs (`Decoding.stays`), as long as the rollback indices of
sequences without a tail and of sequences that share a cell are zero (`StepSafe`).
-/

namespace Beellama.Ports

open Beellama.Verified

variable {σ : Type}

/-- The recurrent memory with the rows of a state tensor; row `i` of snapshot plane `d` is
row `d * size + i`. -/
structure RecurrentStates (σ : Type) where
  mem : RecurrentMemory
  rows : Nat → σ

namespace RecurrentMemory

/-- `s_copy`: the row that cell `i` of the range is to be copied from. -/
def sCopy (mem : RecurrentMemory) (i : Nat) : Option Nat × RecurrentMemory :=
  let cell := mem.cells (i + mem.head)
  if mem.nRsSeq = 0 then (cell.src0, mem)
  else
    match mem.members (i + mem.head) with
    | s :: _ =>
      if s < mem.nSeqMax then
        -- reset the rollback index
        (cell.src0.map fun row => mem.rsIdx s * mem.size + row,
          { mem with rsIdx := Function.update mem.rsIdx s 0 })
      else (cell.src0, mem)
    | [] => (cell.src0, mem)

/-- The inputs `s_copy` of the graph for `k` cells of the range from cell `i` on. -/
def copies (mem : RecurrentMemory) (i : Nat) : Nat → List (Option Nat) × RecurrentMemory
  | 0 => ([], mem)
  | k + 1 =>
    let r := mem.sCopy i
    let rest := r.2.copies (i + 1) k
    (r.1 :: rest.1, rest.2)

end RecurrentMemory

namespace RecurrentStates

/-- Set the first state that is zeroed. -/
def zeroed (zero : σ) (st : RecurrentStates σ) : Nat → σ :=
  match st.mem.rsZ with
  | some z => Function.update st.rows z zero
  | none => st.rows

/-- `build_rs`: the states that are fed, and the rows. The result of sequence `i` in plane `d` is
`results fed i d`. -/
def buildRs (zero : σ) (st : RecurrentStates σ) (copied : List Nat) (nSeqs planes : Nat)
    (results : List σ → Nat → Nat → σ) : List σ × (Nat → σ) :=
  let rows := st.zeroed zero
  let gathered := copied.map rows
  let fed := gathered.take nSeqs
  -- copy extra states which won't be changed further
  let extra := fun r =>
    if st.mem.head + nSeqs ≤ r ∧ r < st.mem.head + st.mem.n then
      gathered.getD (r - st.mem.head) zero
    else rows r
  -- plane `r / size`, row `r % size`
  let written := fun r =>
    if r / st.mem.size < planes ∧ st.mem.head ≤ r % st.mem.size ∧
        r % st.mem.size < st.mem.head + nSeqs then
      results fed (r % st.mem.size - st.mem.head) (r / st.mem.size)
    else extra r
  (fed, written)

/-- What happens for one ubatch; `none` when an assertion fails or an index is no row. -/
def decode (zero : σ) (st : RecurrentStates σ) (u : RecurrentUbatch) (planes : Nat)
    (results : List σ → Nat → Nat → σ) : Option (List σ × RecurrentStates σ) :=
  match st.mem.findSlot u with
  | some (true, mem) =>
    let r := mem.copies 0 mem.n
    match r.1.mapM id with
    | none => none
    | some copied =>
      let out := buildRs zero { mem := mem, rows := st.rows } copied u.seqs.length planes results
      some (out.1, { mem := r.2, rows := out.2 })
  | _ => none

/-- The position of a sequence that has a cell. -/
def position (mem : RecurrentMemory) (x : Nat) : Option Int :=
  (mem.cells x).tail.map fun c => (mem.cells c).pos

/-- The state of a sequence that has a tail. -/
def logical (st : RecurrentStates σ) (s : Nat) : Option σ :=
  (st.mem.cells s).tail.map fun c =>
    st.rows (st.mem.rsIdx s * st.mem.size + (st.mem.cells c).src.getD c)

end RecurrentStates

/-! ## The inputs of the graph -/

variable {c : Nat}

namespace RecurrentMemory

variable {mem mem' : RecurrentMemory}

/-- The rollback indices are those of planes, and zero without one. -/
structure Indexed (mem : RecurrentMemory) : Prop where
  le : ∀ s, mem.rsIdx s ≤ mem.nRsSeq
  beyond : ∀ s, mem.nSeqMax ≤ s → mem.rsIdx s = 0

/-- The sequence of a cell whose rollback index is used for it: the smallest one. -/
def lead (mem : RecurrentMemory) (c : Nat) : Option Nat := (mem.members c).head?

/-- The plane that a cell is to be copied from. -/
def plane (mem : RecurrentMemory) (c : Nat) : Nat :=
  match mem.lead c with
  | some s => mem.rsIdx s
  | none => 0

/-- The index of a sequence is used. -/
def useIdx (mem : RecurrentMemory) (lead : Option Nat) : RecurrentMemory :=
  { mem with rsIdx := fun x => if lead = some x then 0 else mem.rsIdx x }

theorem useIdx_none (mem : RecurrentMemory) : mem.useIdx none = mem := by
  congr 1

variable {s : Nat}

theorem useIdx_zero (h : mem.rsIdx s = 0) : mem.useIdx (some s) = mem := by
  have hSame : (fun x => if some s = some x then 0 else mem.rsIdx x) = mem.rsIdx := by
    funext x
    by_cases hX : some s = some x
    · rw [if_pos hX, ← Option.some.inj hX, h]
    · rw [if_neg hX]
  unfold useIdx
  rw [hSame]

theorem update_useIdx (mem : RecurrentMemory) (s : Nat) :
    ({ mem with rsIdx := Function.update mem.rsIdx s 0 } : RecurrentMemory) =
      mem.useIdx (some s) := by
  have hSame : Function.update mem.rsIdx s 0 =
      fun x => if some s = some x then 0 else mem.rsIdx x := by
    funext x
    by_cases hX : x = s
    · rw [hX, Function.update_self, if_pos rfl]
    · rw [Function.update_of_ne hX, if_neg fun hEq => hX (Option.some.inj hEq).symm]
  unfold useIdx
  rw [hSame]

theorem Indexed.useIdx (h : Indexed mem) (lead : Option Nat) : Indexed (mem.useIdx lead) where
  le s := by
    show (if lead = some s then 0 else mem.rsIdx s) ≤ mem.nRsSeq
    split
    · exact Nat.zero_le _
    · exact h.le s
  beyond s hS := by
    show (if lead = some s then 0 else mem.rsIdx s) = 0
    split
    · rfl
    · exact h.beyond s hS

theorem Indexed.sCopy (h : Indexed mem) (i : Nat) :
    mem.sCopy i = ((mem.cells (i + mem.head)).src0.map
        fun row => mem.plane (i + mem.head) * mem.size + row,
      mem.useIdx (mem.lead (i + mem.head))) := by
  have hFirst : ∀ row : Option Nat, row.map (fun row => 0 * mem.size + row) = row := by
    intro row
    cases row with
    | none => rfl
    | some row =>
      show some (0 * mem.size + row) = some row
      rw [Nat.zero_mul, Nat.zero_add]
  unfold RecurrentMemory.sCopy plane lead
  dsimp only
  by_cases hNone : mem.nRsSeq = 0
  · have hZero : ∀ s, mem.rsIdx s = 0 := fun s => Nat.le_zero.mp (hNone ▸ h.le s)
    rw [if_pos hNone]
    cases mem.members (i + mem.head) with
    | nil => rw [List.head?_nil, hFirst, useIdx_none]
    | cons s rest =>
      rw [List.head?_cons]
      dsimp only
      rw [hZero s, hFirst, useIdx_zero (hZero s)]
  rw [if_neg hNone]
  cases mem.members (i + mem.head) with
  | nil => rw [List.head?_nil, hFirst, useIdx_none]
  | cons s rest =>
    rw [List.head?_cons]
    dsimp only
    by_cases hBelow : s < mem.nSeqMax
    · rw [if_pos hBelow, update_useIdx]
    · have hZero := h.beyond s (not_lt.mp hBelow)
      rw [if_neg hBelow, hZero, hFirst, useIdx_zero hZero]

theorem Invariant.mem_of_lead (h : Invariant mem) (hLead : mem.lead c = some s) :
    s ∈ (mem.cells c).seqId :=
  (mem_members h).mp (List.mem_of_head? hLead)

theorem Invariant.lead_ne_none (h : Invariant mem) (hMember : s ∈ (mem.cells c).seqId) :
    ∃ r, mem.lead c = some r := by
  unfold lead
  have hIn := (mem_members h).mpr hMember
  cases hList : mem.members c with
  | nil =>
    rw [hList] at hIn
    exact absurd hIn List.not_mem_nil
  | cons r rest => exact ⟨r, rfl⟩

theorem lead_of_empty (h : Invariant mem) (hEmpty : (mem.cells c).seqId = ∅) :
    mem.lead c = none := by
  cases hLead : mem.lead c with
  | none => rfl
  | some s =>
    have hMember := h.mem_of_lead hLead
    rw [hEmpty] at hMember
    exact absurd hMember (Finset.notMem_empty s)

/-- What is left of the indices when those of the cells from `i` on, `k` of them, are
used. -/
def usedIdx (mem : RecurrentMemory) (i k x : Nat) : Nat :=
  if ∃ j < k, mem.lead (i + j + mem.head) = some x then 0 else mem.rsIdx x

/-- Every cell of the range is copied from its own plane: what the copies before it use
are the indices of other sequences. -/
theorem Indexed.copies (h : Indexed mem) (hInv : Invariant mem) (i k : Nat) :
    mem.copies i k = ((List.range' i k).map fun j => (mem.cells (j + mem.head)).src0.map
        fun row => mem.plane (j + mem.head) * mem.size + row,
      { mem with rsIdx := mem.usedIdx i k }) := by
  induction k generalizing mem i with
  | zero =>
    have hSame : mem.usedIdx i 0 = mem.rsIdx := by
      funext x
      exact if_neg fun ⟨j, hJ, _⟩ => Nat.not_lt_zero j hJ
    unfold RecurrentMemory.copies
    rw [hSame, List.range'_zero, List.map_nil]
  | succ k ih =>
    have hOwn : Invariant (mem.useIdx (mem.lead (i + mem.head))) :=
      hInv.of_cells rfl rfl rfl ⟨rfl, rfl, rfl⟩
    unfold RecurrentMemory.copies
    rw [h.sCopy i]
    dsimp only
    rw [ih (h.useIdx _) hOwn, List.range'_succ]
    have hLead : ∀ c, (mem.useIdx (mem.lead (i + mem.head))).lead c = mem.lead c := fun _ => rfl
    have hPlane : ∀ j ∈ List.range' (i + 1) k,
        (mem.useIdx (mem.lead (i + mem.head))).plane (j + mem.head) = mem.plane (j + mem.head) := by
      intro j hJ
      have hLow := (List.mem_range'_1.mp hJ).1
      unfold plane
      rw [hLead]
      cases hAt : mem.lead (j + mem.head) with
      | none => rfl
      | some s =>
        refine if_neg fun hSame => ?_
        have hHere := (hInv.member _ s (hInv.mem_of_lead hSame)).2
        have hThere := (hInv.member _ s (hInv.mem_of_lead hAt)).2
        have hEq := Option.some.inj (hHere.symm.trans hThere)
        omega
    have hUsed : (mem.useIdx (mem.lead (i + mem.head))).usedIdx (i + 1) k =
        mem.usedIdx i (k + 1) := by
      funext x
      unfold usedIdx
      show (if ∃ j < k, mem.lead (i + 1 + j + mem.head) = some x then 0
        else if mem.lead (i + mem.head) = some x then 0 else mem.rsIdx x) = _
      by_cases hLater : ∃ j < k, mem.lead (i + 1 + j + mem.head) = some x
      · obtain ⟨j, hJ, hAt⟩ := hLater
        rw [if_pos ⟨j, hJ, hAt⟩, if_pos]
        refine ⟨j + 1, Nat.succ_lt_succ hJ, ?_⟩
        rw [← hAt, show i + (j + 1) + mem.head = i + 1 + j + mem.head by omega]
      rw [if_neg hLater]
      by_cases hFirst : mem.lead (i + mem.head) = some x
      · rw [if_pos hFirst, if_pos ⟨0, Nat.succ_pos k, hFirst⟩]
      rw [if_neg hFirst, if_neg]
      rintro ⟨j, hJ, hAt⟩
      cases j with
      | zero => exact hFirst hAt
      | succ j =>
        refine hLater ⟨j, Nat.lt_of_succ_lt_succ hJ, ?_⟩
        rw [← hAt, show i + (j + 1) + mem.head = i + 1 + j + mem.head by omega]
    rw [hUsed]
    refine Prod.ext ?_ rfl
    refine congrArg (List.cons _) (List.map_congr_left fun j hJ => ?_)
    show ((mem.cells (j + mem.head)).src0.map fun row =>
      (mem.useIdx _).plane (j + mem.head) * mem.size + row) = _
    rw [hPlane j hJ]

end RecurrentMemory

/-! ## One ubatch -/

variable {x : Nat}

namespace RecurrentMemory

/-- The row that a cell is to be copied from. -/
def copyRow (mem : RecurrentMemory) (c : Nat) : Nat :=
  mem.plane c * mem.size + (mem.cells c).src0.getD 0

variable {m₀ mem : RecurrentMemory} {u : RecurrentUbatch} {π : Equiv.Perm Nat}

theorem ReadsZero.src0_ne_none (h : ReadsZero m₀ mem c) : (mem.cells c).src0 ≠ none := by
  rcases h with ⟨hSrc, hSome⟩ | ⟨e, hSrc, _⟩
  · rw [hSrc]
    exact hSome
  · rw [hSrc]
    exact Option.some_ne_none e

theorem Fits.set_unique {size : Nat} (h : Fits u size) {a b : SlotSeq} (hA : a ∈ u.seqs)
    (hB : b ∈ u.seqs) (hXA : x ∈ a.ids) (hXB : x ∈ b.ids) : a = b := by
  by_contra hNe
  have hSymm : Std.Symm fun a b : SlotSeq => ∀ s ∈ a.ids, s ∉ b.ids :=
    ⟨fun _ _ hApart s hB hA => hApart s hA hB⟩
  exact h.disjoint.forall hA hB hNe x hXA hXB

theorem Slotted.member_cases (h : Slotted m₀ u π mem) (hMember : x ∈ (mem.cells c).seqId) :
    (∃ (i : Nat) (set : SlotSeq), u.seqs[i]? = some set ∧ x ∈ set.ids ∧ c = mem.head + i) ∨
      Outside u x ∧ ∃ t, (m₀.cells x).tail = some t ∧ c = π t := by
  have hTail := (h.inv.member c x hMember).2
  by_cases hOut : Outside u x
  · rw [h.other x hOut] at hTail
    obtain ⟨t, hOld, hNew⟩ := Option.map_eq_some_iff.mp hTail
    exact Or.inr ⟨hOut, t, hOld, hNew.symm⟩
  have hIn : ∃ set ∈ u.seqs, x ∈ set.ids := by
    by_contra hNone
    exact hOut fun set hMem hX => hNone ⟨set, hMem, hX⟩
  obtain ⟨set, hMem, hX⟩ := hIn
  obtain ⟨i, hI⟩ := List.mem_iff_getElem?.mp hMem
  have hOwn : x ∈ (mem.cells (mem.head + i)).seqId := by
    rw [(h.own i set hI).1]
    exact List.mem_toFinset.mpr hX
  have hSame := Option.some.inj (hTail.symm.trans (h.inv.member _ x hOwn).2)
  exact Or.inl ⟨i, set, hI, hX, hSame⟩

theorem Slotted.src0_ne_none (h : Slotted m₀ u π mem) (hIn : InWindow mem c) :
    (mem.cells c).src0 ≠ none := by
  by_cases hEmpty : (mem.cells c).seqId = ∅
  · exact (h.unused c hIn hEmpty).src0_ne_none
  obtain ⟨x, hMember⟩ := Finset.nonempty_iff_ne_empty.mpr hEmpty
  rcases h.member_cases hMember with ⟨i, set, hI, _, rfl⟩ | ⟨hOut, t, hTail, rfl⟩
  · cases hTail : (m₀.cells set.first).tail with
    | some t =>
      rw [h.fed i set t hI hTail]
      exact Option.some_ne_none t
    | none => exact (h.fresh i set hI hTail).src0_ne_none
  · rw [h.moved x t hOut hTail hIn]
    exact Option.some_ne_none t

end RecurrentMemory

namespace RecurrentStates

open RecurrentMemory

variable {zero : σ} {st st' : RecurrentStates σ} {u : RecurrentUbatch} {planes : Nat}
  {results : List σ → Nat → Nat → σ} {fed : List σ}

/-- What one ubatch does, when `find_slot` leaves `mem`. -/
structure Decoded (zero : σ) (st : RecurrentStates σ) (u : RecurrentUbatch) (planes : Nat)
    (results : List σ → Nat → Nat → σ) (mem : RecurrentMemory) (fed : List σ)
    (st' : RecurrentStates σ) : Prop where
  cells : st'.mem = { mem with rsIdx := mem.usedIdx 0 mem.n }
  reads : ∀ i < u.seqs.length,
    fed[i]? = some (zeroed zero ⟨mem, st.rows⟩ (mem.copyRow (mem.head + i)))
  result : ∀ r, r / mem.size < planes → mem.head ≤ r % mem.size →
    r % mem.size < mem.head + u.seqs.length →
    st'.rows r = results fed (r % mem.size - mem.head) (r / mem.size)
  /-- the extra states -/
  extra : ∀ c, mem.head + u.seqs.length ≤ c → c < mem.head + mem.n →
    st'.rows c = zeroed zero ⟨mem, st.rows⟩ (mem.copyRow c)
  rest : ∀ r, (r % mem.size < mem.head ∨ mem.head + u.seqs.length ≤ r % mem.size) →
    ¬ (mem.head + u.seqs.length ≤ r ∧ r < mem.head + mem.n) →
    st'.rows r = zeroed zero ⟨mem, st.rows⟩ r

theorem mapM_id_some {α : Type} (l : List α) : (l.map some).mapM id = some l := by
  induction l with
  | nil => rfl
  | cons a rest ih =>
    rw [List.map_cons, List.mapM_cons, ih]
    rfl

theorem decoded {m₀ mem : RecurrentMemory} {π : Equiv.Perm Nat} (hIndexed : Indexed mem)
    (hSlot : Slotted m₀ u π mem) (hFind : st.mem.findSlot u = some (true, mem)) (planes : Nat)
    (results : List σ → Nat → Nat → σ) :
    ∃ fed st', st.decode zero u planes results = some (fed, st') ∧
      Decoded zero st u planes results mem fed st' := by
  have hCopies : (mem.copies 0 mem.n).1 =
      ((List.range' 0 mem.n).map fun j => mem.copyRow (mem.head + j)).map some := by
    rw [hIndexed.copies hSlot.inv, List.map_map]
    refine List.map_congr_left fun j hJ => ?_
    have hLt := (List.mem_range'_1.mp hJ).2
    have hIn : InWindow mem (mem.head + j) := ⟨by omega, by omega⟩
    obtain ⟨row, hRow⟩ := Option.ne_none_iff_exists'.mp (hSlot.src0_ne_none hIn)
    rw [Nat.add_comm j mem.head, hRow]
    show some _ = some (mem.copyRow (mem.head + j))
    unfold copyRow
    rw [hRow]
    rfl
  have hGathered : ∀ j < mem.n, (((List.range' 0 mem.n).map fun j =>
      mem.copyRow (mem.head + j)).map (zeroed zero ⟨mem, st.rows⟩))[j]? =
      some (zeroed zero ⟨mem, st.rows⟩ (mem.copyRow (mem.head + j))) := by
    intro j hJ
    rw [List.getElem?_map, List.getElem?_map, List.getElem?_range' hJ]
    simp
  have hDecode : st.decode zero u planes results =
      let out := buildRs zero ⟨mem, st.rows⟩
        ((List.range' 0 mem.n).map fun j => mem.copyRow (mem.head + j)) u.seqs.length planes results
      some (out.1, { mem := (mem.copies 0 mem.n).2, rows := out.2 }) := by
    unfold decode
    rw [hFind]
    dsimp only
    rw [hCopies, mapM_id_some]
  refine ⟨_, _, hDecode, ⟨congrArg Prod.snd (hIndexed.copies hSlot.inv 0 mem.n), ?_, ?_, ?_, ?_⟩⟩
  · intro i hI
    show (List.take _ _)[i]? = _
    rw [List.getElem?_take_of_lt hI]
    exact hGathered i (Nat.lt_of_lt_of_le hI hSlot.fits)
  · intro r hPlane hLow hHigh
    exact if_pos ⟨hPlane, hLow, hHigh⟩
  · intro c hLow hHigh
    have hLt : c < mem.size := by
      rw [hSlot.shape.size]
      exact Nat.lt_of_lt_of_le hHigh hSlot.high
    refine (if_neg ?_).trans ((if_pos ⟨hLow, hHigh⟩).trans ?_)
    · rintro ⟨_, _, hOwn⟩
      have hMod : c % mem.size < mem.head + u.seqs.length := hOwn
      rw [Nat.mod_eq_of_lt hLt] at hMod
      exact absurd hLow (not_le.mpr hMod)
    have hIndex : mem.head + (c - mem.head) = c := by omega
    rw [List.getD_eq_getElem?_getD, hGathered (c - mem.head) (by omega), hIndex]
    rfl
  intro r hOut hExtra
  refine (if_neg ?_).trans (if_neg hExtra)
  rintro ⟨_, hLow, hHigh⟩
  have hLow' : mem.head ≤ r % mem.size := hLow
  have hHigh' : r % mem.size < mem.head + u.seqs.length := hHigh
  omega

/-- The cells and the rows between two operations: an empty cell that is told its own row
has the zero state there. -/
structure RowsInvariant (zero : σ) (st : RecurrentStates σ) : Prop where
  inv : Invariant st.mem
  indexed : Indexed st.mem
  zeros : ∀ e, (st.mem.cells e).seqId = ∅ → (st.mem.cells e).src = some e →
    e < st.mem.size ∧ st.rows e = zero

/-- A set is one sequence, or shares a cell and the rollback index; a sequence without a cell, or
outside the ubatch in a shared one, has no index. -/
structure StepSafe (mem : RecurrentMemory) (u : RecurrentUbatch) : Prop where
  nodup : ∀ set ∈ u.seqs, set.first ∉ set.coupled
  together : ∀ set ∈ u.seqs, ∀ x ∈ set.coupled,
    (mem.cells x).tail = (mem.cells set.first).tail ∧ mem.rsIdx x = mem.rsIdx set.first
  fresh : ∀ set ∈ u.seqs, (mem.cells set.first).tail = none → mem.rsIdx set.first = 0
  shared : ∀ x y t, x ≠ y → Outside u x → Outside u y → (mem.cells x).tail = some t →
    (mem.cells y).tail = some t → mem.rsIdx x = 0

/-- Every sequence of the ubatch is fed its own state, or the zero state, and the states
of the others stay. -/
structure Isolated (zero : σ) (st : RecurrentStates σ) (u : RecurrentUbatch) (fed : List σ)
    (st' : RecurrentStates σ) : Prop where
  fed : ∀ (i : Nat) set, u.seqs[i]? = some set → ∀ x ∈ set.ids,
    fed[i]? = some ((st.logical x).getD zero)
  stays : ∀ x, Outside u x → st'.logical x = st.logical x

theorem logical_none (hTail : (st.mem.cells x).tail = none) : st.logical x = none := by
  unfold logical
  rw [hTail]
  rfl

variable {t : Nat}

theorem logical_some (h : Invariant st.mem) (hTail : (st.mem.cells x).tail = some t) :
    st.logical x = some (st.rows (st.mem.rsIdx x * st.mem.size + t)) := by
  unfold logical
  rw [hTail]
  show some (st.rows (_ + (st.mem.cells t).src.getD t)) = _
  rw [h.src_of_tail hTail]
  rfl

variable {rows : Nat → σ}

theorem zeroed_other {mem : RecurrentMemory} {d : Nat} (hLt : c < mem.size)
    (hNe : ∀ z, mem.rsZ = some z → z < mem.size ∧ c ≠ z) :
    zeroed zero ⟨mem, rows⟩ (d * mem.size + c) = rows (d * mem.size + c) := by
  unfold zeroed
  cases hZ : mem.rsZ with
  | none => rfl
  | some z =>
    obtain ⟨hZLt, hOther⟩ := hNe z hZ
    refine Function.update_of_ne (fun hSame => hOther ?_) ..
    have hMod : (d * mem.size + c) % mem.size = z % mem.size := congrArg (· % mem.size) hSame
    rwa [Nat.mul_add_mod_self_right, Nat.mod_eq_of_lt hLt, Nat.mod_eq_of_lt hZLt] at hMod

theorem zeroed_zero {mem : RecurrentMemory} {e : Nat}
    (h : mem.rsZ = some e ∨ rows e = zero) : zeroed zero ⟨mem, rows⟩ e = zero := by
  unfold zeroed
  rcases h with hZ | hRow
  · rw [hZ]
    exact Function.update_self ..
  cases hZ : mem.rsZ with
  | none => exact hRow
  | some z =>
    by_cases hSame : e = z
    · rw [hSame]
      exact Function.update_self ..
    · exact (Function.update_of_ne hSame ..).trans hRow

/-- One ubatch of a memory with the invariant. -/
structure Decoding (zero : σ) (st : RecurrentStates σ) (u : RecurrentUbatch) (planes : Nat)
    (results : List σ → Nat → Nat → σ) (m₀ : RecurrentMemory) (π : Equiv.Perm Nat)
    (mem : RecurrentMemory) (fed : List σ) (st' : RecurrentStates σ) : Prop where
  start : RowsInvariant zero st
  drop : Dropped (Coupled u.seqs) st.mem m₀
  idx : m₀.rsIdx = st.mem.rsIdx
  slot : Slotted m₀ u π mem
  done : Decoded zero st u planes results mem fed st'

namespace Decoding

variable {m₀ mem : RecurrentMemory} {π : Equiv.Perm Nat}

variable (h : Decoding zero st u planes results m₀ π mem fed st')

include h

theorem size :
    mem.size = st.mem.size := h.slot.shape.size.trans h.drop.shape.size

theorem rsIdx (x : Nat) :
    mem.rsIdx x = st.mem.rsIdx x := congrFun (h.slot.rsIdx.trans h.idx) x

theorem inv : Invariant st'.mem := by
  rw [h.done.cells]
  exact h.slot.inv.of_cells rfl rfl rfl ⟨rfl, rfl, rfl⟩

theorem cells : st'.mem.cells = mem.cells ∧ st'.mem.size = mem.size := by
  rw [h.done.cells]
  exact ⟨rfl, rfl⟩

omit h in
theorem not_coupled (hOut : Outside u x) : ¬ Coupled u.seqs x :=
  fun ⟨set, hMem, hX⟩ => hOut set hMem (List.mem_cons_of_mem _ hX)

theorem outside_tail (hOut : Outside u x) : (m₀.cells x).tail = (st.mem.cells x).tail :=
  h.drop.stays x (not_coupled hOut)

theorem zero_other (hTail : (m₀.cells x).tail = some t) (z : Nat) (hZ : mem.rsZ = some z) :
    z < mem.size ∧ t ≠ z := by
  obtain ⟨⟨_, hHigh⟩, hTails⟩ := h.slot.zero z hZ
  rw [h.slot.shape.size]
  exact ⟨Nat.lt_of_lt_of_le hHigh h.slot.high, hTails x t hTail⟩

theorem row_of_tail (hTail : (st.mem.cells x).tail = some t)
    (hSame : (m₀.cells x).tail = (st.mem.cells x).tail) :
    some (zeroed zero ⟨mem, st.rows⟩ (st.mem.rsIdx x * mem.size + t)) = st.logical x := by
  have hLt : t < mem.size := h.size ▸ h.start.inv.tail_lt hTail
  rw [zeroed_other hLt (h.zero_other (hSame.trans hTail)), logical_some h.start.inv hTail, h.size]

theorem zero_row (hReads : ReadsZero m₀ mem c) (hPlane : mem.plane c = 0) :
    zeroed zero ⟨mem, st.rows⟩ (mem.copyRow c) = zero := by
  unfold copyRow
  rw [hPlane, Nat.zero_mul, Nat.zero_add]
  rcases hReads with ⟨hSrc, hSome⟩ | ⟨e, hSrc, hEmpty, hOwn⟩
  · obtain ⟨z, hZ⟩ := Option.ne_none_iff_exists'.mp hSome
    rw [hSrc, hZ]
    exact zeroed_zero (Or.inl hZ)
  rw [hSrc]
  refine zeroed_zero (Or.inr ?_)
  rcases (h.drop.freed e hEmpty).2 with hNone | ⟨hOldEmpty, hOldSrc⟩
  · rw [hOwn] at hNone
    cases hNone
  · exact (h.start.zeros e hOldEmpty (hOldSrc ▸ hOwn)).2

theorem plane_of_empty (hEmpty : (mem.cells c).seqId = ∅) : mem.plane c = 0 := by
  unfold plane
  rw [lead_of_empty h.slot.inv hEmpty]

variable {i : Nat} {set : SlotSeq}

theorem own_lt (hSet : u.seqs[i]? = some set) : i < u.seqs.length ∧ mem.head + i < mem.size := by
  have hI := (List.getElem?_eq_some_iff.mp hSet).1
  have hFits := h.slot.fits
  have hHigh := h.slot.high
  rw [h.slot.shape.size]
  omega

/-- Every sequence of a set is fed its own state. -/
theorem fed_own (hFits : Fits u st.mem.size) (hSet : u.seqs[i]? = some set)
    (hNodup : set.first ∉ set.coupled)
    (hTogether : ∀ x ∈ set.coupled, (st.mem.cells x).tail = (st.mem.cells set.first).tail ∧
      st.mem.rsIdx x = st.mem.rsIdx set.first)
    (hFresh : (st.mem.cells set.first).tail = none → st.mem.rsIdx set.first = 0)
    (hX : x ∈ set.ids) : fed[i]? = some ((st.logical x).getD zero) := by
  have hMem := List.mem_of_getElem? hSet
  have hSame : ∀ y ∈ set.ids, (st.mem.cells y).tail = (st.mem.cells set.first).tail ∧
      st.mem.rsIdx y = st.mem.rsIdx set.first := by
    intro y hY
    rcases List.mem_cons.mp hY with rfl | hCoupled
    · exact ⟨rfl, rfl⟩
    · exact hTogether y hCoupled
  have hLogical : st.logical x = st.logical set.first := by
    unfold logical
    rw [(hSame x hX).1, (hSame x hX).2]
  have hPlane : mem.plane (mem.head + i) = st.mem.rsIdx set.first := by
    have hMember : set.first ∈ (mem.cells (mem.head + i)).seqId := by
      rw [(h.slot.own i set hSet).1]
      exact List.mem_toFinset.mpr List.mem_cons_self
    obtain ⟨r, hLead⟩ := h.slot.inv.lead_ne_none hMember
    have hIn := h.slot.inv.mem_of_lead hLead
    rw [(h.slot.own i set hSet).1] at hIn
    unfold plane
    rw [hLead]
    exact (h.rsIdx r).trans (hSame r (List.mem_toFinset.mp hIn)).2
  -- the first sequence of the set keeps its tail until it is moved
  have hStays : (m₀.cells set.first).tail = (st.mem.cells set.first).tail := by
    refine h.drop.stays _ ?_
    rintro ⟨other, hOther, hCoupled⟩
    obtain rfl := hFits.set_unique hOther hMem (List.mem_cons_of_mem _ hCoupled) List.mem_cons_self
    exact hNodup hCoupled
  rw [h.done.reads i (h.own_lt hSet).1, hLogical]
  cases hTail : (st.mem.cells set.first).tail with
  | some t =>
    rw [← h.row_of_tail hTail hStays]
    unfold copyRow
    rw [hPlane, h.slot.fed i set t hSet (hStays.trans hTail)]
    rfl
  | none =>
    rw [logical_none hTail]
    refine congrArg some (h.zero_row (h.slot.fresh i set hSet (hStays.trans hTail)) ?_)
    rw [hPlane]
    exact hFresh hTail

theorem outside_cell (hOut : Outside u x) (hMember : x ∈ (mem.cells c).seqId)
    (hLow : mem.head ≤ c) :
    mem.head + u.seqs.length ≤ c := by
  by_contra hHigh
  have hI : c - mem.head < u.seqs.length := by omega
  have hSet := List.getElem?_eq_getElem hI
  have hOwn := (h.slot.own _ _ hSet).1
  have hIndex : mem.head + (c - mem.head) = c := by omega
  rw [hIndex] at hOwn
  rw [hOwn] at hMember
  exact hOut _ (List.getElem_mem hI) (List.mem_toFinset.mp hMember)

theorem empty_cell (hEmpty : (mem.cells c).seqId = ∅) (hLow : mem.head ≤ c) :
    mem.head + u.seqs.length ≤ c := by
  by_contra hHigh
  have hI : c - mem.head < u.seqs.length := by omega
  have hOwn := (h.slot.own _ _ (List.getElem?_eq_getElem hI)).1
  have hIndex : mem.head + (c - mem.head) = c := by omega
  rw [hIndex, hEmpty] at hOwn
  have hFirst : (u.seqs[c - mem.head]).first ∈ (∅ : Finset Nat) := by
    rw [hOwn]
    exact List.mem_toFinset.mpr List.mem_cons_self
  exact Finset.notMem_empty _ hFirst

/-- The state of a sequence outside of the ubatch stays, also when its cell is moved. -/
theorem stays (hSafe : StepSafe st.mem u) (hOut : Outside u x) : st'.logical x = st.logical x := by
  obtain ⟨hCells, hSize⟩ := h.cells
  have hNew : (st'.mem.cells x).tail = (st.mem.cells x).tail.map π := by
    rw [hCells, h.slot.other x hOut, h.outside_tail hOut]
  cases hTail : (st.mem.cells x).tail with
  | none =>
    rw [hTail] at hNew
    rw [logical_none hTail, logical_none hNew]
  | some t =>
    rw [hTail] at hNew
    have hOld : (m₀.cells x).tail = some t := (h.outside_tail hOut).trans hTail
    have hMember : x ∈ (mem.cells (π t)).seqId := by
      have hIn := (h.inv.tail x _ hNew).2
      rwa [hCells] at hIn
    have hRow := h.row_of_tail hTail (h.outside_tail hOut)
    have hLt : π t < mem.size := hSize ▸ h.inv.tail_lt hNew
    have hIdx : st'.mem.rsIdx x = mem.usedIdx 0 mem.n x := by rw [h.done.cells]
    rw [logical_some h.inv hNew, hSize, ← hRow, hIdx]
    by_cases hIn : InWindow mem (π t)
    · obtain ⟨s, hLead⟩ := h.slot.inv.lead_ne_none hMember
      have hPlane : mem.plane (π t) = st.mem.rsIdx x ∧ mem.usedIdx 0 mem.n x = 0 := by
        unfold plane
        rw [hLead]
        show mem.rsIdx s = _ ∧ _
        rw [h.rsIdx s]
        by_cases hSame : s = x
        · subst hSame
          refine ⟨rfl, if_pos ⟨π t - mem.head, ?_, ?_⟩⟩
          · have hHigh := hIn.2
            have hLow := hIn.1
            omega
          · rw [show 0 + (π t - mem.head) + mem.head = π t by have hLow := hIn.1; omega]
            exact hLead
        have hShares := h.slot.inv.mem_of_lead hLead
        rcases h.slot.member_cases hShares with ⟨i, set, hSet, hS, hAt⟩ | ⟨hOutS, t', hOldS, hAt⟩
        · have hLow := h.outside_cell hOut hMember hIn.1
          have hI := (h.own_lt hSet).1
          omega
        obtain rfl := π.injective hAt
        have hTailS := (h.outside_tail hOutS).symm.trans hOldS
        have hZeroX := hSafe.shared x s t (Ne.symm hSame) hOut hOutS hTail hTailS
        have hZeroS := hSafe.shared s x t hSame hOutS hOut hTailS hTail
        refine ⟨hZeroS.trans hZeroX.symm, ?_⟩
        unfold usedIdx
        rw [h.rsIdx x, hZeroX, ite_self]
      rw [hPlane.2, Nat.zero_mul, Nat.zero_add,
        h.done.extra (π t) (h.outside_cell hOut hMember hIn.1) hIn.2]
      unfold copyRow
      rw [hPlane.1, h.slot.moved x t hOut hOld hIn]
      rfl
    have hFix : π t = t := π.injective (h.slot.stays (π t) hIn)
    rw [hFix] at hIn hLt
    have hUsed : mem.usedIdx 0 mem.n x = st.mem.rsIdx x := by
      unfold usedIdx
      rw [if_neg, h.rsIdx x]
      rintro ⟨j, hJ, hLead⟩
      have hHere := (h.slot.inv.member _ x (h.slot.inv.mem_of_lead hLead)).2
      have hThere := (h.slot.inv.member _ x hMember).2
      have hEq := Option.some.inj (hHere.symm.trans hThere)
      exact hIn ⟨by omega, by omega⟩
    rw [hFix, hUsed, h.done.rest]
    · rw [Nat.mul_add_mod_self_right, Nat.mod_eq_of_lt hLt]
      have hFits := h.slot.fits
      unfold InWindow at hIn
      omega
    rintro ⟨hLow, hHigh⟩
    have hWindow := h.slot.high
    rw [← h.slot.shape.size] at hWindow
    rcases Nat.eq_zero_or_pos (st.mem.rsIdx x) with hZero | hPos
    · rw [hZero, Nat.zero_mul, Nat.zero_add] at hLow hHigh
      exact hIn ⟨by omega, hHigh⟩
    · have hLarge := Nat.le_mul_of_pos_left mem.size hPos
      omega

theorem zeros (e : Nat)
    (hEmpty : (st'.mem.cells e).seqId = ∅) (hOwn : (st'.mem.cells e).src = some e) :
    e < st'.mem.size ∧ st'.rows e = zero := by
  obtain ⟨hCells, hSize⟩ := h.cells
  rw [hCells] at hEmpty hOwn
  rw [hSize]
  have hHigh := h.slot.high
  rw [← h.slot.shape.size] at hHigh
  by_cases hIn : InWindow mem e
  · have hLow := h.empty_cell hEmpty hIn.1
    have hLt := hIn.2
    refine ⟨by omega, ?_⟩
    rw [h.done.extra e hLow hLt]
    exact h.zero_row (h.slot.unused e hIn hEmpty) (h.plane_of_empty hEmpty)
  obtain ⟨hOldEmpty, hOldSrc⟩ := h.slot.beyond e hIn hEmpty
  rw [hOwn] at hOldSrc
  have hStart : e < st.mem.size ∧ st.rows e = zero := by
    rcases (h.drop.freed e hOldEmpty).2 with hNone | ⟨hFirstEmpty, hFirstSrc⟩
    · rw [← hOldSrc] at hNone
      cases hNone
    · exact h.start.zeros e hFirstEmpty (hFirstSrc.symm.trans hOldSrc.symm)
  have hLt : e < mem.size := h.size ▸ hStart.1
  refine ⟨hLt, ?_⟩
  have hFits := h.slot.fits
  unfold InWindow at hIn
  rw [h.done.rest e (by rw [Nat.mod_eq_of_lt hLt]; omega) (by omega)]
  exact zeroed_zero (Or.inr hStart.2)

theorem indexed : Indexed st'.mem := by
  have hIdx : ∀ x, st'.mem.rsIdx x = 0 ∨ st'.mem.rsIdx x = st.mem.rsIdx x := by
    intro x
    rw [h.done.cells]
    show mem.usedIdx 0 mem.n x = 0 ∨ mem.usedIdx 0 mem.n x = _
    unfold usedIdx
    split
    · exact Or.inl rfl
    · exact Or.inr (h.rsIdx x)
  have hShape := h.drop.shape.trans h.slot.shape
  have hCounts : st'.mem.nRsSeq = st.mem.nRsSeq ∧ st'.mem.nSeqMax = st.mem.nSeqMax := by
    rw [h.done.cells]
    exact ⟨hShape.nRsSeq, hShape.nSeqMax⟩
  refine ⟨fun x => ?_, fun x hX => ?_⟩
  · rw [hCounts.1]
    rcases hIdx x with hZero | hSame
    · rw [hZero]
      exact Nat.zero_le _
    · rw [hSame]
      exact h.start.indexed.le x
  rw [hCounts.2] at hX
  rcases hIdx x with hZero | hSame
  · exact hZero
  · exact hSame.trans (h.start.indexed.beyond x hX)

theorem keeps : RowsInvariant zero st' :=
  ⟨h.inv, h.indexed, h.zeros⟩

end Decoding

theorem RowsInvariant.decoding (h : RowsInvariant zero st) (hFits : Fits u st.mem.size)
    (planes : Nat) (results : List σ → Nat → Nat → σ) :
    ∃ m₀ π mem fed st', st.mem.findSlot u = some (true, mem) ∧
      st.decode zero u planes results = some (fed, st') ∧
      Decoding zero st u planes results m₀ π mem fed st' := by
  obtain ⟨m₀, π, mem, hDrop, hIdx, hFind, hSlot⟩ := h.inv.findSlot hFits
  have hShape := hDrop.shape.trans hSlot.shape
  have hIndexed : Indexed mem := by
    refine ⟨fun s => ?_, fun s hS => ?_⟩
    · rw [hSlot.rsIdx, hIdx, hShape.nRsSeq]
      exact h.indexed.le s
    rw [hShape.nSeqMax] at hS
    rw [hSlot.rsIdx, hIdx]
    exact h.indexed.beyond s hS
  obtain ⟨fed, st', hDecode, hDone⟩ := decoded hIndexed hSlot hFind planes results
  exact ⟨m₀, π, mem, fed, st', hFind, hDecode, h, hDrop, hIdx, hSlot, hDone⟩

end RecurrentStates

end Beellama.Ports
