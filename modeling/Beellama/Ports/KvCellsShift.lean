import Beellama.Ports.KvCellsIndex

/-!
# The accumulated K-shift

`pos_add` and `pos_div` move a cell and add to a counter, which `set_input_k_shift` hands to the graph.
The rotation is right when the counter is the distance moved.  `pos_div` adds the distance with
the opposite sign, so the counter is too large by twice what the divisions took away.
-/

namespace Beellama.Ports.KvCells

/-! ## Moves -/

/-- The two methods that move an occupied cell. -/
inductive Move
  | add (i : Nat) (d : Int)
  | div (i : Nat) (d : Int)
  deriving DecidableEq

def Move.op : Move → Op
  | .add i d => .posAdd i d
  | .div i d => .posDiv i d

def Move.apply (m : Move) (c : KvCells) : KvCells := m.op.apply c

/-- A delta keeps the position of cell `i` non-negative and a divisor is at least one. -/
def Move.Admissible (i : Nat) : Move → KvCells → Prop
  | .add j d, c => j = i → 0 ≤ (c.cell i).pos + d
  | .div j d, _ => j = i → 1 ≤ d

/-- A division of cell `i` that leaves its position alone. -/
def Move.Exact (i : Nat) : Move → KvCells → Prop
  | .add _ _, _ => True
  | .div j d, c => j = i → d = 1 ∨ (c.cell i).pos = 0

def runMoves : List Move → KvCells → KvCells
  | [], c => c
  | m :: ms, c => runMoves ms (m.apply c)

/-- Every move of a run meets the asserted precondition of its method and is
admissible for cell `i`. -/
def AdmissibleRun (i : Nat) : List Move → KvCells → Prop
  | [], _ => True
  | m :: ms, c => m.op.Pre c ∧ m.Admissible i c ∧ AdmissibleRun i ms (m.apply c)

instance (i : Nat) (m : Move) (c : KvCells) : Decidable (m.Admissible i c) := by
  cases m <;> unfold Move.Admissible <;> infer_instance

instance decidableRun (i : Nat) : (ms : List Move) → (c : KvCells) → Decidable (AdmissibleRun i ms c)
  | [], _ => isTrue trivial
  | m :: ms, c =>
    have := decidableRun i ms (m.apply c)
    inferInstanceAs (Decidable (_ ∧ _ ∧ _))

/-- Every division of cell `i` in a run is by one or finds the cell at
position zero. -/
def ExactRun (i : Nat) : List Move → KvCells → Prop
  | [], _ => True
  | m :: ms, c => m.Exact i c ∧ ExactRun i ms (m.apply c)

/-! ## What one move does to a cell -/

/-- The distance that the divisions of cell `i` take away. -/
def Move.loss (i : Nat) : Move → KvCells → Int
  | .add _ _, _ => 0
  | .div j d, c => if j = i then (c.cell i).pos - (c.cell i).pos.tdiv d else 0

variable {m : Move} {c : KvCells} {i : Nat}

theorem Move.apply_other
    (hAdd : ∀ d, m ≠ .add i d) (hDiv : ∀ d, m ≠ .div i d) : (m.apply c).cell i = c.cell i := by
  cases m with
  | add j d =>
    have hij : i ≠ j := by
      rintro rfl
      exact hAdd d rfl
    simp only [Move.apply, Move.op, Op.apply, KvCells.posAdd]
    split <;> simp [hij]
  | div j d =>
    have hij : i ≠ j := by
      rintro rfl
      exact hDiv d rfl
    simp [Move.apply, Move.op, Op.apply, KvCells.posDiv, hij]

variable {d : Int}

theorem Move.apply_add (h : 0 ≤ (c.cell i).pos + d) :
    ((Move.add i d).apply c).cell i =
      { c.cell i with pos := (c.cell i).pos + d, shift := (c.cell i).shift + d } := by
  have hBelow : ¬ (c.cell i).pos + d < 0 := by omega
  simp [Move.apply, Move.op, Op.apply, KvCells.posAdd, hBelow]

theorem Move.apply_div (c : KvCells) (i : Nat) (d : Int) :
    ((Move.div i d).apply c).cell i =
      { c.cell i with
        pos := (c.cell i).pos.tdiv d
        shift := (c.cell i).shift + ((c.cell i).pos - (c.cell i).pos.tdiv d) } := by
  simp [Move.apply, Move.op, Op.apply, KvCells.posDiv]

@[simp] theorem Move.apply_size (m : Move) (c : KvCells) : (m.apply c).size = c.size := by
  cases m with
  | add j d =>
    simp only [Move.apply, Move.op, Op.apply, KvCells.posAdd]
    split <;> simp
  | div j d => simp [Move.apply, Move.op, Op.apply, KvCells.posDiv]

variable (hPos : 0 ≤ (c.cell i).pos)

include hPos

/-- A move keeps the position non-negative, and it adds its distance to the
counter together with twice its loss. -/
theorem Move.step (hAdm : m.Admissible i c) :
    0 ≤ ((m.apply c).cell i).pos ∧
      ((m.apply c).cell i).shift - (c.cell i).shift =
        ((m.apply c).cell i).pos - (c.cell i).pos + 2 * m.loss i c := by
  cases m with
  | add j d =>
    by_cases hji : j = i
    · subst hji
      have hKeep : 0 ≤ (c.cell j).pos + d := hAdm rfl
      rw [Move.apply_add hKeep]
      exact ⟨hKeep, by simp only [Move.loss]; omega⟩
    · rw [Move.apply_other (by simp [hji]) (by simp)]
      exact ⟨hPos, by simp only [Move.loss]; omega⟩
  | div j d =>
    by_cases hji : j = i
    · subst hji
      have hd : 1 ≤ d := hAdm rfl
      rw [Move.apply_div]
      refine ⟨Int.tdiv_nonneg hPos (by omega), ?_⟩
      simp only [Move.loss, if_true]
      omega
    · rw [Move.apply_other (by simp) (by simp [hji])]
      exact ⟨hPos, by simp only [Move.loss]; omega⟩

omit hPos in
/-- A division by more than one takes something away from a positive
position. -/
theorem tdiv_eq_self_iff {p : Int} (hp : 0 ≤ p) (hd : 1 ≤ d) :
    p - p.tdiv d = 0 ↔ d = 1 ∨ p = 0 := by
  rw [Int.tdiv_eq_ediv_of_nonneg hp]
  constructor
  · by_contra hNot
    have hLt : p / d < p := Int.ediv_lt_self_of_pos_of_ne_one (by omega) (by omega)
    omega
  rintro (rfl | rfl)
  · simp
  · simp

theorem Move.loss_nonneg (hAdm : m.Admissible i c) : 0 ≤ m.loss i c := by
  cases m with
  | add j d => exact le_refl 0
  | div j d =>
    simp only [Move.loss]
    split
    · rw [Int.tdiv_eq_ediv_of_nonneg hPos]
      have hLe : (c.cell i).pos / d ≤ (c.cell i).pos := Int.ediv_le_self d hPos
      omega
    · exact le_refl 0

theorem Move.loss_eq_zero_iff (hAdm : m.Admissible i c) : m.loss i c = 0 ↔ m.Exact i c := by
  cases m with
  | add j d => simp [Move.loss, Move.Exact]
  | div j d =>
    by_cases hji : j = i
    · subst hji
      simp only [Move.loss, Move.Exact, forall_const]
      exact tdiv_eq_self_iff hPos (hAdm rfl)
    · simp [Move.loss, Move.Exact, hji]

/-! ## Runs of moves -/

/-- What all divisions of a run take away from cell `i`. -/
def runLoss (i : Nat) : List Move → KvCells → Int
  | [], _ => 0
  | m :: ms, c => m.loss i c + runLoss i ms (m.apply c)

variable {ms : List Move}

section

variable (hRun : AdmissibleRun i ms c)

include hRun

theorem runMoves_pos_nonneg : 0 ≤ ((runMoves ms c).cell i).pos := by
  induction ms generalizing c with
  | nil => exact hPos
  | cons m ms ih => exact ih (Move.step hPos hRun.2.1).1 hRun.2.2

theorem runMoves_shift : ((runMoves ms c).cell i).shift - (c.cell i).shift =
      ((runMoves ms c).cell i).pos - (c.cell i).pos + 2 * runLoss i ms c := by
  induction ms generalizing c with
  | nil => simp [runMoves, runLoss]
  | cons m ms ih =>
    have hStep := Move.step hPos hRun.2.1
    have hRest := ih hStep.1 hRun.2.2
    simp only [runMoves, runLoss]
    omega

theorem runLoss_nonneg : 0 ≤ runLoss i ms c := by
  induction ms generalizing c with
  | nil => exact le_refl 0
  | cons m ms ih =>
    have hHead := Move.loss_nonneg hPos hRun.2.1
    have hRest := ih (Move.step hPos hRun.2.1).1 hRun.2.2
    simp only [runLoss]
    omega

/-- No loss cancels another, so a run loses nothing exactly when each of its
divisions does. -/
theorem runLoss_eq_zero_iff : runLoss i ms c = 0 ↔ ExactRun i ms c := by
  induction ms generalizing c with
  | nil => simp [runLoss, ExactRun]
  | cons m ms ih =>
    have hHead := Move.loss_nonneg hPos hRun.2.1
    have hNext := (Move.step hPos hRun.2.1).1
    have hTail := runLoss_nonneg hNext hRun.2.2
    have hIff := Move.loss_eq_zero_iff hPos hRun.2.1
    have hIffTail := ih hNext hRun.2.2
    simp only [runLoss, ExactRun]
    rw [← hIff, ← hIffTail]
    omega

end

omit hPos

theorem resetShift_cell (hi : i < c.size) : c.resetShift.cell i = { c.cell i with shift := 0 } := by
  simp [KvCells.resetShift, hi]

/-! ## The rotation handed to the graph -/

/-- `set_input_k_shift`: the counter of every occupied cell, stream after
stream. -/
def setInputKShift (streams : List KvCells) : List Int :=
  streams.flatMap fun cells =>
    (List.range cells.size).map fun i => if cells.isEmpty i then 0 else cells.getShift i

theorem setInputKShift_get {streams : List KvCells} {n s : Nat}
    (hSizes : ∀ d ∈ streams, d.size = n) (hc : streams[s]? = some c) (hi : i < n)
    (hUsed : (c.cell i).pos ≠ -1) :
    (setInputKShift streams)[s * n + i]? = some (c.getShift i) := by
  induction streams generalizing s with
  | nil => simp at hc
  | cons d ds ih =>
    have hd : d.size = n := hSizes d (by simp)
    cases s with
    | zero =>
      obtain rfl : d = c := by simpa using hc
      simp only [setInputKShift, List.flatMap_cons]
      rw [List.getElem?_append_left (by simpa [hd] using hi)]
      simp [hd, hi, KvCells.isEmpty, hUsed]
    | succ s =>
      have hRest := ih (fun e he => hSizes e (by simp [he])) (by simpa using hc)
      have hIdx : (s + 1) * n + i = n + (s * n + i) := by
        rw [Nat.add_mul]
        omega
      rw [hIdx]
      simp only [setInputKShift, List.flatMap_cons]
      rw [List.getElem?_append_right (by simp [hd])]
      simpa [setInputKShift, hd] using hRest

/-- After a run of moves the counter of a cell is the distance it has moved
since the reset, and the rotation handed to the graph carries the stored key to
the current position, exactly when every division of the cell left its position
alone. -/
theorem getShift_eq_moved_iff {c : KvCells} {i : Nat} (hi : i < c.size)
    (hPos : 0 ≤ c.posGet i) (ms : List Move) (hRun : AdmissibleRun i ms c.resetShift)
    (streams : List KvCells) (s : Nat) (hSizes : ∀ d ∈ streams, d.size = c.size)
    (hStream : streams[s]? = some (runMoves ms c.resetShift)) :
    ((runMoves ms c.resetShift).getShift i =
        (runMoves ms c.resetShift).posGet i - c.resetShift.posGet i ↔
      ExactRun i ms c.resetShift) ∧
    ((setInputKShift streams)[s * c.size + i]?.map (c.resetShift.posGet i + ·) =
        some ((runMoves ms c.resetShift).posGet i) ↔
      ExactRun i ms c.resetShift) := by
  have hCell := resetShift_cell hi
  have hStart : 0 ≤ (c.resetShift.cell i).pos := by
    rw [hCell]
    exact hPos
  have hZero : (c.resetShift.cell i).shift = 0 := by rw [hCell]
  have hShift := runMoves_shift hStart hRun
  have hLoss := runLoss_eq_zero_iff hStart hRun
  have hEnd := runMoves_pos_nonneg hStart hRun
  have hData := setInputKShift_get hSizes hStream hi (by omega)
  rw [← hLoss, hData]
  simp only [KvCells.getShift, KvCells.posGet, Option.map_some, Option.some.injEq]
  omega

/-- A table of one cell at position eight. -/
def oneCellAtEight : KvCells := ({ size := 1 } : KvCells).posSet 0 8

/-- A division by one and one at position zero. -/
def exactMoves : List Move := [.add 0 3, .div 0 1, .add 0 (-11), .div 0 2]

/-- The cell returns to zero before it is halved, so the counter is the distance it has moved. -/
theorem getShift_eq_moved_add :
    (runMoves exactMoves oneCellAtEight.resetShift).getShift 0 =
      (runMoves exactMoves oneCellAtEight.resetShift).posGet 0 -
        oneCellAtEight.resetShift.posGet 0 := by
  have hRun : AdmissibleRun 0 exactMoves oneCellAtEight.resetShift := by decide +kernel
  have hIff := @getShift_eq_moved_iff oneCellAtEight 0 (by decide) (by decide) exactMoves hRun
    [runMoves exactMoves oneCellAtEight.resetShift] 0
      (fun _ hd => by rw [List.mem_singleton.mp hd]; decide +kernel) rfl
  exact hIff.1.mpr ⟨trivial, fun _ => Or.inl rfl, trivial,
    fun _ => Or.inr (by decide +kernel), trivial⟩

/-- Halving position eight leaves the cell at four with a counter of plus
four instead of minus four. -/
theorem getShift_halved_ne_moved :
    0 ≤ oneCellAtEight.posGet 0 ∧ AdmissibleRun 0 [.div 0 2] oneCellAtEight.resetShift ∧
      (runMoves [.div 0 2] oneCellAtEight.resetShift).getShift 0 ≠
        (runMoves [.div 0 2] oneCellAtEight.resetShift).posGet 0 -
          oneCellAtEight.resetShift.posGet 0 := by
  have hPos : (oneCellAtEight.resetShift.cell 0).pos = 8 := by decide
  have hShift : (oneCellAtEight.resetShift.cell 0).shift = 0 := by decide
  refine ⟨by decide, ⟨⟨by decide, by rw [hPos]; decide, by decide⟩, fun _ => by decide, trivial⟩,
    ?_⟩
  simp only [runMoves, KvCells.posGet, KvCells.getShift, Move.apply_div, hPos]
  decide

end Beellama.Ports.KvCells
