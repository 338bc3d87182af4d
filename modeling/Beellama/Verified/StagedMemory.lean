import Beellama.Verified.ByteCodec
import Mathlib.Data.List.GetD

/-!
# Staged writes to a memory of bytes

A reader stages writes of slices (`TensorWrite`), and a commit makes them in order.  A memory of rows of
one size is seen through `rowOf`: of several writes to one row the last remains (`rowOf_writeRows`).
`Delivers` says which bytes a reader takes off a stream, what it returns and which writes it stages.
-/

namespace Beellama.Verified

open List

variable {m : Nat → UInt8} {off n k : Nat} {bytes : List UInt8}

/-- The bytes from an offset on. -/
def readSlice (m : Nat → UInt8) (off n : Nat) : List UInt8 := (List.range n).map fun k => m (off + k)

/-- Writes bytes from an offset on. -/
def putSlice (m : Nat → UInt8) (off : Nat) (bytes : List UInt8) : Nat → UInt8 := fun k =>
  if off ≤ k ∧ k < off + bytes.length then bytes.getD (k - off) 0 else m k

@[simp] theorem readSlice_length (m : Nat → UInt8) (off n : Nat) : (readSlice m off n).length = n := by
  unfold readSlice
  rw [length_map, length_range]

theorem readSlice_add (m : Nat → UInt8) (off a b : Nat) :
    readSlice m off (a + b) = readSlice m off a ++ readSlice m (off + a) b := by
  unfold readSlice
  rw [range_add, map_append, map_map]
  congr 1
  exact map_congr_left fun k _ => by rw [Function.comp_apply, Nat.add_assoc]

theorem putSlice_of_not_mem (h : ¬ (off ≤ k ∧ k < off + bytes.length)) :
    putSlice m off bytes k = m k := if_neg h

theorem putSlice_nil (m : Nat → UInt8) (off : Nat) : putSlice m off [] = m := by
  funext k
  exact putSlice_of_not_mem (by rw [length_nil]; omega)

theorem putSlice_append (m : Nat → UInt8) (off : Nat) (xs ys : List UInt8) :
    putSlice m off (xs ++ ys) = putSlice (putSlice m off xs) (off + xs.length) ys := by
  funext k
  unfold putSlice
  rw [length_append]
  by_cases hBelow : off ≤ k
  · by_cases hFirst : k < off + xs.length
    · rw [if_pos (by omega), if_neg (by omega), if_pos (by omega),
        getD_append _ _ _ _ (by omega)]
    by_cases hSecond : k < off + xs.length + ys.length
    · rw [if_pos (by omega), if_pos (by omega), getD_append_right _ _ _ _ (by omega)]
      congr 1
      omega
    · rw [if_neg (by omega), if_neg (by omega), if_neg (by omega)]
  · rw [if_neg (by omega), if_neg (by omega), if_neg (by omega)]

/-! ## Rows -/

/-- A row of a memory of rows of `n` bytes. -/
def rowOf (n : Nat) (m : Nat → UInt8) (s : Nat) : List UInt8 := readSlice m (s * n) n

theorem rowOf_putSlice (hLength : bytes.length = n) (s r : Nat) :
    rowOf n (putSlice m (s * n) bytes) r = if r = s then bytes else rowOf n m r := by
  unfold rowOf readSlice putSlice
  by_cases hEq : r = s
  · subst hEq
    rw [if_pos rfl]
    apply ext_getElem
    · rw [length_map, length_range, hLength]
    intro i hi hi'
    rw [getElem_map, getElem_range, if_pos (by omega), Nat.add_sub_cancel_left,
      getD_eq_getElem _ _ (by omega)]
  rw [if_neg hEq]
  apply map_congr_left
  intro i hi
  have hBound := mem_range.mp hi
  rw [if_neg]
  rcases Nat.lt_or_gt_of_ne hEq with hLt | hGt
  · have hStep := Nat.mul_le_mul_right n (Nat.succ_le_of_lt hLt)
    rw [Nat.succ_mul] at hStep
    omega
  have hStep := Nat.mul_le_mul_right n (Nat.succ_le_of_lt hGt)
  rw [Nat.succ_mul] at hStep
  omega

/-- Writes rows one after the other. -/
def writeRows (n : Nat) (m : Nat → UInt8) (rows : List (Nat × List UInt8)) : Nat → UInt8 :=
  rows.foldl (fun m row => putSlice m (row.1 * n) row.2) m

theorem writeRows_append (m : Nat → UInt8) (rows rows' : List (Nat × List UInt8)) :
    writeRows n m (rows ++ rows') = writeRows n (writeRows n m rows) rows' :=
  foldl_append

variable {rows : List (Nat × List UInt8)} {r : Nat}

theorem rowOf_writeRows_of_not_mem
    (hRows : ∀ row ∈ rows, row.2.length = n) (hr : ∀ row ∈ rows, row.1 ≠ r) :
    rowOf n (writeRows n m rows) r = rowOf n m r := by
  induction rows generalizing m with
  | nil => rfl
  | cons row rows ih =>
    have hFirst := rowOf_putSlice (m := m) (hRows row mem_cons_self) row.1 r
    rw [if_neg (Ne.symm (hr row mem_cons_self))] at hFirst
    show rowOf n (writeRows n (putSlice m (row.1 * n) row.2) rows) r = _
    rw [ih (fun a ha => hRows a (mem_cons_of_mem _ ha))
      (fun a ha => hr a (mem_cons_of_mem _ ha)), hFirst]

theorem rowOf_writeRows_of_all (hRows : ∀ row ∈ rows, row.2.length = n) {v : List UInt8}
    (hAll : ∀ row ∈ rows, row.1 = r → row.2 = v) (hSome : ∃ row ∈ rows, row.1 = r) :
    rowOf n (writeRows n m rows) r = v := by
  induction rows generalizing m with
  | nil =>
    obtain ⟨row, hRow, -⟩ := hSome
    cases hRow
  | cons row rows ih =>
    have hRest : ∀ a ∈ rows, a.2.length = n := fun a ha => hRows a (mem_cons_of_mem _ ha)
    show rowOf n (writeRows n (putSlice m (row.1 * n) row.2) rows) r = v
    by_cases hLater : ∃ a ∈ rows, a.1 = r
    · exact ih hRest (fun a ha => hAll a (mem_cons_of_mem _ ha)) hLater
    have hNone : ∀ a ∈ rows, a.1 ≠ r := fun a ha hEq => hLater ⟨a, ha, hEq⟩
    have hHead : row.1 = r := by
      obtain ⟨a, ha, hEq⟩ := hSome
      rcases mem_cons.mp ha with rfl | hMem
      · exact hEq
      · exact absurd hEq (hNone a hMem)
    rw [rowOf_writeRows_of_not_mem hRest hNone,
      rowOf_putSlice (hRows row mem_cons_self), if_pos hHead.symm]
    exact hAll row mem_cons_self hHead

/-- Of the writes to one row the last one remains. -/
theorem rowOf_writeRows {before after : List (Nat × List UInt8)} {row : Nat × List UInt8}
    (hRows : ∀ a ∈ before ++ row :: after, a.2.length = n) (hLast : ∀ a ∈ after, a.1 ≠ row.1) :
    rowOf n (writeRows n m (before ++ row :: after)) row.1 = row.2 := by
  rw [writeRows_append]
  refine rowOf_writeRows_of_all (fun a ha => hRows a (mem_append_right _ ha)) ?_
    ⟨row, mem_cons_self, rfl⟩
  intro a ha hEq
  rcases mem_cons.mp ha with rfl | hAfter
  · rfl
  · exact absurd hEq (hLast a hAfter)

/-- Bytes outside the rows that are written stay. -/
theorem writeRows_of_not_mem (hRows : ∀ row ∈ rows, row.2.length = n)
    (hk : ∀ row ∈ rows, ¬ (row.1 * n ≤ k ∧ k < row.1 * n + n)) : writeRows n m rows k = m k := by
  induction rows generalizing m with
  | nil => rfl
  | cons row rows ih =>
    have hOutside := hk row mem_cons_self
    rw [← hRows row mem_cons_self] at hOutside
    show writeRows n (putSlice m (row.1 * n) row.2) rows k = m k
    rw [ih (fun a ha => hRows a (mem_cons_of_mem _ ha))
      (fun a ha => hk a (mem_cons_of_mem _ ha))]
    apply putSlice_of_not_mem
    rw [hRows row mem_cons_self] at hOutside ⊢
    exact hOutside

theorem putSlice_rows (m : Nat → UInt8) (s : Nat) {rows : List (List UInt8)}
    (hRows : ∀ row ∈ rows, row.length = n) :
    putSlice m (s * n) rows.flatten = writeRows n m (rows.mapIdx fun i row => (s + i, row)) := by
  induction rows generalizing m s with
  | nil => exact putSlice_nil m (s * n)
  | cons row rows ih =>
    have hNext : s * n + row.length = (s + 1) * n := by
      rw [hRows row mem_cons_self, Nat.succ_mul]
    have hRest := ih (putSlice m (s * n) row) (s + 1) fun a ha =>
      hRows a (mem_cons_of_mem _ ha)
    rw [flatten_cons, putSlice_append, hNext, hRest, mapIdx_cons]
    have hShift : (fun i row => (s + 1 + i, row)) =
        fun i (row : List UInt8) => (s + (i + 1), row) := by
      funext i row
      rw [Nat.add_right_comm, Nat.add_assoc]
    rw [hShift]
    rfl

theorem readSlice_rows (m : Nat → UInt8) (n s count : Nat) :
    readSlice m (s * n) (count * n) = ((range' s count).map (rowOf n m)).flatten := by
  induction count generalizing s with
  | zero => simp [readSlice]
  | succ count ih =>
    have hFirst : (count + 1) * n = n + count * n := by
      rw [Nat.succ_mul, Nat.add_comm]
    have hNext : s * n + n = (s + 1) * n := (Nat.succ_mul s n).symm
    rw [hFirst, readSlice_add, hNext, ih, range'_succ, map_cons]
    rfl

/-! ## Staged writes -/

/-- A staged write. -/
inductive TensorWrite
  | set (off : Nat) (bytes : List UInt8)
  | clear (off size : Nat)

def TensorWrite.apply (m : Nat → UInt8) : TensorWrite → Nat → UInt8
  | .set off bytes => putSlice m off bytes
  | .clear off size => putSlice m off (List.replicate size 0)

/-- The memory after a commit. -/
def commitWrites (m : Nat → UInt8) (ws : List TensorWrite) : Nat → UInt8 :=
  ws.foldl TensorWrite.apply m

theorem commitWrites_append (m : Nat → UInt8) (ws ws' : List TensorWrite) :
    commitWrites m (ws ++ ws') = commitWrites (commitWrites m ws) ws' :=
  foldl_append

/-- The write of one row. -/
def rowWrite (n : Nat) (row : Nat × List UInt8) : TensorWrite := .set (row.1 * n) row.2

theorem commitWrites_rows (m : Nat → UInt8) (rows : List (Nat × List UInt8)) :
    commitWrites m (rows.map (rowWrite n)) = writeRows n m rows := by
  unfold commitWrites writeRows
  rw [foldl_map]
  rfl

namespace StagedReader

variable {ε α β : Type} {x : StagedReader TensorWrite ε α} {more rest : List UInt8} {a : α} {b : β}
  {ws ws' : List TensorWrite}

/-- The reader takes exactly these bytes off a stream and stages exactly these writes. -/
def Delivers (x : StagedReader TensorWrite ε α) (bytes : List UInt8) (a : α)
    (ws : List TensorWrite) : Prop :=
  ∀ rest, x (bytes ++ rest) = .ok (a, ws, rest)

variable {f : α → StagedReader TensorWrite ε β}

theorem run_bind_ok (hx : x bytes = .ok (a, ws, more))
    (hf : f a more = .ok (b, ws', rest)) : (x >>= f) bytes = .ok (b, ws ++ ws', rest) := by
  change StagedReader.bind x f bytes = _
  unfold StagedReader.bind
  rw [hx]
  dsimp only
  rw [hf]

theorem Delivers.bind (hx : Delivers x bytes a ws)
    (hf : Delivers (f a) more b ws') : Delivers (x >>= f) (bytes ++ more) b (ws ++ ws') := by
  intro rest
  rw [append_assoc]
  exact run_bind_ok (hx _) (hf rest)

theorem delivers_pure (a : α) : Delivers (Pure.pure a : StagedReader TensorWrite ε α) [] a [] :=
  fun _ => rfl

theorem delivers_stage (w : TensorWrite) :
    Delivers (stage w : StagedReader TensorWrite ε Unit) [] () [w] := fun _ => rfl

theorem delivers_take (eof : ε) (h : bytes.length = n) :
    Delivers (take eof n : StagedReader TensorWrite ε _) bytes bytes [] := consumes_take eof h

theorem Delivers.bind_nil (hx : Delivers x [] a [])
    (hf : Delivers (f a) bytes b ws) : Delivers (x >>= f) bytes b ws := hx.bind hf

theorem Delivers.bind_pure {g : α → β} (hx : Delivers x bytes a ws) :
    Delivers (x >>= fun v => Pure.pure (g v)) bytes (g a) ws := by
  have hBind := hx.bind (f := fun v => (Pure.pure (g v) : StagedReader TensorWrite ε β))
    (delivers_pure (g a))
  rw [append_nil, append_nil] at hBind
  exact hBind

theorem delivers_stage_bind {f : Unit → StagedReader TensorWrite ε β} (w : TensorWrite)
    (hf : Delivers (f ()) bytes b ws) : Delivers (stage w >>= f) bytes b (w :: ws) :=
  (delivers_stage w).bind hf

theorem delivers_take_bind {f : List UInt8 → StagedReader TensorWrite ε β} (eof : ε)
    (h : bytes.length = n) (hf : Delivers (f bytes) more b ws) :
    Delivers (take eof n >>= f) (bytes ++ more) b ws := (delivers_take eof h).bind hf

theorem Delivers.check_bind {p : Prop} [Decidable p] {f : Unit → StagedReader TensorWrite ε β}
    (hp : p) (e : ε) (hf : Delivers (f ()) bytes b ws) : Delivers (check p e >>= f) bytes b ws := by
  intro rest
  rw [run_check hp e]
  exact hf rest

theorem delivers_forM_stage {γ : Type} (f : γ → TensorWrite) (l : List γ) :
    Delivers (l.forM fun c => (stage (f c) : StagedReader TensorWrite ε PUnit)) [] ⟨⟩ (l.map f) := by
  induction l with
  | nil => exact delivers_pure PUnit.unit
  | cons c l ih => exact (delivers_stage (f c)).bind ih

end StagedReader

end Beellama.Verified
