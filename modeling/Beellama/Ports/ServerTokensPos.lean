import Beellama.Ports.PromptCacheRuns
import Mathlib.Data.List.Sort

/-!
# Positions in `server_tokens`

A media chunk takes its tokens of the index and its positions of the position.
`pos_next` and `size_up_to_pos` walk over the elements of a value from its start; a
walk (`Path`) stops at every index that is not inside a chunk, with one position for
each (`Placed.path`, `Path.position`).
-/

namespace Beellama.Ports

open Beellama.Verified List Option OrderedMap ServerTokens

/-- The interface of `mtmd_input_chunk`, with the positions of a chunk. -/
structure MtmdPos (χ : Type) extends Mtmd χ where
  /-- `mtmd_input_chunk_get_n_pos`, a `llama_pos` -/
  nPos : χ → Int32

namespace ServerTokens

/-- The greatest `llama_pos`. -/
def greatestPos : Int := 2 ^ 31 - 1

variable {χ : Type} (mtmd : MtmdPos χ)

/-- The body of the loops: what comes behind the element at an index. -/
def advance (s : ServerTokens χ) (idx : Nat) (pos : Int32) : Nat × Int32 :=
  match s.media.find idx with
  | some c => (idx + mtmd.nTokens c, pos + mtmd.nPos c)
  | none => (idx + 1, pos + 1)

/-- The loop of `pos_next`; without a result it does not end. -/
def posLoop (s : ServerTokens χ) (nTokens : Nat) : Nat → Nat → Int32 → Option Int32
  | 0, _, _ => none
  | turns + 1, idx, pos =>
    if nTokens ≤ idx then some pos
    else posLoop s nTokens turns (s.advance mtmd idx pos).1 (s.advance mtmd idx pos).2

/-- `pos_next`; it asserts that there are `nTokens` tokens. -/
def posNext (s : ServerTokens χ) (nTokens : Int) : Option Int32 :=
  if s.hasMtmd then
    if nTokens < 0 then
      some (s.media.entries.foldl
        (fun res e => res + (mtmd.nPos e.2 - Int32.ofNat (mtmd.nTokens e.2))) (Int32.ofNat s.size))
    else if nTokens ≤ s.size then s.posLoop mtmd nTokens.toNat (nTokens.toNat + 1) 0 0
    else none
  else if nTokens < 0 then some (Int32.ofNat s.size)
  else some (Int32.ofInt nTokens)

/-- The loop of `size_up_to_pos`; without a result it does not end. -/
def sizeLoop (s : ServerTokens χ) (maxPos : Int32) : Nat → Nat → Int32 → Option Nat
  | 0, _, _ => none
  | turns + 1, idx, pos =>
    if idx < s.size then
      if maxPos ≤ (s.advance mtmd idx pos).2 then some (s.advance mtmd idx pos).1
      else sizeLoop s maxPos turns (s.advance mtmd idx pos).1 (s.advance mtmd idx pos).2
    else some idx

/-- `size_up_to_pos`; without media the position becomes a `size_t`. -/
def sizeUpToPos (s : ServerTokens χ) (maxPos : Int32) : Option Nat :=
  if s.hasMtmd then s.sizeLoop mtmd maxPos (s.size + 1) 0 0
  else some (min (maxPos.toInt % 2 ^ 64).toNat s.size)

/-! ## Walks over the elements -/

variable {s : ServerTokens χ} {flag : Bool} {i j k : Nat} {p q : Int}

/-- The tokens of the element at an index. -/
def width (s : ServerTokens χ) (i : Nat) : Nat :=
  match s.media.find i with
  | some c => mtmd.nTokens c
  | none => 1

/-- The positions of the element at an index. -/
def gain (s : ServerTokens χ) (i : Nat) : Int :=
  match s.media.find i with
  | some c => (mtmd.nPos c).toInt
  | none => 1

/-- A walk from one index to another, with the positions at both. -/
inductive Path (s : ServerTokens χ) : Nat → Int → Nat → Int → Prop
  | refl (i : Nat) (p : Int) : Path s i p i p
  | step {i j : Nat} {p q : Int} (hi : i < s.size)
      (h : Path s (i + s.width mtmd i) (p + s.gain mtmd i) j q) : Path s i p j q

/-- A value whose chunks have positions. -/
structure Placed (flag : Bool) (s : ServerTokens χ) : Prop where
  valid : s.Valid mtmd.toMtmd flag
  positions : ∀ e ∈ s.media.entries, 0 < mtmd.nPos e.2

/-- An index that no chunk runs across. -/
def Boundary (s : ServerTokens χ) (k : Nat) : Prop := k ≤ s.size ∧ ¬s.Inside mtmd.toMtmd k

variable {mtmd}

theorem advance_ofInt (i : Nat) (p : Int) :
    s.advance mtmd i (Int32.ofInt p) =
      (i + s.width mtmd i, Int32.ofInt (p + s.gain mtmd i)) := by
  unfold advance width gain
  cases s.media.find i with
  | none => rw [Int32.ofInt_add]; rfl
  | some c => rw [Int32.ofInt_add, Int32.ofInt_toInt]

theorem gain_lt (s : ServerTokens χ) (i : Nat) : s.gain mtmd i < 2 ^ 31 := by
  unfold gain
  cases s.media.find i with
  | none =>
    show (1 : Int) < 2 ^ 31
    decide
  | some c => exact (mtmd.nPos c).toInt_lt

namespace Placed

variable (h : s.Placed mtmd flag)

include h

theorem within {e : Nat × χ} (he : e ∈ s.media.entries) :
    0 < mtmd.nTokens e.2 ∧ e.1 + mtmd.nTokens e.2 ≤ s.size := by
  cases flag with
  | true => exact (h.valid.formed rfl).within e he
  | false =>
    rw [h.valid.plain rfl] at he
    exact absurd he not_mem_nil

theorem width_pos (i : Nat) : 0 < s.width mtmd i := by
  unfold width
  cases hFind : s.media.find i with
  | none => exact Nat.one_pos
  | some c => exact (h.within (mem_entries.mpr hFind)).1

theorem gain_pos (i : Nat) : 0 < s.gain mtmd i := by
  unfold gain
  cases hFind : s.media.find i with
  | none => exact Int.one_pos
  | some c =>
    have hPos := h.positions _ (mem_entries.mpr hFind)
    rwa [Int32.lt_iff_toInt_lt] at hPos

theorem next_le (hi : i < s.size) : i + s.width mtmd i ≤ s.size := by
  unfold width
  cases hFind : s.media.find i with
  | none => exact hi
  | some c => exact (h.within (mem_entries.mpr hFind)).2

theorem boundary_next (hi : ¬s.Inside mtmd.toMtmd i) :
    ¬s.Inside mtmd.toMtmd (i + s.width mtmd i) := by
  unfold width
  cases hFind : s.media.find i with
  | none =>
    rintro ⟨e, he, hBefore, hAfter⟩
    dsimp only at hBefore hAfter
    by_cases hStart : e.1 = i
    · have hSome : s.media.find i = some e.2 := mem_entries.mp (hStart ▸ he)
      rw [hFind] at hSome
      exact absurd hSome (by simp)
    · exact hi ⟨e, he, by omega, by omega⟩
  | some c =>
    cases flag with
    | true => exact (h.valid.formed rfl).boundary_chunk hFind
    | false =>
      have hMem := mem_entries.mpr hFind
      rw [h.valid.plain rfl] at hMem
      exact absurd hMem not_mem_nil

/-- A walk reaches every boundary. -/
theorem path (hj : s.Boundary mtmd j) (n : Nat) :
    ∀ i p, j ≤ i + n → i ≤ j → ¬s.Inside mtmd.toMtmd i → ∃ q, s.Path mtmd i p j q := by
  induction n with
  | zero =>
    intro i p hn hij _
    obtain rfl : i = j := by omega
    exact ⟨p, .refl i p⟩
  | succ n ih =>
    intro i p hn hij hi
    rcases Nat.eq_or_lt_of_le hij with rfl | hLt
    · exact ⟨p, .refl i p⟩
    have hSize := hj.1
    have hWidth := h.width_pos i
    have hNext : i + s.width mtmd i ≤ j := by
      by_contra hGt
      refine hj.2 ?_
      unfold width at hGt
      cases hFind : s.media.find i with
      | none =>
        rw [hFind] at hGt
        dsimp only at hGt
        omega
      | some c =>
        rw [hFind] at hGt
        exact ⟨(i, c), mem_entries.mpr hFind, hLt, by dsimp only at hGt ⊢; omega⟩
    obtain ⟨q, hPath⟩ := ih (i + s.width mtmd i) (p + s.gain mtmd i) (by omega) hNext
      (h.boundary_next hi)
    exact ⟨q, .step (by omega) hPath⟩

omit h in
theorem not_inside_zero : ¬s.Inside mtmd.toMtmd 0 :=
  fun ⟨_, _, hBefore, _⟩ => absurd hBefore (Nat.not_lt_zero _)

theorem path_zero (hk : s.Boundary mtmd k) : ∃ q, s.Path mtmd 0 0 k q :=
  h.path hk k 0 0 (by omega) (Nat.zero_le k) not_inside_zero

end Placed

namespace Path

variable (h : s.Path mtmd i p j q)

include h

theorem trans {m : Nat} {r : Int} (h' : s.Path mtmd j q m r) : s.Path mtmd i p m r := by
  induction h with
  | refl => exact h'
  | step hi _ ih => exact .step hi (ih h')

variable (hPlaced : s.Placed mtmd flag)

include hPlaced

theorem order : (i = j ∧ p = q) ∨ (i < j ∧ p < q) := by
  induction h with
  | refl => exact .inl ⟨rfl, rfl⟩
  | @step i j p q _ _ ih =>
    have hWidth := hPlaced.width_pos i
    have hGain := hPlaced.gain_pos i
    rcases ih with ⟨hj, hq⟩ | ⟨hj, hq⟩
    · exact .inr ⟨by omega, by omega⟩
    · exact .inr ⟨by omega, by omega⟩

theorem posLoop : ∀ turns, j < i + turns →
      s.posLoop mtmd j turns i (Int32.ofInt p) = some (Int32.ofInt q) := by
  induction h with
  | refl i p =>
    intro turns hTurns
    cases turns with
    | zero => omega
    | succ turns =>
      unfold ServerTokens.posLoop
      rw [if_pos (Nat.le_refl i)]
  | @step i j p q hi hRest ih =>
    intro turns hTurns
    have hWidth := hPlaced.width_pos i
    have hNext := hRest.order hPlaced
    cases turns with
    | zero => omega
    | succ turns =>
      unfold ServerTokens.posLoop
      rw [if_neg (by omega), advance_ofInt]
      exact ih turns (by omega)

/-- `size_up_to_pos` stops where the walk has the position that it is given. -/
theorem sizeLoop (hp : 0 ≤ p) (hq : q ≤ greatestPos) (hij : i < j) :
    ∀ turns, j < i + turns →
      s.sizeLoop mtmd (Int32.ofInt q) turns i (Int32.ofInt p) = some j := by
  induction h with
  | refl i p => exact absurd hij (lt_irrefl i)
  | @step i j p q hi hRest ih =>
    intro turns hTurns
    have hWidth := hPlaced.width_pos i
    have hGain := hPlaced.gain_pos i
    have hInt : ∀ n : Int, 0 ≤ n → n ≤ q → (Int32.ofInt n).toInt = n := by
      intro n hn hnq
      unfold greatestPos at hq
      exact Int32.toInt_ofInt_of_le (by omega) (by omega)
    cases turns with
    | zero => omega
    | succ turns =>
      unfold ServerTokens.sizeLoop
      rw [if_pos hi, advance_ofInt]
      rcases hRest.order hPlaced with ⟨hj, hEnd⟩ | ⟨hj, hBehind⟩
      · rw [hEnd, if_pos (Int32.le_refl _), hj]
      have hMore : ¬Int32.ofInt q ≤ Int32.ofInt (p + s.gain mtmd i) := by
        rw [Int32.le_iff_toInt_le, hInt q (by omega) (Int.le_refl q), hInt _ (by omega) (by omega)]
        omega
      rw [if_neg hMore]
      exact ih (by omega) hq hj turns (by omega)

end Path

/-! ## The position at the end of a walk -/

/-- What a chunk adds to the position beyond its tokens. -/
def surplus (mtmd : MtmdPos χ) (e : Nat × χ) : Int := (mtmd.nPos e.2).toInt - mtmd.nTokens e.2

/-- The surplus of the chunks that start between two indices. -/
def surplusBetween (mtmd : MtmdPos χ) (s : ServerTokens χ) (i j : Nat) : Int :=
  ((s.media.entries.filter fun e => i ≤ e.1 ∧ e.1 < j).map (surplus mtmd)).sum

/-- The positions of a value. -/
def positions (mtmd : MtmdPos χ) (s : ServerTokens χ) : Int :=
  s.size + (s.media.entries.map (surplus mtmd)).sum

theorem surplusBetween_split {m : Nat} (hij : i ≤ j) (hjm : j ≤ m) :
    s.surplusBetween mtmd i m = s.surplusBetween mtmd i j + s.surplusBetween mtmd j m := by
  unfold surplusBetween
  induction s.media.entries with
  | nil => rfl
  | cons e rest ih =>
    rw [filter_cons, filter_cons, filter_cons]
    by_cases hLow : i ≤ e.1 ∧ e.1 < j
    · rw [if_pos (decide_eq_true ⟨hLow.1, by omega⟩), if_pos (decide_eq_true hLow),
        if_neg (by rw [decide_eq_true_eq]; omega), map_cons, map_cons, sum_cons,
        sum_cons, ih]
      omega
    by_cases hHigh : j ≤ e.1 ∧ e.1 < m
    · rw [if_pos (decide_eq_true ⟨by omega, hHigh.2⟩), if_neg (by rw [decide_eq_true_eq]; omega),
        if_pos (decide_eq_true hHigh), map_cons, map_cons, sum_cons, sum_cons]
      omega
    · rw [if_neg (by rw [decide_eq_true_eq]; omega), if_neg (by rw [decide_eq_true_eq]; omega),
        if_neg (by rw [decide_eq_true_eq]; omega), ih]

theorem Placed.surplus_step (h : s.Placed mtmd flag) (i : Nat) :
    s.surplusBetween mtmd i (i + s.width mtmd i) = s.gain mtmd i - s.width mtmd i := by
  unfold surplusBetween width gain
  cases hFind : s.media.find i with
  | none =>
    have hNone : (s.media.entries.filter fun e => i ≤ e.1 ∧ e.1 < i + 1) = [] := by
      rw [filter_eq_nil_iff]
      intro e he hHere
      rw [decide_eq_true_eq] at hHere
      have hStart : e.1 = i := by omega
      have hSome : s.media.find i = some e.2 := mem_entries.mp (hStart ▸ he)
      rw [hFind] at hSome
      exact absurd hSome (by simp)
    rw [hNone]
    rfl
  | some c =>
    have hMem := mem_entries.mpr hFind
    have hOne : (s.media.entries.filter fun e => i ≤ e.1 ∧ e.1 < i + mtmd.nTokens c) =
        [(i, c)] := by
      refine (s.media.sorted.filter _).eq_of_mem_iff (pairwise_singleton _ _) fun e => ?_
      rw [mem_filter, decide_eq_true_eq, mem_singleton]
      constructor
      · rintro ⟨he, hLow, hHigh⟩
        cases flag with
        | true =>
          have hPos := (h.within he).1
          exact (h.valid.formed rfl).covers_unique he hMem
            (show Covers mtmd.toMtmd e e.1 from ⟨Nat.le_refl _, by omega⟩)
            (covers_iff.mpr ⟨hLow, hHigh⟩)
        | false =>
          rw [h.valid.plain rfl] at he
          exact absurd he not_mem_nil
      rintro rfl
      have hPos := (h.within hMem).1
      exact ⟨hMem, Nat.le_refl i, by dsimp only at hPos ⊢; omega⟩
    dsimp only
    rw [hOne, map_singleton, sum_singleton]
    rfl

theorem Path.position (h : s.Path mtmd i p j q) (hPlaced : s.Placed mtmd flag)
    (hi : ¬s.Inside mtmd.toMtmd i) :
    q = p + ((j : Int) - i) + s.surplusBetween mtmd i j := by
  induction h with
  | refl i p =>
    have hNone : (s.media.entries.filter fun e => i ≤ e.1 ∧ e.1 < i) = [] := by
      rw [filter_eq_nil_iff]
      intro e _ hHere
      rw [decide_eq_true_eq] at hHere
      omega
    unfold surplusBetween
    rw [hNone, map_nil, sum_nil]
    omega
  | @step i j p q hLt hRest ih =>
    have hOrder := hRest.order hPlaced
    rw [surplusBetween_split (Nat.le_add_right i (s.width mtmd i)) (by omega),
      hPlaced.surplus_step i, ih (hPlaced.boundary_next hi)]
    omega

theorem Placed.surplus_all (h : s.Placed mtmd flag) :
    s.surplusBetween mtmd 0 s.size = (s.media.entries.map (surplus mtmd)).sum := by
  unfold surplusBetween
  rw [filter_eq_self.mpr]
  intro e he
  have hWithin := h.within he
  rw [decide_eq_true_eq]
  omega

/-! ## `pos_next` and `size_up_to_pos` -/

namespace Placed

variable (h : s.Placed mtmd flag)

include h

theorem size_boundary : s.Boundary mtmd s.size := by
  refine ⟨Nat.le_refl _, ?_⟩
  rintro ⟨e, he, -, hAfter⟩
  have hWithin := h.within he
  omega

theorem plain (hFlag : s.hasMtmd = false) : s.media.entries = [] := by
  cases flag with
  | true => exact absurd (h.valid.hasMtmd.symm.trans hFlag) (by decide)
  | false => exact h.valid.plain rfl

theorem plain_position (hFlag : s.hasMtmd = false) (hPath : s.Path mtmd 0 0 k q) : q = k := by
  have hPosition := hPath.position h not_inside_zero
  unfold surplusBetween at hPosition
  rw [h.plain hFlag, filter_nil, map_nil, sum_nil] at hPosition
  omega

theorem posNext_eq (hk : s.Boundary mtmd k)
    (hPath : s.Path mtmd 0 0 k q) : s.posNext mtmd k = some (Int32.ofInt q) := by
  have hNat : ¬(k : Int) < 0 := by omega
  have hSize : (k : Int) ≤ s.size := Int.ofNat_le.mpr hk.1
  unfold posNext
  cases hFlag : s.hasMtmd with
  | true =>
    rw [if_pos rfl, if_pos hSize]
    exact hPath.posLoop h _ (by omega)
  | false => rw [if_neg (by decide), if_neg hNat, h.plain_position hFlag hPath]

theorem posNext_neg (n : Int) (hn : n < 0) :
    s.posNext mtmd n = some (Int32.ofInt (s.positions mtmd)) := by
  have hFold : ∀ (l : List (Nat × χ)) (r : Int),
      l.foldl (fun res e => res + (mtmd.nPos e.2 - Int32.ofNat (mtmd.nTokens e.2)))
        (Int32.ofInt r) = Int32.ofInt (r + (l.map (surplus mtmd)).sum) := by
    intro l
    induction l with
    | nil => intro r; rw [map_nil, sum_nil, Int.add_zero]; rfl
    | cons e l ih =>
      intro r
      have hStep : Int32.ofInt r + (mtmd.nPos e.2 - Int32.ofNat (mtmd.nTokens e.2)) =
          Int32.ofInt (r + surplus mtmd e) := by
        unfold surplus
        rw [Int32.ofInt_add, Int32.ofInt_sub, Int32.ofInt_toInt, Int32.ofInt_eq_ofNat]
      rw [foldl_cons, hStep, ih, map_cons, sum_cons, Int.add_assoc]
  have hSum := hFold s.media.entries s.size
  unfold posNext
  cases hFlag : s.hasMtmd with
  | true =>
    rw [if_pos hn, ← Int32.ofInt_eq_ofNat, hSum]
    rfl
  | false =>
    rw [if_neg (by decide), if_pos hn]
    unfold ServerTokens.positions
    rw [h.plain hFlag, map_nil, sum_nil, Int.add_zero, Int32.ofInt_eq_ofNat]

theorem posNext_all : s.posNext mtmd (-1) = s.posNext mtmd s.size := by
  obtain ⟨q, hPath⟩ := h.path_zero h.size_boundary
  have hPosition := hPath.position h not_inside_zero
  rw [h.surplus_all] at hPosition
  rw [h.posNext_neg _ (by decide), h.posNext_eq h.size_boundary hPath]
  unfold ServerTokens.positions
  congr 2
  omega

theorem path_le (hk : s.Boundary mtmd k) (hPath : s.Path mtmd 0 0 k q) : q ≤ s.positions mtmd := by
  obtain ⟨r, hRest⟩ := h.path h.size_boundary s.size k q (by omega) hk.1 hk.2
  have hPosition := (hPath.trans hRest).position h not_inside_zero
  rw [h.surplus_all] at hPosition
  unfold ServerTokens.positions
  rcases hRest.order h with ⟨-, hEq⟩ | ⟨-, hLt⟩ <;> omega

/-- A boundary behind some token, from its position. -/
theorem size_of_position (hk : s.Boundary mtmd k)
    (hPath : s.Path mtmd 0 0 k q) (hq : q ≤ greatestPos) (hPos : 0 < k) :
    s.sizeUpToPos mtmd (Int32.ofInt q) = some k := by
  have hSize := hk.1
  unfold sizeUpToPos
  cases hFlag : s.hasMtmd with
  | true =>
    exact hPath.sizeLoop h (Int.le_refl 0) hq hPos _ (by omega)
  | false =>
    have hEq := h.plain_position hFlag hPath
    unfold greatestPos at hq
    rw [if_neg (by decide), Int32.toInt_ofInt_of_le (by omega) (by omega)]
    congr 1
    omega

/-- With media support the loop takes an element before it looks at the position. -/
theorem size_of_zero :
    s.sizeUpToPos mtmd (Int32.ofInt 0) = some 0 ↔ s.size = 0 ∨ s.hasMtmd = false := by
  unfold sizeUpToPos
  cases hFlag : s.hasMtmd with
  | false =>
    have hMin : min ((Int32.ofInt 0).toInt % 2 ^ 64).toNat s.size = 0 := Nat.zero_min s.size
    exact iff_of_true rfl (.inr rfl)
  | true =>
    rw [if_pos rfl]
    unfold sizeLoop
    by_cases hSize : s.size = 0
    · rw [if_neg (by omega)]
      exact iff_of_true rfl (.inl hSize)
    have hGain := h.gain_pos 0
    have hWidth := h.width_pos 0
    have hLt := @gain_lt _ mtmd s 0
    have hReached : Int32.ofInt 0 ≤ Int32.ofInt (0 + s.gain mtmd 0) := by
      rw [Int32.le_iff_toInt_le, Int32.toInt_ofInt_of_le (by omega) (by omega),
        Int32.toInt_ofInt_of_le (by omega) (by omega)]
      omega
    have hStart := @advance_ofInt χ mtmd s 0 0
    rw [if_pos (Nat.pos_of_ne_zero hSize)]
    show (if Int32.ofInt 0 ≤ (s.advance mtmd 0 (Int32.ofInt 0)).2 then
      some (s.advance mtmd 0 (Int32.ofInt 0)).1 else _) = some 0 ↔ _
    rw [hStart]
    rw [if_pos hReached, some.injEq]
    refine iff_of_false (by omega) ?_
    rintro (hZero | hPlain)
    · exact hSize hZero
    · exact absurd hPlain (by decide)

/-- Where the two functions undo each other. -/
theorem round_trip_iff (hFits : s.positions mtmd ≤ greatestPos) (hk : s.Boundary mtmd k) :
    (s.posNext mtmd k).bind (s.sizeUpToPos mtmd) = some k ↔
      0 < k ∨ s.size = 0 ∨ s.hasMtmd = false := by
  obtain ⟨q, hPath⟩ := h.path_zero hk
  have hLe := h.path_le hk hPath
  rw [h.posNext_eq hk hPath, bind_some]
  rcases Nat.eq_zero_or_pos k with rfl | hPos
  · rcases hPath.order h with ⟨-, hZero⟩ | ⟨hLt, -⟩
    · rw [← hZero, h.size_of_zero]
      exact ⟨.inr, fun hCases => hCases.resolve_left (lt_irrefl 0)⟩
    · exact absurd hLt (lt_irrefl 0)
  · exact iff_of_true (h.size_of_position hk hPath (by omega) hPos) (.inl hPos)

end Placed

/-- The positions of boundaries increase. -/
def Increasing (mtmd : MtmdPos χ) (s : ServerTokens χ) : Prop :=
  ∀ j k, s.Boundary mtmd j → s.Boundary mtmd k → j < k →
    ∃ p q, s.posNext mtmd j = some p ∧ s.posNext mtmd k = some q ∧ p < q

namespace Placed

theorem increasing (h : s.Placed mtmd flag) (hFits : s.positions mtmd ≤ greatestPos) :
    s.Increasing mtmd := by
  intro j k hj hk hjk
  obtain ⟨p, hPath⟩ := h.path_zero hj
  obtain ⟨q, hRest⟩ := h.path hk s.size j p (by have := hk.1; omega) (Nat.le_of_lt hjk) hj.2
  have hWhole := hPath.trans hRest
  have hLe := h.path_le hk hWhole
  refine ⟨_, _, h.posNext_eq hj hPath, h.posNext_eq hk hWhole, ?_⟩
  unfold greatestPos at hFits
  rcases hRest.order h with ⟨hEq, -⟩ | ⟨-, hLt⟩
  · omega
  rcases hPath.order h with ⟨-, hp⟩ | ⟨-, hp⟩ <;>
    rw [Int32.lt_iff_toInt_lt, Int32.toInt_ofInt_of_le (by omega) (by omega),
      Int32.toInt_ofInt_of_le (by omega) (by omega)] <;> exact hLt

/-- A position that passes the greatest one falls behind. -/
theorem fits_of_increasing (h : s.Placed mtmd flag) (hIncreasing : s.Increasing mtmd)
    (hPath : s.Path mtmd i p j q) (hStart : s.Path mtmd 0 0 i p) (hi : s.Boundary mtmd i)
    (hp : p ≤ greatestPos) : q ≤ greatestPos := by
  induction hPath with
  | refl => exact hp
  | @step i j p q hLt hRest ih =>
    have hNext : s.Boundary mtmd (i + s.width mtmd i) :=
      ⟨h.next_le hLt, h.boundary_next hi.2⟩
    have hSnoc : s.Path mtmd 0 0 (i + s.width mtmd i) (p + s.gain mtmd i) :=
      hStart.trans (.step hLt (.refl _ _))
    have hWidth := h.width_pos i
    have hGainLt := @gain_lt _ mtmd s i
    refine ih hSnoc hNext ?_
    obtain ⟨x, y, hx, hy, hxy⟩ := hIncreasing i _ hi hNext (by omega)
    rw [h.posNext_eq hi hStart] at hx
    rw [h.posNext_eq hNext hSnoc] at hy
    rw [← some.inj hx, ← some.inj hy, Int32.lt_iff_toInt_lt, Int32.toInt_ofInt,
      Int32.toInt_ofInt, Int.bmod_def, Int.bmod_def] at hxy
    unfold greatestPos at hp ⊢
    have hSize : (Int32.size : Int) = 2 ^ 32 := rfl
    rw [hSize] at hxy
    split at hxy <;> split at hxy <;> omega

theorem increasing_iff (h : s.Placed mtmd flag) :
    s.Increasing mtmd ↔ s.positions mtmd ≤ greatestPos := by
  refine ⟨fun hIncreasing => ?_, h.increasing⟩
  obtain ⟨q, hPath⟩ := h.path_zero h.size_boundary
  have hPosition := hPath.position h not_inside_zero
  rw [h.surplus_all] at hPosition
  have hFits := h.fits_of_increasing hIncreasing hPath (.refl 0 0)
    ⟨Nat.zero_le s.size, not_inside_zero⟩ (by decide)
  unfold ServerTokens.positions
  omega

end Placed

/-! ## The common prefix -/

section Prefix

variable {m : Mtmd χ} {a b : ServerTokens χ} {n : Nat}

/-- No chunk runs across the end of a common prefix. -/
theorem CommonPrefix.not_inside (h : CommonPrefix m a b n) (ha : a.Valid m flag)
    (hb : b.Valid m flag) : ¬a.Inside m n := by
  rintro ⟨e, he, hBefore, hAfter⟩
  cases flag with
  | false =>
    rw [ha.plain rfl] at he
    exact absurd he not_mem_nil
  | true =>
    have hA := ha.formed rfl
    have hB := hb.formed rfl
    obtain ⟨c, hFind, -, hCount⟩ := h.agree.media e he hBefore
    have hMem := mem_entries.mpr hFind
    have hEnd := (hA.within e he).2
    have hEndB := (hB.within _ hMem).2
    dsimp only at hEndB
    have hCover : Covers m e n := ⟨by omega, hAfter⟩
    refine h.maximal (by omega) ⟨fun i hi => ?_, fun e' he' hStart => ?_⟩
    · rcases Nat.lt_succ_iff_lt_or_eq.mp hi with hOld | rfl
      · exact h.agree.tokens i hOld
      · rw [hA.isNull he hCover, hB.isNull hMem (covers_iff.mpr ⟨by omega, by omega⟩)]
    rcases Nat.lt_succ_iff_lt_or_eq.mp hStart with hOld | hHere
    · exact h.agree.media e' he' hOld
    have hPos := (hA.within e' he').1
    have hSame : e' = e := hA.covers_unique he' he ⟨by omega, by omega⟩ hCover
    rw [hSame] at hHere
    omega

/-- The common prefix is the greatest one up to which the values agree. -/
theorem CommonPrefix.greatest (h : CommonPrefix m a b n) {k : Nat}
    (hk : k ≤ min a.size b.size) (hAgree : AgreeTo m a b k) : k ≤ n := by
  by_contra hGt
  exact h.maximal (by omega) (hAgree.mono (by omega))

theorem CommonPrefix.unique (h : CommonPrefix m a b n) {k : Nat} (h' : CommonPrefix m a b k) :
    n = k :=
  Nat.le_antisymm (h'.greatest h.le h.agree) (h.greatest h'.le h'.agree)

end Prefix

/-- Positions and indices of boundaries go back and forth, apart from the start of a value with
media support, as long as the positions are `llama_pos` values; the common prefix is symmetric, a
boundary of both values, and the longest part on which they agree. -/
theorem position_prefix_laws (mtmd : MtmdPos χ) (flag : Bool) :
    (∀ a : ServerTokens χ, a.Placed mtmd flag →
      (a.positions mtmd ≤ greatestPos → ∀ k, a.Boundary mtmd k →
        ((a.posNext mtmd k).bind (a.sizeUpToPos mtmd) = some k ↔
          0 < k ∨ a.size = 0 ∨ flag = false)) ∧
      (a.Increasing mtmd ↔ a.positions mtmd ≤ greatestPos) ∧
      a.posNext mtmd (-1) = a.posNext mtmd a.size) ∧
    ∀ a b : ServerTokens χ, a.Placed mtmd flag → b.Placed mtmd flag →
      ∃ n, a.getCommonPrefix mtmd.toMtmd b = .ok n ∧ b.getCommonPrefix mtmd.toMtmd a = .ok n ∧
        a.Boundary mtmd n ∧ b.Boundary mtmd n ∧ AgreeTo mtmd.toMtmd a b n ∧
          ∀ k ≤ min a.size b.size, AgreeTo mtmd.toMtmd a b k → k ≤ n := by
  refine ⟨fun a ha => ⟨fun hFits k hk => ?_, ha.increasing_iff, ha.posNext_all⟩,
    fun a b ha hb => ?_⟩
  · rw [ha.round_trip_iff hFits hk, ha.valid.hasMtmd]
  obtain ⟨n, hRun, hPrefix⟩ := ha.valid.commonPrefix hb.valid
  obtain ⟨n', hRun', hPrefix'⟩ := hb.valid.commonPrefix ha.valid
  have hSame : n' = n := (hPrefix'.symm hb.valid ha.valid).unique hPrefix
  rw [hSame] at hRun' hPrefix'
  have hLe := hPrefix.le
  exact ⟨n, hRun, hRun', ⟨by omega, hPrefix.not_inside ha.valid hb.valid⟩,
    ⟨by omega, hPrefix'.not_inside hb.valid ha.valid⟩, hPrefix.agree,
    fun k hk hAgree => hPrefix.greatest hk hAgree⟩

/-- Chunks of one position. -/
def onePosition : MtmdPos UInt8 := { TokensOp.countedChunks with nPos := fun _ => 1 }

theorem twoImages_placed : TokensOp.twoImages.Placed onePosition true where
  valid := ⟨rfl, fun _ => TokensOp.twoImages_wellFormed, fun h => absurd h (by decide)⟩
  positions _ _ := show (0 : Int32) < 1 by decide

/-- Between the images the two maps are inverse, and -1 stands for the end. -/
theorem twoImages_laws :
    ((TokensOp.twoImages.posNext onePosition (2 : Nat)).bind
      (TokensOp.twoImages.sizeUpToPos onePosition) = some 2 ↔
        0 < 2 ∨ TokensOp.twoImages.size = 0 ∨ true = false) ∧
    TokensOp.twoImages.posNext onePosition (-1) =
      TokensOp.twoImages.posNext onePosition TokensOp.twoImages.size := by
  have hLaws := (position_prefix_laws onePosition true).1 _ twoImages_placed
  refine ⟨hLaws.1 (by decide) 2 ⟨by decide, ?_⟩, hLaws.2.2⟩
  unfold Inside
  decide

/-- Up to position 0 of a text with media support there is no token, and the count is 1. -/
theorem oneToken_size :
    (ofTokens [7] true : ServerTokens UInt8).Placed onePosition true ∧
      (ofTokens [7] true : ServerTokens UInt8).Boundary onePosition 0 ∧
      (ofTokens [7] true : ServerTokens UInt8).posNext onePosition 0 = some 0 ∧
      (ofTokens [7] true : ServerTokens UInt8).sizeUpToPos onePosition 0 = some 1 := by
  refine ⟨⟨⟨rfl, fun _ => ⟨rfl, ?_, fun e he => absurd he not_mem_nil, .nil⟩,
    fun h => absurd h (by decide)⟩, fun e he => absurd he not_mem_nil⟩,
    ⟨by decide, Placed.not_inside_zero⟩, by decide, by decide⟩
  intro i hi
  obtain rfl : i = 0 := by
    have hLt : i < 1 := hi
    omega
  refine iff_of_false (by decide) ?_
  rintro ⟨e, he, -⟩
  exact absurd he not_mem_nil

end ServerTokens

end Beellama.Ports
