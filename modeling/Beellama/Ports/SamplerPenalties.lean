import Beellama.Ports.SamplerRing
import Beellama.Verified.CountedMap
import Mathlib.Data.Finset.Sort
import Mathlib.Data.Int.Interval
import Mathlib.Data.List.Induction

/-!
# The penalties sampler

`llama_sampler_penalties` counts the last tokens in a map that follows a ring buffer.  The graph of
the backend gets the map as arrays of a fixed size, which it scatters into a table with a row for
each token of the vocabulary; the table has the counts of the map (`run_scatters`).  What the host
and the graph do to the logits with these counts is floating-point arithmetic and is left out.
-/

namespace Beellama.Ports

open Beellama.Verified List RingBuffer

/-- `llama_sampler_penalties` with `penalty_last_n` as the capacity of `prev`; its penalties are
floats that no part of the counting reads. -/
structure PenaltiesSampler where
  nVocab : Nat
  prev : RingBuffer Int
  tokenCount : CountedMap Int := ∅

namespace PenaltiesSampler

/-- `llama_sampler_init_penalties`, which makes an empty sampler where `penalty_last_n` is 0. -/
def init (nVocab penaltyLastN : Nat) (h : 0 < penaltyLastN) : PenaltiesSampler where
  nVocab
  prev := { capacity := penaltyLastN, capacity_pos := h, data := fun _ => 0 }

/-- `llama_sampler_penalties_accept`; a full ring has a front. -/
def accept (s : PenaltiesSampler) (token : Int) : PenaltiesSampler :=
  let tokenCount := s.tokenCount.incr token
  { s with
    tokenCount := if s.prev.capacity ≤ s.prev.sz then s.prev.front.elim tokenCount tokenCount.decr
      else tokenCount
    prev := s.prev.pushBack token }

/-- `llama_sampler_penalties_reset` -/
def reset (s : PenaltiesSampler) : PenaltiesSampler :=
  { s with prev := s.prev.clear, tokenCount := ∅ }

/-- `n_max` -/
def nMax (s : PenaltiesSampler) : Nat := min s.prev.capacity s.nVocab

/-- `host_token_ids` and `host_counts` as `llama_sampler_penalties_backend_set_input` leaves them,
`none` where an assertion fails: the map does not fit, or the filler is outside the vocabulary. -/
def setInput (s : PenaltiesSampler) : Option (List (Int × Nat)) :=
  let entries := s.tokenCount.keys.sort.map fun id => (id, (s.tokenCount.lookup id).getD 0)
  if entries.length < s.nMax then
    ((List.range s.nVocab).find? fun filler : Nat => (filler : Int) ∉ s.tokenCount.keys).map
      fun filler => entries ++ replicate (s.nMax - entries.length) ((filler : Int), 0)
  else if entries.length = s.nMax then some entries else none

/-- `ggml_set_rows` of the counts into rows of one value; the order of the writes is not specified. -/
def setRows (rows : List Nat) (writes : List (Int × Nat)) : List Nat :=
  writes.foldl (fun rows e => rows.set e.1.toNat e.2) rows

/-- The calls of a run. -/
inductive Call where
  | accept (token : Int)
  | reset

def step (s : PenaltiesSampler) : Call → PenaltiesSampler
  | .accept token => s.accept token
  | .reset => s.reset

/-- What a run has accepted since it was reset. -/
def accepted (calls : List Call) : List Int :=
  calls.foldl (fun h call => match call with
    | .accept token => h ++ [token]
    | .reset => []) []

/-- The ring holds a window, and the map its counts. -/
structure Counted (s : PenaltiesSampler) (window : List Int) : Prop where
  holds : s.prev.Holds window
  counts : s.tokenCount.Represents fun token => window.count token

variable {nVocab n : Nat} {s : PenaltiesSampler} {window : List Int}

theorem Counted.accept (h : Counted s window) (token : Int) :
    Counted (s.accept token) (lastN s.prev.capacity (window ++ [token])) := by
  refine ⟨h.holds.pushBack, ?_⟩
  have hIncr : (s.tokenCount.incr token).Represents fun t => (window ++ [token]).count t :=
    h.counts.incr (by simp) fun t ht => by simp [Ne.symm ht]
  have hLen := h.holds.sz_eq
  have hLe := h.holds.sz_le
  unfold PenaltiesSampler.accept
  dsimp only
  split
  · rename_i hFull
    cases window with
    | nil => exact absurd s.prev.capacity_pos (by simp at hLen; omega)
    | cons old window =>
      rw [length_cons] at hLen
      have hFront : s.prev.front = some old := by
        have hOld := h.holds.get 0 (Nat.succ_pos _)
        rw [Nat.add_zero, Nat.mod_eq_of_lt h.holds.first_lt] at hOld
        rw [front, if_neg (by omega), ← hOld]
        rfl
      have hLast : lastN s.prev.capacity (old :: window ++ [token]) = window ++ [token] := by
        rw [lastN, show (old :: window ++ [token]).length - s.prev.capacity = 1 by simp; omega]
        rfl
      rw [hFront, hLast]
      exact hIncr.decr (by simp) fun t ht => by simp [Ne.symm ht]
  · rename_i hRoom
    rwa [lastN, Nat.sub_eq_zero_of_le (by simp; omega), drop_zero]

theorem run_counted (h : 0 < n) (calls : List Call) :
    let s := calls.foldl step (init nVocab n h)
    s.nVocab = nVocab ∧ s.prev.capacity = n ∧ Counted s (lastN n (accepted calls)) := by
  have hEmpty : ∀ {s : PenaltiesSampler}, Counted s.reset (lastN n []) := by
    intro s
    rw [lastN, drop_nil]
    exact ⟨clear_holds, CountedMap.Represents.empty⟩
  induction calls using reverseRecOn with
  | nil => exact ⟨rfl, rfl, hEmpty (s := init nVocab n h)⟩
  | append_singleton calls call ih =>
    obtain ⟨hVocab, hCapacity, hCounted⟩ := ih
    rw [foldl_append, accepted, foldl_append]
    cases call with
    | accept token =>
      refine ⟨hVocab, pushBack_capacity.trans hCapacity, ?_⟩
      have hAccept := hCounted.accept token
      rw [hCapacity, ← lastN_append h] at hAccept
      exact hAccept
    | reset => exact ⟨hVocab, hCapacity, hEmpty⟩

theorem Counted.keys (h : Counted s window) : s.tokenCount.keys = window.toFinset := by
  ext token
  rw [h.counts.mem_keys, mem_toFinset, ← count_pos_iff, Nat.pos_iff_ne_zero]

/-- The tokens of a window in order with their counts, filled up by another token. -/
def padded (window : List Int) (size filler : Nat) : List (Int × Nat) :=
  (window.toFinset.sort.map fun token => (token, window.count token)) ++
    replicate (size - window.toFinset.card) ((filler : Int), 0)

theorem exists_filler (h : window.toFinset.card < n) : ∃ filler < n, (filler : Int) ∉ window := by
  by_contra hNone
  have hSub : (Finset.range n).map Nat.castEmbedding ⊆ window.toFinset := by
    intro token hToken
    obtain ⟨k, hk, rfl⟩ := Finset.mem_map.mp hToken
    by_contra hNot
    exact hNone ⟨k, Finset.mem_range.mp hk, fun hMem => hNot (mem_toFinset.mpr hMem)⟩
  have hAll := Finset.card_le_card hSub
  rw [Finset.card_map, Finset.card_range] at hAll
  omega

/-- Tokens of the vocabulary fit into the arrays, with a filler where there is room left. -/
theorem Counted.setInput (h : Counted s window)
    (hTokens : ∀ token ∈ window, 0 ≤ token ∧ token < s.nVocab) :
    window.toFinset.card ≤ s.nMax ∧ ∃ filler : Nat, (filler : Int) ∉ window ∧
      (window.toFinset.card < s.nMax → filler < s.nVocab) ∧
      s.setInput = some (padded window s.nMax filler) := by
  have hRing : window.toFinset.card ≤ s.prev.capacity :=
    (toFinset_card_le window).trans (h.holds.sz_eq ▸ h.holds.sz_le)
  have hVocab : window.toFinset.card ≤ s.nVocab := by
    have hSub : window.toFinset ⊆ Finset.Ico 0 (s.nVocab : Int) := fun token hToken =>
      Finset.mem_Ico.mpr (hTokens token (mem_toFinset.mp hToken))
    simpa using Finset.card_le_card hSub
  have hEntries : (s.tokenCount.keys.sort.map fun id => (id, (s.tokenCount.lookup id).getD 0)) =
      window.toFinset.sort.map fun token => (token, window.count token) := by
    rw [h.keys]
    refine map_congr_left fun token _ => ?_
    rw [h.counts token]
    split <;> simp_all
  have hCard : window.toFinset.card ≤ s.nMax := le_min hRing hVocab
  refine ⟨hCard, ?_⟩
  unfold PenaltiesSampler.setInput padded
  rw [hEntries, h.keys]
  simp only [length_map, Finset.length_sort, mem_toFinset]
  rcases Nat.lt_or_eq_of_le hCard with hLt | hEq
  · obtain ⟨k, hk, hNot⟩ := exists_filler (lt_of_lt_of_le hLt (Nat.min_le_right _ _))
    have hSome : ((range s.nVocab).find? fun filler : Nat => (filler : Int) ∉ window).isSome :=
      find?_isSome.mpr ⟨k, mem_range.mpr hk, decide_eq_true hNot⟩
    obtain ⟨filler, hFiller⟩ := Option.isSome_iff_exists.mp hSome
    rw [if_pos hLt, hFiller]
    exact ⟨filler, by simpa using find?_some hFiller,
      fun _ => mem_range.mp (mem_of_find?_eq_some hFiller), rfl⟩
  obtain ⟨filler, -, hNot⟩ := exists_filler (Nat.lt_succ_self window.toFinset.card)
  rw [if_neg (by omega), if_pos hEq, hEq]
  exact ⟨filler, hNot, fun hLt => absurd hLt (by omega), by simp⟩

/-! ## The graph -/

/-- Each write of a row has the same value, so their order plays no part. -/
theorem getElem?_setRows {f : Int → Nat} {writes : List (Int × Nat)}
    (h : ∀ e ∈ writes, 0 ≤ e.1 ∧ e.2 = f e.1) (rows : List Nat) (j : Nat) :
    (setRows rows writes)[j]? =
      if (j : Int) ∈ writes.map Prod.fst then rows[j]?.map fun _ => f j else rows[j]? := by
  induction writes generalizing rows with
  | nil => simp [setRows]
  | cons e writes ih =>
    obtain ⟨hNonneg, hValue⟩ := h e mem_cons_self
    have hRest := ih (fun e' he => h e' (mem_cons_of_mem _ he)) (rows.set e.1.toNat e.2)
    rw [setRows, foldl_cons]
    refine hRest.trans ?_
    by_cases hj : e.1 = j
    · rw [hValue, hj, Int.toNat_natCast, map_cons, hj, if_pos mem_cons_self]
      by_cases hLt : j < rows.length
      · simp [hLt]
      · simp [hLt]
    have hNe : e.1.toNat ≠ j := by omega
    have hMem : (j : Int) ∈ (e :: writes).map Prod.fst ↔ (j : Int) ∈ writes.map Prod.fst := by
      rw [map_cons, mem_cons, or_iff_right (Ne.symm hj)]
    rw [getElem?_set_ne hNe, if_congr hMem rfl rfl]

/-- The rows of a table of zeros get the counts of the window, in whatever order the places of the
arrays are written. -/
theorem setRows_padded {filler : Nat} (hTokens : ∀ token ∈ window, 0 ≤ token)
    (hFiller : (filler : Int) ∉ window) {writes : List (Int × Nat)}
    (hWrites : writes.Perm (padded window n filler)) :
    setRows (replicate nVocab 0) writes =
      (range nVocab).map fun j : Nat => window.count (j : Int) := by
  have hValues : ∀ e ∈ writes, 0 ≤ e.1 ∧ e.2 = window.count e.1 := by
    intro e he
    rcases mem_append.mp (hWrites.mem_iff.mp he) with hSorted | hFilled
    · obtain ⟨token, hToken, rfl⟩ := mem_map.mp hSorted
      exact ⟨hTokens token (mem_toFinset.mp ((Finset.mem_sort _).mp hToken)), rfl⟩
    · rw [eq_of_mem_replicate hFilled]
      exact ⟨Int.natCast_nonneg _, by rw [count_eq_zero_of_not_mem hFiller]⟩
  apply ext_getElem?
  intro j
  rw [getElem?_setRows (f := fun id => window.count id) hValues]
  by_cases hj : j < nVocab
  · rw [getElem?_map, getElem?_range hj, getElem?_replicate, if_pos hj]
    split
    · rfl
    rename_i hNot
    have hOut : (j : Int) ∉ window := fun hMem => hNot (by
      rw [(hWrites.map Prod.fst).mem_iff]
      simp only [padded, map_append, map_map, mem_append, mem_map]
      exact Or.inl ⟨j, (Finset.mem_sort _).mpr (mem_toFinset.mpr hMem), rfl⟩)
    rw [Option.map_some, count_eq_zero_of_not_mem hOut]
  · simp [hj]

end PenaltiesSampler

end Beellama.Ports
