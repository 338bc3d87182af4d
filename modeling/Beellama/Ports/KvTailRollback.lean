import Beellama.Ports.KvTailRuns
import Mathlib.Algebra.Order.Ring.Int

/-!
# Rollbacks of a compact tail

A compact tail with retention `N` and reserve `R` keeps at most `N + R` exact rows of a sequence.  A
suffix removal is accepted when it takes back at most `R` positions from the current maximum; the
reserve is used up by every removal and refilled by one row per commit.  `Rollback` runs one
sequence, and its `debt` is the reserve used up so far.
-/

namespace Beellama.Ports

open Beellama.Verified List

namespace TailStore

/-! ## A commit at the end of the list -/

variable {e : ExactEntry} {identity : TailIdentity} {position : Int}

section Append

variable {cfg : TailConfig} {q next : Nat} {t : SeqTail}

theorem insertCommitted_append {l : List ExactEntry}
    (h : ∀ x ∈ l, x.position < e.position) : insertCommitted e l = l ++ [e] := by
  unfold insertCommitted
  split
  · rfl
  rename_i last hLast
  have hlt := h last (mem_of_getLast? hLast)
  rw [if_pos]
  rw [ExactEntry.le_iff]
  exact Or.inl hlt

theorem trim_of_le {limit : Nat} (h : t.entries.length ≤ limit) : t.trim cfg q limit = t := by
  unfold SeqTail.trim
  rw [Nat.sub_eq_zero_of_le h]
  rfl

/-- Committing a new cell at a position beyond all others drops the oldest entry
if the sequence is full and appends the new one. -/
theorem commitSeq_append (h : SeqOk cfg q next [] t) (hCompact : cfg.compact = true)
    (hTokens : 0 < cfg.nTokens) (ordinal : Nat)
    (hCell : ∀ e ∈ t.entries, e.key ≠ identity.cellKey)
    (hPosition : ∀ e ∈ t.entries, e.position < position) :
    ∃ t', commitSeq cfg q false next identity position ordinal t = some t' ∧
      t'.entries.map (fun e => e.position) =
        (t.entries.map fun e => e.position).drop (t.entries.length + 1 - cfg.historyLimit) ++
          [position] := by
  have hLimit := h.limit hCompact
  have hRetained : cfg.retained = cfg.historyLimit := by simp [TailConfig.retained, hCompact]
  have hPositive := TailConfig.retained_pos hTokens
  obtain ⟨t₁, slot, hTake, hLeft⟩ := h.takeSlot_outside hTokens
  have hEntries : t₁.entries = t.entries.drop (t.entries.length + 1 - cfg.historyLimit) := by
    rw [hLeft, hRetained]
    split
    · have hOne : t.entries.length + 1 - cfg.historyLimit = 1 := by omega
      rw [hOne, drop_one]
    · rw [Nat.sub_eq_zero_of_le (by omega), drop_zero]
  refine ⟨linkEntry cfg q false ⟨next, identity, position, ordinal, slot⟩ t₁, ?_, ?_⟩
  · exact commitSeq_fresh next position ordinal (h.find_eq_none hCell) hTake
  have hOlder : ∀ x ∈ t₁.entries, x.position < position := by
    intro x hx
    rw [hEntries] at hx
    exact hPosition x (mem_of_mem_drop hx)
  have hLinked : (linkEntry cfg q false ⟨next, identity, position, ordinal, slot⟩ t₁).entries =
      t₁.entries ++ [⟨next, identity, position, ordinal, slot⟩] := by
    unfold linkEntry
    dsimp only
    rw [if_neg (by simp), trim_of_le, countRecovery_entries]
    · exact insertCommitted_append hOlder
    rw [countRecovery_entries]
    rw [insertCommitted_append hOlder, hEntries, length_append, length_drop,
      length_singleton, hRetained]
    omega
  rw [hLinked, hEntries, map_append, map_drop]
  rfl

end Append

/-! ## Runs of one sequence -/

/-- A run of one sequence: the store, the live positions in increasing order and
the reserve used up. -/
structure Rollback where
  store : TailStore
  live : List Int := []
  debt : Nat := 0

/-- `seq_pos_max` of the sequence. -/
def Rollback.posMax (r : Rollback) : Int := r.live.getLast?.getD (-1)

/-- Commit the next position.  A commit refills one row of the reserve. -/
def Rollback.commit (r : Rollback) (q : Nat) (identity : TailIdentity) (position : Int)
    (ordinal : Nat) : Rollback where
  store := finalState (TailStore.commit q identity position ordinal none) r.store
  live := r.live ++ [position]
  debt := r.debt - 1

/-- Remove the positions from `p0` on.  Every position removed uses up one row,
of which there are `N + R`. -/
def Rollback.remove (r : Rollback) (q : Nat) (p0 : Int) : Rollback where
  store := finalState (TailStore.seqRm q p0 (-1)) r.store
  live := r.live.filter (· < p0)
  debt := min r.store.cfg.historyLimit (r.debt + r.live.countP (p0 ≤ ·))

/-- Runs that commit increasing positions, each in a cell the sequence does not
hold, and remove accepted suffixes. -/
inductive Rollback.Run (cfg : TailConfig) (q : Nat) : Rollback → Prop
  | init : Run cfg q { store := { cfg } }
  | commit {r : Rollback} (identity : TailIdentity) (position : Int) (ordinal : Nat) :
      Run cfg q r → (∀ p ∈ r.live, p < position) →
      (∀ e ∈ (r.store.seqs q).entries, e.key ≠ identity.cellKey) →
      Run cfg q (r.commit q identity position ordinal)
  | remove {r : Rollback} (p0 : Int) : Run cfg q r →
      tailCanRemoveSuffix r.posMax p0 (-1) cfg.rollbackTokens = true →
      Run cfg q (r.remove q p0)

/-- The store holds an exact entry for each of the newest `min N L` live
positions. -/
def Rollback.HoldsNewest (r : Rollback) (q : Nat) : Prop :=
  ∀ p ∈ r.live.drop (r.live.length - min r.store.cfg.nTokens r.live.length),
    ∃ e ∈ (r.store.seqs q).entries, e.position = p

/-- What is known in every state of a run: the entries are the newest
`min L (N + R - debt)` live positions. -/
structure Rollback.Ok (cfg : TailConfig) (q : Nat) (r : Rollback) : Prop where
  config : r.store.cfg = cfg
  idle : Idle r.store
  outside : r.store.inBatch = false
  increasing : r.live.Pairwise (· < ·)
  debt : r.debt ≤ cfg.historyLimit
  rows : (r.store.seqs q).entries.map (fun e => e.position) =
    r.live.drop (r.live.length - min r.live.length (cfg.historyLimit - r.debt))

section Runs

variable {cfg : TailConfig} {q : Nat} {r : Rollback}

theorem Rollback.Ok.mem_live (h : r.Ok cfg q)
    (he : e ∈ (r.store.seqs q).entries) : e.position ∈ r.live := by
  have hMem : e.position ∈ (r.store.seqs q).entries.map fun e => e.position :=
    mem_map.mpr ⟨e, he, rfl⟩
  rw [h.rows] at hMem
  exact mem_of_mem_drop hMem

theorem Rollback.Ok.length (h : r.Ok cfg q) :
    (r.store.seqs q).entries.length = min r.live.length (cfg.historyLimit - r.debt) := by
  have hLength := congrArg List.length h.rows
  rw [List.length_map, List.length_drop] at hLength
  omega

theorem Rollback.Ok.commit (h : r.Ok cfg q) (hCompact : cfg.compact = true)
    (hTokens : 0 < cfg.nTokens) (hq : q < cfg.nSeqMax)
    (ordinal : Nat) (hNew : ∀ p ∈ r.live, p < position)
    (hCell : ∀ e ∈ (r.store.seqs q).entries, e.key ≠ identity.cellKey) :
    (r.commit q identity position ordinal).Ok cfg q := by
  obtain ⟨t, hCommit, hRows⟩ := commitSeq_append (h.idle.seqs q) (by rw [h.config]; exact hCompact)
    (by rw [h.config]; exact hTokens) ordinal hCell
    fun e he => hNew _ (h.mem_live he)
  have hRun : TailStore.commit q identity position ordinal none r.store =
      .ok (retainedSlot t identity)
        { r.store.modSeq q (fun _ => t) with nextNode := r.store.nextNode + 1 } := by
    unfold TailStore.commit
    have hValid : r.store.validSeq q = true := validSeq_natCast (by rw [h.config]; exact hq)
    have hne : r.store.cfg.nTokens ≠ 0 := by rw [h.config]; omega
    rw [if_neg (by simp [hValid, hne])]
    simp only [Int.toNat_natCast, h.outside, hCommit]
    unfold recordCurrent
    split
    · rename_i hRow
      cases hRow
    · rfl
  have hStore : (r.commit q identity position ordinal).store =
      { r.store.modSeq q (fun _ => t) with nextNode := r.store.nextNode + 1 } := by
    simp only [Rollback.commit, finalState, hRun]
  refine ⟨?_, ?_, ?_, ?_, ?_, ?_⟩
  · rw [hStore]
    exact h.config
  · rw [hStore]
    refine (h.idle.mono (Nat.le_succ _)).modSeq (f := fun _ => t) ?_
    exact (h.idle.seqs q).commitSeq (by rw [h.config]; exact hTokens) hCommit
  · rw [hStore]
    exact h.outside
  · simp only [Rollback.commit, pairwise_append]
    refine ⟨h.increasing, by simp, ?_⟩
    intro p hp x hx
    obtain rfl := mem_singleton.mp hx
    exact hNew p hp
  · exact (Nat.sub_le _ _).trans h.debt
  have hLive : (r.commit q identity position ordinal).live = r.live ++ [position] := rfl
  have hDebt : (r.commit q identity position ordinal).debt = r.debt - 1 := rfl
  have hSeq : (r.commit q identity position ordinal).store.seqs q = t := by
    rw [hStore]
    exact modSeq_seqs_self r.store q fun _ => t
  have hBound := h.debt
  have hHistory : cfg.historyLimit = cfg.nTokens + cfg.rollbackTokens := rfl
  rw [hSeq, hRows, h.rows, h.config, h.length, hLive, drop_drop, length_append,
    length_singleton, drop_append_of_le_length (by omega)]
  congr 2
  omega

variable {l : List Int}

theorem filter_lt_append (h : l.Pairwise (· < ·)) (p0 : Int) :
    l.filter (· < p0) ++ l.filter (p0 ≤ ·) = l := by
  induction l with
  | nil => rfl
  | cons a l ih =>
    rw [pairwise_cons] at h
    by_cases ha : a < p0
    · have hNot : ¬ p0 ≤ a := by omega
      simp only [filter_cons, ha, hNot, decide_true, decide_false, if_true,
        Bool.false_eq_true, if_false, cons_append, ih h.2]
    have hAll : ∀ b ∈ l, ¬ b < p0 := by
      intro b hb
      have := h.1 b hb
      omega
    have hNone : l.filter (· < p0) = [] := filter_eq_nil_iff.mpr fun b hb => by
      simpa using hAll b hb
    have hSome : l.filter (p0 ≤ ·) = l := filter_eq_self.mpr fun b hb => by
      simpa using hAll b hb
    have hLe : p0 ≤ a := by omega
    simp [ha, hLe, hNone, hSome]

theorem Rollback.Ok.remove (h : r.Ok cfg q) (hq : q < cfg.nSeqMax) (p0 : Int) :
    (r.remove q p0).Ok cfg q := by
  have hValid : r.store.validSeq q = true := validSeq_natCast (by rw [h.config]; exact hq)
  have hRun := seqRm_run p0 (-1) hValid (h.idle.seqs _)
  rw [Int.toNat_natCast] at hRun
  have hStore : (r.remove q p0).store =
      r.store.modSeq q (seqRmSeq r.store.cfg p0 (-1) q) := by
    simp only [Rollback.remove, finalState, hRun]
  have hSplit := filter_lt_append h.increasing p0
  have hLive : (r.remove q p0).live = r.live.filter (· < p0) := rfl
  have hDebt : (r.remove q p0).debt =
      min cfg.historyLimit (r.debt + (r.live.filter (p0 ≤ ·)).length) := by
    simp only [Rollback.remove, h.config, countP_eq_length_filter]
  refine ⟨?_, ?_, ?_, ?_, ?_, ?_⟩
  · rw [hStore]
    exact h.config
  · rw [hStore]
    exact h.idle.modSeq ((h.idle.seqs q).seqRmSeq p0 (-1))
  · rw [hStore]
    exact h.outside
  · exact h.increasing.sublist filter_sublist
  · rw [hDebt]
    exact Nat.min_le_left _ _
  have hEntries : ((r.remove q p0).store.seqs q).entries =
      (r.store.seqs q).entries.filter fun e => e.position < p0 := by
    have hSeq : (seqRmSeq r.store.cfg p0 (-1) q (r.store.seqs q)).entries =
        (r.store.seqs q).entries.filter fun e => !inRange p0 (-1) e.position := by
      unfold seqRmSeq
      dsimp only
      split <;> rfl
    rw [hStore, modSeq_seqs_self, hSeq]
    refine filter_congr fun e _ => ?_
    simp only [inRange]
    by_cases hlt : e.position < p0
    · simp [hlt]
    simp only [hlt, decide_false]
    simp only [Bool.not_eq_false', decide_eq_true_eq]
    omega
  have hMap : ((r.store.seqs q).entries.filter fun e => e.position < p0).map
      (fun e => e.position) =
      ((r.store.seqs q).entries.map fun e => e.position).filter (· < p0) := by
    rw [filter_map]
    rfl
  rw [hEntries, hMap, h.rows, hLive, hDebt]
  -- the positions that stay are a prefix of the live ones
  generalize hKept : r.live.filter (· < p0) = kept at hSplit ⊢
  generalize hGone : r.live.filter (p0 ≤ ·) = gone at hSplit ⊢
  have hKeptLt : ∀ x ∈ kept, x < p0 := by
    intro x hx
    rw [← hKept, mem_filter] at hx
    simpa using hx.2
  have hGoneLe : ∀ x ∈ gone, ¬ x < p0 := by
    intro x hx
    rw [← hGone, mem_filter] at hx
    simpa using hx.2
  rw [← hSplit, drop_append, filter_append]
  have hFirst : (kept.drop ((kept ++ gone).length -
      min (kept ++ gone).length (cfg.historyLimit - r.debt))).filter (· < p0) =
      kept.drop ((kept ++ gone).length -
        min (kept ++ gone).length (cfg.historyLimit - r.debt)) :=
    filter_eq_self.mpr fun x hx => by simpa using hKeptLt x (mem_of_mem_drop hx)
  have hSecond : ∀ n, (gone.drop n).filter (· < p0) = [] := fun n =>
    filter_eq_nil_iff.mpr fun x hx => by
      simpa using hGoneLe x (mem_of_mem_drop hx)
  rw [hFirst, hSecond, append_nil, length_append]
  by_cases hLost : cfg.historyLimit - r.debt ≤ gone.length
  · rw [drop_eq_nil_of_le (by omega), drop_eq_nil_of_le (by omega)]
  · congr 1
    omega

/-- The rows held along a run of a store that retains something. -/
theorem Rollback.Run.ok (h : Rollback.Run cfg q r) (hCompact : cfg.compact = true)
    (hTokens : 0 < cfg.nTokens) (hq : q < cfg.nSeqMax) : r.Ok cfg q := by
  induction h with
  | init => exact ⟨rfl, Idle.initial cfg, rfl, List.Pairwise.nil, Nat.zero_le _, rfl⟩
  | commit identity position ordinal _ hNew hCell ih =>
    exact ih.commit hCompact hTokens hq ordinal hNew hCell
  | remove p0 _ _ ih => exact ih.remove hq p0

theorem Rollback.Run.config_of_zero (h : Rollback.Run cfg q r) (hTokens : cfg.nTokens = 0)
    (hq : q < cfg.nSeqMax) : r.store.cfg = cfg ∧ Idle r.store := by
  induction h with
  | init => exact ⟨rfl, Idle.initial cfg⟩
  | commit identity position ordinal _ _ _ ih =>
    simp only [Rollback.commit, finalState, TailStore.commit, ih.1, hTokens, or_true, if_true]
    exact ⟨trivial, ih.2⟩
  | @remove r p0 _ _ ih =>
    have hValid : r.store.validSeq q = true := validSeq_natCast (by rw [ih.1]; exact hq)
    have hRun := seqRm_run p0 (-1) hValid (ih.2.seqs _)
    simp only [Rollback.remove, finalState, hRun]
    exact ⟨ih.1, ih.2.modSeq ((ih.2.seqs q).seqRmSeq p0 (-1))⟩

theorem drop_subset_iff (h : l.Nodup) {i j : Nat} :
    (∀ p ∈ l.drop i, p ∈ l.drop j) ↔ j ≤ i ∨ l.length ≤ i := by
  constructor
  · intro hSub
    by_contra hNot
    rw [not_or, not_le, not_le] at hNot
    have hIn := hSub l[i] (by
      rw [drop_eq_getElem_cons hNot.2]
      exact mem_cons_self)
    obtain ⟨m, hm, hEq⟩ := mem_iff_getElem.mp hIn
    rw [getElem_drop] at hEq
    have := (h.getElem_inj_iff).mp hEq
    omega
  rintro (hle | hOut) p hp
  · have hDrop : l.drop i = (l.drop j).drop (i - j) := by
      rw [drop_drop]
      congr 1
      omega
    rw [hDrop] at hp
    exact mem_of_mem_drop hp
  · rw [drop_eq_nil_of_le hOut] at hp
    cases hp

/-- In every state of a run the newest `min N L` live positions are held exactly
when the reserve used up is at most `R`, or everything live still fits beside
it. -/
theorem Rollback.Run.holdsNewest_iff (h : Rollback.Run cfg q r) (hCompact : cfg.compact = true)
    (hq : q < cfg.nSeqMax) :
    r.HoldsNewest q ↔ cfg.nTokens = 0 ∨ r.debt ≤ cfg.rollbackTokens ∨
      r.live.length + r.debt ≤ cfg.historyLimit := by
  by_cases hTokens : cfg.nTokens = 0
  · simp only [hTokens, true_or, iff_true]
    intro p hp
    rw [(h.config_of_zero hTokens hq).1, hTokens, Nat.zero_min, Nat.sub_zero,
      drop_length] at hp
    cases hp
  have hOk := h.ok hCompact (Nat.pos_of_ne_zero hTokens) hq
  have hNodup : r.live.Nodup := hOk.increasing.imp fun hab => ne_of_lt hab
  have hHeld : r.HoldsNewest q ↔
      ∀ p ∈ r.live.drop (r.live.length - min cfg.nTokens r.live.length),
        p ∈ r.live.drop (r.live.length - min r.live.length (cfg.historyLimit - r.debt)) := by
    unfold Rollback.HoldsNewest
    rw [hOk.config, ← hOk.rows]
    simp only [mem_map]
  have hHistory : cfg.historyLimit = cfg.nTokens + cfg.rollbackTokens := rfl
  have hDebt := hOk.debt
  rw [hHeld, drop_subset_iff hNodup]
  omega

end Runs

/-- Retention one, reserve one. -/
def rollbackTail : TailConfig where
  nTokens := 1
  rollbackTokens := 1
  nSeqMax := 1
  arenaStride := 2
  sinkSlots := 0
  compact := true
  overlay h := by cases h
  fits := by decide
  slotsFit := TailConfig.slotsFit_two

/-- Three tokens, then the newest one is taken back. -/
def rolledBackOnce : Rollback :=
  (((({ store := { cfg := rollbackTail } } : Rollback).commit 0 ⟨0, 0, 1⟩ 0 0).commit
    0 ⟨0, 1, 1⟩ 1 1).commit 0 ⟨0, 2, 1⟩ 2 2).remove 0 2

theorem rolledBackOnce_run : Rollback.Run rollbackTail 0 rolledBackOnce := by
  refine Rollback.Run.remove 2 (Rollback.Run.commit _ 2 2 (Rollback.Run.commit _ 1 1
    (Rollback.Run.commit _ 0 0 Rollback.Run.init ?_ ?_) ?_ ?_) ?_ ?_) ?_ <;> decide

/-- The one rollback the reserve pays for. -/
theorem rolledBackOnce_holds : rolledBackOnce.HoldsNewest 0 :=
  (Rollback.Run.holdsNewest_iff rolledBackOnce_run rfl (by decide)).mpr
    (Or.inr (Or.inl (by decide)))

/-- A second rollback of one token is accepted as well, and the only live
position has no exact row any more. -/
theorem rolledBackTwice_loses :
    Rollback.Run rollbackTail 0 (rolledBackOnce.remove 0 1) ∧
      (rolledBackOnce.remove 0 1).live = [0] ∧
      ¬ (rolledBackOnce.remove 0 1).HoldsNewest 0 := by
  refine ⟨Rollback.Run.remove 1 rolledBackOnce_run (by decide), by decide, ?_⟩
  unfold Rollback.HoldsNewest
  decide

end TailStore

end Beellama.Ports
