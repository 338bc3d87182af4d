import Beellama.Ports.KvTailSeq

/-!
# The representation invariant of the exact-tail store

`TailInv`: every sequence satisfies `SeqOk`, a pending copy owns the slots it has acquired, and the
state a compact batch can be rolled back to satisfies the invariant as well.  A method that rebuilds
an index is first brought into a closed form, a change of the sequences one by one.
-/

namespace Beellama.Ports

open Beellama.Verified TailStore

/-- Rebuild the index from the list. -/
def SeqTail.reindex (t : SeqTail) : SeqTail := { t with index := (buildIndex t.entries ∅).1 }

theorem SeqRows.reindex {cfg : TailConfig} {q next : Nat} {t : SeqTail}
    (h : SeqRows cfg q next [] t) (hSorted : t.entries.Pairwise ExactEntry.le) :
    SeqOk cfg q next [] t.reindex :=
  { h.withIndex _ with
    sorted := hSorted
    index := IndexOk.build h.apart }

variable {q : Nat}

namespace TailStore

/-! ## Pending copies -/

/-- The slots of sequence `q` a pending copy has acquired. -/
def extra (s : TailStore) (q : Nat) : List Nat :=
  match s.pending with
  | some p => if p.dst = q then p.acquired else []
  | none => []

/-- What a pending copy promises about its destination. -/
structure PendingOk (cfg : TailConfig) (t : SeqTail) (p : PendingSeqCp) : Prop where
  sorted : p.destination.Pairwise ExactEntry.le
  slots : p.destination.Pairwise fun a b => a.slot ≠ b.slot
  owned : ∀ e ∈ p.destination, (∃ x ∈ t.entries, x.slot = e.slot) ∨ e.slot ∈ p.acquired
  needed : ∀ slot ∈ p.acquired, ∃ e ∈ p.destination, e.slot = slot
  arena : ∀ slot ∈ p.acquired,
    cfg.base p.dst ≤ slot ∧ slot < cfg.base p.dst + cfg.arenaStride
  taken : ∀ slot ∈ p.acquired, ∀ x ∈ t.entries, x.slot ≠ slot
  recovery : p.recovery ≤ cfg.nTokens
  clean : p.degradation = 0 → p.recovery = 0
  limit : cfg.compact = true → p.destination.length ≤ cfg.historyLimit

/-- The representation invariant. -/
structure TailInv (s : TailStore) : Prop where
  seqs : ∀ q, SeqOk s.cfg q s.nextNode (s.extra q) (s.seqs q)
  pending : ∀ p, s.pending = some p → PendingOk s.cfg (s.seqs p.dst) p
  batch : ∀ tx, s.batch = some tx → ∀ q, SeqOk s.cfg q s.nextNode [] (tx.seqs q)

/-- The invariant outside a copy transaction. -/
structure Idle (s : TailStore) : Prop where
  pending : s.pending = none
  seqs : ∀ q, SeqOk s.cfg q s.nextNode [] (s.seqs q)
  batch : ∀ tx, s.batch = some tx → ∀ q, SeqOk s.cfg q s.nextNode [] (tx.seqs q)

variable {s : TailStore}

theorem Idle.inv (h : Idle s) : TailInv s where
  seqs q := by
    simp only [extra, h.pending]
    exact h.seqs q
  pending p hp := by
    rw [h.pending] at hp
    cases hp
  batch := h.batch

theorem TailInv.idle (h : TailInv s) (hPending : s.pending = none) : Idle s where
  pending := hPending
  seqs q := by
    have hq := h.seqs q
    simp only [extra, hPending] at hq
    exact hq
  batch := h.batch

theorem Idle.initial (cfg : TailConfig) : Idle { cfg } where
  pending := rfl
  seqs _ := SeqOk.empty
  batch _ h := by cases h

/-! ## Changing the sequences one by one -/

/-- Change every sequence of the store. -/
def mapSeqs (s : TailStore) (g : Nat → SeqTail → SeqTail) : TailStore :=
  { s with seqs := fun q => if q < s.cfg.nSeqMax then g q (s.seqs q) else s.seqs q }

theorem Idle.modSeq (h : Idle s) {f : SeqTail → SeqTail}
    (hf : SeqOk s.cfg q s.nextNode [] (f (s.seqs q))) : Idle (s.modSeq q f) where
  pending := h.pending
  seqs r := by
    simp only [TailStore.modSeq, Function.update_apply]
    split
    · rename_i hr
      subst hr
      exact hf
    · exact h.seqs r
  batch := h.batch

variable {g : Nat → SeqTail → SeqTail}

theorem Idle.mapSeqs (h : Idle s)
    (hg : ∀ q, SeqOk s.cfg q s.nextNode [] (g q (s.seqs q))) : Idle (s.mapSeqs g) where
  pending := h.pending
  seqs q := by
    simp only [TailStore.mapSeqs]
    split
    · exact hg q
    · exact h.seqs q
  batch := h.batch

theorem Idle.mono (h : Idle s) {next : Nat} (hNext : s.nextNode ≤ next) :
    Idle { s with nextNode := next } where
  pending := h.pending
  seqs q := (h.seqs q).mono hNext
  batch tx htx q := (h.batch tx htx q).mono hNext

theorem rebuildIndex_eq (hApart : (s.seqs q).entries.Pairwise ExactEntry.Apart) :
    rebuildIndex q s = .ok () (s.modSeq q SeqTail.reindex) := by
  have hOk := (buildIndex_spec _ ∅ hApart fun _ _ => Finmap.notMem_empty).1
  simp only [rebuildIndex, hOk]
  rfl

theorem modSeq_modSeq (s : TailStore) (q : Nat) (f g : SeqTail → SeqTail) :
    (s.modSeq q f).modSeq q g = s.modSeq q (fun t => g (f t)) := by
  simp [modSeq]

theorem modSeq_self (s : TailStore) (q : Nat) : s.modSeq q (fun t => t) = s := by
  simp [modSeq]

theorem modSeq_seqs_self (s : TailStore) (q : Nat) (f : SeqTail → SeqTail) :
    (s.modSeq q f).seqs q = f (s.seqs q) := by simp [modSeq]

theorem modSeq_seqs_ne (s : TailStore) {q r : Nat} (h : r ≠ q) (f : SeqTail → SeqTail) :
    (s.modSeq q f).seqs r = s.seqs r := by simp [modSeq, h]

/-- A loop whose turn `q` changes sequence `q` changes every sequence once. -/
theorem forM_modSeq {f : Nat → TailM Unit}
    (h : ∀ q < s.cfg.nSeqMax, ∀ s', s'.cfg = s.cfg → s'.nextNode = s.nextNode →
      s'.busy = s.busy → s'.seqs q = s.seqs q → f q s' = .ok () (s'.modSeq q (g q))) :
    (List.range s.cfg.nSeqMax).forM f s = .ok () (s.mapSeqs g) := by
  suffices hGen : ∀ n ≤ s.cfg.nSeqMax, (List.range n).forM f s = .ok ()
      { s with seqs := fun q => if q < n then g q (s.seqs q) else s.seqs q } from
    hGen _ (Nat.le_refl _)
  intro n
  induction n with
  | zero => simp [pure, EStateM.pure]
  | succ n ih =>
    intro hn
    rw [List.range_succ, run_forM_concat n (ih (Nat.le_of_succ_le hn))]
    refine (h n hn _ ?_ ?_ ?_ ?_).trans ?_
    · rfl
    · rfl
    · rfl
    · simp
    simp only [modSeq, EStateM.Result.ok.injEq, true_and, mk.injEq,
      and_true]
    funext q
    by_cases hq : q = n
    · subst hq
      simp
    · have hiff : q < n + 1 ↔ q < n := by omega
      simp [hq, hiff]

/-! ## Closed forms of the methods that rebuild an index -/

/-- The effect of `seq_rm` on its sequence. -/
def seqRmSeq (cfg : TailConfig) (p0 p1 : Int) (q : Nat) (t : SeqTail) : SeqTail :=
  let t' := (t.dropWhere cfg q fun e => inRange p0 p1 e.position).reindex
  if t'.entries = [] ∧ p0 ≤ 0 ∧ p1 < 0 then { t' with degradation := 0, recovery := 0 } else t'

/-- The effect of `seq_rm_cell` on its sequence. -/
def seqRmCellSeq (cfg : TailConfig) (stream cell q : Nat) (t : SeqTail) : SeqTail :=
  (t.dropWhere cfg q fun e => e.identity.stream = stream ∧ e.identity.cell = cell).reindex

/-- Add degradation flags and start counting recovery afresh. -/
def degradeSeq (flags : Nat) (t : SeqTail) : SeqTail :=
  { t with degradation := t.degradation ||| flags, recovery := 0 }

/-- The effect of `seq_add` and `seq_div` on one sequence. -/
def repositionedSeq (cfg : TailConfig) (identities : List TailIdentity) (f : Int → Int)
    (dropNegative degrade : Bool) (q : Nat) (t : SeqTail) : SeqTail :=
  if t.entries.any fun e => e.identity ∈ identities then
    let t' := (repositionEntries cfg q identities f dropNegative t).reindex
    if degrade then degradeSeq degradedHistoricalOp t' else t'
  else t

/-- The effect of `invalidate_slots` on one sequence. -/
def invalidatedSeq (cfg : TailConfig) (slots : List Nat) (flags q : Nat) (t : SeqTail) : SeqTail :=
  if t.entries.any fun e => e.slot ∈ slots then
    degradeSeq flags (t.dropWhere cfg q fun e => e.slot ∈ slots).reindex
  else t

/-- The effect of a rollback on one sequence of the saved state. -/
def rolledBackSeq (cfg : TailConfig) (tx : BatchTransaction) (payloadMayBeModified : Bool) (q : Nat)
    (t : SeqTail) : SeqTail :=
  if payloadMayBeModified && tx.affected q then dropAffected cfg q t.reindex else t.reindex

end TailStore

section Effects

variable {cfg : TailConfig} {q next : Nat} {t : SeqTail}

variable (h : SeqOk cfg q next [] t)

include h

theorem SeqOk.dropReindex (P : ExactEntry → Bool) :
    SeqOk cfg q next [] (t.dropWhere cfg q P).reindex :=
  (h.toSeqRows.dropWhere P).reindex (h.sorted.sublist List.filter_sublist)

theorem SeqOk.degradeSeq (flags : Nat) : SeqOk cfg q next [] (TailStore.degradeSeq flags t) :=
  h.counters (Nat.zero_le _) fun _ => rfl

theorem SeqOk.seqRmSeq (p0 p1 : Int) : SeqOk cfg q next [] (TailStore.seqRmSeq cfg p0 p1 q t) := by
  unfold TailStore.seqRmSeq
  dsimp only
  split
  · exact (h.dropReindex _).counters (Nat.zero_le _) fun _ => rfl
  · exact h.dropReindex _

theorem SeqOk.repositionedSeq (identities : List TailIdentity)
    (f : Int → Int) (dropNegative degrade : Bool) :
    SeqOk cfg q next [] (TailStore.repositionedSeq cfg identities f dropNegative degrade q t) := by
  have hMoved : SeqOk cfg q next []
      (repositionEntries cfg q identities f dropNegative t).reindex :=
    h.toSeqRows.repositionEntries.reindex repositionEntries_sorted
  unfold TailStore.repositionedSeq
  split
  · split
    · exact hMoved.degradeSeq _
    · exact hMoved
  · exact h

theorem SeqOk.invalidatedSeq (slots : List Nat) (flags : Nat) :
    SeqOk cfg q next [] (TailStore.invalidatedSeq cfg slots flags q t) := by
  unfold TailStore.invalidatedSeq
  split
  · exact (h.dropReindex _).degradeSeq _
  · exact h

theorem SeqOk.rolledBackSeq (tx : BatchTransaction) (payloadMayBeModified : Bool) :
    SeqOk cfg q next [] (TailStore.rolledBackSeq cfg tx payloadMayBeModified q t) := by
  have hReindex : SeqOk cfg q next [] t.reindex := h.toSeqRows.reindex h.sorted
  unfold TailStore.rolledBackSeq
  split
  · have hDrop := (hReindex.toSeqRows.dropWhere fun _ => true).withIndex ∅
    have hEntries : (t.reindex.dropWhere cfg q fun _ => true).entries = [] := by
      simp [dropWhere_entries]
    refine { hDrop.counters (d := t.reindex.degradation ||| degradedPayloadInvalid)
      (Nat.zero_le _) (fun _ => rfl) with sorted := ?_, index := ?_ }
    · change (t.reindex.dropWhere cfg q fun _ => true).entries.Pairwise ExactEntry.le
      rw [hEntries]
      exact List.Pairwise.nil
    intro k n
    change (∅ : TailIndex).lookup k = some n ↔
      ∃ e ∈ (t.reindex.dropWhere cfg q fun _ => true).entries, e.key = k ∧ e.node = n
    simp [hEntries]
  · exact hReindex

end Effects

namespace TailStore

section ClosedForms

variable {s : TailStore}

theorem validSeq_natCast (hq : q < s.cfg.nSeqMax) : s.validSeq (q : Int) = true := by
  simp [validSeq, hq]

theorem run_drop_rebuild {P : ExactEntry → Bool} (h : SeqOk s.cfg q s.nextNode [] (s.seqs q)) :
    rebuildIndex q (s.modSeq q fun t => t.dropWhere s.cfg q P) =
      .ok () (s.modSeq q fun t => (t.dropWhere s.cfg q P).reindex) := by
  rw [rebuildIndex_eq, modSeq_modSeq]
  rw [modSeq_seqs_self]
  exact (h.toSeqRows.dropWhere P).apart

variable {seqId : Int}

theorem seqRm_run (p0 p1 : Int) (hValid : s.validSeq seqId = true)
    (h : SeqOk s.cfg seqId.toNat s.nextNode [] (s.seqs seqId.toNat)) :
    seqRm seqId p0 p1 s = .ok () (s.modSeq seqId.toNat (seqRmSeq s.cfg p0 p1 seqId.toNat)) := by
  change (if s.validSeq seqId = true then _ else _ : TailM Unit) s = _
  rw [if_pos hValid]
  change (rebuildIndex seqId.toNat >>= fun _ => modify _) (s.modSeq seqId.toNat _) = _
  rw [run_bind (run_drop_rebuild h)]
  rw [run_modify]
  rw [modSeq_seqs_self]
  unfold seqRmSeq
  split
  · rename_i hEmpty
    rw [modSeq_modSeq]
    simp only [modSeq, hEmpty, and_self, if_true]
  · rename_i hSome
    simp only [modSeq, hSome, if_false]

theorem seqRm_invalid {p0 p1 : Int} (hValid : ¬ s.validSeq seqId = true) :
    seqRm seqId p0 p1 s = .ok () s := by
  change (if s.validSeq seqId = true then _ else _ : TailM Unit) s = _
  rw [if_neg hValid]
  rfl

variable {stream cell : Nat}

theorem seqRmCell_run (hValid : s.validSeq seqId = true)
    (h : SeqOk s.cfg seqId.toNat s.nextNode [] (s.seqs seqId.toNat)) :
    seqRmCell seqId stream cell s =
      .ok () (s.modSeq seqId.toNat (seqRmCellSeq s.cfg stream cell seqId.toNat)) := by
  change (if s.validSeq seqId = true then _ else _ : TailM Unit) s = _
  rw [if_pos hValid]
  exact run_drop_rebuild h

theorem seqRmCell_invalid
    (hValid : ¬ s.validSeq seqId = true) : seqRmCell seqId stream cell s = .ok () s := by
  change (if s.validSeq seqId = true then _ else _ : TailM Unit) s = _
  rw [if_neg hValid]
  rfl

theorem seqKeep_run (h : Idle s) (seqId : Int) :
    seqKeep seqId s = .ok () (s.mapSeqs fun q t =>
      if (q : Int) ≠ seqId then seqRmSeq s.cfg 0 (-1) q t else t) := by
  refine forM_modSeq ?_
  intro q hq s' hCfg hNext _ hSeq
  by_cases hKeep : (q : Int) ≠ seqId
  · rw [if_pos hKeep, seqRm_run]
    · simp only [Int.toNat_natCast, hCfg, hKeep, ne_eq, not_false_eq_true, if_true]
    · exact validSeq_natCast (by rw [hCfg]; exact hq)
    · rw [hCfg, hNext, Int.toNat_natCast, hSeq]
      exact h.seqs q
  · simp only [hKeep, if_false, modSeq_self]
    rfl

theorem repositionSeq_run {identities : List TailIdentity} {f : Int → Int}
    {dropNegative degrade : Bool} (h : SeqOk s.cfg q s.nextNode [] (s.seqs q)) :
    repositionSeq identities f dropNegative degrade q s =
      .ok () (s.modSeq q (repositionedSeq s.cfg identities f dropNegative degrade q)) := by
  change (if (s.seqs q).entries.any _ = true then _ else _ : TailM Unit) s = _
  by_cases hAny : (s.seqs q).entries.any fun e => e.identity ∈ identities
  · rw [if_pos hAny]
    change (rebuildIndex q >>= fun _ => if degrade = true then modify _ else pure ())
      (s.modSeq q _) = _
    rw [run_bind (rebuildIndex_eq ?_), modSeq_modSeq]
    · cases degrade with
      | false =>
        simp only [modSeq, repositionedSeq, hAny]
        rfl
      | true =>
        rw [if_pos rfl]
        rw [run_modify]
        rw [modSeq_modSeq]
        simp only [modSeq, repositionedSeq, degradeSeq, hAny, if_true]
    · rw [modSeq_seqs_self]
      exact h.toSeqRows.repositionEntries.apart
  simp only [modSeq, repositionedSeq, hAny, Bool.false_eq_true, if_false,
    Function.update_eq_self]
  rfl

theorem reposition_run (h : Idle s) (identities : List TailIdentity) (f : Int → Int)
    (dropNegative degrade : Bool) :
    (List.range s.cfg.nSeqMax).forM (repositionSeq identities f dropNegative degrade) s =
      .ok () (s.mapSeqs (repositionedSeq s.cfg identities f dropNegative degrade)) := by
  refine forM_modSeq ?_
  intro q hq s' hCfg hNext _ hSeq
  rw [repositionSeq_run, hCfg]
  rw [hCfg, hNext, hSeq]
  exact h.seqs q

theorem invalidateSlots_run (h : Idle s) (slots : List Nat) (flags : Nat) :
    invalidateSlots slots flags s = .ok () (s.mapSeqs (invalidatedSeq s.cfg slots flags)) := by
  refine forM_modSeq ?_
  intro q hq s' hCfg hNext _ hSeq
  change (if (s'.seqs q).entries.any _ = true then _ else _ : TailM Unit) s' = _
  by_cases hAny : (s'.seqs q).entries.any fun e => e.slot ∈ slots
  · rw [if_pos hAny]
    change (rebuildIndex q >>= fun _ => modify _) (s'.modSeq q _) = _
    rw [run_bind (run_drop_rebuild ?_)]
    · rw [run_modify]
      rw [modSeq_modSeq]
      simp only [modSeq, invalidatedSeq, degradeSeq, hAny, if_true, hCfg]
    · rw [hCfg, hNext, hSeq]
      exact h.seqs q
  simp only [modSeq, invalidatedSeq, hAny, Bool.false_eq_true, if_false,
    Function.update_eq_self]
  rfl

theorem finishBatch_rollback (hCompact : s.cfg.compact = true) {tx : BatchTransaction}
    (hBatch : s.batch = some tx) (h : ∀ q, (tx.seqs q).entries.Pairwise ExactEntry.Apart)
    (payloadMayBeModified : Bool) :
    finishBatch false payloadMayBeModified s = .ok ()
      { ({ s with seqs := tx.seqs }.mapSeqs (rolledBackSeq s.cfg tx payloadMayBeModified)) with
        batch := none
        inBatch := false } := by
  have hLoop : (List.range s.cfg.nSeqMax).forM (rollbackSeq tx payloadMayBeModified)
      { s with seqs := tx.seqs } = .ok ()
        ({ s with seqs := tx.seqs }.mapSeqs (rolledBackSeq s.cfg tx payloadMayBeModified)) := by
    refine forM_modSeq (s := { s with seqs := tx.seqs }) ?_
    intro q hq s' hCfg hNext _ hSeq
    unfold rollbackSeq
    rw [run_bind (rebuildIndex_eq ?_)]
    · cases hAffected : payloadMayBeModified && tx.affected q with
      | false =>
        rw [if_neg (by simp)]
        simp only [modSeq, rolledBackSeq, hAffected, Bool.false_eq_true, if_false]
        rfl
      | true =>
        rw [if_pos rfl]
        rw [run_modify]
        rw [modSeq_modSeq]
        simp only [modSeq, rolledBackSeq, hAffected, if_true, hCfg]
    · rw [hSeq]
      exact h q
  unfold finishBatch
  rw [run_bind (run_get s)]
  simp only [hCompact, Bool.not_true, Bool.false_eq_true, if_false, hBatch, Bool.not_false, if_true]
  rw [hBatch] at hLoop
  exact run_bind hLoop

end ClosedForms

end TailStore

end Beellama.Ports
