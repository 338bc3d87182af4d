import Beellama.Verified.Run
import Beellama.Ports.KvTailRecency
import Beellama.Ports.KvTailRuns
import Mathlib.Order.Interval.Finset.Nat
import Mathlib.Algebra.Order.Ring.Int

/-!
# What complete coverage means

A sequence with a degradation flag counts the commits that follow and clears the flags after
`n_tokens` of them.  No removal and no rollback decreases the counter, and a commit below older
entries increases it.  `Watch` runs a store along with the times of the commits and of the events
that set a flag (`coverage_not_overclaimed`).
-/

namespace Beellama.Ports

open Beellama.Verified List Option Function

/-! ## The facts of a changed sequence -/

/-- The newest entries that a sequence vouches for: the commits counted while it is degraded, else
all a report may ask for. -/
def SeqTail.vouched (cfg : TailConfig) (t : SeqTail) : Nat :=
  if t.degradation = 0 then cfg.nTokens else t.recovery

/-- The same after a commit, which is counted when it links a new entry. -/
def SeqTail.vouchedCommit (cfg : TailConfig) (identity : TailIdentity) (t : SeqTail) : Nat :=
  if t.degradation = 0 then cfg.nTokens
  else if identity ∈ t.facts.map TailFact.identity then t.recovery
  else t.recovery + 1

/-- The facts after a commit, before the order and the size of the list are restored. -/
def commitFacts (identity : TailIdentity) (position : Int) (ordinal : Nat) (l : List TailFact) :
    List TailFact :=
  ⟨identity, position, ordinal⟩ :: l.filter fun x => x.identity.cellKey ≠ identity.cellKey

/-- An entry after the positions of some identities have changed. -/
def TailFact.moved (x : TailFact) (identities : List TailIdentity) (f : Int → Int) : TailFact :=
  if x.identity ∈ identities then { x with position := f x.position } else x

/-- Whether a moved entry goes since its position is negative. -/
def TailFact.dropped (x : TailFact) (identities : List TailIdentity) (dropNegative : Bool) : Bool :=
  dropNegative && decide (x.identity ∈ identities) && decide (x.position < 0)

/-- The facts after a position change, before the order and the size of the list are restored. -/
def repositionFacts (identities : List TailIdentity) (f : Int → Int) (dropNegative : Bool)
    (l : List TailFact) : List TailFact :=
  (l.map fun x => x.moved identities f).filter fun x => !x.dropped identities dropNegative

theorem TailFact.le_refl (x : TailFact) : x.le x := Or.inr ⟨rfl, Nat.le_refl _⟩

variable {identity : TailIdentity} {position : Int} {ordinal : Nat}

section Facts

variable {cfg : TailConfig} {q next n : Nat} {t : SeqTail} {old : TailFact → Prop}

theorem facts_sorted {l : List ExactEntry} (h : l.Pairwise ExactEntry.le) :
    (l.map ExactEntry.fact).Pairwise TailFact.le := by
  rw [pairwise_map]
  exact h.imp fun hab => ExactEntry.le_iff_fact.mp hab

theorem SeqOk.factsSorted {extra : List Nat} (h : SeqOk cfg q next extra t) :
    t.facts.Pairwise TailFact.le := facts_sorted h.sorted

theorem facts_trim (limit : Nat) :
    (t.trim cfg q limit).facts = t.facts.drop (t.entries.length - limit) := by
  rw [SeqTail.facts, trim_entries, map_drop]
  rfl

/-- A condition on entries that only reads their facts. -/
theorem map_fact_filter (P : TailFact → Bool) (l : List ExactEntry) :
    (l.filter fun e => P e.fact).map ExactEntry.fact = (l.map ExactEntry.fact).filter P := by
  rw [List.filter_map]
  rfl

theorem dropWhere_reindex {D : ExactEntry → Bool} {P : TailFact → Bool}
    (hP : ∀ e, D e = P e.fact) :
    (t.dropWhere cfg q D).reindex.facts = t.facts.filter (fun x => !P x) ∧
      (t.dropWhere cfg q D).reindex.vouched cfg = t.vouched cfg := by
  constructor
  · show (t.entries.filter fun e => !D e).map ExactEntry.fact = _
    have hSame : (fun e => !D e) = fun e : ExactEntry => !P e.fact := by
      funext e
      rw [hP]
    rw [hSame]
    exact map_fact_filter (fun x => !P x) t.entries
  · unfold SeqTail.vouched SeqTail.reindex SeqTail.dropWhere
    rw [releaseEntries_eq]

theorem popFront_counters (t : SeqTail) : (SeqTail.popFront cfg q t).degradation = t.degradation ∧
    (SeqTail.popFront cfg q t).recovery = t.recovery := by
  unfold SeqTail.popFront
  split <;> exact ⟨rfl, rfl⟩

theorem trim_vouched (limit : Nat) : (t.trim cfg q limit).vouched cfg = t.vouched cfg := by
  have hCounters : ∀ n, ((SeqTail.popFront cfg q)^[n] t).degradation = t.degradation ∧
      ((SeqTail.popFront cfg q)^[n] t).recovery = t.recovery := by
    intro n
    induction n with
    | zero => exact ⟨rfl, rfl⟩
    | succ n ih =>
      rw [iterate_succ_apply']
      exact ⟨(popFront_counters _).1.trans ih.1, (popFront_counters _).2.trans ih.2⟩
  unfold SeqTail.trim SeqTail.vouched
  rw [(hCounters _).1, (hCounters _).2]

variable (h : SeqOk cfg q next [] t)

include h

theorem SeqOk.eraseFacts {e : ExactEntry} (he : e ∈ t.entries)
    (releaseSlot : Bool) : (t.eraseEntry cfg q e releaseSlot).facts =
      t.facts.filter fun x => x.identity.cellKey ≠ e.key := by
  unfold SeqTail.facts
  rw [eraseEntry_entries, ← map_fact_filter]
  apply congrArg (map ExactEntry.fact)
  apply filter_congr
  intro x hx
  have hIff : x.node ≠ e.node ↔ x.key ≠ e.key := by
    by_cases hEq : x = e
    · simp [hEq]
    · have hApart := h.apart.forall hx he hEq
      exact iff_of_true hApart.2.1 hApart.1
  exact decide_eq_decide.mpr hIff

theorem SeqOk.eraseStaleFacts (identity : TailIdentity) :
    (TailStore.eraseStale cfg q identity t).facts =
      t.facts.filter fun x => x.identity.cellKey ≠ identity.cellKey := by
  unfold TailStore.eraseStale
  split
  · rename_i dup hFind
    obtain ⟨hMem, hKey⟩ := h.find_iff.mp hFind
    rw [h.eraseFacts hMem, hKey]
  rename_i hFind
  apply Eq.symm
  apply filter_eq_self.mpr
  intro x hx
  obtain ⟨e, he, rfl⟩ := mem_map.mp hx
  exact decide_eq_true (h.find_none hFind e he)

variable {inBatch : Bool} {t' : SeqTail}

theorem SeqOk.takeSlotFacts {slot : Nat}
    (hTake : TailStore.takeSlot cfg q inBatch t = some (t', slot)) :
    (∃ k, t'.facts = t.facts.drop k) ∧ t'.degradation = t.degradation ∧
      t'.recovery = t.recovery := by
  have hAcquire : t.acquire cfg q = some (t', slot) → (∃ k, t'.facts = t.facts.drop k) ∧
      t'.degradation = t.degradation ∧ t'.recovery = t.recovery := by
    intro hAcquire
    obtain ⟨l, -, -, rfl⟩ := acquire_spec hAcquire
    exact ⟨⟨0, rfl⟩, rfl, rfl⟩
  unfold TailStore.takeSlot at hTake
  split at hTake
  · rename_i victim rest hEntries
    split at hTake
    · obtain ⟨rfl, rfl⟩ := Prod.mk.inj (some.inj hTake)
      refine ⟨⟨1, ?_⟩, rfl, rfl⟩
      rw [SeqTail.facts, h.eraseFirst hEntries, SeqTail.facts, hEntries]
      rfl
    · exact hAcquire hTake
  · exact hAcquire hTake

theorem SeqOk.commitNewBuried (hTokens : 0 < cfg.nTokens)
    (hCommit : TailStore.commitNew cfg q inBatch next identity position ordinal t = some t')
    (hBuried : Buried TailFact.le old n (commitFacts identity position ordinal t.facts))
    (hNew : ¬ old ⟨identity, position, ordinal⟩) : Buried TailFact.le old n t'.facts := by
  unfold TailStore.commitNew at hCommit
  split at hCommit
  · cases hCommit
  rename_i t₁ slot hTake
  obtain rfl := some.inj hCommit
  have hErased := h.eraseStale identity
  obtain ⟨hOk, -⟩ := hErased.takeSlot hTokens hTake
  obtain ⟨⟨k, hFacts⟩, -⟩ := hErased.takeSlotFacts hTake
  have hJoined : Buried TailFact.le old n (⟨identity, position, ordinal⟩ :: t₁.facts) := by
    rw [hFacts, h.eraseStaleFacts]
    apply Buried.cons_drop hBuried _ hNew
    exact h.factsSorted.sublist filter_sublist
  have hPerm := (insertCommitted_perm ⟨next, identity, position, ordinal, slot⟩
    t₁.entries).map ExactEntry.fact
  have hLinked := hJoined.perm hPerm.symm
  have hSorted := facts_sorted (insertCommitted_sorted
    (e := ⟨next, identity, position, ordinal, slot⟩) hOk.sorted)
  unfold TailStore.linkEntry
  split
  · unfold SeqTail.facts
    rw [countRecovery_entries]
    exact hLinked
  · rw [facts_trim, SeqTail.facts, countRecovery_entries]
    exact hLinked.drop hSorted _

/-- A commit of an entry that the sequence holds. -/
theorem SeqOk.moveBuried {dup : ExactEntry} (hDup : dup ∈ t.entries)
    (hBuried : Buried TailFact.le old n (commitFacts dup.identity position ordinal t.facts)) :
    Buried TailFact.le old n (TailStore.moveEntry cfg q dup position ordinal t).facts := by
  have hPerm := (filter_node_perm h.apart hDup).map fun e : ExactEntry =>
    if e.node = dup.node then { e with position, insertionOrdinal := ordinal } else e
  have hRest : ((t.entries.filter fun x => x.node ≠ dup.node).map fun e : ExactEntry =>
      if e.node = dup.node then { e with position, insertionOrdinal := ordinal } else e).map
        ExactEntry.fact = t.facts.filter fun x => x.identity.cellKey ≠ dup.identity.cellKey := by
    have hErase := h.eraseFacts hDup false
    rw [← show _ = t.facts.filter fun x => x.identity.cellKey ≠ dup.identity.cellKey from hErase,
      List.map_map]
    apply map_congr_left
    intro x hx
    have hNode : ¬ x.node = dup.node := by simpa using (mem_filter.mp hx).2
    show ExactEntry.fact (if x.node = dup.node then _ else x) = x.fact
    rw [if_neg hNode]
  have hMoved : Buried TailFact.le old n ((t.entries.map fun e : ExactEntry =>
      if e.node = dup.node then { e with position, insertionOrdinal := ordinal } else e).map
        ExactEntry.fact) := by
    apply Buried.perm hBuried
    apply List.Perm.trans _ (hPerm.map ExactEntry.fact).symm
    rw [map_cons, map_cons, hRest, if_pos rfl]
    exact List.Perm.refl _
  have hSort := perm_insertionSort ExactEntry.le (t.entries.map fun e : ExactEntry =>
    if e.node = dup.node then { e with position, insertionOrdinal := ordinal } else e)
  unfold TailStore.moveEntry
  rw [facts_trim]
  apply Buried.drop _ (facts_sorted sort_sorted)
  exact hMoved.perm (hSort.map ExactEntry.fact).symm

theorem SeqOk.commitSeqBuried (hTokens : 0 < cfg.nTokens)
    (hCommit : TailStore.commitSeq cfg q inBatch next identity position ordinal t = some t')
    (hBuried : Buried TailFact.le old n (commitFacts identity position ordinal t.facts))
    (hNew : ¬ old ⟨identity, position, ordinal⟩) : Buried TailFact.le old n t'.facts := by
  unfold TailStore.commitSeq at hCommit
  split at hCommit
  · rename_i dup hFind
    split at hCommit
    · rename_i hSame
      obtain rfl := some.inj hCommit
      apply h.moveBuried (h.find_iff.mp hFind).1
      rw [hSame]
      exact hBuried
    · exact h.commitNewBuried hTokens hCommit hBuried hNew
  · exact h.commitNewBuried hTokens hCommit hBuried hNew

omit h in
theorem countRecovery_vouched {r : Nat} (hDegradation : t.degradation ≠ 0)
    (hr : t.recovery + 1 ≤ r) : (TailStore.countRecovery cfg t).vouched cfg ≤ r := by
  unfold TailStore.countRecovery SeqTail.vouched
  rw [if_pos hDegradation]
  by_cases hEnough : cfg.nTokens ≤ t.recovery + 1
  · rw [if_pos hEnough, if_pos rfl]
    omega
  · rw [if_neg hEnough, if_neg hDegradation]
    exact hr

/-- What a sequence vouches for after a commit of a new entry. -/
theorem SeqOk.commitNewVouched
    (hCommit : TailStore.commitNew cfg q inBatch next identity position ordinal t = some t') :
    t'.vouched cfg ≤ if t.degradation = 0 then cfg.nTokens else t.recovery + 1 := by
  have hErase : (TailStore.eraseStale cfg q identity t).degradation = t.degradation ∧
      (TailStore.eraseStale cfg q identity t).recovery = t.recovery := by
    unfold TailStore.eraseStale
    split <;> exact ⟨rfl, rfl⟩
  unfold TailStore.commitNew at hCommit
  split at hCommit
  · cases hCommit
  rename_i t₁ slot hTake
  obtain rfl := some.inj hCommit
  obtain ⟨-, hDegradation, hRecovery⟩ := (h.eraseStale identity).takeSlotFacts hTake
  rw [hErase.1] at hDegradation
  rw [hErase.2] at hRecovery
  have hCounted : (TailStore.countRecovery cfg { t₁ with
      entries := insertCommitted ⟨next, identity, position, ordinal, slot⟩ t₁.entries
      index := t₁.index.insert identity.cellKey next }).vouched cfg ≤
        if t.degradation = 0 then cfg.nTokens else t.recovery + 1 := by
    by_cases hZero : t.degradation = 0
    · have hSame : t₁.degradation = 0 := hDegradation.trans hZero
      rw [if_pos hZero]
      simp only [hSame]
      exact Nat.le_refl _
    rw [if_neg hZero]
    apply countRecovery_vouched
    · rw [hDegradation]
      exact hZero
    · rw [hRecovery]
  unfold TailStore.linkEntry
  split
  · exact hCounted
  · rw [trim_vouched]
    exact hCounted

theorem SeqOk.commitSeqVouched
    (hCommit : TailStore.commitSeq cfg q inBatch next identity position ordinal t = some t') :
    t'.vouched cfg ≤ t.vouchedCommit cfg identity := by
  have hHeld : identity ∈ t.facts.map TailFact.identity ↔
      ∃ dup, t.find identity.cellKey = some dup ∧ dup.identity = identity := by
    constructor
    · intro hIn
      obtain ⟨x, hx, hIdentity⟩ := mem_map.mp hIn
      obtain ⟨e, he, rfl⟩ := mem_map.mp hx
      exact ⟨e, h.find_iff.mpr ⟨he, congrArg TailIdentity.cellKey hIdentity⟩, hIdentity⟩
    · rintro ⟨dup, hFind, hSame⟩
      exact mem_map.mpr ⟨dup.fact, mem_map.mpr ⟨dup, (h.find_iff.mp hFind).1, rfl⟩, hSame⟩
  have hNew : ¬ identity ∈ t.facts.map TailFact.identity →
      TailStore.commitNew cfg q inBatch next identity position ordinal t = some t' →
      t'.vouched cfg ≤ t.vouchedCommit cfg identity := by
    intro hNot hCommit
    unfold SeqTail.vouchedCommit
    rw [if_neg hNot]
    exact h.commitNewVouched hCommit
  unfold TailStore.commitSeq at hCommit
  split at hCommit
  · rename_i dup hFind
    split at hCommit
    · rename_i hSame
      obtain rfl := some.inj hCommit
      unfold TailStore.moveEntry
      rw [trim_vouched]
      unfold SeqTail.vouchedCommit
      rw [if_pos (hHeld.mpr ⟨dup, hFind, hSame⟩)]
      exact Nat.le_refl _
    rename_i hOther
    apply hNew _ hCommit
    intro hIn
    obtain ⟨dup', hFind', hSame⟩ := hHeld.mp hIn
    rw [hFind] at hFind'
    exact hOther (some.inj hFind' ▸ hSame)
  rename_i hFind
  apply hNew _ hCommit
  intro hIn
  obtain ⟨dup', hFind', -⟩ := hHeld.mp hIn
  rw [hFind] at hFind'
  cases hFind'

/-- A commit that finds the arena exhausted has not replaced an entry. -/
theorem SeqOk.exhausted
    (hCommit : TailStore.commitSeq cfg q inBatch next identity position ordinal t = none) :
    (TailStore.eraseStale cfg q identity t).facts = t.facts := by
  have hErased := h.eraseStale identity
  have hTake : TailStore.takeSlot cfg q inBatch (TailStore.eraseStale cfg q identity t) = none := by
    have hNew : TailStore.commitNew cfg q inBatch next identity position ordinal t = none →
        TailStore.takeSlot cfg q inBatch (TailStore.eraseStale cfg q identity t) = none := by
      unfold TailStore.commitNew
      intro hNone
      split at hNone
      · assumption
      · cases hNone
    unfold TailStore.commitSeq at hCommit
    split at hCommit
    · split at hCommit
      · cases hCommit
      · exact hNew hCommit
    · exact hNew hCommit
  have hFull : cfg.arenaStride ≤ (TailStore.eraseStale cfg q identity t).entries.length := by
    by_contra hRoom
    obtain ⟨t₁, slot, hAcquire, -⟩ := hErased.acquire_some (Nat.lt_of_not_le hRoom)
    unfold TailStore.takeSlot at hTake
    split at hTake
    · split at hTake
      · cases hTake
      · rw [hAcquire] at hTake
        cases hTake
    · rw [hAcquire] at hTake
      cases hTake
  have hArena : t.entries.length ≤ cfg.arenaStride := by
    have hSub : (t.entries.map ExactEntry.slot).toFinset ⊆
        Finset.Ico (cfg.base q) (cfg.base q + cfg.arenaStride) := by
      intro slot hSlot
      rw [List.mem_toFinset, List.mem_map] at hSlot
      obtain ⟨e, he, rfl⟩ := hSlot
      exact Finset.mem_Ico.mpr (h.arena e he)
    have hNodup : (t.entries.map ExactEntry.slot).Nodup := by
      unfold List.Nodup
      rw [pairwise_map]
      exact h.apart.imp fun hApart => hApart.2.2
    have hCard := Finset.card_le_card hSub
    rw [toFinset_card_of_nodup hNodup, length_map, Nat.card_Ico] at hCard
    omega
  have hSame := (eraseStale_sublist identity).eq_of_length_le (hArena.trans hFull)
  rw [SeqTail.facts, hSame]
  rfl

end Facts

/-! ## Runs with the times of commits and degradations -/

/-- When each identity was last committed to a sequence, and when a degradation flag of the
sequence was last set. -/
structure TailHistory where
  committed : Nat → TailIdentity → Nat := fun _ _ => 0
  degraded : Nat → Option Nat := fun _ => none

/-- The entry was not committed after the last event that set a flag. -/
def TailHistory.Old (h : TailHistory) (q : Nat) (x : TailFact) : Prop :=
  ∃ d, h.degraded q = some d ∧ h.committed q x.identity ≤ d

/-- A store, the number of calls so far, their history and that of the open batch's start. -/
structure Watch where
  store : TailStore
  time : Nat := 0
  history : TailHistory := {}
  saved : TailHistory := {}

namespace TailStore

/-- A failed batch returns to the saved state. -/
def rollsBack (s : TailStore) : Bool := s.cfg.compact && s.batch.isSome

/-- The sequence holds an entry whose position a call on `seqId` changes. -/
def touches (s : TailStore) (seqId p0 p1 : Int) (q : Nat) : Bool :=
  (s.seqs q).entries.any fun e => e.identity ∈ touchedIdentities (s.seqs seqId.toNat) p0 p1

/-- The call sets a degradation flag of sequence `q`. -/
def Op.sets (s : TailStore) (q : Nat) (op : Op) : Bool :=
  decide (q < s.cfg.nSeqMax) &&
    match op with
    | .markDegraded seqId flags => decide (flags ≠ 0) && decide (seqId < 0 ∨ seqId = q)
    | .seqAdd seqId p0 p1 shift =>
      s.validSeq seqId && decide (shift ≠ 0 ∧ ¬ (p0 ≤ 0 ∧ p1 < 0)) && s.touches seqId p0 p1 q
    | .seqDiv seqId p0 p1 divisor =>
      s.validSeq seqId && decide (divisor ≠ 0) && decide (divisor ≠ 1 ∧ ¬ (p0 ≤ 0 ∧ p1 < 0)) &&
        s.touches seqId p0 p1 q
    | .finishBatch success payloadMayBeModified =>
      !success && payloadMayBeModified && s.cfg.compact && s.batch.any fun tx => tx.affected q
    | _ => false

/-- The calls of the runs. -/
def Op.Listed : Op → Prop
  | .commit _ _ _ _ _ | .seqRm _ _ _ | .seqRmCell _ _ _ | .recycle _ _ _ | .seqAdd _ _ _ _
  | .seqDiv _ _ _ _ | .markDegraded _ _ | .beginBatch | .finishBatch _ _ => True
  | _ => False

end TailStore

namespace Watch

/-- The times after a call.  A batch that is rolled back takes its commits back. -/
def record (w : Watch) (op : TailStore.Op) : TailHistory where
  committed := match op with
    | .commit seqId identity _ _ _ =>
      if w.store.validSeq seqId then
        Function.update w.history.committed seqId.toNat
          (Function.update (w.history.committed seqId.toNat) identity (w.time + 1))
      else w.history.committed
    | .finishBatch false _ =>
      if w.store.rollsBack then w.saved.committed else w.history.committed
    | _ => w.history.committed
  degraded q := if op.sets w.store q then some (w.time + 1) else w.history.degraded q

def next (w : Watch) (op : TailStore.Op) : Watch where
  store := op.step w.store
  time := w.time + 1
  history := w.record op
  saved := match op with
    | .beginBatch =>
      if w.store.cfg.compact && w.store.batch.isNone then w.history else w.saved
    | _ => w.saved

/-- The newest entries that a report calls complete were committed after the last event that set a
degradation flag. -/
def NotOverclaimed (w : Watch) : Prop :=
  ∀ (seqId : Int) (available : Nat), (w.store.coverage seqId available).state = .complete →
    ∀ x ∈ (w.store.seqs seqId.toNat).facts.drop
        ((w.store.seqs seqId.toNat).facts.length - min w.store.cfg.nTokens available),
      ∀ d, w.history.degraded seqId.toNat = some d →
        d < w.history.committed seqId.toNat x.identity

/-- What a call asks of the entries: a removal takes no entry that is new from above an old one that
stays, a position change lets no old entry reach or pass a new one, and the commit of a new entry goes
above the old ones, or adds to a sequence without flags.  A batch is rolled back over no event that
set a flag, unless the saved state has no entries or counts no commits. -/
def KeepsNew (w : Watch) (op : TailStore.Op) : Prop :=
  let s := w.store
  let Removes (q : Nat) (P : TailFact → Bool) : Prop :=
    KeepsAbove TailFact.le (w.history.Old q) id (fun x => !P x) (s.seqs q).facts
  let Moves (q : Nat) (identities : List TailIdentity) (f : Int → Int) (dropNegative : Bool) : Prop :=
    KeepsAbove TailFact.le (w.history.Old q) (fun x => x.moved identities f)
      (fun x => !x.dropped identities dropNegative) (s.seqs q).facts
  match op with
  | .commit seqId identity position ordinal _ => s.validSeq seqId = true →
      let t := s.seqs seqId.toNat
      let Old := w.history.Old seqId.toNat
      ∀ x ∈ t.facts, Old x → x.identity.cellKey ≠ identity.cellKey →
        t.degradation = 0 ∧ (∀ y ∈ t.facts, y.identity.cellKey ≠ identity.cellKey) ∨
          ¬ TailFact.le ⟨identity, position, ordinal⟩ x ∧ (t.degradation = 0 ∨
            ∀ y ∈ t.facts, y.identity.cellKey = identity.cellKey → y.identity ≠ identity → Old y)
  | .recycle stream cell nextGeneration => ∀ q < s.cfg.nSeqMax, Removes q fun x =>
    decide (x.identity.cellKey = (stream, cell)) && decide (x.identity.generation ≠ nextGeneration)
  | .seqRm seqId p0 p1 => s.validSeq seqId = true →
      Removes seqId.toNat fun x => TailStore.inRange p0 p1 x.position
  | .seqRmCell seqId stream cell => s.validSeq seqId = true →
      Removes seqId.toNat fun x => decide (x.identity.stream = stream ∧ x.identity.cell = cell)
  | .seqAdd seqId p0 p1 shift => s.validSeq seqId = true →
      ∀ q < s.cfg.nSeqMax, op.sets s q = false →
        Moves q (TailStore.touchedIdentities (s.seqs seqId.toNat) p0 p1) (· + shift) true
  | .seqDiv seqId p0 p1 divisor => s.validSeq seqId = true → divisor ≠ 0 →
      ∀ q < s.cfg.nSeqMax, op.sets s q = false →
        Moves q (TailStore.touchedIdentities (s.seqs seqId.toNat) p0 p1) (·.tdiv divisor) false
  | .finishBatch success _ => success = false → s.cfg.compact = true →
      ∀ tx, s.batch = some tx → ∀ q < s.cfg.nSeqMax, op.sets s q = false →
        w.history.degraded q = w.saved.degraded q ∨ (tx.seqs q).entries = [] ∨
          (tx.seqs q).vouched s.cfg = 0
  | _ => True

/-- A new store. -/
def Initial (w : Watch) : Prop := ∃ cfg, w = { store := { cfg } }

/-- The invariant of the runs. -/
structure Sound (w : Watch) : Prop where
  idle : TailStore.Idle w.store
  past : ∀ q d, w.history.degraded q = some d → d ≤ w.time
  outside : ∀ q, ¬ q < w.store.cfg.nSeqMax → w.history.degraded q = none
  buried : ∀ q, Buried TailFact.le (w.history.Old q) ((w.store.seqs q).vouched w.store.cfg)
    (w.store.seqs q).facts
  saved : ∀ tx, w.store.batch = some tx → ∀ q,
    Buried TailFact.le (w.saved.Old q) ((tx.seqs q).vouched w.store.cfg) (tx.seqs q).facts

/-! ## One call -/

section Steps

variable {w : Watch} {op : TailStore.Op}

open TailStore

theorem record_old {q : Nat} (hSets : op.sets w.store q = false)
    (hCommitted : (w.record op).committed q = w.history.committed q) :
    (w.record op).Old q = w.history.Old q := by
  funext x
  show (∃ d, (if op.sets w.store q then some (w.time + 1) else w.history.degraded q) = some d ∧
    (w.record op).committed q x.identity ≤ d) = _
  rw [hSets, hCommitted]
  rfl

theorem record_outside (h : Sound w) (q : Nat) (hq : ¬ q < w.store.cfg.nSeqMax) :
    (w.record op).degraded q = none := by
  have hNever : op.sets w.store q = false := by
    unfold Op.sets
    rw [decide_eq_false hq, Bool.false_and]
  show (if op.sets w.store q then some (w.time + 1) else w.history.degraded q) = none
  rw [hNever]
  exact h.outside q hq

theorem record_past (h : Sound w) (q d : Nat) (hd : (w.record op).degraded q = some d) :
    d ≤ w.time + 1 := by
  have hd' : (if op.sets w.store q then some (w.time + 1) else w.history.degraded q) = some d := hd
  split at hd'
  · exact Nat.le_of_eq (some.inj hd').symm
  · exact Nat.le_succ_of_le (h.past q d hd')

/-- A call outside the two that open and close batches: the saved state stays, and every sequence
is judged by itself. -/
theorem Sound.build (h : Sound w) (hLeaves : TailStore.Leaves w.store (op.step w.store))
    (hSame : (w.next op).saved = w.saved)
    (hBatch : ∀ tx', (op.step w.store).batch = some tx' →
      ∃ tx, w.store.batch = some tx ∧ tx'.seqs = tx.seqs)
    (hSets : ∀ q, op.sets w.store q = true →
      ((op.step w.store).seqs q).vouched w.store.cfg = 0)
    (hSeqs : ∀ q, op.sets w.store q = false →
      Buried TailFact.le ((w.record op).Old q) (((op.step w.store).seqs q).vouched w.store.cfg)
        ((op.step w.store).seqs q).facts) : Sound (w.next op) where
  idle := hLeaves.idle
  past := record_past h
  outside q hq := record_outside h q (hLeaves.cfg ▸ hq)
  buried q := by
    show Buried TailFact.le ((w.record op).Old q)
      (((op.step w.store).seqs q).vouched (op.step w.store).cfg) _
    rw [hLeaves.cfg]
    cases hCase : op.sets w.store q with
    | true =>
      rw [hSets q hCase]
      exact Buried.zero
    | false => exact hSeqs q hCase
  saved tx' htx q := by
    obtain ⟨tx, hTx, hEq⟩ := hBatch tx' htx
    show Buried TailFact.le ((w.next op).saved.Old q) ((tx'.seqs q).vouched (op.step w.store).cfg) _
    rw [hSame, hLeaves.cfg, hEq]
    exact h.saved tx hTx q

variable {cfg : TailConfig}

theorem vouched_degradeSeq (flags : Nat) (t : SeqTail) :
    (degradeSeq flags t).vouched cfg ≤ t.vouched cfg ∧
      (flags ≠ 0 → (degradeSeq flags t).vouched cfg = 0) := by
  unfold SeqTail.vouched degradeSeq
  constructor
  · by_cases hZero : t.degradation ||| flags = 0
    · rw [if_pos hZero, if_pos (Nat.or_eq_zero_iff.mp hZero).1]
    · rw [if_neg hZero]
      exact Nat.zero_le _
  · intro hFlags
    rw [if_neg fun hZero => hFlags (Nat.or_eq_zero_iff.mp hZero).2]

/-- Marking a sequence changes its flags and its counter. -/
theorem markDegraded_seqs (h : Idle w.store) (seqId : Int) (flags q : Nat) :
    ((Op.markDegraded seqId flags).step w.store).batch = w.store.batch ∧
      ((Op.markDegraded seqId flags).step w.store).seqs q =
        if q < w.store.cfg.nSeqMax ∧ (seqId < 0 ∨ seqId = q) then
          degradeSeq flags (w.store.seqs q)
        else w.store.seqs q := by
  by_cases hAll : seqId < 0
  · obtain ⟨-, hStep⟩ := step_of_ok (.markDegraded seqId flags) (s := w.store) (if_pos hAll)
    rw [hStep]
    refine ⟨rfl, ?_⟩
    simp only [hAll, true_or, and_true]
    rfl
  by_cases hValid : w.store.validSeq seqId = true
  · have hRun : (Op.markDegraded seqId flags).run w.store =
        .ok () (w.store.modSeq seqId.toNat (degradeSeq flags)) := by
      show TailStore.markDegraded seqId flags w.store = _
      unfold TailStore.markDegraded
      rw [if_neg hAll, if_pos hValid]
      simp only [h.pending]
      rfl
    rw [(step_of_ok _ hRun).2]
    refine ⟨rfl, ?_⟩
    have hRange : 0 ≤ seqId ∧ seqId < w.store.cfg.nSeqMax := by
      simpa [validSeq] using hValid
    by_cases hq : q = seqId.toNat
    · rw [if_pos (by omega), hq, modSeq_seqs_self]
    · rw [if_neg (by omega), modSeq_seqs_ne w.store hq]
  have hRun : (Op.markDegraded seqId flags).run w.store = .ok () w.store := by
    show TailStore.markDegraded seqId flags w.store = _
    unfold TailStore.markDegraded
    rw [if_neg hAll, if_neg hValid]
  rw [(step_of_ok _ hRun).2]
  refine ⟨rfl, ?_⟩
  have hRange : ¬ (0 ≤ seqId ∧ seqId < w.store.cfg.nSeqMax) := by
    simpa [validSeq] using hValid
  rw [if_neg (by omega)]

section

variable (h : Sound w)

include h

theorem Sound.markDegraded (seqId : Int) (flags : Nat) :
    Sound (w.next (.markDegraded seqId flags)) := by
  obtain ⟨-, hLeaves, -⟩ := shrink_spec (.markDegraded seqId flags) h.idle trivial
  apply h.build hLeaves rfl
  · intro tx' htx
    rw [(markDegraded_seqs h.idle seqId flags 0).1] at htx
    exact ⟨tx', htx, rfl⟩
  · intro q hSets
    simp only [Op.sets, Bool.and_eq_true, decide_eq_true_eq] at hSets
    rw [(markDegraded_seqs h.idle seqId flags q).2, if_pos ⟨hSets.1, hSets.2.2⟩]
    exact (vouched_degradeSeq flags _).2 hSets.2.1
  intro q hSets
  rw [record_old hSets rfl, (markDegraded_seqs h.idle seqId flags q).2]
  split
  · exact (h.buried q).mono (fun _ _ hOld => hOld) (vouched_degradeSeq flags _).1
  · exact h.buried q

/-- A call that sets no flag and is not a commit. -/
theorem Sound.removes (hLeaves : TailStore.Leaves w.store (op.step w.store))
    (hSame : (w.next op).saved = w.saved)
    (hCommitted : (w.record op).committed = w.history.committed)
    (hBatch : ∀ tx', (op.step w.store).batch = some tx' →
      ∃ tx, w.store.batch = some tx ∧ tx'.seqs = tx.seqs) (hNever : ∀ q, op.sets w.store q = false)
    (hSeqs : ∀ q, Buried TailFact.le (w.history.Old q)
      (((op.step w.store).seqs q).vouched w.store.cfg) ((op.step w.store).seqs q).facts) :
    Sound (w.next op) := by
  apply h.build hLeaves hSame hBatch
  · intro q hSets
    rw [hNever q] at hSets
    cases hSets
  intro q hSets
  rw [record_old hSets (congrFun hCommitted q)]
  exact hSeqs q

theorem Sound.modSeq {q : Nat} {f : SeqTail → SeqTail}
    (hf : Buried TailFact.le (w.history.Old q) ((f (w.store.seqs q)).vouched w.store.cfg)
      (f (w.store.seqs q)).facts) (r : Nat) :
    Buried TailFact.le (w.history.Old r) (((w.store.modSeq q f).seqs r).vouched w.store.cfg)
      ((w.store.modSeq q f).seqs r).facts := by
  by_cases hr : r = q
  · rw [hr, modSeq_seqs_self]
    exact hf
  · rw [modSeq_seqs_ne w.store hr]
    exact h.buried r

/-- What a removal leaves above the old entries. -/
theorem Sound.removed {q : Nat} {P : TailFact → Bool}
    (hAbove : KeepsAbove TailFact.le (w.history.Old q) id (fun x => !P x) (w.store.seqs q).facts) :
    Buried TailFact.le (w.history.Old q) ((w.store.seqs q).vouched w.store.cfg)
      ((w.store.seqs q).facts.filter fun x => !P x) := by
  have hFilter := (h.buried q).map_filter hAbove fun _ _ hOld => hOld
  rwa [List.map_id] at hFilter

theorem Sound.seqRm (seqId p0 p1 : Int)
    (hKeeps : w.KeepsNew (.seqRm seqId p0 p1)) : Sound (w.next (.seqRm seqId p0 p1)) := by
  obtain ⟨-, hLeaves, -⟩ := shrink_spec (.seqRm seqId p0 p1) h.idle trivial
  have hNever : ∀ q, (Op.seqRm seqId p0 p1).sets w.store q = false := fun q => Bool.and_false _
  by_cases hValid : w.store.validSeq seqId = true
  · obtain ⟨-, hStep⟩ := step_of_ok (.seqRm seqId p0 p1)
      (seqRm_run p0 p1 hValid (h.idle.seqs seqId.toNat))
    apply h.removes hLeaves rfl rfl _ hNever
    · rw [hStep]
      apply h.modSeq
      obtain ⟨hFacts, hVouched⟩ := @dropWhere_reindex w.store.cfg seqId.toNat
        (w.store.seqs seqId.toNat) (fun e => inRange p0 p1 e.position)
        (fun x => inRange p0 p1 x.position) (fun _ => rfl)
      unfold seqRmSeq
      dsimp only
      split
      · rename_i hEmpty
        intro x hx
        rw [hEmpty.1] at hx
        cases hx
      · rw [hFacts, hVouched]
        exact h.removed (hKeeps hValid)
    · rw [hStep]
      exact fun tx' htx => ⟨tx', htx, rfl⟩
  obtain ⟨-, hStep⟩ := step_of_ok (.seqRm seqId p0 p1) (seqRm_invalid hValid)
  apply h.removes hLeaves rfl rfl _ hNever
  · rw [hStep]
    exact h.buried
  · rw [hStep]
    exact fun tx' htx => ⟨tx', htx, rfl⟩

theorem Sound.seqRmCell (seqId : Int) (stream cell : Nat)
    (hKeeps : w.KeepsNew (.seqRmCell seqId stream cell)) :
    Sound (w.next (.seqRmCell seqId stream cell)) := by
  obtain ⟨-, hLeaves, -⟩ := shrink_spec (.seqRmCell seqId stream cell) h.idle trivial
  have hNever : ∀ q, (Op.seqRmCell seqId stream cell).sets w.store q = false :=
    fun q => Bool.and_false _
  by_cases hValid : w.store.validSeq seqId = true
  · obtain ⟨-, hStep⟩ := step_of_ok (.seqRmCell seqId stream cell)
      (seqRmCell_run hValid (h.idle.seqs seqId.toNat))
    apply h.removes hLeaves rfl rfl _ hNever
    · rw [hStep]
      apply h.modSeq
      obtain ⟨hFacts, hVouched⟩ := @dropWhere_reindex w.store.cfg seqId.toNat
        (w.store.seqs seqId.toNat)
        (fun e => decide (e.identity.stream = stream ∧ e.identity.cell = cell))
        (fun x => decide (x.identity.stream = stream ∧ x.identity.cell = cell)) (fun _ => rfl)
      unfold seqRmCellSeq
      rw [hFacts, hVouched]
      exact h.removed (hKeeps hValid)
    · rw [hStep]
      exact fun tx' htx => ⟨tx', htx, rfl⟩
  obtain ⟨-, hStep⟩ := step_of_ok (.seqRmCell seqId stream cell) (seqRmCell_invalid hValid)
  apply h.removes hLeaves rfl rfl _ hNever
  · rw [hStep]
    exact h.buried
  · rw [hStep]
    exact fun tx' htx => ⟨tx', htx, rfl⟩

omit h in
theorem recycleSeq_facts {q n : Nat} {t : SeqTail} (h : SeqOk cfg q n [] t)
    (stream cell nextGeneration : Nat) :
    (recycleSeq cfg stream cell nextGeneration q t).facts =
        t.facts.filter (fun x => !(decide (x.identity.cellKey = (stream, cell)) &&
          decide (x.identity.generation ≠ nextGeneration))) ∧
      (recycleSeq cfg stream cell nextGeneration q t).vouched cfg = t.vouched cfg := by
  have hKeep : (∀ e ∈ t.entries, e.key = (stream, cell) →
      e.identity.generation = nextGeneration) →
      t.facts = t.facts.filter (fun x => !(decide (x.identity.cellKey = (stream, cell)) &&
        decide (x.identity.generation ≠ nextGeneration))) := by
    intro hAll
    apply Eq.symm
    apply filter_eq_self.mpr
    intro x hx
    obtain ⟨e, he, rfl⟩ := mem_map.mp hx
    show (!(decide (e.key = (stream, cell)) && decide (e.identity.generation ≠ nextGeneration))) =
      true
    by_cases hKey : e.key = (stream, cell)
    · simp [hAll e he hKey]
    · simp [hKey]
  unfold recycleSeq
  split
  · rename_i e hFind
    obtain ⟨he, hKey⟩ := h.find_iff.mp hFind
    have hOnly : ∀ x ∈ t.entries, x.key = (stream, cell) → x = e := by
      intro x hx hxKey
      exact eq_of_not_apart h.apart hx he fun hApart => hApart.1 (hxKey.trans hKey.symm)
    split
    · rename_i hStale
      refine ⟨?_, rfl⟩
      rw [h.eraseFacts he]
      apply filter_congr
      intro x hx
      obtain ⟨y, hy, rfl⟩ := mem_map.mp hx
      show decide (y.key ≠ e.key) = !(decide (y.key = (stream, cell)) &&
        decide (y.identity.generation ≠ nextGeneration))
      rw [hKey]
      by_cases hyKey : y.key = (stream, cell)
      · rw [hOnly y hy hyKey]
        simp [hStale]
      · simp [hyKey]
    rename_i hCurrent
    refine ⟨hKeep fun x hx hxKey => ?_, rfl⟩
    rw [hOnly x hx hxKey]
    exact not_not.mp hCurrent
  · rename_i hFind
    exact ⟨hKeep fun x hx hxKey => absurd hxKey (h.find_none hFind x hx), rfl⟩

theorem Sound.recycle (stream cell nextGeneration : Nat)
    (hKeeps : w.KeepsNew (.recycle stream cell nextGeneration)) :
    Sound (w.next (.recycle stream cell nextGeneration)) := by
  obtain ⟨-, hLeaves, -⟩ := shrink_spec (.recycle stream cell nextGeneration) h.idle trivial
  obtain ⟨-, hStep⟩ := step_of_ok (.recycle stream cell nextGeneration) (s := w.store) rfl
  apply h.removes hLeaves rfl rfl _ (fun q => Bool.and_false _)
  · intro q
    show Buried _ _ (SeqTail.vouched _ (if q < w.store.cfg.nSeqMax then _ else _))
      (SeqTail.facts (if q < w.store.cfg.nSeqMax then _ else _))
    by_cases hq : q < w.store.cfg.nSeqMax
    · obtain ⟨hFacts, hVouched⟩ := recycleSeq_facts (h.idle.seqs q) stream cell nextGeneration
      rw [if_pos hq, hFacts, hVouched]
      exact h.removed (hKeeps q hq)
    · rw [if_neg hq]
      exact h.buried q
  intro tx' htx
  obtain ⟨tx, hTx, rfl⟩ := map_eq_some_iff.mp htx
  exact ⟨tx, hTx, rfl⟩

end

/-- The facts of a sequence after a position change that sets no flag there. -/
theorem repositionedSeq_facts {q m : Nat} {t : SeqTail}
    {old : TailFact → Prop} (identities : List TailIdentity) (f : Int → Int)
    (dropNegative degrade : Bool)
    (hQuiet : (degrade && t.entries.any fun e => e.identity ∈ identities) = false)
    (hBuried : Buried TailFact.le old m (repositionFacts identities f dropNegative t.facts)) :
    Buried TailFact.le old m (repositionedSeq cfg identities f dropNegative degrade q t).facts ∧
      (repositionedSeq cfg identities f dropNegative degrade q t).vouched cfg = t.vouched cfg := by
  unfold repositionedSeq
  by_cases hTouched : (t.entries.any fun e => e.identity ∈ identities) = true
  · have hDegrade : degrade = false := by simpa [hTouched] using hQuiet
    rw [if_pos hTouched, hDegrade]
    have hMoved : (t.entries.map fun e : ExactEntry =>
        if e.identity ∈ identities then { e with position := f e.position } else e).map
          ExactEntry.fact = t.facts.map fun x => x.moved identities f := by
      unfold SeqTail.facts
      rw [List.map_map, List.map_map]
      apply map_congr_left
      intro e _
      show ExactEntry.fact (if e.identity ∈ identities then _ else e) =
        if e.identity ∈ identities then _ else e.fact
      split <;> rfl
    obtain ⟨hFacts, hVouched⟩ := @dropWhere_reindex cfg q
      { t with entries := t.entries.map fun e : ExactEntry =>
        if e.identity ∈ identities then { e with position := f e.position } else e }
      (fun e => dropNegative && decide (e.identity ∈ identities) && decide (e.position < 0))
      (fun x => x.dropped identities dropNegative) (fun _ => rfl)
    constructor
    · unfold SeqTail.facts at hFacts
      rw [hMoved] at hFacts
      show Buried TailFact.le old m (repositionEntries cfg q identities f dropNegative t).facts
      unfold repositionEntries
      rw [facts_trim]
      apply Buried.drop _ (facts_sorted sort_sorted)
      apply Buried.perm _ ((perm_insertionSort ExactEntry.le _).map ExactEntry.fact).symm
      unfold repositionFacts at hBuried
      rw [← hFacts] at hBuried
      exact hBuried
    show (repositionEntries cfg q identities f dropNegative t).vouched cfg = t.vouched cfg
    unfold repositionEntries
    dsimp only
    rw [trim_vouched]
    exact hVouched
  rw [if_neg hTouched]
  refine ⟨?_, rfl⟩
  have hNone : ∀ x ∈ t.facts, x.identity ∉ identities := by
    intro x hx hIn
    obtain ⟨e, he, rfl⟩ := mem_map.mp hx
    exact hTouched (any_eq_true.mpr ⟨e, he, decide_eq_true hIn⟩)
  have hSame : repositionFacts identities f dropNegative t.facts = t.facts := by
    have hMap : (t.facts.map fun x => x.moved identities f) = t.facts := by
      apply Eq.trans _ (map_id t.facts)
      exact map_congr_left fun x hx => if_neg (hNone x hx)
    unfold repositionFacts
    rw [hMap]
    apply filter_eq_self.mpr
    intro x hx
    simp [TailFact.dropped, hNone x hx]
  rw [← hSame]
  exact hBuried

theorem repositionedSeq_degraded {q : Nat} {t : SeqTail}
    (identities : List TailIdentity) (f : Int → Int) (dropNegative : Bool)
    (hTouched : (t.entries.any fun e => e.identity ∈ identities) = true) :
    (repositionedSeq cfg identities f dropNegative true q t).vouched cfg = 0 := by
  unfold repositionedSeq
  rw [if_pos hTouched]
  exact (vouched_degradeSeq degradedHistoricalOp _).2 (by decide)

variable (h : Sound w)

include h

/-- What a position change leaves above the old entries. -/
theorem Sound.moved {q : Nat} {identities : List TailIdentity} {f : Int → Int}
    {dropNegative : Bool} (hAbove : KeepsAbove TailFact.le (w.history.Old q)
      (fun x => x.moved identities f) (fun x => !x.dropped identities dropNegative)
      (w.store.seqs q).facts) :
    Buried TailFact.le (w.history.Old q) ((w.store.seqs q).vouched w.store.cfg)
      (repositionFacts identities f dropNegative (w.store.seqs q).facts) := by
  refine (h.buried q).map_filter hAbove fun x _ hOld => ?_
  have hIdentity : (x.moved identities f).identity = x.identity := by
    unfold TailFact.moved
    split <;> rfl
  unfold TailHistory.Old at hOld ⊢
  rwa [hIdentity] at hOld

theorem Sound.reposition {identities : List TailIdentity} {f : Int → Int}
    {dropNegative degrade : Bool} (hRun : op.run w.store = (range w.store.cfg.nSeqMax).forM
      (repositionSeq identities f dropNegative degrade) w.store)
    (hSame : (w.next op).saved = w.saved)
    (hCommitted : (w.record op).committed = w.history.committed)
    (hSets : ∀ q < w.store.cfg.nSeqMax, op.sets w.store q =
      (degrade && (w.store.seqs q).entries.any fun e => e.identity ∈ identities))
    (hOutside : ∀ q, ¬ q < w.store.cfg.nSeqMax → op.sets w.store q = false)
    (hKeeps : ∀ q < w.store.cfg.nSeqMax, op.sets w.store q = false →
      KeepsAbove TailFact.le (w.history.Old q) (fun x => x.moved identities f)
        (fun x => !x.dropped identities dropNegative) (w.store.seqs q).facts) :
    Sound (w.next op) := by
  obtain ⟨-, hLeaves, -⟩ := reposition_spec h.idle hRun
  rw [reposition_run h.idle] at hRun
  obtain ⟨-, hStep⟩ := step_of_ok op hRun
  have hSeq : ∀ q, (op.step w.store).seqs q = if q < w.store.cfg.nSeqMax then
      repositionedSeq w.store.cfg identities f dropNegative degrade q (w.store.seqs q)
      else w.store.seqs q := by
    intro q
    rw [hStep]
    rfl
  apply h.build hLeaves hSame
  · intro tx' htx
    rw [hStep] at htx
    exact ⟨tx', htx, rfl⟩
  · intro q hIs
    have hq : q < w.store.cfg.nSeqMax := by
      by_contra hNot
      rw [hOutside q hNot] at hIs
      cases hIs
    rw [hSets q hq, Bool.and_eq_true] at hIs
    rw [hSeq q, if_pos hq, hIs.1]
    exact repositionedSeq_degraded identities f dropNegative hIs.2
  intro q hNot
  rw [record_old hNot (congrFun hCommitted q), hSeq q]
  by_cases hq : q < w.store.cfg.nSeqMax
  · have hQuiet := hSets q hq
    rw [hNot] at hQuiet
    obtain ⟨hFacts, hVouched⟩ := @repositionedSeq_facts w.store.cfg q _ _ _ identities f
      dropNegative degrade hQuiet.symm (h.moved (hKeeps q hq hNot))
    rw [if_pos hq, hVouched]
    exact hFacts
  · rw [if_neg hq]
    exact h.buried q

theorem Sound.nothing (hRun : op.run w.store = .ok () w.store) (hSame : (w.next op).saved = w.saved)
    (hCommitted : (w.record op).committed = w.history.committed)
    (hNever : ∀ q, op.sets w.store q = false) : Sound (w.next op) := by
  obtain ⟨-, hStep⟩ := step_of_ok op hRun
  apply h.removes _ hSame hCommitted _ hNever
  · rw [hStep]
    exact h.buried
  · rw [hStep]
    exact Leaves.refl h.idle
  · rw [hStep]
    exact fun tx' htx => ⟨tx', htx, rfl⟩

theorem Sound.seqAdd (seqId p0 p1 shift : Int)
    (hKeeps : w.KeepsNew (.seqAdd seqId p0 p1 shift)) :
    Sound (w.next (.seqAdd seqId p0 p1 shift)) := by
  by_cases hValid : w.store.validSeq seqId = true
  · apply h.reposition (seqAdd_forM hValid) rfl rfl
    · intro q hq
      simp only [Op.sets, hq, hValid, decide_true]
      rfl
    · intro q hq
      simp only [Op.sets, hq, decide_false, Bool.false_and]
    · exact hKeeps hValid
  apply h.nothing (seqAdd_invalid hValid) rfl rfl
  intro q
  simp only [Op.sets, Bool.not_eq_true] at hValid ⊢
  rw [hValid, Bool.false_and, Bool.false_and, Bool.and_false]

theorem Sound.seqDiv (seqId p0 p1 divisor : Int)
    (hKeeps : w.KeepsNew (.seqDiv seqId p0 p1 divisor)) :
    Sound (w.next (.seqDiv seqId p0 p1 divisor)) := by
  by_cases hValid : w.store.validSeq seqId = true ∧ divisor ≠ 0
  · apply h.reposition (seqDiv_forM hValid) rfl rfl
    · intro q hq
      simp only [Op.sets, hq, hValid.1, hValid.2, ne_eq]
      rfl
    · intro q hq
      simp only [Op.sets, hq, decide_false, Bool.false_and]
    · exact hKeeps hValid.1 hValid.2
  apply h.nothing (seqDiv_invalid hValid) rfl rfl
  intro q
  have hOff : (w.store.validSeq seqId && decide (divisor ≠ 0)) = false := by
    rw [Bool.and_eq_false_iff, decide_eq_false_iff_not]
    by_cases hSeq : w.store.validSeq seqId = true
    · exact Or.inr fun hne => hValid ⟨hSeq, hne⟩
    · exact Or.inl (Bool.not_eq_true _ ▸ hSeq)
  simp only [Op.sets]
  rw [hOff, Bool.false_and, Bool.false_and, Bool.and_false]

omit h in
/-- What a commit does to the sequences and to the saved state. -/
theorem commit_outcome (w : Watch) (seqId : Int) (identity : TailIdentity)
    (position : Int) (ordinal : Nat) (currentRow : Option Nat) :
    (∀ tx', ((Op.commit seqId identity position ordinal currentRow).step w.store).batch = some tx' →
      ∃ tx, w.store.batch = some tx ∧ tx'.seqs = tx.seqs) ∧
    (((Op.commit seqId identity position ordinal currentRow).step w.store).seqs = w.store.seqs ∧
        (w.store.validSeq seqId = false ∨ w.store.cfg.nTokens = 0) ∨
      w.store.validSeq seqId = true ∧ 0 < w.store.cfg.nTokens ∧
        ((∃ t, commitSeq w.store.cfg seqId.toNat w.store.inBatch w.store.nextNode identity position
            ordinal (w.store.seqs seqId.toNat) = some t ∧
          ((Op.commit seqId identity position ordinal currentRow).step w.store).seqs =
            (w.store.modSeq seqId.toNat fun _ => t).seqs) ∨
          (commitSeq w.store.cfg seqId.toNat w.store.inBatch w.store.nextNode identity position
              ordinal (w.store.seqs seqId.toNat) = none ∧
            ((Op.commit seqId identity position ordinal currentRow).step w.store).seqs =
              (w.store.modSeq seqId.toNat
                (eraseStale w.store.cfg seqId.toNat identity)).seqs))) := by
  have hRun : (Op.commit seqId identity position ordinal currentRow).run w.store =
      (TailStore.commit seqId identity position ordinal currentRow >>= fun _ => pure ())
        w.store := rfl
  unfold TailStore.commit at hRun
  simp only [Bind.bind, EStateM.bind] at hRun
  by_cases hSkip : (!w.store.validSeq seqId) = true ∨ w.store.cfg.nTokens = 0
  · rw [if_pos hSkip] at hRun
    rw [(step_of_ok _ hRun).2]
    refine ⟨fun tx' htx => ⟨tx', htx, rfl⟩, Or.inl ⟨rfl, ?_⟩⟩
    rwa [Bool.not_eq_true'] at hSkip
  rw [if_neg hSkip] at hRun
  rw [not_or, Bool.not_eq_true', Bool.not_eq_false] at hSkip
  cases hCommit : commitSeq w.store.cfg seqId.toNat w.store.inBatch w.store.nextNode identity
      position ordinal (w.store.seqs seqId.toNat) with
  | none =>
    simp only [hCommit] at hRun
    rw [(step_of_error _ hRun (by simp)).2]
    exact ⟨fun tx' htx => ⟨tx', htx, rfl⟩,
      Or.inr ⟨hSkip.1, Nat.pos_of_ne_zero hSkip.2, Or.inr ⟨rfl, rfl⟩⟩⟩
  | some t =>
    simp only [hCommit] at hRun
    rcases recordCurrent_spec (s := { w.store.modSeq seqId.toNat (fun _ => t) with
        nextNode := w.store.nextNode + 1 }) seqId.toNat identity position ordinal currentRow
        (retainedSlot t identity) with ⟨b, hRecord, hb⟩ | hRecord
    · rw [hRecord] at hRun
      rw [(step_of_ok _ hRun).2]
      exact ⟨hb, Or.inr ⟨hSkip.1, Nat.pos_of_ne_zero hSkip.2, Or.inl ⟨t, rfl, rfl⟩⟩⟩
    rw [hRecord] at hRun
    rw [(step_of_error _ hRun (by simp)).2]
    exact ⟨fun tx' htx => ⟨tx', htx, rfl⟩,
      Or.inr ⟨hSkip.1, Nat.pos_of_ne_zero hSkip.2, Or.inl ⟨t, rfl, rfl⟩⟩⟩

/-- After a commit the committed identity is no longer old. -/
theorem commit_old {seqId : Int} {currentRow : Option Nat} (hValid : w.store.validSeq seqId = true)
    {x : TailFact}
    (hOld : (w.record (.commit seqId identity position ordinal currentRow)).Old seqId.toNat x) :
    w.history.Old seqId.toNat x ∧ x.identity ≠ identity := by
  obtain ⟨d, hd, hCommitted⟩ := hOld
  have hDegraded : w.history.degraded seqId.toNat = some d := by
    have hNone : (Op.commit seqId identity position ordinal currentRow).sets w.store seqId.toNat =
        false := Bool.and_false _
    have hd' : (if (Op.commit seqId identity position ordinal currentRow).sets w.store
        seqId.toNat then some (w.time + 1) else w.history.degraded seqId.toNat) = some d := hd
    rwa [hNone] at hd'
  have hTimes : (w.record (.commit seqId identity position ordinal currentRow)).committed
      seqId.toNat = update (w.history.committed seqId.toNat) identity (w.time + 1) := by
    show (if w.store.validSeq seqId then update w.history.committed seqId.toNat
      (update (w.history.committed seqId.toNat) identity (w.time + 1))
      else w.history.committed) seqId.toNat = _
    rw [hValid, if_pos rfl, update_self]
  rw [hTimes] at hCommitted
  have hPast := h.past _ _ hDegraded
  by_cases hSame : x.identity = identity
  · rw [hSame, update_self] at hCommitted
    omega
  · rw [update_of_ne hSame] at hCommitted
    exact ⟨⟨d, hDegraded, hCommitted⟩, hSame⟩

omit h in
/-- No two entries of a sequence have one cell. -/
theorem SeqOk.oneOfCell {q n : Nat} {t : SeqTail} (h : SeqOk cfg q n [] t) (key : Nat × Nat) :
    (t.facts.filter fun x => !decide (x.identity.cellKey ≠ key)).length ≤ 1 := by
  have hApart : t.facts.Pairwise fun x y => x.identity.cellKey ≠ y.identity.cellKey := by
    unfold SeqTail.facts
    rw [pairwise_map]
    exact h.apart.imp fun hApart => hApart.1
  have hKey : ∀ x ∈ t.facts.filter (fun x => !decide (x.identity.cellKey ≠ key)),
      x.identity.cellKey = key := fun x hx => by simpa using (mem_filter.mp hx).2
  have hFiltered := hApart.sublist (filter_sublist (p := fun x =>
    !decide (x.identity.cellKey ≠ key)))
  generalize t.facts.filter (fun x => !decide (x.identity.cellKey ≠ key)) = l at hKey hFiltered ⊢
  match l with
  | [] => exact Nat.zero_le _
  | [x] => exact Nat.le_refl _
  | x :: y :: l =>
    refine absurd ?_ ((pairwise_cons.mp hFiltered).1 y mem_cons_self)
    rw [hKey x mem_cons_self, hKey y (mem_cons_of_mem _ mem_cons_self)]

/-- A commit that goes above the old entries, or adds to a sequence without flags. -/
theorem Sound.commitAbove {seqId : Int} {identity : TailIdentity} {position : Int} {ordinal : Nat}
    {currentRow : Option Nat}
    (hKeeps : w.KeepsNew (.commit seqId identity position ordinal currentRow))
    (hValid : w.store.validSeq seqId = true) :
    Buried TailFact.le (fun x => w.history.Old seqId.toNat x ∧ x.identity ≠ identity)
      ((w.store.seqs seqId.toNat).vouchedCommit w.store.cfg identity)
      (commitFacts identity position ordinal (w.store.seqs seqId.toNat).facts) := by
  intro x hx hOld
  obtain ⟨hOld, hOther⟩ := hOld
  rcases mem_cons.mp hx with rfl | hx
  · exact absurd rfl hOther
  have hBuried := h.buried seqId.toNat
  have hOne := SeqOk.oneOfCell (h.idle.seqs seqId.toNat) identity.cellKey
  have hKeeps := hKeeps hValid
  dsimp only at hKeeps
  generalize w.store.seqs seqId.toNat = t at hx hBuried hOne hKeeps ⊢
  obtain ⟨hx, hKey⟩ := mem_filter.mp hx
  have hKey : x.identity.cellKey ≠ identity.cellKey := of_decide_eq_true hKey
  have hVouched : t.degradation = 0 →
      t.vouchedCommit w.store.cfg identity = t.vouched w.store.cfg := by
    intro hClean
    unfold SeqTail.vouchedCommit SeqTail.vouched
    rw [if_pos hClean, if_pos hClean]
  unfold commitFacts
  rw [countAbove_cons]
  rcases hKeeps x hx hOld hKey with ⟨hClean, hFree⟩ | ⟨hLe, hReplaced⟩
  · -- nothing is replaced
    rw [hVouched hClean, filter_eq_self.mpr fun y hy => decide_eq_true (hFree y hy)]
    exact (hBuried x hx hOld).trans (Nat.le_add_right _ _)
  rw [if_neg hLe]
  have hLost := (hBuried x hx hOld).trans (countAbove_filter hOne x)
  by_cases hClean : t.degradation = 0
  · rw [hVouched hClean]
    exact hLost
  have hReplaced := hReplaced.resolve_left hClean
  unfold SeqTail.vouched at hBuried hLost
  unfold SeqTail.vouchedCommit
  rw [if_neg hClean] at hBuried hLost ⊢
  by_cases hHeld : identity ∈ t.facts.map TailFact.identity
  · rw [if_pos hHeld]
    exact hLost
  -- the entry that is replaced is old
  rw [if_neg hHeld]
  have hKept := hBuried.map_filter (g := id) (P := fun y => decide (y.identity.cellKey ≠
    identity.cellKey)) (fun a _ _ _ b hb hNew hAbove => ⟨?_, hAbove⟩) fun _ _ hOld => hOld
  · rw [List.map_id] at hKept
    exact Nat.succ_le_succ (hKept x (mem_filter.mpr ⟨hx, decide_eq_true hKey⟩) hOld)
  apply decide_eq_true
  intro hSame
  refine hNew (hReplaced b hb hSame fun hIdentity => hHeld ?_)
  exact mem_map.mpr ⟨b, hb, hIdentity⟩

theorem Sound.commit (seqId : Int) (identity : TailIdentity) (position : Int)
    (ordinal : Nat) (currentRow : Option Nat)
    (hKeeps : w.KeepsNew (.commit seqId identity position ordinal currentRow)) :
    Sound (w.next (.commit seqId identity position ordinal currentRow)) := by
  obtain ⟨-, hLeaves, -⟩ := commit_spec h.idle seqId identity position ordinal currentRow
  obtain ⟨hBatch, hOutcome⟩ := commit_outcome w seqId identity position ordinal currentRow
  have hNever : ∀ q, (Op.commit seqId identity position ordinal currentRow).sets w.store q =
      false := fun q => Bool.and_false _
  -- a sequence that the commit does not name
  have hOther : ∀ q, (w.store.validSeq seqId = true → q ≠ seqId.toNat) →
      (w.record (.commit seqId identity position ordinal currentRow)).Old q = w.history.Old q := by
    intro q hq
    apply record_old (hNever q)
    show (if w.store.validSeq seqId then update w.history.committed seqId.toNat _
      else w.history.committed) q = _
    by_cases hValid : w.store.validSeq seqId = true
    · rw [if_pos hValid, update_of_ne (hq hValid)]
    · rw [if_neg hValid]
  apply h.build hLeaves rfl hBatch
  · intro q hSets
    rw [hNever q] at hSets
    cases hSets
  intro q _
  rcases hOutcome with ⟨hSeqs, -⟩ | ⟨hValid, hTokens, hSeqs⟩
  · rw [hSeqs]
    by_cases hq : w.store.validSeq seqId = true → q ≠ seqId.toNat
    · rw [hOther q hq]
      exact h.buried q
    obtain ⟨hValid, rfl⟩ : w.store.validSeq seqId = true ∧ q = seqId.toNat := by
      simpa using hq
    exact (h.buried _).mono (fun x _ hOld => (commit_old h hValid hOld).1) (Nat.le_refl _)
  by_cases hq : q = seqId.toNat
  · subst hq
    have hOk := h.idle.seqs seqId.toNat
    have hCommitted : Buried TailFact.le
        ((w.record (.commit seqId identity position ordinal currentRow)).Old seqId.toNat)
        ((w.store.seqs seqId.toNat).vouchedCommit w.store.cfg identity)
        (commitFacts identity position ordinal (w.store.seqs seqId.toNat).facts) :=
      (h.commitAbove hKeeps hValid).mono (fun x _ hOld => commit_old h hValid hOld)
        (Nat.le_refl _)
    rcases hSeqs with ⟨t, hCommit, hSeqs⟩ | ⟨hCommit, hSeqs⟩
    · rw [hSeqs, modSeq_seqs_self]
      have hAfter := hOk.commitSeqBuried hTokens hCommit hCommitted
        fun hOld => (commit_old h hValid hOld).2 rfl
      exact hAfter.mono (fun _ _ hOld => hOld) (hOk.commitSeqVouched hCommit)
    rw [hSeqs, modSeq_seqs_self, hOk.exhausted hCommit]
    apply (h.buried seqId.toNat).mono (fun x _ hOld => (commit_old h hValid hOld).1)
    unfold eraseStale
    split <;> exact Nat.le_refl _
  rw [hOther q fun _ => hq]
  rcases hSeqs with ⟨t, -, hSeqs⟩ | ⟨-, hSeqs⟩
  · rw [hSeqs, modSeq_seqs_ne w.store hq]
    exact h.buried q
  · rw [hSeqs, modSeq_seqs_ne w.store hq]
    exact h.buried q

/-- A batch begins: the entries are trimmed, and a compact store saves its state. -/
theorem Sound.beginBatch : Sound (w.next .beginBatch) := by
  obtain ⟨-, hLeaves, -⟩ := shrink_spec .beginBatch h.idle trivial
  have hNever : ∀ q, Op.beginBatch.sets w.store q = false := fun q => Bool.and_false _
  have hOld : ∀ q, (w.next .beginBatch).history.Old q = w.history.Old q :=
    fun q => record_old (hNever q) rfl
  by_cases hOpen : w.store.cfg.compact = true ∧ w.store.batch.isSome = true
  · have hRun : Op.beginBatch.run w.store = .error .batchPending w.store := if_pos hOpen
    obtain ⟨-, hStep⟩ := step_of_error _ hRun (by simp)
    have hSaved : (w.next .beginBatch).saved = w.saved := by
      show (if w.store.cfg.compact && w.store.batch.isNone then w.history else w.saved) = w.saved
      rw [← not_isSome, hOpen.2, Bool.not_true, Bool.and_false, if_neg Bool.false_ne_true]
    apply h.removes hLeaves hSaved rfl _ hNever
    · rw [hStep]
      exact h.buried
    · rw [hStep]
      exact fun tx' htx => ⟨tx', htx, rfl⟩
  obtain ⟨-, hStep⟩ := step_of_ok .beginBatch (s := w.store) (if_neg hOpen)
  have hTrim : ∀ q, Buried TailFact.le (w.history.Old q)
      (((Op.beginBatch.step w.store).seqs q).vouched w.store.cfg)
      ((Op.beginBatch.step w.store).seqs q).facts := by
    intro q
    rw [hStep]
    show Buried _ _ (SeqTail.vouched _ (if q < w.store.cfg.nSeqMax then _ else _))
      (SeqTail.facts (if q < w.store.cfg.nSeqMax then _ else _))
    split
    · rw [facts_trim, trim_vouched]
      exact (h.buried q).drop (h.idle.seqs q).factsSorted _
    · exact h.buried q
  refine ⟨hLeaves.idle, record_past h, fun q hq => record_outside h q (hLeaves.cfg ▸ hq), ?_, ?_⟩
  · intro q
    rw [hOld q]
    show Buried _ _ (SeqTail.vouched (Op.beginBatch.step w.store).cfg _) _
    rw [hLeaves.cfg]
    exact hTrim q
  intro tx' htx q
  show Buried _ _ (SeqTail.vouched (Op.beginBatch.step w.store).cfg _) _
  rw [hLeaves.cfg]
  have hBatch : (if w.store.cfg.compact then some { seqs := w.store.seqs }
      else w.store.batch) = some tx' := by
    have htx' : (Op.beginBatch.step w.store).batch = some tx' := htx
    rw [hStep] at htx'
    exact htx'
  have hSaved : (w.next .beginBatch).saved =
      if w.store.cfg.compact && w.store.batch.isNone then w.history else w.saved := rfl
  cases hCompact : w.store.cfg.compact with
  | true =>
    rw [hCompact] at hBatch
    have hNone : w.store.batch.isNone = true := by
      simpa [hCompact] using hOpen
    rw [hSaved, hCompact, hNone, ← some.inj hBatch]
    exact h.buried q
  | false =>
    rw [hCompact, if_neg Bool.false_ne_true] at hBatch
    rw [hSaved, hCompact]
    exact h.saved tx' hBatch q

/-- A failed batch returns to the saved sequences and to the times of their commits. -/
theorem Sound.failedBatch (payloadMayBeModified : Bool)
    (hCompact : w.store.cfg.compact = true) {tx : BatchTransaction}
    (hBatch : w.store.batch = some tx)
    (hKeeps : w.KeepsNew (.finishBatch false payloadMayBeModified)) :
    Sound (w.next (.finishBatch false payloadMayBeModified)) := by
  obtain ⟨-, hLeaves, -⟩ := finishBatch_spec h.idle false payloadMayBeModified
  obtain ⟨-, hStep⟩ := step_of_ok (.finishBatch false payloadMayBeModified)
    (finishBatch_rollback hCompact hBatch (fun q => (h.idle.batch tx hBatch q).apart)
      payloadMayBeModified)
  have hSets : ∀ q < w.store.cfg.nSeqMax,
      (Op.finishBatch false payloadMayBeModified).sets w.store q =
        (payloadMayBeModified && tx.affected q) := by
    intro q hq
    simp only [Op.sets, hq, hCompact, hBatch, decide_true, Bool.not_false, Bool.true_and,
      Bool.and_true, any_some]
  refine ⟨hLeaves.idle, record_past h, fun q hq => record_outside h q (hLeaves.cfg ▸ hq), ?_, ?_⟩
  · intro q
    show Buried TailFact.le ((w.record _).Old q) (SeqTail.vouched (Op.step _ w.store).cfg _) _
    rw [hLeaves.cfg]
    show Buried TailFact.le ((w.record _).Old q)
      (((Op.finishBatch false payloadMayBeModified).step w.store).seqs q |>.vouched w.store.cfg)
      (((Op.finishBatch false payloadMayBeModified).step w.store).seqs q).facts
    rw [hStep]
    show Buried TailFact.le _ (SeqTail.vouched _ (if q < w.store.cfg.nSeqMax then
        rolledBackSeq w.store.cfg tx payloadMayBeModified q (tx.seqs q) else tx.seqs q))
      (SeqTail.facts (if q < w.store.cfg.nSeqMax then
        rolledBackSeq w.store.cfg tx payloadMayBeModified q (tx.seqs q) else tx.seqs q))
    by_cases hq : q < w.store.cfg.nSeqMax
    · rw [if_pos hq]
      unfold rolledBackSeq
      rw [← hSets q hq]
      cases hCase : (Op.finishBatch false payloadMayBeModified).sets w.store q with
      | true =>
        rw [if_pos rfl]
        have hNone : (dropAffected w.store.cfg q (tx.seqs q).reindex).facts = [] := by
          show ((tx.seqs q).entries.filter fun _ => false).map ExactEntry.fact = []
          rw [filter_false, map_nil]
        rw [hNone]
        exact Buried.nil
      | false =>
        show Buried TailFact.le _ ((tx.seqs q).vouched w.store.cfg) (tx.seqs q).facts
        rcases hKeeps rfl hCompact tx hBatch q hq hCase with hDegraded | hEmpty | hZero
        · have hOld : (w.record (.finishBatch false payloadMayBeModified)).Old q =
              w.saved.Old q := by
            funext x
            show (∃ d, (if (Op.finishBatch false payloadMayBeModified).sets w.store q then
                some (w.time + 1) else w.history.degraded q) = some d ∧
              (if w.store.rollsBack then w.saved.committed else w.history.committed) q
                x.identity ≤ d) = _
            rw [hCase, hDegraded, rollsBack, hCompact, hBatch]
            rfl
          rw [hOld]
          exact h.saved tx hBatch q
        · rw [SeqTail.facts, hEmpty]
          exact Buried.nil
        · rw [hZero]
          exact Buried.zero
    rw [if_neg hq]
    rintro x - ⟨d, hd, -⟩
    rw [record_outside h q hq] at hd
    cases hd
  intro tx' htx
  have htx' : ((Op.finishBatch false payloadMayBeModified).step w.store).batch = some tx' := htx
  rw [hStep] at htx'
  cases htx'

omit h in
theorem finishBatch_kept {s : TailStore} (success payloadMayBeModified : Bool)
    (hKept : ¬ (success = false ∧ s.rollsBack = true)) :
    ((Op.finishBatch success payloadMayBeModified).step s).seqs = s.seqs ∧
      (((Op.finishBatch success payloadMayBeModified).step s).batch = none ∨
        ((Op.finishBatch success payloadMayBeModified).step s).batch = s.batch) := by
  have hStart : (Op.finishBatch success payloadMayBeModified).run s =
      TailStore.finishBatch success payloadMayBeModified s := rfl
  unfold TailStore.finishBatch at hStart
  rw [run_bind (run_get s)] at hStart
  cases hCompact : s.cfg.compact with
  | false =>
    have hRun : (Op.finishBatch success payloadMayBeModified).run s =
        .ok () { s with inBatch := false } := by
      rw [hStart, hCompact]
      rfl
    rw [(step_of_ok _ hRun).2]
    exact ⟨rfl, Or.inr rfl⟩
  | true =>
    rw [hCompact] at hStart
    cases hBatch : s.batch with
    | none =>
      have hRun : (Op.finishBatch success payloadMayBeModified).run s = .ok () s := by
        rw [hStart]
        simp only [hBatch]
        rfl
      rw [(step_of_ok _ hRun).2]
      exact ⟨rfl, Or.inl hBatch⟩
    | some tx =>
      cases success with
      | true =>
        have hRun : (Op.finishBatch true payloadMayBeModified).run s =
            .ok () { s with batch := none, inBatch := false } := by
          rw [hStart]
          simp only [hBatch]
          rfl
        rw [(step_of_ok _ hRun).2]
        exact ⟨rfl, Or.inl rfl⟩
      | false =>
        refine absurd ⟨rfl, ?_⟩ hKept
        rw [rollsBack, hCompact, hBatch]
        rfl

theorem Sound.finishBatch (success payloadMayBeModified : Bool)
    (hKeeps : w.KeepsNew (.finishBatch success payloadMayBeModified)) :
    Sound (w.next (.finishBatch success payloadMayBeModified)) := by
  obtain ⟨-, hLeaves, -⟩ := finishBatch_spec h.idle success payloadMayBeModified
  by_cases hRolls : success = false ∧ w.store.rollsBack = true
  · obtain ⟨rfl, hRolls⟩ := hRolls
    obtain ⟨hCompact, hSome⟩ := Bool.and_eq_true_iff.mp hRolls
    obtain ⟨tx, hBatch⟩ := isSome_iff_exists.mp hSome
    exact h.failedBatch payloadMayBeModified hCompact hBatch hKeeps
  obtain ⟨hKept, hBatch⟩ := finishBatch_kept success payloadMayBeModified hRolls
  have hCommitted : (w.record (.finishBatch success payloadMayBeModified)).committed =
      w.history.committed := by
    cases success with
    | true => rfl
    | false =>
      have hNot : w.store.rollsBack = false := by simpa using hRolls
      show (if w.store.rollsBack then _ else _) = _
      rw [hNot, if_neg Bool.false_ne_true]
  apply h.removes hLeaves rfl hCommitted
  · intro tx' htx
    rcases hBatch with hNone | hSame
    · rw [hNone] at htx
      cases htx
    · rw [hSame] at htx
      exact ⟨tx', htx, rfl⟩
  · cases success with
    | true => simp [Op.sets]
    | false =>
      have hNot : (w.store.cfg.compact && w.store.batch.isSome) = false := by
        simpa [rollsBack] using hRolls
      rw [Bool.and_eq_false_iff] at hNot
      rcases hNot with hOff | hNone
      · simp [Op.sets, hOff]
      · have hBatch : w.store.batch = none := by simpa using hNone
        simp [Op.sets, hBatch]
  intro q
  rw [hKept]
  exact h.buried q

/-- Every call that keeps what is new above the old entries keeps the invariant. -/
theorem Sound.next (hListed : op.Listed) (hKeeps : w.KeepsNew op) : Sound (w.next op) := by
  cases op with
  | commit seqId identity position ordinal currentRow =>
    exact h.commit seqId identity position ordinal currentRow hKeeps
  | recycle stream cell nextGeneration => exact h.recycle stream cell nextGeneration hKeeps
  | beginBatch => exact h.beginBatch
  | finishBatch success payload => exact h.finishBatch success payload hKeeps
  | seqRm seqId p0 p1 => exact h.seqRm seqId p0 p1 hKeeps
  | seqRmCell seqId stream cell => exact h.seqRmCell seqId stream cell hKeeps
  | seqAdd seqId p0 p1 shift => exact h.seqAdd seqId p0 p1 shift hKeeps
  | seqDiv seqId p0 p1 divisor => exact h.seqDiv seqId p0 p1 divisor hKeeps
  | markDegraded seqId flags => exact h.markDegraded seqId flags
  | _ => exact absurd hListed id

end Steps

/-! ## Runs -/

theorem Sound.initial {w : Watch} (h : Initial w) : Sound w := by
  obtain ⟨cfg, rfl⟩ := h
  refine ⟨TailStore.Idle.initial cfg, fun q d hd => ?_, fun _ _ => rfl, fun q => Buried.nil, ?_⟩
  · cases hd
  · intro tx htx
    cases htx

theorem Sound.notOverclaimed {w : Watch} (h : Sound w) : w.NotOverclaimed := by
  intro seqId available hComplete x hx d hd
  have hNone : w.store.pendingInto seqId.toNat = none := by
    unfold TailStore.pendingInto
    rw [h.idle.pending]
    rfl
  -- a complete report is about a sequence without flags
  have hClean : (w.store.seqs seqId.toNat).degradation = 0 := by
    unfold TailStore.coverage at hComplete
    dsimp only at hComplete
    by_cases hValid : w.store.validSeq seqId = true
    · rw [if_pos hValid, if_pos hValid] at hComplete
      by_cases hEmpty : (w.store.shownEntries seqId.toNat).length = 0
      · rw [if_pos hEmpty] at hComplete
        cases hComplete
      rw [if_neg hEmpty] at hComplete
      by_cases hFlags : min w.store.cfg.nTokens available ≤
          (w.store.shownEntries seqId.toNat).length ∧ w.store.shownDegradation seqId.toNat = 0
      · have hShown := hFlags.2
        rw [TailStore.shownDegradation, hNone] at hShown
        exact hShown
      · rw [if_neg hFlags] at hComplete
        cases hComplete
    · rw [if_neg hValid] at hComplete
      cases hComplete
  have hBuried := h.buried seqId.toNat
  unfold SeqTail.vouched at hBuried
  rw [if_pos hClean] at hBuried
  have hNew := hBuried.newest (h.idle.seqs seqId.toNat).factsSorted TailFact.le_refl
    (Nat.min_le_left w.store.cfg.nTokens available) x hx
  by_contra hLate
  exact hNew ⟨d, hd, Nat.le_of_not_lt hLate⟩

/-- Calls one after the other that all meet `P`. -/
def Follows (P : TailStore.Op → Watch → Prop) : Watch → List TailStore.Op → Prop
  | _, [] => True
  | w, op :: ops => P op w ∧ Follows P (w.next op) ops

theorem Follows.run {P : TailStore.Op → Watch → Prop} {w : Watch} {ops : List TailStore.Op}
    (h : Follows P w ops) (hRun : Run Initial (fun op w w' => w.next op = w') P w) :
    Run Initial (fun op w w' => w.next op = w') P (ops.foldl next w) := by
  induction ops generalizing w with
  | nil => exact hRun
  | cons op ops ih => exact ih h.2 (.step op hRun h.1 rfl)

/-- In every run whose calls keep what is new above the old entries, complete coverage is not
over-claimed. -/
theorem coverage_not_overclaimed {w : Watch}
    (h : Run Initial (fun op w w' => w.next op = w')
      (fun op w => op.Listed ∧ w.KeepsNew op) w) : w.NotOverclaimed := by
  have hSound : Sound w := by
    apply h.invariant
    · exact fun _ hInitial => Sound.initial hInitial
    · rintro op c c' hc ⟨hListed, hKeeps⟩ rfl
      exact hc.next hListed hKeeps
  exact hSound.notOverclaimed

end Watch

/-! ## Two runs of one sequence -/

instance (h : TailHistory) (q : Nat) : DecidablePred (h.Old q) := fun x =>
  match hd : h.degraded q with
  | none => .isFalse (by rintro ⟨d, hd', -⟩; rw [hd] at hd'; cases hd')
  | some d =>
    decidable_of_iff (h.committed q x.identity ≤ d) (by
      constructor
      · intro hLe
        exact ⟨d, hd, hLe⟩
      rintro ⟨d', hd', hLe⟩
      rw [hd] at hd'
      exact Option.some.inj hd' ▸ hLe)

instance {α : Type} {le : α → α → Prop} [DecidableRel le] {old : α → Prop} [DecidablePred old]
    {g : α → α} {P : α → Bool} {l : List α} : Decidable (KeepsAbove le old g P l) :=
  inferInstanceAs (Decidable (∀ a ∈ l, old a → P (g a) = true → ∀ b ∈ l, ¬ old b → ¬ le b a →
    P (g b) = true ∧ ¬ le (g b) (g a)))

/-- A store that retains two tokens of its sequence. -/
def twoTokens : TailConfig where
  nTokens := 2
  rollbackTokens := 0
  nSeqMax := 1
  arenaStride := 2
  sinkSlots := 0
  compact := false
  overlay := TailConfig.overlay_zero
  fits := by decide
  slotsFit := TailConfig.slotsFit_two

/-- The commit of the token of a position to the cell of that number. -/
def commitAt (n : Nat) : TailStore.Op := .commit 0 ⟨0, n, n⟩ n n none

/-- Two tokens and a degradation; one of them is removed, two new tokens replace the other, and the
last token is taken back and another comes. -/
def recovering : List TailStore.Op :=
  [commitAt 0, commitAt 1, .markDegraded 0 degradedHistoricalOp, .seqRm 0 0 1, commitAt 2,
    commitAt 3, .seqRm 0 3 4, commitAt 4]

/-- The same with the removal of the first of the new tokens. -/
def overclaiming : List TailStore.Op :=
  [commitAt 0, commitAt 1, .markDegraded 0 degradedHistoricalOp, commitAt 2, .seqRm 0 2 3,
    commitAt 3]

def recoveredRow : Watch := recovering.foldl Watch.next { store := { cfg := twoTokens } }

def overclaimedRow : Watch := overclaiming.foldl Watch.next { store := { cfg := twoTokens } }

/-- Both retained tokens were committed after the event, and the report is complete. -/
theorem recoveredRow_notOverclaimed :
    (recoveredRow.store.coverage 0 2).state = .complete ∧ recoveredRow.NotOverclaimed := by
  have hFollows : Watch.Follows (fun op w => op.Listed ∧ w.KeepsNew op)
      { store := { cfg := twoTokens } } recovering := by
    refine ⟨⟨trivial, ?_⟩, ⟨trivial, ?_⟩, ⟨trivial, trivial⟩, ⟨trivial, ?_⟩, ⟨trivial, ?_⟩,
      ⟨trivial, ?_⟩, ⟨trivial, ?_⟩, ⟨trivial, ?_⟩, trivial⟩
    all_goals
      intro _
      decide +kernel
  exact ⟨by decide +kernel,
    Watch.coverage_not_overclaimed (hFollows.run (.start ⟨twoTokens, rfl⟩))⟩

/-- After the removal a second commit clears the flags although the older of the two entries
predates the degradation. -/
theorem overclaimedRow_complete :
    ((overclaimedRow.store.coverage 0 2).state = .complete ∧
      (overclaimedRow.store.seqs 0).facts = [⟨⟨0, 1, 1⟩, 1, 1⟩, ⟨⟨0, 3, 3⟩, 3, 3⟩] ∧
      overclaimedRow.history.degraded 0 = some 3 ∧
      overclaimedRow.history.committed 0 ⟨0, 1, 1⟩ = 2) ∧
    ¬ ∀ w : Watch, Run Watch.Initial (fun op w w' => w.next op = w') (fun op _ => op.Listed) w →
      w.NotOverclaimed := by
  have hFacts : (overclaimedRow.store.coverage 0 2).state = .complete ∧
      (overclaimedRow.store.seqs 0).facts = [⟨⟨0, 1, 1⟩, 1, 1⟩, ⟨⟨0, 3, 3⟩, 3, 3⟩] ∧
      overclaimedRow.history.degraded 0 = some 3 ∧
      overclaimedRow.history.committed 0 ⟨0, 1, 1⟩ = 2 := by decide +kernel
  refine ⟨hFacts, fun h => ?_⟩
  have hFollows : Watch.Follows (fun op _ => op.Listed) { store := { cfg := twoTokens } }
      overclaiming := ⟨trivial, trivial, trivial, trivial, trivial, trivial, trivial⟩
  have hNew := h overclaimedRow (hFollows.run (.start ⟨twoTokens, rfl⟩)) 0 2 hFacts.1
  rw [Int.toNat_zero] at hNew
  have hLate := hNew ⟨⟨0, 1, 1⟩, 1, 1⟩ mem_cons_self 3 hFacts.2.2.1
  rw [hFacts.2.2.2] at hLate
  omega

end Beellama.Ports
