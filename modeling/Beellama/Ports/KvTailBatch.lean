import Beellama.Ports.KvTailRuns

/-!
# Compact batches

A compact store rolls a batch back when it fails.  The metadata returns; the rows may not, since a
commit reuses the slot of the entry it evicts.  So the store marks the sequences whose rows are at
risk, those that named the row of the micro-batch, and forgets their entries when the payload may
have changed.
-/

namespace Beellama.Ports

open Beellama.Verified List

namespace TailStore

/-! ## The calls of a batch -/

inductive BatchCall
  | commit (seqId : Int) (identity : TailIdentity) (position : Int) (ordinal : Nat)
      (currentRow : Option Nat)
  | recycle (stream cell nextGeneration : Nat)
  | seqRm (seqId p0 p1 : Int)
  | markDegraded (seqId : Int) (flags : Nat)
  deriving DecidableEq

/-- Run the call; only a commit reports a slot. -/
def BatchCall.run : BatchCall → TailM Int
  | .commit seqId identity position ordinal currentRow =>
    TailStore.commit seqId identity position ordinal currentRow
  | .recycle stream cell nextGeneration => do
      TailStore.recycle stream cell nextGeneration
      return tailBodySlot
  | .seqRm seqId p0 p1 => do
      TailStore.seqRm seqId p0 p1
      return tailBodySlot
  | .markDegraded seqId flags => do
      TailStore.markDegraded seqId flags
      return tailBodySlot

def BatchCall.step (c : BatchCall) (s : TailStore) : TailStore := finalState c.run s

/-- The arena slot a call returned. -/
def BatchCall.returned (c : BatchCall) (s : TailStore) : Option Nat :=
  match c.run s with
  | .ok r _ => if 0 ≤ r then some r.toNat else none
  | .error _ _ => none

/-- A commit that names its row of the micro-batch. -/
def BatchCall.NamesRow : BatchCall → Prop
  | .commit _ _ _ _ currentRow => currentRow ≠ none
  | _ => True

/-- The store after the calls, returned or thrown. -/
def runCalls : List BatchCall → TailStore → TailStore
  | [], s => s
  | c :: cs, s => runCalls cs (c.step s)

/-- The slots the commits of a batch returned. -/
def returnedSlots : List BatchCall → TailStore → List Nat
  | [], _ => []
  | c :: cs, s => (c.returned s).toList ++ returnedSlots cs (c.step s)

/-- The slot belongs to the arena of a sequence. -/
def InArena (cfg : TailConfig) (q slot : Nat) : Prop :=
  cfg.base q ≤ slot ∧ slot < cfg.base q + cfg.arenaStride

/-- The call leaves the entries and the slots of a sequence alone and returns
none of its slots. -/
def BatchCall.Spares (c : BatchCall) (q : Nat) (s : TailStore) : Prop :=
  ((c.step s).seqs q).entries = (s.seqs q).entries ∧
    ((c.step s).seqs q).used = (s.seqs q).used ∧
    ∀ slot, c.returned s = some slot → ¬ InArena s.cfg q slot

/-- No call of a batch touches a sequence. -/
def Untouched (q : Nat) : List BatchCall → TailStore → Prop
  | [], _ => True
  | c :: cs, s => c.Spares q s ∧ Untouched q cs (c.step s)

/-! ## Arenas -/

variable {slot : Nat}

theorem InArena.unique {cfg : TailConfig} {q r : Nat} (hq : InArena cfg q slot)
    (hr : InArena cfg r slot) : q = r := by
  obtain ⟨hqLo, hqHi⟩ := hq
  obtain ⟨hrLo, hrHi⟩ := hr
  unfold TailConfig.base at *
  have hLt : q < r + 1 := by
    by_contra hNot
    have hMul : (r + 1) * cfg.arenaStride ≤ q * cfg.arenaStride :=
      Nat.mul_le_mul_right _ (by omega)
    rw [Nat.succ_mul] at hMul
    omega
  have hGt : r < q + 1 := by
    by_contra hNot
    have hMul : (q + 1) * cfg.arenaStride ≤ r * cfg.arenaStride :=
      Nat.mul_le_mul_right _ (by omega)
    rw [Nat.succ_mul] at hMul
    omega
  omega

/-- Every entry of a sequence has a slot of its own arena. -/
def SlotsOwned (cfg : TailConfig) (q : Nat) (t : SeqTail) : Prop :=
  ∀ e ∈ t.entries, InArena cfg q e.slot

section Owned

variable {cfg : TailConfig} {q : Nat} {t t' : SeqTail}

variable (h : SlotsOwned cfg q t)

include h

theorem SlotsOwned.subset (hSub : ∀ e ∈ t'.entries, e ∈ t.entries) :
    SlotsOwned cfg q t' := fun e he => h e (hSub e he)

variable {inBatch : Bool}

theorem SlotsOwned.takeSlot (hTake : TailStore.takeSlot cfg q inBatch t = some (t', slot)) :
    SlotsOwned cfg q t' ∧ InArena cfg q slot := by
  have hAcquire : t.acquire cfg q = some (t', slot) →
      SlotsOwned cfg q t' ∧ InArena cfg q slot := by
    intro hAcquire
    obtain ⟨l, hFree, rfl, rfl⟩ := acquire_spec hAcquire
    have hl := (freeSlot_spec hFree).1
    exact ⟨h, Nat.le_add_right _ _, Nat.add_lt_add_left hl _⟩
  unfold TailStore.takeSlot at hTake
  split at hTake
  · rename_i victim rest hEntries
    split at hTake
    · obtain ⟨rfl, rfl⟩ := hTake
      refine ⟨h.subset ?_, h victim (by simp [hEntries])⟩
      intro e he
      exact mem_of_mem_filter he
    · exact hAcquire hTake
  · exact hAcquire hTake

variable {node ordinal : Nat} {identity : TailIdentity} {position : Int}

theorem SlotsOwned.commitNew
    (hCommit : TailStore.commitNew cfg q inBatch node identity position ordinal t = some t') :
    SlotsOwned cfg q t' := by
  unfold TailStore.commitNew at hCommit
  split at hCommit
  · cases hCommit
  rename_i t₁ slot hTake
  obtain rfl := Option.some.inj hCommit
  have hStale : SlotsOwned cfg q (TailStore.eraseStale cfg q identity t) :=
    h.subset fun e he => (eraseStale_sublist identity).subset he
  obtain ⟨hRest, hSlot⟩ := hStale.takeSlot hTake
  intro e he
  rcases mem_linkEntry he with rfl | hOld
  · exact hSlot
  · exact hRest e hOld

theorem SlotsOwned.commitSeq
    (hCommit : TailStore.commitSeq cfg q inBatch node identity position ordinal t = some t') :
    SlotsOwned cfg q t' := by
  unfold TailStore.commitSeq at hCommit
  split at hCommit
  · rename_i dup hFind
    split at hCommit
    · obtain rfl := Option.some.inj hCommit
      intro e he
      have hMoved := sort_perm.mem_iff.mp (mem_trim he)
      obtain ⟨x, hx, rfl⟩ := mem_map.mp hMoved
      have hSlot : (if x.node = dup.node then
          { x with position, insertionOrdinal := ordinal } else x : ExactEntry).slot = x.slot := by
        split <;> rfl
      rw [hSlot]
      exact h x hx
    · exact h.commitNew hCommit
  · exact h.commitNew hCommit

omit h in
theorem find_mem {k : Nat × Nat} {e : ExactEntry} (h : t.find k = some e) : e ∈ t.entries := by
  unfold SeqTail.find at h
  split at h
  · cases h
  · exact mem_of_find?_eq_some h

theorem SlotsOwned.retainedSlot (hSlot : 0 ≤ TailStore.retainedSlot t identity) :
    InArena cfg q (TailStore.retainedSlot t identity).toNat := by
  unfold TailStore.retainedSlot at hSlot ⊢
  cases hFind : t.find identity.cellKey with
  | none => simp [hFind, tailBodySlot] at hSlot
  | some e =>
    simp only [hFind] at hSlot ⊢
    split
    · exact h e (find_mem hFind)
    · rename_i hOther
      simp [hOther, tailBodySlot] at hSlot

end Owned

/-! ## One call -/

/-- What the transaction of a batch knows after a call. -/
structure CallKeeps (c : BatchCall) (s : TailStore) (tx : BatchTransaction) (s' : TailStore)
    (tx' : BatchTransaction) : Prop where
  cfg : s'.cfg = s.cfg
  batch : s'.batch = some tx'
  saved : tx'.seqs = tx.seqs
  owned : ∀ q, SlotsOwned s.cfg q (s'.seqs q)
  grows : ∀ q, tx.affected q = true → tx'.affected q = true
  marks : c.NamesRow → ∀ slot, c.returned s = some slot →
    ∃ q, tx'.affected q = true ∧ InArena s.cfg q slot
  spares : ∀ q, tx'.affected q = true → tx.affected q = true ∨ ¬ c.Spares q s

section Calls

variable {s : TailStore} {tx : BatchTransaction}

variable {c : BatchCall}

variable (hBatch : s.batch = some tx) (hOwned : ∀ q, SlotsOwned s.cfg q (s.seqs q))

include hBatch hOwned

theorem CallKeeps.silent (hReturned : c.returned s = none)
    (hCfg : (c.step s).cfg = s.cfg) (hSame : (c.step s).batch = s.batch)
    (hSub : ∀ q, ∀ e ∈ ((c.step s).seqs q).entries, e ∈ (s.seqs q).entries) :
    CallKeeps c s tx (c.step s) tx where
  cfg := hCfg
  batch := hSame.trans hBatch
  saved := rfl
  owned q := (hOwned q).subset (hSub q)
  grows _ h := h
  marks _ slot hSlot := by
    rw [hReturned] at hSlot
    cases hSlot
  spares _ h := Or.inl h

omit hOwned in
/-- Inside a transaction a row is recorded, or the commit reports no slot, or
it names no row, or the row number overflows. -/
theorem recordCurrent_cases (q : Nat) (identity : TailIdentity)
    (position : Int) (ordinal : Nat) (currentRow : Option Nat) (result : Int) :
    (recordCurrent q identity position ordinal currentRow result s = .ok result s ∧
        (result < 0 ∨ currentRow = none)) ∨
      recordCurrent q identity position ordinal currentRow result s =
        .error .currentSourceOverflow s ∨
      (0 ≤ result ∧ ∃ tx', tx'.seqs = tx.seqs ∧
        tx'.affected = Function.update tx.affected q true ∧
        recordCurrent q identity position ordinal currentRow result s =
          .ok result { s with batch := some tx' }) := by
  unfold recordCurrent
  cases currentRow with
  | none => exact Or.inl ⟨by simp [hBatch], Or.inr rfl⟩
  | some row =>
    simp only [hBatch]
    split
    · exact Or.inl ⟨rfl, Or.inl ‹_›⟩
    split
    · exact Or.inr (Or.inl rfl)
    refine Or.inr (Or.inr ⟨not_lt.mp ‹_›, _, ?_, ?_, rfl⟩)
    · rfl
    · rfl

theorem commit_keeps (seqId : Int) (identity : TailIdentity)
    (position : Int) (ordinal : Nat) (currentRow : Option Nat)
    (hc : c = .commit seqId identity position ordinal currentRow) :
    ∃ tx', CallKeeps c s tx (c.step s) tx' := by
  have hRun : c.run s = TailStore.commit seqId identity position ordinal currentRow s := by
    rw [hc]
    rfl
  unfold TailStore.commit at hRun
  split at hRun
  · refine ⟨tx, CallKeeps.silent hBatch hOwned ?_ ?_ ?_ ?_⟩ <;>
      simp [BatchCall.returned, BatchCall.step, finalState, hRun, tailBodySlot]
  dsimp only at hRun
  split at hRun
  · refine ⟨tx, CallKeeps.silent hBatch hOwned ?_ ?_ ?_ ?_⟩
    · simp only [BatchCall.returned, hRun]
    · simp only [BatchCall.step, finalState, hRun, TailStore.modSeq]
    · simp only [BatchCall.step, finalState, hRun, TailStore.modSeq]
    intro q e he
    simp only [BatchCall.step, finalState, hRun] at he
    rcases mem_modSeq he with ⟨rfl, hIn⟩ | ⟨-, hIn⟩
    · exact (eraseStale_sublist identity).subset hIn
    · exact hIn
  rename_i t hCommit
  obtain ⟨s₁, hs₁⟩ : ∃ s₁ : TailStore, s₁ = { s.modSeq seqId.toNat (fun _ => t) with
      nextNode := s.nextNode + 1 } := ⟨_, rfl⟩
  have hNew := (hOwned seqId.toNat).commitSeq hCommit
  have hSeqs : ∀ q, SlotsOwned s.cfg q (s₁.seqs q) := by
    intro q e he
    rw [hs₁] at he
    change e ∈ ((s.modSeq seqId.toNat fun _ => t).seqs q).entries at he
    rcases mem_modSeq he with ⟨rfl, hIn⟩ | ⟨-, hIn⟩
    · exact hNew e hIn
    · exact hOwned q e hIn
  have hCfg₁ : s₁.cfg = s.cfg := by rw [hs₁]; rfl
  have hBatch₁ : s₁.batch = some tx := by rw [hs₁]; exact hBatch
  rw [← hs₁] at hRun
  rcases recordCurrent_cases hBatch₁ seqId.toNat identity position ordinal currentRow
      (retainedSlot t identity) with ⟨hRecord, hSilent⟩ | hRecord |
        ⟨hSlot, tx', hSaved, hAffected, hRecord⟩
  · rw [hRecord] at hRun
    have hStep : c.step s = s₁ := by simp only [BatchCall.step, finalState, hRun]
    rw [hStep]
    refine ⟨tx, hCfg₁, hBatch₁, rfl, hSeqs, fun _ h => h, ?_, fun _ h => Or.inl h⟩
    intro hRow slot hReturned
    rcases hSilent with hBody | hNone
    · simp [BatchCall.returned, hRun, hBody.not_ge] at hReturned
    · rw [hc] at hRow
      exact absurd hNone hRow
  · rw [hRecord] at hRun
    have hStep : c.step s = s₁ := by simp only [BatchCall.step, finalState, hRun]
    rw [hStep]
    refine ⟨tx, hCfg₁, hBatch₁, rfl, hSeqs, fun _ h => h, ?_, fun _ h => Or.inl h⟩
    intro _ slot hReturned
    simp [BatchCall.returned, hRun] at hReturned
  rw [hRecord] at hRun
  have hStep : c.step s = { s₁ with batch := some tx' } := by
    simp only [BatchCall.step, finalState, hRun]
  have hReturned : c.returned s = some (retainedSlot t identity).toNat := by
    simp [BatchCall.returned, hRun, hSlot]
  have hArena := hNew.retainedSlot hSlot
  rw [hStep]
  refine ⟨tx', hCfg₁, rfl, hSaved, hSeqs, ?_, ?_, ?_⟩
  · intro q hq
    rw [hAffected, Function.update_apply]
    split
    · rfl
    · exact hq
  · intro _ slot hEq
    rw [hReturned] at hEq
    obtain rfl := Option.some.inj hEq
    exact ⟨seqId.toNat, by simp [hAffected], hArena⟩
  intro q hq
  rw [hAffected, Function.update_apply] at hq
  split at hq
  · rename_i hqs
    subst hqs
    exact Or.inr fun hSpares => hSpares.2.2 _ hReturned hArena
  · exact Or.inl hq

theorem recycle_keeps (stream cell nextGeneration : Nat) :
    ∃ tx', CallKeeps (.recycle stream cell nextGeneration) s tx
      ((BatchCall.recycle stream cell nextGeneration).step s) tx' := by
  obtain ⟨tx', htx⟩ : ∃ tx' : BatchTransaction, tx' = { tx with
      affected := fun q => tx.affected q ||
        (decide (q < s.cfg.nSeqMax) && holdsStale (s.seqs q) stream cell nextGeneration) } :=
    ⟨_, rfl⟩
  refine ⟨tx', rfl, ?_, ?_, ?_, ?_, ?_, ?_⟩
  · change s.batch.map _ = some tx'
    rw [hBatch, htx]
    rfl
  · rw [htx]
  · intro q
    refine (hOwned q).subset fun e he => ?_
    change e ∈ (if q < s.cfg.nSeqMax then _ else s.seqs q : SeqTail).entries at he
    split at he
    · unfold recycleSeq at he
      split at he
      · split at he
        · exact mem_of_mem_filter he
        · exact he
      · exact he
    · exact he
  · intro q hq
    simp [htx, hq]
  · intro _ slot hReturned
    simp [BatchCall.returned, BatchCall.run, TailStore.recycle, Bind.bind, EStateM.bind,
      Pure.pure, EStateM.pure, tailBodySlot] at hReturned
  intro q hq
  simp only [htx, Bool.or_eq_true, Bool.and_eq_true, decide_eq_true_eq] at hq
  refine hq.imp_right ?_
  rintro ⟨hLt, hStale⟩ hSpares
  -- a stale entry is erased, so the list of entries changes
  have hSame := hSpares.1
  change (if q < s.cfg.nSeqMax then _ else s.seqs q : SeqTail).entries = _ at hSame
  rw [if_pos hLt] at hSame
  unfold holdsStale at hStale
  unfold recycleSeq at hSame
  cases hFind : (s.seqs q).find (stream, cell) with
  | none => simp [hFind] at hStale
  | some e =>
    have hMem : e ∈ (s.seqs q).entries := find_mem hFind
    have hGen : e.identity.generation ≠ nextGeneration := by simpa [hFind] using hStale
    simp only [hFind, hGen, ne_eq, not_false_eq_true, if_true, eraseEntry_entries] at hSame
    rw [← hSame] at hMem
    simp at hMem

omit hBatch hOwned in
/-- What a removal leaves of the store, returned or thrown. -/
theorem seqRm_leaves (seqId p0 p1 : Int) :
    Triple (fun s' => s' = s) (TailStore.seqRm seqId p0 p1)
      (fun _ s' => s'.cfg = s.cfg ∧ s'.batch = s.batch ∧
        ∀ q, ∀ e ∈ (s'.seqs q).entries, e ∈ (s.seqs q).entries)
      (fun _ s' => s'.cfg = s.cfg ∧ s'.batch = s.batch ∧
        ∀ q, ∀ e ∈ (s'.seqs q).entries, e ∈ (s.seqs q).entries) := by
  obtain ⟨Kept, hKept⟩ : ∃ Kept : TailStore → Prop, Kept = fun s' => s'.cfg = s.cfg ∧
    s'.batch = s.batch ∧ ∀ q, ∀ e ∈ (s'.seqs q).entries, e ∈ (s.seqs q).entries := ⟨_, rfl⟩
  have hMod : ∀ s' q (f : SeqTail → SeqTail), Kept s' →
      (∀ t, ∀ e ∈ (f t).entries, e ∈ t.entries) → Kept (s'.modSeq q f) := by
    intro s' q f h hf
    rw [hKept] at h ⊢
    refine ⟨h.1, h.2.1, fun r e he => ?_⟩
    rcases mem_modSeq he with ⟨rfl, hIn⟩ | ⟨-, hIn⟩
    · exact h.2.2 r e (hf _ e hIn)
    · exact h.2.2 r e hIn
  have hRebuild : ∀ q, Triple Kept (rebuildIndex q) (fun _ => Kept) (fun _ => Kept) := by
    intro q s' h
    have hIndexed := hMod s' q
      (fun t => { t with index := (buildIndex (s'.seqs q).entries ∅).1 }) h fun _ e he => he
    unfold rebuildIndex
    cases hUnique : (buildIndex (s'.seqs q).entries ∅).2 with
    | true => simpa [hUnique] using hIndexed
    | false => simpa [hUnique] using hIndexed
  have hGoal : Triple (fun s' => s' = s) (TailStore.seqRm seqId p0 p1) (fun _ => Kept)
      (fun _ => Kept) := by
    refine Triple.get fun s₀ hs₀ => ?_
    subst hs₀
    have hStart : Kept s₀ := by
      rw [hKept]
      exact ⟨rfl, rfl, fun _ e he => he⟩
    split
    · refine Triple.bind (R := fun _ => Kept) (Triple.set fun s' _ => ?_) fun _ => ?_
      · exact hMod s₀ _ _ hStart fun t e he => mem_of_mem_filter he
      refine Triple.bind (R := fun _ => Kept) (hRebuild _) fun _ => Triple.modify fun s' h => ?_
      split
      · exact hMod s' _ _ h fun _ e he => he
      · exact h
    · exact Triple.pure fun s' hs' => hs' ▸ hStart
  rw [hKept] at hGoal
  exact hGoal

theorem seqRm_keeps (seqId p0 p1 : Int) :
    CallKeeps (.seqRm seqId p0 p1) s tx ((BatchCall.seqRm seqId p0 p1).step s) tx := by
  have hLeaves := seqRm_leaves (s := s) seqId p0 p1 s rfl
  obtain ⟨s', hStep, hReturned, hCfg, hSame, hSub⟩ : ∃ s',
      (BatchCall.seqRm seqId p0 p1).step s = s' ∧
      (BatchCall.seqRm seqId p0 p1).returned s = none ∧ s'.cfg = s.cfg ∧ s'.batch = s.batch ∧
      ∀ q, ∀ e ∈ (s'.seqs q).entries, e ∈ (s.seqs q).entries := by
    cases hRun : TailStore.seqRm seqId p0 p1 s with
    | ok u s' =>
      have hCall : (BatchCall.seqRm seqId p0 p1).run s = .ok tailBodySlot s' := by
        simp only [BatchCall.run]
        rw [run_bind hRun]
        rfl
      rw [hRun] at hLeaves
      refine ⟨s', ?_, ?_, hLeaves⟩
      · simp only [BatchCall.step, finalState, hCall]
      · simp [BatchCall.returned, hCall, tailBodySlot]
    | error err s' =>
      have hCall : (BatchCall.seqRm seqId p0 p1).run s = .error err s' := by
        simp only [BatchCall.run]
        rw [run_bind_error hRun]
      rw [hRun] at hLeaves
      refine ⟨s', ?_, ?_, hLeaves⟩
      · simp only [BatchCall.step, finalState, hCall]
      · simp only [BatchCall.returned, hCall]
  subst hStep
  exact CallKeeps.silent hBatch hOwned hReturned hCfg hSame hSub

theorem markDegraded_keeps (seqId : Int) (flags : Nat) :
    CallKeeps (.markDegraded seqId flags) s tx ((BatchCall.markDegraded seqId flags).step s)
      tx := by
  obtain ⟨s', hRun, hCfg, hSame, hEntries⟩ : ∃ s', TailStore.markDegraded seqId flags s =
      .ok () s' ∧ s'.cfg = s.cfg ∧ s'.batch = s.batch ∧
        ∀ q, (s'.seqs q).entries = (s.seqs q).entries := by
    have hMod : ∀ (q : Nat) (f : SeqTail → SeqTail), (∀ t, (f t).entries = t.entries) →
        ∀ r, ((s.modSeq q f).seqs r).entries = (s.seqs r).entries := by
      intro q f hf r
      by_cases hr : r = q
      · subst hr
        rw [modSeq_seqs_self, hf]
      · rw [modSeq_seqs_ne s hr]
    unfold TailStore.markDegraded
    dsimp only
    split
    · refine ⟨_, rfl, rfl, rfl, fun q => ?_⟩
      dsimp only
      split <;> rfl
    split
    · split
      · split
        · exact ⟨_, rfl, rfl, rfl, fun _ => rfl⟩
        · exact ⟨_, rfl, rfl, rfl, hMod _ _ fun _ => rfl⟩
      · exact ⟨_, rfl, rfl, rfl, hMod _ _ fun _ => rfl⟩
    · exact ⟨_, rfl, rfl, rfl, fun _ => rfl⟩
  have hCall : (BatchCall.markDegraded seqId flags).run s = .ok tailBodySlot s' := by
    simp only [BatchCall.run]
    rw [run_bind hRun]
    rfl
  have hStep : (BatchCall.markDegraded seqId flags).step s = s' := by
    simp only [BatchCall.step, finalState, hCall]
  refine CallKeeps.silent hBatch hOwned ?_ ?_ ?_ ?_
  · simp [BatchCall.returned, hCall, tailBodySlot]
  · rw [hStep, hCfg]
  · rw [hStep, hSame]
  · intro q e he
    rwa [hStep, hEntries] at he

theorem BatchCall.keeps (c : BatchCall) : ∃ tx', CallKeeps c s tx (c.step s) tx' := by
  cases c with
  | commit seqId identity position ordinal currentRow =>
    exact commit_keeps hBatch hOwned seqId identity position ordinal currentRow rfl
  | recycle stream cell nextGeneration =>
    exact recycle_keeps hBatch hOwned stream cell nextGeneration
  | seqRm seqId p0 p1 => exact ⟨tx, seqRm_keeps hBatch hOwned seqId p0 p1⟩
  | markDegraded seqId flags => exact ⟨tx, markDegraded_keeps hBatch hOwned seqId flags⟩

end Calls

/-! ## The whole batch -/

/-- What the transaction knows after all calls of a batch. -/
structure BatchKeeps (cs : List BatchCall) (s : TailStore) (tx : BatchTransaction)
    (s' : TailStore) (tx' : BatchTransaction) : Prop where
  cfg : s'.cfg = s.cfg
  batch : s'.batch = some tx'
  saved : tx'.seqs = tx.seqs
  grows : ∀ q, tx.affected q = true → tx'.affected q = true
  marks : (∀ c ∈ cs, c.NamesRow) → ∀ slot ∈ returnedSlots cs s,
    ∃ q, tx'.affected q = true ∧ InArena s.cfg q slot
  spares : ∀ q, Untouched q cs s → tx'.affected q = true → tx.affected q = true

theorem runCalls_keeps {s : TailStore} {tx : BatchTransaction} (hBatch : s.batch = some tx)
    (hOwned : ∀ q, SlotsOwned s.cfg q (s.seqs q)) (cs : List BatchCall) :
    ∃ tx', BatchKeeps cs s tx (runCalls cs s) tx' := by
  induction cs generalizing s tx with
  | nil =>
    exact ⟨tx, rfl, hBatch, rfl, fun _ h => h, fun _ _ h => absurd h (by simp [returnedSlots]),
      fun _ _ h => h⟩
  | cons c cs ih =>
    obtain ⟨tx₁, hCall⟩ := c.keeps hBatch hOwned
    have hOwned₁ : ∀ q, SlotsOwned (c.step s).cfg q ((c.step s).seqs q) := by
      rw [hCall.cfg]
      exact hCall.owned
    obtain ⟨tx₂, hRest⟩ := ih hCall.batch hOwned₁
    refine ⟨tx₂, hRest.cfg.trans hCall.cfg, hRest.batch, hRest.saved.trans hCall.saved,
      fun q h => hRest.grows q (hCall.grows q h), ?_, ?_⟩
    · intro hRows slot hSlot
      rcases mem_append.mp hSlot with hHead | hTail
      · obtain ⟨q, hq, hArena⟩ := hCall.marks (hRows c (by simp)) slot (by simpa using hHead)
        exact ⟨q, hRest.grows q hq, hArena⟩
      · obtain ⟨q, hq, hArena⟩ := hRest.marks (fun d hd => hRows d (by simp [hd])) slot hTail
        exact ⟨q, hq, hCall.cfg ▸ hArena⟩
    intro q hUntouched hq
    rcases hCall.spares q (hRest.spares q hUntouched.2 hq) with hBefore | hTouched
    · exact hBefore
    · exact absurd hUntouched.1 hTouched

/-! ## Rolling back -/

theorem SeqOk_reindex {cfg : TailConfig} {q next : Nat} {extra : List Nat} {t : SeqTail}
    (h : SeqOk cfg q next extra t) : t.reindex = t := by
  have hIndex : (buildIndex t.entries ∅).1 = t.index := by
    refine Finmap.ext_lookup fun k => ?_
    have hBuilt := IndexOk.build h.apart
    cases hOld : t.index.lookup k with
    | some n => exact (hBuilt k n).mpr ((h.index k n).mp hOld)
    | none =>
      cases hNew : (buildIndex t.entries ∅).1.lookup k with
      | none => rfl
      | some n =>
        have hSome := (h.index k n).mpr ((hBuilt k n).mp hNew)
        rw [hOld] at hSome
        cases hSome
  unfold SeqTail.reindex
  rw [hIndex]

/-- Opening a batch on a compact store: the transaction saves the sequences,
and no sequence is marked. -/
theorem beginBatch_opens {s : TailStore} (hCompact : s.cfg.compact = true)
    (hBatch : s.batch = none) (hOwned : ∀ q, SlotsOwned s.cfg q (s.seqs q)) :
    ∃ s₁ tx, beginBatch s = .ok () s₁ ∧ s₁.cfg = s.cfg ∧ s₁.batch = some tx ∧
      tx.seqs = s.seqs ∧ (∀ q, tx.affected q = false) ∧
      ∀ q, SlotsOwned s.cfg q (s₁.seqs q) := by
  unfold beginBatch
  rw [if_neg (by simp [hBatch])]
  refine ⟨_, { seqs := s.seqs }, rfl, rfl, by simp [hCompact], rfl, fun _ => rfl, ?_⟩
  intro q
  dsimp only
  split
  · exact (hOwned q).subset fun e he => mem_trim he
  · exact hOwned q

/-- A failed batch of a compact store.  If the payload is intact, every sequence
is as it was when the batch began.  If the payload may have changed, no entry
that is kept names a slot that a commit of the batch returned, and a sequence
that no call touched keeps all its entries.  The second part relies on commits
that name their row of the micro-batch. -/
theorem Reachable.failed_batch_atomic {cfg : TailConfig} {s : TailStore}
    (hReach : Reachable Quiet cfg s) (hCompact : s.cfg.compact = true) (hBatch : s.batch = none)
    (cs : List BatchCall) :
    ∃ s₁, beginBatch s = .ok () s₁ ∧
      (∃ s₂, finishBatch false false (runCalls cs s₁) = .ok () s₂ ∧ s₂.seqs = s.seqs ∧
        s₂.batch = none ∧ s₂.inBatch = false) ∧
      ∃ s₂, finishBatch false true (runCalls cs s₁) = .ok () s₂ ∧
        ((∀ c ∈ cs, c.NamesRow) → ∀ slot ∈ returnedSlots cs s₁, ∀ q < s.cfg.nSeqMax,
          ∀ e ∈ (s₂.seqs q).entries, e.slot ≠ slot) ∧
        ∀ q < s.cfg.nSeqMax, Untouched q cs s₁ → (s₂.seqs q).entries = (s.seqs q).entries := by
  have hInv := hReach.inv
  have hOwned : ∀ q, SlotsOwned s.cfg q (s.seqs q) := fun q => (hInv.seqs q).arena
  obtain ⟨s₁, tx, hBegin, hCfg₁, hTx, hSaved, hClear, hOwned₁⟩ :=
    beginBatch_opens hCompact hBatch hOwned
  obtain ⟨tx', hRun⟩ := runCalls_keeps hTx (by rw [hCfg₁]; exact hOwned₁) cs
  have hCfg : (runCalls cs s₁).cfg = s.cfg := hRun.cfg.trans hCfg₁
  have hSeqs : tx'.seqs = s.seqs := hRun.saved.trans hSaved
  have hApart : ∀ q, (tx'.seqs q).entries.Pairwise ExactEntry.Apart := by
    rw [hSeqs]
    exact fun q => (hInv.seqs q).apart
  have hFinish := finishBatch_rollback (by rw [hCfg]; exact hCompact) hRun.batch hApart
  refine ⟨s₁, hBegin, ⟨_, hFinish false, ?_, rfl, rfl⟩, _, hFinish true, ?_, ?_⟩
  · funext q
    simp only [TailStore.mapSeqs, hSeqs]
    split
    · exact SeqOk_reindex (hInv.seqs q)
    · rfl
  · intro hRows slot hSlot q hq e he hEq
    obtain ⟨r, hr, hArena⟩ := hRun.marks hRows slot hSlot
    rw [hCfg₁] at hArena
    simp only [TailStore.mapSeqs, hCfg, hq, hSeqs] at he
    have hOwn : InArena s.cfg q slot := hEq ▸ hOwned q e (mem_rolledBackSeq he)
    obtain rfl := hOwn.unique hArena
    simp [rolledBackSeq, hr, dropAffected, dropWhere_entries] at he
  intro q hq hUntouched
  have hFree : tx'.affected q = false := by
    cases hMark : tx'.affected q with
    | false => rfl
    | true =>
      have hBefore := hRun.spares q hUntouched hMark
      rw [hClear q] at hBefore
      cases hBefore
  simp only [TailStore.mapSeqs, hCfg, hq, if_true, hSeqs, rolledBackSeq, hFree]
  rfl

/-- A compact tail with a single row. -/
def singleRowTail : TailConfig where
  nTokens := 1
  rollbackTokens := 0
  nSeqMax := 1
  arenaStride := 1
  sinkSlots := 0
  compact := true
  overlay h := by cases h
  fits := by decide
  slotsFit := by decide

/-- The single row is taken. -/
def fullRow : TailStore := (Op.commit 0 ⟨0, 0, 1⟩ 0 0 none).step { cfg := singleRowTail }

theorem fullRow_reachable : Reachable Quiet singleRowTail fullRow := by
  have hInit := Idle.initial singleRowTail
  exact Reachable.init.step _
    ⟨fun hPending => absurd hInit.pending hPending, (commit_spec hInit _ _ _ _ _).1⟩

/-- A commit with its row evicts the only entry; the rollback forgets it. -/
theorem fullRow_failed_batch :
    ∃ s₁ s₂, beginBatch fullRow = .ok () s₁ ∧
      finishBatch false true (runCalls [.commit 0 ⟨0, 1, 1⟩ 1 1 (some 0)] s₁) = .ok () s₂ ∧
      ∀ slot ∈ returnedSlots [.commit 0 ⟨0, 1, 1⟩ 1 1 (some 0)] s₁,
        ∀ e ∈ (s₂.seqs 0).entries, e.slot ≠ slot := by
  obtain ⟨s₁, hBegin, -, s₂, hFinish, hSlots, -⟩ :=
    fullRow_reachable.failed_batch_atomic (by decide) (by decide)
      [.commit 0 ⟨0, 1, 1⟩ 1 1 (some 0)]
  refine ⟨s₁, s₂, hBegin, hFinish, fun slot hSlot e he => ?_⟩
  refine hSlots ?_ slot hSlot 0 (by decide) e he
  intro c hc
  rw [mem_singleton.mp hc]
  simp [BatchCall.NamesRow]

/-- Without a row the same commit takes the slot and leaves no mark, so the
rollback keeps an entry of that slot. -/
theorem unnamed_row_survives :
    Reachable Quiet singleRowTail fullRow ∧ fullRow.batch = none ∧
      ∃ slot ∈ returnedSlots [.commit 0 ⟨0, 1, 1⟩ 1 1 none] (finalState beginBatch fullRow),
        ∃ e ∈ ((finalState (finishBatch false true)
          (runCalls [.commit 0 ⟨0, 1, 1⟩ 1 1 none] (finalState beginBatch fullRow))).seqs 0).entries,
          e.slot = slot :=
  ⟨fullRow_reachable, by decide, by decide⟩

end TailStore

end Beellama.Ports
