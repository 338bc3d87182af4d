import Beellama.Ports.KvTailCopy

/-!
# Runs of the exact-tail store

Every method keeps the representation invariant, whether it returns or throws, but for a copy whose
destination would name a cell twice.  That needs two sequences that disagree about a cell: `Coherent`
says that they agree.
-/

namespace Beellama.Ports

open Beellama.Verified List Option

/-! ## What the entries of a changed sequence are -/

/-- Two entries stand for the same token at the same position. -/
def ExactEntry.SameFact (a b : ExactEntry) : Prop :=
  a.identity = b.identity ∧ a.position = b.position

theorem ExactEntry.SameFact.refl (e : ExactEntry) : e.SameFact e := ⟨rfl, rfl⟩

namespace TailStore

variable {p0 p1 : Int} {identities : List TailIdentity} {dropNegative degrade : Bool}

section Members

variable {cfg : TailConfig} {q next : Nat} {t : SeqTail} {e : ExactEntry}

theorem mem_trim {limit : Nat} (h : e ∈ (t.trim cfg q limit).entries) : e ∈ t.entries := by
  rw [trim_entries] at h
  exact mem_of_mem_drop h

theorem mem_seqRmSeq :
    e ∈ (seqRmSeq cfg p0 p1 q t).entries ↔ e ∈ t.entries ∧ inRange p0 p1 e.position = false := by
  have hMem : e ∈ (t.dropWhere cfg q fun e => inRange p0 p1 e.position).reindex.entries ↔
      e ∈ t.entries ∧ inRange p0 p1 e.position = false := by
    change e ∈ t.entries.filter _ ↔ _
    simp
  unfold seqRmSeq
  dsimp only
  split
  · exact hMem
  · exact hMem

variable {stream cell : Nat}

theorem mem_seqRmCellSeq :
    e ∈ (seqRmCellSeq cfg stream cell q t).entries ↔
      e ∈ t.entries ∧ ¬ (e.identity.stream = stream ∧ e.identity.cell = cell) := by
  change e ∈ t.entries.filter _ ↔ _
  rw [mem_filter, Bool.not_eq_true', decide_eq_false_iff_not]

theorem mem_recycleSeq {nextGeneration : Nat} (hOk : SeqOk cfg q next [] t)
    (h : e ∈ (recycleSeq cfg stream cell nextGeneration q t).entries) :
    e ∈ t.entries ∧ (e.key = (stream, cell) → e.identity.generation = nextGeneration) := by
  unfold recycleSeq at h
  split at h
  · rename_i x hFind
    obtain ⟨hx, hKey⟩ := hOk.find_iff.mp hFind
    split at h
    · rw [eraseEntry_entries, mem_filter] at h
      refine ⟨h.1, fun heKey => ?_⟩
      have hex : e = x := eq_of_not_apart hOk.apart h.1 hx fun hApart =>
        hApart.1 (heKey.trans hKey.symm)
      simp [hex] at h
    rename_i hCurrent
    refine ⟨h, fun heKey => ?_⟩
    have hex : e = x := eq_of_not_apart hOk.apart h hx fun hApart =>
      hApart.1 (heKey.trans hKey.symm)
    rw [hex]
    simpa using hCurrent
  · rename_i hFind
    exact ⟨h, fun heKey => absurd heKey (hOk.find_none hFind e h)⟩

theorem mem_invalidatedSeq {slots : List Nat} {flags : Nat}
    (h : e ∈ (invalidatedSeq cfg slots flags q t).entries) : e ∈ t.entries := by
  unfold invalidatedSeq at h
  split at h
  · exact mem_of_mem_filter h
  · exact h

theorem mem_rolledBackSeq {tx : BatchTransaction} {payloadMayBeModified : Bool}
    (h : e ∈ (rolledBackSeq cfg tx payloadMayBeModified q t).entries) : e ∈ t.entries := by
  unfold rolledBackSeq at h
  split at h
  · exact mem_of_mem_filter h
  · exact h

/-- An entry after a position change comes from an entry of the same identity. -/
theorem mem_repositionedSeq {f : Int → Int}
    (h : e ∈ (repositionedSeq cfg identities f dropNegative degrade q t).entries) :
    ∃ x ∈ t.entries, e.identity = x.identity ∧
      (x.identity ∈ identities →
        e.position = f x.position ∧ (dropNegative = true → 0 ≤ e.position)) ∧
      (x.identity ∉ identities → e.position = x.position) := by
  unfold repositionedSeq at h
  split at h
  · have hMoved : e ∈ (repositionEntries cfg q identities f dropNegative t).entries := by
      split at h <;> exact h
    have hKept := (sort_perm.mem_iff).mp (mem_trim hMoved)
    rw [dropWhere_entries, List.mem_filter, List.mem_map] at hKept
    obtain ⟨⟨x, hx, rfl⟩, hDrop⟩ := hKept
    refine ⟨x, hx, ?_, ?_, ?_⟩
    · split <;> rfl
    · intro hIn
      simp only [hIn, if_true] at hDrop ⊢
      refine ⟨trivial, fun hFlag => ?_⟩
      simpa [hFlag] using hDrop
    · intro hNot
      simp only [hNot, if_false]
  rename_i hAny
  refine ⟨e, h, rfl, ?_, fun _ => rfl⟩
  intro hIn
  exact absurd (any_eq_true.mpr ⟨e, h, by simpa using hIn⟩) hAny

variable {inBatch : Bool}

theorem mem_linkEntry {x : ExactEntry}
    (h : e ∈ (linkEntry cfg q inBatch x t).entries) : e = x ∨ e ∈ t.entries := by
  have hLinked : e ∈ insertCommitted x t.entries := by
    unfold linkEntry at h
    split at h
    · rwa [countRecovery_entries] at h
    · have h := mem_trim h
      rwa [countRecovery_entries] at h
  exact mem_cons.mp ((insertCommitted_perm x t.entries).mem_iff.mp hLinked)

variable {identity : TailIdentity} {position : Int} {ordinal : Nat}

/-- An entry after a commit is the committed one or an old one of another cell. -/
theorem mem_commitSeq {t' : SeqTail}
    (hOk : SeqOk cfg q next [] t) (hTokens : 0 < cfg.nTokens)
    (hCommit : commitSeq cfg q inBatch next identity position ordinal t = some t')
    (h : e ∈ t'.entries) :
    (e ∈ t.entries ∧ e.key ≠ identity.cellKey) ∨
      (e.identity = identity ∧ e.position = position) := by
  have hNew : commitNew cfg q inBatch next identity position ordinal t = some t' →
      (e ∈ t.entries ∧ e.key ≠ identity.cellKey) ∨
        (e.identity = identity ∧ e.position = position) := by
    intro hCommit
    unfold commitNew at hCommit
    split at hCommit
    · cases hCommit
    rename_i t₁ slot hTake
    obtain rfl := some.inj hCommit
    have hSub := ((hOk.eraseStale identity).takeSlot hTokens hTake).2.2.1
    rcases mem_linkEntry h with rfl | hOld
    · exact Or.inr ⟨rfl, rfl⟩
    have hStale := hSub.subset hOld
    exact Or.inl ⟨(eraseStale_sublist identity).subset hStale,
      hOk.eraseStale_key identity e hStale⟩
  unfold commitSeq at hCommit
  split at hCommit
  · rename_i dup hFind
    obtain ⟨hDup, hKey⟩ := hOk.find_iff.mp hFind
    split at hCommit
    · rename_i hSame
      obtain rfl := some.inj hCommit
      have hMoved := (sort_perm.mem_iff).mp (mem_trim h)
      obtain ⟨x, hx, rfl⟩ := mem_map.mp hMoved
      by_cases hNode : x.node = dup.node
      · have hxd : x = dup := eq_of_not_apart hOk.apart hx hDup fun hApart => hApart.2.1 hNode
        right
        simp only [hNode, if_true]
        exact ⟨hxd ▸ hSame, trivial⟩
      have hne : x ≠ dup := fun hEq => hNode (by rw [hEq])
      left
      simp only [hNode]
      exact ⟨hx, hKey ▸ (hOk.apart.forall hx hDup hne).1⟩
    · exact hNew hCommit
  · exact hNew hCommit

theorem mem_restoreSeq {node : Nat} {localSlot : Nat}
    (h : e ∈ (restoreSeq cfg q node identity position ordinal localSlot t).entries) :
    e ∈ t.entries ∨ (e.identity = identity ∧ e.position = position) := by
  rcases mem_cons.mp ((insertBefore_perm _ t.entries).mem_iff.mp h) with rfl | hOld
  · exact Or.inr ⟨rfl, rfl⟩
  · exact Or.inl hOld

end Members

variable {srcStream dstStream : Nat} {e : ExactEntry}

/-- An entry of the destination of a copy: one the destination keeps, or one of
the source in the range under the destination's stream. -/
theorem mem_copyDestination {s : TailStore} {src dst : Nat}
    {destination : List ExactEntry} (hTokens : List.Forall₂ SameToken (s.copyRetained src dst srcStream dstStream p0 p1)
      destination) (he : e ∈ destination) :
    (∃ x ∈ (s.seqs dst).entries, inRange p0 p1 x.position = false ∧ e.SameFact x) ∨
      (∃ x ∈ (s.seqs src).entries, x.identity.stream = srcStream ∧
        inRange p0 p1 x.position = true ∧ e.position = x.position ∧
        e.identity = { x.identity with stream := dstStream }) := by
  obtain ⟨c, hc, hToken⟩ : ∃ c ∈ s.copyRetained src dst srcStream dstStream p0 p1,
      SameToken c e := by
    obtain ⟨i, hi, rfl⟩ := mem_iff_getElem.mp he
    exact ⟨_, getElem_mem (by rw [hTokens.length_eq]; exact hi),
      List.Forall₂.get hTokens _ _⟩
  have hc := mem_retainedCandidates hc
  rw [hToken.1]
  rcases mem_append.mp hc with hKept | hCopied
  · obtain ⟨x, hx, rfl⟩ := mem_map.mp hKept
    rw [mem_filter] at hx
    exact Or.inl ⟨x, hx.1, by simpa using hx.2, rfl, rfl⟩
  obtain ⟨x, hx, rfl⟩ := mem_map.mp hCopied
  rw [mem_filter] at hx
  have hIn : x.identity.stream = srcStream ∧ inRange p0 p1 x.position = true := by
    simpa using hx.2
  exact Or.inr ⟨x, hx.1, hIn.1, hIn.2, rfl, rfl⟩

/-! ## Operations -/

/-- One call of a method. -/
inductive Op
  | commit (seqId : Int) (identity : TailIdentity) (position : Int) (ordinal : Nat)
      (currentRow : Option Nat)
  | restore (seqId : Int) (identity : TailIdentity) (position : Int) (ordinal localSlot : Nat)
  | recycle (stream cell nextGeneration : Nat)
  | beginBatch
  | finishBatch (success payloadMayBeModified : Bool)
  | seqCp (src dst p0 p1 : Int)
  | prepareSeqCp (src dst : Int) (srcStream dstStream : Nat) (p0 p1 : Int)
  | commitSeqCp
  | cancelSeqCp
  | seqRm (seqId p0 p1 : Int)
  | seqRmCell (seqId : Int) (stream cell : Nat)
  | seqKeep (seqId : Int)
  | seqAdd (seqId p0 p1 shift : Int)
  | seqDiv (seqId p0 p1 divisor : Int)
  | invalidateSlots (slots : List Nat) (flags : Nat)
  | markDegraded (seqId : Int) (flags : Nat)
  | restoreProvenance (provenance : List TailProvenance) (destSeqId : Int)
  | restoreWriteCursor (seqId : Int) (cursor : Nat)
  | clear

/-- Run the method and drop its result. -/
def Op.run : Op → TailM Unit
  | .commit seqId identity position ordinal currentRow => do
      let _ ← TailStore.commit seqId identity position ordinal currentRow
  | .restore seqId identity position ordinal localSlot => do
      let _ ← TailStore.restore seqId identity position ordinal localSlot
  | .recycle stream cell nextGeneration => TailStore.recycle stream cell nextGeneration
  | .beginBatch => TailStore.beginBatch
  | .finishBatch success payloadMayBeModified =>
    TailStore.finishBatch success payloadMayBeModified
  | .seqCp src dst p0 p1 => TailStore.seqCp src dst p0 p1
  | .prepareSeqCp src dst srcStream dstStream p0 p1 => do
      let _ ← TailStore.prepareSeqCp src dst srcStream dstStream p0 p1
  | .commitSeqCp => TailStore.commitSeqCp
  | .cancelSeqCp => TailStore.cancelSeqCp
  | .seqRm seqId p0 p1 => TailStore.seqRm seqId p0 p1
  | .seqRmCell seqId stream cell => TailStore.seqRmCell seqId stream cell
  | .seqKeep seqId => TailStore.seqKeep seqId
  | .seqAdd seqId p0 p1 shift => TailStore.seqAdd seqId p0 p1 shift
  | .seqDiv seqId p0 p1 divisor => TailStore.seqDiv seqId p0 p1 divisor
  | .invalidateSlots slots flags => TailStore.invalidateSlots slots flags
  | .markDegraded seqId flags => TailStore.markDegraded seqId flags
  | .restoreProvenance provenance destSeqId =>
    TailStore.restoreProvenance provenance destSeqId
  | .restoreWriteCursor seqId cursor => TailStore.restoreWriteCursor seqId cursor
  | .clear => TailStore.clear

/-- The state after a call, returned or thrown. -/
def Op.step (op : Op) (s : TailStore) : TailStore := finalState op.run s

/-- The call ends in the "duplicate physical cell" error. -/
def Op.Duplicates (op : Op) (s : TailStore) : Prop := ∃ s', op.run s = .error .duplicateCell s'

/-- A prepared copy is committed or cancelled before anything else is done. -/
def CopyFirst (op : Op) (s : TailStore) : Prop :=
  s.pending ≠ none → op = .commitSeqCp ∨ op = .cancelSeqCp

/-- The states of the runs all of whose calls satisfy `G`. -/
inductive Reachable (G : Op → TailStore → Prop) (cfg : TailConfig) : TailStore → Prop
  | init : Reachable G cfg { cfg }
  | step {s : TailStore} (op : Op) : Reachable G cfg s → G op s → Reachable G cfg (op.step s)

/-! ## One call -/

/-- Where the saved state of an open batch comes from. -/
def BatchFrom (s s' : TailStore) : Prop :=
  ∀ tx', s'.batch = some tx' →
    (∃ tx, s.batch = some tx ∧ tx'.seqs = tx.seqs) ∨ tx'.seqs = s.seqs

/-- The state a call leaves outside a copy transaction. -/
structure Leaves (s s' : TailStore) : Prop where
  idle : Idle s'
  cfg : s'.cfg = s.cfg
  batch : BatchFrom s s'

theorem BatchFrom.of_eq {s s' : TailStore} (h : s'.batch = s.batch) : BatchFrom s s' := by
  intro tx' htx
  exact Or.inl ⟨tx', h ▸ htx, rfl⟩

theorem Leaves.refl {s : TailStore} (h : Idle s) : Leaves s s := ⟨h, rfl, BatchFrom.of_eq rfl⟩

section Steps

variable {s s' : TailStore} {op : Op}

theorem step_of_ok (op : Op) {u : Unit} (h : op.run s = .ok u s') :
    ¬ op.Duplicates s ∧ op.step s = s' := by
  constructor
  · rintro ⟨s'', hDup⟩
    rw [h] at hDup
    cases hDup
  · simp only [Op.step, finalState, h]

theorem step_of_error (op : Op) {err : TailError} (h : op.run s = .error err s')
    (hErr : err ≠ .duplicateCell) : ¬ op.Duplicates s ∧ op.step s = s' := by
  constructor
  · rintro ⟨s'', hDup⟩
    rw [h] at hDup
    cases hDup
    exact hErr rfl
  · simp only [Op.step, finalState, h]

variable {g : Nat → SeqTail → SeqTail}

theorem Leaves.mapSeqs (h : Idle s)
    (hg : ∀ q, SeqOk s.cfg q s.nextNode [] (g q (s.seqs q))) : Leaves s (s.mapSeqs g) :=
  ⟨h.mapSeqs hg, rfl, BatchFrom.of_eq rfl⟩

variable {f : SeqTail → SeqTail}

theorem Leaves.modSeq (h : Idle s) {q : Nat}
    (hf : SeqOk s.cfg q s.nextNode [] (f (s.seqs q))) : Leaves s (s.modSeq q f) :=
  ⟨h.modSeq hf, rfl, BatchFrom.of_eq rfl⟩

theorem mem_mapSeqs {q : Nat} (h : e ∈ ((s.mapSeqs g).seqs q).entries) :
    (q < s.cfg.nSeqMax ∧ e ∈ (g q (s.seqs q)).entries) ∨
      (¬ q < s.cfg.nSeqMax ∧ e ∈ (s.seqs q).entries) := by
  simp only [TailStore.mapSeqs] at h
  split at h
  · exact Or.inl ⟨‹_›, h⟩
  · exact Or.inr ⟨‹_›, h⟩

theorem mem_modSeq {q r : Nat} (h : e ∈ ((s.modSeq q f).seqs r).entries) :
    (r = q ∧ e ∈ (f (s.seqs q)).entries) ∨ (r ≠ q ∧ e ∈ (s.seqs r).entries) := by
  by_cases hr : r = q
  · subst hr
    rw [modSeq_seqs_self] at h
    exact Or.inl ⟨rfl, h⟩
  · rw [modSeq_seqs_ne s hr] at h
    exact Or.inr ⟨hr, h⟩

theorem subset_mapSeqs (hg : ∀ q, (g q (s.seqs q)).entries ⊆ (s.seqs q).entries) (q : Nat) :
    ((s.mapSeqs g).seqs q).entries ⊆ (s.seqs q).entries := by
  intro e he
  rcases mem_mapSeqs he with ⟨-, hIn⟩ | ⟨-, hIn⟩
  · exact hg q hIn
  · exact hIn

theorem subset_modSeq {q : Nat} (hf : (f (s.seqs q)).entries ⊆ (s.seqs q).entries) (r : Nat) :
    ((s.modSeq q f).seqs r).entries ⊆ (s.seqs r).entries := by
  intro e he
  rcases mem_modSeq he with ⟨rfl, hIn⟩ | ⟨-, hIn⟩
  · exact hf hIn
  · exact hIn

variable {P : Nat → ExactEntry → Prop}

theorem spec_of_ok (op : Op) {u : Unit} (hRun : op.run s = .ok u s') (hLeaves : Leaves s s')
    (hMem : ∀ q, ∀ e ∈ (s'.seqs q).entries, P q e) :
    ¬ op.Duplicates s ∧ Leaves s (op.step s) ∧
      ∀ q e, e ∈ ((op.step s).seqs q).entries → P q e := by
  obtain ⟨hDup, hStep⟩ := step_of_ok op hRun
  rw [hStep]
  exact ⟨hDup, hLeaves, hMem⟩

theorem spec_of_error (op : Op) {err : TailError} (hRun : op.run s = .error err s') (hLeaves : Leaves s s')
    (hMem : ∀ q, ∀ e ∈ (s'.seqs q).entries, P q e) (hErr : err ≠ .duplicateCell) :
    ¬ op.Duplicates s ∧ Leaves s (op.step s) ∧
      ∀ q e, e ∈ ((op.step s).seqs q).entries → P q e := by
  obtain ⟨hDup, hStep⟩ := step_of_error op hRun hErr
  rw [hStep]
  exact ⟨hDup, hLeaves, hMem⟩

theorem recordCurrent_spec (q : Nat) (identity : TailIdentity) (position : Int) (ordinal : Nat)
    (currentRow : Option Nat) (result : Int) :
    (∃ b, recordCurrent q identity position ordinal currentRow result s =
        .ok result { s with batch := b } ∧
        ∀ tx', b = some tx' → ∃ tx, s.batch = some tx ∧ tx'.seqs = tx.seqs) ∨
      recordCurrent q identity position ordinal currentRow result s =
        .error .currentSourceOverflow s := by
  have hSame : ∀ b, b = s.batch →
      ∀ tx', b = some tx' → ∃ tx, s.batch = some tx ∧ tx'.seqs = tx.seqs := by
    rintro b rfl tx' htx
    exact ⟨tx', htx, rfl⟩
  unfold recordCurrent
  split
  · rename_i tx row hBatch
    split
    · exact Or.inl ⟨s.batch, rfl, hSame _ rfl⟩
    split
    · exact Or.inr rfl
    refine Or.inl ⟨_, rfl, ?_⟩
    intro tx' htx
    obtain rfl := some.inj htx
    exact ⟨tx, hBatch, rfl⟩
  · exact Or.inl ⟨s.batch, rfl, hSame _ rfl⟩

theorem commit_spec (h : Idle s) (seqId : Int) (identity : TailIdentity) (position : Int)
    (ordinal : Nat) (currentRow : Option Nat) :
    ¬ (Op.commit seqId identity position ordinal currentRow).Duplicates s ∧
      Leaves s ((Op.commit seqId identity position ordinal currentRow).step s) ∧
      ∀ q e, e ∈ (((Op.commit seqId identity position ordinal currentRow).step s).seqs q).entries →
        e ∈ (s.seqs q).entries ∨
          (q = seqId.toNat ∧ s.validSeq seqId = true ∧
            e.identity = identity ∧ e.position = position) := by
  have hRun : (Op.commit seqId identity position ordinal currentRow).run s =
      (TailStore.commit seqId identity position ordinal currentRow >>= fun _ => pure ()) s := rfl
  unfold TailStore.commit at hRun
  simp only [Bind.bind, EStateM.bind] at hRun
  by_cases hSkip : (!s.validSeq seqId) = true ∨ s.cfg.nTokens = 0
  · rw [if_pos hSkip] at hRun
    exact spec_of_ok _ hRun (Leaves.refl h) fun q e he => Or.inl he
  rw [if_neg hSkip] at hRun
  rw [not_or, Bool.not_eq_true', Bool.not_eq_false] at hSkip
  have hTokens : 0 < s.cfg.nTokens := Nat.pos_of_ne_zero hSkip.2
  cases hCommit : commitSeq s.cfg seqId.toNat s.inBatch s.nextNode identity position ordinal
      (s.seqs seqId.toNat) with
  | none =>
    simp only [hCommit] at hRun
    obtain ⟨hDup, hStep⟩ := step_of_error _ hRun (by simp)
    rw [hStep]
    refine ⟨hDup, Leaves.modSeq h ((h.seqs _).eraseStale identity), ?_⟩
    intro q e he
    rcases mem_modSeq he with ⟨rfl, hIn⟩ | ⟨-, hIn⟩
    · exact Or.inl ((eraseStale_sublist identity).subset hIn)
    · exact Or.inl hIn
  | some t =>
    simp only [hCommit] at hRun
    have hNext : Idle { s.modSeq seqId.toNat (fun _ => t) with
        nextNode := s.nextNode + 1 } :=
      (h.mono (Nat.le_succ s.nextNode)).modSeq (f := fun _ => t)
        ((h.seqs seqId.toNat).commitSeq hTokens hCommit)
    have hMem : ∀ q e, e ∈ ((s.modSeq seqId.toNat fun _ => t).seqs q).entries →
        e ∈ (s.seqs q).entries ∨ (q = seqId.toNat ∧ s.validSeq seqId = true ∧
          e.identity = identity ∧ e.position = position) := by
      intro q e he
      rcases mem_modSeq he with ⟨rfl, hIn⟩ | ⟨-, hIn⟩
      · rcases mem_commitSeq (h.seqs _) hTokens hCommit hIn with ⟨hOld, -⟩ | hNew
        · exact Or.inl hOld
        · exact Or.inr ⟨rfl, hSkip.1, hNew⟩
      · exact Or.inl hIn
    rcases recordCurrent_spec (s := { s.modSeq seqId.toNat (fun _ => t) with
        nextNode := s.nextNode + 1 }) seqId.toNat identity position ordinal currentRow
        (retainedSlot t identity) with ⟨b, hRecord, hb⟩ | hRecord
    · rw [hRecord] at hRun
      obtain ⟨hDup, hStep⟩ := step_of_ok _ hRun
      rw [hStep]
      refine ⟨hDup, ⟨⟨hNext.pending, hNext.seqs, ?_⟩, rfl, ?_⟩, hMem⟩
      · intro tx' htx q
        obtain ⟨tx, hTx, hSeqs⟩ := hb tx' htx
        rw [hSeqs]
        exact hNext.batch tx hTx q
      · exact fun tx' htx => Or.inl (hb tx' htx)
    rw [hRecord] at hRun
    obtain ⟨hDup, hStep⟩ := step_of_error _ hRun (by simp)
    rw [hStep]
    exact ⟨hDup, ⟨hNext, rfl, BatchFrom.of_eq rfl⟩, hMem⟩

theorem restore_spec (h : Idle s) (seqId : Int) (identity : TailIdentity) (position : Int)
    (ordinal localSlot : Nat) :
    ¬ (Op.restore seqId identity position ordinal localSlot).Duplicates s ∧
      Leaves s ((Op.restore seqId identity position ordinal localSlot).step s) ∧
      ∀ q e, e ∈ (((Op.restore seqId identity position ordinal localSlot).step s).seqs q).entries →
        e ∈ (s.seqs q).entries ∨
          (q = seqId.toNat ∧ s.validSeq seqId = true ∧
            e.identity = identity ∧ e.position = position) := by
  have hRun : (Op.restore seqId identity position ordinal localSlot).run s =
      (TailStore.restore seqId identity position ordinal localSlot >>= fun _ => pure ()) s := rfl
  unfold TailStore.restore at hRun
  simp only [Bind.bind, EStateM.bind] at hRun
  by_cases hInvalid : (!s.validSeq seqId) = true ∨ s.cfg.arenaStride ≤ localSlot ∨ s.busy = true
  · rw [if_pos hInvalid] at hRun
    exact spec_of_error _ hRun (Leaves.refl h) (fun q e he => Or.inl he) (by simp)
  rw [if_neg hInvalid] at hRun
  by_cases hConflict : s.cfg.historyLimit ≤ (s.seqs seqId.toNat).entries.length ∨
      (s.seqs seqId.toNat).used localSlot = true ∨
      identity.cellKey ∈ (s.seqs seqId.toNat).index
  · rw [if_pos hConflict] at hRun
    exact spec_of_error _ hRun (Leaves.refl h) (fun q e he => Or.inl he) (by simp)
  rw [if_neg hConflict] at hRun
  simp only [not_or, Bool.not_eq_true', Bool.not_eq_false, not_le] at hInvalid hConflict
  obtain ⟨hDup, hStep⟩ := step_of_ok _ hRun
  rw [hStep]
  have hSeq := (h.seqs seqId.toNat).restoreSeq identity position ordinal
    hInvalid.2.1 hConflict.1 (by simpa using hConflict.2.1) hConflict.2.2
  refine ⟨hDup, ⟨(h.mono (Nat.le_succ s.nextNode)).modSeq hSeq, rfl, BatchFrom.of_eq rfl⟩, ?_⟩
  intro q e he
  rcases mem_modSeq he with ⟨rfl, hIn⟩ | ⟨-, hIn⟩
  · rcases mem_restoreSeq hIn with hOld | hNew
    · exact Or.inl hOld
    · exact Or.inr ⟨rfl, hInvalid.1, hNew⟩
  · exact Or.inl hIn

theorem provenanceValid_iff {p : TailProvenance} :
    s.provenanceValid p = true ↔ s.validSeq p.seqId = true ∧
      flagsKnown p.degradationFlags = true ∧ p.recoveryCommits ≤ s.cfg.nTokens ∧
      (p.degradationFlags = 0 → p.recoveryCommits = 0) := by
  simp only [provenanceValid, Bool.and_eq_true, decide_eq_true_eq, Bool.not_eq_true',
    Bool.and_eq_false_imp, decide_eq_false_iff_not, not_not, and_assoc]

theorem checkProvenance_valid {provenance : List TailProvenance} {seen : List Int}
    (h : s.checkProvenance provenance seen = none) :
    ∀ p ∈ provenance, s.provenanceValid p = true := by
  induction provenance generalizing seen with
  | nil => simp
  | cons p ps ih =>
    unfold checkProvenance at h
    split at h
    · cases h
    rename_i hValid
    split at h
    · cases h
    intro x hx
    rcases mem_cons.mp hx with rfl | hx
    · simpa using hValid
    · exact ih h x hx

theorem restoreProvenance_spec (h : Idle s) (provenance : List TailProvenance)
    (destSeqId : Int) :
    ¬ (Op.restoreProvenance provenance destSeqId).Duplicates s ∧
      Leaves s ((Op.restoreProvenance provenance destSeqId).step s) ∧
      ∀ q, (((Op.restoreProvenance provenance destSeqId).step s).seqs q).entries =
        (s.seqs q).entries := by
  have hKeep : ∀ (s' : TailStore) (p : TailProvenance), Leaves s s' →
      p.recoveryCommits ≤ s.cfg.nTokens ∧ (p.degradationFlags = 0 → p.recoveryCommits = 0) →
      Leaves s (s'.modSeq p.seqId.toNat (setProvenance p)) := by
    intro s' p hLeaves hp
    refine ⟨hLeaves.idle.modSeq ?_, hLeaves.cfg, hLeaves.batch⟩
    exact (hLeaves.idle.seqs _).counters (by rw [hLeaves.cfg]; exact hp.1) hp.2
  have hSame : ∀ (s' : TailStore) (n : Nat) (p : TailProvenance) (q : Nat),
      ((s'.modSeq n (setProvenance p)).seqs q).entries = (s'.seqs q).entries := by
    intro s' n p q
    by_cases hq : q = n
    · subst hq
      rw [modSeq_seqs_self]
      rfl
    · rw [modSeq_seqs_ne s' hq]
  have hFold : ∀ (l : List TailProvenance) (s' : TailStore), Leaves s s' →
      (∀ q, (s'.seqs q).entries = (s.seqs q).entries) →
      (∀ p ∈ l, p.recoveryCommits ≤ s.cfg.nTokens ∧
        (p.degradationFlags = 0 → p.recoveryCommits = 0)) →
      Leaves s (l.foldl (fun acc p => acc.modSeq p.seqId.toNat (setProvenance p)) s') ∧
        ∀ q, ((l.foldl (fun acc p => acc.modSeq p.seqId.toNat (setProvenance p)) s').seqs
          q).entries = (s.seqs q).entries := by
    intro l
    induction l with
    | nil => exact fun s' hLeaves hEntries _ => ⟨hLeaves, hEntries⟩
    | cons p l ih =>
      intro s' hLeaves hEntries hValid
      refine ih _ (hKeep s' p hLeaves (hValid p mem_cons_self)) ?_
        fun x hx => hValid x (mem_cons_of_mem p hx)
      exact fun q => (hSame s' _ p q).trans (hEntries q)
  have hRun : (Op.restoreProvenance provenance destSeqId).run s =
      TailStore.restoreProvenance provenance destSeqId s := rfl
  unfold TailStore.restoreProvenance at hRun
  cases hCheck : s.checkProvenance provenance [] with
  | some err =>
    simp only [hCheck] at hRun
    have hErr : err ≠ .duplicateCell := by
      rintro rfl
      have hNever : ∀ (l : List TailProvenance) seen,
          s.checkProvenance l seen ≠ some .duplicateCell := by
        intro l
        induction l with
        | nil => simp [checkProvenance]
        | cons p l ih =>
          intro seen
          unfold checkProvenance
          split
          · simp
          split
          · simp
          · exact ih _
      exact hNever _ _ hCheck
    obtain ⟨hDup, hStep⟩ := step_of_error _ hRun hErr
    rw [hStep]
    exact ⟨hDup, Leaves.refl h, fun _ => rfl⟩
  | none =>
    have hValid : ∀ p ∈ provenance, p.recoveryCommits ≤ s.cfg.nTokens ∧
        (p.degradationFlags = 0 → p.recoveryCommits = 0) := fun p hp =>
      (provenanceValid_iff.mp (checkProvenance_valid hCheck p hp)).2.2
    simp only [hCheck] at hRun
    by_cases hDest : 0 ≤ destSeqId
    · rw [if_pos hDest] at hRun
      split at hRun
      · rename_i p
        split at hRun
        · obtain ⟨hDup, hStep⟩ := step_of_ok _ hRun
          rw [hStep]
          have hp := hValid p (by simp)
          refine ⟨hDup, Leaves.modSeq h ?_, fun q => hSame s _ p q⟩
          exact (h.seqs _).counters hp.1 hp.2
        obtain ⟨hDup, hStep⟩ := step_of_error _ hRun (by simp)
        rw [hStep]
        exact ⟨hDup, Leaves.refl h, fun _ => rfl⟩
      obtain ⟨hDup, hStep⟩ := step_of_error _ hRun (by simp)
      rw [hStep]
      exact ⟨hDup, Leaves.refl h, fun _ => rfl⟩
    rw [if_neg hDest] at hRun
    obtain ⟨hDup, hStep⟩ := step_of_ok _ hRun
    rw [hStep]
    have hZero : Leaves s (s.mapSeqs fun _ t => { t with degradation := 0, recovery := 0 }) :=
      Leaves.mapSeqs h fun q => (h.seqs q).counters (Nat.zero_le _) fun _ => rfl
    refine ⟨hDup, hFold provenance _ hZero ?_ hValid⟩
    intro q
    dsimp only
    split <;> rfl

/-- The calls that only remove entries. -/
theorem shrink_spec (op : Op) (h : Idle s) (hOp : match op with
      | .recycle _ _ _ | .beginBatch | .seqRm _ _ _ | .seqRmCell _ _ _ | .seqKeep _
      | .invalidateSlots _ _ | .markDegraded _ _ | .restoreProvenance _ _
      | .restoreWriteCursor _ _ | .clear => True
      | _ => False) :
    ¬ op.Duplicates s ∧ Leaves s (op.step s) ∧
      ∀ q e, e ∈ ((op.step s).seqs q).entries → e ∈ (s.seqs q).entries := by
  have hSame : ∀ q, ∀ e ∈ (s.seqs q).entries, e ∈ (s.seqs q).entries := fun _ _ he => he
  cases op with
  | recycle stream cell nextGeneration =>
    have hMap : Idle (s.mapSeqs (recycleSeq s.cfg stream cell nextGeneration)) :=
      h.mapSeqs fun q => (h.seqs q).recycleSeq stream cell nextGeneration
    refine spec_of_ok (.recycle stream cell nextGeneration) rfl
      ⟨⟨h.pending, hMap.seqs, ?_⟩, rfl, ?_⟩
      (subset_mapSeqs fun q _ hIn => (mem_recycleSeq (h.seqs q) hIn).1)
    · intro tx' htx q
      obtain ⟨tx, hTx, rfl⟩ := map_eq_some_iff.mp htx
      exact h.batch tx hTx q
    intro tx' htx
    obtain ⟨tx, hTx, rfl⟩ := map_eq_some_iff.mp htx
    exact Or.inl ⟨tx, hTx, rfl⟩
  | beginBatch =>
    by_cases hOpen : s.cfg.compact = true ∧ s.batch.isSome = true
    · exact spec_of_error .beginBatch (if_pos hOpen) (Leaves.refl h) hSame (by simp)
    have hMap : Idle (s.mapSeqs fun q t => t.trim s.cfg q s.cfg.retained) :=
      h.mapSeqs fun q => (h.seqs q).trim _
    refine spec_of_ok .beginBatch (if_neg hOpen) ⟨⟨h.pending, hMap.seqs, ?_⟩, rfl, ?_⟩
      (subset_mapSeqs fun q _ hIn => mem_trim hIn)
    · intro tx' htx q
      dsimp only at htx
      split at htx
      · obtain rfl := some.inj htx
        exact h.seqs q
      · exact h.batch tx' htx q
    intro tx' htx
    dsimp only at htx
    split at htx
    · obtain rfl := some.inj htx
      exact Or.inr rfl
    · exact Or.inl ⟨tx', htx, rfl⟩
  | seqRm seqId p0 p1 =>
    by_cases hValid : s.validSeq seqId = true
    · exact spec_of_ok (.seqRm seqId p0 p1) (seqRm_run p0 p1 hValid (h.seqs seqId.toNat))
        (Leaves.modSeq h ((h.seqs _).seqRmSeq p0 p1))
        (subset_modSeq fun _ hIn => (mem_seqRmSeq.mp hIn).1)
    · exact spec_of_ok (.seqRm seqId p0 p1) (seqRm_invalid hValid) (Leaves.refl h) hSame
  | seqRmCell seqId stream cell =>
    by_cases hValid : s.validSeq seqId = true
    · exact spec_of_ok (.seqRmCell seqId stream cell)
        (seqRmCell_run hValid (h.seqs seqId.toNat)) (Leaves.modSeq h ((h.seqs _).dropReindex _))
        (subset_modSeq fun _ hIn => (mem_seqRmCellSeq.mp hIn).1)
    · exact spec_of_ok (.seqRmCell seqId stream cell) (seqRmCell_invalid hValid)
        (Leaves.refl h) hSame
  | seqKeep seqId =>
    refine spec_of_ok _ (seqKeep_run h seqId) (Leaves.mapSeqs h fun q => ?_)
      (subset_mapSeqs fun q e hIn => ?_)
    · split
      · exact (h.seqs q).seqRmSeq 0 (-1)
      · exact h.seqs q
    split at hIn
    · exact (mem_seqRmSeq.mp hIn).1
    · exact hIn
  | invalidateSlots slots flags =>
    exact spec_of_ok _ (invalidateSlots_run h slots flags)
      (Leaves.mapSeqs h fun q => (h.seqs q).invalidatedSeq slots flags)
      (subset_mapSeqs fun q _ hIn => mem_invalidatedSeq hIn)
  | markDegraded seqId flags =>
    by_cases hAll : seqId < 0
    · have hMap : Idle (s.mapSeqs fun _ t => degradeSeq flags t) :=
        h.mapSeqs fun q => (h.seqs q).degradeSeq flags
      exact spec_of_ok (.markDegraded seqId flags) (if_pos hAll)
        ⟨⟨by simp [h.pending], hMap.seqs, h.batch⟩, rfl, BatchFrom.of_eq rfl⟩
        (subset_mapSeqs (g := fun _ => degradeSeq flags) fun _ _ hIn => hIn)
    by_cases hValid : s.validSeq seqId = true
    · have hRun : (Op.markDegraded seqId flags).run s =
          .ok () (s.modSeq seqId.toNat (degradeSeq flags)) := by
        change TailStore.markDegraded seqId flags s = _
        unfold TailStore.markDegraded
        rw [if_neg hAll, if_pos hValid]
        simp only [h.pending]
        rfl
      exact spec_of_ok _ hRun (Leaves.modSeq h ((h.seqs _).degradeSeq flags))
        (subset_modSeq fun _ hIn => hIn)
    have hRun : (Op.markDegraded seqId flags).run s = .ok () s := by
      change TailStore.markDegraded seqId flags s = _
      unfold TailStore.markDegraded
      rw [if_neg hAll, if_neg hValid]
    exact spec_of_ok _ hRun (Leaves.refl h) hSame
  | restoreProvenance provenance destSeqId =>
    obtain ⟨hDup, hLeaves, hEntries⟩ := restoreProvenance_spec h provenance destSeqId
    refine ⟨hDup, hLeaves, fun q e he => ?_⟩
    rwa [hEntries] at he
  | restoreWriteCursor seqId cursor =>
    by_cases hInvalid : (!s.validSeq seqId) = true ∨ s.cfg.arenaStride ≤ cursor ∨ s.busy = true
    · exact spec_of_error (.restoreWriteCursor seqId cursor) (if_pos hInvalid)
        (Leaves.refl h) hSame (by simp)
    have hRun : (Op.restoreWriteCursor seqId cursor).run s = _ := if_neg hInvalid
    simp only [not_or, not_le] at hInvalid
    exact spec_of_ok _ hRun
      (Leaves.modSeq h { h.seqs seqId.toNat with cursor := fun _ => hInvalid.2.1 })
      (subset_modSeq fun _ hIn => hIn)
  | clear =>
    refine spec_of_ok .clear rfl ⟨(Idle.initial s.cfg).mono (Nat.zero_le _), rfl, ?_⟩ ?_
    · intro tx' htx
      cases htx
    · intro q e he
      cases he
  | _ => exact absurd hOp id

/-- A position change moves the touched identities in every sequence. -/
theorem reposition_spec (h : Idle s) {f : Int → Int}
    (hRun : op.run s = (range s.cfg.nSeqMax).forM
      (repositionSeq identities f dropNegative degrade) s) :
    ¬ op.Duplicates s ∧ Leaves s (op.step s) ∧
      ∀ q e, e ∈ ((op.step s).seqs q).entries → e ∈ (s.seqs q).entries ∧ ¬ q < s.cfg.nSeqMax ∨
        ∃ x ∈ (s.seqs q).entries, e.identity = x.identity ∧
          (x.identity ∈ identities →
            e.position = f x.position ∧ (dropNegative = true → 0 ≤ e.position)) ∧
          (x.identity ∉ identities → e.position = x.position) := by
  rw [reposition_run h] at hRun
  obtain ⟨hDup, hStep⟩ := step_of_ok _ hRun
  rw [hStep]
  refine ⟨hDup, Leaves.mapSeqs h fun q => (h.seqs q).repositionedSeq _ _ _ _, ?_⟩
  intro q e he
  rcases mem_mapSeqs he with ⟨-, hIn⟩ | ⟨hq, hIn⟩
  · exact Or.inr (mem_repositionedSeq hIn)
  · exact Or.inl ⟨hIn, hq⟩

/-- A finished batch keeps the sequences or restores the saved ones. -/
theorem finishBatch_spec (h : Idle s) (success payloadMayBeModified : Bool) :
    ¬ (Op.finishBatch success payloadMayBeModified).Duplicates s ∧
      Leaves s ((Op.finishBatch success payloadMayBeModified).step s) ∧
      ((∀ q, ((Op.finishBatch success payloadMayBeModified).step s).seqs q = s.seqs q) ∨
        (success = false ∧ s.cfg.compact = true ∧ ∃ tx, s.batch = some tx ∧
          ∀ q e, e ∈ (((Op.finishBatch success payloadMayBeModified).step s).seqs q).entries →
            e ∈ (tx.seqs q).entries)) := by
  cases hCompact : s.cfg.compact with
  | false =>
    have hRun : (Op.finishBatch success payloadMayBeModified).run s =
        .ok () { s with inBatch := false } := by
      change TailStore.finishBatch success payloadMayBeModified s = _
      unfold TailStore.finishBatch
      rw [run_bind (run_get s), hCompact]
      rfl
    obtain ⟨hDup, hStep⟩ := step_of_ok _ hRun
    rw [hStep]
    exact ⟨hDup, ⟨⟨h.pending, h.seqs, h.batch⟩, rfl, BatchFrom.of_eq rfl⟩,
      Or.inl fun _ => rfl⟩
  | true =>
    cases hBatch : s.batch with
    | none =>
      have hRun : (Op.finishBatch success payloadMayBeModified).run s = .ok () s := by
        change TailStore.finishBatch success payloadMayBeModified s = _
        unfold TailStore.finishBatch
        rw [run_bind (run_get s), hCompact]
        simp only [hBatch]
        rfl
      obtain ⟨hDup, hStep⟩ := step_of_ok _ hRun
      rw [hStep]
      exact ⟨hDup, Leaves.refl h, Or.inl fun _ => rfl⟩
    | some tx =>
      cases success with
      | true =>
        have hRun : (Op.finishBatch true payloadMayBeModified).run s =
            .ok () { s with batch := none, inBatch := false } := by
          change TailStore.finishBatch true payloadMayBeModified s = _
          unfold TailStore.finishBatch
          rw [run_bind (run_get s), hCompact]
          simp only [hBatch]
          rfl
        obtain ⟨hDup, hStep⟩ := step_of_ok _ hRun
        rw [hStep]
        refine ⟨hDup, ⟨⟨h.pending, h.seqs, ?_⟩, rfl, ?_⟩, Or.inl fun _ => rfl⟩
        · intro tx' htx
          cases htx
        · intro tx' htx
          cases htx
      | false =>
        obtain ⟨hDup, hStep⟩ := step_of_ok (.finishBatch false payloadMayBeModified)
          (finishBatch_rollback hCompact hBatch (fun q => (h.batch tx hBatch q).apart)
            payloadMayBeModified)
        rw [hStep]
        have hSaved : Idle { s with seqs := tx.seqs } :=
          ⟨h.pending, h.batch tx hBatch, h.batch⟩
        have hMap := hSaved.mapSeqs (g := rolledBackSeq s.cfg tx payloadMayBeModified)
          fun q => (hSaved.seqs q).rolledBackSeq tx payloadMayBeModified
        refine ⟨hDup, ⟨⟨h.pending, hMap.seqs, ?_⟩, rfl, ?_⟩, Or.inr ⟨rfl, rfl, tx, rfl, ?_⟩⟩
        · intro tx' htx
          cases htx
        · intro tx' htx
          cases htx
        intro q e he
        rcases mem_mapSeqs (s := { s with seqs := tx.seqs })
          (g := rolledBackSeq s.cfg tx payloadMayBeModified) he with ⟨-, hIn⟩ | ⟨-, hIn⟩
        · exact mem_rolledBackSeq hIn
        · exact hIn

/-- What a completed copy leaves: the destination has the retained candidates,
the other sequences are as before. -/
structure CopiesInto (s s' : TailStore) (dst : Nat) (retained : List CopyCandidate) : Prop where
  leaves : Leaves s s'
  others : ∀ q, q ≠ dst → (s'.seqs q).entries = (s.seqs q).entries
  tokens : ∃ destination, List.Forall₂ SameToken retained destination ∧
    CellsDistinct destination ∧
    ∀ e ∈ (s'.seqs dst).entries, ∃ x ∈ destination, e.SameFact x

variable {p : PendingSeqCp}

theorem copied_entries :
    ((s.copied p).seqs p.dst).entries = numberNodes s.nextNode p.destination := by
  simp only [TailStore.copied, TailStore.modSeq, Function.update_self]
  rfl

/-- Committing a prepared copy either completes it or reports a duplicate. -/
theorem commitSeqCp_spec (h : TailInv s) (hp : s.pending = some p) :
    (¬ CellsDistinct p.destination ∧ Op.commitSeqCp.Duplicates s) ∨
      (CellsDistinct p.destination ∧ ¬ Op.commitSeqCp.Duplicates s ∧
        Op.commitSeqCp.step s = s.copied p ∧ Idle (s.copied p)) := by
  by_cases hCells : CellsDistinct p.destination
  · obtain ⟨hDup, hStep⟩ := step_of_ok .commitSeqCp (commitSeqCp_run h hp hCells)
    exact Or.inr ⟨hCells, hDup, hStep, Idle.copied h hp hCells⟩
  · exact Or.inl ⟨hCells, commitSeqCp_duplicate hp hCells⟩

theorem copied_copiesInto (hInv : TailInv s')
    (hp : s'.pending = some p) (hCells : CellsDistinct p.destination) (hCfg : s'.cfg = s.cfg)
    (hBatch : s'.batch = s.batch) (hEntries : ∀ q, (s'.seqs q).entries = (s.seqs q).entries)
    {retained : List CopyCandidate} (hTokens : List.Forall₂ SameToken retained p.destination) :
    CopiesInto s (s'.copied p) p.dst retained := by
  refine ⟨⟨Idle.copied hInv hp hCells, hCfg, BatchFrom.of_eq hBatch⟩, ?_,
    p.destination, hTokens, hCells, ?_⟩
  · intro q hq
    simp only [TailStore.copied, TailStore.modSeq, Function.update_apply, if_neg hq]
    exact hEntries q
  intro e he
  rw [copied_entries] at he
  obtain ⟨x, hx, hEq, -⟩ := mem_numberNodes he
  exact ⟨x, hx, by rw [hEq]; exact ⟨rfl, rfl⟩⟩

theorem prepareSeqCp_cfg {src dst : Int}
    {copies : List SlotCopy} (hRun : prepareSeqCp src dst srcStream dstStream p0 p1 s =
      .ok copies s') : s'.cfg = s.cfg := by
  unfold prepareSeqCp at hRun
  split at hRun
  · cases hRun
    rfl
  split at hRun
  · cases hRun
  dsimp only at hRun
  split at hRun
  · cases hRun
  · cases hRun
    rfl

/-- `seq_cp` copies inside the stream of the first entry of the source. -/
theorem seqCp_spec (h : Idle s) (src dst p0 p1 : Int) :
    (¬ (Op.seqCp src dst p0 p1).Duplicates s ∧
        Leaves s ((Op.seqCp src dst p0 p1).step s) ∧
        ∀ q, (((Op.seqCp src dst p0 p1).step s).seqs q).entries = (s.seqs q).entries) ∨
      ∃ stream destination, List.Forall₂ SameToken
          (s.copyRetained src.toNat dst.toNat stream stream p0 p1) destination ∧
        ((¬ CellsDistinct destination ∧ (Op.seqCp src dst p0 p1).Duplicates s) ∨
          (CellsDistinct destination ∧ ¬ (Op.seqCp src dst p0 p1).Duplicates s ∧
            CopiesInto s ((Op.seqCp src dst p0 p1).step s) dst.toNat
              (s.copyRetained src.toNat dst.toNat stream stream p0 p1))) := by
  have hRun : (Op.seqCp src dst p0 p1).run s =
      (if !(!s.validSeq src ∨ !s.validSeq dst ∨ src = dst) then
        seqCpRemap src dst (frontStream (s.seqs src.toNat)) (frontStream (s.seqs src.toNat)) p0 p1
          >>= fun _ => pure ()
      else pure () : TailM Unit) s := rfl
  by_cases hInvalid : !s.validSeq src ∨ !s.validSeq dst ∨ src = dst
  · rw [if_neg (by rw [decide_eq_true hInvalid]; simp)] at hRun
    obtain ⟨hDup, hStep⟩ := step_of_ok _ hRun
    rw [hStep]
    exact Or.inl ⟨hDup, Leaves.refl h, fun _ => rfl⟩
  rw [if_pos (by rw [decide_eq_false hInvalid]; rfl)] at hRun
  generalize frontStream (s.seqs src.toNat) = stream at hRun
  have hSpec := prepareSeqCp_spec h src dst stream stream p0 p1
  cases hPrepare : prepareSeqCp src dst stream stream p0 p1 s with
  | error err s₁ =>
    rw [hPrepare] at hSpec
    obtain ⟨rfl, hIdle, hEntries, hBatch⟩ := hSpec
    unfold seqCpRemap at hRun
    rw [run_bind_error (run_bind_error hPrepare)] at hRun
    obtain ⟨hDup, hStep⟩ := step_of_error _ hRun (by simp)
    rw [hStep]
    refine Or.inl ⟨hDup, ⟨hIdle, ?_, BatchFrom.of_eq hBatch⟩, hEntries⟩
    unfold prepareSeqCp at hPrepare
    rw [if_neg hInvalid, if_neg (by simp [h.pending])] at hPrepare
    dsimp only at hPrepare
    split at hPrepare
    · cases hPrepare
      rfl
    · cases hPrepare
  | ok copies s₁ =>
    rw [hPrepare] at hSpec
    obtain ⟨hInv, rfl | ⟨p, hp, -, -, hBatch, hDst, hEntries, hTokens⟩⟩ := hSpec
    · unfold seqCpRemap at hRun
      have hNothing : commitSeqCp s₁ = .ok () s₁ := by
        unfold commitSeqCp
        rw [run_bind (run_get s₁)]
        simp only [h.pending]
        rfl
      rw [run_bind (run_bind hPrepare |>.trans (run_bind hNothing))] at hRun
      obtain ⟨hDup, hStep⟩ := step_of_ok _ hRun
      rw [hStep]
      exact Or.inl ⟨hDup, Leaves.refl h, fun _ => rfl⟩
    refine Or.inr ⟨stream, p.destination, hTokens, ?_⟩
    unfold seqCpRemap at hRun
    by_cases hCells : CellsDistinct p.destination
    · have hCommit := commitSeqCp_run hInv hp hCells
      rw [run_bind (run_bind hPrepare |>.trans (run_bind hCommit))] at hRun
      obtain ⟨hDup, hStep⟩ := step_of_ok _ hRun
      rw [hStep]
      refine Or.inr ⟨hCells, hDup, ?_⟩
      rw [← hDst]
      exact copied_copiesInto hInv hp hCells (prepareSeqCp_cfg hPrepare) hBatch hEntries
        (hDst ▸ hTokens)
    obtain ⟨s₂, hCommit⟩ := commitSeqCp_duplicate hp hCells
    rw [run_bind_error (run_bind hPrepare |>.trans (run_bind_error hCommit))] at hRun
    exact Or.inl ⟨hCells, s₂, hRun⟩

theorem prepareSeqCp_step (h : Idle s) (src dst : Int) (srcStream dstStream : Nat)
    (p0 p1 : Int) :
    ¬ (Op.prepareSeqCp src dst srcStream dstStream p0 p1).Duplicates s ∧
      TailInv ((Op.prepareSeqCp src dst srcStream dstStream p0 p1).step s) ∧
      (∀ q, (((Op.prepareSeqCp src dst srcStream dstStream p0 p1).step s).seqs q).entries =
        (s.seqs q).entries) ∧
      ((Op.prepareSeqCp src dst srcStream dstStream p0 p1).step s).cfg = s.cfg ∧
      ((Op.prepareSeqCp src dst srcStream dstStream p0 p1).step s).batch = s.batch ∧
      ∀ p, ((Op.prepareSeqCp src dst srcStream dstStream p0 p1).step s).pending = some p →
        s.validSeq src = true ∧ s.validSeq dst = true ∧ p.dst = dst.toNat ∧
          List.Forall₂ SameToken
            (s.copyRetained src.toNat dst.toNat srcStream dstStream p0 p1) p.destination := by
  have hSpec := prepareSeqCp_spec h src dst srcStream dstStream p0 p1
  cases hPrepare : prepareSeqCp src dst srcStream dstStream p0 p1 s with
  | error err s₁ =>
    rw [hPrepare] at hSpec
    obtain ⟨rfl, hIdle, hEntries, hBatch⟩ := hSpec
    obtain ⟨hDup, hStep⟩ := step_of_error (.prepareSeqCp src dst srcStream dstStream p0 p1)
      (run_bind_error hPrepare) (by simp)
    rw [hStep]
    refine ⟨hDup, hIdle.inv, hEntries, ?_, hBatch, ?_⟩
    · unfold prepareSeqCp at hPrepare
      split at hPrepare
      · cases hPrepare
      split at hPrepare
      · cases hPrepare
      dsimp only at hPrepare
      split at hPrepare
      · cases hPrepare
        rfl
      · cases hPrepare
    intro p hp
    rw [hIdle.pending] at hp
    cases hp
  | ok copies s₁ =>
    rw [hPrepare] at hSpec
    obtain ⟨hDup, hStep⟩ := step_of_ok (.prepareSeqCp src dst srcStream dstStream p0 p1)
      (run_bind hPrepare)
    rw [hStep]
    obtain ⟨hInv, rfl | ⟨p, hp, hSrc, hDst, hBatch, hTo, hEntries, hTokens⟩⟩ := hSpec
    · refine ⟨hDup, hInv, fun _ => rfl, rfl, rfl, ?_⟩
      intro p hp
      rw [h.pending] at hp
      cases hp
    refine ⟨hDup, hInv, hEntries, prepareSeqCp_cfg hPrepare, hBatch, ?_⟩
    intro p' hp'
    obtain rfl := some.inj (hp.symm.trans hp')
    exact ⟨hSrc, hDst, hTo, hTokens⟩

theorem commitSeqCp_idle (h : s.pending = none) : Op.commitSeqCp.run s = .ok () s := by
  change TailStore.commitSeqCp s = _
  unfold TailStore.commitSeqCp
  rw [run_bind (run_get s)]
  simp only [h]
  rfl

variable {seqId shift : Int}

theorem seqAdd_forM (hValid : s.validSeq seqId = true) :
    (Op.seqAdd seqId p0 p1 shift).run s = (range s.cfg.nSeqMax).forM
      (repositionSeq (touchedIdentities (s.seqs seqId.toNat) p0 p1) (· + shift) true
        (shift ≠ 0 ∧ ¬ (p0 ≤ 0 ∧ p1 < 0))) s := by
  change (if s.validSeq seqId = true then _ else _ : TailM Unit) s = _
  rw [if_pos hValid]

theorem seqAdd_invalid (hValid : ¬ s.validSeq seqId = true) :
    (Op.seqAdd seqId p0 p1 shift).run s = .ok () s := by
  change (if s.validSeq seqId = true then _ else _ : TailM Unit) s = _
  rw [if_neg hValid]
  rfl

variable {divisor : Int}

theorem seqDiv_forM (hValid : s.validSeq seqId = true ∧ divisor ≠ 0) :
    (Op.seqDiv seqId p0 p1 divisor).run s = (range s.cfg.nSeqMax).forM
      (repositionSeq (touchedIdentities (s.seqs seqId.toNat) p0 p1) (·.tdiv divisor) false
        (divisor ≠ 1 ∧ ¬ (p0 ≤ 0 ∧ p1 < 0))) s := by
  change (if s.validSeq seqId = true ∧ divisor ≠ 0 then _ else _ : TailM Unit) s = _
  rw [if_pos hValid]

theorem seqDiv_invalid (hValid : ¬ (s.validSeq seqId = true ∧ divisor ≠ 0)) :
    (Op.seqDiv seqId p0 p1 divisor).run s = .ok () s := by
  change (if s.validSeq seqId = true ∧ divisor ≠ 0 then _ else _ : TailM Unit) s = _
  rw [if_neg hValid]
  rfl

/-- Every call that does not report a duplicate keeps the invariant. -/
theorem TailInv.step (h : TailInv s) (hCopy : CopyFirst op s) (hDup : ¬ op.Duplicates s) :
    TailInv (op.step s) := by
  by_cases hPending : s.pending = none
  · have hIdle := h.idle hPending
    cases op with
    | commit => exact (commit_spec hIdle _ _ _ _ _).2.1.idle.inv
    | restore => exact (restore_spec hIdle _ _ _ _ _).2.1.idle.inv
    | finishBatch => exact (finishBatch_spec hIdle _ _).2.1.idle.inv
    | seqCp src dst p0 p1 =>
      rcases seqCp_spec hIdle src dst p0 p1 with ⟨-, hLeaves, -⟩ |
        ⟨stream, destination, -, ⟨-, hDuplicates⟩ | ⟨-, -, hCopies⟩⟩
      · exact hLeaves.idle.inv
      · exact absurd hDuplicates hDup
      · exact hCopies.leaves.idle.inv
    | prepareSeqCp => exact (prepareSeqCp_step hIdle _ _ _ _ _ _).2.1
    | commitSeqCp =>
      rw [(step_of_ok _ (commitSeqCp_idle hPending)).2]
      exact h
    | cancelSeqCp =>
      obtain ⟨s', hRun, hIdle', -⟩ := cancelSeqCp_run h
      rw [(step_of_ok .cancelSeqCp hRun).2]
      exact hIdle'.inv
    | seqAdd seqId p0 p1 shift =>
      by_cases hValid : s.validSeq seqId = true
      · exact (reposition_spec hIdle (seqAdd_forM hValid)).2.1.idle.inv
      · rw [(step_of_ok _ (seqAdd_invalid hValid)).2]
        exact h
    | seqDiv seqId p0 p1 divisor =>
      by_cases hValid : s.validSeq seqId = true ∧ divisor ≠ 0
      · exact (reposition_spec hIdle (seqDiv_forM hValid)).2.1.idle.inv
      · rw [(step_of_ok _ (seqDiv_invalid hValid)).2]
        exact h
    | _ => exact (shrink_spec _ hIdle trivial).2.1.idle.inv
  obtain ⟨p, hp⟩ := ne_none_iff_exists'.mp hPending
  rcases hCopy hPending with rfl | rfl
  · rcases commitSeqCp_spec h hp with ⟨-, hDuplicates⟩ | ⟨-, -, hStep, hIdle⟩
    · exact absurd hDuplicates hDup
    · rw [hStep]
      exact hIdle.inv
  obtain ⟨s', hRun, hIdle, -⟩ := cancelSeqCp_run h
  rw [(step_of_ok .cancelSeqCp hRun).2]
  exact hIdle.inv

/-- A call without the duplicate report, with copies finished first. -/
def Quiet (op : Op) (s : TailStore) : Prop := CopyFirst op s ∧ ¬ op.Duplicates s

/-- The invariant holds in every state of every run without the duplicate
report. -/
theorem Reachable.inv {cfg : TailConfig} (h : Reachable Quiet cfg s) : TailInv s := by
  induction h with
  | init => exact (Idle.initial cfg).inv
  | step op _ hQuiet ih => exact ih.step hQuiet.1 hQuiet.2

end Steps

end TailStore

end Beellama.Ports
