import Beellama.Ports.KvTailView

/-!
# Saving and restoring the exact-tail store

Outside a transaction a saved tail, fed to a cleared store by `restoreAll`, gives a store that no later
commits can tell from the source exactly when

* every degradation flag is one the reader knows (that of a failed compact batch is not),
* no sequence holds more entries than it retains, and
* the arena has at least one row, or there is no sequence.
-/

namespace Beellama.Ports

open Beellama.Verified List

namespace TailStore

/-! ## Later commits -/

structure CommitCall where
  seqId : Int
  identity : TailIdentity
  position : Int
  ordinal : Nat
  currentRow : Option Nat

/-- The answers a store gives to a sequence of commits. -/
def commitAnswers : List CommitCall → TailStore → List (Except TailError Int)
  | [], _ => []
  | c :: cs, s =>
    match commit c.seqId c.identity c.position c.ordinal c.currentRow s with
    | .ok slot s' => .ok slot :: commitAnswers cs s'
    | .error err s' => .error err :: commitAnswers cs s'

/-- Two stores outside a transaction that show the same. -/
structure SameStore (s₁ s₂ : TailStore) : Prop where
  cfg : s₁.cfg = s₂.cfg
  idle₁ : Idle s₁
  idle₂ : Idle s₂
  batch₁ : s₁.batch = none
  batch₂ : s₂.batch = none
  inBatch : s₁.inBatch = s₂.inBatch
  seqs : ∀ q < s₁.cfg.nSeqMax, SameView (s₁.seqs q) (s₂.seqs q)

variable {q next₁ next₂ : Nat} {t₁ t₂ : SeqTail}

section Commits

variable {s s₁ s₂ : TailStore}

theorem recordCurrent_none (h : s.batch = none) (q : Nat) (identity : TailIdentity)
    (position : Int) (ordinal : Nat) (currentRow : Option Nat) (result : Int) :
    recordCurrent q identity position ordinal currentRow result s = .ok result s := by
  unfold recordCurrent
  rw [h]

theorem validSeq_congr (h : s₁.cfg = s₂.cfg) (seqId : Int) :
    s₁.validSeq seqId = s₂.validSeq seqId := by
  simp only [validSeq, h]

theorem SameStore.modSeq (h : SameStore s₁ s₂)
    (hNext₁ : s₁.nextNode ≤ next₁) (hNext₂ : s₂.nextNode ≤ next₂)
    (hOk₁ : SeqOk s₁.cfg q next₁ [] t₁) (hOk₂ : SeqOk s₂.cfg q next₂ [] t₂)
    (hSame : SameView t₁ t₂) :
    SameStore { s₁.modSeq q (fun _ => t₁) with nextNode := next₁ }
      { s₂.modSeq q (fun _ => t₂) with nextNode := next₂ } where
  cfg := h.cfg
  idle₁ := (h.idle₁.mono hNext₁).modSeq (f := fun _ => t₁) hOk₁
  idle₂ := (h.idle₂.mono hNext₂).modSeq (f := fun _ => t₂) hOk₂
  batch₁ := h.batch₁
  batch₂ := h.batch₂
  inBatch := h.inBatch
  seqs r hr := by
    simp only [TailStore.modSeq, Function.update_apply]
    split
    · exact hSame
    · exact h.seqs r hr

/-- A commit answers alike in two stores that show the same, and they go on
showing the same. -/
theorem SameStore.commit (h : SameStore s₁ s₂) (c : CommitCall) :
    (∃ slot s₁' s₂', TailStore.commit c.seqId c.identity c.position c.ordinal c.currentRow s₁ =
        .ok slot s₁' ∧
      TailStore.commit c.seqId c.identity c.position c.ordinal c.currentRow s₂ = .ok slot s₂' ∧
      SameStore s₁' s₂') ∨
    ∃ err s₁' s₂', TailStore.commit c.seqId c.identity c.position c.ordinal c.currentRow s₁ =
        .error err s₁' ∧
      TailStore.commit c.seqId c.identity c.position c.ordinal c.currentRow s₂ = .error err s₂' ∧
      SameStore s₁' s₂' := by
  unfold TailStore.commit
  rw [validSeq_congr h.cfg, h.cfg]
  by_cases hSkip : (!s₂.validSeq c.seqId) = true ∨ s₂.cfg.nTokens = 0
  · rw [if_pos hSkip, if_pos hSkip]
    exact Or.inl ⟨_, _, _, rfl, rfl, h⟩
  rw [if_neg hSkip, if_neg hSkip]
  rw [not_or, Bool.not_eq_true', Bool.not_eq_false] at hSkip
  have hq : c.seqId.toNat < s₁.cfg.nSeqMax := by
    have hValid := hSkip.1
    simp only [validSeq, decide_eq_true_eq] at hValid
    rw [h.cfg]
    omega
  have hOk₁ := h.idle₁.seqs c.seqId.toNat
  have hOk₂ := h.idle₂.seqs c.seqId.toNat
  have hTokens : 0 < s₂.cfg.nTokens := Nat.pos_of_ne_zero hSkip.2
  have hView := h.seqs _ hq
  rw [h.cfg] at hOk₁
  dsimp only
  rcases hView.commitSeq hOk₁ hOk₂ s₂.inBatch c.identity c.position c.ordinal with
    ⟨hNone₁, hNone₂⟩ | ⟨t₁, t₂, hSome₁, hSome₂, hSame⟩
  · rw [h.inBatch, hNone₁, hNone₂]
    refine Or.inr ⟨_, _, _, rfl, rfl, ?_⟩
    refine h.modSeq (Nat.le_refl _) (Nat.le_refl _) ?_ (hOk₂.eraseStale c.identity)
      (hView.eraseStale hOk₁ hOk₂ c.identity)
    rw [h.cfg]
    exact hOk₁.eraseStale c.identity
  rw [h.inBatch, hSome₁, hSome₂]
  have hNew₁ := hOk₁.commitSeq hTokens hSome₁
  have hNew₂ := hOk₂.commitSeq hTokens hSome₂
  refine Or.inl ⟨retainedSlot t₂ c.identity,
    { s₁.modSeq c.seqId.toNat (fun _ => t₁) with nextNode := s₁.nextNode + 1 },
    { s₂.modSeq c.seqId.toNat (fun _ => t₂) with nextNode := s₂.nextNode + 1 }, ?_, ?_, ?_⟩
  · rw [← hSame.retainedSlot hNew₁ hNew₂ c.identity]
    exact recordCurrent_none
      (s := { s₁.modSeq c.seqId.toNat (fun _ => t₁) with nextNode := s₁.nextNode + 1 })
      h.batch₁ _ _ _ _ _ _
  · exact recordCurrent_none
      (s := { s₂.modSeq c.seqId.toNat (fun _ => t₂) with nextNode := s₂.nextNode + 1 })
      h.batch₂ _ _ _ _ _ _
  · exact h.modSeq (Nat.le_succ _) (Nat.le_succ _) (by rw [h.cfg]; exact hNew₁) hNew₂ hSame

/-- Two stores that show the same answer every sequence of commits alike. -/
theorem SameStore.commitAnswers (h : SameStore s₁ s₂) (cs : List CommitCall) :
    TailStore.commitAnswers cs s₁ = TailStore.commitAnswers cs s₂ := by
  induction cs generalizing s₁ s₂ with
  | nil => rfl
  | cons c cs ih =>
    unfold TailStore.commitAnswers
    rcases h.commit c with ⟨slot, s₁', s₂', h₁, h₂, hNext⟩ | ⟨err, s₁', s₂', h₁, h₂, hNext⟩
    · rw [h₁, h₂]
      simp only [ih hNext]
    · rw [h₁, h₂]
      simp only [ih hNext]

/-! ## What a saved state shows -/

/-- A row of the saved state. -/
def snapshotRow (q : Nat) (e : ExactEntry) : SnapshotEntry :=
  ⟨q, e.identity, e.position, e.insertionOrdinal, e.slot⟩

theorem shownEntries_idle (h : s.pending = none) (q : Nat) :
    s.shownEntries q = (s.seqs q).entries := by
  simp [shownEntries, pendingInto, h]

theorem shownDegradation_idle (h : s.pending = none) (q : Nat) :
    s.shownDegradation q = (s.seqs q).degradation := by
  simp [shownDegradation, pendingInto, h]

theorem shownRecovery_idle (h : s.pending = none) (q : Nat) :
    s.shownRecovery q = (s.seqs q).recovery := by
  simp [shownRecovery, pendingInto, h]

theorem map_row_bare (q : Nat) (l : List ExactEntry) :
    (l.map ExactEntry.bare).map (snapshotRow q) = l.map (snapshotRow q) := by
  rw [map_map]
  rfl

variable (h : SameStore s₁ s₂)

include h

theorem SameStore.snapshotSeq (hq : q < s₁.cfg.nSeqMax) : s₁.snapshotSeq q = s₂.snapshotSeq q := by
  have hView := h.seqs q hq
  unfold TailStore.snapshotSeq
  rw [shownEntries_idle h.idle₁.pending, shownEntries_idle h.idle₂.pending]
  dsimp only
  rw [hView.length, h.cfg]
  change map (snapshotRow q) _ = map (snapshotRow q) _
  rw [← map_row_bare, map_drop, hView.rows, ← map_drop, map_row_bare]

theorem SameStore.snapshot (seqId : Int) : s₁.snapshot seqId = s₂.snapshot seqId := by
  unfold TailStore.snapshot
  rw [h.cfg]
  refine flatMap_congr ?_
  intro q hq
  refine h.snapshotSeq ?_
  rw [mem_filter, mem_range] at hq
  rw [h.cfg]
  exact hq.1

theorem SameStore.provenanceOf (hq : q < s₁.cfg.nSeqMax) :
    s₁.provenanceOf q = s₂.provenanceOf q := by
  unfold TailStore.provenanceOf
  rw [shownDegradation_idle h.idle₁.pending, shownDegradation_idle h.idle₂.pending,
    shownRecovery_idle h.idle₁.pending, shownRecovery_idle h.idle₂.pending,
    (h.seqs q hq).degradation, (h.seqs q hq).recovery]

theorem SameStore.snapshotProvenance (seqId : Int) :
    s₁.snapshotProvenance seqId = s₂.snapshotProvenance seqId := by
  unfold TailStore.snapshotProvenance
  rw [validSeq_congr h.cfg, h.cfg]
  split
  · split
    · rename_i hValid
      simp only [validSeq, decide_eq_true_eq] at hValid
      rw [h.provenanceOf (by rw [h.cfg]; omega)]
    · rfl
  · refine map_congr_left fun q hq => ?_
    exact h.provenanceOf (by rw [h.cfg]; exact mem_range.mp hq)

theorem SameStore.coverage (seqId : Int) (available : Nat) :
    s₁.coverage seqId available = s₂.coverage seqId available := by
  unfold TailStore.coverage
  rw [validSeq_congr h.cfg, h.cfg]
  by_cases hValid : s₂.validSeq seqId = true
  · have hq : seqId.toNat < s₁.cfg.nSeqMax := by
      simp only [validSeq, decide_eq_true_eq] at hValid
      rw [h.cfg]
      omega
    have hView := h.seqs _ hq
    rw [shownEntries_idle h.idle₁.pending, shownEntries_idle h.idle₂.pending,
      shownDegradation_idle h.idle₁.pending, shownDegradation_idle h.idle₂.pending,
      hView.length, hView.degradation]
  · simp only [hValid, Bool.false_eq_true, if_false]

end Commits

/-! ## Restoring -/

/-- Restore one saved row under its local slot. -/
def restoreEntry (e : SnapshotEntry) : TailM Unit := fun s =>
  match restore e.seqId e.identity e.position e.insertionOrdinal
      (e.slot - e.seqId * s.cfg.arenaStride) s with
  | .ok _ s' => .ok () s'
  | .error err s' => .error err s'

/-- Feed the saved provenance, rows and cursors of `src` to a store. -/
def restoreAll (src : TailStore) : TailM Unit := do
  restoreProvenance (src.snapshotProvenance (-1)) (-1)
  (src.snapshot (-1)).forM restoreEntry
  (List.range src.cfg.nSeqMax).forM fun q => restoreWriteCursor q (src.seqs q).cursor

/-- A cleared store of the same configuration restores everything and answers every later sequence
of commits alike. -/
def Restorable (src : TailStore) : Prop :=
  ∀ dest : TailStore, dest.cfg = src.cfg → ∃ d, (clear *> restoreAll src) dest = .ok () d ∧
    (∀ seqId, d.snapshot seqId = src.snapshot seqId) ∧
    (∀ seqId, d.snapshotProvenance seqId = src.snapshotProvenance seqId) ∧
    (∀ seqId available, d.coverage seqId available = src.coverage seqId available) ∧
    ∀ calls, commitAnswers calls d = commitAnswers calls src

section Restore

variable {s d : TailStore}

variable {e : ExactEntry}

theorem insertBefore_append {l : List ExactEntry} (h : ∀ x ∈ l, x.le e) :
    insertBefore e l = l ++ [e] := by
  have hAll : ∀ x ∈ l, (!e.lt x) = true := by
    intro x hx
    have hle := h x hx
    simpa [ExactEntry.le] using hle
  unfold insertBefore
  rw [takeWhile_eq_self_iff.mpr hAll, dropWhile_eq_nil_iff.mpr hAll]

theorem restoreEntry_run (h : Idle d) (hBusy : d.busy = false) (hq : q < d.cfg.nSeqMax)
    (hArena : d.cfg.base q ≤ e.slot ∧ e.slot < d.cfg.base q + d.cfg.arenaStride)
    (hRoom : (d.seqs q).entries.length < d.cfg.historyLimit)
    (hNew : ∀ x ∈ (d.seqs q).entries, x.le e ∧ x.key ≠ e.key ∧ x.slot ≠ e.slot) :
    ∃ d', restoreEntry (snapshotRow q e) d = .ok () d' ∧ Idle d' ∧ d'.busy = d.busy ∧
      d'.cfg = d.cfg ∧ (∀ r ≠ q, d'.seqs r = d.seqs r) ∧
      (d'.seqs q).entries.map ExactEntry.bare =
        (d.seqs q).entries.map ExactEntry.bare ++ [e.bare] ∧
      (d'.seqs q).cursor = (d.seqs q).cursor ∧
      (d'.seqs q).degradation = (d.seqs q).degradation ∧
      (d'.seqs q).recovery = (d.seqs q).recovery := by
  have hOk := h.seqs q
  have hLocal : e.slot - q * d.cfg.arenaStride < d.cfg.arenaStride := by
    change e.slot - d.cfg.base q < d.cfg.arenaStride
    omega
  have hUsed : (d.seqs q).used (e.slot - q * d.cfg.arenaStride) = false := by
    change (d.seqs q).used (e.slot - d.cfg.base q) = false
    by_contra hTrue
    rw [Bool.not_eq_false, hOk.used] at hTrue
    simp only [not_mem_nil, or_false] at hTrue
    obtain ⟨x, hx, hSlot⟩ := hTrue
    exact (hNew x hx).2.2 (by omega)
  have hIndex : e.identity.cellKey ∉ (d.seqs q).index := by
    intro hMem
    obtain ⟨n, hn⟩ := Finmap.mem_iff.mp hMem
    obtain ⟨x, hx, hKey, -⟩ := (hOk.index _ _).mp hn
    exact (hNew x hx).2.1 hKey
  have hSlot : q * d.cfg.arenaStride + (e.slot - q * d.cfg.arenaStride) = e.slot := by
    change d.cfg.base q + (e.slot - d.cfg.base q) = e.slot
    omega
  have hRun : restoreEntry (snapshotRow q e) d = .ok ()
      { d.modSeq q (restoreSeq d.cfg q d.nextNode e.identity e.position e.insertionOrdinal
          (e.slot - q * d.cfg.arenaStride)) with nextNode := d.nextNode + 1 } := by
    have hValid := validSeq_natCast (s := d) hq
    have hRestore : restore q e.identity e.position e.insertionOrdinal
        (e.slot - q * d.cfg.arenaStride) d = .ok
          ((q * d.cfg.arenaStride + (e.slot - q * d.cfg.arenaStride) : Nat) : Int)
          { d.modSeq q (restoreSeq d.cfg q d.nextNode e.identity e.position e.insertionOrdinal
            (e.slot - q * d.cfg.arenaStride)) with nextNode := d.nextNode + 1 } := by
      unfold restore
      rw [if_neg (by simpa [hValid, hBusy] using hLocal)]
      dsimp only [Int.toNat_natCast]
      rw [if_neg]
      rw [not_or, not_or]
      exact ⟨by omega, by simp [hUsed], hIndex⟩
    unfold restoreEntry
    dsimp only [snapshotRow]
    rw [hRestore]
  refine ⟨_, hRun, ?_, rfl, rfl, ?_, ?_, ?_, ?_, ?_⟩
  · exact (h.mono (Nat.le_succ _)).modSeq
      (hOk.restoreSeq e.identity e.position e.insertionOrdinal hLocal hRoom hUsed hIndex)
  · exact fun r hr => modSeq_seqs_ne d hr _
  · rw [modSeq_seqs_self]
    simp only [restoreSeq, hSlot]
    rw [insertBefore_append (e := { e with node := d.nextNode }) fun x hx => (hNew x hx).1,
      map_append]
    rfl
  all_goals simp only [TailStore.modSeq, Function.update_self, restoreSeq]

/-- The rows of one sequence, restored one after another. -/
theorem restoreRows_run (todo : List ExactEntry) (h : Idle d) (hBusy : d.busy = false)
    (hq : q < d.cfg.nSeqMax)
    (hArena : ∀ e ∈ todo, d.cfg.base q ≤ e.slot ∧ e.slot < d.cfg.base q + d.cfg.arenaStride)
    (hRoom : (d.seqs q).entries.length + todo.length ≤ d.cfg.historyLimit)
    (hOrder : ((d.seqs q).entries.map ExactEntry.bare ++ todo.map ExactEntry.bare).Pairwise
      fun a b => a.le b ∧ a.key ≠ b.key ∧ a.slot ≠ b.slot) :
    ∃ d', (todo.map (snapshotRow q)).forM restoreEntry d = .ok () d' ∧ Idle d' ∧
      d'.busy = false ∧ d'.cfg = d.cfg ∧ (∀ r ≠ q, d'.seqs r = d.seqs r) ∧
      (d'.seqs q).entries.map ExactEntry.bare =
        (d.seqs q).entries.map ExactEntry.bare ++ todo.map ExactEntry.bare ∧
      (d'.seqs q).cursor = (d.seqs q).cursor ∧
      (d'.seqs q).degradation = (d.seqs q).degradation ∧
      (d'.seqs q).recovery = (d.seqs q).recovery := by
  induction todo generalizing d with
  | nil => exact ⟨d, rfl, h, hBusy, rfl, fun _ _ => rfl, by simp, rfl, rfl, rfl⟩
  | cons e todo ih =>
    rw [length_cons] at hRoom
    have hSplit := hOrder
    rw [pairwise_append] at hSplit
    have hNew : ∀ x ∈ (d.seqs q).entries, x.le e ∧ x.key ≠ e.key ∧ x.slot ≠ e.slot := by
      intro x hx
      exact hSplit.2.2 x.bare (mem_map.mpr ⟨x, hx, rfl⟩) e.bare (by simp)
    obtain ⟨d₁, hRun, hIdle₁, hBusy₁, hCfg₁, hOthers₁, hRows₁, hCursor₁, hFlags₁, hRecovery₁⟩ :=
      restoreEntry_run h hBusy hq (hArena e mem_cons_self) (by omega) hNew
    have hLength₁ : (d₁.seqs q).entries.length = (d.seqs q).entries.length + 1 := by
      simpa using congrArg length hRows₁
    obtain ⟨d₂, hRest, hIdle₂, hBusy₂, hCfg₂, hOthers₂, hRows₂, hCursor₂, hFlags₂, hRecovery₂⟩ :=
      ih hIdle₁ (hBusy₁.trans hBusy) (by rw [hCfg₁]; exact hq)
        (by rw [hCfg₁]; exact fun x hx => hArena x (mem_cons_of_mem e hx))
        (by rw [hCfg₁]; omega)
        (by rw [hRows₁, append_assoc]; exact hOrder)
    refine ⟨d₂, ?_, hIdle₂, hBusy₂, hCfg₂.trans hCfg₁, ?_, ?_, hCursor₂.trans hCursor₁,
      hFlags₂.trans hFlags₁, hRecovery₂.trans hRecovery₁⟩
    · change (restoreEntry (snapshotRow q e) >>= fun _ =>
        (todo.map (snapshotRow q)).forM restoreEntry) d = _
      rw [run_bind hRun, hRest]
    · exact fun r hr => (hOthers₂ r hr).trans (hOthers₁ r hr)
    · rw [hRows₂, hRows₁, append_assoc]
      rfl

/-- The entries a saved state shows for a sequence. -/
def savedEntries (s : TailStore) (q : Nat) : List ExactEntry :=
  (s.seqs q).entries.drop ((s.seqs q).entries.length - s.cfg.retained)

theorem snapshotSeq_idle (h : s.pending = none) (q : Nat) :
    s.snapshotSeq q = (s.savedEntries q).map (snapshotRow q) := by
  unfold snapshotSeq savedEntries
  rw [shownEntries_idle h]
  rfl

variable {cfg : TailConfig} {next : Nat} {t : SeqTail}

theorem SeqOk_pairwise (h : SeqOk cfg q next [] t) :
    t.entries.Pairwise fun a b => a.le b ∧ a.key ≠ b.key ∧ a.slot ≠ b.slot :=
  (h.sorted.and h.apart).imp fun hab => ⟨hab.1, hab.2.1, hab.2.2.2⟩

theorem restoreSeqs_run (hs : Idle s) (h : Idle d) (hBusy : d.busy = false) (hCfg : d.cfg = s.cfg)
    (hEmpty : ∀ q < s.cfg.nSeqMax, (d.seqs q).entries = []) (n : Nat) (hn : n ≤ s.cfg.nSeqMax) :
    ∃ d', ((range n).flatMap s.snapshotSeq).forM restoreEntry d = .ok () d' ∧ Idle d' ∧
      d'.busy = false ∧ d'.cfg = s.cfg ∧
      (∀ q, n ≤ q → d'.seqs q = d.seqs q) ∧
      (∀ q < n, (d'.seqs q).entries.map ExactEntry.bare =
        (s.savedEntries q).map ExactEntry.bare) ∧
      ∀ q, (d'.seqs q).cursor = (d.seqs q).cursor ∧
        (d'.seqs q).degradation = (d.seqs q).degradation ∧
        (d'.seqs q).recovery = (d.seqs q).recovery := by
  induction n with
  | zero =>
    exact ⟨d, rfl, h, hBusy, hCfg, fun _ _ => rfl, by simp, fun _ => ⟨rfl, rfl, rfl⟩⟩
  | succ n ih =>
    obtain ⟨d₁, hRun₁, hIdle₁, hBusy₁, hCfg₁, hOut₁, hRows₁, hCounters₁⟩ :=
      ih (Nat.le_of_succ_le hn)
    have hSeq : d₁.seqs n = d.seqs n := hOut₁ n (Nat.le_refl n)
    have hNone : (d₁.seqs n).entries = [] := by rw [hSeq, hEmpty n hn]
    have hSub : (s.savedEntries n).Sublist (s.seqs n).entries := drop_sublist _ _
    obtain ⟨d₂, hRun₂, hIdle₂, hBusy₂, hCfg₂, hOthers₂, hRows₂, hCursor₂, hFlags₂, hRecovery₂⟩ :=
      restoreRows_run (q := n) (s.savedEntries n) hIdle₁ hBusy₁ (by rw [hCfg₁]; exact hn)
        (by rw [hCfg₁]; exact fun e he => (hs.seqs n).arena e (hSub.subset he))
        (by
          have hLe := s.cfg.retained_le_historyLimit
          rw [hNone, hCfg₁, savedEntries, length_nil, length_drop]
          omega)
        (by
          rw [hNone, map_nil, nil_append, pairwise_map]
          exact (SeqOk_pairwise (hs.seqs n)).sublist hSub)
    refine ⟨d₂, ?_, hIdle₂, hBusy₂, hCfg₂.trans hCfg₁, ?_, ?_, ?_⟩
    · rw [range_succ, flatMap_append, run_forM_append hRun₁, flatMap_singleton,
        snapshotSeq_idle hs.pending, hRun₂]
    · intro q hq
      rw [hOthers₂ q (by omega), hOut₁ q (by omega)]
    · intro q hq
      by_cases hqn : q = n
      · subst hqn
        rw [hRows₂, hNone, map_nil, nil_append]
      · rw [hOthers₂ q hqn]
        exact hRows₁ q (by omega)
    intro q
    by_cases hqn : q = n
    · subst hqn
      rw [hCursor₂, hFlags₂, hRecovery₂]
      exact hCounters₁ q
    · rw [hOthers₂ q hqn]
      exact hCounters₁ q

/-- The provenance of distinct sequences passes when every record does. -/
theorem checkProvenance_none (l : List TailProvenance) (seen : List Int)
    (hValid : ∀ p ∈ l, d.provenanceValid p = true)
    (hNew : (l.map fun p => p.seqId).Nodup) (hSeen : ∀ p ∈ l, p.seqId ∉ seen) :
    d.checkProvenance l seen = none := by
  induction l generalizing seen with
  | nil => rfl
  | cons p l ih =>
    rw [map_cons, nodup_cons] at hNew
    unfold checkProvenance
    rw [if_neg (by simp [hValid p mem_cons_self]), if_neg (hSeen p mem_cons_self)]
    refine ih _ (fun x hx => hValid x (mem_cons_of_mem p hx)) hNew.2 ?_
    intro x hx hMem
    rcases mem_cons.mp hMem with hEq | hMem
    · exact hNew.1 (hEq ▸ mem_map.mpr ⟨x, hx, rfl⟩)
    · exact hSeen x (mem_cons_of_mem p hx) hMem

/-- The flags of every sequence are ones the reader knows. -/
def FlagsKnown (s : TailStore) : Prop :=
  ∀ q < s.cfg.nSeqMax, flagsKnown (s.seqs q).degradation = true

theorem provenanceOf_valid (hs : Idle s) (hCfg : d.cfg = s.cfg) (hq : q < s.cfg.nSeqMax) :
    d.provenanceValid (s.provenanceOf q) = true ↔ flagsKnown (s.seqs q).degradation = true := by
  rw [provenanceValid_iff]
  simp only [provenanceOf, shownDegradation_idle hs.pending, shownRecovery_idle hs.pending]
  have hOk := hs.seqs q
  constructor
  · exact fun h => h.2.1
  intro h
  refine ⟨validSeq_natCast (by rw [hCfg]; exact hq), h, ?_, hOk.clean⟩
  rw [hCfg]
  exact hOk.recovery

theorem snapshotProvenance_all : s.snapshotProvenance (-1) =
    (range s.cfg.nSeqMax).map s.provenanceOf := by
  unfold snapshotProvenance
  rw [if_neg (by decide)]

/-- Entering the provenance of all sequences one after another. -/
theorem foldl_setProvenance (n : Nat) (d : TailStore) :
    ((range n).map s.provenanceOf).foldl
      (fun acc p => acc.modSeq p.seqId.toNat (setProvenance p)) d =
      { d with seqs := fun q =>
          if q < n then setProvenance (s.provenanceOf q) (d.seqs q) else d.seqs q } := by
  induction n with
  | zero => simp
  | succ n ih =>
    rw [range_succ, map_append, foldl_append, ih]
    simp only [map_cons, map_nil, foldl_cons, foldl_nil, TailStore.modSeq,
      provenanceOf, Int.toNat_natCast, TailStore.mk.injEq, true_and, and_true]
    funext q
    by_cases hq : q = n
    · subst hq
      simp
    · have hiff : q < n + 1 ↔ q < n := by omega
      simp [hq, hiff]

theorem restoreProvenance_run (hs : Idle s) (h : Idle d) (hCfg : d.cfg = s.cfg)
    (hBusy : d.busy = false) (hFlags : FlagsKnown s) :
    ∃ d', restoreProvenance (s.snapshotProvenance (-1)) (-1) d = .ok () d' ∧ Idle d' ∧
      d'.busy = false ∧ d'.cfg = s.cfg ∧
      (∀ q, (d'.seqs q).entries = (d.seqs q).entries) ∧
      ∀ q < s.cfg.nSeqMax, (d'.seqs q).degradation = (s.seqs q).degradation ∧
        (d'.seqs q).recovery = (s.seqs q).recovery := by
  have hCheck : d.checkProvenance (s.snapshotProvenance (-1)) [] = none := by
    rw [snapshotProvenance_all]
    refine checkProvenance_none _ _ ?_ ?_ (by simp)
    · intro p hp
      obtain ⟨q, hq, rfl⟩ := mem_map.mp hp
      have hq := mem_range.mp hq
      exact (provenanceOf_valid hs hCfg hq).mpr (hFlags q hq)
    · rw [map_map]
      exact nodup_range.map fun a b hab => Int.ofNat.inj hab
  obtain ⟨-, hLeaves, hEntries⟩ := restoreProvenance_spec h (s.snapshotProvenance (-1)) (-1)
  have hRun : restoreProvenance (s.snapshotProvenance (-1)) (-1) d = .ok ()
      ((Op.restoreProvenance (s.snapshotProvenance (-1)) (-1)).step d) := by
    simp only [Op.step, Op.run, finalState, restoreProvenance, hCheck]
    rfl
  have hState : (Op.restoreProvenance (s.snapshotProvenance (-1)) (-1)).step d =
      { ({ d with seqs := fun q =>
          if q < d.cfg.nSeqMax then { d.seqs q with degradation := 0, recovery := 0 }
          else d.seqs q } : TailStore) with
        seqs := fun q =>
          if q < s.cfg.nSeqMax then setProvenance (s.provenanceOf q)
            (if q < d.cfg.nSeqMax then { d.seqs q with degradation := 0, recovery := 0 }
              else d.seqs q)
          else if q < d.cfg.nSeqMax then { d.seqs q with degradation := 0, recovery := 0 }
            else d.seqs q } := by
    simp only [Op.step, Op.run, finalState, restoreProvenance, hCheck]
    rw [if_neg (by decide), snapshotProvenance_all, foldl_setProvenance]
  refine ⟨_, hRun, hLeaves.idle, ?_, hLeaves.cfg.trans hCfg, hEntries, ?_⟩
  · rw [hState]
    exact hBusy
  intro q hq
  rw [hState]
  simp only [hq, if_true, setProvenance, provenanceOf, shownDegradation_idle hs.pending,
    shownRecovery_idle hs.pending, and_self]

theorem restoreCursors_run (hs : Idle s) (hCfg : d.cfg = s.cfg) (hBusy : d.busy = false)
    (hArena : 0 < s.cfg.arenaStride ∨ s.cfg.nSeqMax = 0) :
    (range s.cfg.nSeqMax).forM (fun q : Nat => restoreWriteCursor q (s.seqs q).cursor) d =
      .ok () (d.mapSeqs fun q t => { t with cursor := (s.seqs q).cursor }) := by
  rw [← hCfg]
  refine forM_modSeq ?_
  intro q hq s' hCfg' _ hBusy' _
  have hPos : 0 < s.cfg.arenaStride := hArena.resolve_right fun hZero => by
    rw [hCfg] at hq
    omega
  have hCursor := (hs.seqs q).cursor hPos
  have hValid : s'.validSeq q = true := validSeq_natCast (by rw [hCfg']; exact hq)
  unfold restoreWriteCursor
  rw [if_neg]
  · rfl
  · simpa [hValid, hBusy', hBusy, hCfg', hCfg] using hCursor

theorem restoreAll_run (hs : Idle s) (hFlags : FlagsKnown s)
    (hArena : 0 < s.cfg.arenaStride ∨ s.cfg.nSeqMax = 0) {dest : TailStore} (hCfg : dest.cfg = s.cfg) :
    ∃ d, (clear *> restoreAll s) dest = .ok () d ∧ Idle d ∧ d.busy = false ∧ d.cfg = s.cfg ∧
      ∀ q < s.cfg.nSeqMax,
        (d.seqs q).entries.map ExactEntry.bare = (s.savedEntries q).map ExactEntry.bare ∧
        (d.seqs q).cursor = (s.seqs q).cursor ∧
        (d.seqs q).degradation = (s.seqs q).degradation ∧
        (d.seqs q).recovery = (s.seqs q).recovery := by
  have hClear : Idle ({ cfg := dest.cfg, nextNode := dest.nextNode } : TailStore) :=
    (Idle.initial dest.cfg).mono (Nat.zero_le _)
  obtain ⟨d₁, hRun₁, hIdle₁, hBusy₁, hCfg₁, hEntries₁, hCounters₁⟩ :=
    restoreProvenance_run hs hClear hCfg rfl hFlags
  obtain ⟨d₂, hRun₂, hIdle₂, hBusy₂, hCfg₂, -, hRows₂, hCounters₂⟩ :=
    restoreSeqs_run hs hIdle₁ hBusy₁ hCfg₁ (fun q _ => hEntries₁ q) s.cfg.nSeqMax (Nat.le_refl _)
  have hRun₃ := restoreCursors_run hs hCfg₂ hBusy₂ hArena
  have hAll : s.snapshot (-1) = (range s.cfg.nSeqMax).flatMap s.snapshotSeq := by
    unfold snapshot
    rw [filter_eq_self.mpr (by simp)]
  refine ⟨_, ?_, hIdle₂.mapSeqs (g := fun q t => { t with cursor := (s.seqs q).cursor }) ?_,
    hBusy₂, hCfg₂, ?_⟩
  · change (restoreProvenance (s.snapshotProvenance (-1)) (-1) >>= fun _ =>
      (s.snapshot (-1)).forM restoreEntry >>= fun _ =>
      (range s.cfg.nSeqMax).forM fun q : Nat => restoreWriteCursor q (s.seqs q).cursor)
        { cfg := dest.cfg, nextNode := dest.nextNode } = _
    rw [run_bind hRun₁, hAll, run_bind hRun₂, hRun₃]
  · intro q
    refine { hIdle₂.seqs q with cursor := ?_ }
    intro hPos
    rw [hCfg₂] at hPos ⊢
    exact (hs.seqs q).cursor hPos
  intro q hq
  have hq₂ : q < d₂.cfg.nSeqMax := by rw [hCfg₂]; exact hq
  simp only [TailStore.mapSeqs, hq₂, if_true]
  obtain ⟨-, hFlags₂, hRecovery₂⟩ := hCounters₂ q
  exact ⟨hRows₂ q hq, trivial, hFlags₂.trans (hCounters₁ q hq).1,
    hRecovery₂.trans (hCounters₁ q hq).2⟩

/-! ## When a saved store can be restored -/

/-- No sequence holds more entries than it retains. -/
def NotOverfull (s : TailStore) : Prop :=
  ∀ q < s.cfg.nSeqMax, (s.seqs q).entries.length ≤ s.cfg.retained

theorem not_busy (h : s.busy = false) : s.inBatch = false ∧ s.pending = none ∧ s.batch = none := by
  simp only [busy, Bool.or_eq_false_iff, Option.isSome_eq_false_iff, Option.isNone_iff_eq_none]
    at h
  exact ⟨h.1.1, h.1.2, h.2⟩

theorem used_of_rows (h₁ : SeqOk cfg q next₁ [] t₁) (h₂ : SeqOk cfg q next₂ [] t₂)
    (hRows : t₁.entries.map ExactEntry.bare = t₂.entries.map ExactEntry.bare) :
    t₁.used = t₂.used := by
  have hSlots : t₁.entries.map (fun e => e.slot) = t₂.entries.map fun e => e.slot := by
    simpa [Function.comp_def] using congrArg (map fun e => e.slot) hRows
  funext l
  rw [Bool.eq_iff_iff, h₁.used, h₂.used]
  have hMem : ∀ t : SeqTail, (∃ e ∈ t.entries, e.slot = cfg.base q + l) ↔
      cfg.base q + l ∈ t.entries.map fun e => e.slot := fun t => by simp
  rw [hMem, hMem, hSlots]

theorem restorable_of (hs : Idle s) (hBusy : s.busy = false) (hFlags : FlagsKnown s)
    (hFull : NotOverfull s) (hArena : 0 < s.cfg.arenaStride ∨ s.cfg.nSeqMax = 0) :
    Restorable s := by
  intro dest hCfg
  obtain ⟨d, hRun, hIdle, hBusy', hCfg', hSeqs⟩ := restoreAll_run hs hFlags hArena hCfg
  have hSame : SameStore d s := by
    refine ⟨hCfg', hIdle, hs, (not_busy hBusy').2.2, (not_busy hBusy).2.2,
      (not_busy hBusy').1.trans (not_busy hBusy).1.symm, ?_⟩
    intro q hq
    rw [hCfg'] at hq
    obtain ⟨hRows, hCursor, hDegradation, hRecovery⟩ := hSeqs q hq
    have hSaved : s.savedEntries q = (s.seqs q).entries := by
      unfold savedEntries
      rw [Nat.sub_eq_zero_of_le (hFull q hq), drop_zero]
    rw [hSaved] at hRows
    have hOk := hIdle.seqs q
    rw [hCfg'] at hOk
    exact ⟨hRows, used_of_rows hOk (hs.seqs q) hRows, hCursor, hDegradation, hRecovery⟩
  exact ⟨d, hRun, hSame.snapshot, hSame.snapshotProvenance, hSame.coverage, hSame.commitAnswers⟩

variable {victim : ExactEntry} {rest : List ExactEntry}

/-- A full sequence gives the slot of its oldest entry to a commit of a new cell
at the newest position. -/
theorem commitSeq_full (h : SeqOk cfg q next [] t) (hTokens : 0 < cfg.nTokens)
    (hFull : cfg.retained ≤ t.entries.length)
    (hEntries : t.entries = victim :: rest) {identity : TailIdentity} {position : Int}
    (ordinal : Nat) (hCell : ∀ e ∈ t.entries, e.key ≠ identity.cellKey)
    (hPosition : ∀ e ∈ t.entries, e.position < position) :
    ∃ t', commitSeq cfg q false next identity position ordinal t = some t' ∧
      retainedSlot t' identity = victim.slot := by
  have hTake : takeSlot cfg q false t = some (t.eraseEntry cfg q victim false, victim.slot) := by
    unfold takeSlot
    rw [hEntries] at hFull ⊢
    dsimp only
    rw [if_pos (by simpa using hFull)]
  let e : ExactEntry := ⟨next, identity, position, ordinal, victim.slot⟩
  have hCommit := commitSeq_fresh next position ordinal
    (h.find_eq_none hCell) hTake
  refine ⟨_, hCommit, ?_⟩
  have hOk := h.commitSeq hTokens hCommit
  have hRetained := TailConfig.retained_pos hTokens
  have hMem : e ∈ (linkEntry cfg q false e (t.eraseEntry cfg q victim false)).entries := by
    unfold linkEntry
    dsimp only
    rw [if_neg (by simp), trim_entries, countRecovery_entries]
    dsimp only
    rw [eraseEntry_entries, insertCommitted_append fun x hx =>
      hPosition x (mem_of_mem_filter hx), drop_append_of_le_length (by simp; omega)]
    exact mem_append_right _ (mem_singleton_self e)
  unfold retainedSlot
  have hFound : (linkEntry cfg q false e (t.eraseEntry cfg q victim false)).find
      identity.cellKey = some e := hOk.find_iff.mpr ⟨hMem, rfl⟩
  rw [hFound]
  simp [e]

theorem commitAnswers_full (hs : Idle s) (hBusy : s.busy = false)
    (hq : q < s.cfg.nSeqMax) (hTokens : 0 < s.cfg.nTokens)
    (hFull : s.cfg.retained ≤ (s.seqs q).entries.length)
    (hEntries : (s.seqs q).entries = victim :: rest)
    (identity : TailIdentity) (position : Int)
    (hCell : ∀ e ∈ (s.seqs q).entries, e.key ≠ identity.cellKey)
    (hPosition : ∀ e ∈ (s.seqs q).entries, e.position < position) :
    commitAnswers [⟨q, identity, position, 0, none⟩] s = [.ok (victim.slot : Int)] := by
  obtain ⟨t, hCommit, hSlot⟩ := commitSeq_full (hs.seqs q) hTokens hFull hEntries
    0 hCell hPosition
  have hRun : commit q identity position 0 none s = .ok (victim.slot : Int)
      { s.modSeq q (fun _ => t) with nextNode := s.nextNode + 1 } := by
    unfold commit
    have hValid := validSeq_natCast (s := s) hq
    rw [if_neg (by simp [hValid]; omega)]
    simp only [Int.toNat_natCast, (not_busy hBusy).1, hCommit]
    rw [hSlot]
    exact recordCurrent_none
      (s := { s.modSeq q (fun _ => t) with nextNode := s.nextNode + 1 }) (not_busy hBusy).2.2 ..
  unfold commitAnswers
  rw [hRun]
  rfl

/-- Every finite list of values of an order without greatest element is
bounded. -/
theorem exists_gt_list {α : Type} [LinearOrder α] [NoMaxOrder α] [Inhabited α] (l : List α) :
    ∃ b, ∀ a ∈ l, a < b := by
  induction l with
  | nil => exact ⟨default, by simp⟩
  | cons a l ih =>
    obtain ⟨b, hb⟩ := ih
    obtain ⟨c, hc⟩ := exists_gt (max a b)
    refine ⟨c, ?_⟩
    intro x hx
    rcases mem_cons.mp hx with rfl | hx
    · exact (le_max_left _ _).trans_lt hc
    · exact ((hb x hx).trans_le (le_max_right _ _)).trans hc

/-- An over-full overlay store is told from its restored copy. -/
theorem not_restorable_of_overfull (hs : Idle s) (hBusy : s.busy = false) (hFlags : FlagsKnown s)
    (hArena : 0 < s.cfg.arenaStride ∨ s.cfg.nSeqMax = 0) (hq : q < s.cfg.nSeqMax)
    (hFull : s.cfg.retained < (s.seqs q).entries.length) : ¬ Restorable s := by
  intro hRestorable
  obtain ⟨d, hRun, -, -, hCoverage, hAnswers⟩ := hRestorable { cfg := s.cfg } rfl
  obtain ⟨d', hRun', hIdle, hBusy', hCfg, hSeqs⟩ :=
    restoreAll_run hs hFlags hArena (rfl : ({ cfg := s.cfg } : TailStore).cfg = s.cfg)
  obtain ⟨-, rfl⟩ := EStateM.Result.ok.inj (hRun.symm.trans hRun')
  obtain ⟨hRows, -⟩ := hSeqs q hq
  have hLength : (d.seqs q).entries.length = s.cfg.retained := by
    have hEq := congrArg length hRows
    simp only [length_map, savedEntries, length_drop] at hEq
    omega
  by_cases hTokens : s.cfg.nTokens = 0
  · have hCompact : s.cfg.compact = false := by
      by_contra hTrue
      rw [Bool.not_eq_false] at hTrue
      have hLimit := (hs.seqs q).limit hTrue
      simp only [TailConfig.retained, hTrue, if_true] at hFull
      omega
    have hZero : s.cfg.retained = 0 := by simp [TailConfig.retained, hCompact, hTokens]
    have hState := congrArg TailCoverage.state (hCoverage q 0)
    have hPos : (s.seqs q).entries.length ≠ 0 := by omega
    unfold coverage at hState
    rw [validSeq_natCast (by rw [hCfg]; exact hq), validSeq_natCast hq] at hState
    simp only [if_true, Int.toNat_natCast, shownEntries_idle hIdle.pending,
      shownEntries_idle hs.pending, hLength, hZero, hPos, if_false] at hState
    split at hState
    · cases hState
    · cases hState
  have hPos : 0 < s.cfg.nTokens := Nat.pos_of_ne_zero hTokens
  have hRetained : 0 < s.cfg.retained := by
    unfold TailConfig.retained TailConfig.historyLimit
    split <;> omega
  obtain ⟨stream, hStream⟩ := exists_gt_list ((s.seqs q).entries.map fun e => e.identity.stream)
  obtain ⟨position, hPosition⟩ := exists_gt_list ((s.seqs q).entries.map fun e => e.position)
  have hCell : ∀ e ∈ (s.seqs q).entries, e.key ≠ (⟨stream, 0, 0⟩ : TailIdentity).cellKey := by
    intro e he hEq
    have hlt := hStream _ (mem_map.mpr ⟨e, he, rfl⟩)
    exact absurd (Prod.ext_iff.mp hEq).1 (Nat.ne_of_lt hlt)
  have hNewest : ∀ e ∈ (s.seqs q).entries, e.position < position := fun e he =>
    hPosition _ (mem_map.mpr ⟨e, he, rfl⟩)
  -- every row of the copy is a row of the source
  have hCopy : ∀ e ∈ (d.seqs q).entries, ∃ x ∈ s.savedEntries q, x.bare = e.bare := by
    intro e he
    have hMem : e.bare ∈ (d.seqs q).entries.map ExactEntry.bare := mem_map.mpr ⟨e, he, rfl⟩
    rw [hRows] at hMem
    obtain ⟨x, hx, hEq⟩ := mem_map.mp hMem
    exact ⟨x, hx, hEq⟩
  have hSub : (s.savedEntries q).Sublist (s.seqs q).entries := drop_sublist _ _
  obtain ⟨victim, rest, hVictim⟩ := exists_cons_of_length_pos
    (show 0 < (s.seqs q).entries.length by omega)
  obtain ⟨victim', rest', hVictim'⟩ := exists_cons_of_length_pos
    (show 0 < (d.seqs q).entries.length by omega)
  have hSource := commitAnswers_full hs hBusy hq hPos (by omega) hVictim _ _ hCell hNewest
  have hDest := commitAnswers_full hIdle hBusy' (by rw [hCfg]; exact hq) (by rw [hCfg]; exact hPos)
    (by rw [hCfg, hLength]) hVictim' ⟨stream, 0, 0⟩ position
    (by
      intro e he
      obtain ⟨x, hx, hEq⟩ := hCopy e he
      have hKey : x.key = e.key := by simpa using congrArg ExactEntry.key hEq
      rw [← hKey]
      exact hCell x (hSub.subset hx))
    (by
      intro e he
      obtain ⟨x, hx, hEq⟩ := hCopy e he
      have hSame : x.position = e.position := by
        simpa using congrArg ExactEntry.position hEq
      rw [← hSame]
      exact hNewest x (hSub.subset hx))
  have hSlots : victim'.slot = victim.slot := by
    have hEq := hAnswers [⟨q, ⟨stream, 0, 0⟩, position, 0, none⟩]
    rw [hSource, hDest] at hEq
    simpa using hEq
  -- the oldest row of the copy is not the oldest row of the source
  obtain ⟨x, hx, hEq⟩ := hCopy victim' (by simp [hVictim'])
  have hxRest : x ∈ rest := by
    have hDrop : s.savedEntries q =
        rest.drop ((s.seqs q).entries.length - s.cfg.retained - 1) := by
      unfold savedEntries
      obtain ⟨m, hm⟩ : ∃ m, (s.seqs q).entries.length - s.cfg.retained = m + 1 :=
        ⟨(s.seqs q).entries.length - s.cfg.retained - 1, by omega⟩
      rw [hm, hVictim, drop_succ_cons, Nat.add_sub_cancel]
    rw [hDrop] at hx
    exact mem_of_mem_drop hx
  have hApart := (hs.seqs q).apart
  rw [hVictim, pairwise_cons] at hApart
  have hxSlot : x.slot = victim'.slot := by simpa using congrArg ExactEntry.slot hEq
  exact (hApart.1 x hxRest).2.2 (hSlots.symm.trans hxSlot.symm)

theorem flagsKnown_of_restorable (hs : Idle s) (h : Restorable s) : FlagsKnown s := by
  obtain ⟨d, hRun, -⟩ := h { cfg := s.cfg } rfl
  intro q hq
  cases hCheck : ({ cfg := s.cfg } : TailStore).checkProvenance (s.snapshotProvenance (-1)) [] with
  | none =>
    have hValid := checkProvenance_valid hCheck (s.provenanceOf q) (by
      exact mem_map.mpr ⟨q, mem_range.mpr hq, rfl⟩)
    exact (provenanceOf_valid (d := { cfg := s.cfg }) hs rfl hq).mp hValid
  | some err =>
    have hError : restoreProvenance (s.snapshotProvenance (-1)) (-1) { cfg := s.cfg } =
        .error err { cfg := s.cfg } := by
      simp only [restoreProvenance, hCheck]
    have hAll : (clear *> restoreAll s) { cfg := s.cfg } = .error err { cfg := s.cfg } :=
      run_bind_error hError
    rw [hAll] at hRun
    cases hRun

theorem arena_of_restorable (hs : Idle s) (h : Restorable s) :
    0 < s.cfg.arenaStride ∨ s.cfg.nSeqMax = 0 := by
  have hFlags := flagsKnown_of_restorable hs h
  obtain ⟨d, hRun, -⟩ := h { cfg := s.cfg } rfl
  by_contra hNot
  rw [not_or, Nat.not_lt, Nat.le_zero] at hNot
  obtain ⟨d₁, hRun₁, hIdle₁, hBusy₁, hCfg₁, hEntries₁, -⟩ :=
    restoreProvenance_run hs (Idle.initial s.cfg) rfl rfl hFlags
  obtain ⟨d₂, hRun₂, -, -, hCfg₂, -⟩ :=
    restoreSeqs_run hs hIdle₁ hBusy₁ hCfg₁ (fun q _ => hEntries₁ q) s.cfg.nSeqMax (Nat.le_refl _)
  have hAll : s.snapshot (-1) = (range s.cfg.nSeqMax).flatMap s.snapshotSeq := by
    unfold snapshot
    rw [filter_eq_self.mpr (by simp)]
  obtain ⟨n, hn⟩ := Nat.exists_eq_succ_of_ne_zero hNot.2
  have hCursor : (range s.cfg.nSeqMax).forM
      (fun q : Nat => restoreWriteCursor q (s.seqs q).cursor) d₂ =
        .error .invalidRestoredCursor d₂ := by
    rw [hn, range_succ_eq_map]
    refine run_bind_error (if_pos (Or.inr (Or.inl ?_)))
    rw [hCfg₂, hNot.1]
    exact Nat.zero_le _
  have hError : (clear *> restoreAll s) { cfg := s.cfg } =
      .error .invalidRestoredCursor d₂ := by
    change (restoreProvenance (s.snapshotProvenance (-1)) (-1) >>= fun _ =>
      (s.snapshot (-1)).forM restoreEntry >>= fun _ =>
      (range s.cfg.nSeqMax).forM fun q : Nat => restoreWriteCursor q (s.seqs q).cursor)
        { cfg := s.cfg } = _
    rw [run_bind hRun₁, hAll, run_bind hRun₂, hCursor]
  rw [hError] at hRun
  cases hRun

/-- Outside a transaction a store that a run has reached can be restored exactly
when its flags are known to the reader, no sequence is over-full and the arena
has a row for every sequence. -/
theorem Reachable.restorable_iff {cfg : TailConfig} (h : Reachable Quiet cfg s)
    (hBusy : s.busy = false) :
    Restorable s ↔ FlagsKnown s ∧ NotOverfull s ∧
      (0 < s.cfg.arenaStride ∨ s.cfg.nSeqMax = 0) := by
  have hs : Idle s := h.inv.idle (not_busy hBusy).2.1
  constructor
  · intro hRestorable
    have hFlags := flagsKnown_of_restorable hs hRestorable
    have hArena := arena_of_restorable hs hRestorable
    refine ⟨hFlags, ?_, hArena⟩
    intro q hq
    by_contra hFull
    exact not_restorable_of_overfull hs hBusy hFlags hArena hq (by omega) hRestorable
  · rintro ⟨hFlags, hFull, hArena⟩
    exact restorable_of hs hBusy hFlags hFull hArena

end Restore

theorem CopyFirst.of_idle {s : TailStore} (h : Idle s) (op : Op) : CopyFirst op s :=
  fun hPending => absurd h.pending hPending

/-- One committed token. -/
def oneToken : TailStore := (Op.commit 0 ⟨0, 0, 1⟩ 0 0 none).step { cfg := rollbackTail }

/-- The saved row and its provenance are read back. -/
theorem oneToken_restorable : oneToken.busy = false ∧ Restorable oneToken := by
  have hInit := Idle.initial rollbackTail
  have hReach : Reachable Quiet rollbackTail oneToken :=
    Reachable.init.step _ ⟨CopyFirst.of_idle hInit _, (commit_spec hInit _ _ _ _ _).1⟩
  refine ⟨by decide, (Reachable.restorable_iff hReach (by decide)).mpr ⟨?_, ?_, ?_⟩⟩
  · unfold FlagsKnown
    decide
  · unfold NotOverfull
    decide
  · exact Or.inl (by decide)

/-- A compact batch that fails after its graph may have run. -/
def failedBatch : TailStore :=
  (Op.finishBatch false true).step ((Op.commit 0 ⟨0, 0, 1⟩ 0 0 (some 0)).step
    (Op.beginBatch.step { cfg := rollbackTail }))

/-- The flag a failed batch leaves is one the reader rejects. -/
theorem failedBatch_not_restorable :
    Reachable Quiet rollbackTail failedBatch ∧ failedBatch.busy = false ∧
      (failedBatch.seqs 0).degradation = degradedPayloadInvalid ∧ ¬ Restorable failedBatch := by
  have hInit := Idle.initial rollbackTail
  have hBegin := shrink_spec .beginBatch hInit trivial
  have hCommit := commit_spec hBegin.2.1.idle 0 ⟨0, 0, 1⟩ 0 0 (some 0)
  have hFinish := finishBatch_spec hCommit.2.1.idle false true
  refine ⟨?_, by decide, by decide, ?_⟩
  · exact ((Reachable.init.step _ ⟨CopyFirst.of_idle hInit _, hBegin.1⟩).step _
      ⟨CopyFirst.of_idle hBegin.2.1.idle _, hCommit.1⟩).step _
      ⟨CopyFirst.of_idle hCommit.2.1.idle _, hFinish.1⟩
  intro hRestorable
  obtain ⟨d, hRun, -⟩ := hRestorable { cfg := rollbackTail } (by rfl)
  have hThrows : (match (clear *> restoreAll failedBatch) { cfg := rollbackTail } with
    | .error .invalidProvenance _ => true
    | _ => false) = true := by decide
  rw [hRun] at hThrows
  cases hThrows


end TailStore

end Beellama.Ports
