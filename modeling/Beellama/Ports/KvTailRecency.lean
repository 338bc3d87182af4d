import Beellama.Verified.Newest
import Beellama.Ports.KvTailInvariant

/-!
# Which commits the exact tail retains

Outside a batch a full tail evicts its first entry before the place of the new one is known; in a batch
of a store without compact storage the entries are trimmed when the next batch begins.  The second
keeps the newest entries; the first does exactly when the last commit is one of them
(`recencyRetention_iff`).
-/

namespace Beellama.Ports

open Beellama.Verified List

/-- The arguments of a commit. -/
structure TailCommit where
  identity : TailIdentity
  position : Int
  ordinal : Nat
  currentRow : Option Nat := none
  deriving DecidableEq

/-- What an entry keeps of its commit. -/
structure TailFact where
  identity : TailIdentity
  position : Int
  ordinal : Nat
  deriving DecidableEq

def TailCommit.fact (c : TailCommit) : TailFact := ⟨c.identity, c.position, c.ordinal⟩

def ExactEntry.fact (e : ExactEntry) : TailFact := ⟨e.identity, e.position, e.insertionOrdinal⟩

/-- The order by position and ordinal. -/
def TailFact.le (a b : TailFact) : Prop :=
  a.position < b.position ∨ (a.position = b.position ∧ a.ordinal ≤ b.ordinal)

instance : DecidableRel TailFact.le := fun a b => by
  unfold TailFact.le
  exact inferInstance

instance : IsTrans TailFact TailFact.le where
  trans a b c hab hbc := by
    unfold TailFact.le at *
    omega

instance : Std.Total TailFact.le where
  total a b := by
    unfold TailFact.le
    omega

/-- The facts of the entries of a sequence. -/
def SeqTail.facts (t : SeqTail) : List TailFact := t.entries.map ExactEntry.fact

/-- The number of entries a sequence may keep: none without an exact tail. -/
def TailConfig.retentionLimit (cfg : TailConfig) : Nat :=
  if cfg.nTokens = 0 then 0 else cfg.retained

namespace TailStore

/-- Commits to one sequence. -/
def commitAll (q : Nat) (commits : List TailCommit) : TailM Unit :=
  commits.forM fun c => do
    let _ ← commit q c.identity c.position c.ordinal c.currentRow

/-- Commits inside one batch, and the batch that begins after it. -/
def commitBatch (q : Nat) (commits : List TailCommit) (success payloadMayBeModified : Bool) :
    TailM Unit := do
  beginBatch
  commitAll q commits
  finishBatch success payloadMayBeModified
  beginBatch

/-- The retained entries outside a batch are the newest, and commits that fit the arena leave the
same ones inside a batch. -/
def RecencyRetention (cfg : TailConfig) (q : Nat) (commits : List TailCommit) : Prop :=
  ∃ s, commitAll q commits { cfg } = .ok () s ∧
    (s.seqs q).facts.Perm (newest TailFact.le cfg.retentionLimit (commits.map TailCommit.fact)) ∧
    (cfg.compact = false → commits.length ≤ cfg.arenaStride →
      ∀ success payloadMayBeModified, ∃ s',
        commitBatch q commits success payloadMayBeModified { cfg } = .ok () s' ∧
          (s'.seqs q).facts.Perm (s.seqs q).facts)

end TailStore

/-! ## One commit -/

theorem ExactEntry.le_iff_fact {a b : ExactEntry} : a.le b ↔ a.fact.le b.fact := by
  rw [ExactEntry.le_iff]
  rfl

/-- A commit is inserted after the entries that are not newer. -/
theorem map_insertCommitted {e : ExactEntry} {l : List ExactEntry}
    (h : l.Pairwise ExactEntry.le) :
    (insertCommitted e l).map ExactEntry.fact =
      insertAfter TailFact.le e.fact (l.map ExactEntry.fact) := by
  have hBefore : ∀ l : List ExactEntry, (insertBefore e l).map ExactEntry.fact =
      insertAfter TailFact.le e.fact (l.map ExactEntry.fact) := by
    intro l
    induction l with
    | nil => rfl
    | cons a l ih =>
      have hTest : (!e.lt a) = true ↔ a.fact.le e.fact := by
        rw [← ExactEntry.le_iff_fact]
        simp [ExactEntry.le]
      unfold insertBefore at ih ⊢
      rw [map_cons, insertAfter, takeWhile_cons, dropWhile_cons]
      by_cases hLe : a.fact.le e.fact
      · rw [if_pos hLe, if_pos (hTest.mpr hLe), if_pos (hTest.mpr hLe), cons_append,
          map_cons, ih]
      have hStop : ¬ (!e.lt a) = true := fun hPass => hLe (hTest.mp hPass)
      rw [if_neg hLe, if_neg hStop, if_neg hStop]
      rfl
  unfold insertCommitted
  split
  · rename_i hLast
    rw [getLast?_eq_none_iff.mp hLast]
    rfl
  rename_i last hLast
  split
  · rename_i hLe
    rw [← hBefore]
    have hAll : ∀ a ∈ l, (!e.lt a) = true := by
      intro a ha
      obtain ⟨init, rfl⟩ : ∃ init, l = init ++ [last] :=
        ⟨l.dropLast, (dropLast_append_getLast? last hLast).symm⟩
      have hae : a.le e := by
        rcases mem_append.mp ha with hInit | hIs
        · exact ExactEntry.le_trans
            ((pairwise_append.mp h).2.2 a hInit last (by simp)) hLe
        · rw [mem_singleton.mp hIs]
          exact hLe
      simpa [ExactEntry.le] using hae
    have hTake := takeWhile_eq_self_iff.mpr hAll
    have hDrop := dropWhile_eq_nil_iff.mpr hAll
    rw [insertBefore, hTake, hDrop]
  · exact hBefore l

section Commit

variable {cfg : TailConfig} {q next : Nat} {t : SeqTail} {identity : TailIdentity}
  {position : Int} {ordinal : Nat}

/-- A commit of a cell that the sequence does not hold, outside a batch. -/
theorem SeqOk.commit_outside (h : SeqOk cfg q next [] t) (hTokens : 0 < cfg.nTokens)
    (hFresh : ∀ e ∈ t.entries, e.key ≠ identity.cellKey)
    (hLength : t.entries.length ≤ cfg.retained) :
    ∃ t', TailStore.commitSeq cfg q false next identity position ordinal t = some t' ∧
      SeqOk cfg q (next + 1) [] t' ∧
      t'.facts = evictInsert TailFact.le cfg.retained t.facts ⟨identity, position, ordinal⟩ := by
  have hPositive := TailConfig.retained_pos hTokens
  obtain ⟨t₁, slot, hSlot, hEntries⟩ := h.takeSlot_outside hTokens
  have hCommit := commitSeq_fresh next position ordinal
    (h.find_eq_none hFresh) hSlot
  refine ⟨_, hCommit, h.commitSeq hTokens hCommit, ?_⟩
  have hSorted : t₁.entries.Pairwise ExactEntry.le := by
    rw [hEntries]
    split
    · exact h.sorted.sublist (tail_sublist _)
    · exact h.sorted
  have hShort : t₁.entries.length + 1 ≤ cfg.retained := by
    rw [hEntries]
    split
    · rw [length_tail]
      omega
    · omega
  have hLinked := map_insertCommitted (e := ⟨next, identity, position, ordinal, slot⟩) hSorted
  unfold SeqTail.facts TailStore.linkEntry evictInsert
  rw [if_neg Bool.false_ne_true, trim_entries, countRecovery_entries]
  dsimp only
  rw [(insertCommitted_perm _ _).length_eq, length_cons, Nat.sub_eq_zero_of_le hShort,
    drop_zero, hLinked, hEntries, length_map]
  split
  · rw [map_tail]
    rfl
  · rfl

/-- A commit of a cell that the sequence does not hold, inside a batch of a store without compact
storage. -/
theorem SeqOk.commit_inside (h : SeqOk cfg q next [] t) (hTokens : 0 < cfg.nTokens)
    (hOverlay : cfg.compact = false) (hFresh : ∀ e ∈ t.entries, e.key ≠ identity.cellKey)
    (hRoom : t.entries.length < cfg.arenaStride) :
    ∃ t', TailStore.commitSeq cfg q true next identity position ordinal t = some t' ∧
      SeqOk cfg q (next + 1) [] t' ∧
      t'.facts = insertAfter TailFact.le ⟨identity, position, ordinal⟩ t.facts := by
  obtain ⟨t₁, slot, hAcquire, hSame⟩ := h.acquire_some hRoom
  have hSlot : TailStore.takeSlot cfg q true t = some (t₁, slot) := by
    unfold TailStore.takeSlot
    split
    · rw [if_neg (by simp [hOverlay])]
      exact hAcquire
    · exact hAcquire
  have hCommit := commitSeq_fresh next position ordinal
    (h.find_eq_none hFresh) hSlot
  refine ⟨_, hCommit, h.commitSeq hTokens hCommit, ?_⟩
  have hSorted : t₁.entries.Pairwise ExactEntry.le := by
    rw [hSame]
    exact h.sorted
  unfold SeqTail.facts TailStore.linkEntry
  rw [if_pos rfl, countRecovery_entries]
  dsimp only
  rw [map_insertCommitted hSorted, hSame]
  rfl

end Commit

/-! ## Runs of commits -/

section Runs

variable {cfg : TailConfig} {q : Nat} {s : TailStore}

namespace TailStore

/-- A store between two commits to a sequence. -/
structure Committing (cfg : TailConfig) (q : Nat) (inBatch : Bool) (s : TailStore) : Prop where
  cfg_eq : s.cfg = cfg
  batch : s.batch = none
  inBatch_eq : s.inBatch = inBatch
  ok : SeqOk cfg q s.nextNode [] (s.seqs q)

theorem Committing.initial (cfg : TailConfig) (q : Nat) : Committing cfg q false { cfg } where
  cfg_eq := rfl
  batch := rfl
  inBatch_eq := rfl
  ok := SeqOk.empty

/-- The cells of the commits are none of those of the entries. -/
def Fresh (facts : List TailFact) (commits : List TailCommit) : Prop :=
  ∀ c ∈ commits, ∀ f ∈ facts, f.identity.cellKey ≠ c.identity.cellKey

variable {c : TailCommit}

theorem Fresh.entries {t : SeqTail} {commits : List TailCommit}
    (h : Fresh t.facts (c :: commits)) : ∀ e ∈ t.entries, e.key ≠ c.identity.cellKey :=
  fun e he => h c mem_cons_self e.fact (mem_map.mpr ⟨e, he, rfl⟩)

theorem Fresh.next {facts facts' : List TailFact} {commits : List TailCommit}
    (h : Fresh facts (c :: commits))
    (hCells : ((c :: commits).map fun c => c.identity.cellKey).Nodup)
    (hFacts : ∀ f ∈ facts', f = c.fact ∨ f ∈ facts) : Fresh facts' commits := by
  intro d hd f hf
  rcases hFacts f hf with rfl | hOld
  · intro hEq
    have hNot := (nodup_cons.mp hCells).1
    exact hNot (mem_map.mpr ⟨d, hd, hEq.symm⟩)
  · exact h d (mem_cons_of_mem _ hd) f hOld

theorem Committing.commit {inBatch : Bool} (h : Committing cfg q inBatch s)
    (hSeq : q < cfg.nSeqMax) (hTokens : 0 < cfg.nTokens) {t : SeqTail}
    (hCommit : commitSeq cfg q inBatch s.nextNode c.identity c.position c.ordinal (s.seqs q) =
      some t) (hOk : SeqOk cfg q (s.nextNode + 1) [] t) :
    ∃ slot s', TailStore.commit q c.identity c.position c.ordinal c.currentRow s = .ok slot s' ∧
      Committing cfg q inBatch s' ∧ s'.seqs q = t := by
  obtain ⟨rfl, hBatch, rfl, -⟩ := h
  refine ⟨retainedSlot t c.identity,
    { s.modSeq q (fun _ => t) with nextNode := s.nextNode + 1 }, ?_, ⟨rfl, hBatch, rfl, ?_⟩, ?_⟩
  · unfold TailStore.commit
    rw [if_neg (by simp [validSeq_natCast hSeq, Nat.pos_iff_ne_zero.mp hTokens]), Int.toNat_natCast]
    dsimp only
    rw [hCommit]
    exact recordCurrent_idle hBatch
  · have hSeqs : (s.modSeq q fun _ => t).seqs q = t := modSeq_seqs_self s q fun _ => t
    rw [hSeqs]
    exact hOk
  · exact modSeq_seqs_self s q fun _ => t

theorem commitAll_cons {slot : Int} {s₁ : TailStore}
    (h : TailStore.commit q c.identity c.position c.ordinal c.currentRow s = .ok slot s₁)
    (commits : List TailCommit) : commitAll q (c :: commits) s = commitAll q commits s₁ := by
  show ((TailStore.commit q c.identity c.position c.ordinal c.currentRow >>= fun _ => pure ()) >>=
    fun _ => commitAll q commits) s = _
  simp only [Bind.bind, EStateM.bind, h]
  rfl

theorem Committing.commitAll_outside (h : Committing cfg q false s) (hSeq : q < cfg.nSeqMax)
    (hTokens : 0 < cfg.nTokens) (hPositive : 0 < cfg.retained) {commits : List TailCommit}
    (hCells : (commits.map fun c => c.identity.cellKey).Nodup)
    (hFresh : Fresh (s.seqs q).facts commits) (hLength : (s.seqs q).facts.length ≤ cfg.retained) :
    ∃ s', commitAll q commits s = .ok () s' ∧ Committing cfg q false s' ∧
      (s'.seqs q).facts =
        (commits.map TailCommit.fact).foldl (evictInsert TailFact.le cfg.retained)
          (s.seqs q).facts := by
  induction commits generalizing s with
  | nil => exact ⟨s, rfl, h, rfl⟩
  | cons c commits ih =>
    have hEntries : (s.seqs q).entries.length ≤ cfg.retained := by
      rw [SeqTail.facts, length_map] at hLength
      exact hLength
    obtain ⟨t, hCommit, hOk, hFacts⟩ := @SeqOk.commit_outside cfg q s.nextNode (s.seqs q)
      c.identity c.position c.ordinal h.ok hTokens hFresh.entries hEntries
    obtain ⟨slot, s₁, hRun, hNext, hSeqs⟩ := h.commit hSeq hTokens hCommit hOk
    have hMem : ∀ f ∈ (s₁.seqs q).facts, f = c.fact ∨ f ∈ (s.seqs q).facts := by
      rw [hSeqs, hFacts]
      exact fun f hf => mem_evictInsert hf
    have hShort : (s₁.seqs q).facts.length ≤ cfg.retained := by
      rw [hSeqs, hFacts]
      exact evictInsert_length hPositive hLength _
    obtain ⟨s₂, hRest, hDone, hResult⟩ :=
      ih hNext (nodup_cons.mp hCells).2 (hFresh.next hCells hMem) hShort
    refine ⟨s₂, ?_, hDone, ?_⟩
    · rw [commitAll_cons hRun, hRest]
    · rw [hResult, hSeqs, hFacts]
      rfl

/-- Commits inside a batch of a store without compact storage are all inserted. -/
theorem Committing.commitAll_inside (h : Committing cfg q true s) (hSeq : q < cfg.nSeqMax)
    (hTokens : 0 < cfg.nTokens) (hOverlay : cfg.compact = false) {commits : List TailCommit}
    (hCells : (commits.map fun c => c.identity.cellKey).Nodup)
    (hFresh : Fresh (s.seqs q).facts commits)
    (hRoom : (s.seqs q).facts.length + commits.length ≤ cfg.arenaStride) :
    ∃ s', commitAll q commits s = .ok () s' ∧ Committing cfg q true s' ∧
      (s'.seqs q).facts =
        (commits.map TailCommit.fact).foldl (fun l x => insertAfter TailFact.le x l)
          (s.seqs q).facts := by
  induction commits generalizing s with
  | nil => exact ⟨s, rfl, h, rfl⟩
  | cons c commits ih =>
    rw [length_cons] at hRoom
    have hEntries : (s.seqs q).entries.length < cfg.arenaStride := by
      rw [SeqTail.facts, length_map] at hRoom
      omega
    obtain ⟨t, hCommit, hOk, hFacts⟩ := @SeqOk.commit_inside cfg q s.nextNode (s.seqs q)
      c.identity c.position c.ordinal h.ok hTokens hOverlay hFresh.entries hEntries
    obtain ⟨slot, s₁, hRun, hNext, hSeqs⟩ := h.commit hSeq hTokens hCommit hOk
    have hMem : ∀ f ∈ (s₁.seqs q).facts, f = c.fact ∨ f ∈ (s.seqs q).facts := by
      rw [hSeqs, hFacts]
      exact fun f hf => mem_cons.mp ((insertAfter_perm _ _).mem_iff.mp hf)
    have hMore : (s₁.seqs q).facts.length + commits.length ≤ cfg.arenaStride := by
      rw [hSeqs, hFacts, insertAfter_length]
      omega
    obtain ⟨s₂, hRest, hDone, hResult⟩ :=
      ih hNext (nodup_cons.mp hCells).2 (hFresh.next hCells hMem) hMore
    refine ⟨s₂, ?_, hDone, ?_⟩
    · rw [commitAll_cons hRun, hRest]
    · rw [hResult, hSeqs, hFacts]
      rfl

theorem commitAll_disabled (hTokens : s.cfg.nTokens = 0) (commits : List TailCommit) :
    commitAll q commits s = .ok () s := by
  induction commits with
  | nil => rfl
  | cons c commits ih =>
    have hCommit : TailStore.commit q c.identity c.position c.ordinal c.currentRow s =
        .ok tailBodySlot s := by
      unfold TailStore.commit
      rw [if_pos (Or.inr hTokens)]
    rw [commitAll_cons hCommit, ih]

/-- A batch of a store without compact storage begins with a trim. -/
theorem beginBatch_overlay (hOverlay : s.cfg.compact = false) :
    ∃ s', beginBatch s = .ok () s' ∧ s'.cfg = s.cfg ∧ s'.batch = s.batch ∧ s'.inBatch = true ∧
      s'.nextNode = s.nextNode ∧ ∀ q < s.cfg.nSeqMax,
        s'.seqs q = (s.seqs q).trim s.cfg q s.cfg.retained := by
  refine ⟨{ s with
    seqs := fun q =>
      if q < s.cfg.nSeqMax then (s.seqs q).trim s.cfg q s.cfg.retained else s.seqs q
    inBatch := true }, ?_, rfl, rfl, rfl, rfl, fun q hq => if_pos hq⟩
  unfold beginBatch
  rw [hOverlay, if_neg (by simp), if_neg (by simp)]

/-- What commits inside a batch leave is trimmed when the next batch begins. -/
theorem commitBatch_run (hSeq : q < cfg.nSeqMax) (hOverlay : cfg.compact = false)
    {commits : List TailCommit} {facts : List TailFact}
    (hCommits : ∀ s, Committing cfg q true s → (s.seqs q).facts = [] → ∃ s',
      commitAll q commits s = .ok () s' ∧ Committing cfg q true s' ∧ (s'.seqs q).facts = facts)
    (success payloadMayBeModified : Bool) :
    ∃ s', commitBatch q commits success payloadMayBeModified { cfg } = .ok () s' ∧
      (s'.seqs q).facts = facts.drop (facts.length - cfg.retained) := by
  obtain ⟨s₁, hBegin, hCfg₁, hBatch₁, hIn₁, hNode₁, hSeqs₁⟩ :=
    beginBatch_overlay (s := { cfg }) hOverlay
  have hSeq₁ : s₁.seqs q = SeqTail.trim {} cfg q cfg.retained := hSeqs₁ q hSeq
  have hFirst : Committing cfg q true s₁ := by
    refine ⟨hCfg₁, hBatch₁, hIn₁, ?_⟩
    rw [hSeq₁]
    exact SeqOk.empty.trim _
  have hEmpty : (s₁.seqs q).facts = [] := by
    rw [hSeq₁, SeqTail.facts, trim_entries, drop_nil]
    rfl
  obtain ⟨s₂, hRun, hDone, hFacts⟩ := hCommits s₁ hFirst hEmpty
  have hFinish : finishBatch success payloadMayBeModified s₂ =
      .ok () { s₂ with inBatch := false } := by
    unfold finishBatch
    rw [run_bind (run_get s₂), hDone.cfg_eq, hOverlay]
    rfl
  have hOverlay₂ : ({ s₂ with inBatch := false } : TailStore).cfg.compact = false := by
    rw [hDone.cfg_eq, hOverlay]
  obtain ⟨s₃, hAgain, -, -, -, -, hSeqs₃⟩ := beginBatch_overlay hOverlay₂
  have hSeq₂ : q < s₂.cfg.nSeqMax := by
    rw [hDone.cfg_eq]
    exact hSeq
  have hTrimmed : s₃.seqs q = (s₂.seqs q).trim s₂.cfg q s₂.cfg.retained := hSeqs₃ q hSeq₂
  refine ⟨s₃, ?_, ?_⟩
  · unfold commitBatch
    simp only [Bind.bind, EStateM.bind, hBegin, hRun, hFinish, hAgain]
  · rw [hTrimmed, SeqTail.facts, trim_entries, map_drop, hDone.cfg_eq, ← hFacts,
      SeqTail.facts, length_map]

end TailStore

end Runs

/-! ## The newest commits -/

section Newest

variable {earlier commits : List TailCommit} {last : TailCommit}

/-- Commits with different ordinals are told apart by the order. -/
theorem facts_antisymm (hOrdinals : commits.Pairwise fun a b => a.ordinal < b.ordinal) :
    ∀ a ∈ commits.map TailCommit.fact, ∀ b ∈ commits.map TailCommit.fact,
      a.le b → b.le a → a = b := by
  intro a ha b hb hab hba
  obtain ⟨c, hc, rfl⟩ := mem_map.mp ha
  obtain ⟨d, hd, rfl⟩ := mem_map.mp hb
  have hab' : c.position < d.position ∨ (c.position = d.position ∧ c.ordinal ≤ d.ordinal) := hab
  have hba' : d.position < c.position ∨ (d.position = c.position ∧ d.ordinal ≤ c.ordinal) := hba
  obtain ⟨i, hi, rfl⟩ := getElem_of_mem hc
  obtain ⟨j, hj, rfl⟩ := getElem_of_mem hd
  rcases Nat.lt_trichotomy i j with hLt | hEq | hGt
  · have hLess := pairwise_iff_getElem.mp hOrdinals i j hi hj hLt
    omega
  · subst hEq
    rfl
  · have hLess := pairwise_iff_getElem.mp hOrdinals j i hj hi hGt
    omega

/-- The commits outside a batch leave the newest ones, and the same as inside a batch, exactly when
fewer commits than the limit are newer than the last one. -/
theorem recencyRetention_iff (cfg : TailConfig) {q : Nat} (hSeq : q < cfg.nSeqMax)
    (hCells : ((earlier ++ [last]).map fun c => c.identity.cellKey).Nodup)
    (hOrdinals : (earlier ++ [last]).Pairwise fun a b => a.ordinal < b.ordinal) :
    TailStore.RecencyRetention cfg q (earlier ++ [last]) ↔
      cfg.retentionLimit = 0 ∨
        (earlier.countP fun c => decide (¬ c.fact.le last.fact)) < cfg.retentionLimit := by
  unfold TailConfig.retentionLimit TailStore.RecencyRetention TailConfig.retentionLimit
  by_cases hTokens : cfg.nTokens = 0
  · rw [if_pos hTokens]
    refine iff_of_true ⟨{ cfg }, TailStore.commitAll_disabled hTokens _, ?_, ?_⟩ (Or.inl rfl)
    · unfold newest
      rw [Nat.sub_zero, drop_eq_nil_of_le (Nat.le_of_eq (length_insertionSort _ _))]
      exact List.Perm.refl _
    intro hOverlay _ success payloadMayBeModified
    obtain ⟨s', hRun, hFacts⟩ := @TailStore.commitBatch_run cfg q hSeq hOverlay
      (earlier ++ [last]) [] (fun s hs hEmpty => ⟨s, TailStore.commitAll_disabled
        (by rw [hs.cfg_eq]; exact hTokens) _, hs, hEmpty⟩) success payloadMayBeModified
    refine ⟨s', hRun, ?_⟩
    rw [hFacts, drop_nil]
    exact List.Perm.refl _
  have hPositive : 0 < cfg.nTokens := Nat.pos_of_ne_zero hTokens
  have hRetained := TailConfig.retained_pos hPositive
  have hAnti := facts_antisymm hOrdinals
  have hNot : last.fact ∉ earlier.map TailCommit.fact := by
    intro hMem
    obtain ⟨c, hc, hEq⟩ := mem_map.mp hMem
    have hLess := (pairwise_append.mp hOrdinals).2.2 c hc last (mem_singleton_self _)
    have hSame : c.ordinal = last.ordinal := congrArg TailFact.ordinal hEq
    omega
  have hNone : TailStore.Fresh ([] : List TailFact) (earlier ++ [last]) :=
    fun c _ f hf => absurd hf not_mem_nil
  -- outside a batch
  obtain ⟨s, hRun, -, hFacts⟩ := (TailStore.Committing.initial cfg q).commitAll_outside hSeq
    hPositive hRetained hCells hNone (Nat.zero_le _)
  have hOutside : (s.seqs q).facts.Perm
      (newest TailFact.le cfg.retained ((earlier ++ [last]).map TailCommit.fact)) ↔
        (earlier.countP fun c => decide (¬ c.fact.le last.fact)) < cfg.retained := by
    have hAnti' := hAnti
    rw [map_append] at hAnti'
    have hIff := evicted_perm_iff hRetained hAnti' hNot
    rw [countP_map] at hIff
    rw [hFacts, map_append]
    exact hIff
  -- inside a batch
  have hInside : cfg.compact = false → (earlier ++ [last]).length ≤ cfg.arenaStride →
      ∀ success payloadMayBeModified, ∃ s', TailStore.commitBatch q (earlier ++ [last]) success
        payloadMayBeModified { cfg } = .ok () s' ∧ (s'.seqs q).facts =
          newest TailFact.le cfg.retained ((earlier ++ [last]).map TailCommit.fact) := by
    intro hOverlay hRoom success payloadMayBeModified
    obtain ⟨s', hRun', hFacts'⟩ := @TailStore.commitBatch_run cfg q hSeq hOverlay
      (earlier ++ [last]) (insertAll TailFact.le ((earlier ++ [last]).map TailCommit.fact))
      (fun s₁ hs₁ hEmpty => by
        obtain ⟨s₂, hRun₂, hDone, hFacts₂⟩ := hs₁.commitAll_inside hSeq hPositive hOverlay hCells
          (by rw [hEmpty]; exact hNone) (by rw [hEmpty, length_nil, Nat.zero_add]; exact hRoom)
        rw [hEmpty] at hFacts₂
        exact ⟨s₂, hRun₂, hDone, hFacts₂⟩) success payloadMayBeModified
    refine ⟨s', hRun', ?_⟩
    rw [hFacts', insertAll_eq hAnti, newest, length_insertionSort]
  rw [if_neg hTokens]
  constructor
  · rintro ⟨s', hRun', hPerm, -⟩
    rw [hRun] at hRun'
    obtain rfl : s = s' := (EStateM.Result.ok.inj hRun').2
    exact Or.inr (hOutside.mp hPerm)
  intro hWhen
  have hFew := hWhen.resolve_left (by omega)
  refine ⟨s, hRun, hOutside.mpr hFew, fun hOverlay hRoom success payloadMayBeModified => ?_⟩
  obtain ⟨s', hRun', hFacts'⟩ := hInside hOverlay hRoom success payloadMayBeModified
  refine ⟨s', hRun', ?_⟩
  rw [hFacts']
  exact (hOutside.mpr hFew).symm

end Newest

/-- A store that retains one token of each of its sequences. -/
def oneToken : TailConfig where
  nTokens := 1
  rollbackTokens := 0
  nSeqMax := 1
  arenaStride := 2
  sinkSlots := 0
  compact := false
  overlay _ := rfl
  fits := by decide
  slotsFit := by decide

def laterFirst : List TailCommit := [⟨⟨0, 0, 0⟩, 5, 0, none⟩, ⟨⟨0, 1, 0⟩, 3, 1, none⟩]

def laterLast : List TailCommit := [⟨⟨0, 0, 0⟩, 3, 0, none⟩, ⟨⟨0, 1, 0⟩, 5, 1, none⟩]

/-- Of two commits the later position remains when it comes last. -/
theorem laterLast_retained : TailStore.RecencyRetention oneToken 0 laterLast :=
  (@recencyRetention_iff [⟨⟨0, 0, 0⟩, 3, 0, none⟩] ⟨⟨0, 1, 0⟩, 5, 1, none⟩ oneToken 0 (by decide)
    (by decide) (by decide)).mpr (Or.inr (by decide))

/-- When it comes first, the later position is evicted for the earlier one. -/
theorem laterFirst_evicted :
    (∃ s, TailStore.commitAll 0 laterFirst { cfg := oneToken } = .ok () s ∧
      (s.seqs 0).facts = [⟨⟨0, 1, 0⟩, 3, 1⟩]) ∧
    ¬ ∀ (cfg : TailConfig) (q : Nat) (commits : List TailCommit), q < cfg.nSeqMax → commits ≠ [] →
      (commits.map fun c => c.identity.cellKey).Nodup →
      (commits.Pairwise fun a b => a.ordinal < b.ordinal) →
        TailStore.RecencyRetention cfg q commits := by
  have hRun : ∃ s, TailStore.commitAll 0 laterFirst { cfg := oneToken } = .ok () s ∧
      (s.seqs 0).facts = [⟨⟨0, 1, 0⟩, 3, 1⟩] := ⟨_, rfl, by decide⟩
  refine ⟨hRun, fun h => ?_⟩
  obtain ⟨s, hCommits, hFacts⟩ := hRun
  obtain ⟨s', hCommits', hPerm, -⟩ :=
    h oneToken 0 laterFirst (by decide) (by decide) (by decide) (by decide)
  rw [hCommits] at hCommits'
  obtain rfl : s = s' := (EStateM.Result.ok.inj hCommits').2
  rw [hFacts] at hPerm
  exact absurd (hPerm.mem_iff.mp mem_cons_self) (by decide)

end Beellama.Ports
