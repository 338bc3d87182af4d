import Beellama.Ports.KvCacheFrame
import Beellama.Ports.KvStateRestore

/-!
# When a removal from the KV cache returns

`seq_rm` makes the copies that `seq_cp` has queued, then drops rows of the exact-tail store and cells.
It throws only in the store, when the index of a sequence is rebuilt from two rows of one cell, and an
id that names no sequence ends the process.
-/

namespace Beellama.Ports

open Beellama.Verified TailStore List Option TailStore Triple

/-- The arguments of `seq_rm`. -/
structure RmArgs where
  seqId : Int
  p0 : Int
  p1 : Int
  deriving DecidableEq, Repr

/-! ## When the removal from a cache returns -/

namespace KvCache

/-- The cells that the rows outside a range name. -/
def survivingKeys (p0 p1 : Int) (rows : List ExactEntry) : List (Nat × Nat) :=
  (rows.filter fun e => !inRange p0 p1 e.position).map ExactEntry.key

/-- The exact rows of a sequence once the copy that `seq_cp` has queued is made. -/
def queuedRows (c : KvCache) (t : TailStore) (q : Nat) : List ExactEntry :=
  match t.pending with
  | none => (t.seqs q).entries
  | some p => if c.scInfo.tailTransaction ∧ p.dst = q then p.destination else (t.seqs q).entries

/-- Neither the queued copy nor a removal leaves a sequence two rows of one cell, for
which the store of the exact rows throws. -/
def Removable (c : KvCache) (r : RmArgs) : Prop :=
  ∀ t, c.tail = some t →
    (∀ p, t.pending = some p → c.scInfo.tailTransaction = true →
      (p.destination.map ExactEntry.key).Nodup) ∧
    ∀ q < t.cfg.nSeqMax, r.seqId = q ∨ (r.seqId < 0 ∧ q < c.cfg.nSeqMax) →
      (survivingKeys r.p0 r.p1 (c.queuedRows t q)).Nodup

theorem buildIndex_flag (l : List ExactEntry) (index : TailIndex) :
    (buildIndex l index).2 = true ↔
      (l.map ExactEntry.key).Nodup ∧ ∀ e ∈ l, e.key ∉ index := by
  induction l generalizing index with
  | nil => simp [buildIndex]
  | cons e l ih =>
    by_cases hMem : e.key ∈ index
    · simp [buildIndex, hMem]
    rw [buildIndex, if_neg hMem, ih, map_cons, nodup_cons, forall_mem_cons]
    constructor
    · rintro ⟨hNodup, hNew⟩
      refine ⟨⟨?_, hNodup⟩, hMem, fun x hx hIn => ?_⟩
      · intro hKey
        obtain ⟨x, hx, hEq⟩ := mem_map.mp hKey
        exact hNew x hx (by rw [hEq]; exact Finmap.mem_insert.mpr (Or.inl rfl))
      · exact hNew x hx (Finmap.mem_insert.mpr (Or.inr hIn))
    rintro ⟨⟨hHead, hNodup⟩, -, hNew⟩
    refine ⟨hNodup, fun x hx hIn => ?_⟩
    rcases Finmap.mem_insert.mp hIn with hEq | hOld
    · exact hHead (mem_map.mpr ⟨x, hx, hEq⟩)
    · exact hNew x hx hOld

variable {q : Nat} {t : TailStore}

theorem rebuildIndex_returns :
    returns (rebuildIndex q) t = true ↔ ((t.seqs q).entries.map ExactEntry.key).Nodup := by
  have hFlag := buildIndex_flag (t.seqs q).entries ∅
  rw [and_iff_left fun _ _ => Finmap.notMem_empty] at hFlag
  rw [← hFlag]
  unfold returns rebuildIndex
  dsimp only
  cases (buildIndex (t.seqs q).entries ∅).2 <;> simp

variable {t' : TailStore} {u : Unit}

theorem rebuildIndex_frame (h : rebuildIndex q t = .ok u t') :
    t'.cfg = t.cfg ∧ ∀ r, (t'.seqs r).entries = (t.seqs r).entries := by
  unfold rebuildIndex at h
  dsimp only at h
  split at h
  · cases h
    refine ⟨rfl, fun r => ?_⟩
    by_cases hr : r = q
    · subst hr
      rw [modSeq_seqs_self]
    · rw [modSeq_seqs_ne t hr]
  · cases h

/-! ### The store of the exact rows -/

variable {p0 p1 : Int}

/-- A removal from the store changes the rows of one sequence, and throws only when
two of the rows that are left name the same cell. -/
theorem tailSeqRm_returns :
    returns (TailStore.seqRm q p0 p1) t = true ↔
      (q < t.cfg.nSeqMax → (survivingKeys p0 p1 (t.seqs q).entries).Nodup) := by
  by_cases hq : q < t.cfg.nSeqMax
  · have hRun : returns (TailStore.seqRm q p0 p1) t = returns (rebuildIndex q)
        (t.modSeq q fun s => s.dropWhere t.cfg q fun e => inRange p0 p1 e.position) := by
      change returns (if t.validSeq q = true then _ else _ : TailM Unit) t = _
      rw [if_pos (validSeq_natCast hq)]
      change returns (rebuildIndex q >>= fun _ => modify _) _ = _
      exact returns_bind_of_total fun _ _ => rfl
    rw [hRun, rebuildIndex_returns, modSeq_seqs_self]
    exact ⟨fun h _ => h, fun h => h hq⟩
  have hInvalid : ¬ t.validSeq q = true := by
    simp only [validSeq, decide_eq_true_eq]
    omega
  refine ⟨fun _ h => absurd h hq, fun _ => ?_⟩
  unfold returns
  rw [seqRm_invalid hInvalid]

theorem tailSeqRm_frame (h : TailStore.seqRm q p0 p1 t = .ok u t') :
    t'.cfg = t.cfg ∧ ∀ r ≠ q, (t'.seqs r).entries = (t.seqs r).entries := by
  change (if t.validSeq q = true then _ else _ : TailM Unit) t = _ at h
  split at h
  · change (rebuildIndex q >>= fun _ => modify _) _ = _ at h
    obtain ⟨_, t₁, hIndex, hLast⟩ := run_bind_inv h
    obtain ⟨hCfg, hEntries⟩ := rebuildIndex_frame hIndex
    have hStart : ∀ r ≠ q, (t₁.seqs r).entries = (t.seqs r).entries := by
      intro r hr
      rw [hEntries, modSeq_seqs_ne t (by simpa using hr)]
    cases hLast
    dsimp only
    split
    · refine ⟨hCfg, fun r hr => ?_⟩
      rw [modSeq_seqs_ne t₁ (by simpa using hr), hStart r hr]
    · exact ⟨hCfg, hStart⟩
  · cases h
    exact ⟨rfl, fun _ _ => rfl⟩

theorem numberNodes_keys (next : Nat) (rows : List ExactEntry) :
    (numberNodes next rows).map ExactEntry.key = rows.map ExactEntry.key := by
  induction rows generalizing next with
  | nil => rfl
  | cons e rows ih =>
    rw [numberNodes, map_cons, ih]
    rfl

theorem numberNodes_survivingKeys (p0 p1 : Int) (next : Nat) (rows : List ExactEntry) :
    survivingKeys p0 p1 (numberNodes next rows) = survivingKeys p0 p1 rows := by
  induction rows generalizing next with
  | nil => rfl
  | cons e rows ih =>
    have hRest := ih (next + 1)
    unfold survivingKeys at hRest ⊢
    rw [numberNodes, filter_cons, filter_cons]
    by_cases hKeep : (!inRange p0 p1 e.position) = true
    · rw [if_pos hKeep, if_pos hKeep, map_cons, hRest]
      rfl
    · rw [if_neg hKeep, if_neg hKeep, hRest]

/-- The store before `commit_seq_cp` rebuilds the index of the destination. -/
def installCopy (t : TailStore) (p : PendingSeqCp) : TailStore :=
  let kept := p.destination.map fun e => e.slot
  let stale := ((t.seqs p.dst).entries.map fun e => e.slot).filter fun slot => slot ∉ kept
  { (t.modSeq p.dst fun s =>
      { releaseAll t.cfg p.dst stale s with
        entries := numberNodes t.nextNode p.destination }) with
    pending := none
    nextNode := t.nextNode + p.destination.length }

theorem installCopy_entries (t : TailStore) (p : PendingSeqCp) (q : Nat) :
    ((installCopy t p).seqs q).entries =
      if p.dst = q then numberNodes t.nextNode p.destination else (t.seqs q).entries := by
  unfold installCopy
  split
  · rename_i hq
    subst hq
    rw [modSeq_seqs_self]
  · rename_i hq
    rw [modSeq_seqs_ne t fun hEq => hq hEq.symm]

theorem commitSeqCp_pending {p : PendingSeqCp} (hp : t.pending = some p) :
    commitSeqCp t = (rebuildIndex p.dst >>= fun _ => modify fun s => s.modSeq p.dst fun t =>
      { t with degradation := p.degradation, recovery := p.recovery }) (installCopy t p) := by
  change (match t.pending with | none => _ | some p => _ : TailM Unit) t = _
  rw [hp]
  rfl

theorem commitSeqCp_returns :
    returns commitSeqCp t = true ↔
      ∀ p, t.pending = some p → (p.destination.map ExactEntry.key).Nodup := by
  cases hp : t.pending with
  | none =>
    refine ⟨fun _ p h => (some_ne_none _ h.symm).elim, fun _ => ?_⟩
    unfold returns
    rw [show commitSeqCp t = .ok () t from commitSeqCp_idle hp]
  | some p =>
    unfold returns
    rw [commitSeqCp_pending hp]
    change returns (rebuildIndex p.dst >>= fun _ => modify _) (installCopy t p) = true ↔ _
    rw [returns_bind_of_total fun _ _ => rfl, rebuildIndex_returns, installCopy_entries,
      if_pos rfl, numberNodes_keys]
    exact ⟨fun h p' hp' => some.inj hp' ▸ h, fun h => h p rfl⟩

theorem commitSeqCp_frame (h : commitSeqCp t = .ok u t') :
    t'.cfg = t.cfg ∧ ∀ q, (t'.seqs q).entries =
      match t.pending with
      | none => (t.seqs q).entries
      | some p =>
        if p.dst = q then numberNodes t.nextNode p.destination else (t.seqs q).entries := by
  cases hp : t.pending with
  | none =>
    rw [show commitSeqCp t = .ok () t from commitSeqCp_idle hp] at h
    cases h
    exact ⟨rfl, fun _ => rfl⟩
  | some p =>
    rw [commitSeqCp_pending hp] at h
    obtain ⟨_, t₁, hIndex, hLast⟩ := run_bind_inv h
    obtain ⟨hCfg, hEntries⟩ := rebuildIndex_frame hIndex
    cases hLast
    refine ⟨hCfg, fun q => ?_⟩
    dsimp only
    rw [← installCopy_entries, ← hEntries]
    by_cases hq : q = p.dst
    · subst hq
      rw [modSeq_seqs_self]
    · rw [modSeq_seqs_ne t₁ hq]

/-! ### The cache -/

/-- A removal from a sequence leaves no two of its rows naming one cell. -/
def Separable (c : KvCache) (p0 p1 : Int) (q : Nat) : Prop :=
  ∀ t, c.tail = some t → q < t.cfg.nSeqMax → (survivingKeys p0 p1 (t.seqs q).entries).Nodup

variable {x : TailM Unit} {c : KvCache}

theorem onTail_returns :
    returns (onTail () x) c = true ↔ ∀ t, c.tail = some t → returns x t = true := by
  unfold returns
  cases ht : c.tail with
  | none =>
    rw [onTail_none ht]
    exact ⟨fun _ t h => (some_ne_none _ h.symm).elim, fun _ => rfl⟩
  | some t =>
    rw [onTail_some ht]
    cases hx : x t with
    | ok u t' =>
      refine ⟨fun _ t₁ h => ?_, fun _ => rfl⟩
      cases h
      rw [hx]
    | error e t' =>
      refine ⟨fun h => absurd h Bool.false_ne_true, fun h => ?_⟩
      have hReturns := h t rfl
      rw [hx] at hReturns
      exact hReturns

variable {c' : KvCache}

/-- A method of the tail store that returned inside the cache. -/
theorem onTail_ok_inv (h : onTail () x c = .ok u c') :
    (c.tail = none ∧ c' = c) ∨
      ∃ t t', c.tail = some t ∧ x t = .ok () t' ∧ c' = { c with tail := some t' } := by
  cases ht : c.tail with
  | none =>
    rw [onTail_none ht] at h
    cases h
    exact Or.inl ⟨rfl, rfl⟩
  | some t =>
    rw [onTail_some ht] at h
    cases hx : x t with
    | ok u' t' =>
      rw [hx] at h
      cases h
      exact Or.inr ⟨t, t', rfl, hx, rfl⟩
    | error e t' =>
      rw [hx] at h
      cases h

theorem onTail_seqRm_frame (h : onTail () (TailStore.seqRm q p0 p1) c = .ok u c') :
    ∀ r ≠ q, c'.Separable p0 p1 r ↔ c.Separable p0 p1 r := by
  intro r hr
  rcases onTail_ok_inv h with ⟨-, hSame⟩ | ⟨t, t', ht, hRun, hSame⟩
  · rw [hSame]
  obtain ⟨hCfg, hRows⟩ := tailSeqRm_frame hRun
  subst hSame
  constructor
  · intro h t₁ ht₁ hLt
    obtain rfl : t = t₁ := some.inj (ht.symm.trans ht₁)
    have hNodup := h t' rfl (by rw [hCfg]; exact hLt)
    rwa [hRows r hr] at hNodup
  intro h t₁ ht₁ hLt
  obtain rfl : t' = t₁ := some.inj ht₁
  rw [hRows r hr]
  exact h t ht (by rw [← hCfg]; exact hLt)

variable {l : List Nat}

theorem forM_seqRm_returns (hNodup : l.Nodup) (c : KvCache) :
    returns (l.forM fun q : Nat => onTail () (TailStore.seqRm q p0 p1)) c = true ↔
      ∀ q ∈ l, c.Separable p0 p1 q := by
  induction l generalizing c with
  | nil => exact ⟨fun _ q hq => absurd hq not_mem_nil, fun _ => rfl⟩
  | cons q l ih =>
    rw [nodup_cons] at hNodup
    change returns (onTail () (TailStore.seqRm q p0 p1) >>= fun _ => l.forM _) c = true ↔ _
    rw [returns_bind_iff, forall_mem_cons]
    constructor
    · rintro ⟨u, c', hRun, hRest⟩
      have hTurn : returns (onTail () (TailStore.seqRm q p0 p1)) c = true := by
        unfold returns
        rw [hRun]
      refine ⟨fun t ht => tailSeqRm_returns.mp (onTail_returns.mp hTurn t ht), fun r hr => ?_⟩
      have hNe : r ≠ q := fun hEq => hNodup.1 (hEq ▸ hr)
      exact (onTail_seqRm_frame hRun r hNe).mp ((ih hNodup.2 c').mp hRest r hr)
    rintro ⟨hHead, hTail⟩
    have hTurn : returns (onTail () (TailStore.seqRm q p0 p1)) c = true :=
      onTail_returns.mpr fun t ht => tailSeqRm_returns.mpr (hHead t ht)
    obtain ⟨u, hRun⟩ := run_of_returns hTurn
    refine ⟨u, _, hRun, (ih hNodup.2 _).mpr fun r hr => ?_⟩
    have hNe : r ≠ q := fun hEq => hNodup.1 (hEq ▸ hr)
    exact (onTail_seqRm_frame hRun r hNe).mpr (hTail r hr)

theorem markIfIncomplete_returns (seqId : Int) (c : KvCache) :
    returns (markIfIncomplete seqId) c = true := by
  unfold markIfIncomplete
  cases ht : c.tail with
  | none =>
    unfold returns
    simp only [ht]
  | some t =>
    obtain ⟨t', hRun⟩ := markDegraded_returns t seqId degradedHistoricalOp
    unfold returns
    simp only [ht, onTail_ok ht hRun]
    split_ifs <;> rfl

theorem forM_returns {f : Nat → CacheM Unit}
    (h : ∀ q c, returns (f q) c = true) (c : KvCache) : returns (l.forM f) c = true := by
  induction l generalizing c with
  | nil => rfl
  | cons q l ih =>
    obtain ⟨u, hRun⟩ := run_of_returns (h q c)
    exact returns_bind_iff.mpr ⟨u, _, hRun, ih _⟩

theorem materialize_eq (c : KvCache) :
    materializePendingCopies c =
      if c.scInfo.tailTransaction = true then
        (onTail () commitSeqCp >>= fun _ => modify fun c => { c with scInfo := {} }) c
      else .ok () { c with scInfo := {} } := by
  change (if (!c.scInfo.isEmpty) = true then
    (if c.scInfo.tailTransaction = true then
      onTail () commitSeqCp >>= fun _ => modify fun c => { c with scInfo := {} }
    else modify fun c => { c with scInfo := {} }) else pure () : CacheM Unit) c = _
  cases hTail : c.scInfo.tailTransaction with
  | true =>
    have hQueued : (!c.scInfo.isEmpty) = true := by
      unfold StreamCopyInfo.isEmpty
      rw [hTail]
      simp
    rw [if_pos hQueued]
    rfl
  | false =>
    cases hEmpty : c.scInfo.isEmpty with
    | false => rfl
    | true =>
      have hSame : c.scInfo = {} := by
        unfold StreamCopyInfo.isEmpty at hEmpty
        rw [Bool.and_eq_true, Bool.and_eq_true, List.isEmpty_iff, List.isEmpty_iff] at hEmpty
        obtain ⟨⟨hStreams, hSlots⟩, -⟩ := hEmpty
        cases hInfo : c.scInfo
        rw [hInfo] at hStreams hSlots hTail
        cases hStreams
        cases hSlots
        cases hTail
        rfl
      change EStateM.Result.ok () c = EStateM.Result.ok () { c with scInfo := {} }
      rw [← hSame]

theorem materialize_returns :
    returns materializePendingCopies c = true ↔
      (c.scInfo.tailTransaction = true → ∀ t, c.tail = some t → ∀ p, t.pending = some p →
        (p.destination.map ExactEntry.key).Nodup) := by
  unfold returns
  rw [materialize_eq]
  cases c.scInfo.tailTransaction with
  | false => exact ⟨fun _ h => absurd h Bool.false_ne_true, fun _ => rfl⟩
  | true =>
    change returns (onTail () commitSeqCp >>= fun _ => modify _) c = true ↔ _
    rw [returns_bind_of_total fun _ _ => rfl, onTail_returns]
    constructor
    · intro h _ t ht
      exact commitSeqCp_returns.mp (h t ht)
    · intro h t ht
      exact commitSeqCp_returns.mpr (h rfl t ht)

/-- After the pending copies were made, the rows are those that `queuedRows` foretells. -/
theorem materialize_frame (h : materializePendingCopies c = .ok u c') :
    c'.cfg = c.cfg ∧ ∀ p0 p1 q, c'.Separable p0 p1 q ↔
      ∀ t, c.tail = some t → q < t.cfg.nSeqMax →
        (survivingKeys p0 p1 (c.queuedRows t q)).Nodup := by
  rw [materialize_eq] at h
  split at h
  · rename_i hTail
    obtain ⟨_, c₁, hCommit, hLast⟩ := run_bind_inv h
    cases hLast
    rcases onTail_ok_inv hCommit with ⟨hNone, hSame⟩ | ⟨t, t', ht, hRun, hSame⟩
    · subst hSame
      refine ⟨rfl, fun p0 p1 q => ?_⟩
      unfold Separable
      rw [hNone]
      exact ⟨fun _ t h => (some_ne_none _ h.symm).elim,
        fun _ t h => (some_ne_none _ h.symm).elim⟩
    subst hSame
    obtain ⟨hCfg, hRows⟩ := commitSeqCp_frame hRun
    have hKeys : ∀ p0 p1 q, survivingKeys p0 p1 (t'.seqs q).entries =
        survivingKeys p0 p1 (c.queuedRows t q) := by
      intro p0 p1 q
      rw [hRows q]
      unfold queuedRows
      rw [hTail]
      cases t.pending with
      | none => rfl
      | some p =>
        dsimp only
        by_cases hq : p.dst = q
        · rw [if_pos hq, if_pos ⟨rfl, hq⟩, numberNodes_survivingKeys]
        · rw [if_neg hq, if_neg fun hBoth => hq hBoth.2]
    refine ⟨rfl, fun p0 p1 q => ⟨fun hSep t₁ ht₁ hLt => ?_, fun hSep t₁ ht₁ hLt => ?_⟩⟩
    · obtain rfl : t = t₁ := some.inj (ht.symm.trans ht₁)
      rw [← hKeys]
      exact hSep t' rfl (by rw [hCfg]; exact hLt)
    obtain rfl : t' = t₁ := some.inj ht₁
    rw [hKeys]
    exact hSep t ht (by rw [← hCfg]; exact hLt)
  rename_i hTail
  cases h
  have hIdle : ∀ t q, c.queuedRows t q = (t.seqs q).entries := by
    intro t q
    unfold queuedRows
    cases t.pending with
    | none => rfl
    | some p => exact if_neg fun hBoth => hTail hBoth.1
  refine ⟨rfl, fun p0 p1 q => ?_⟩
  simp only [hIdle]
  rfl

variable {f g : KvCache → KvCache}

theorem rmOne_returns :
    returns (onTail () (TailStore.seqRm q p0 p1) >>= fun _ => modify f >>= fun _ =>
      markIfIncomplete q >>= fun _ => modify g) c = true ↔ c.Separable p0 p1 q := by
  rw [returns_bind_of_total, onTail_returns]
  · exact ⟨fun h t ht => tailSeqRm_returns.mp (h t ht), fun h t ht => tailSeqRm_returns.mpr (h t ht)⟩
  intro _ c₁
  rw [returns_bind_of_ok (show (modify f : CacheM Unit) c₁ = .ok () (f c₁) from rfl),
    returns_bind_of_total fun _ _ => rfl]
  exact markIfIncomplete_returns q (f c₁)

theorem rmAll_returns :
    returns ((forSeqs fun current => onTail () (TailStore.seqRm current p0 p1)) >>= fun _ =>
      modify f >>= fun _ => forSeqs markIfIncomplete >>= fun _ => modify g) c = true ↔
      ∀ q < c.cfg.nSeqMax, c.Separable p0 p1 q := by
  rw [returns_bind_of_total]
  · change returns ((range c.cfg.nSeqMax).forM fun q : Nat =>
      onTail () (TailStore.seqRm q p0 p1)) c = true ↔ _
    rw [forM_seqRm_returns nodup_range]
    simp only [mem_range]
  intro _ c₁
  rw [returns_bind_of_ok (show (modify f : CacheM Unit) c₁ = .ok () (f c₁) from rfl),
    returns_bind_of_total fun _ _ => rfl]
  exact forM_returns (fun q c => markIfIncomplete_returns q c) (f c₁)

variable {r : RmArgs}

/-- What is left of `seq_rm` once the pending copies are made. -/
theorem seqRmUnchecked_after {c₁ : KvCache} (h : materializePendingCopies c = .ok u c₁) :
    returns (seqRmUnchecked r.seqId r.p0 r.p1) c = true ↔
      (r.seqId = -1 ∨ c₁.cfg.validSeq r.seqId = true) ∧
        (0 ≤ r.seqId → c₁.Separable r.p0 r.p1 r.seqId.toNat) ∧
        (r.seqId < 0 → ∀ q < c₁.cfg.nSeqMax, c₁.Separable r.p0 r.p1 q) := by
  unfold seqRmUnchecked
  rw [returns_bind_of_ok h, returns_bind_of_ok (show (get : CacheM KvCache) c₁ = .ok c₁ c₁ from rfl)]
  by_cases hAssert : r.seqId = -1 ∨ c₁.cfg.validSeq r.seqId = true
  · rw [returns_bind_of_ok (show ggmlAssert _ c₁ = .ok () c₁ by
      unfold ggmlAssert
      rw [if_pos hAssert]
      rfl)]
    by_cases hNonneg : 0 ≤ r.seqId
    · obtain ⟨q, hq⟩ := Int.eq_ofNat_of_zero_le hNonneg
      rw [if_pos hNonneg, hq, rmOne_returns]
      constructor
      · exact fun h => ⟨hq ▸ hAssert, fun _ => h, fun hNeg => by omega⟩
      · exact fun h => h.2.1 (Int.natCast_nonneg q)
    rw [if_neg hNonneg, rmAll_returns]
    constructor
    · exact fun h => ⟨hAssert, fun hPos => absurd hPos hNonneg, fun _ => h⟩
    · exact fun h => h.2.2 (by omega)
  refine ⟨fun hReturns => ?_, fun h => absurd h.1 hAssert⟩
  obtain ⟨u', c₂, hOk, -⟩ := returns_bind_iff.mp hReturns
  unfold ggmlAssert at hOk
  rw [if_neg hAssert] at hOk
  cases hOk

/-- A removal that `can_seq_rm` has let through returns, unless the store of the exact rows throws.
-/
theorem seqRmUnchecked_returns (hBelow : r.seqId < c.cfg.seqLimit) :
    returns (seqRmUnchecked r.seqId r.p0 r.p1) c = true ↔ -1 ≤ r.seqId ∧ c.Removable r := by
  have hValid : r.seqId = -1 ∨ c.cfg.validSeq r.seqId = true ↔ -1 ≤ r.seqId := by
    simp only [CacheConfig.validSeq, decide_eq_true_eq]
    omega
  by_cases hCopies : returns materializePendingCopies c = true
  · obtain ⟨u, hRun⟩ := run_of_returns hCopies
    obtain ⟨hCfg, hRows⟩ := materialize_frame hRun
    rw [seqRmUnchecked_after hRun, hCfg, hValid]
    simp only [hRows]
    refine and_congr_right fun _ => ⟨fun ⟨hOne, hAll⟩ t ht => ⟨?_, ?_⟩, fun h => ⟨?_, ?_⟩⟩
    · exact fun p hp hTail => materialize_returns.mp hCopies hTail t ht p hp
    · rintro q hq (hSeq | ⟨hNeg, hLt⟩)
      · have hOneQ := hOne (by omega) t ht
        rw [hSeq] at hOneQ
        exact hOneQ hq
      · exact hAll hNeg q hLt t ht hq
    · exact fun hPos t ht hq => (h t ht).2 _ hq (Or.inl (Int.toNat_of_nonneg hPos).symm)
    · exact fun hNeg q hLt t ht hq => (h t ht).2 q hq (Or.inr ⟨hNeg, hLt⟩)
  refine ⟨fun hReturns => ?_, fun h => absurd ?_ hCopies⟩
  · obtain ⟨u, c₁, hRun, -⟩ := returns_bind_iff.mp hReturns
    exact absurd (by unfold returns; rw [hRun]) hCopies
  · exact materialize_returns.mpr fun hTail t ht p hp => (h.2 t ht).1 p hp hTail

/-- A store between two calls, with no copy queued, never throws. -/
theorem removable_of_idle (h : ∀ t, c.tail = some t → Idle t) (r : RmArgs) : c.Removable r := by
  intro t ht
  have hIdle := h t ht
  refine ⟨fun p hp => ?_, fun q _ _ => ?_⟩
  · rw [hIdle.pending] at hp
    cases hp
  unfold survivingKeys queuedRows
  rw [hIdle.pending]
  have hApart := (hIdle.seqs q).apart.imp fun h => And.left h
  exact pairwise_map.mpr (hApart.sublist filter_sublist)

/-! ### Caches without an exact tail -/

/-- A cache that was constructed without an exact tail. -/
structure Plain (cfg : CacheConfig) (c : KvCache) : Prop where
  config : c.cfg = cfg
  noTail : c.tail = none

variable {cfg : CacheConfig}

instance : Framed (Plain cfg) where
  congr h hCfg _ hTail := ⟨hCfg.trans h.config, hTail.trans h.noTail⟩
  act hTail h := by
    rw [h.noTail] at hTail
    cases hTail

theorem seqRm_plain {seqId : Int} {b : Bool}
    (h : c.Plain cfg) (hRun : seqRm seqId p0 p1 c = .ok b c') : c'.Plain cfg :=
  (keeps_seqRm (keeps_seqRmUnchecked (fun _ _ _ h => ⟨h.config, h.noTail⟩)
    fun _ _ h _ => ⟨h.config, h.noTail⟩)).of_ok h hRun

theorem clear_plain (h : c.Plain cfg) : ∃ c', KvCache.clear c = .ok () c' ∧ c'.Plain cfg := by
  have hRun : ∃ c', KvCache.clear c = .ok () c' := by
    unfold KvCache.clear
    rw [run_bind (show (modify _ : CacheM Unit) c = .ok () { c with scInfo := {} } from rfl),
      run_bind (onTail_none (show ({ c with scInfo := {} } : KvCache).tail = none from h.noTail))]
    exact ⟨_, rfl⟩
  exact hRun.imp fun c' hRun =>
    ⟨hRun, (keeps_clear fun _ h => ⟨h.config, h.noTail⟩).of_ok h hRun⟩

end KvCache

end Beellama.Ports
