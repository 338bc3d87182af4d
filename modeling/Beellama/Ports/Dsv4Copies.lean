import Beellama.Ports.Dsv4Rows
import Mathlib.Algebra.Order.Ring.Int

/-!
# Deferred sequence copies

`seq_cp` of `llama_kv_cache_dsv4` clears the target at once and queues the copy of the ring.  A call
in between that clears one of them changes what the queued copy brings, and the copy reads plane 0
of the source even when a rollback is pending.  `Dsv4Rows.deferred_iff` says exactly after which calls
an update still leaves what immediate copies would have left.
-/

namespace Beellama.Ports

open Beellama.Verified List CompState

namespace CompCache

variable {κ : Type}

/-- The copy, made at once. -/
def seqCpNow (c : CompCache κ) (src dst : Nat) : CompCache κ :=
  { c with rows := Function.update c.rows dst (c.rows src) }

variable (c : CompCache κ)

include c

theorem seqCp_materialize (src dst : Nat) :
    (c.seqCp src dst).materialize = c.materialize.seqCpNow src dst := by
  unfold seqCp
  split
  · rename_i hSame
    subst hSame
    unfold seqCpNow
    rw [Function.update_eq_self]
    rfl
  · rfl

end CompCache

variable {s src dst : Nat}

namespace CompState

variable {nStream nRsSeq : Nat} {ρ : Type} [Zero ρ] {c : CompState nStream nRsSeq ρ}

/-- The copy, made at once: the ring is the plane of the pending rollback. -/
def seqCpNow (c : CompState nStream nRsSeq ρ) (rs src dst : Nat) : CompState nStream nRsSeq ρ :=
  if src = dst then c
  else { c.clearSeq dst with
    rows := Function.update (c.clearSeq dst).rows dst (c.rows (rs * nStream + src)) }

/-- The queue copies between sequences. -/
def QueueIn (c : CompState nStream nRsSeq ρ) : Prop :=
  ∀ copy ∈ c.scInfo, copy.1 < nStream ∧ copy.2 < nStream

/-- The sequence whose ring a sequence will have once the queue is made. -/
def root (c : CompState nStream nRsSeq ρ) (i : Nat) : Nat := copyRoot c.scInfo i

/-- The queue neither copies the ring of the sequence to another one nor another ring to
it, unless the ring in question is zero. -/
def Detached (c : CompState nStream nRsSeq ρ) (s : Nat) : Prop :=
  (∀ i ≠ s, c.root i = s → c.rows s = 0) ∧ (c.root s ≠ s → c.rows (c.root s) = 0)

/-- The queue does not copy the ring of the target on, unless it is zero, and the ring of the source
is the one a pending rollback would restore. -/
def Copyable (c : CompState nStream nRsSeq ρ) (rs src dst : Nat) : Prop :=
  (∀ i ≠ dst, c.root i = dst → c.rows dst = 0) ∧
    (rs = 0 ∨ c.rows (rs * nStream + src) = c.rows (c.root src))

variable {k : Nat}

omit [Zero ρ] in
theorem root_outside (h : c.QueueIn) (hk : nStream ≤ k) : c.root k = k :=
  copyRoot_of_not_target fun copy hCopy => by
    have hIn := (h copy hCopy).2
    omega

omit [Zero ρ] in
theorem root_lt (h : c.QueueIn) {i : Nat} (hi : i < nStream) : c.root i < nStream :=
  copyRoot_of_forall (Q := fun i => i < nStream) (fun copy hCopy => (h copy hCopy).1) hi

theorem inPlanes_ring {nStream : Nat} (nRsSeq : Nat) (hk : k < nStream) :
    inPlanes nStream nRsSeq s k = true ↔ k = s := by
  unfold inPlanes
  simp only [any_eq_true, mem_range, beq_iff_eq]
  constructor
  · rintro ⟨d, -, hd⟩
    have hZero : d = 0 := by
      by_contra hPos
      have hLe := Nat.le_mul_of_pos_left nStream (Nat.pos_of_ne_zero hPos)
      omega
    subst hZero
    omega
  · intro hEq
    exact ⟨0, by omega, by omega⟩

/-- Clearing tensor streams commutes with the queue when no ring crosses the border of what is
cleared. -/
theorem zeroSafe_iff (h : c.QueueIn) {P : Nat → Prop} [DecidablePred P] :
    ZeroSafe P c.scInfo c.rows ↔
      ∀ i < nStream, (P i ↔ P (c.root i)) ∨ c.rows (c.root i) = 0 := by
  refine ⟨fun hSafe i _ => hSafe i, fun hSafe k => ?_⟩
  by_cases hk : k < nStream
  · exact hSafe k hk
  · refine Or.inl ?_
    rw [show copyRoot c.scInfo k = k from root_outside h (not_lt.mp hk)]

omit [Zero ρ] in
theorem eq_iff_rows {a b : CompState nStream nRsSeq ρ} (ha : a.scInfo = []) (hb : b.scInfo = []) :
    a = b ↔ a.rows = b.rows := by
  constructor
  · exact fun h => congrArg rows h
  intro h
  cases a
  cases b
  cases ha
  cases hb
  cases h
  rfl

theorem clear_applyCopies : c.clear.applyCopies = c.applyCopies.clear := by
  refine (eq_iff_rows rfl rfl).mpr ?_
  change Verified.applyCopies c.scInfo (0 : Nat → Nat → ρ) = 0
  rw [applyCopies_eq]
  rfl

theorem detached_iff (h : c.QueueIn) (hs : s < nStream) :
    (∀ i < nStream, (i = s ↔ c.root i = s) ∨ c.rows (c.root i) = 0) ↔ c.Detached s := by
  constructor
  · intro hSafe
    refine ⟨fun i hi hRoot => ?_, fun hNe => ?_⟩
    · by_cases hIn : i < nStream
      · have hCase := hSafe i hIn
        rw [hRoot] at hCase
        exact hCase.resolve_left fun hIff => hi (hIff.mpr rfl)
      · exact absurd (root_outside h (not_lt.mp hIn)) (by omega)
    · exact (hSafe s hs).resolve_left fun hIff => hNe (hIff.mp rfl)
  rintro ⟨hOut, hIn⟩ i _
  by_cases hSame : i = s
  · subst hSame
    by_cases hRoot : c.root i = i
    · exact Or.inl ⟨fun _ => hRoot, fun _ => rfl⟩
    · exact Or.inr (hIn hRoot)
  by_cases hRoot : c.root i = s
  · refine Or.inr ?_
    rw [hRoot]
    exact hOut i hSame hRoot
  · exact Or.inl ⟨fun hEq => absurd hEq hSame, fun hEq => absurd hEq hRoot⟩

theorem clearSeq_applyCopies_iff (h : c.QueueIn) (hs : s < nStream) :
    (c.clearSeq s).applyCopies = c.applyCopies.clearSeq s ↔ c.Detached s := by
  refine (eq_iff_rows rfl rfl).trans (applyCopies_zero_iff.trans ((zeroSafe_iff h).trans ?_))
  rw [← detached_iff h hs]
  refine forall_congr' fun i => forall_congr' fun hi => ?_
  rw [inPlanes_ring nRsSeq hi, inPlanes_ring nRsSeq (root_lt h hi)]

/-- The tensor streams of all sequences but one. -/
def othersPlanes (nStream nRsSeq s : Nat) (l : List Nat) (k : Nat) : Bool :=
  l.any fun id => id != s && inPlanes nStream nRsSeq id k

/-- The clears of `seq_keep`. -/
def clearOthers (c : CompState nStream nRsSeq ρ) (s : Nat) (l : List Nat) :
    CompState nStream nRsSeq ρ :=
  l.foldl (fun c id => if id = s then c else c.clearSeq id) c

theorem clearOthers_eq (c : CompState nStream nRsSeq ρ) (s : Nat) (l : List Nat) :
    c.clearOthers s l =
      { c with rows := zeroCells (fun k => othersPlanes nStream nRsSeq s l k = true) c.rows } := by
  induction l generalizing c with
  | nil => rfl
  | cons id l ih =>
    change (if id = s then c else c.clearSeq id).clearOthers s l = _
    rw [ih]
    by_cases hId : id = s
    · subst hId
      rw [if_pos rfl]
      refine congrArg (mk · c.scInfo) (zeroCells_congr fun k => ?_)
      simp [othersPlanes]
    rw [if_neg hId]
    refine congrArg (mk · c.scInfo) ((zeroCells_zeroCells ..).trans ?_)
    refine zeroCells_congr fun k => ?_
    simp [othersPlanes, hId, or_comm]

theorem clearOthers_applyCopies_iff (h : c.QueueIn) (hs : s < nStream) :
    (c.clearOthers s (range nStream)).applyCopies =
      c.applyCopies.clearOthers s (range nStream) ↔ c.Detached s := by
  rw [clearOthers_eq, clearOthers_eq]
  refine (eq_iff_rows rfl rfl).trans (applyCopies_zero_iff.trans ((zeroSafe_iff h).trans ?_))
  rw [← detached_iff h hs]
  have hOthers : ∀ i < nStream,
      (othersPlanes nStream nRsSeq s (range nStream) i = true ↔ ¬ i = s) := by
    intro i hi
    unfold othersPlanes
    simp only [any_eq_true, mem_range, Bool.and_eq_true, bne_iff_ne,
      inPlanes_ring nRsSeq hi]
    constructor
    · rintro ⟨id, -, hNe, rfl⟩
      exact hNe
    · exact fun hNe => ⟨i, hi, hNe, rfl⟩
  refine forall_congr' fun i => forall_congr' fun hi => ?_
  rw [hOthers i hi, hOthers _ (root_lt h hi), not_iff_not]

theorem seqCp_applyCopies_iff (h : c.QueueIn) {rs : Nat} (hSrc : src < nStream)
    (hNe : src ≠ dst) :
    (c.seqCp src dst).applyCopies = c.applyCopies.seqCpNow rs src dst ↔ c.Copyable rs src dst := by
  have hPlane : c.applyCopies.rows (rs * nStream + src) =
      if rs = 0 then c.rows (c.root src) else c.rows (rs * nStream + src) := by
    change Verified.applyCopies c.scInfo c.rows _ = _
    rw [applyCopies_eq]
    by_cases hRs : rs = 0
    · subst hRs
      rw [Nat.zero_mul, Nat.zero_add]
      rfl
    rw [if_neg hRs]
    have hLe := Nat.le_mul_of_pos_left nStream (Nat.pos_of_ne_zero hRs)
    exact congrArg c.rows (root_outside h (by omega))
  have hSource : (∀ i ≠ dst, c.root i = dst → c.rows dst = 0) →
      zeroCells (fun k => inPlanes nStream nRsSeq dst k = true) c.rows (c.root src) =
        c.rows (c.root src) := by
    intro hOut
    change (if inPlanes nStream nRsSeq dst (c.root src) = true then 0 else c.rows (c.root src)) = _
    split
    · rename_i hRoot
      rw [inPlanes_ring nRsSeq (root_lt h hSrc)] at hRoot
      rw [hRoot, hOut src hNe hRoot]
    · rfl
  have hOthers : (∀ i ≠ dst, (inPlanes nStream nRsSeq dst i = true ↔
        inPlanes nStream nRsSeq dst (c.root i) = true) ∨ c.rows (c.root i) = 0) ↔
      ∀ i ≠ dst, c.root i = dst → c.rows dst = 0 := by
    refine forall_congr' fun i => forall_congr' fun hi => ?_
    by_cases hIn : i < nStream
    · rw [inPlanes_ring nRsSeq hIn, inPlanes_ring nRsSeq (root_lt h hIn)]
      constructor
      · intro hCase hRoot
        rw [hRoot] at hCase
        exact hCase.resolve_left fun hIff => hi (hIff.mpr rfl)
      intro hOut
      by_cases hRoot : c.root i = dst
      · exact Or.inr (hRoot ▸ hOut hRoot)
      · exact Or.inl ⟨fun hEq => absurd hEq hi, fun hEq => absurd hEq hRoot⟩
    · rw [root_outside h (not_lt.mp hIn)]
      exact ⟨fun _ hEq => absurd hEq hi, fun _ => Or.inl Iff.rfl⟩
  unfold seqCp seqCpNow
  rw [if_neg hNe, if_neg hNe]
  refine (eq_iff_rows rfl rfl).trans ((applyCopies_snoc_iff _).trans ?_)
  refine (and_congr_left fun _ => hOthers).trans (and_congr_right fun hOut => ?_)
  rw [hPlane]
  refine (Eq.congr_left (hSource hOut)).trans ?_
  by_cases hRs : rs = 0
  · rw [if_pos hRs]
    exact ⟨fun _ => Or.inl hRs, fun _ => rfl⟩
  · rw [if_neg hRs, eq_comm]
    exact ⟨Or.inr, fun h => h.resolve_left hRs⟩

end CompState

namespace Dsv4Rows

variable {nSeqMax nRsSeq : Nat} {κ ρ : Type} [Zero κ] [Zero ρ]
variable {m : Dsv4Rows nSeqMax nRsSeq κ ρ}

/-! ## Copies that are made at once -/

/-- `seq_cp`, made at once, with a pending rollback of the source applied to the copy. -/
def seqCpNow (m : Dsv4Rows nSeqMax nRsSeq κ ρ) (src dst : Nat) : Dsv4Rows nSeqMax nRsSeq κ ρ where
  cache p := (m.cache p).seqCpNow src dst
  state p := (m.state p).seqCpNow (m.rsIdx src) src dst
  rsIdx := if src = dst then m.rsIdx else Function.update m.rsIdx dst 0

def stepNow (m : Dsv4Rows nSeqMax nRsSeq κ ρ) : Dsv4Call → Dsv4Rows nSeqMax nRsSeq κ ρ
  | .seqCp src dst => m.seqCpNow src dst
  | call => m.step call

/-- A removal concerns no sequence of the queue, and a copy overwrites no source of the queue and
has a source without a pending rollback, unless the rings are equal anyhow. -/
def Faithful (m : Dsv4Rows nSeqMax nRsSeq κ ρ) : Dsv4Call → Prop
  | .clear => True
  | .seqRm seqId p0 p1 raw => p1 < 0 → p0 ≤ 0 → raw.removed = true → 0 ≤ seqId →
      ∀ p, (m.state p).Detached seqId.toNat
  | .seqCp src dst => src ≠ dst → ∀ p, (m.state p).Copyable (m.rsIdx src) src dst
  | .seqKeep s => ∀ p, (m.state p).Detached s

/-- All queues copy between sequences. -/
def QueuesIn (m : Dsv4Rows nSeqMax nRsSeq κ ρ) : Prop := ∀ p, (m.state p).QueueIn

omit [Zero κ] [Zero ρ] in
theorem eq_iff {a b : Dsv4Rows nSeqMax nRsSeq κ ρ} :
    a = b ↔ (∀ p, a.cache p = b.cache p) ∧ (∀ p, a.state p = b.state p) ∧ a.rsIdx = b.rsIdx := by
  constructor
  · rintro rfl
    exact ⟨fun _ => rfl, fun _ => rfl, rfl⟩
  rintro ⟨hCache, hState, hIdx⟩
  cases a
  cases b
  congr
  · exact funext hCache
  · exact funext hState

theorem clearSeq_update_iff (h : m.QueuesIn) (hs : s < nSeqMax) :
    (m.clearSeq s).update = m.update.clearSeq s ↔ ∀ p, (m.state p).Detached s := by
  rw [eq_iff]
  constructor
  · rintro ⟨-, hState, -⟩ p
    exact (clearSeq_applyCopies_iff (h p) hs).mp (hState p)
  · exact fun hSafe => ⟨fun _ => rfl,
      fun p => (clearSeq_applyCopies_iff (h p) hs).mpr (hSafe p), rfl⟩

theorem clearAll_update : m.clearAll.update = m.update.clearAll :=
  eq_iff.mpr ⟨fun _ => rfl, fun _ => clear_applyCopies, rfl⟩

/-! ## One call -/

/-- The clears of `seq_keep` on a compressed cache, on a state and on the indices. -/
theorem seqKeep_cache (s : Nat) (p : Dsv4Part) :
    (m.seqKeep s).cache p = (range nSeqMax).foldl
      (fun c id => if id = s then c else c.clearSeq id) (m.cache p) :=
  (foldl_hom (Dsv4Rows.cache · p) fun _ id => by split <;> rfl).symm

theorem seqKeep_state (s : Nat) (p : Dsv4Part) :
    (m.seqKeep s).state p = (m.state p).clearOthers s (range nSeqMax) :=
  (foldl_hom (Dsv4Rows.state · p) fun _ id => by split <;> rfl).symm

theorem seqKeep_rsIdx (s : Nat) :
    (m.seqKeep s).rsIdx = (range nSeqMax).foldl
      (fun idx id => if id = s then idx else Function.update idx id 0) m.rsIdx :=
  (foldl_hom Dsv4Rows.rsIdx fun _ id => by split <;> rfl).symm

variable (h : m.QueuesIn)

include h

theorem seqKeep_update_iff (hs : s < nSeqMax) :
    (m.seqKeep s).update = m.update.seqKeep s ↔ ∀ p, (m.state p).Detached s := by
  have hCache : ∀ p, (m.seqKeep s).update.cache p = (m.update.seqKeep s).cache p := by
    intro p
    rw [seqKeep_cache]
    change ((m.seqKeep s).cache p).materialize = _
    rw [seqKeep_cache]
    exact (foldl_hom CompCache.materialize fun _ id => by split <;> rfl).symm
  have hIdx : (m.seqKeep s).update.rsIdx = (m.update.seqKeep s).rsIdx := by
    rw [seqKeep_rsIdx]
    exact seqKeep_rsIdx s
  have hState : ∀ p, (m.seqKeep s).update.state p = (m.update.seqKeep s).state p ↔
      (m.state p).Detached s := by
    intro p
    rw [seqKeep_state]
    change ((m.seqKeep s).state p).applyCopies = _ ↔ _
    rw [seqKeep_state]
    exact clearOthers_applyCopies_iff (h p) hs
  rw [eq_iff]
  constructor
  · rintro ⟨-, hAll, -⟩ p
    exact (hState p).mp (hAll p)
  · exact fun hAll => ⟨hCache, fun p => (hState p).mpr (hAll p), hIdx⟩

omit [Zero κ] in
theorem seqCp_update_iff (hSrc : src < nSeqMax) :
    (m.seqCp src dst).update = m.update.seqCpNow src dst ↔
      (src ≠ dst → ∀ p, (m.state p).Copyable (m.rsIdx src) src dst) := by
  have hCache : ∀ p, ((m.seqCp src dst).update).cache p = (m.update.seqCpNow src dst).cache p :=
    fun p => CompCache.seqCp_materialize (m.cache p) src dst
  have hState : ∀ p, ((m.seqCp src dst).update).state p = (m.update.seqCpNow src dst).state p ↔
      (src ≠ dst → (m.state p).Copyable (m.rsIdx src) src dst) := by
    intro p
    by_cases hSame : src = dst
    · subst hSame
      refine ⟨fun _ hNe => absurd rfl hNe, fun _ => ?_⟩
      change ((m.state p).seqCp src src).applyCopies =
        (m.state p).applyCopies.seqCpNow (m.rsIdx src) src src
      rw [CompState.seqCp, CompState.seqCpNow, if_pos rfl, if_pos rfl]
    · refine (seqCp_applyCopies_iff (h p) hSrc hSame).trans ?_
      exact ⟨fun hCopy _ => hCopy, fun hCopy => hCopy hSame⟩
  rw [eq_iff]
  constructor
  · rintro ⟨-, hAll, -⟩ hNe p
    exact (hState p).mp (hAll p) hNe
  · exact fun hCopy => ⟨hCache, fun p => (hState p).mpr fun hNe => hCopy hNe p, rfl⟩

variable {seqId : Int}

theorem clearCompressed_update_iff (hIn : seqId < nSeqMax) :
    (m.clearCompressed seqId).update = m.update.clearCompressed seqId ↔
      (0 ≤ seqId → ∀ p, (m.state p).Detached seqId.toNat) := by
  unfold clearCompressed
  by_cases hNeg : seqId < 0
  · rw [if_pos hNeg, if_pos hNeg]
    exact ⟨fun _ hPos => absurd hNeg (not_lt.mpr hPos), fun _ => clearAll_update⟩
  · rw [if_neg hNeg, if_neg hNeg, clearSeq_update_iff h (by omega)]
    exact ⟨fun hAll _ => hAll, fun hAll => hAll (not_lt.mp hNeg)⟩

variable {p0 p1 : Int} {raw : RawAnswer}

omit h in
theorem seqRm_update_of_kept (hKept : ¬(p1 < 0 ∧ p0 ≤ 0 ∧ raw.removed = true)) :
    (m.seqRm seqId p0 p1 raw).update = m.update.seqRm seqId p0 p1 raw := by
  unfold seqRm
  by_cases hEnd : 0 ≤ p1
  · rw [if_pos hEnd, if_pos hEnd]
  rw [if_neg hEnd, if_neg hEnd]
  by_cases hPos : 0 < p0
  · dsimp only
    split_ifs <;> rfl
  have hRaw : ¬raw.removed = true := fun hRemoved =>
    hKept ⟨not_le.mp hEnd, not_lt.mp hPos, hRemoved⟩
  rw [if_neg hPos, if_neg hPos, if_neg hRaw, if_neg hRaw]

theorem seqRm_update_iff (hIn : Asserted nSeqMax (.seqRm seqId p0 p1 raw)) :
    (m.seqRm seqId p0 p1 raw).update = m.update.seqRm seqId p0 p1 raw ↔
      m.Faithful (.seqRm seqId p0 p1 raw) := by
  by_cases hKept : p1 < 0 ∧ p0 ≤ 0 ∧ raw.removed = true
  · obtain ⟨hEnd, hPos, hRaw⟩ := hKept
    unfold seqRm
    rw [if_neg (not_le.mpr hEnd), if_neg (not_le.mpr hEnd), if_neg (not_lt.mpr hPos),
      if_neg (not_lt.mpr hPos), if_pos hRaw, if_pos hRaw]
    refine (clearCompressed_update_iff h (hIn hEnd hPos hRaw)).trans ?_
    exact ⟨fun hAll _ _ _ => hAll, fun hAll => hAll hEnd hPos hRaw⟩
  · refine ⟨fun _ hEnd hPos hRaw => absurd ⟨hEnd, hPos, hRaw⟩ hKept, fun _ => ?_⟩
    exact seqRm_update_of_kept hKept

variable {call : Dsv4Call}

/-- Whether deferring the copies past one more call changes anything. -/
theorem step_update_iff (hAsserted : Asserted nSeqMax call) :
    (m.step call).update = m.update.stepNow call ↔ m.Faithful call := by
  cases call with
  | clear => exact ⟨fun _ => trivial, fun _ => clearAll_update⟩
  | seqRm seqId p0 p1 raw => exact seqRm_update_iff h hAsserted
  | seqCp src dst => exact seqCp_update_iff h hAsserted.1
  | seqKeep s => exact seqKeep_update_iff h hAsserted

/-! ## Runs -/

theorem queuesIn_clearCompressed (seqId : Int) : (m.clearCompressed seqId).QueuesIn := by
  unfold clearCompressed
  split
  · exact h
  · exact h

theorem queuesIn_seqRm (seqId p0 p1 : Int) (raw : RawAnswer) :
    (m.seqRm seqId p0 p1 raw).QueuesIn := by
  unfold seqRm
  dsimp only
  split_ifs <;> first | exact h | exact queuesIn_clearCompressed h seqId

omit [Zero κ] in
theorem queuesIn_seqCp (hSrc : src < nSeqMax)
    (hDst : dst < nSeqMax) : (m.seqCp src dst).QueuesIn := by
  intro p copy hCopy
  by_cases hSame : src = dst
  · refine h p copy ?_
    change copy ∈ ((m.state p).seqCp src dst).scInfo at hCopy
    rwa [CompState.seqCp, if_pos hSame] at hCopy
  change copy ∈ ((m.state p).seqCp src dst).scInfo at hCopy
  rw [CompState.seqCp, if_neg hSame] at hCopy
  rcases mem_append.mp hCopy with hOld | hNew
  · exact h p copy hOld
  · cases mem_singleton.mp hNew
    exact ⟨hSrc, hDst⟩

theorem queuesIn_seqKeep (s : Nat) : (m.seqKeep s).QueuesIn := by
  intro p
  rw [seqKeep_state, clearOthers_eq]
  exact h p

theorem queuesIn_step (hAsserted : Asserted nSeqMax call) : (m.step call).QueuesIn := by
  cases call with
  | clear => exact h
  | seqRm seqId p0 p1 raw => exact queuesIn_seqRm h seqId p0 p1 raw
  | seqCp src dst => exact queuesIn_seqCp h hAsserted.1 hAsserted.2
  | seqKeep s => exact queuesIn_seqKeep h s

/-- The calls, made one after the other. -/
def run (m : Dsv4Rows nSeqMax nRsSeq κ ρ) (calls : List Dsv4Call) : Dsv4Rows nSeqMax nRsSeq κ ρ :=
  calls.foldl step m

def runNow (m : Dsv4Rows nSeqMax nRsSeq κ ρ) (calls : List Dsv4Call) :
    Dsv4Rows nSeqMax nRsSeq κ ρ :=
  calls.foldl stepNow m

/-- Every call of the run is faithful in the state that it is made in, so that the copies that wait
for the update find there what they would have found at once. -/
def FaithfulRun (m : Dsv4Rows nSeqMax nRsSeq κ ρ) : List Dsv4Call → Prop
  | [] => True
  | call :: calls => m.Faithful call ∧ FaithfulRun (m.step call) calls

theorem run_update_iff {calls : List Dsv4Call} (hAsserted : ∀ call ∈ calls, Asserted nSeqMax call) :
    (∀ l, l <+: calls → (m.run l).update = m.update.runNow l) ↔ m.FaithfulRun calls := by
  induction calls generalizing m with
  | nil =>
    refine ⟨fun _ => trivial, fun _ l hl => ?_⟩
    cases prefix_nil.mp hl
    rfl
  | cons call calls ih =>
    have hFirst := hAsserted call (by simp)
    have hStep := step_update_iff h hFirst
    have hRest := ih (queuesIn_step h hFirst) fun c hc => hAsserted c (by simp [hc])
    constructor
    · intro hAll
      have hCall : (m.step call).update = m.update.stepNow call :=
        hAll [call] ⟨calls, rfl⟩
      refine ⟨hStep.mp hCall, hRest.mp fun l hl => ?_⟩
      rw [hCall]
      exact hAll (call :: l) ((cons_prefix_cons).mpr ⟨rfl, hl⟩)
    rintro ⟨hCall, hTail⟩ l hl
    cases l with
    | nil => rfl
    | cons c l =>
      obtain ⟨rfl, hPre⟩ := cons_prefix_cons.mp hl
      have hNext := hRest.mpr hTail l hPre
      rw [hStep.mpr hCall] at hNext
      exact hNext

omit h

/-- For every sequence of calls between two updates, the update leaves what immediate copies
leave, whenever it comes, exactly when every call is faithful. -/
theorem deferred_iff (m : Dsv4Rows nSeqMax nRsSeq κ ρ) {calls : List Dsv4Call}
    (hAsserted : ∀ call ∈ calls, Asserted nSeqMax call) :
    (∀ l, l <+: calls → (m.update.run l).update = m.update.runNow l) ↔
      m.update.FaithfulRun calls :=
  run_update_iff (fun _ _ hCopy => absurd hCopy not_mem_nil) hAsserted

/-! ### A copy that is queued and lost -/

/-- Two sequences with one snapshot each: the ring of sequence 0 is 7, and was 5. -/
def twoRings : Dsv4Rows 2 1 Nat Nat where
  cache _ := { rows := 0 }
  state _ := { rows := fun k _ => if k = 0 then 7 else if k = 2 then 5 else 0 }

/-- The removal of a whole sequence, and one of its last token. -/
def removeAll : Dsv4Call := .seqRm 0 (-1) (-1) ⟨3, true⟩

def removeLast : Dsv4Call := .seqRm 0 3 (-1) ⟨3, true⟩

/-- The rollback of the source comes after the copy was queued and leaves its ring as it is. -/
theorem twoRings_copied : (twoRings.update.run [.seqCp 0 1, removeLast]).update =
    twoRings.update.runNow [.seqCp 0 1, removeLast] := by
  have hFaithful : twoRings.update.FaithfulRun [.seqCp 0 1, removeLast] := by
    refine ⟨?_, ?_, trivial⟩
    · exact fun _ _ => ⟨fun i hi hRoot => absurd hRoot hi, Or.inl rfl⟩
    · exact fun _ hPos => absurd hPos (by decide)
  exact (deferred_iff twoRings (by decide)).mpr hFaithful _ (prefix_refl _)

/-- The source is removed before the copy is made, and the copy has the ring from before the
rollback. -/
theorem twoRings_lost :
    (((twoRings.run [.seqCp 0 1, removeAll]).update.state .csa).rows 1 0 = 0 ∧
        ((twoRings.runNow [.seqCp 0 1, removeAll]).state .csa).rows 1 0 = 7) ∧
      (((twoRings.run [removeLast, .seqCp 0 1]).update.state .csa).rows 1 0 = 7 ∧
        ((twoRings.runNow [removeLast, .seqCp 0 1]).state .csa).rows 1 0 = 5) ∧
      ¬ ∀ calls : List Dsv4Call, (∀ call ∈ calls, Asserted 2 call) →
        (twoRings.update.run calls).update = twoRings.update.runNow calls := by
  refine ⟨by decide, by decide, fun hAll => ?_⟩
  have hRow := congrArg (fun m => (m.state .csa).rows 1 0)
    (hAll [.seqCp 0 1, removeAll] (by decide))
  revert hRow
  decide

end Dsv4Rows

end Beellama.Ports
