import Beellama.Ports.Dsv4Ring
import Beellama.Verified.Run
import Mathlib.Algebra.Order.Ring.Int

/-!
# Rollbacks of the compressor states

The trace of a run keeps, beside the memory, the surviving tokens of every sequence and those that
were removed since its last batch.  `rs_idx` holds the length of the last rollback only, and a
micro-batch with few tokens shifts the snapshots as if nothing had been removed.  `rings_kept`: the
rings and snapshots are right in runs in which no batch meets one of these (`Dsv4Trace.Ready`).
-/

namespace Beellama.Ports

open Beellama.Verified List Function Micro Dsv4Rows Dsv4Graph

variable {κ ρ : Type}

/-! ## Histories -/

namespace Micro

/-- The rows of the tokens of a sequence. -/
def tokens (b : Micro ρ) (s : Nat) : List (Dsv4Part → ρ) :=
  (b.u.tokenIdxs s).map fun i p => b.rows p i

/-- The tokens of all sequences after the micro-batch. -/
def advance (h : Nat → List (Dsv4Part → ρ)) (b : Micro ρ) (s : Nat) : List (Dsv4Part → ρ) :=
  h s ++ b.tokens s

/-- What is removed of a sequence is gone for good when the sequence goes on. -/
def settle (removed : Nat → List (Dsv4Part → ρ)) (b : Micro ρ) (s : Nat) : List (Dsv4Part → ρ) :=
  if s ∈ b.u.seqIdUnq then [] else removed s

theorem tokens_map (b : Micro ρ) (p : Dsv4Part) (s : Nat) :
    (b.tokens s).map (· p) = b.tokenRows p s := by
  unfold tokens tokenRows
  rw [map_map]
  rfl

theorem tokens_length (b : Micro ρ) (p : Dsv4Part) (s : Nat) :
    (b.tokenRows p s).length = (b.tokens s).length := by
  rw [← tokens_map, length_map]

theorem advance_map (h : Nat → List (Dsv4Part → ρ)) (b : Micro ρ) (p : Dsv4Part) (s : Nat) :
    (advance h b s).map (· p) = (h s).map (· p) ++ b.tokenRows p s := by
  unfold advance
  rw [map_append, tokens_map]

end Micro

/-- The micro-batches of a batch continue the tokens one after the other. -/
def ContinuesAll (nSeqMax : Nat) (h : Nat → List (Dsv4Part → ρ)) : List (Micro ρ) → Prop
  | [] => True
  | b :: bs =>
    b.u.Continues nSeqMax (fun s => (h s).length) ∧ ContinuesAll nSeqMax (b.advance h) bs

/-- The sequence has tokens in the batch. -/
def Occurs (bs : List (Micro ρ)) (s : Nat) : Prop := ∃ b ∈ bs, s ∈ b.u.seqIdUnq

instance (bs : List (Micro ρ)) (s : Nat) : Decidable (Occurs bs s) :=
  inferInstanceAs (Decidable (∃ b ∈ bs, s ∈ b.u.seqIdUnq))

/-- Every micro-batch reads the ring of the tokens before it, and leaves in snapshot `d` the
ring of all tokens but the last `d`. -/
def RingsKept [Zero ρ] (g : Dsv4Graph κ ρ) (p : Dsv4Part) (a : PlanArgs)
    (h : Nat → List (Dsv4Part → ρ)) (rows : Nat → Nat → ρ) (cache : Nat → Nat → κ) :
    List (Micro ρ × CompPlan) → Prop
  | [] => True
  | (b, plan) :: rest =>
    let next := g.execute p a plan b rows cache
    (∀ s ∈ b.u.seqIdUnq, ∀ r < a.stateSize,
      plan.restore a rows s r = ringOf a.stateSize ((h s).map (· p)) r) ∧
    (∀ s ∈ b.u.seqIdUnq, ∀ d, 1 ≤ d → d ≤ a.nRsSeq → d ≤ (b.advance h s).length →
      ∀ r < a.stateSize, next.1 (d * a.nStream + s) r =
        ringBefore a.stateSize d ((b.advance h s).map (· p)) r) ∧
    RingsKept g p a (b.advance h) next.1 next.2 rest

/-! ## Runs -/

namespace Dsv4Rows

variable {nSeqMax nRsSeq : Nat}

/-- What `seq_rm` returns.  The compressed caches have no cells to remove. -/
def seqRmReturns (_ : Dsv4Rows nSeqMax nRsSeq κ ρ) (seqId p0 p1 : Int) (raw : RawAnswer) : Bool :=
  if 0 ≤ p1 then false
  else if 0 < p0 then
    if seqId < 0 ∨ nSeqMax ≤ seqId then false
    else if raw.posMax < p0 then raw.removed
    else if nRsSeq = 0 then false
    else
      let rollback := raw.posMax - (p0 - 1)
      if rollback < 1 ∨ nRsSeq < rollback then false else raw.removed
  else raw.removed

end Dsv4Rows

/-- The memory, with what happened to the tokens of every sequence. -/
structure Dsv4Trace (nSeqMax nRsSeq : Nat) (κ ρ : Type) where
  mem : Dsv4Rows nSeqMax nRsSeq κ ρ
  /-- the surviving tokens -/
  tokens : Nat → List (Dsv4Part → ρ)
  /-- the tokens that were removed since the last batch of the sequence -/
  removed : Nat → List (Dsv4Part → ρ)

inductive Dsv4Event (ρ : Type)
  | batch (bs : List (Micro ρ))
  /-- `seq_rm(seq_id, p0, -1)` -/
  | seqRm (seqId p0 : Int)

namespace Dsv4Trace

variable {nSeqMax nRsSeq : Nat}

/-- The raw cache has the surviving tokens and removes what it is asked to. -/
def raw (c : Dsv4Trace nSeqMax nRsSeq κ ρ) (seqId : Int) : RawAnswer :=
  ⟨(c.tokens seqId.toNat).length - 1, true⟩

/-- The memory after a batch, and the tokens that it appends. -/
def decoded (c : Dsv4Trace nSeqMax nRsSeq κ ρ) (bs : List (Micro ρ))
    (m : Dsv4Rows nSeqMax nRsSeq κ ρ) : Dsv4Trace nSeqMax nRsSeq κ ρ where
  mem := m
  tokens := bs.foldl Micro.advance c.tokens
  removed := bs.foldl Micro.settle c.removed

variable [Zero κ] [Zero ρ]

/-- A removal.  What is removed by a clear does not come back. -/
def remove (c : Dsv4Trace nSeqMax nRsSeq κ ρ) (seqId p0 : Int) : Dsv4Trace nSeqMax nRsSeq κ ρ where
  mem := c.mem.seqRm seqId p0 (-1) (c.raw seqId)
  tokens s := if seqId < 0 ∨ seqId = s then (c.tokens s).take p0.toNat else c.tokens s
  removed s :=
    if seqId < 0 ∨ seqId = s then
      if p0 ≤ 0 then [] else (c.tokens s).drop p0.toNat ++ c.removed s
    else c.removed s

/-- A batch that is decoded, or a removal that returns true. -/
def step (g : Dsv4Graph κ ρ) (kvSize : Nat) :
    Dsv4Event ρ → Dsv4Trace nSeqMax nRsSeq κ ρ → Dsv4Trace nSeqMax nRsSeq κ ρ → Prop
  | .batch bs, c, c' =>
    ContinuesAll nSeqMax c.tokens bs ∧
      ∃ m, c.mem.decode g kvSize bs = .ok m ∧ c' = c.decoded bs m
  | .seqRm seqId p0, c, c' =>
    Dsv4Rows.Asserted nSeqMax (.seqRm seqId p0 (-1) (c.raw seqId)) ∧
      c.mem.seqRmReturns seqId p0 (-1) (c.raw seqId) = true ∧ c' = c.remove seqId p0

/-- No tokens. -/
def empty (nSeqMax nRsSeq : Nat) (κ ρ : Type) [Zero κ] [Zero ρ] : Dsv4Trace nSeqMax nRsSeq κ ρ where
  mem := Dsv4Rows.empty nSeqMax nRsSeq κ ρ
  tokens _ := []
  removed _ := []

omit [Zero κ]

/-- The rings are kept in all parts while a batch is decoded. -/
def Keeps (g : Dsv4Graph κ ρ) (kvSize : Nat) (c : Dsv4Trace nSeqMax nRsSeq κ ρ)
    (bs : List (Micro ρ)) : Prop :=
  ∀ p plans, c.mem.buildCompPlans kvSize bs p = .ok plans →
    RingsKept g p (p.planArgs kvSize nSeqMax nRsSeq) c.tokens (c.mem.state p).rows
      (c.mem.cache p).rows (bs.zip plans)

omit [Zero ρ]

/-- A batch has one micro-batch only of a sequence with removed tokens, with at least `n_rs_seq`
tokens of it, and one rollback removed them. -/
def Ready (c : Dsv4Trace nSeqMax nRsSeq κ ρ) (bs : List (Micro ρ)) : Prop :=
  ∀ s, Occurs bs s → c.removed s ≠ [] →
    c.mem.rsIdx s = (c.removed s).length ∧ bs.countP (s ∈ ·.u.seqIdUnq) = 1 ∧
      ∀ b ∈ bs, s ∈ b.u.seqIdUnq → nRsSeq ≤ (b.tokens s).length

/-- The batches of a run are ready. -/
def Allowed : Dsv4Event ρ → Dsv4Trace nSeqMax nRsSeq κ ρ → Prop
  | .batch bs, c => c.Ready bs
  | .seqRm _ _, _ => True

end Dsv4Trace

/-! ## One part, through a batch -/

variable {plans : List CompPlan}

namespace PlanArgs

variable {a : PlanArgs} {rsIdx : Nat → Nat} {g : Dsv4Graph κ ρ} {p : Dsv4Part}
  {h removed : Nat → List (Dsv4Part → ρ)} {rows : Nat → Nat → ρ} {cache : Nat → Nat → κ}
  {b : Micro ρ} {bs : List (Micro ρ)} {plan : CompPlan} {s : Nat}

/-- The plans of the micro-batches of a batch. -/
def PlansOf (a : PlanArgs) (rsIdx : Nat → Nat) (bs : List (Micro ρ)) (plans : List CompPlan) :
    Prop := List.Forall₂ (fun b plan => buildCompPlan a rsIdx b.u = .ok plan) bs plans

/-- The plane that `rs_idx` names is that of the surviving tokens, and a sequence with a
rollback has one micro-batch, which is not short. -/
def RollbackFits (a : PlanArgs) (rsIdx : Nat → Nat) (removed : Nat → List (Dsv4Part → ρ))
    (bs : List (Micro ρ)) : Prop :=
  ∀ s, Occurs bs s → rsIdx s ≤ a.nRsSeq ∧ rsIdx s = (removed s).length ∧
    (rsIdx s ≠ 0 → bs.countP (s ∈ ·.u.seqIdUnq) = 1 ∧
      ∀ b ∈ bs, s ∈ b.u.seqIdUnq → a.nRsSeq ≤ (b.tokens s).length)

variable (hFits : a.RollbackFits rsIdx removed (b :: bs))

include hFits

theorem RollbackFits.tail : a.RollbackFits rsIdx (b.settle removed) bs := by
  rintro s ⟨b', hb', hs⟩
  obtain ⟨hLe, hLength, hOnce⟩ := hFits s ⟨b', mem_cons_of_mem _ hb', hs⟩
  unfold settle
  by_cases hHead : s ∈ b.u.seqIdUnq
  · have hZero : rsIdx s = 0 := by
      by_contra hNe
      have hCount := (hOnce hNe).1
      have hPos : 0 < bs.countP (s ∈ ·.u.seqIdUnq) :=
        countP_pos_iff.mpr ⟨b', hb', decide_eq_true hs⟩
      rw [countP_cons, if_pos (decide_eq_true hHead)] at hCount
      omega
    rw [if_pos hHead]
    exact ⟨hLe, hZero, fun hNe => absurd hZero hNe⟩
  rw [if_neg hHead]
  refine ⟨hLe, hLength, fun hNe => ⟨?_, fun x hx => (hOnce hNe).2 x (mem_cons_of_mem _ hx)⟩⟩
  rw [← (hOnce hNe).1, countP_cons, if_neg (by simpa using hHead), Nat.add_zero]

variable [Zero ρ]

/-- Plane `d` of a sequence is the ring of all its tokens, removed ones included, but the
last `d`. -/
def PlanesOf (a : PlanArgs) (p : Dsv4Part) (h removed : Nat → List (Dsv4Part → ρ))
    (rows : Nat → Nat → ρ) : Prop :=
  ∀ s < a.nStream, ∀ d ≤ a.nRsSeq, d ≤ (h s ++ removed s).length → ∀ r < a.stateSize,
    rows (d * a.nStream + s) r = ringBefore a.stateSize d ((h s ++ removed s).map (· p)) r

variable {r : Nat}

variable (hPlanes : a.PlanesOf p h removed rows)

include hPlanes

/-- A sequence of the micro-batch continues from the ring of its surviving tokens. -/
theorem PlanesOf.restored (hs : s ∈ b.u.seqIdUnq) (hIn : s < a.nStream) (hr : r < a.stateSize) :
    rows (a.restorePlane rsIdx s * a.nStream + s) r = ringOf a.stateSize ((h s).map (· p)) r := by
  obtain ⟨hLe, hLength, -⟩ := hFits s ⟨b, mem_cons_self, hs⟩
  have hPlane : a.restorePlane rsIdx s = ((removed s).map (· p)).length := by
    unfold restorePlane
    rw [length_map]
    split <;> omega
  rw [hPlane, hPlanes s hIn _ (by rw [length_map]; omega)
    (by rw [length_map, length_append]; omega) r hr, map_append,
    ringBefore_append_self]

theorem PlanesOf.execute (hMoves : a.Moves rsIdx b.u plan)
    (hCont : b.u.Continues a.nStream fun s => (h s).length) :
    a.PlanesOf p (b.advance h) (b.settle removed) (g.execute p a plan b rows cache).1 := by
  intro s hIn d hd hLe r hr
  by_cases hs : s ∈ b.u.seqIdUnq
  · have hSettled : b.settle removed s = [] := if_pos hs
    have hRing : rows (a.restorePlane rsIdx s * a.nStream + s) r =
        ringOf a.stateSize ((h s).map (· p)) r := hPlanes.restored hFits hs hIn hr
    rw [hSettled, append_nil] at hLe ⊢
    rw [advance_map]
    rcases Nat.eq_zero_or_pos d with rfl | hPos
    · rw [Nat.zero_mul, Nat.zero_add, execute_ring hCont hMoves hr hs, ringBefore_zero,
        ringOf_append, length_map]
      exact pushRing_congr hRing _ _
    rw [execute_snapshot hCont hMoves hr hs hPos hd]
    split
    · rename_i hFew
      rw [ringBefore_append _ hFew, length_map]
      exact pushRing_congr hRing _ _
    rename_i hMany
    obtain ⟨-, hLength, hOnce⟩ := hFits s ⟨b, mem_cons_self, hs⟩
    have hNone : removed s = [] := by
      by_contra hSome
      have hPos := length_pos_iff.mpr hSome
      have hEnough := (hOnce (by omega)).2 b mem_cons_self hs
      rw [b.tokens_length] at hMany
      omega
    have hLong : d ≤ (h s).length + (b.tokenRows p s).length := by
      rw [b.tokens_length, ← length_append]
      exact hLe
    rw [ringBefore_append_of_le _ (by omega), hPlanes s hIn _ (by omega)
      (by rw [hNone, append_nil]; omega) r hr, hNone, append_nil]
  have hSettled : b.settle removed s = removed s := if_neg hs
  have hSame : b.advance h s = h s := by
    unfold advance tokens
    rw [tokenIdxs_eq_nil hCont hs, map_nil, append_nil]
  rw [hSettled, hSame] at hLe ⊢
  rw [execute_other hCont hMoves hr hIn hs]
  exact hPlanes s hIn d hd hLe r hr

omit hFits

/-- A batch keeps the planes and, at every micro-batch, the rings. -/
theorem PlanesOf.executeAll (hFits : a.RollbackFits rsIdx removed bs)
    (hPlans : a.PlansOf rsIdx bs plans)
    (hCont : ContinuesAll a.nStream h bs) :
    RingsKept g p a h rows cache (bs.zip plans) ∧
      a.PlanesOf p (bs.foldl Micro.advance h) (bs.foldl Micro.settle removed)
        (g.executeAll p a rows cache (bs.zip plans)).1 := by
  induction hPlans generalizing h removed rows cache with
  | nil => exact ⟨trivial, hPlanes⟩
  | @cons b plan bs plans hPlan _ ih =>
    obtain ⟨hFirst, hRest⟩ := hCont
    have hMoves : a.Moves rsIdx b.u plan :=
      buildCompPlan_moves (fun i hi s hs => hFirst.seqsIn hi hs) hPlan
    have hNext : a.PlanesOf p (b.advance h) (b.settle removed)
        (g.execute p a plan b rows cache).1 := hPlanes.execute hFits hMoves hFirst
    obtain ⟨hKept, hLast⟩ : RingsKept g p a (b.advance h) _ (g.execute p a plan b rows cache).2 _ ∧
        _ := ih hNext hFits.tail hRest
    refine ⟨⟨fun s hs r hr => ?_, fun s hs d _ hd hLe r hr => ?_, hKept⟩, hLast⟩
    · rw [Moves.restore_ring hMoves hFirst hr hs]
      exact hPlanes.restored hFits hs (hFirst.below s hs) hr
    have hSettled : b.settle removed s = [] := if_pos hs
    have hPlane := hNext s (hFirst.below s hs) d hd
    rw [hSettled, append_nil] at hPlane
    exact hPlane hLe r hr

/-- The restored plane is the ring of the surviving tokens, and a snapshot older than the
micro-batch is moved from the right plane. -/
theorem PlanesOf.of_kept {rest : List (Micro ρ × CompPlan)}
    (hKept : RingsKept g p a h rows cache ((b, plan) :: rest)) (hMoves : a.Moves rsIdx b.u plan)
    (hCont : b.u.Continues a.nStream fun s => (h s).length) (hs : s ∈ b.u.seqIdUnq)
    (hr : r < a.stateSize) :
    (rsIdx s ≤ a.nRsSeq → rsIdx s ≤ (h s ++ removed s).length →
      ringBefore a.stateSize (rsIdx s) ((h s ++ removed s).map (· p)) r =
        ringOf a.stateSize ((h s).map (· p)) r) ∧
    ∀ d ≤ a.nRsSeq, (b.tokens s).length < d → d ≤ (b.advance h s).length →
      ringBefore a.stateSize (d - (b.tokens s).length) ((h s ++ removed s).map (· p)) r =
        ringBefore a.stateSize d ((b.advance h s).map (· p)) r := by
  obtain ⟨hRestored, hSnapshots, -⟩ := hKept
  have hIn := hCont.below s hs
  refine ⟨fun hLe hLength => ?_, fun d hd hLong hLe => ?_⟩
  · have hPlane : a.restorePlane rsIdx s = rsIdx s := by
      unfold restorePlane
      split <;> omega
    rw [← hRestored s hs r hr, Moves.restore_ring hMoves hCont hr hs, hPlane]
    exact (hPlanes s hIn _ hLe hLength r hr).symm
  have hOld : d - (b.tokens s).length ≤ (h s ++ removed s).length := by
    unfold advance at hLe
    rw [length_append] at hLe ⊢
    omega
  have hAfter := hSnapshots s hs d (by omega) hd hLe r hr
  rw [execute_snapshot hCont hMoves hr hs (by omega) hd, b.tokens_length,
    if_neg (by omega)] at hAfter
  rw [← hAfter]
  exact (hPlanes s hIn _ (by omega) hOld r hr).symm

end PlanArgs

/-! ## All parts, through a run -/

namespace Dsv4Trace

variable {nSeqMax nRsSeq kvSize : Nat} {g : Dsv4Graph κ ρ}
  {c c' : Dsv4Trace nSeqMax nRsSeq κ ρ} {bs : List (Micro ρ)} {s : Nat}

theorem planArgs_nStream (p : Dsv4Part) : (p.planArgs kvSize nSeqMax nRsSeq).nStream = nSeqMax := by
  cases p <;> rfl

theorem planArgs_nRsSeq (p : Dsv4Part) : (p.planArgs kvSize nSeqMax nRsSeq).nRsSeq = nRsSeq := by
  cases p <;> rfl

variable {m : Dsv4Rows nSeqMax nRsSeq κ ρ}

theorem buildCompPlans_plansOf {p : Dsv4Part}
    (h : m.buildCompPlans kvSize bs p = .ok plans) :
    (p.planArgs kvSize nSeqMax nRsSeq).PlansOf m.rsIdx bs plans := forall₂_of_mapM h

theorem decode_eq {m' : Dsv4Rows nSeqMax nRsSeq κ ρ} (h : m.decode g kvSize bs = .ok m') :
    m'.rsIdx = m.resetRsIdx bs ∧ ∀ p, ∃ plans, m.buildCompPlans kvSize bs p = .ok plans ∧
      (m'.state p).rows = (g.executeAll p (p.planArgs kvSize nSeqMax nRsSeq) (m.state p).rows
        (m.cache p).rows (bs.zip plans)).1 := by
  unfold decode at h
  cases hCsa : m.buildCompPlans kvSize bs .csa with
  | error e => rw [hCsa] at h; cases h
  | ok csa =>
    cases hHca : m.buildCompPlans kvSize bs .hca with
    | error e => rw [hCsa, hHca] at h; cases h
    | ok hca =>
      cases hLid : m.buildCompPlans kvSize bs .lid with
      | error e => rw [hCsa, hHca, hLid] at h; cases h
      | ok lid =>
        rw [hCsa, hHca, hLid] at h
        cases h
        refine ⟨rfl, fun p => ?_⟩
        cases p with
        | csa => exact ⟨csa, hCsa, rfl⟩
        | hca => exact ⟨hca, hHca, rfl⟩
        | lid => exact ⟨lid, hLid, rfl⟩

theorem settle_foldl (bs : List (Micro ρ)) (removed : Nat → List (Dsv4Part → ρ)) (s : Nat) :
    bs.foldl Micro.settle removed s = if Occurs bs s then [] else removed s := by
  induction bs generalizing removed with
  | nil => exact (if_neg (by rintro ⟨b, hb, -⟩; cases hb)).symm
  | cons b bs ih =>
    rw [foldl_cons, ih]
    have hOccurs : Occurs (b :: bs) s ↔ s ∈ b.u.seqIdUnq ∨ Occurs bs s :=
      exists_mem_cons_iff _ _ _
    unfold settle
    by_cases hHead : s ∈ b.u.seqIdUnq
    · rw [if_pos hHead, ite_self, if_pos (hOccurs.mpr (Or.inl hHead))]
    · rw [if_neg hHead]
      exact if_congr (by rw [hOccurs, or_iff_right hHead]) rfl rfl

variable {h : Nat → List (Dsv4Part → ρ)}

theorem ContinuesAll.mem {b : Micro ρ}
    (hCont : ContinuesAll nSeqMax h bs) (hb : b ∈ bs) : ∃ start, b.u.Continues nSeqMax start := by
  induction bs generalizing h with
  | nil => cases hb
  | cons x bs ih =>
    rcases mem_cons.mp hb with rfl | hRest
    · exact ⟨_, hCont.1⟩
    · exact ih hCont.2 hRest

theorem resetRsIdx_eq (hCont : ContinuesAll nSeqMax h bs) (hBounded : m.rsIdx s ≤ nRsSeq) :
    m.resetRsIdx bs s = if Occurs bs s then 0 else m.rsIdx s := by
  unfold resetRsIdx
  by_cases hOccurs : Occurs bs s
  · split
    · rfl
    rename_i hNot
    obtain ⟨b, hb, hs⟩ := hOccurs
    obtain ⟨start, hFirst⟩ := ContinuesAll.mem hCont hb
    have hZero : nRsSeq = 0 := by
      by_contra hPos
      exact hNot ⟨hPos, hFirst.below s hs, b, hb, (hFirst.unq s).mp hs⟩
    omega
  rw [if_neg hOccurs, if_neg]
  rintro ⟨-, -, b, hb, hTok⟩
  obtain ⟨start, hFirst⟩ := ContinuesAll.mem hCont hb
  exact hOccurs ⟨b, hb, (hFirst.unq s).mpr hTok⟩

variable [Zero ρ]

/-- The planes of all parts are those of the tokens, and a rollback is pending only where
tokens were removed. -/
structure Invariant (kvSize : Nat) (c : Dsv4Trace nSeqMax nRsSeq κ ρ) : Prop where
  planes : ∀ p : Dsv4Part,
    (p.planArgs kvSize nSeqMax nRsSeq).PlanesOf p c.tokens c.removed (c.mem.state p).rows
  pending : ∀ s, c.removed s = [] → c.mem.rsIdx s = 0
  bounded : ∀ s, c.mem.rsIdx s ≤ nRsSeq

variable (hInv : c.Invariant kvSize)

include hInv

theorem Invariant.fits (hReady : c.Ready bs) (p : Dsv4Part) :
    (p.planArgs kvSize nSeqMax nRsSeq).RollbackFits c.mem.rsIdx c.removed bs := by
  intro s hs
  rw [planArgs_nRsSeq]
  by_cases hNone : c.removed s = []
  · have hZero := hInv.pending s hNone
    rw [hNone]
    exact ⟨hInv.bounded s, hZero, fun hNe => absurd hZero hNe⟩
  · obtain ⟨hLength, hOnce⟩ := hReady s hs hNone
    exact ⟨hInv.bounded s, hLength, fun _ => hOnce⟩

variable [Zero κ]

theorem Invariant.batch (hReady : c.Ready bs)
    (hStep : step g kvSize (.batch bs) c c') : c'.Invariant kvSize := by
  obtain ⟨hCont, m, hDecode, rfl⟩ := hStep
  obtain ⟨hRsIdx, hParts⟩ := decode_eq hDecode
  have hReset : ∀ s, m.rsIdx s = if Occurs bs s then 0 else c.mem.rsIdx s := fun s => by
    rw [hRsIdx]
    exact resetRsIdx_eq hCont (hInv.bounded s)
  refine ⟨fun p => ?_, fun s hNone => ?_, fun s => ?_⟩
  · obtain ⟨plans, hPlans, hRows⟩ := hParts p
    change PlanArgs.PlanesOf _ _ _ _ (m.state p).rows
    rw [hRows]
    exact ((hInv.planes p).executeAll (hInv.fits hReady p) (buildCompPlans_plansOf hPlans)
      (by rw [planArgs_nStream]; exact hCont)).2
  · change m.rsIdx s = 0
    change bs.foldl settle c.removed s = [] at hNone
    rw [settle_foldl] at hNone
    rw [hReset]
    split
    · rfl
    rename_i hNot
    rw [if_neg hNot] at hNone
    exact hInv.pending s hNone
  change m.rsIdx s ≤ nRsSeq
  rw [hReset]
  split
  · exact Nat.zero_le _
  · exact hInv.bounded s

omit hInv in
theorem inPlanes_plane {nStream nRsSeq s t d : Nat} (hs : s < nStream) (ht : t < nStream)
    (hd : d ≤ nRsSeq) : CompState.inPlanes nStream nRsSeq t (d * nStream + s) = true ↔ s = t := by
  unfold CompState.inPlanes
  rw [any_eq_true]
  constructor
  · rintro ⟨d', -, hEq⟩
    exact ((mul_add_inj hs ht).mp (beq_iff_eq.mp hEq)).2
  · rintro rfl
    exact ⟨d, mem_range.mpr (by omega), beq_self_eq_true _⟩

variable {seqId p0 : Int}

/-- A removal of the end of a sequence leaves the planes as they are, and names the plane of
the tokens that are left. -/
theorem Invariant.removeEnd (hPos : 0 < p0)
    (hReturns : c.mem.seqRmReturns seqId p0 (-1) (c.raw seqId) = true) :
    (c.remove seqId p0).Invariant kvSize := by
  unfold seqRmReturns at hReturns
  rw [if_neg (by decide), if_pos hPos] at hReturns
  split at hReturns
  · cases hReturns
  rename_i hSeq
  have hFull : ∀ s, (c.remove seqId p0).tokens s ++ (c.remove seqId p0).removed s =
      c.tokens s ++ c.removed s := by
    intro s
    change (if _ then _ else _) ++ (if _ then _ else _) = _
    split
    · rw [if_neg (by omega), ← append_assoc, take_append_drop]
    · rfl
  have hKept : ∀ s, (c.remove seqId p0).removed s = [] → c.removed s = [] := by
    intro s hNone
    change (if _ then _ else _) = [] at hNone
    split at hNone
    · rw [if_neg (by omega)] at hNone
      exact (append_eq_nil_iff.mp hNone).2
    · exact hNone
  have hPlanes : ∀ p : Dsv4Part, (p.planArgs kvSize nSeqMax nRsSeq).PlanesOf p
      (c.remove seqId p0).tokens (c.remove seqId p0).removed (c.mem.state p).rows := by
    intro p s hIn
    rw [hFull s]
    exact hInv.planes p s hIn
  split at hReturns
  · rename_i hBeyond
    have hMem : (c.remove seqId p0).mem =
        { c.mem with cache := fun p => (c.mem.cache p).materialize } := by
      change c.mem.seqRm seqId p0 (-1) (c.raw seqId) = _
      unfold seqRm
      rw [if_neg (by decide), if_pos hPos, if_neg hSeq, if_pos hBeyond]
    exact ⟨fun p => by rw [hMem]; exact hPlanes p,
      fun s hNone => by rw [hMem]; exact hInv.pending s (hKept s hNone),
      fun s => by rw [hMem]; exact hInv.bounded s⟩
  rename_i hWithin
  split at hReturns
  · cases hReturns
  rename_i hSnapshots
  dsimp only at hReturns
  split at hReturns
  · cases hReturns
  rename_i hRange
  have hMem : (c.remove seqId p0).mem = { c.mem with
      rsIdx := update c.mem.rsIdx seqId.toNat
        ((c.raw seqId).posMax - (p0 - 1)).toNat } := by
    change c.mem.seqRm seqId p0 (-1) (c.raw seqId) = _
    unfold seqRm
    rw [if_neg (by decide), if_pos hPos, if_neg hSeq, if_neg hWithin, if_neg hSnapshots]
    exact (if_neg hRange).trans (if_pos rfl)
  refine ⟨fun p => by rw [hMem]; exact hPlanes p, fun s hNone => ?_, fun s => ?_⟩
  · rw [hMem]
    change update c.mem.rsIdx seqId.toNat _ s = 0
    by_cases hs : s = seqId.toNat
    · change (if _ then _ else _) = [] at hNone
      rw [if_pos (Or.inr (by omega)), if_neg (by omega)] at hNone
      have hEnd := drop_eq_nil_iff.mp (append_eq_nil_iff.mp hNone).1
      change ¬((c.tokens seqId.toNat).length - 1 : Int) < p0 at hWithin
      rw [hs] at hEnd
      omega
    · rw [update_of_ne hs]
      exact hInv.pending s (hKept s hNone)
  rw [hMem]
  change update c.mem.rsIdx seqId.toNat _ s ≤ nRsSeq
  by_cases hs : s = seqId.toNat
  · rw [hs, update_self]
    omega
  · rw [update_of_ne hs]
    exact hInv.bounded s

/-- The planes of a sequence that is removed as a whole are zero. -/
theorem Invariant.removeAll (hPos : ¬0 < p0)
    (hAssert : Dsv4Rows.Asserted nSeqMax (.seqRm seqId p0 (-1) (c.raw seqId))) :
    (c.remove seqId p0).Invariant kvSize := by
  have hMem : (c.remove seqId p0).mem = c.mem.clearCompressed seqId := by
    change c.mem.seqRm seqId p0 (-1) (c.raw seqId) = _
    unfold seqRm
    rw [if_neg (by decide), if_neg hPos]
    exact if_pos rfl
  have hGone : ∀ s : Nat, seqId < 0 ∨ seqId = s →
      (c.remove seqId p0).tokens s ++ (c.remove seqId p0).removed s = [] := by
    intro s hs
    change (if _ then _ else _) ++ (if _ then _ else _) = _
    rw [if_pos hs, if_pos hs, if_pos (by omega), Int.toNat_of_nonpos (by omega)]
    rfl
  have hKept : ∀ s : Nat, ¬(seqId < 0 ∨ seqId = s) →
      (c.remove seqId p0).tokens s = c.tokens s ∧
        (c.remove seqId p0).removed s = c.removed s := by
    intro s hs
    exact ⟨if_neg hs, if_neg hs⟩
  have hBelow : seqId < nSeqMax := hAssert (by decide) (by omega) rfl
  have hRsIdx : ∀ s : Nat, (c.remove seqId p0).mem.rsIdx s =
      if seqId < 0 ∨ seqId = s then 0 else c.mem.rsIdx s := by
    intro s
    rw [hMem]
    unfold clearCompressed
    split
    · rename_i hAll
      rw [if_pos (Or.inl hAll)]
      rfl
    change update c.mem.rsIdx seqId.toNat 0 s = _
    by_cases hs : s = seqId.toNat
    · rw [hs, update_self, if_pos (Or.inr (by omega))]
    · rw [update_of_ne hs, if_neg (by omega)]
  have hRows : ∀ (p : Dsv4Part) (s d r : Nat), s < nSeqMax → d ≤ nRsSeq →
      ((c.remove seqId p0).mem.state p).rows (d * nSeqMax + s) r =
        if seqId < 0 ∨ seqId = s then 0 else (c.mem.state p).rows (d * nSeqMax + s) r := by
    intro p s d r hIn hd
    rw [hMem]
    unfold clearCompressed
    split
    · rename_i hAll
      rw [if_pos (Or.inl hAll)]
      rfl
    rename_i hOne
    change (if CompState.inPlanes nSeqMax nRsSeq seqId.toNat (d * nSeqMax + s) = true then 0
      else (c.mem.state p).rows (d * nSeqMax + s)) r = _
    by_cases hs : s = seqId.toNat
    · rw [if_pos ((inPlanes_plane hIn (by omega) hd).mpr hs), if_pos (Or.inr (by omega))]
      rfl
    · rw [if_neg (mt (inPlanes_plane hIn (by omega) hd).mp hs), if_neg (by omega)]
  refine ⟨fun p s hIn d hd hLe r hr => ?_, fun s hNone => ?_, fun s => ?_⟩
  · rw [planArgs_nStream] at hIn ⊢
    rw [planArgs_nRsSeq] at hd
    rw [hRows p s d r hIn hd]
    by_cases hs : seqId < 0 ∨ seqId = s
    · rw [if_pos hs, hGone s hs, map_nil, ringBefore_nil]
      rfl
    obtain ⟨hTokens, hRemoved⟩ := hKept s hs
    rw [hTokens, hRemoved] at hLe ⊢
    have hPlane := hInv.planes p s (by rw [planArgs_nStream]; exact hIn) d
      (by rw [planArgs_nRsSeq]; exact hd) hLe r hr
    rw [planArgs_nStream] at hPlane
    rw [if_neg hs]
    exact hPlane
  · rw [hRsIdx]
    split
    · rfl
    rename_i hs
    rw [(hKept s hs).2] at hNone
    exact hInv.pending s hNone
  rw [hRsIdx]
  split
  · exact Nat.zero_le _
  · exact hInv.bounded s

omit hInv

theorem empty_invariant : (empty nSeqMax nRsSeq κ ρ).Invariant kvSize where
  planes _ _ _ d _ _ r _ := (congrFun (ringBefore_nil d) r).symm
  pending _ _ := rfl
  bounded _ := Nat.zero_le _

/-- Batches that are ready keep the invariant, and so do all removals. -/
theorem run_invariant (hRun : Run (· = empty nSeqMax nRsSeq κ ρ) (step g kvSize) Allowed c) :
    c.Invariant kvSize := by
  refine hRun.invariant (fun c hInit => ?_) fun event c c' hInv hAllowed hStep => ?_
  · rw [hInit]
    exact empty_invariant
  cases event with
  | batch bs => exact hInv.batch hAllowed hStep
  | seqRm seqId p0 =>
    obtain ⟨hAssert, hReturns, rfl⟩ := hStep
    by_cases hPos : 0 < p0
    · exact hInv.removeEnd hPos hReturns
    · exact hInv.removeAll hPos hAssert

/-- In a run whose batches are all ready, every micro-batch reads the ring of the surviving
tokens before it and leaves the snapshots of the surviving tokens. -/
theorem rings_kept (hRun : Run (· = empty nSeqMax nRsSeq κ ρ) (step g kvSize) Allowed c)
    (hReady : c.Ready bs) (hCont : ContinuesAll nSeqMax c.tokens bs) : c.Keeps g kvSize bs := by
  intro p plans hPlans
  have hInv := run_invariant hRun
  exact ((hInv.planes p).executeAll (hInv.fits hReady p) (buildCompPlans_plansOf hPlans)
    (by rw [planArgs_nStream]; exact hCont)).1

/-! ### Runs that lose a ring -/

/-- `n` tokens of one sequence from position `p` on. -/
def oneSequence (s p n : Nat) : SplitUbatch where
  idxs := List.range n
  equalSeqs := true
  nTokens := n
  nSeqTokens := n
  nSeqs := 1
  token := none
  pos := (List.range n).map fun i => (p + i : Nat)
  seqId := List.replicate n [s]
  output := List.replicate n false
  seqIdUnq := if n = 0 then [] else [s]

theorem oneSequence_continues {s p n : Nat} {start : Nat → Nat} (hs : s < nSeqMax)
    (hp : start s = p) : (oneSequence s p n).Continues nSeqMax start := by
  have hSeqs : ∀ i < n, (oneSequence s p n).seqsAt i = [s] := by
    intro i hi
    unfold SplitUbatch.seqsAt oneSequence
    rw [getD_eq_getElem?_getD, getElem?_replicate, if_pos hi]
    rfl
  have hAll : ∀ i ≤ n, (oneSequence s p n).tokensTo s i = range i := by
    intro i hi
    refine filter_eq_self.mpr fun j hj => ?_
    rw [hSeqs j (by have := mem_range.mp hj; omega)]
    exact decide_eq_true (by simp)
  refine ⟨fun i hi t ht => ?_, fun t => ?_, ?_, fun t ht => ?_⟩
  · rw [hSeqs i hi, mem_singleton] at ht
    have hPos : (oneSequence s p n).posAt i = (p + i : Nat) := by
      unfold SplitUbatch.posAt oneSequence
      have hRange : (range n)[i]? = some i := getElem?_range hi
      rw [getD_eq_getElem?_getD, getElem?_map, hRange]
      rfl
    rw [ht, hAll i (Nat.le_of_lt hi), length_range, hPos, hp]
    rfl
  · change t ∈ (if n = 0 then [] else [s]) ↔ ∃ i < n, _
    constructor
    · intro ht
      split at ht
      · cases ht
      · exact ⟨0, by omega, by rw [hSeqs 0 (by omega)]; exact ht⟩
    rintro ⟨i, hi, ht⟩
    rw [hSeqs i hi] at ht
    rw [if_neg (by omega)]
    exact ht
  · change (if n = 0 then [] else [s]).Nodup
    split
    · exact nodup_nil
    · exact nodup_singleton s
  change t ∈ (if n = 0 then [] else [s]) at ht
  split at ht
  · cases ht
  · rw [mem_singleton.mp ht]
    exact hs

/-- The trace after a batch. -/
def after (g : Dsv4Graph κ ρ) (kvSize : Nat) (c : Dsv4Trace nSeqMax nRsSeq κ ρ)
    (bs : List (Micro ρ)) : Dsv4Trace nSeqMax nRsSeq κ ρ :=
  match c.mem.decode g kvSize bs with
  | .ok m => c.decoded bs m
  | .error _ => c

theorem step_after (hCont : ContinuesAll nSeqMax c.tokens bs)
    (hPlanned : ((c.mem.decode g kvSize bs).map fun _ => ()).toBool = true) :
    step g kvSize (.batch bs) c (c.after g kvSize bs) := by
  refine ⟨hCont, ?_⟩
  unfold after
  cases hDecode : c.mem.decode g kvSize bs with
  | error e =>
    rw [hDecode] at hPlanned
    cases hPlanned
  | ok m => exact ⟨m, rfl, rfl⟩

/-- The rows count the tokens, the blocks are not looked at. -/
def plainGraph : Dsv4Graph Nat Nat := ⟨0, fun _ _ _ _ => 0⟩

def micro (p n x : Nat) : Micro Nat := ⟨oneSequence 0 p n, fun _ i => x + i⟩

/-- One sequence with two snapshots, after four tokens. -/
def fourTokens : Dsv4Trace 1 2 Nat Nat := (empty 1 2 Nat Nat).after plainGraph 256 [micro 0 4 1]

theorem Keeps.first {b : Micro ρ} (hKeeps : c.Keeps g kvSize (b :: bs))
    (hStep : step g kvSize (.batch (b :: bs)) c c') (p : Dsv4Part) :
    ∃ plan plans, (p.planArgs kvSize nSeqMax nRsSeq).PlansOf c.mem.rsIdx bs plans ∧
      (p.planArgs kvSize nSeqMax nRsSeq).Moves c.mem.rsIdx b.u plan ∧
      RingsKept g p (p.planArgs kvSize nSeqMax nRsSeq) c.tokens (c.mem.state p).rows
        (c.mem.cache p).rows ((b, plan) :: bs.zip plans) := by
  obtain ⟨hCont, m, hDecode, -⟩ := hStep
  obtain ⟨all, hAll, -⟩ := (decode_eq hDecode).2 p
  have hKept := hKeeps p all hAll
  cases buildCompPlans_plansOf hAll with
  | @cons _ plan _ plans hPlan hPlans =>
    refine ⟨plan, plans, hPlans, PlanArgs.buildCompPlan_moves (fun i hi s hs => ?_) hPlan, hKept⟩
    rw [planArgs_nStream]
    exact hCont.1.seqsIn hi hs

/-- The batches that a rollback spoils: they are decoded, and a ring is wrong. -/
def Spoiled (c : Dsv4Trace 1 2 Nat Nat) (bs : List (Micro Nat)) : Prop :=
  Run (· = empty 1 2 Nat Nat) (step plainGraph 256) (fun _ _ => True) c ∧
    (∃ c', step plainGraph 256 (.batch bs) c c') ∧ ¬c.Keeps plainGraph 256 bs

theorem fourTokens_step :
    step plainGraph 256 (.batch [micro 0 4 1]) (empty 1 2 Nat Nat) fourTokens :=
  step_after ⟨oneSequence_continues (by decide) (by decide), trivial⟩ (by decide)

theorem removed_step (c : Dsv4Trace 1 2 Nat Nat)
    (h : c.mem.seqRmReturns 0 p0 (-1) (c.raw 0) = true) :
    step plainGraph 256 (.seqRm 0 p0) c (c.remove 0 p0) :=
  ⟨fun _ _ _ => by decide, h, rfl⟩

theorem fourTokens_run : Run (· = empty 1 2 Nat Nat) (step plainGraph 256) Allowed fourTokens :=
  .step (Dsv4Event.batch [micro 0 4 1]) (.start rfl) (fun _ _ hSome => absurd rfl hSome)
    fourTokens_step

theorem rolledBack_run :
    Run (· = empty 1 2 Nat Nat) (step plainGraph 256) Allowed (fourTokens.remove 0 3) :=
  .step (Dsv4Event.seqRm 0 3) fourTokens_run trivial (removed_step _ (by decide))

theorem rolledBackTwice_run :
    Run (· = empty 1 2 Nat Nat) (step plainGraph 256) Allowed
      ((fourTokens.remove 0 3).remove 0 2) :=
  .step (Dsv4Event.seqRm 0 2) rolledBack_run trivial (removed_step _ (by decide))

theorem rolledBack_step :
    step plainGraph 256 (.batch [micro 3 1 9]) (fourTokens.remove 0 3)
      ((fourTokens.remove 0 3).after plainGraph 256 [micro 3 1 9]) :=
  step_after ⟨oneSequence_continues (by decide) (by decide), trivial⟩ (by decide)

theorem rolledBack_cut_step :
    step plainGraph 256 (.batch [micro 3 2 9, micro 5 2 9]) (fourTokens.remove 0 3)
      ((fourTokens.remove 0 3).after plainGraph 256 [micro 3 2 9, micro 5 2 9]) :=
  step_after ⟨oneSequence_continues (by decide) (by decide),
    oneSequence_continues (by decide) (by decide), trivial⟩ (by decide)

theorem rolledBackTwice_step :
    step plainGraph 256 (.batch [micro 2 2 9]) ((fourTokens.remove 0 3).remove 0 2)
      (((fourTokens.remove 0 3).remove 0 2).after plainGraph 256 [micro 2 2 9]) :=
  step_after ⟨oneSequence_continues (by decide) (by decide), trivial⟩ (by decide)

theorem rolledBack_ready : (fourTokens.remove 0 3).Ready [micro 3 2 9] := by
  rintro s ⟨b, hb, hs⟩ -
  rw [mem_singleton.mp hb] at hs
  have hZero : s = 0 := mem_singleton.mp hs
  subst hZero
  refine ⟨by decide, by decide, fun x hx _ => ?_⟩
  rw [mem_singleton.mp hx]
  decide

/-- After a rollback, a micro-batch with fewer tokens than there are snapshots, a batch with
two micro-batches, and a second rollback. -/
theorem rollbacks_spoil :
    Spoiled (fourTokens.remove 0 3) [micro 3 1 9] ∧
      Spoiled (fourTokens.remove 0 3) [micro 3 2 9, micro 5 2 9] ∧
      Spoiled ((fourTokens.remove 0 3).remove 0 2) [micro 2 2 9] := by
  have hRolled := run_invariant rolledBack_run
  have hTwice := run_invariant rolledBackTwice_run
  have hOnceRun := rolledBack_run.mono fun _ _ _ => trivial
  have hTwiceRun := rolledBackTwice_run.mono fun _ _ _ => trivial
  refine ⟨⟨hOnceRun, ⟨_, rolledBack_step⟩, fun hKeeps => ?_⟩,
    ⟨hOnceRun, ⟨_, rolledBack_cut_step⟩, fun hKeeps => ?_⟩,
    ⟨hTwiceRun, ⟨_, rolledBackTwice_step⟩, fun hKeeps => ?_⟩⟩
  · obtain ⟨plan, plans, -, hMoves, hKept⟩ := hKeeps.first rolledBack_step .csa
    have hOld := ((hRolled.planes .csa).of_kept (s := 0) (r := 2) hKept hMoves
      rolledBack_step.1.1 (by decide) (by decide)).2 2 (by decide) (by decide) (by decide)
    exact absurd hOld (by decide)
  · obtain ⟨plan, plans, hPlans, hMoves, hKept⟩ := hKeeps.first rolledBack_cut_step .csa
    cases hPlans with
    | @cons _ plan' _ _ hPlan _ =>
      -- the first micro-batch is as it should be
      have hNext : (Dsv4Part.csa.planArgs 256 1 2).PlanesOf .csa _ _
          (plainGraph.execute .csa _ plan (micro 3 2 9) _
            ((fourTokens.remove 0 3).mem.cache .csa).rows).1 :=
        (hRolled.planes .csa).execute (hRolled.fits rolledBack_ready .csa) hMoves
          rolledBack_cut_step.1.1
      have hMoves' := PlanArgs.buildCompPlan_moves
        (fun i hi s hs => rolledBack_cut_step.1.2.1.seqsIn hi hs) hPlan
      have hOld := (hNext.of_kept (s := 0) (r := 4) hKept.2.2 hMoves' rolledBack_cut_step.1.2.1
        (by decide) (by decide)).1 (by decide) (by decide)
      exact absurd hOld (by decide)
  obtain ⟨plan, plans, -, hMoves, hKept⟩ := hKeeps.first rolledBackTwice_step .csa
  have hOld := ((hTwice.planes .csa).of_kept (s := 0) (r := 2) hKept hMoves
    rolledBackTwice_step.1.1 (by decide) (by decide)).1 (by decide) (by decide)
  exact absurd hOld (by decide)

/-- A rollback of one token that is followed by two tokens in one micro-batch. -/
theorem rolledBack_kept : (fourTokens.remove 0 3).Keeps plainGraph 256 [micro 3 2 9] :=
  rings_kept rolledBack_run rolledBack_ready
    ⟨oneSequence_continues (by decide) (by decide), trivial⟩

end Dsv4Trace

end Beellama.Ports
