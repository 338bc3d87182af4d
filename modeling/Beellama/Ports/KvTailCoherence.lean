import Beellama.Ports.KvTailRuns
import Mathlib.Algebra.Order.Ring.Int

/-!
# Agreement between the sequences of the exact-tail store

Two sequences agree about a cell when they hold it under the same identity and position.  As long as
they do, a copy never brings two entries of one cell into one sequence.  Position changes keep the
agreement; a later commit of an identity must use the position it has been moved to.
-/

namespace Beellama.Ports

open Beellama.Verified List Function

namespace TailStore

/-- The sequences agree about the cells they hold. -/
def Coherent (n : Nat) (tails : Nat → List ExactEntry) : Prop :=
  ∀ q < n, ∀ r < n, ∀ e ∈ tails q, ∀ x ∈ tails r, e.key = x.key → e.SameFact x

/-- The entries of all sequences. -/
def tails (s : TailStore) (q : Nat) : List ExactEntry := (s.seqs q).entries

variable {n : Nat} {tails tails' : Nat → List ExactEntry}

theorem Coherent.mono (h : Coherent n tails)
    (hSub : ∀ q < n, ∀ e ∈ tails' q, ∃ x ∈ tails q, e.SameFact x) : Coherent n tails' := by
  intro q hq r hr e he x hx hKey
  obtain ⟨e₀, he₀, heFact⟩ := hSub q hq e he
  obtain ⟨x₀, hx₀, hxFact⟩ := hSub r hr x hx
  have hKey₀ : e₀.key = x₀.key := by
    simpa only [ExactEntry.key, heFact.1, hxFact.1] using hKey
  have hFact := h q hq r hr e₀ he₀ x₀ hx₀ hKey₀
  exact ⟨heFact.1.trans (hFact.1.trans hxFact.1.symm),
    heFact.2.trans (hFact.2.trans hxFact.2.symm)⟩

/-- A cell of the destination's stream outside the range is held under the identity and position it
will be copied to. -/
def CopyFits (s : TailStore) (src dst srcStream dstStream : Nat) (p0 p1 : Int) : Prop :=
  ∀ e ∈ s.tails src, e.identity.stream = srcStream → inRange p0 p1 e.position = true →
    ∀ r < s.cfg.nSeqMax, ∀ x ∈ s.tails r, x.key = (dstStream, e.identity.cell) →
      (r = dst → inRange p0 p1 x.position = false) →
      x.identity = { e.identity with stream := dstStream } ∧ x.position = e.position

/-- No other sequence holds the cell under another identity or position. -/
def CommitFits (s : TailStore) (seqId : Int) (identity : TailIdentity) (position : Int) : Prop :=
  ∀ r < s.cfg.nSeqMax, r ≠ seqId.toNat → ∀ x ∈ s.tails r, x.key = identity.cellKey →
    x.identity = identity ∧ x.position = position

/-- What the callers of the store promise. -/
def Disciplined (op : Op) (s : TailStore) : Prop :=
  CopyFirst op s ∧
    match op with
    | .commit seqId identity position _ _ => CommitFits s seqId identity position
    | .restore seqId identity position _ _ => CommitFits s seqId identity position
    | .prepareSeqCp src dst srcStream dstStream p0 p1 =>
      srcStream ≠ dstStream → CopyFits s src.toNat dst.toNat srcStream dstStream p0 p1
    | _ => True

variable {s : TailStore}

theorem Coherent.copyFits (h : Coherent s.cfg.nSeqMax s.tails) {src : Nat}
    (hSrc : src < s.cfg.nSeqMax) (dst stream : Nat) (p0 p1 : Int) :
    CopyFits s src dst stream stream p0 p1 := by
  intro e he hStream _ r hr x hx hKey _
  have hKeys : x.key = e.key := by
    rw [hKey, ← hStream]
    rfl
  have hFact := h r hr src hSrc x hx e he hKeys
  refine ⟨?_, hFact.2⟩
  rw [hFact.1, ← hStream]

section Copies

variable {s : TailStore} {src dst srcStream dstStream : Nat} {p0 p1 : Int}

/-- The candidates of a copy that fits name every cell once. -/
theorem copyCandidates_distinct (h : ∀ q, SeqOk s.cfg q s.nextNode [] (s.seqs q))
    (hDst : dst < s.cfg.nSeqMax) (hFits : CopyFits s src dst srcStream dstStream p0 p1) :
    (s.copyCandidates src dst srcStream dstStream p0 p1).Pairwise
      fun a b => a.entry.key ≠ b.entry.key := by
  unfold copyCandidates
  rw [pairwise_append, pairwise_map, pairwise_map]
  refine ⟨?_, ?_, ?_⟩
  · exact ((h dst).apart.sublist filter_sublist).imp fun hab => hab.1
  · refine ((h src).apart.sublist filter_sublist).imp_of_mem ?_
    intro a b ha hb hab hEq
    rw [mem_filter] at ha hb
    have haStream := (decide_eq_true_eq.mp ha.2).1
    have hbStream := (decide_eq_true_eq.mp hb.2).1
    -- both entries lie in the source's stream, so equal cells are equal keys
    refine hab.1 (Prod.ext (haStream.trans hbStream.symm) ?_)
    exact (Prod.ext_iff.mp hEq).2
  intro a ha b hb hEq
  obtain ⟨x, hx, rfl⟩ := mem_map.mp ha
  obtain ⟨y, hy, rfl⟩ := mem_map.mp hb
  rw [mem_filter] at hx hy
  have hxOut : inRange p0 p1 x.position = false := by simpa using hx.2
  have hyIn : y.identity.stream = srcStream ∧ inRange p0 p1 y.position = true := by
    simpa using hy.2
  have hPosition := (hFits y hy.1 hyIn.1 hyIn.2 dst hDst x hx.1 hEq fun _ => hxOut).2
  rw [hPosition, hyIn.2] at hxOut
  cases hxOut

variable {destination : List ExactEntry}

theorem tokens_distinct {retained : List CopyCandidate}
    (hTokens : List.Forall₂ SameToken retained destination)
    (hDistinct : retained.Pairwise fun a b => a.entry.key ≠ b.entry.key) :
    CellsDistinct destination := by
  induction hTokens with
  | nil => exact List.Pairwise.nil
  | cons hToken hRest ih =>
    rw [pairwise_cons] at hDistinct
    refine pairwise_cons.mpr ⟨?_, ih hDistinct.2⟩
    intro x hx
    obtain ⟨i, hi, rfl⟩ := mem_iff_getElem.mp hx
    have hToken' := List.Forall₂.get hRest (by rw [hRest.length_eq]; exact hi) hi
    have hNe := hDistinct.1 _ (getElem_mem (by rw [hRest.length_eq]; exact hi))
    rw [hToken.1]
    intro hEq
    refine hNe (hEq.trans ?_)
    have hIdentity := congrArg ExactEntry.identity hToken'.1
    exact congrArg TailIdentity.cellKey hIdentity

theorem copyRetained_distinct (h : ∀ q, SeqOk s.cfg q s.nextNode [] (s.seqs q))
    (hDst : dst < s.cfg.nSeqMax) (hFits : CopyFits s src dst srcStream dstStream p0 p1) :
    (s.copyRetained src dst srcStream dstStream p0 p1).Pairwise
      fun a b => a.entry.key ≠ b.entry.key := by
  obtain ⟨sorted, hPerm, hSub, -⟩ := retainedCandidates_spec s.cfg
    (s.copyCandidates src dst srcStream dstStream p0 p1)
  refine List.Pairwise.sublist hSub ((hPerm.pairwise_iff fun hab => hab.symm).mpr ?_)
  exact copyCandidates_distinct h hDst hFits

theorem Coherent.copy (h : Coherent s.cfg.nSeqMax s.tails) (hDst : dst < s.cfg.nSeqMax)
    (hFits : CopyFits s src dst srcStream dstStream p0 p1)
    (hTokens : List.Forall₂ SameToken (s.copyRetained src dst srcStream dstStream p0 p1)
      destination) (hCells : CellsDistinct destination) :
    Coherent s.cfg.nSeqMax (Function.update s.tails dst destination) := by
  have hCross : ∀ r < s.cfg.nSeqMax, r ≠ dst → ∀ e ∈ destination, ∀ x ∈ s.tails r,
      e.key = x.key → e.SameFact x := by
    intro r hr hne e he x hx hKey
    rcases mem_copyDestination hTokens he with ⟨y, hy, -, hFact⟩ |
      ⟨y, hy, hStream, hIn, hPosition, hIdentity⟩
    · have hKeyY : y.key = x.key := by
        rw [← hKey]
        simp only [ExactEntry.key, hFact.1]
      have hAgree := h dst hDst r hr y hy x hx hKeyY
      exact ⟨hFact.1.trans hAgree.1, hFact.2.trans hAgree.2⟩
    have hKeyX : x.key = (dstStream, y.identity.cell) := by
      rw [← hKey]
      simp only [ExactEntry.key, hIdentity, TailIdentity.cellKey]
    have hAgree := hFits y hy hStream hIn r hr x hx hKeyX fun hEq => absurd hEq hne
    exact ⟨hIdentity.trans hAgree.1.symm, hPosition.trans hAgree.2.symm⟩
  intro q hq r hr e he x hx hKey
  by_cases hqd : q = dst
  · subst hqd
    rw [update_self] at he
    by_cases hrd : r = q
    · subst hrd
      rw [update_self] at hx
      have hSame : e = x := by
        by_contra hne
        have hSymm : Std.Symm fun a b : ExactEntry => a.key ≠ b.key := ⟨fun _ _ hab => hab.symm⟩
        exact List.Pairwise.forall hCells he hx hne hKey
      rw [hSame]
      exact ExactEntry.SameFact.refl x
    · rw [update_of_ne hrd] at hx
      exact hCross r hr hrd e he x hx hKey
  rw [update_of_ne hqd] at he
  by_cases hrd : r = dst
  · subst hrd
    rw [update_self] at hx
    have hFact := hCross q hq hqd x hx e he hKey.symm
    exact ⟨hFact.1.symm, hFact.2.symm⟩
  · rw [update_of_ne hrd] at hx
    exact h q hq r hr e he x hx hKey

end Copies

/-! ## Agreement along a run -/

/-- The sequences agree, in the store, in the state a batch can be rolled back
to, and after a prepared copy. -/
structure Agrees (s : TailStore) : Prop where
  now : Coherent s.cfg.nSeqMax s.tails
  saved : ∀ tx, s.batch = some tx → Coherent s.cfg.nSeqMax fun q => (tx.seqs q).entries
  copy : ∀ p, s.pending = some p → CellsDistinct p.destination ∧
    Coherent s.cfg.nSeqMax (Function.update s.tails p.dst p.destination)

section Steps

variable {s s' : TailStore} {op : Op}

/-- Agreement after a call that leaves no copy pending. -/
theorem Agrees.leaves (h : Agrees s) (hLeaves : Leaves s s')
    (hNow : Coherent s.cfg.nSeqMax s'.tails) : Agrees s' where
  now := by
    rw [hLeaves.cfg]
    exact hNow
  saved tx' htx := by
    rw [hLeaves.cfg]
    rcases hLeaves.batch tx' htx with ⟨tx, hTx, hSeqs⟩ | hSeqs
    · rw [hSeqs]
      exact h.saved tx hTx
    · rw [hSeqs]
      exact h.now
  copy p hp := by
    rw [hLeaves.idle.pending] at hp
    cases hp

variable {seqId : Int}

theorem lt_of_validSeq (h : s.validSeq seqId = true) : seqId.toNat < s.cfg.nSeqMax := by
  simp only [validSeq, decide_eq_true_eq] at h
  omega

variable {identity : TailIdentity} {position : Int}

/-- A new fact about one cell agrees with the rest. -/
theorem Coherent.add (h : Coherent n tails)
    (q₀ : Nat) (hApart : ∀ e ∈ tails' q₀, ∀ x ∈ tails' q₀, e.key = x.key → e = x)
    (hMem : ∀ q < n, ∀ e ∈ tails' q, e ∈ tails q ∨
      (q = q₀ ∧ e.identity = identity ∧ e.position = position))
    (hFits : ∀ r < n, r ≠ q₀ → ∀ x ∈ tails r, x.key = identity.cellKey →
      x.identity = identity ∧ x.position = position) : Coherent n tails' := by
  intro q hq r hr e he x hx hKey
  by_cases hBoth : q = q₀ ∧ r = q₀
  · obtain ⟨rfl, rfl⟩ := hBoth
    rw [hApart e he x hx hKey]
    exact ExactEntry.SameFact.refl x
  rcases hMem q hq e he with heOld | ⟨hqEq, heId, hePos⟩
  · rcases hMem r hr x hx with hxOld | ⟨hrEq, hxId, hxPos⟩
    · exact h q hq r hr e heOld x hxOld hKey
    have hne : q ≠ q₀ := fun hEq => hBoth ⟨hEq, hrEq⟩
    have hFit := hFits q hq hne e heOld (by
      rw [hKey]
      simp only [ExactEntry.key, hxId])
    exact ⟨hFit.1.trans hxId.symm, hFit.2.trans hxPos.symm⟩
  have hne : r ≠ q₀ := fun hEq => hBoth ⟨hqEq, hEq⟩
  rcases hMem r hr x hx with hxOld | ⟨hrEq, -⟩
  · have hFit := hFits r hr hne x hxOld (by
      rw [← hKey]
      simp only [ExactEntry.key, heId])
    exact ⟨heId.trans hFit.1.symm, hePos.trans hFit.2.symm⟩
  · exact absurd hrEq hne

/-- The sequences agree after a call that enters one fact that fits. -/
theorem Agrees.add (h : Agrees s) (hLeaves : Leaves s s')
    (hFits : CommitFits s seqId identity position)
    (hMem : ∀ q e, e ∈ (s'.seqs q).entries → e ∈ (s.seqs q).entries ∨
      (q = seqId.toNat ∧ s.validSeq seqId = true ∧
        e.identity = identity ∧ e.position = position)) : Agrees s' := by
  refine h.leaves hLeaves (h.now.add seqId.toNat ?_ ?_ hFits)
  · intro e he x hx hKey
    exact eq_of_not_apart (hLeaves.idle.seqs _).apart he hx fun hApart => hApart.1 hKey
  intro q _ e he
  rcases hMem q e he with hOld | ⟨hq, -, hFact⟩
  · exact Or.inl hOld
  · exact Or.inr ⟨hq, hFact⟩

/-- Position changes move an identity in every sequence at once. -/
theorem Agrees.reposition (h : Agrees s) (hIdle : Idle s) {identities : List TailIdentity}
    {f : Int → Int} {dropNegative degrade : Bool}
    (hRun : op.run s = (range s.cfg.nSeqMax).forM
      (repositionSeq identities f dropNegative degrade) s) :
    ¬ op.Duplicates s ∧ Agrees (op.step s) := by
  obtain ⟨hDup, hLeaves, hMem⟩ := reposition_spec hIdle hRun
  refine ⟨hDup, h.leaves hLeaves ?_⟩
  intro q hq r hr e he x hx hKey
  rcases hMem q e he with ⟨-, hOut⟩ | ⟨e₀, he₀, heId, heIn, heOut⟩
  · exact absurd hq hOut
  rcases hMem r x hx with ⟨-, hOut⟩ | ⟨x₀, hx₀, hxId, hxIn, hxOut⟩
  · exact absurd hr hOut
  have hKey₀ : e₀.key = x₀.key := by
    simpa only [ExactEntry.key, heId, hxId] using hKey
  have hFact := h.now q hq r hr e₀ he₀ x₀ hx₀ hKey₀
  refine ⟨heId.trans (hFact.1.trans hxId.symm), ?_⟩
  by_cases hTouched : e₀.identity ∈ identities
  · rw [(heIn hTouched).1, (hxIn (hFact.1 ▸ hTouched)).1, hFact.2]
  · rw [heOut hTouched, hxOut (hFact.1 ▸ hTouched), hFact.2]

theorem Agrees.cancel (h : Agrees s) (hIdle : Idle s') (hCfg : s'.cfg = s.cfg)
    (hBatch : s'.batch = s.batch) (hEntries : ∀ q, (s'.seqs q).entries = (s.seqs q).entries) :
    Agrees s' where
  now := by
    rw [hCfg, funext hEntries (f := s'.tails)]
    exact h.now
  saved := by
    rw [hCfg, hBatch]
    exact h.saved
  copy p hp := by
    rw [hIdle.pending] at hp
    cases hp

/-- A disciplined call reports no duplicate and keeps the agreement. -/
theorem Agrees.step (h : Agrees s) (hInv : TailInv s) (hOp : Disciplined op s) :
    ¬ op.Duplicates s ∧ Agrees (op.step s) := by
  obtain ⟨hCopy, hOp⟩ := hOp
  by_cases hPending : s.pending = none
  · have hIdle := hInv.idle hPending
    have hKeep : ∀ {s' : TailStore}, Leaves s s' →
        (∀ q e, e ∈ (s'.seqs q).entries → e ∈ (s.seqs q).entries) → Agrees s' := by
      intro s' hLeaves hMem
      exact h.leaves hLeaves (h.now.mono fun q _ e he =>
        ⟨e, hMem q e he, ExactEntry.SameFact.refl e⟩)
    cases op with
    | commit seqId identity position ordinal currentRow =>
      obtain ⟨hDup, hLeaves, hMem⟩ :=
        commit_spec hIdle seqId identity position ordinal currentRow
      exact ⟨hDup, h.add hLeaves hOp hMem⟩
    | restore seqId identity position ordinal localSlot =>
      obtain ⟨hDup, hLeaves, hMem⟩ :=
        restore_spec hIdle seqId identity position ordinal localSlot
      exact ⟨hDup, h.add hLeaves hOp hMem⟩
    | finishBatch success payloadMayBeModified =>
      obtain ⟨hDup, hLeaves, hSame | ⟨-, -, tx, hTx, hMem⟩⟩ :=
        finishBatch_spec hIdle success payloadMayBeModified
      · exact ⟨hDup, hKeep hLeaves fun q e he => by rwa [hSame] at he⟩
      · refine ⟨hDup, h.leaves hLeaves ((h.saved tx hTx).mono fun q _ e he => ?_)⟩
        exact ⟨e, hMem q e he, ExactEntry.SameFact.refl e⟩
    | seqCp src dst p0 p1 =>
      by_cases hValid : s.validSeq src = true ∧ s.validSeq dst = true
      · have hSrc := lt_of_validSeq hValid.1
        have hDst := lt_of_validSeq hValid.2
        rcases seqCp_spec hIdle src dst p0 p1 with ⟨hDup, hLeaves, hSame⟩ |
          ⟨stream, destination, hTokens, hResult⟩
        · exact ⟨hDup, hKeep hLeaves fun q e he => by rwa [hSame] at he⟩
        have hFits := h.now.copyFits hSrc dst.toNat stream p0 p1
        have hCells := tokens_distinct hTokens
          (copyRetained_distinct hIdle.seqs hDst hFits)
        rcases hResult with ⟨hNot, -⟩ | ⟨-, hDup, hCopies⟩
        · exact absurd hCells hNot
        refine ⟨hDup, h.leaves hCopies.leaves ?_⟩
        obtain ⟨d, hTokens', hCells', hMem⟩ := hCopies.tokens
        refine (h.now.copy hDst hFits hTokens' hCells').mono ?_
        intro q _ e he
        by_cases hq : q = dst.toNat
        · subst hq
          rw [update_self]
          exact hMem e he
        rw [update_of_ne hq]
        have hOther := hCopies.others q hq
        refine ⟨e, ?_, ExactEntry.SameFact.refl e⟩
        rw [tails, hOther] at he
        exact he
      have hRun : (Op.seqCp src dst p0 p1).run s = .ok () s := by
        change (if !(!s.validSeq src ∨ !s.validSeq dst ∨ src = dst) then _ else _ :
          TailM Unit) s = _
        have hInvalid : !s.validSeq src ∨ !s.validSeq dst ∨ src = dst := by
          rw [not_and_or] at hValid
          rcases hValid with hNot | hNot
          · exact Or.inl (by simpa using hNot)
          · exact Or.inr (Or.inl (by simpa using hNot))
        rw [if_neg (by rw [decide_eq_true hInvalid]; simp)]
        rfl
      obtain ⟨hDup, hStep⟩ := step_of_ok _ hRun
      rw [hStep]
      exact ⟨hDup, h⟩
    | prepareSeqCp src dst srcStream dstStream p0 p1 =>
      obtain ⟨hDup, -, hEntries, hCfg, hBatch, hPrepared⟩ :=
        prepareSeqCp_step hIdle src dst srcStream dstStream p0 p1
      refine ⟨hDup, ?_, ?_, ?_⟩
      · rw [hCfg]
        refine h.now.mono fun q _ e he => ⟨e, ?_, ExactEntry.SameFact.refl e⟩
        rw [tails, hEntries] at he
        exact he
      · rw [hCfg, hBatch]
        exact h.saved
      intro p hp
      obtain ⟨hSrc, hDst, hTo, hTokens⟩ := hPrepared p hp
      have hFits : CopyFits s src.toNat dst.toNat srcStream dstStream p0 p1 := by
        by_cases hStream : srcStream = dstStream
        · subst hStream
          exact h.now.copyFits (lt_of_validSeq hSrc) dst.toNat srcStream p0 p1
        · exact hOp hStream
      have hCells := tokens_distinct hTokens
        (copyRetained_distinct hIdle.seqs (lt_of_validSeq hDst) hFits)
      refine ⟨hCells, ?_⟩
      have hTails : ((Op.prepareSeqCp src dst srcStream dstStream p0 p1).step s).tails =
          s.tails := funext hEntries
      rw [hCfg, hTo, hTails]
      exact h.now.copy (lt_of_validSeq hDst) hFits hTokens hCells
    | commitSeqCp =>
      obtain ⟨hDup, hStep⟩ := step_of_ok _ (commitSeqCp_idle hPending)
      rw [hStep]
      exact ⟨hDup, h⟩
    | cancelSeqCp =>
      obtain ⟨s', hRun, hIdle', hCfg, hBatch, hEntries⟩ := cancelSeqCp_run hInv
      obtain ⟨hDup, hStep⟩ := step_of_ok .cancelSeqCp hRun
      rw [hStep]
      exact ⟨hDup, h.cancel hIdle' hCfg hBatch hEntries⟩
    | seqAdd seqId p0 p1 shift =>
      by_cases hValid : s.validSeq seqId = true
      · exact h.reposition hIdle (seqAdd_forM hValid)
      obtain ⟨hDup, hStep⟩ := step_of_ok _ (seqAdd_invalid hValid)
      rw [hStep]
      exact ⟨hDup, h⟩
    | seqDiv seqId p0 p1 divisor =>
      by_cases hValid : s.validSeq seqId = true ∧ divisor ≠ 0
      · exact h.reposition hIdle (seqDiv_forM hValid)
      obtain ⟨hDup, hStep⟩ := step_of_ok _ (seqDiv_invalid hValid)
      rw [hStep]
      exact ⟨hDup, h⟩
    | _ =>
      refine ⟨(shrink_spec _ hIdle trivial).1, hKeep ?_ ?_⟩
      · exact (shrink_spec _ hIdle trivial).2.1
      · exact (shrink_spec _ hIdle trivial).2.2
  obtain ⟨p, hp⟩ := Option.ne_none_iff_exists'.mp hPending
  obtain ⟨hCells, hAfter⟩ := h.copy p hp
  rcases hCopy hPending with rfl | rfl
  · rcases commitSeqCp_spec hInv hp with ⟨hNot, -⟩ | ⟨-, hDup, hStep, hIdle⟩
    · exact absurd hCells hNot
    rw [hStep]
    refine ⟨hDup, hAfter.mono ?_, h.saved, ?_⟩
    · intro q _ e he
      by_cases hq : q = p.dst
      · subst hq
        rw [tails, copied_entries] at he
        obtain ⟨x, hx, hEq, -⟩ := mem_numberNodes he
        rw [update_self]
        exact ⟨x, hx, by rw [hEq]; exact ⟨rfl, rfl⟩⟩
      rw [update_of_ne hq]
      simp only [tails, TailStore.copied, TailStore.modSeq, update_of_ne hq] at he
      exact ⟨e, he, ExactEntry.SameFact.refl e⟩
    · intro p' hp'
      cases hp'
  obtain ⟨s', hRun, hIdle, hCfg, hBatch, hEntries⟩ := cancelSeqCp_run hInv
  obtain ⟨hDup, hStep⟩ := step_of_ok .cancelSeqCp hRun
  rw [hStep]
  exact ⟨hDup, h.cancel hIdle hCfg hBatch hEntries⟩

end Steps

/-! ## The representation invariant of every run -/

/-- The invariant of sequence `q`, in the terms of the source. -/
structure Represents (s : TailStore) (q : Nat) : Prop where
  sorted : (s.seqs q).entries.Pairwise ExactEntry.le
  keys : ∀ k, k ∈ (s.seqs q).index ↔ ∃ e ∈ (s.seqs q).entries, e.key = k
  index : ∀ k e, (s.seqs q).find k = some e ↔ e ∈ (s.seqs q).entries ∧ e.key = k
  slots : (s.seqs q).entries.Pairwise fun a b => a.slot ≠ b.slot
  arena : ∀ e ∈ (s.seqs q).entries,
    q * s.cfg.arenaStride ≤ e.slot ∧ e.slot < (q + 1) * s.cfg.arenaStride
  used : ∀ l, (s.seqs q).used l = true ↔
    (∃ e ∈ (s.seqs q).entries, e.slot = q * s.cfg.arenaStride + l) ∨
      q * s.cfg.arenaStride + l ∈ s.extra q

theorem SeqOk_represents {q : Nat}
    (h : SeqOk s.cfg q s.nextNode (s.extra q) (s.seqs q)) : Represents s q where
  sorted := h.sorted
  keys k := by
    rw [Finmap.mem_iff]
    constructor
    · rintro ⟨n, hn⟩
      obtain ⟨e, he, hKey, -⟩ := (h.index k n).mp hn
      exact ⟨e, he, hKey⟩
    · rintro ⟨e, he, hKey⟩
      exact ⟨e.node, (h.index k e.node).mpr ⟨e, he, hKey, rfl⟩⟩
  index _ _ := h.find_iff
  slots := h.apart.imp fun hab => hab.2.2
  arena e he := by
    rw [Nat.succ_mul]
    exact h.arena e he
  used := h.used

theorem Reachable.agrees {cfg : TailConfig} (h : Reachable Disciplined cfg s) :
    TailInv s ∧ Agrees s := by
  induction h with
  | init =>
    refine ⟨(Idle.initial cfg).inv, ?_, ?_, ?_⟩
    · intro q _ r _ e he
      cases he
    · intro tx htx
      cases htx
    · intro p hp
      cases hp
  | step op _ hOp ih =>
    obtain ⟨hDup, hAgrees⟩ := ih.2.step ih.1 hOp
    exact ⟨ih.1.step hOp.1 hDup, hAgrees⟩

/-- In every state of every disciplined run the list, the index, the slots and
the bitmap of every sequence agree, and no disciplined call reports a duplicate
cell. -/
theorem Reachable.representation {cfg : TailConfig} {s : TailStore}
    (h : Reachable Disciplined cfg s) :
    (∀ q, Represents s q) ∧ ∀ op, Disciplined op s → ¬ op.Duplicates s :=
  ⟨fun q => SeqOk_represents (h.agrees.1.seqs q), fun _ hOp => (h.agrees.2.step h.agrees.1 hOp).1⟩

/-- A small overlay store: two retained tokens, two sequences, four rows each. -/
def sampleTail : TailConfig where
  nTokens := 2
  rollbackTokens := 0
  nSeqMax := 2
  arenaStride := 4
  sinkSlots := 0
  compact := false
  overlay := TailConfig.overlay_zero
  fits := by decide
  slotsFit := by decide

/-- A prepared copy, with the slot it has acquired. -/
def sampleCopy : TailStore :=
  (Op.prepareSeqCp 0 1 0 0 0 (-1)).step ((Op.commit 0 ⟨0, 3, 1⟩ 5 0 none).step { cfg := sampleTail })

/-- The slot of the pending copy is counted beside those of the entries. -/
theorem sampleCopy_representation :
    (∀ q, Represents sampleCopy q) ∧ sampleCopy.extra 1 = [4] ∧
      ¬ Op.commitSeqCp.Duplicates sampleCopy := by
  have hFirst : Reachable Disciplined sampleTail
      ((Op.commit 0 ⟨0, 3, 1⟩ 5 0 none).step { cfg := sampleTail }) := by
    refine Reachable.init.step _ ⟨fun hPending => absurd rfl hPending, ?_⟩
    intro r _ _ x hx
    cases hx
  have hIdle := (commit_spec (Idle.initial sampleTail) 0 ⟨0, 3, 1⟩ 5 0 none).2.1.idle
  have hReach : Reachable Disciplined sampleTail sampleCopy :=
    hFirst.step _ ⟨fun hPending => absurd hIdle.pending hPending, fun hne => absurd rfl hne⟩
  exact ⟨(Reachable.representation hReach).1, by decide,
    (Reachable.representation hReach).2 _ ⟨fun _ => Or.inl rfl, trivial⟩⟩

/-! ## An identity that was moved -/

/-- The identities and positions a run commits. -/
def committedFacts (ops : List Op) : List (TailIdentity × Int) :=
  ops.filterMap fun
    | .commit _ identity position _ _ => some (identity, position)
    | .restore _ identity position _ _ => some (identity, position)
    | _ => none

/-- Two sequences commit one identity at one position; between the two commits
the first sequence is shifted. -/
def movedRun : List Op :=
  [.commit 0 ⟨0, 0, 1⟩ 5 0 none, .seqAdd 0 0 (-1) 3, .commit 1 ⟨0, 0, 1⟩ 5 1 none]

/-- A shift between two commits makes the sequences disagree, and the copy back finds the cell on
both sides of its range. -/
theorem movedRun_duplicates :
    (∀ a ∈ committedFacts movedRun, ∀ b ∈ committedFacts movedRun,
      a.1.cellKey = b.1.cellKey → a = b) ∧
    (Op.seqCp 1 0 0 6).Duplicates (movedRun.foldl (fun s op => op.step s) { cfg := sampleTail }) := by
  refine ⟨by decide, ?_⟩
  have hRun : (match (Op.seqCp 1 0 0 6).run
      (movedRun.foldl (fun s op => op.step s) { cfg := sampleTail }) with
      | .error .duplicateCell _ => true
      | _ => false) = true := by decide
  split at hRun
  · rename_i s' hError
    exact ⟨s', hError⟩
  · cases hRun

end TailStore

end Beellama.Ports
