import Beellama.Ports.KvTailInvariant

/-!
# Sequence copies of the exact-tail store

A copy replaces the tail of the destination by the newest of its own entries outside the range and
the source's entries inside.  The invariant of a prepared copy follows from one induction over the
loop that assigns the slots.
-/

namespace Beellama.Ports

open Beellama.Verified List Option Function

namespace TailStore

variable {cfg : TailConfig} {q next : Nat} {t : SeqTail}

/-! ## Assigning slots -/

/-- Only the bitmap and the cursor change, and the bitmap gains the acquired slots, which were free.
-/
structure AcquiresOnly (cfg : TailConfig) (q : Nat) (t t' : SeqTail) (acquired : List Nat) :
    Prop where
  seq : t' = { t with used := t'.used, cursor := t'.cursor }
  cursor : 0 < cfg.arenaStride → t.cursor < cfg.arenaStride → t'.cursor < cfg.arenaStride
  used : ∀ l, t'.used l = true ↔ t.used l = true ∨ cfg.base q + l ∈ acquired
  free : ∀ slot ∈ acquired, cfg.base q ≤ slot ∧ slot < cfg.base q + cfg.arenaStride ∧
    t.used (slot - cfg.base q) = false

/-- A candidate and the destination entry made from it: the same token under
another slot if it is copied, the same entry otherwise. -/
def SameToken (c : CopyCandidate) (e : ExactEntry) : Prop :=
  e = { c.entry with slot := e.slot } ∧ (c.copied = false → e.slot = c.entry.slot)

/-- The slots of the entries of the destination that stay. -/
def keptSlots (cs : List CopyCandidate) : List Nat :=
  (cs.filter fun c => !c.copied).map fun c => c.entry.slot

variable {c : CopyCandidate} {cs : List CopyCandidate}

theorem keptSlots_cons_copied (h : c.copied = true) : keptSlots (c :: cs) = keptSlots cs := by
  simp [keptSlots, h]

theorem keptSlots_cons_kept
    (h : c.copied = false) : keptSlots (c :: cs) = c.entry.slot :: keptSlots cs := by
  simp [keptSlots, h]

/-- What a completed assignment gives the destination. -/
structure Assigned (cs : List CopyCandidate) (reusable acquired : List Nat)
    (es : List ExactEntry) : Prop where
  tokens : List.Forall₂ SameToken cs es
  slots : es.Pairwise fun a b => a.slot ≠ b.slot
  origin : ∀ e ∈ es, e.slot ∈ keptSlots cs ∨ e.slot ∈ reusable ∨ e.slot ∈ acquired
  needed : ∀ slot ∈ acquired, ∃ e ∈ es, e.slot = slot

/-- A slot of the arena that is marked as used. -/
def Marked (cfg : TailConfig) (q : Nat) (t : SeqTail) (slot : Nat) : Prop :=
  cfg.base q ≤ slot ∧ t.used (slot - cfg.base q) = true

theorem AcquiresOnly.refl : AcquiresOnly cfg q t t [] where
  seq := rfl
  cursor _ h := h
  used l := by simp
  free slot h := by cases h

variable {t' : SeqTail} {acquired : List Nat} {slot : Nat}

theorem AcquiresOnly.marked
    (h : AcquiresOnly cfg q t t' acquired) (hSlot : Marked cfg q t slot) : Marked cfg q t' slot :=
  ⟨hSlot.1, (h.used _).mpr (Or.inl hSlot.2)⟩

variable {t₁ : SeqTail}

theorem AcquiresOnly.cons (hAcquire : t.acquire cfg q = some (t₁, slot))
    (h : AcquiresOnly cfg q t₁ t' acquired) : AcquiresOnly cfg q t t' (slot :: acquired) := by
  obtain ⟨l, hFree, rfl, rfl⟩ := acquire_spec hAcquire
  obtain ⟨hl, hUnused⟩ := freeSlot_spec hFree
  refine ⟨h.seq, fun hPos _ => h.cursor hPos (Nat.mod_lt _ hPos), ?_, ?_⟩
  · intro i
    rw [h.used]
    by_cases hi : i = l
    · simp [hi]
    · simp [hi]
  intro slot hSlot
  rcases mem_cons.mp hSlot with rfl | hSlot
  · refine ⟨by omega, by omega, ?_⟩
    rw [Nat.add_sub_cancel_left]
    exact hUnused
  obtain ⟨hLow, hHigh, hNot⟩ := h.free slot hSlot
  simp only [update_apply] at hNot
  split at hNot
  · cases hNot
  · exact ⟨hLow, hHigh, hNot⟩

variable {e : ExactEntry} {es : List ExactEntry} {reusable : List Nat}

/-- One more entry, under a slot that none of the later ones has. -/
theorem Assigned.cons {reusable' acquired' : List Nat}
    (h : Assigned cs reusable acquired es) (hToken : SameToken c e)
    (hNew : e.slot ∉ keptSlots cs ∧ e.slot ∉ reusable ∧ e.slot ∉ acquired)
    (hOrigin : e.slot ∈ keptSlots (c :: cs) ∨ e.slot ∈ reusable' ∨ e.slot ∈ acquired')
    (hReusable : ∀ x ∈ reusable, x ∈ reusable') (hAcquired : ∀ x ∈ acquired, x ∈ acquired')
    (hNeeded : ∀ x ∈ acquired', x = e.slot ∨ x ∈ acquired) :
    Assigned (c :: cs) reusable' acquired' (e :: es) := by
  have hKept : ∀ x ∈ keptSlots cs, x ∈ keptSlots (c :: cs) := by
    intro x hx
    cases hCopied : c.copied with
    | true => rwa [keptSlots_cons_copied hCopied]
    | false =>
      rw [keptSlots_cons_kept hCopied]
      exact mem_cons_of_mem _ hx
  refine ⟨List.Forall₂.cons hToken h.tokens, pairwise_cons.mpr ⟨?_, h.slots⟩, ?_, ?_⟩
  · intro x hx hEq
    rcases h.origin x hx with hOld | hOld | hOld
    · exact hNew.1 (hEq ▸ hOld)
    · exact hNew.2.1 (hEq ▸ hOld)
    · exact hNew.2.2 (hEq ▸ hOld)
  · intro x hx
    rcases mem_cons.mp hx with rfl | hx
    · exact hOrigin
    rcases h.origin x hx with hOld | hOld | hOld
    · exact Or.inl (hKept _ hOld)
    · exact Or.inr (Or.inl (hReusable _ hOld))
    · exact Or.inr (Or.inr (hAcquired _ hOld))
  intro x hx
  rcases hNeeded x hx with rfl | hx
  · exact ⟨e, mem_cons_self, rfl⟩
  · obtain ⟨y, hy, hSlot⟩ := h.needed x hx
    exact ⟨y, mem_cons_of_mem _ hy, hSlot⟩

theorem AcquiresOnly.not_mem
    (h : AcquiresOnly cfg q t t' acquired) (hSlot : Marked cfg q t slot) : slot ∉ acquired := by
  intro hx
  have hFree := (h.free slot hx).2.2
  rw [hSlot.2] at hFree
  cases hFree

/-- What the loop over the retained candidates returns. -/
def AssignSpec (cfg : TailConfig) (q : Nat) (cs : List CopyCandidate) (reusable : List Nat)
    (t : SeqTail) : SeqTail × Option (List ExactEntry × List SlotCopy) × List Nat → Prop
  | (t', r, acquired) =>
    AcquiresOnly cfg q t t' acquired ∧
      ∀ es copies, r = some (es, copies) → Assigned cs reusable acquired es

/-- A copied candidate that reuses a slot of the destination. -/
theorem AssignSpec.reuse {rest : List Nat}
    (hCopied : c.copied = true) (hDistinct : (keptSlots cs ++ (rest ++ [slot])).Nodup)
    (hMarked : Marked cfg q t slot)
    (h : AssignSpec cfg q cs rest t (assignSlots cfg q cs rest t)) :
    AssignSpec cfg q (c :: cs) (rest ++ [slot]) t
      (assignSlots cfg q (c :: cs) (rest ++ [slot]) t) := by
  obtain ⟨t₁, r₁, acquired₁, hRest⟩ :
      ∃ t₁ r₁ acquired₁, assignSlots cfg q cs rest t = (t₁, r₁, acquired₁) := ⟨_, _, _, rfl⟩
  rw [hRest] at h
  obtain ⟨hOnly, hAssigned⟩ := h
  have hNew : slot ∉ keptSlots cs ∧ slot ∉ rest ∧ slot ∉ acquired₁ := by
    rw [← append_assoc, nodup_append] at hDistinct
    have hNot := hDistinct.2.2
    exact ⟨fun hx => hNot slot (by simp [hx]) slot (by simp) rfl,
      fun hx => hNot slot (by simp [hx]) slot (by simp) rfl, hOnly.not_mem hMarked⟩
  simp only [assignSlots, hCopied, getLast?_append, dropLast_concat, hRest]
  cases r₁ with
  | none => exact ⟨hOnly, by simp⟩
  | some p =>
    refine ⟨hOnly, ?_⟩
    intro es copies hes
    obtain ⟨rfl, -⟩ := Prod.mk.inj (some.inj hes)
    exact (hAssigned p.1 p.2 rfl).cons ⟨rfl, by simp [hCopied]⟩ hNew
      (Or.inr (Or.inl (by simp))) (fun x hx => by simp [hx]) (fun x hx => hx)
      fun x hx => Or.inr hx

theorem AssignSpec.acquire
    (hCopied : c.copied = true) (hMarked : ∀ x ∈ keptSlots cs, Marked cfg q t x)
    (hAcquire : t.acquire cfg q = some (t₁, slot))
    (h : AssignSpec cfg q cs [] t₁ (assignSlots cfg q cs [] t₁)) :
    AssignSpec cfg q (c :: cs) [] t (assignSlots cfg q (c :: cs) [] t) := by
  have hStep : AcquiresOnly cfg q t t₁ [slot] := AcquiresOnly.cons hAcquire AcquiresOnly.refl
  have hTaken : Marked cfg q t₁ slot := by
    have hLow := (hStep.free slot (by simp)).1
    refine ⟨hLow, (hStep.used _).mpr (Or.inr ?_)⟩
    rw [Nat.add_sub_cancel' hLow]
    exact mem_singleton_self slot
  obtain ⟨t₂, r₂, acquired₂, hRest⟩ :
      ∃ t₂ r₂ acquired₂, assignSlots cfg q cs [] t₁ = (t₂, r₂, acquired₂) := ⟨_, _, _, rfl⟩
  rw [hRest] at h
  obtain ⟨hOnly, hAssigned⟩ := h
  have hNew : slot ∉ keptSlots cs ∧ slot ∉ ([] : List Nat) ∧ slot ∉ acquired₂ :=
    ⟨fun hx => hStep.not_mem (hMarked slot hx) (by simp), by simp, hOnly.not_mem hTaken⟩
  simp only [assignSlots, hCopied, hAcquire, hRest]
  cases r₂ with
  | none => exact ⟨AcquiresOnly.cons hAcquire hOnly, by simp⟩
  | some p =>
    refine ⟨AcquiresOnly.cons hAcquire hOnly, ?_⟩
    intro es copies hes
    obtain ⟨rfl, -⟩ := Prod.mk.inj (some.inj hes)
    exact (hAssigned p.1 p.2 rfl).cons ⟨rfl, by simp [hCopied]⟩ hNew
      (Or.inr (Or.inr mem_cons_self)) (fun x hx => hx)
      (fun x hx => mem_cons_of_mem _ hx) fun x hx => mem_cons.mp hx

/-- A candidate of the destination keeps its slot. -/
theorem AssignSpec.keep
    (hCopied : c.copied = false) (hNew : c.entry.slot ∉ keptSlots cs ++ reusable)
    (hMarked : Marked cfg q t c.entry.slot)
    (h : AssignSpec cfg q cs reusable t (assignSlots cfg q cs reusable t)) :
    AssignSpec cfg q (c :: cs) reusable t (assignSlots cfg q (c :: cs) reusable t) := by
  obtain ⟨t₁, r₁, acquired₁, hRest⟩ :
      ∃ t₁ r₁ acquired₁, assignSlots cfg q cs reusable t = (t₁, r₁, acquired₁) := ⟨_, _, _, rfl⟩
  rw [hRest] at h
  obtain ⟨hOnly, hAssigned⟩ := h
  rw [mem_append, not_or] at hNew
  simp only [assignSlots, hCopied, hRest]
  cases r₁ with
  | none => exact ⟨hOnly, by simp⟩
  | some p =>
    refine ⟨hOnly, ?_⟩
    intro es copies hes
    obtain ⟨rfl, -⟩ := Prod.mk.inj (some.inj hes)
    refine (hAssigned p.1 p.2 rfl).cons ⟨rfl, fun _ => rfl⟩
      ⟨hNew.1, hNew.2, hOnly.not_mem hMarked⟩ (Or.inl ?_) (fun x hx => hx) (fun x hx => hx)
      fun x hx => Or.inr hx
    rw [keptSlots_cons_kept hCopied]
    exact mem_cons_self

theorem assignSlots_spec (cs : List CopyCandidate) (reusable : List Nat) (t : SeqTail)
    (hDistinct : (keptSlots cs ++ reusable).Nodup)
    (hMarked : ∀ slot ∈ keptSlots cs ++ reusable, Marked cfg q t slot) :
    AssignSpec cfg q cs reusable t (assignSlots cfg q cs reusable t) := by
  induction cs generalizing reusable t with
  | nil =>
    refine ⟨AcquiresOnly.refl, ?_⟩
    intro es copies hes
    obtain ⟨rfl, -⟩ := Prod.mk.inj (some.inj hes)
    exact ⟨List.Forall₂.nil, List.Pairwise.nil, by simp, by simp⟩
  | cons c cs ih =>
    cases hCopied : c.copied with
    | false =>
      rw [keptSlots_cons_kept hCopied] at hDistinct hMarked
      rw [cons_append, nodup_cons] at hDistinct
      exact AssignSpec.keep hCopied hDistinct.1 (hMarked _ mem_cons_self)
        (ih reusable t hDistinct.2 fun x hx => hMarked x (mem_cons_of_mem _ hx))
    | true =>
      rw [keptSlots_cons_copied hCopied] at hDistinct hMarked
      cases hLast : reusable.getLast? with
      | some slot =>
        obtain ⟨rest, rfl⟩ : ∃ rest, reusable = rest ++ [slot] :=
          ⟨reusable.dropLast, (dropLast_append_getLast? slot hLast).symm⟩
        refine AssignSpec.reuse hCopied hDistinct (hMarked slot (by simp)) (ih rest t ?_ ?_)
        · exact hDistinct.sublist (by simp)
        · exact fun x hx => hMarked x (by simp at hx ⊢; tauto)
      | none =>
        obtain rfl : reusable = [] := getLast?_eq_none_iff.mp hLast
        rw [append_nil] at hDistinct hMarked
        cases hAcquire : t.acquire cfg q with
        | none =>
          simp only [assignSlots, hCopied, hAcquire]
          exact ⟨AcquiresOnly.refl, by simp⟩
        | some p =>
          have hStep : AcquiresOnly cfg q t p.1 [p.2] :=
            AcquiresOnly.cons hAcquire AcquiresOnly.refl
          refine AssignSpec.acquire hCopied hMarked hAcquire (ih [] p.1 ?_ ?_)
          · rwa [append_nil]
          · exact fun x hx => hStep.marked (hMarked x (by simpa using hx))

/-! ## Preparing a copy -/

theorem releaseAll_used (slots : List Nat) (t : SeqTail) (i : Nat) :
    (releaseAll cfg q slots t).used i = true ↔
      t.used i = true ∧ ∀ slot ∈ slots, i ≠ slot - cfg.base q := by
  unfold releaseAll
  induction slots generalizing t with
  | nil => simp
  | cons slot slots ih =>
    rw [foldl_cons, ih]
    simp only [SeqTail.release, update_apply]
    change (if i = slot - cfg.base q then false else t.used i) = true ∧ _ ↔ _
    by_cases hi : i = slot - cfg.base q
    · simp [hi]
    · simp [hi]

theorem releaseAll_eq (slots : List Nat) (t : SeqTail) :
    releaseAll cfg q slots t = { t with used := (releaseAll cfg q slots t).used } := by
  unfold releaseAll
  induction slots generalizing t with
  | nil => rfl
  | cons slot slots ih =>
    rw [foldl_cons, ih]
    rfl

theorem AcquiresOnly.seqOk (h : AcquiresOnly cfg q t t' acquired) (hOk : SeqOk cfg q next [] t) :
    SeqOk cfg q next acquired t' := by
  rw [h.seq]
  refine { hOk with used := ?_, cursor := ?_ }
  · intro l
    simp only [h.used, hOk.used, not_mem_nil, or_false]
  · exact fun hPos => h.cursor hPos (hOk.cursor hPos)

theorem releaseAcquired_seqOk (h : SeqOk cfg q next acquired t)
    (hArena : ∀ slot ∈ acquired, cfg.base q ≤ slot)
    (hTaken : ∀ slot ∈ acquired, ∀ e ∈ t.entries, e.slot ≠ slot) :
    SeqOk cfg q next [] (releaseAll cfg q acquired t) := by
  rw [releaseAll_eq]
  refine { h with used := ?_ }
  intro l
  simp only [releaseAll_used, h.used, not_mem_nil, or_false]
  constructor
  · rintro ⟨hEntry | hExtra, hNot⟩
    · exact hEntry
    · exact absurd (Nat.add_sub_cancel_left ..).symm (hNot _ hExtra)
  rintro ⟨e, he, hSlot⟩
  refine ⟨Or.inl ⟨e, he, hSlot⟩, ?_⟩
  intro slot hx hEq
  have hLow := hArena slot hx
  exact hTaken slot hx e he (by omega)

theorem AcquiresOnly.taken (h : AcquiresOnly cfg q t t' acquired) (hOk : SeqOk cfg q next [] t) :
    ∀ slot ∈ acquired, ∀ e ∈ t.entries, e.slot ≠ slot := by
  intro slot hSlot e he hEq
  obtain ⟨hLow, -, hFree⟩ := h.free slot hSlot
  have hUsed := (hOk.used (slot - cfg.base q)).mpr (Or.inl ⟨e, he, by omega⟩)
  rw [hFree] at hUsed
  cases hUsed

variable {cs' : List CopyCandidate}

theorem keptSlots_perm (h : cs.Perm cs') :
    (keptSlots cs).Perm (keptSlots cs') := (h.filter _).map _

theorem keptSlots_sublist (h : cs.Sublist cs') :
    (keptSlots cs).Sublist (keptSlots cs') := (h.filter _).map _

theorem keptSlots_copyCandidates (s : TailStore) (src dst srcStream dstStream : Nat)
    (p0 p1 : Int) :
    keptSlots (s.copyCandidates src dst srcStream dstStream p0 p1) =
      ((s.seqs dst).entries.filter fun e => !inRange p0 p1 e.position).map fun e => e.slot := by
  unfold copyCandidates keptSlots
  simp [List.filter_map]

/-- The retained candidates: their order and their number. -/
theorem retainedCandidates_spec (cfg : TailConfig) (cs : List CopyCandidate) :
    ∃ sorted, sorted.Perm cs ∧ (retainedCandidates cfg cs).Sublist sorted ∧
      (retainedCandidates cfg cs).Pairwise (fun a b => a.entry.le b.entry) ∧
      (retainedCandidates cfg cs).length ≤ cfg.retained := by
  refine ⟨cs.insertionSort fun a b => a.entry.le b.entry, perm_insertionSort _ _,
    drop_sublist _ _, ?_, ?_⟩
  · exact (pairwise_insertionSort _ cs).sublist (drop_sublist _ _)
  unfold retainedCandidates
  rw [length_drop]
  omega

theorem mem_retainedCandidates (h : c ∈ retainedCandidates cfg cs) : c ∈ cs := by
  obtain ⟨sorted, hPerm, hSub, -⟩ := retainedCandidates_spec cfg cs
  exact hPerm.mem_iff.mp (hSub.subset h)

variable {s : TailStore} {dst : Nat}

/-- The slots that go into the loop are slots of the destination, each once. -/
theorem copySlots_distinct (h : SeqOk s.cfg dst next [] (s.seqs dst))
    (src srcStream dstStream : Nat) (p0 p1 : Int) :
    let retained :=
      retainedCandidates s.cfg (s.copyCandidates src dst srcStream dstStream p0 p1)
    (keptSlots retained ++ reusableSlots (s.seqs dst) retained).Nodup ∧
      ∀ slot ∈ keptSlots retained ++ reusableSlots (s.seqs dst) retained,
        ∃ e ∈ (s.seqs dst).entries, e.slot = slot := by
  obtain ⟨sorted, hPerm, hSub, -⟩ := retainedCandidates_spec s.cfg
    (s.copyCandidates src dst srcStream dstStream p0 p1)
  have hSlots : ((s.seqs dst).entries.map fun e => e.slot).Nodup :=
    pairwise_map.mpr (h.apart.imp fun hab => hab.2.2)
  have hKeptPerm := keptSlots_perm hPerm
  rw [keptSlots_copyCandidates] at hKeptPerm
  have hKeptSub := keptSlots_sublist hSub
  have hAllSub : (((s.seqs dst).entries.filter fun e => !inRange p0 p1 e.position).map
      fun e => e.slot).Sublist ((s.seqs dst).entries.map fun e => e.slot) :=
    filter_sublist.map _
  constructor
  · rw [nodup_append]
    refine ⟨?_, hSlots.sublist filter_sublist, ?_⟩
    · exact (hKeptPerm.nodup_iff.mpr (hSlots.sublist hAllSub)).sublist hKeptSub
    rintro a ha b hb rfl
    simp only [reusableSlots, mem_filter, decide_eq_true_eq] at hb
    exact hb.2 ha
  intro slot hSlot
  have hMem : slot ∈ (s.seqs dst).entries.map fun e => e.slot := by
    rcases mem_append.mp hSlot with hKept | hReusable
    · exact hAllSub.subset (hKeptPerm.mem_iff.mp (hKeptSub.subset hKept))
    · exact mem_of_mem_filter hReusable
  obtain ⟨e, he, hEq⟩ := mem_map.mp hMem
  exact ⟨e, he, hEq⟩

theorem marked_of_mem (h : SeqOk cfg q next [] t) (he : e ∈ t.entries) : Marked cfg q t e.slot := by
  have hLow := (h.arena e he).1
  exact ⟨hLow, (h.used _).mpr (Or.inl ⟨e, he, by omega⟩)⟩

theorem tokens_sorted
    (h : List.Forall₂ SameToken cs es) (hSorted : cs.Pairwise fun a b => a.entry.le b.entry) :
    es.Pairwise ExactEntry.le := by
  induction h with
  | nil => exact List.Pairwise.nil
  | cons hToken hRest ih =>
    rw [pairwise_cons] at hSorted ⊢
    refine ⟨?_, ih hSorted.2⟩
    intro x hx
    obtain ⟨c', hc', hToken'⟩ : ∃ c' ∈ _, SameToken c' x := by
      obtain ⟨i, hi, rfl⟩ := mem_iff_getElem.mp hx
      exact ⟨_, getElem_mem (by rw [hRest.length_eq]; exact hi),
        List.Forall₂.get hRest _ _⟩
    have hle := hSorted.1 c' hc'
    rw [hToken.1, hToken'.1]
    exact hle

/-- The candidates of a copy that the destination will retain. -/
def copyRetained (s : TailStore) (src dst srcStream dstStream : Nat) (p0 p1 : Int) :
    List CopyCandidate :=
  retainedCandidates s.cfg (s.copyCandidates src dst srcStream dstStream p0 p1)

theorem assignSlots_copy (h : Idle s) (src dst srcStream dstStream : Nat)
    (p0 p1 : Int) :
    let retained := s.copyRetained src dst srcStream dstStream p0 p1
    AssignSpec s.cfg dst retained (reusableSlots (s.seqs dst) retained) (s.seqs dst)
      (assignSlots s.cfg dst retained (reusableSlots (s.seqs dst) retained) (s.seqs dst)) := by
  intro retained
  obtain ⟨hDistinct, hOwned⟩ := copySlots_distinct (h.seqs dst) src srcStream dstStream p0 p1
  refine assignSlots_spec retained _ _ hDistinct ?_
  intro slot hSlot
  obtain ⟨e, he, rfl⟩ := hOwned slot hSlot
  exact marked_of_mem (h.seqs dst) he

variable {p : PendingSeqCp}

/-- Entering a copy transaction changes the bitmap and the cursor of the
destination. -/
theorem Idle.enterCopy (h : Idle s) {t : SeqTail}
    (hDst : p.dst = dst)
    (hOnly : AcquiresOnly s.cfg dst (s.seqs dst) t p.acquired)
    (hPending : PendingOk s.cfg t p) :
    TailInv { s.modSeq dst (fun _ => t) with pending := some p } where
  seqs q := by
    simp only [extra, TailStore.modSeq, update_apply]
    by_cases hq : q = dst
    · subst hq
      simp only [hDst]
      exact hOnly.seqOk (h.seqs q)
    have hne : ¬ p.dst = q := fun hEq => hq (hEq.symm.trans hDst)
    simp only [hq, hne]
    exact h.seqs q
  pending p' hp' := by
    obtain rfl := some.inj hp'
    simp only [TailStore.modSeq, hDst, update_self]
    exact hPending
  batch := h.batch

/-- A prepared copy satisfies the invariant; a copy that finds no slot leaves
the store as it was up to the cursor. -/
theorem prepareSeqCp_spec (h : Idle s) (src dst : Int)
    (srcStream dstStream : Nat) (p0 p1 : Int) :
    match prepareSeqCp src dst srcStream dstStream p0 p1 s with
    | .ok _ s' => TailInv s' ∧ (s' = s ∨
        ∃ p, s'.pending = some p ∧ s.validSeq src = true ∧ s.validSeq dst = true ∧
          s'.batch = s.batch ∧ p.dst = dst.toNat ∧
          (∀ q, (s'.seqs q).entries = (s.seqs q).entries) ∧
          List.Forall₂ SameToken
            (s.copyRetained src.toNat dst.toNat srcStream dstStream p0 p1) p.destination)
    | .error err s' => err = .arenaExhausted dst.toNat s.cfg.arenaStride ∧ Idle s' ∧
        (∀ q, (s'.seqs q).entries = (s.seqs q).entries) ∧ s'.batch = s.batch := by
  unfold prepareSeqCp
  by_cases hInvalid : !s.validSeq src ∨ !s.validSeq dst ∨ src = dst
  · rw [if_pos hInvalid]
    exact ⟨h.inv, Or.inl rfl⟩
  rw [if_neg hInvalid, if_neg (by simp [h.pending])]
  have hValid : s.validSeq src = true ∧ s.validSeq dst = true := by
    simp only [not_or, Bool.not_eq_true', Bool.not_eq_false] at hInvalid
    exact ⟨hInvalid.1, hInvalid.2.1⟩
  have hSpec := assignSlots_copy h src.toNat dst.toNat srcStream dstStream p0 p1
  have hSorted := retainedCandidates_spec s.cfg
    (s.copyCandidates src.toNat dst.toNat srcStream dstStream p0 p1)
  have hOwned := (copySlots_distinct (h.seqs dst.toNat) src.toNat srcStream dstStream p0 p1).2
  dsimp only [copyRetained] at hSpec hOwned ⊢
  generalize retainedCandidates s.cfg
    (s.copyCandidates src.toNat dst.toNat srcStream dstStream p0 p1) = retained
    at hSpec hSorted hOwned ⊢
  obtain ⟨-, -, -, hSorted, hLength⟩ := hSorted
  generalize assignSlots s.cfg dst.toNat retained
    (reusableSlots (s.seqs dst.toNat) retained) (s.seqs dst.toNat) = outcome at hSpec
  obtain ⟨t, r, acquired⟩ := outcome
  obtain ⟨hOnly, hAssigned⟩ := hSpec
  have hEntries : t.entries = (s.seqs dst.toNat).entries := by rw [hOnly.seq]
  have hSame : ∀ (f : SeqTail → SeqTail) (q : Nat),
      (f (s.seqs dst.toNat)).entries = (s.seqs dst.toNat).entries →
      ((s.modSeq dst.toNat f).seqs q).entries = (s.seqs q).entries := by
    intro f q hf
    by_cases hq : q = dst.toNat
    · subst hq
      rw [modSeq_seqs_self, hf]
    · rw [modSeq_seqs_ne s hq]
  cases r with
  | none =>
    dsimp only
    have hRelease := releaseAcquired_seqOk (hOnly.seqOk (h.seqs dst.toNat))
      (fun slot hSlot => (hOnly.free slot hSlot).1)
      (by rw [hEntries]; exact hOnly.taken (h.seqs dst.toNat))
    refine ⟨rfl, h.modSeq hRelease, fun q => hSame _ q ?_, rfl⟩
    rw [releaseAll_eq]
    exact hEntries
  | some pair =>
    obtain ⟨destination, copies⟩ := pair
    have hA := hAssigned destination copies rfl
    dsimp only
    refine ⟨h.enterCopy rfl hOnly ?_,
      Or.inr ⟨_, rfl, hValid.1, hValid.2, rfl, rfl, fun q => hSame _ q hEntries, hA.tokens⟩⟩
    refine ⟨tokens_sorted hA.tokens hSorted, hA.slots, ?_, hA.needed, ?_, ?_, ?_, ?_, ?_⟩
    · intro e he
      rw [hEntries]
      rcases hA.origin e he with hSlot | hSlot | hSlot
      · exact Or.inl (hOwned _ (mem_append_left _ hSlot))
      · exact Or.inl (hOwned _ (mem_append_right _ hSlot))
      · exact Or.inr hSlot
    · intro slot hSlot
      obtain ⟨hLow, hHigh, -⟩ := hOnly.free slot hSlot
      exact ⟨hLow, hHigh⟩
    · rw [hEntries]
      exact hOnly.taken (h.seqs dst.toNat)
    · dsimp only
      split
      · exact (Nat.min_le_left _ _).trans (h.seqs dst.toNat).recovery
      · exact Nat.zero_le _
    · intro hZero
      dsimp only at hZero ⊢
      rw [if_pos hZero, (h.seqs dst.toNat).clean (Nat.or_eq_zero_iff.mp hZero).1]
      exact Nat.zero_min _
    intro hCompact
    rw [← hA.tokens.length_eq]
    simpa [TailConfig.retained, hCompact] using hLength

/-! ## A copy always finds its slots -/

/-! ## Finishing a copy -/

variable {n : Nat} {l : List ExactEntry}

theorem mem_numberNodes (h : e ∈ numberNodes n l) :
    ∃ x ∈ l, e = { x with node := e.node } ∧ n ≤ e.node ∧ e.node < n + l.length := by
  induction l generalizing n with
  | nil => cases h
  | cons a l ih =>
    rcases mem_cons.mp h with rfl | h
    · exact ⟨a, mem_cons_self, rfl, Nat.le_refl n, by simp⟩
    obtain ⟨x, hx, hEq, hLow, hHigh⟩ := ih h
    refine ⟨x, mem_cons_of_mem a hx, hEq, by omega, ?_⟩
    rw [length_cons]
    omega

theorem exists_numberNodes {x : ExactEntry} (h : x ∈ l) :
    ∃ e ∈ numberNodes n l, e = { x with node := e.node } := by
  induction l generalizing n with
  | nil => cases h
  | cons a l ih =>
    rcases mem_cons.mp h with rfl | h
    · exact ⟨_, mem_cons_self, rfl⟩
    · obtain ⟨e, he, hEq⟩ := ih h (n := n + 1)
      exact ⟨e, mem_cons_of_mem _ he, hEq⟩

/-- Fresh nodes are apart; what does not read the node carries over. -/
theorem numberNodes_pairwise {R : ExactEntry → ExactEntry → Prop} (h : l.Pairwise R)
    (hR : ∀ a b i j, R a b → R { a with node := i } { b with node := j }) :
    (numberNodes n l).Pairwise fun a b => R a b ∧ a.node ≠ b.node := by
  induction l generalizing n with
  | nil => exact List.Pairwise.nil
  | cons a l ih =>
    rw [pairwise_cons] at h
    refine pairwise_cons.mpr ⟨?_, ih h.2⟩
    intro e he
    obtain ⟨x, hx, hEq, hLow, -⟩ := mem_numberNodes he
    constructor
    · rw [hEq]
      exact hR a x n _ (h.1 x hx)
    · dsimp only
      omega

theorem length_numberNodes (n : Nat) (l : List ExactEntry) :
    (numberNodes n l).length = l.length := by
  induction l generalizing n with
  | nil => rfl
  | cons a l ih => simp [numberNodes, ih]

/-- The destination after a copy: the slots it no longer needs are released. -/
def copiedSeq (cfg : TailConfig) (next : Nat) (p : PendingSeqCp) (t : SeqTail) : SeqTail :=
  let kept := p.destination.map fun e => e.slot
  let stale := (t.entries.map fun e => e.slot).filter fun slot => slot ∉ kept
  { releaseAll cfg p.dst stale t with entries := numberNodes next p.destination }

/-- The store after a successful `commit_seq_cp`. -/
def copied (s : TailStore) (p : PendingSeqCp) : TailStore :=
  { (s.modSeq p.dst fun t =>
      { (copiedSeq s.cfg s.nextNode p t).reindex with
        degradation := p.degradation
        recovery := p.recovery }) with
    pending := none
    nextNode := s.nextNode + p.destination.length }

/-- No cell occurs twice in the destination. -/
def CellsDistinct (l : List ExactEntry) : Prop := l.Pairwise fun a b => a.key ≠ b.key

theorem copiedSeq_rows (h : SeqOk cfg p.dst next p.acquired t)
    (hp : PendingOk cfg t p) (hCells : CellsDistinct p.destination) :
    SeqOk cfg p.dst (next + p.destination.length) []
      { (copiedSeq cfg next p t).reindex with
        degradation := p.degradation
        recovery := p.recovery } := by
  have hApart : (numberNodes next p.destination).Pairwise ExactEntry.Apart := by
    refine (numberNodes_pairwise (hCells.and hp.slots) ?_).imp ?_
    · exact fun a b i j hab => hab
    · exact fun hab => ⟨hab.1.1, hab.2, hab.1.2⟩
  have hSorted : (numberNodes next p.destination).Pairwise ExactEntry.le := by
    refine (numberNodes_pairwise hp.sorted ?_).imp fun hab => hab.1
    intro a b i j hab
    rw [ExactEntry.le_iff] at hab ⊢
    exact hab
  have hRows : SeqRows cfg p.dst (next + p.destination.length) []
      { copiedSeq cfg next p t with
        degradation := p.degradation
        recovery := p.recovery } := by
    unfold copiedSeq
    dsimp only
    rw [releaseAll_eq]
    refine ⟨hApart, ?_, ?_, ?_, h.cursor, hp.recovery, hp.clean, ?_⟩
    · intro e he
      obtain ⟨x, hx, hEq, -⟩ := mem_numberNodes he
      rw [hEq]
      rcases hp.owned x hx with ⟨y, hy, hSlot⟩ | hSlot
      · exact hSlot ▸ h.arena y hy
      · exact hp.arena _ hSlot
    · intro e he
      exact (mem_numberNodes he).choose_spec.2.2.2
    · intro i
      simp only [releaseAll_used, h.used, List.mem_filter, List.mem_map, decide_eq_true_eq,
        List.not_mem_nil, or_false]
      constructor
      · rintro ⟨hOld, hNot⟩
        -- a slot still marked is one the destination keeps
        have hKept : ∃ x ∈ p.destination, x.slot = cfg.base p.dst + i := by
          rcases hOld with ⟨y, hy, hSlot⟩ | hAcquired
          · by_contra hNone
            exact hNot y.slot ⟨⟨y, hy, rfl⟩, by rwa [hSlot]⟩ (by omega)
          · exact hp.needed _ hAcquired
        obtain ⟨x, hx, hSlot⟩ := hKept
        obtain ⟨e, he, hEq⟩ := exists_numberNodes (n := next) hx
        exact ⟨e, he, by rw [hEq]; exact hSlot⟩
      rintro ⟨e, he, hSlot⟩
      obtain ⟨x, hx, hEq, -⟩ := mem_numberNodes he
      have hxSlot : x.slot = cfg.base p.dst + i := by
        rw [hEq] at hSlot
        exact hSlot
      refine ⟨?_, ?_⟩
      · rcases hp.owned x hx with ⟨y, hy, hySlot⟩ | hAcquired
        · exact Or.inl ⟨y, hy, hySlot.trans hxSlot⟩
        · exact Or.inr (hxSlot ▸ hAcquired)
      rintro slot ⟨⟨y, hy, rfl⟩, hNot⟩ hi
      have hLow := (h.arena y hy).1
      exact hNot ⟨x, hx, by omega⟩
    intro hCompact
    simp only [length_numberNodes]
    exact hp.limit hCompact
  exact hRows.reindex hSorted

theorem buildIndex_flag {index : TailIndex}
    (h : (buildIndex l index).2 = true) : CellsDistinct l ∧ ∀ e ∈ l, e.key ∉ index := by
  induction l generalizing index with
  | nil => exact ⟨List.Pairwise.nil, by simp⟩
  | cons e l ih =>
    unfold buildIndex at h
    split at h
    · cases h
    rename_i hNew
    obtain ⟨hRest, hAway⟩ := ih h
    constructor
    · refine pairwise_cons.mpr ⟨?_, hRest⟩
      intro x hx hEq
      have hNot := hAway x hx
      rw [Finmap.mem_insert, not_or] at hNot
      exact hNot.1 hEq.symm
    intro x hx
    rcases mem_cons.mp hx with rfl | hx
    · exact hNew
    have hNot := hAway x hx
    rw [Finmap.mem_insert, not_or] at hNot
    exact hNot.2

theorem commitSeqCp_run (h : TailInv s)
    (hp : s.pending = some p) (hCells : CellsDistinct p.destination) :
    commitSeqCp s = .ok () (s.copied p) := by
  have hDst : SeqOk s.cfg p.dst s.nextNode p.acquired (s.seqs p.dst) := by
    have hq := h.seqs p.dst
    simpa [extra, hp] using hq
  have hOk := copiedSeq_rows hDst (h.pending p hp) hCells
  unfold commitSeqCp
  rw [run_bind (run_get s)]
  simp only [hp]
  change (rebuildIndex p.dst >>= fun _ => modify _)
    { (s.modSeq p.dst fun t => copiedSeq s.cfg s.nextNode p t) with
      pending := none
      nextNode := s.nextNode + p.destination.length } = _
  rw [run_bind (rebuildIndex_eq ?_)]
  · rw [run_modify]
    simp only [copied, TailStore.modSeq, update_self, update_idem]
  · rw [modSeq_seqs_self]
    exact hOk.apart

theorem rebuildIndex_error {q : Nat}
    (h : ¬ (buildIndex (s.seqs q).entries ∅).2 = true) :
    ∃ s', rebuildIndex q s = .error .duplicateCell s' := by
  unfold rebuildIndex
  rw [if_neg h]
  exact ⟨_, rfl⟩

theorem numberNodes_keys (n : Nat) (l : List ExactEntry) :
    (numberNodes n l).map ExactEntry.key = l.map ExactEntry.key := by
  induction l generalizing n with
  | nil => rfl
  | cons a l ih =>
    simp only [numberNodes, map_cons, ih]
    rfl

/-- A cell that occurs twice in the destination is reported. -/
theorem commitSeqCp_duplicate (hp : s.pending = some p)
    (hCells : ¬ CellsDistinct p.destination) :
    ∃ s', commitSeqCp s = .error .duplicateCell s' := by
  have hFlag : ¬ (buildIndex (numberNodes s.nextNode p.destination) ∅).2 = true := by
    intro hFlag
    have hNodup := pairwise_map.mpr (buildIndex_flag hFlag).1
    rw [numberNodes_keys] at hNodup
    exact hCells (pairwise_map.mp hNodup)
  unfold commitSeqCp
  rw [run_bind (run_get s)]
  simp only [hp]
  change ∃ s', (rebuildIndex p.dst >>= fun _ => modify _)
    { (s.modSeq p.dst fun t => copiedSeq s.cfg s.nextNode p t) with
      pending := none
      nextNode := s.nextNode + p.destination.length } = .error .duplicateCell s'
  obtain ⟨s', hRebuild⟩ := rebuildIndex_error (q := p.dst) (s :=
    { (s.modSeq p.dst fun t => copiedSeq s.cfg s.nextNode p t) with
      pending := none
      nextNode := s.nextNode + p.destination.length }) (by
    rw [modSeq_seqs_self]
    exact hFlag)
  exact ⟨s', run_bind_error hRebuild⟩

theorem Idle.copied (h : TailInv s)
    (hp : s.pending = some p) (hCells : CellsDistinct p.destination) : Idle (s.copied p) where
  pending := rfl
  seqs q := by
    have hq := h.seqs q
    simp only [TailStore.copied, TailStore.modSeq, update_apply]
    split
    · rename_i hEq
      subst hEq
      simp only [extra, hp] at hq
      exact copiedSeq_rows hq (h.pending p hp) hCells
    rename_i hne
    have hne' : ¬ p.dst = q := fun hEq => hne hEq.symm
    simp only [extra, hp, hne'] at hq
    exact hq.mono (Nat.le_add_right _ _)
  batch tx htx q := (h.batch tx htx q).mono (Nat.le_add_right _ _)

theorem cancelSeqCp_run (h : TailInv s) :
    ∃ s', cancelSeqCp s = .ok () s' ∧ Idle s' ∧ s'.cfg = s.cfg ∧ s'.batch = s.batch ∧
      ∀ q, (s'.seqs q).entries = (s.seqs q).entries := by
  unfold cancelSeqCp
  cases hp : s.pending with
  | none => exact ⟨s, rfl, h.idle hp, rfl, rfl, fun _ => rfl⟩
  | some p =>
    refine ⟨_, rfl, ⟨rfl, ?_, h.batch⟩, rfl, rfl, ?_⟩
    · intro q
      have hq := h.seqs q
      simp only [TailStore.modSeq, update_apply]
      split
      · rename_i hEq
        subst hEq
        simp only [extra, hp] at hq
        have hPending := h.pending p hp
        exact releaseAcquired_seqOk hq (fun slot hSlot => (hPending.arena slot hSlot).1)
          hPending.taken
      rename_i hne
      have hne' : ¬ p.dst = q := fun hEq => hne hEq.symm
      simpa only [extra, hp, hne', if_false] using hq
    intro q
    simp only [TailStore.modSeq, update_apply]
    split
    · rename_i hEq
      subst hEq
      rw [releaseAll_eq]
    · rfl

end TailStore

end Beellama.Ports
