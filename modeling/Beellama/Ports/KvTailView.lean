import Beellama.Ports.KvTailRollback

/-!
# What a later call can see of the exact-tail store

List nodes have no identity outside the store that made them.  `SameView` relates two sequences that
agree in everything but the nodes.  Every step of `commit` keeps the relation, so both return the
same slots to every later sequence of commits.
-/

namespace Beellama.Ports

open Beellama.Verified List ExactEntry TailStore SeqTail

/-- An entry without its list node. -/
def ExactEntry.bare (e : ExactEntry) : ExactEntry := { e with node := 0 }

section

variable (e : ExactEntry)

include e

@[simp] theorem bare_key : e.bare.key = e.key := rfl
@[simp] theorem bare_slot : e.bare.slot = e.slot := rfl
@[simp] theorem bare_identity : e.bare.identity = e.identity := rfl
@[simp] theorem bare_position : e.bare.position = e.position := rfl

end

theorem bare_le {a b : ExactEntry} : a.le b ↔ a.bare.le b.bare := Iff.rfl

/-- Two sequences agree in everything but the list nodes. -/
structure SameView (t₁ t₂ : SeqTail) : Prop where
  rows : t₁.entries.map ExactEntry.bare = t₂.entries.map ExactEntry.bare
  used : t₁.used = t₂.used
  cursor : t₁.cursor = t₂.cursor
  degradation : t₁.degradation = t₂.degradation
  recovery : t₁.recovery = t₂.recovery

namespace SameView

variable {cfg : TailConfig} {q next₁ next₂ : Nat} {t₁ t₂ : SeqTail}

variable (h : SameView t₁ t₂)

include h

theorem length : t₁.entries.length = t₂.entries.length := by
  simpa using congrArg List.length h.rows

variable {e : ExactEntry}

theorem exists_mem (he : e ∈ t₁.entries) : ∃ x ∈ t₂.entries, x.bare = e.bare := by
  have hMem : e.bare ∈ t₁.entries.map bare := mem_map.mpr ⟨e, he, rfl⟩
  rw [h.rows] at hMem
  obtain ⟨x, hx, hEq⟩ := mem_map.mp hMem
  exact ⟨x, hx, hEq⟩

theorem symm : SameView t₂ t₁ :=
  ⟨h.rows.symm, h.used.symm, h.cursor.symm, h.degradation.symm, h.recovery.symm⟩

theorem release (cfg : TailConfig) (q slot : Nat) :
    SameView (t₁.release cfg q slot) (t₂.release cfg q slot) := by
  refine ⟨h.rows, ?_, h.cursor, h.degradation, h.recovery⟩
  simp only [SeqTail.release, h.used]

theorem popFront : SameView (SeqTail.popFront cfg q t₁) (SeqTail.popFront cfg q t₂) := by
  have hRows := h.rows
  unfold SeqTail.popFront
  cases h₁ : t₁.entries with
  | nil =>
    cases h₂ : t₂.entries with
    | nil => exact h
    | cons x xs => simp [h₁, h₂] at hRows
  | cons e es =>
    cases h₂ : t₂.entries with
    | nil => simp [h₁, h₂] at hRows
    | cons x xs =>
      rw [h₁, h₂, map_cons, map_cons, cons.injEq] at hRows
      have hSlot : e.slot = x.slot := by simpa using congrArg slot hRows.1
      refine ⟨hRows.2, ?_, h.cursor, h.degradation, h.recovery⟩
      change (t₁.release cfg q e.slot).used = (t₂.release cfg q x.slot).used
      rw [hSlot]
      exact (h.release cfg q x.slot).used

theorem trim (limit : Nat) : SameView (t₁.trim cfg q limit) (t₂.trim cfg q limit) := by
  unfold SeqTail.trim
  rw [h.length]
  induction t₂.entries.length - limit with
  | zero => exact h
  | succ n ih =>
    rw [Function.iterate_succ_apply', Function.iterate_succ_apply']
    exact ih.popFront

theorem sort : SameView t₁.sort t₂.sort := by
  refine ⟨?_, h.used, h.cursor, h.degradation, h.recovery⟩
  have hMap : ∀ l : List ExactEntry, (l.insertionSort le).map bare =
      (l.map bare).insertionSort le := fun l =>
    map_insertionSort le le bare l
      fun _ _ _ _ => bare_le
  simp only [SeqTail.sort, hMap, h.rows]

theorem acquire : (t₁.acquire cfg q = none ∧ t₂.acquire cfg q = none) ∨
      ∃ t₁' t₂' slot, t₁.acquire cfg q = some (t₁', slot) ∧
        t₂.acquire cfg q = some (t₂', slot) ∧ SameView t₁' t₂' := by
  have hFree : t₁.freeSlot cfg = t₂.freeSlot cfg := by
    unfold freeSlot
    rw [h.cursor, h.used]
  unfold SeqTail.acquire
  rw [hFree]
  cases t₂.freeSlot cfg with
  | none => exact Or.inl ⟨rfl, rfl⟩
  | some l =>
    refine Or.inr ⟨_, _, _, rfl, rfl, h.rows, ?_, rfl, h.degradation, h.recovery⟩
    simp only [h.used]

omit h in
/-- The nodes of a sequence determine its cells, so unlinking by node is
unlinking by cell. -/
theorem filter_node_eq {t : SeqTail} {extra : List Nat} {next : Nat}
    (h : SeqOk cfg q next extra t) (he : e ∈ t.entries) :
    t.entries.filter (fun x => x.node ≠ e.node) = t.entries.filter fun x => x.key ≠ e.key := by
  refine filter_congr fun x hx => ?_
  by_cases hxe : x = e
  · simp [hxe]
  · have hApart := h.apart.forall hx he hxe
    simp [hApart.1, hApart.2.1]

variable {x : ExactEntry}

variable (h₁ : SeqOk cfg q next₁ [] t₁) (h₂ : SeqOk cfg q next₂ [] t₂)

include h₁ h₂

theorem eraseEntry (he : e ∈ t₁.entries)
    (hx : x ∈ t₂.entries) (hSame : x.bare = e.bare) (releaseSlot : Bool) :
    SameView (t₁.eraseEntry cfg q e releaseSlot) (t₂.eraseEntry cfg q x releaseSlot) := by
  have hKey : x.key = e.key := by simpa using congrArg key hSame
  have hSlot : x.slot = e.slot := by simpa using congrArg slot hSame
  have hMap : ∀ l : List ExactEntry, (l.filter fun y => y.key ≠ e.key).map bare =
      (l.map bare).filter fun y => y.key ≠ e.key := by
    intro l
    rw [filter_map]
    rfl
  refine ⟨?_, ?_, ?_, ?_, ?_⟩
  · rw [eraseEntry_entries, eraseEntry_entries, filter_node_eq h₁ he, filter_node_eq h₂ hx, hKey,
      hMap, hMap, h.rows]
  · cases releaseSlot with
    | false => exact h.used
    | true =>
      have hUsed := (h.release cfg q e.slot).used
      simp only [SeqTail.eraseEntry, hSlot]
      exact hUsed
  all_goals
    cases releaseSlot
    all_goals first
      | exact h.cursor
      | exact h.degradation
      | exact h.recovery

theorem find (k : Nat × Nat) :
    (t₁.find k = none ∧ t₂.find k = none) ∨
      ∃ e x, t₁.find k = some e ∧ t₂.find k = some x ∧ x.bare = e.bare := by
  cases hFind : t₁.find k with
  | some e =>
    obtain ⟨he, hKey⟩ := h₁.find_iff.mp hFind
    obtain ⟨x, hx, hSame⟩ := h.exists_mem he
    have hxKey : x.key = k := by
      rw [← hKey]
      simpa using congrArg key hSame
    exact Or.inr ⟨e, x, rfl, h₂.find_iff.mpr ⟨hx, hxKey⟩, hSame⟩
  | none =>
    cases hFind₂ : t₂.find k with
    | none => exact Or.inl ⟨rfl, rfl⟩
    | some x =>
      obtain ⟨hx, hKey⟩ := h₂.find_iff.mp hFind₂
      obtain ⟨e, he, hSame⟩ := h.symm.exists_mem hx
      refine absurd ?_ (h₁.find_none hFind e he)
      rw [← hKey]
      simpa using congrArg key hSame

theorem retainedSlot (identity : TailIdentity) :
    TailStore.retainedSlot t₁ identity = TailStore.retainedSlot t₂ identity := by
  unfold TailStore.retainedSlot
  rcases h.find h₁ h₂ identity.cellKey with ⟨hNone₁, hNone₂⟩ | ⟨e, x, hSome₁, hSome₂, hSame⟩
  · rw [hNone₁, hNone₂]
  have hIdentity : x.identity = e.identity := by
    simpa using congrArg ExactEntry.identity hSame
  have hSlot : x.slot = e.slot := by simpa using congrArg slot hSame
  simp only [hSome₁, hSome₂, hIdentity, hSlot]

theorem eraseStale (identity : TailIdentity) :
    SameView (TailStore.eraseStale cfg q identity t₁) (TailStore.eraseStale cfg q identity t₂) := by
  unfold TailStore.eraseStale
  rcases h.find h₁ h₂ identity.cellKey with ⟨hNone₁, hNone₂⟩ | ⟨e, x, hSome₁, hSome₂, hSame⟩
  · rw [hNone₁, hNone₂]
    exact h
  · rw [hSome₁, hSome₂]
    exact h.eraseEntry h₁ h₂ (h₁.find_iff.mp hSome₁).1 (h₂.find_iff.mp hSome₂).1 hSame true

theorem takeSlot (inBatch : Bool) :
    (TailStore.takeSlot cfg q inBatch t₁ = none ∧ TailStore.takeSlot cfg q inBatch t₂ = none) ∨
      ∃ t₁' t₂' slot, TailStore.takeSlot cfg q inBatch t₁ = some (t₁', slot) ∧
        TailStore.takeSlot cfg q inBatch t₂ = some (t₂', slot) ∧ SameView t₁' t₂' := by
  have hRows := h.rows
  unfold TailStore.takeSlot
  cases hEntries₁ : t₁.entries with
  | nil =>
    cases hEntries₂ : t₂.entries with
    | nil => exact h.acquire
    | cons x xs => simp [hEntries₁, hEntries₂] at hRows
  | cons e es =>
    cases hEntries₂ : t₂.entries with
    | nil => simp [hEntries₁, hEntries₂] at hRows
    | cons x xs =>
      have hLength := h.length
      rw [hEntries₁, hEntries₂] at hLength hRows
      rw [map_cons, map_cons, cons.injEq] at hRows
      dsimp only
      rw [hLength]
      split
      · have hSlot : e.slot = x.slot := by simpa using congrArg slot hRows.1
        refine Or.inr ⟨t₁.eraseEntry cfg q e false, t₂.eraseEntry cfg q x false, x.slot, ?_,
          rfl, ?_⟩
        · rw [hSlot]
        · exact h.eraseEntry h₁ h₂ (by simp [hEntries₁]) (by simp [hEntries₂]) hRows.1.symm
            false
      · exact h.acquire

omit h h₁ h₂ in
theorem insertCommitted_bare (e : ExactEntry) (l : List ExactEntry) :
    (insertCommitted e l).map ExactEntry.bare =
      insertCommitted e.bare (l.map ExactEntry.bare) := by
  have hBefore : (insertBefore e l).map bare =
      insertBefore e.bare (l.map bare) := by
    unfold insertBefore
    rw [map_append, takeWhile_map, dropWhile_map]
    rfl
  unfold insertCommitted
  rw [getLast?_map]
  cases l.getLast? with
  | none => simp
  | some last =>
    simp only [Option.map_some, ← bare_le]
    split
    · simp
    · exact hBefore

omit h₁ h₂ in
theorem countRecovery :
    SameView (TailStore.countRecovery cfg t₁) (TailStore.countRecovery cfg t₂) := by
  unfold TailStore.countRecovery
  rw [h.degradation, h.recovery]
  split
  · split
    · exact ⟨h.rows, h.used, h.cursor, rfl, rfl⟩
    · exact ⟨h.rows, h.used, h.cursor, rfl, rfl⟩
  · exact h

omit h₁ h₂ in
theorem linkEntry (hSame : x.bare = e.bare) (inBatch : Bool) :
    SameView (TailStore.linkEntry cfg q inBatch e t₁) (TailStore.linkEntry cfg q inBatch x t₂) := by
  have hLinked : SameView
      { t₁ with
        entries := insertCommitted e t₁.entries
        index := t₁.index.insert e.key e.node }
      { t₂ with
        entries := insertCommitted x t₂.entries
        index := t₂.index.insert x.key x.node } := by
    refine ⟨?_, h.used, h.cursor, h.degradation, h.recovery⟩
    simp only [insertCommitted_bare, h.rows, hSame]
  unfold TailStore.linkEntry
  split
  · exact hLinked.countRecovery
  · exact hLinked.countRecovery.trim _

theorem moveEntry (he : e ∈ t₁.entries)
    (hx : x ∈ t₂.entries) (hSame : x.bare = e.bare) (position : Int) (ordinal : Nat) :
    SameView (TailStore.moveEntry cfg q e position ordinal t₁)
      (TailStore.moveEntry cfg q x position ordinal t₂) := by
  have hKey : x.key = e.key := by simpa using congrArg key hSame
  -- moving by node is moving by cell
  have hMove : ∀ {t : SeqTail} {next : Nat} (d : ExactEntry), SeqOk cfg q next [] t →
      d ∈ t.entries → d.key = e.key →
      (t.entries.map fun y : ExactEntry =>
        if y.node = d.node then { y with position, insertionOrdinal := ordinal } else y).map
          bare =
      (t.entries.map bare).map fun y : ExactEntry =>
        if y.key = e.key then { y with position, insertionOrdinal := ordinal } else y := by
    intro t next d hOk hd hdKey
    rw [map_map, map_map]
    refine map_congr_left fun y hy => ?_
    simp only [Function.comp_apply]
    by_cases hyd : y = d
    · simp only [hyd, bare_key, hdKey]
      rfl
    · have hApart := hOk.apart.forall hy hd hyd
      simp only [hApart.2.1, if_false, bare_key, ← hdKey, hApart.1]
  apply SameView.trim
  apply SameView.sort
  refine ⟨?_, h.used, h.cursor, h.degradation, h.recovery⟩
  exact (hMove e h₁ he rfl).trans ((hMove x h₂ hx hKey).trans (by rw [h.rows])).symm

theorem commitNew (inBatch : Bool) (identity : TailIdentity) (position : Int) (ordinal : Nat) :
    (TailStore.commitNew cfg q inBatch next₁ identity position ordinal t₁ = none ∧
        TailStore.commitNew cfg q inBatch next₂ identity position ordinal t₂ = none) ∨
      ∃ t₁' t₂', TailStore.commitNew cfg q inBatch next₁ identity position ordinal t₁ = some t₁' ∧
        TailStore.commitNew cfg q inBatch next₂ identity position ordinal t₂ = some t₂' ∧
        SameView t₁' t₂' := by
  unfold TailStore.commitNew
  have hStale := h.eraseStale h₁ h₂ identity
  rcases hStale.takeSlot (h₁.eraseStale identity) (h₂.eraseStale identity) inBatch with
    ⟨hNone₁, hNone₂⟩ | ⟨t₁', t₂', slot, hSome₁, hSome₂, hTaken⟩
  · rw [hNone₁, hNone₂]
    exact Or.inl ⟨rfl, rfl⟩
  rw [hSome₁, hSome₂]
  refine Or.inr ⟨_, _, rfl, rfl, hTaken.linkEntry ?_ inBatch⟩
  rfl

/-- Two sequences in the same view commit alike. -/
theorem commitSeq (inBatch : Bool) (identity : TailIdentity) (position : Int) (ordinal : Nat) :
    (TailStore.commitSeq cfg q inBatch next₁ identity position ordinal t₁ = none ∧
        TailStore.commitSeq cfg q inBatch next₂ identity position ordinal t₂ = none) ∨
      ∃ t₁' t₂', TailStore.commitSeq cfg q inBatch next₁ identity position ordinal t₁ = some t₁' ∧
        TailStore.commitSeq cfg q inBatch next₂ identity position ordinal t₂ = some t₂' ∧
        SameView t₁' t₂' := by
  unfold TailStore.commitSeq
  rcases h.find h₁ h₂ identity.cellKey with ⟨hNone₁, hNone₂⟩ | ⟨e, x, hSome₁, hSome₂, hSame⟩
  · rw [hNone₁, hNone₂]
    exact h.commitNew h₁ h₂ inBatch identity position ordinal
  have hIdentity : x.identity = e.identity := by
    simpa using congrArg ExactEntry.identity hSame
  simp only [hSome₁, hSome₂, hIdentity]
  split
  · exact Or.inr ⟨_, _, rfl, rfl, h.moveEntry h₁ h₂ (h₁.find_iff.mp hSome₁).1
      (h₂.find_iff.mp hSome₂).1 hSame position ordinal⟩
  · exact h.commitNew h₁ h₂ inBatch identity position ordinal

end SameView

end Beellama.Ports
