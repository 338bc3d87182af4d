import Beellama.Ports.KvTailStore
import Beellama.Verified.StateTriple
import Mathlib.Data.List.TakeWhile

/-!
# One sequence of the exact-tail store

The ownership of the arena slots is kept four times: in the list of entries, in the index by cell, in
the bitmap and in the cursor.  `SeqRows` relates the list to the bitmap and bounds the counters,
`IndexOk` relates it to the index.  `extra` lists the slots taken and not yet linked to an entry.
-/

namespace Beellama.Ports

open Beellama.Verified List Option Function Finset TailStore SeqTail ExactEntry Finmap

/-! ## Lists of entries -/

variable {a b : ExactEntry}

namespace ExactEntry

theorem le_iff :
    a.le b ↔ a.position < b.position ∨
      (a.position = b.position ∧ a.insertionOrdinal ≤ b.insertionOrdinal) := by
  simp only [le, lt, decide_eq_true_eq]
  omega

instance : Std.Total le where
  total a b := by
    rw [le_iff, le_iff]
    omega

theorem le_trans {c : ExactEntry} (hab : a.le b) (hbc : b.le c) : a.le c := by
  rw [le_iff] at hab hbc ⊢
  omega

instance : IsTrans ExactEntry le where
  trans _ _ _ := le_trans

/-- Two entries of one sequence differ in cell, list node and arena slot. -/
def Apart (a b : ExactEntry) : Prop := a.key ≠ b.key ∧ a.node ≠ b.node ∧ a.slot ≠ b.slot

instance : Std.Symm Apart where
  symm _ _ h := ⟨h.1.symm, h.2.1.symm, h.2.2.symm⟩

end ExactEntry

variable {l : List ExactEntry}

theorem pairwise_apart_perm {l' : List ExactEntry} (h : l.Perm l') :
    l.Pairwise ExactEntry.Apart ↔ l'.Pairwise ExactEntry.Apart :=
  h.pairwise_iff fun hab => Std.Symm.symm _ _ hab

theorem eq_of_not_apart (h : l.Pairwise ExactEntry.Apart)
    (ha : a ∈ l) (hb : b ∈ l) (hNot : ¬ a.Apart b) : a = b := by
  by_contra hne
  exact hNot (h.forall ha hb hne)

theorem insertBefore_perm (e : ExactEntry) (l : List ExactEntry) :
    (insertBefore e l).Perm (e :: l) := by
  refine perm_middle.trans ?_
  rw [takeWhile_append_dropWhile]

variable {e : ExactEntry}

theorem insertBefore_sorted
    (h : l.Pairwise ExactEntry.le) : (insertBefore e l).Pairwise ExactEntry.le := by
  have hSplit : l.takeWhile (fun x => !e.lt x) ++ l.dropWhile (fun x => !e.lt x) = l :=
    takeWhile_append_dropWhile
  rw [← hSplit, pairwise_append] at h
  obtain ⟨hTake, hDrop, hCross⟩ := h
  have hBefore : ∀ x ∈ l.takeWhile (fun x => !e.lt x), x.le e := by
    intro x hx
    have hx := mem_takeWhile_imp hx
    simpa [le] using hx
  have hAfter : ∀ x ∈ l.dropWhile (fun x => !e.lt x), e.le x := by
    intro x hx
    cases hCase : l.dropWhile (fun x => !e.lt x) with
    | nil => simp [hCase] at hx
    | cons y ys =>
      have hy : e.lt y = true := by
        have hHead := head_dropWhile_not (l := l) (fun x => !e.lt x) (by simp [hCase])
        simpa [hCase] using hHead
      have hey : e.le y := by
        simp only [lt, decide_eq_true_eq] at hy
        rw [le_iff]
        omega
      rw [hCase] at hx hDrop
      rcases mem_cons.mp hx with rfl | hx
      · exact hey
      · exact le_trans hey (rel_of_pairwise_cons hDrop hx)
  unfold insertBefore
  rw [pairwise_append]
  refine ⟨hTake, pairwise_cons.mpr ⟨hAfter, hDrop⟩, ?_⟩
  intro x hx y hy
  rcases mem_cons.mp hy with rfl | hy
  · exact hBefore x hx
  · exact hCross x hx y hy

theorem insertCommitted_perm (e : ExactEntry) (l : List ExactEntry) :
    (insertCommitted e l).Perm (e :: l) := by
  unfold insertCommitted
  split
  · exact perm_append_singleton e l
  split
  · exact perm_append_singleton e l
  · exact insertBefore_perm e l

theorem insertCommitted_sorted
    (h : l.Pairwise ExactEntry.le) : (insertCommitted e l).Pairwise ExactEntry.le := by
  unfold insertCommitted
  split
  · rename_i hLast
    rw [getLast?_eq_none_iff] at hLast
    simp [hLast]
  rename_i last hLast
  split
  · rename_i hle
    rw [pairwise_append]
    refine ⟨h, by simp, ?_⟩
    intro x hx y hy
    obtain rfl := List.mem_singleton.mp hy
    -- every entry is at most the last one
    obtain ⟨init, rfl⟩ : ∃ init, l = init ++ [last] :=
      ⟨l.dropLast, (dropLast_append_getLast? last hLast).symm⟩
    rw [pairwise_append] at h
    rcases mem_append.mp hx with hx | hx
    · exact le_trans (h.2.2 x hx last (by simp)) hle
    · obtain rfl := List.mem_singleton.mp hx
      exact hle
  · exact insertBefore_sorted h

/-! ## One sequence -/

/-- First arena slot of a sequence. -/
def TailConfig.base (cfg : TailConfig) (q : Nat) : Nat := q * cfg.arenaStride

/-- The list, the bitmap and the counters of sequence `q` agree.  The bitmap
shows the slots of the entries and those in `extra`. -/
structure SeqRows (cfg : TailConfig) (q next : Nat) (extra : List Nat) (t : SeqTail) : Prop where
  apart : t.entries.Pairwise ExactEntry.Apart
  arena : ∀ e ∈ t.entries, cfg.base q ≤ e.slot ∧ e.slot < cfg.base q + cfg.arenaStride
  fresh : ∀ e ∈ t.entries, e.node < next
  used : ∀ l, t.used l = true ↔
    (∃ e ∈ t.entries, e.slot = cfg.base q + l) ∨ cfg.base q + l ∈ extra
  cursor : 0 < cfg.arenaStride → t.cursor < cfg.arenaStride
  recovery : t.recovery ≤ cfg.nTokens
  clean : t.degradation = 0 → t.recovery = 0
  limit : cfg.compact = true → t.entries.length ≤ cfg.historyLimit

/-- The index maps exactly the cells of the entries to their list nodes. -/
def IndexOk (t : SeqTail) : Prop :=
  ∀ k n, t.index.lookup k = some n ↔ ∃ e ∈ t.entries, e.key = k ∧ e.node = n

/-- The representation invariant of one sequence. -/
structure SeqOk (cfg : TailConfig) (q next : Nat) (extra : List Nat) (t : SeqTail) : Prop
    extends SeqRows cfg q next extra t where
  sorted : t.entries.Pairwise ExactEntry.le
  index : IndexOk t

section Sequence

variable {cfg : TailConfig} {q next : Nat} {extra : List Nat} {t : SeqTail}

theorem SeqOk.empty : SeqOk cfg q next [] {} where
  apart := List.Pairwise.nil
  arena := by simp
  fresh := by simp
  used := by simp
  cursor := id
  recovery := Nat.zero_le _
  clean := fun _ => rfl
  limit := fun _ => Nat.zero_le _
  sorted := List.Pairwise.nil
  index := by simp [IndexOk]

variable {next' : Nat}

theorem SeqRows.mono (h : SeqRows cfg q next extra t) (hNext : next ≤ next') :
    SeqRows cfg q next' extra t :=
  { h with fresh := fun e he => lt_of_lt_of_le (h.fresh e he) hNext }

theorem SeqOk.mono (h : SeqOk cfg q next extra t) (hNext : next ≤ next') :
    SeqOk cfg q next' extra t :=
  { h.toSeqRows.mono hNext, h with }

variable {d r : Nat}

theorem SeqRows.counters (h : SeqRows cfg q next extra t) (hr : r ≤ cfg.nTokens)
    (hClean : d = 0 → r = 0) :
    SeqRows cfg q next extra { t with degradation := d, recovery := r } :=
  { h with recovery := hr, clean := hClean }

theorem SeqOk.counters (h : SeqOk cfg q next extra t) (hr : r ≤ cfg.nTokens)
    (hClean : d = 0 → r = 0) : SeqOk cfg q next extra { t with degradation := d, recovery := r } :=
  { h.toSeqRows.counters hr hClean, h with }

theorem SeqRows.withIndex (h : SeqRows cfg q next extra t) (index : TailIndex) :
    SeqRows cfg q next extra { t with index } := { h with }

/-! ### Following the index -/

variable {k : Nat × Nat}

theorem SeqOk.find_iff (h : SeqOk cfg q next extra t) :
    t.find k = some e ↔ e ∈ t.entries ∧ e.key = k := by
  unfold find
  constructor
  · intro hFind
    split at hFind
    · simp at hFind
    rename_i n hLookup
    obtain ⟨x, hx, hKey, hNode⟩ := (h.index k n).mp hLookup
    have he : e ∈ t.entries := mem_of_find?_eq_some hFind
    have heNode : e.node = n := by simpa using find?_some hFind
    have hex : e = x := eq_of_not_apart h.apart he hx fun hApart =>
      hApart.2.1 (heNode.trans hNode.symm)
    exact ⟨he, hex ▸ hKey⟩
  rintro ⟨he, rfl⟩
  have hLookup : t.index.lookup e.key = some e.node := (h.index _ _).mpr ⟨e, he, rfl, rfl⟩
  rw [hLookup]
  have hSome : (t.entries.find? fun x => x.node = e.node).isSome := by
    rw [find?_isSome]
    exact ⟨e, he, by simp⟩
  obtain ⟨x, hx⟩ := isSome_iff_exists.mp hSome
  have hxMem : x ∈ t.entries := mem_of_find?_eq_some hx
  have hxNode : x.node = e.node := by simpa using find?_some hx
  have hxe : x = e := eq_of_not_apart h.apart hxMem he fun hApart => hApart.2.1 hxNode
  simp only [hx, hxe]

theorem SeqOk.find_none (h : SeqOk cfg q next extra t) (hFind : t.find k = none) :
    ∀ e ∈ t.entries, e.key ≠ k := by
  intro e he hKey
  rw [h.find_iff.mpr ⟨he, hKey⟩] at hFind
  cases hFind

theorem SeqOk.find_eq_none (h : SeqOk cfg q next extra t) (hFresh : ∀ e ∈ t.entries, e.key ≠ k) :
    t.find k = none := by
  cases hCase : t.find k with
  | none => rfl
  | some e =>
    obtain ⟨hMem, hKey⟩ := h.find_iff.mp hCase
    exact absurd hKey (hFresh e hMem)

/-! ### Releasing slots -/

theorem releaseEntries_used (cfg : TailConfig) (q : Nat) (l : List ExactEntry) (t : SeqTail)
    (i : Nat) :
    (l.foldl (fun acc e => acc.release cfg q e.slot) t).used i = true ↔
      t.used i = true ∧ ∀ e ∈ l, i ≠ e.slot - cfg.base q := by
  induction l generalizing t with
  | nil => simp
  | cons e l ih =>
    rw [foldl_cons, ih]
    simp only [release, update_apply]
    change (if i = e.slot - cfg.base q then false else t.used i) = true ∧ _ ↔ _
    by_cases hi : i = e.slot - cfg.base q
    · simp [hi]
    · simp [hi]

theorem releaseEntries_eq (l : List ExactEntry) (t : SeqTail) :
    l.foldl (fun acc e => acc.release cfg q e.slot) t =
      { t with used := (l.foldl (fun acc e => acc.release cfg q e.slot) t).used } := by
  induction l generalizing t with
  | nil => rfl
  | cons e l ih =>
    rw [foldl_cons, ih]
    rfl

variable {t' : SeqTail}

/-- Removing the entries `gone` together with their slots. -/
theorem SeqRows.remove (h : SeqRows cfg q next extra t) (gone kept : List ExactEntry)
    (hPerm : t.entries.Perm (gone ++ kept)) (hEntries : t'.entries = kept)
    (hUsed : ∀ i, t'.used i = true ↔ t.used i = true ∧ ∀ e ∈ gone, i ≠ e.slot - cfg.base q)
    (hExtra : ∀ e ∈ gone, e.slot ∉ extra)
    (hCursor : t'.cursor = t.cursor) (hDegradation : t'.degradation = t.degradation)
    (hRecovery : t'.recovery = t.recovery) : SeqRows cfg q next extra t' := by
  have hApart := (pairwise_apart_perm hPerm).mp h.apart
  rw [pairwise_append] at hApart
  have hMem : ∀ e ∈ kept, e ∈ t.entries := fun e he =>
    hPerm.mem_iff.mpr (mem_append_right gone he)
  have hGone : ∀ e ∈ gone, e ∈ t.entries := fun e he =>
    hPerm.mem_iff.mpr (mem_append_left kept he)
  refine ⟨?_, ?_, ?_, ?_, ?_, ?_, ?_, ?_⟩
  · rw [hEntries]
    exact hApart.2.1
  · rw [hEntries]
    exact fun e he => h.arena e (hMem e he)
  · rw [hEntries]
    exact fun e he => h.fresh e (hMem e he)
  · intro i
    rw [hUsed, h.used, hEntries]
    constructor
    · rintro ⟨⟨e, he, hSlot⟩ | hi, hNot⟩
      · rcases mem_append.mp (hPerm.mem_iff.mp he) with hg | hk
        · exact absurd (by omega) (hNot e hg)
        · exact Or.inl ⟨e, hk, hSlot⟩
      · exact Or.inr hi
    rintro (⟨e, he, hSlot⟩ | hi)
    · refine ⟨Or.inl ⟨e, hMem e he, hSlot⟩, ?_⟩
      intro x hx hEq
      have hArena := h.arena x (hGone x hx)
      exact (hApart.2.2 x hx e he).2.2 (by omega)
    refine ⟨Or.inr hi, ?_⟩
    intro x hx hEq
    have hArena := h.arena x (hGone x hx)
    have hxSlot : x.slot = cfg.base q + i := by omega
    exact hExtra x hx (hxSlot ▸ hi)
  · rw [hCursor]
    exact h.cursor
  · rw [hRecovery]
    exact h.recovery
  · rw [hRecovery, hDegradation]
    exact h.clean
  intro hCompact
  have hLength := hPerm.length_eq
  rw [length_append] at hLength
  rw [hEntries]
  have := h.limit hCompact
  omega

theorem dropWhere_entries (P : ExactEntry → Bool) :
    (t.dropWhere cfg q P).entries = t.entries.filter fun e => !P e := rfl

theorem SeqRows.dropWhere (h : SeqRows cfg q next [] t) (P : ExactEntry → Bool) :
    SeqRows cfg q next [] (t.dropWhere cfg q P) := by
  refine h.remove (t.entries.filter P) (t.entries.filter fun e => !P e)
    (filter_append_perm P t.entries).symm rfl ?_ (by simp) ?_ ?_ ?_
  · exact releaseEntries_used cfg q _ t
  all_goals
    unfold SeqTail.dropWhere
    rw [releaseEntries_eq]

theorem SeqRows.popFront (h : SeqRows cfg q next [] t) :
    SeqRows cfg q next [] (SeqTail.popFront cfg q t) := by
  unfold SeqTail.popFront
  split
  · exact h
  rename_i e es hEntries
  refine h.remove [e] es (by rw [hEntries]; rfl) rfl ?_ (by simp)
    rfl rfl rfl
  intro i
  exact releaseEntries_used cfg q [e] t i

theorem popFront_entries : (SeqTail.popFront cfg q t).entries = t.entries.tail := by
  unfold popFront
  split <;> simp_all

theorem IndexOk.popFront (h : IndexOk t) (hApart : t.entries.Pairwise ExactEntry.Apart) :
    IndexOk (SeqTail.popFront cfg q t) := by
  unfold SeqTail.popFront
  split
  · exact h
  rename_i e es hEntries
  intro k n
  rw [hEntries, List.pairwise_cons] at hApart
  by_cases hk : k = e.key
  · subst hk
    rw [Finmap.lookup_erase]
    simp only [reduceCtorEq, false_iff, not_exists, not_and]
    intro x hx hKey
    exact absurd hKey.symm (hApart.1 x hx).1
  rw [Finmap.lookup_erase_ne hk, h k n, hEntries]
  simp only [List.mem_cons, exists_eq_or_imp]
  constructor
  · rintro (⟨hKey, -⟩ | hRest)
    · exact absurd hKey.symm hk
    · exact hRest
  · exact Or.inr

theorem popFront_iterate_entries (n : Nat) :
    ((SeqTail.popFront cfg q)^[n] t).entries = t.entries.drop n := by
  induction n with
  | zero => rfl
  | succ n ih => rw [iterate_succ_apply', popFront_entries, ih, tail_drop]

theorem trim_entries (limit : Nat) :
    (t.trim cfg q limit).entries = t.entries.drop (t.entries.length - limit) :=
  popFront_iterate_entries _

theorem SeqRows.trim (h : SeqRows cfg q next [] t) (limit : Nat) :
    SeqRows cfg q next [] (t.trim cfg q limit) := by
  unfold SeqTail.trim
  induction t.entries.length - limit with
  | zero => exact h
  | succ n ih =>
    rw [iterate_succ_apply']
    exact ih.popFront

theorem SeqOk.trim (h : SeqOk cfg q next [] t) (limit : Nat) :
    SeqOk cfg q next [] (t.trim cfg q limit) := by
  refine { h.toSeqRows.trim limit with sorted := ?_, index := ?_ }
  · rw [trim_entries]
    exact h.sorted.sublist (drop_sublist _ _)
  unfold SeqTail.trim
  generalize t.entries.length - limit = n
  have hBoth : SeqRows cfg q next [] ((popFront cfg q)^[n] t) ∧
      IndexOk ((popFront cfg q)^[n] t) := by
    induction n with
    | zero => exact ⟨h.toSeqRows, h.index⟩
    | succ n ih =>
      rw [iterate_succ_apply']
      exact ⟨ih.1.popFront, ih.2.popFront ih.1.apart⟩
  exact hBoth.2

/-! ### Unlinking one entry -/

theorem filter_node_perm (hApart : t.entries.Pairwise ExactEntry.Apart)
    (he : e ∈ t.entries) : t.entries.Perm (e :: t.entries.filter fun x => x.node ≠ e.node) := by
  obtain ⟨before, after, hSplit⟩ := List.append_of_mem he
  rw [hSplit] at hApart ⊢
  rw [List.pairwise_append, List.pairwise_cons] at hApart
  obtain ⟨-, ⟨hAfter, -⟩, hCross⟩ := hApart
  have hBefore : before.filter (fun x => x.node ≠ e.node) = before :=
    List.filter_eq_self.mpr fun x hx => by
      simpa using (hCross x hx e List.mem_cons_self).2.1
  have hRest : after.filter (fun x => x.node ≠ e.node) = after :=
    List.filter_eq_self.mpr fun x hx => by
      simpa using (hAfter x hx).2.1.symm
  rw [List.filter_append, List.filter_cons, hBefore, hRest]
  simp only [ne_eq]
  exact List.perm_middle

theorem eraseEntry_entries (e : ExactEntry) (releaseSlot : Bool) :
    (t.eraseEntry cfg q e releaseSlot).entries = t.entries.filter fun x => x.node ≠ e.node := by
  cases releaseSlot <;> rfl

theorem IndexOk.eraseEntry (h : IndexOk t)
    (hApart : t.entries.Pairwise ExactEntry.Apart) (he : e ∈ t.entries) (releaseSlot : Bool) :
    IndexOk (t.eraseEntry cfg q e releaseSlot) := by
  intro k n
  rw [eraseEntry_entries]
  have hIndex : (t.eraseEntry cfg q e releaseSlot).index = t.index.erase e.key := by
    cases releaseSlot <;> rfl
  rw [hIndex]
  by_cases hk : k = e.key
  · subst hk
    rw [lookup_erase]
    simp only [reduceCtorEq, false_iff, not_exists, not_and]
    intro x hx hKey
    rw [mem_filter] at hx
    have hxe : x = e := eq_of_not_apart hApart hx.1 he fun hxe => hxe.1 hKey
    simp [hxe] at hx
  rw [lookup_erase_ne hk, h k n]
  constructor
  · rintro ⟨x, hx, hKey, hNode⟩
    refine ⟨x, mem_filter.mpr ⟨hx, ?_⟩, hKey, hNode⟩
    have hne : x ≠ e := fun hxe => hk (by rw [← hKey, hxe])
    simpa using (hApart.forall hx he hne).2.1
  · rintro ⟨x, hx, hKey, hNode⟩
    exact ⟨x, mem_of_mem_filter hx, hKey, hNode⟩

theorem SeqOk.eraseRelease (h : SeqOk cfg q next [] t) (he : e ∈ t.entries) :
    SeqOk cfg q next [] (t.eraseEntry cfg q e true) := by
  have hRows : SeqRows cfg q next [] (t.eraseEntry cfg q e true) := by
    refine h.toSeqRows.remove [e] _ (filter_node_perm h.apart he)
      (eraseEntry_entries e true) ?_ (by simp) rfl rfl rfl
    exact releaseEntries_used cfg q [e] t
  refine { hRows with sorted := ?_, index := h.index.eraseEntry h.apart he true }
  exact h.sorted.sublist filter_sublist

/-- Unlinking without releasing keeps the slot for the entry to come. -/
theorem SeqOk.eraseKeep (h : SeqOk cfg q next [] t) (he : e ∈ t.entries) :
    SeqOk cfg q next [e.slot] (t.eraseEntry cfg q e false) := by
  have hPerm := filter_node_perm h.apart he
  have hMem : ∀ x ∈ t.entries.filter (fun x => x.node ≠ e.node), x ∈ t.entries :=
    fun x hx => List.mem_of_mem_filter hx
  refine ⟨⟨?_, fun x hx => h.arena x (hMem x hx), fun x hx => h.fresh x (hMem x hx), ?_,
    h.cursor, h.recovery, h.clean, ?_⟩, h.sorted.sublist List.filter_sublist,
    h.index.eraseEntry h.apart he false⟩
  · exact h.apart.sublist List.filter_sublist
  · intro i
    change t.used i = true ↔ _
    rw [h.used]
    simp only [List.not_mem_nil, or_false, List.mem_singleton]
    constructor
    · rintro ⟨x, hx, hSlot⟩
      rcases List.mem_cons.mp (hPerm.mem_iff.mp hx) with rfl | hx
      · exact Or.inr hSlot.symm
      · exact Or.inl ⟨x, hx, hSlot⟩
    rintro (⟨x, hx, hSlot⟩ | hSlot)
    · exact ⟨x, hMem x hx, hSlot⟩
    · exact ⟨e, he, hSlot.symm⟩
  · exact fun hCompact => (List.length_filter_le _ _).trans (h.limit hCompact)

/-! ### Taking a slot -/

/-- Taking a slot that no entry has. -/
structure Acquired (cfg : TailConfig) (q : Nat) (t : SeqTail) (slot : Nat) : Prop where
  arena : cfg.base q ≤ slot ∧ slot < cfg.base q + cfg.arenaStride
  free : ∀ e ∈ t.entries, e.slot ≠ slot

theorem freeSlot_spec {l : Nat} (h : t.freeSlot cfg = some l) :
    l < cfg.arenaStride ∧ t.used l = false := by
  have hUsed := find?_some h
  have hMem := mem_of_find?_eq_some h
  obtain ⟨offset, hOffset, rfl⟩ := mem_map.mp hMem
  have hPos : 0 < cfg.arenaStride := by
    have := List.mem_range.mp hOffset
    omega
  exact ⟨Nat.mod_lt _ hPos, by simpa using hUsed⟩

/-- The arena slots of a sequence that are free. -/
def freeSlots (cfg : TailConfig) (t : SeqTail) : Finset Nat :=
  (Finset.range cfg.arenaStride).filter fun l => t.used l = false

theorem freeSlot_of_mem {l : Nat} (hCursor : t.cursor < cfg.arenaStride)
    (h : l ∈ freeSlots cfg t) : ∃ l', t.freeSlot cfg = some l' := by
  rw [freeSlots, Finset.mem_filter, Finset.mem_range] at h
  cases hFree : t.freeSlot cfg with
  | some l' => exact ⟨l', rfl⟩
  | none =>
    unfold freeSlot at hFree
    rw [find?_eq_none] at hFree
    -- the offset that leads from the cursor to slot `l`
    have hMem : l ∈ (List.range cfg.arenaStride).map
        fun offset => (t.cursor + offset) % cfg.arenaStride := by
      refine List.mem_map.mpr ⟨(l + (cfg.arenaStride - t.cursor)) % cfg.arenaStride,
        List.mem_range.mpr (Nat.mod_lt _ (by omega)), ?_⟩
      rw [Nat.add_mod_mod]
      have hSum : t.cursor + (l + (cfg.arenaStride - t.cursor)) = l + cfg.arenaStride := by
        omega
      rw [hSum, Nat.add_mod_right, Nat.mod_eq_of_lt h.1]
    have hUsed := hFree l hMem
    simp [h.2] at hUsed

theorem SeqRows.freeSlots_card (h : SeqRows cfg q next [] t) :
    cfg.arenaStride ≤ (freeSlots cfg t).card + t.entries.length := by
  have hUsed : ((Finset.range cfg.arenaStride).filter fun l => ¬ t.used l = false).card ≤
      t.entries.length := by
    have hSub : ((Finset.range cfg.arenaStride).filter fun l => ¬ t.used l = false) ⊆
        (t.entries.map fun e => e.slot - cfg.base q).toFinset := by
      intro l hl
      rw [Finset.mem_filter, Bool.not_eq_false] at hl
      rcases (h.used l).mp hl.2 with ⟨e, he, hSlot⟩ | hExtra
      · rw [List.mem_toFinset, List.mem_map]
        exact ⟨e, he, by omega⟩
      · cases hExtra
    calc _ ≤ (t.entries.map fun e => e.slot - cfg.base q).toFinset.card := card_le_card hSub
      _ ≤ (t.entries.map fun e => e.slot - cfg.base q).length := toFinset_card_le _
      _ = t.entries.length := length_map _
  have hSum := card_filter_add_card_filter_not (s := range cfg.arenaStride)
    (fun l => t.used l = false)
  rw [card_range] at hSum
  unfold freeSlots
  omega

variable {slot : Nat}

theorem acquire_spec (h : t.acquire cfg q = some (t', slot)) :
    ∃ l, t.freeSlot cfg = some l ∧ slot = cfg.base q + l ∧
      t' = { t with
        used := update t.used l true
        cursor := (l + 1) % cfg.arenaStride } := by
  unfold acquire at h
  split at h
  · cases h
  rename_i l hFree
  simp only [some.injEq, Prod.mk.injEq] at h
  exact ⟨l, hFree, h.2.symm, h.1.symm⟩

theorem SeqRows.acquire (h : SeqRows cfg q next extra t)
    (hAcquire : t.acquire cfg q = some (t', slot)) :
    SeqRows cfg q next (slot :: extra) t' ∧ Acquired cfg q t slot ∧ slot ∉ extra ∧
      t'.entries = t.entries := by
  obtain ⟨l, hFree, rfl, rfl⟩ := acquire_spec hAcquire
  obtain ⟨hl, hUnused⟩ := freeSlot_spec hFree
  have hNot : ¬ ((∃ e ∈ t.entries, e.slot = cfg.base q + l) ∨ cfg.base q + l ∈ extra) := by
    rw [← h.used, hUnused]
    simp
  rw [not_or] at hNot
  refine ⟨{ h with used := ?_, cursor := ?_ }, ⟨by omega, ?_⟩, hNot.2, rfl⟩
  · intro i
    simp only [Function.update_apply]
    by_cases hi : i = l
    · simp [hi]
    simp only [hi, if_false, h.used, List.mem_cons]
    constructor
    · rintro (hEntry | hExtra)
      · exact Or.inl hEntry
      · exact Or.inr (Or.inr hExtra)
    rintro (hEntry | hEq | hExtra)
    · exact Or.inl hEntry
    · omega
    · exact Or.inr hExtra
  · exact fun hPos => Nat.mod_lt _ hPos
  · intro e he hSlot
    exact hNot.1 ⟨e, he, hSlot⟩

theorem SeqOk.acquire (h : SeqOk cfg q next extra t)
    (hAcquire : t.acquire cfg q = some (t', slot)) :
    SeqOk cfg q next (slot :: extra) t' := by
  refine { (h.toSeqRows.acquire hAcquire).1 with sorted := ?_, index := ?_ }
  all_goals
    obtain ⟨l, -, -, rfl⟩ := acquire_spec hAcquire
  · exact h.sorted
  · exact h.index

/-! ### Linking an entry -/

theorem SeqRows.link (h : SeqRows cfg q next [e.slot] t)
    (hAcquired : Acquired cfg q t e.slot) (hKey : ∀ x ∈ t.entries, x.key ≠ e.key)
    (hNode : e.node = next) (hRoom : cfg.compact = true → t.entries.length < cfg.historyLimit)
    (hPerm : l.Perm (e :: t.entries)) (index : TailIndex) :
    SeqRows cfg q (next + 1) [] { t with entries := l, index } := by
  refine ⟨?_, ?_, ?_, ?_, h.cursor, h.recovery, h.clean, ?_⟩
  · rw [pairwise_apart_perm hPerm, List.pairwise_cons]
    refine ⟨?_, h.apart⟩
    intro x hx
    have hFresh := h.fresh x hx
    exact ⟨(hKey x hx).symm, by omega, (hAcquired.free x hx).symm⟩
  · intro x hx
    rcases List.mem_cons.mp (hPerm.mem_iff.mp hx) with rfl | hx
    · exact hAcquired.arena
    · exact h.arena x hx
  · intro x hx
    rcases List.mem_cons.mp (hPerm.mem_iff.mp hx) with rfl | hx
    · omega
    · exact (h.fresh x hx).trans (Nat.lt_succ_self _)
  · intro i
    rw [h.used]
    simp only [hPerm.mem_iff, List.mem_cons, exists_eq_or_imp, List.not_mem_nil, or_false]
    constructor
    · rintro (hEntry | hSlot)
      · exact Or.inr hEntry
      · exact Or.inl hSlot.symm
    rintro (hSlot | hEntry)
    · exact Or.inr hSlot.symm
    · exact Or.inl hEntry
  intro hCompact
  have := hRoom hCompact
  simp only [hPerm.length_eq, List.length_cons]
  omega

theorem IndexOk.link (h : IndexOk t)
    (hKey : ∀ x ∈ t.entries, x.key ≠ e.key) (hPerm : l.Perm (e :: t.entries)) :
    IndexOk { t with entries := l, index := t.index.insert e.key e.node } := by
  intro k n
  simp only [hPerm.mem_iff, List.mem_cons, exists_eq_or_imp]
  by_cases hk : k = e.key
  · subst hk
    rw [Finmap.lookup_insert, Option.some.injEq]
    constructor
    · exact fun hn => Or.inl ⟨rfl, hn⟩
    rintro (⟨-, hn⟩ | ⟨x, hx, hxKey, -⟩)
    · exact hn
    · exact absurd hxKey (hKey x hx)
  rw [Finmap.lookup_insert_of_ne _ hk, h k n]
  constructor
  · exact Or.inr
  rintro (⟨hxKey, -⟩ | hEntry)
  · exact absurd hxKey.symm hk
  · exact hEntry

/-! ### Sorting and changing positions -/

theorem sort_perm : t.sort.entries.Perm t.entries := perm_insertionSort _ _

theorem sort_sorted : t.sort.entries.Pairwise ExactEntry.le :=
  pairwise_insertionSort _ _

theorem SeqRows.reorder (h : SeqRows cfg q next extra t)
    (hPerm : l.Perm t.entries) : SeqRows cfg q next extra { t with entries := l } := by
  refine { h with apart := ?_, arena := ?_, fresh := ?_, used := ?_, limit := ?_ }
  · exact (pairwise_apart_perm hPerm).mpr h.apart
  · exact fun e he => h.arena e (hPerm.mem_iff.mp he)
  · exact fun e he => h.fresh e (hPerm.mem_iff.mp he)
  · intro i
    simp only [hPerm.mem_iff]
    exact h.used i
  intro hCompact
  rw [hPerm.length_eq]
  exact h.limit hCompact

theorem IndexOk.reorder (h : IndexOk t) (hPerm : l.Perm t.entries) :
    IndexOk { t with entries := l } := by
  intro k n
  simp only [hPerm.mem_iff]
  exact h k n

/-- A change of positions and ordinals. -/
structure SameRow (f : ExactEntry → ExactEntry) : Prop where
  node : ∀ e, (f e).node = e.node
  identity : ∀ e, (f e).identity = e.identity
  slot : ∀ e, (f e).slot = e.slot

variable {f : ExactEntry → ExactEntry}

theorem SameRow.key (hf : SameRow f) (e : ExactEntry) : (f e).key = e.key := by
  simp only [ExactEntry.key, hf.identity]

theorem SeqRows.map (h : SeqRows cfg q next extra t)
    (hf : SameRow f) : SeqRows cfg q next extra { t with entries := t.entries.map f } := by
  refine { h with apart := ?_, arena := ?_, fresh := ?_, used := ?_, limit := ?_ }
  · simp only [List.pairwise_map, ExactEntry.Apart, hf.key, hf.node, hf.slot]
    exact h.apart
  · simp only [List.forall_mem_map, hf.slot]
    exact h.arena
  · simp only [List.forall_mem_map, hf.node]
    exact h.fresh
  · simp only [List.mem_map, exists_exists_and_eq_and, hf.slot]
    exact h.used
  · simpa using h.limit

theorem IndexOk.map (h : IndexOk t) (hf : SameRow f) :
    IndexOk { t with entries := t.entries.map f } := by
  intro k n
  simp only [List.mem_map, exists_exists_and_eq_and, hf.key, hf.node]
  exact h k n

/-! ### Rebuilding the index -/

theorem buildIndex_spec (l : List ExactEntry) (index : TailIndex)
    (hApart : l.Pairwise ExactEntry.Apart) (hNew : ∀ e ∈ l, e.key ∉ index) :
    (buildIndex l index).2 = true ∧
      ∀ k n, (buildIndex l index).1.lookup k = some n ↔
        (∃ e ∈ l, e.key = k ∧ e.node = n) ∨ index.lookup k = some n := by
  induction l generalizing index with
  | nil => simp [buildIndex]
  | cons e l ih =>
    rw [List.pairwise_cons] at hApart
    have heNew : e.key ∉ index := hNew e mem_cons_self
    simp only [buildIndex, if_neg heNew]
    have hRest : ∀ x ∈ l, x.key ∉ index.insert e.key e.node := by
      intro x hx
      rw [Finmap.mem_insert, not_or]
      exact ⟨(hApart.1 x hx).1.symm, hNew x (mem_cons_of_mem e hx)⟩
    obtain ⟨hOk, hLookup⟩ := ih (index.insert e.key e.node) hApart.2 hRest
    refine ⟨hOk, ?_⟩
    intro k n
    rw [hLookup]
    simp only [List.mem_cons, exists_eq_or_imp]
    by_cases hk : k = e.key
    · subst hk
      have hNone : index.lookup e.key = none := lookup_eq_none.mpr heNew
      rw [lookup_insert, hNone]
      simp only [some.injEq, reduceCtorEq, or_false, true_and]
      exact or_comm
    rw [lookup_insert_of_ne _ hk]
    constructor
    · rintro (hEntry | hOld)
      · exact Or.inl (Or.inr hEntry)
      · exact Or.inr hOld
    rintro ((⟨hKey, -⟩ | hEntry) | hOld)
    · exact absurd hKey.symm hk
    · exact Or.inl hEntry
    · exact Or.inr hOld

theorem IndexOk.build (hApart : t.entries.Pairwise ExactEntry.Apart) :
    IndexOk { t with index := (buildIndex t.entries ∅).1 } := by
  intro k n
  rw [(buildIndex_spec t.entries ∅ hApart fun _ _ => notMem_empty).2]
  simp

/-! ### Commits -/

theorem SeqOk.eraseStale (h : SeqOk cfg q next [] t) (identity : TailIdentity) :
    SeqOk cfg q next [] (TailStore.eraseStale cfg q identity t) := by
  unfold TailStore.eraseStale
  split
  · rename_i dup hFind
    exact h.eraseRelease (h.find_iff.mp hFind).1
  · exact h

/-- Once the stale entry is gone no entry names the cell. -/
theorem SeqOk.eraseStale_key (h : SeqOk cfg q next [] t) (identity : TailIdentity) :
    ∀ e ∈ (TailStore.eraseStale cfg q identity t).entries, e.key ≠ identity.cellKey := by
  unfold TailStore.eraseStale
  split
  · rename_i dup hFind
    obtain ⟨hMem, hKey⟩ := h.find_iff.mp hFind
    intro e he hEq
    rw [eraseEntry_entries, mem_filter] at he
    have heq : e = dup := eq_of_not_apart h.apart he.1 hMem fun hApart =>
      hApart.1 (hEq.trans hKey.symm)
    simp [heq] at he
  · rename_i hFind
    exact h.find_none hFind

theorem eraseStale_sublist (identity : TailIdentity) :
    (TailStore.eraseStale cfg q identity t).entries.Sublist t.entries := by
  unfold eraseStale
  split
  · exact filter_sublist
  · exact List.Sublist.refl _

variable {inBatch : Bool}

/-- What taking a slot leaves: the slot is marked used and no entry has it. -/
theorem SeqOk.takeSlot (h : SeqOk cfg q next [] t)
    (hTokens : 0 < cfg.nTokens)
    (hTake : TailStore.takeSlot cfg q inBatch t = some (t', slot)) :
    SeqOk cfg q next [slot] t' ∧ Acquired cfg q t' slot ∧ t'.entries.Sublist t.entries ∧
      (cfg.compact = true → t'.entries.length < cfg.historyLimit) := by
  have hAcquire : t.acquire cfg q = some (t', slot) →
      (cfg.compact = true → t.entries.length < cfg.historyLimit) →
      SeqOk cfg q next [slot] t' ∧ Acquired cfg q t' slot ∧ t'.entries.Sublist t.entries ∧
        (cfg.compact = true → t'.entries.length < cfg.historyLimit) := by
    intro hAcquire hRoom
    obtain ⟨-, hAcquired, -, hEntries⟩ := h.toSeqRows.acquire hAcquire
    refine ⟨h.acquire hAcquire, ⟨hAcquired.arena, ?_⟩, ?_, ?_⟩
    · rw [hEntries]
      exact hAcquired.free
    · rw [hEntries]
    · rw [hEntries]
      exact hRoom
  unfold TailStore.takeSlot at hTake
  split at hTake
  · rename_i victim rest hEntries
    split at hTake
    · obtain ⟨rfl, rfl⟩ := hTake
      have hVictim : victim ∈ t.entries := by simp [hEntries]
      have hPerm := filter_node_perm h.apart hVictim
      refine ⟨h.eraseKeep hVictim, ⟨h.arena victim hVictim, ?_⟩, ?_, ?_⟩
      · intro e he
        have hApart := (pairwise_apart_perm hPerm).mp h.apart
        exact ((pairwise_cons.mp hApart).1 e he).2.2.symm
      · exact filter_sublist
      intro hCompact
      have hLimit := h.limit hCompact
      have hLength := hPerm.length_eq
      rw [length_cons] at hLength
      rw [eraseEntry_entries]
      omega
    rename_i hFull
    refine hAcquire hTake ?_
    intro hCompact
    simp only [hCompact, Bool.true_or, Bool.true_and, decide_eq_true_eq, not_le,
      TailConfig.retained] at hFull
    exact hFull
  rename_i hEntries
  refine hAcquire hTake ?_
  intro _
  rw [hEntries]
  exact Nat.add_pos_left hTokens _

theorem SeqOk.countRecovery (h : SeqOk cfg q next extra t) :
    SeqOk cfg q next extra (TailStore.countRecovery cfg t) := by
  unfold TailStore.countRecovery
  split
  · split
    · exact h.counters (Nat.zero_le _) fun _ => rfl
    · rename_i hDegraded hRecovery
      exact h.counters (d := t.degradation) (by omega) fun hZero => absurd hZero hDegraded
  · exact h

theorem countRecovery_entries : (TailStore.countRecovery cfg t).entries = t.entries := by
  unfold countRecovery
  split
  · split <;> rfl
  · rfl

theorem SeqOk.linkEntry (inBatch : Bool) (h : SeqOk cfg q next [e.slot] t)
    (hAcquired : Acquired cfg q t e.slot) (hKey : ∀ x ∈ t.entries, x.key ≠ e.key)
    (hNode : e.node = next) (hRoom : cfg.compact = true → t.entries.length < cfg.historyLimit) :
    SeqOk cfg q (next + 1) [] (TailStore.linkEntry cfg q inBatch e t) := by
  have hPerm := insertCommitted_perm e t.entries
  have hLinked : SeqOk cfg q (next + 1) [] { t with
      entries := insertCommitted e t.entries
      index := t.index.insert e.key e.node } :=
    { h.toSeqRows.link hAcquired hKey hNode hRoom hPerm _ with
      sorted := insertCommitted_sorted h.sorted
      index := h.index.link hKey hPerm }
  unfold TailStore.linkEntry
  split
  · exact hLinked.countRecovery
  · exact hLinked.countRecovery.trim _

theorem sameRow_move (node : Nat) (position : Int) (ordinal : Nat) :
    SameRow fun e : ExactEntry =>
      if e.node = node then { e with position, insertionOrdinal := ordinal } else e := by
  constructor <;> intro e <;> split <;> rfl

variable (h : SeqOk cfg q next [] t)

include h

theorem SeqOk.moveEntry (dup : ExactEntry) (position : Int)
    (ordinal : Nat) : SeqOk cfg q next [] (TailStore.moveEntry cfg q dup position ordinal t) := by
  have hSame := sameRow_move dup.node position ordinal
  have hPerm := perm_insertionSort le
    (t.entries.map fun e : ExactEntry =>
      if e.node = dup.node then { e with position, insertionOrdinal := ordinal } else e)
  have hSorted : SeqOk cfg q next [] (sort { t with
      entries := t.entries.map fun e : ExactEntry =>
        if e.node = dup.node then { e with position, insertionOrdinal := ordinal } else e }) :=
    { (h.toSeqRows.map hSame).reorder hPerm with
      sorted := sort_sorted
      index := (h.index.map hSame).reorder hPerm }
  exact hSorted.trim _

variable {identity : TailIdentity} {position : Int} {ordinal : Nat}

theorem SeqOk.commitNew (hTokens : 0 < cfg.nTokens)
    (hCommit : TailStore.commitNew cfg q inBatch next identity position ordinal t = some t') :
    SeqOk cfg q (next + 1) [] t' := by
  unfold TailStore.commitNew at hCommit
  split at hCommit
  · cases hCommit
  rename_i t₁ slot hTake
  obtain rfl := some.inj hCommit
  obtain ⟨hOk, hAcquired, hSublist, hRoom⟩ :=
    (h.eraseStale identity).takeSlot hTokens hTake
  exact hOk.linkEntry inBatch hAcquired
    (fun x hx => h.eraseStale_key identity x (hSublist.subset hx)) rfl hRoom

theorem SeqOk.commitSeq (hTokens : 0 < cfg.nTokens)
    (hCommit : TailStore.commitSeq cfg q inBatch next identity position ordinal t = some t') :
    SeqOk cfg q (next + 1) [] t' := by
  unfold TailStore.commitSeq at hCommit
  split at hCommit
  · split at hCommit
    · obtain rfl := some.inj hCommit
      exact (h.moveEntry _ position ordinal).mono (Nat.le_succ next)
    · exact h.commitNew hTokens hCommit
  · exact h.commitNew hTokens hCommit

/-! ### A cell that the sequence does not hold -/

omit h in
theorem TailConfig.retained_le_historyLimit (cfg : TailConfig) :
    cfg.retained ≤ cfg.historyLimit := by
  unfold retained historyLimit
  split <;> omega

omit h in
theorem TailConfig.retained_pos (hTokens : 0 < cfg.nTokens) : 0 < cfg.retained := by
  unfold retained historyLimit
  split <;> omega

/-- A free slot is found while the arena has one. -/
theorem SeqOk.acquire_some (hRoom : t.entries.length < cfg.arenaStride) :
    ∃ t' slot, t.acquire cfg q = some (t', slot) ∧ t'.entries = t.entries := by
  have hCard := h.toSeqRows.freeSlots_card
  obtain ⟨l, hl⟩ := card_pos.mp (by omega : 0 < (freeSlots cfg t).card)
  obtain ⟨l', hFree⟩ := freeSlot_of_mem (h.cursor (by omega)) hl
  unfold SeqTail.acquire
  rw [hFree]
  exact ⟨_, _, rfl, rfl⟩

theorem SeqOk.eraseFirst {rest : List ExactEntry}
    (hEntries : t.entries = e :: rest) (releaseSlot : Bool) :
    (t.eraseEntry cfg q e releaseSlot).entries = rest := by
  have hApart := h.apart
  rw [hEntries] at hApart
  rw [eraseEntry_entries, hEntries, List.filter_cons, if_neg (by simp)]
  apply List.filter_eq_self.mpr
  intro x hx
  simpa using ((pairwise_cons.mp hApart).1 x hx).2.1.symm

/-- Outside a batch a full sequence gives up its first entry. -/
theorem SeqOk.takeSlot_outside (hTokens : 0 < cfg.nTokens) :
    ∃ t₁ slot, TailStore.takeSlot cfg q false t = some (t₁, slot) ∧
      t₁.entries = if cfg.retained ≤ t.entries.length then t.entries.tail else t.entries := by
  have hArena := cfg.fits
  have hFits := cfg.retained_le_historyLimit
  have hHistory : cfg.historyLimit = cfg.nTokens + cfg.rollbackTokens := rfl
  unfold TailStore.takeSlot
  cases hEntries : t.entries with
  | nil =>
    obtain ⟨t₁, slot, hAcquire, hSame⟩ := h.acquire_some (by rw [hEntries, length_nil]; omega)
    refine ⟨t₁, slot, hAcquire, ?_⟩
    rw [hSame, hEntries, tail_nil, ite_self]
  | cons victim rest =>
    dsimp only
    by_cases hFull : cfg.retained ≤ t.entries.length
    · rw [hEntries] at hFull
      rw [if_pos (by simpa using hFull), if_pos hFull]
      exact ⟨_, _, rfl, h.eraseFirst hEntries false⟩
    obtain ⟨t₁, slot, hAcquire, hSame⟩ := h.acquire_some (by omega)
    rw [hEntries] at hFull
    rw [if_neg (by simpa using hFull), if_neg hFull]
    exact ⟨t₁, slot, hAcquire, by rw [hSame, hEntries]⟩

omit h in
theorem commitSeq_fresh (next : Nat) (position : Int) (ordinal : Nat)
    (hFind : t.find identity.cellKey = none)
    (hTake : TailStore.takeSlot cfg q inBatch t = some (t', slot)) :
    TailStore.commitSeq cfg q inBatch next identity position ordinal t =
      some (TailStore.linkEntry cfg q inBatch ⟨next, identity, position, ordinal, slot⟩ t') := by
  unfold TailStore.commitSeq TailStore.commitNew TailStore.eraseStale
  rw [hFind]
  dsimp only
  rw [hTake]

theorem SeqOk.recycleSeq (stream cell nextGeneration : Nat) :
    SeqOk cfg q next [] (TailStore.recycleSeq cfg stream cell nextGeneration q t) := by
  unfold TailStore.recycleSeq
  split
  · rename_i e hFind
    split
    · exact h.eraseRelease (h.find_iff.mp hFind).1
    · exact h
  · exact h

theorem SeqOk.restoreSeq (identity : TailIdentity) (position : Int)
    (ordinal : Nat) {localSlot : Nat} (hLocal : localSlot < cfg.arenaStride)
    (hRoom : t.entries.length < cfg.historyLimit) (hUsed : t.used localSlot = false)
    (hIndex : identity.cellKey ∉ t.index) :
    SeqOk cfg q (next + 1) []
      (TailStore.restoreSeq cfg q next identity position ordinal localSlot t) := by
  let e : ExactEntry := ⟨next, identity, position, ordinal, cfg.base q + localSlot⟩
  have hFree : ¬ ∃ x ∈ t.entries, x.slot = cfg.base q + localSlot := by
    intro hEx
    have := (h.used localSlot).mpr (Or.inl hEx)
    rw [hUsed] at this
    cases this
  have hKey : ∀ x ∈ t.entries, x.key ≠ e.key := by
    intro x hx hEq
    have hLookup : t.index.lookup e.key = some x.node :=
      (h.index _ _).mpr ⟨x, hx, hEq, rfl⟩
    exact hIndex (mem_iff.mpr ⟨_, hLookup⟩)
  have hTaken : SeqRows cfg q next [e.slot] { t with used := update t.used localSlot true }
      := by
    refine { h.toSeqRows with used := ?_ }
    intro i
    simp only [Function.update_apply, List.mem_singleton]
    by_cases hi : i = localSlot
    · simp [hi, e]
    have hne : ¬ cfg.base q + i = e.slot := by
      change ¬ cfg.base q + i = cfg.base q + localSlot
      omega
    simp only [hi, if_false, h.used, not_mem_nil, hne]
  have hAcquired : Acquired cfg q { t with used := update t.used localSlot true } e.slot :=
    ⟨⟨Nat.le_add_right _ _, Nat.add_lt_add_left hLocal _⟩, fun x hx hSlot => hFree ⟨x, hx, hSlot⟩⟩
  have hPerm := insertBefore_perm e t.entries
  exact
    { hTaken.link hAcquired hKey rfl (fun _ => hRoom) hPerm (t.index.insert e.key e.node) with
      sorted := insertBefore_sorted h.sorted
      index := IndexOk.link (t := { t with used := update t.used localSlot true })
        h.index hKey hPerm }

omit h

variable {identities : List TailIdentity} {dropNegative : Bool}

/-- A position change keeps everything but the index, which is rebuilt. -/
theorem SeqRows.repositionEntries {f : Int → Int}
    (h : SeqRows cfg q next [] t) :
    SeqRows cfg q next [] (TailStore.repositionEntries cfg q identities f dropNegative t) := by
  have hSame : SameRow fun e : ExactEntry =>
      if e.identity ∈ identities then { e with position := f e.position } else e := by
    constructor <;> intro e <;> split <;> rfl
  exact (((h.map hSame).dropWhere _).reorder (perm_insertionSort _ _)).trim _

theorem repositionEntries_sorted {f : Int → Int} :
    (TailStore.repositionEntries cfg q identities f dropNegative t).entries.Pairwise
      ExactEntry.le := by
  unfold repositionEntries
  rw [trim_entries]
  exact sort_sorted.sublist (drop_sublist _ _)

end Sequence

end Beellama.Ports
