import Mathlib.Data.List.AList

/-!
# Maps that are filled entry by entry

A map is an association list without two entries of one key; the order of the
entries is the order in which it is iterated.  `emplace` adds an entry unless the
map has its key.

* `lookup_emplaceAll` — the map that is filled from a list of entries.
-/

namespace Beellama.Verified

open List

variable {α : Type} [DecidableEq α] {β : Type} {s : AList fun _ : α => β}
  {l : List ((_ : α) × β)} {a a' : α} {b : β}

/-- The entry is added unless the map has its key. -/
def emplace (s : AList fun _ : α => β) (a : α) (b : β) : AList fun _ : α => β :=
  if a ∈ s then s else s.insert a b

/-- The entries are added in their order. -/
def emplaceAll (s : AList fun _ : α => β) (l : List ((_ : α) × β)) : AList fun _ : α => β :=
  l.foldl (fun s e => emplace s e.1 e.2) s

theorem lookup_insert_eq (s : AList fun _ : α => β) (a a' : α) (b : β) :
    (s.insert a b).lookup a' = if a' = a then some b else s.lookup a' := by
  by_cases h : a' = a
  · rw [if_pos h, h, AList.lookup_insert]
  · rw [if_neg h, AList.lookup_insert_ne h]

theorem lookup_emplace_of_notMem (h : a ∉ s) (a' : α) :
    (emplace s a b).lookup a' = if a' = a then some b else s.lookup a' := by
  unfold emplace
  rw [if_neg h, lookup_insert_eq]

/-- The entries of a list without two of one key, added to a map that has none of its keys. -/
theorem lookup_emplaceAll (h : l.NodupKeys) (hFresh : ∀ e ∈ l, e.1 ∉ s) (a : α) :
    (emplaceAll s l).lookup a = (l.dlookup a).or (s.lookup a) := by
  induction l generalizing s with
  | nil => rfl
  | cons e l ih =>
    have hHead : e.1 ∉ l.keys := (nodupKeys_cons.mp h).1
    have hNew : e.1 ∉ s := hFresh e mem_cons_self
    have hNext : ∀ e' ∈ l, e'.1 ∉ emplace s e.1 e.2 := by
      intro e' he'
      have hNe : e'.1 ≠ e.1 := fun hEq => hHead (hEq ▸ mem_keys_of_mem he')
      rw [← AList.lookup_eq_none, lookup_emplace_of_notMem hNew, if_neg hNe, AList.lookup_eq_none]
      exact hFresh e' (mem_cons_of_mem e he')
    have hRest := ih (nodupKeys_cons.mp h).2 hNext
    show (emplaceAll (emplace s e.1 e.2) l).lookup a = _
    rw [hRest, lookup_emplace_of_notMem hNew]
    by_cases hEq : a = e.1
    · subst hEq
      rw [if_pos rfl, dlookup_cons_eq, dlookup_eq_none.mpr hHead]
      rfl
    · rw [if_neg hEq, dlookup_cons_ne _ _ hEq]

theorem lookup_emplaceAll_entries (s : AList fun _ : α => β) (a : α) :
    (emplaceAll ∅ s.entries).lookup a = s.lookup a := by
  rw [lookup_emplaceAll s.nodupKeys fun e _ => AList.notMem_empty e.1, AList.lookup_empty,
    Option.or_none]
  rfl

end Beellama.Verified
