import Mathlib.Data.List.Induction

/-!
# Loops that may throw

Loops in `Except`: what a loop that returns keeps (`foldlM_keeps`), and the value
of a loop whose turns are all known to return (`foldlM_eq_ok`, `mapM_eq_ok`).
-/

namespace Beellama.Verified

open List

variable {α β ε : Type}

variable {f : α → Except ε β} {b : β}

theorem exists_of_bind {x : Except ε α} (h : x >>= f = .ok b) : ∃ a, x = .ok a ∧ f a = .ok b := by
  cases x with
  | error e => cases h
  | ok a => exact ⟨a, rfl, h⟩

variable {l : List α}

/-- The loop returns `G l` when every turn leads from `G` of what is visited to `G` of one
element more. -/
theorem foldlM_eq_ok {f : β → α → Except ε β} {G : List α → β}
    (h : ∀ visited x rest, l = visited ++ x :: rest →
      f (G visited) x = .ok (G (visited ++ [x]))) :
    l.foldlM f (G []) = .ok (G l) := by
  have hFrom : ∀ visited rest, l = visited ++ rest → rest.foldlM f (G visited) = .ok (G l) := by
    intro visited rest hl
    induction rest generalizing visited with
    | nil =>
      rw [hl, append_nil]
      rfl
    | cons x rest ih =>
      rw [foldlM_cons, h visited x rest hl]
      exact ih (visited ++ [x]) (by rw [hl, append_assoc]; rfl)
  exact hFrom [] l rfl

theorem foldlM_keeps {f : β → α → Except ε β} {P : β → Prop} {b' : β}
    (hTurn : ∀ x ∈ l, ∀ b b', P b → f b x = .ok b' → P b') (hb : P b)
    (h : l.foldlM f b = .ok b') : P b' := by
  induction l generalizing b with
  | nil =>
    cases h
    exact hb
  | cons x l ih =>
    rw [foldlM_cons] at h
    obtain ⟨c, hx, h⟩ := exists_of_bind h
    exact ih (fun y hy => hTurn y (mem_cons_of_mem _ hy)) (hTurn x (by simp) b c hb hx) h

variable {g : α → β}

theorem mapM_eq_ok (h : ∀ x ∈ l, f x = .ok (g x)) : l.mapM f = .ok (l.map g) := by
  induction l with
  | nil => rfl
  | cons x l ih =>
    rw [mapM_cons, h x (by simp), ih fun y hy => h y (mem_cons_of_mem _ hy)]
    rfl

variable {bs : List β}

theorem forall₂_of_mapM (h : l.mapM f = .ok bs) : List.Forall₂ (fun x b => f x = .ok b) l bs := by
  induction l generalizing bs with
  | nil =>
    cases h
    exact .nil
  | cons x l ih =>
    rw [mapM_cons] at h
    obtain ⟨b, hx, h⟩ := exists_of_bind h
    obtain ⟨bs', hl, h⟩ := exists_of_bind h
    cases h
    exact .cons hx (ih hl)

/-! ## Loops in `Option` -/

theorem mapM_eq_some {f : α → Option β} (h : ∀ x ∈ l, f x = some (g x)) :
    l.mapM f = some (l.map g) := by
  induction l with
  | nil => rfl
  | cons x l ih =>
    rw [mapM_cons, h x (by simp), ih fun y hy => h y (mem_cons_of_mem _ hy)]
    rfl

theorem exists_of_mapM_eq_some {f : α → Option β}
    (h : l.mapM f = some bs) : ∀ x ∈ l, ∃ b, f x = some b := by
  induction l generalizing bs with
  | nil => exact fun x hx => absurd hx not_mem_nil
  | cons y l ih =>
    rw [mapM_cons] at h
    obtain ⟨b, hy, h⟩ := Option.bind_eq_some_iff.mp h
    obtain ⟨rest, hl, h⟩ := Option.bind_eq_some_iff.mp h
    intro x hx
    rcases mem_cons.mp hx with rfl | hRest
    · exact ⟨b, hy⟩
    · exact ih hl x hRest

end Beellama.Verified
