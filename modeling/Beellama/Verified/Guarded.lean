import Mathlib.Logic.Basic

/-!
# Methods with a query that predicts their answer

A method either changes a store and answers `true` or refuses and answers `false`, and a query is to say
beforehand which.  A store made of two others asks both queries before it lets either part change.

* `Guarded.predicted_iff`: when the query predicts the method;
* `Guarded.both_predicted_iff`: when the queries of both parts predict that of the composite.
-/

namespace Beellama.Verified

/-- A method that may refuse, and its query.  `run` is `none` when the call does
not return. -/
structure Guarded (σ ρ : Type) where
  can : σ → ρ → Bool
  run : σ → ρ → Option (Bool × σ)

namespace Guarded

variable {σ τ ρ : Type}

/-- The call returns what the query says, and a refusal changes nothing. -/
def Predicted (m : Guarded σ ρ) (s : σ) (r : ρ) : Prop :=
  ∃ b s', m.run s r = some (b, s') ∧ b = m.can s r ∧ (b = false → s' = s)

/-- The call returns and accepts. -/
def Accepts (m : Guarded σ ρ) (s : σ) (r : ρ) : Prop := ∃ s', m.run s r = some (true, s')

/-- A call that the query rules out is refused and changes nothing. -/
def Refuses (m : Guarded σ ρ) (s : σ) (r : ρ) : Prop :=
  m.can s r = false → m.run s r = some (false, s)

theorem predicted_iff {m : Guarded σ ρ} {s : σ} {r : ρ} :
    m.Predicted s r ↔ (m.can s r = true → m.Accepts s r) ∧ m.Refuses s r := by
  constructor
  · rintro ⟨b, s', hRun, hb, hSame⟩
    refine ⟨fun hCan => ⟨s', ?_⟩, fun hCan => ?_⟩
    · rw [hRun, hb, hCan]
    · rw [hRun, hSame (hb.trans hCan), hb, hCan]
  rintro ⟨hAccepts, hRefuses⟩
  cases hCan : m.can s r with
  | false => exact ⟨false, s, hRefuses hCan, hCan.symm, fun _ => rfl⟩
  | true =>
    obtain ⟨s', hRun⟩ := hAccepts hCan
    exact ⟨true, s', hRun, hCan.symm, Bool.noConfusion⟩

/-- A method that asks its query first. -/
def guard (can : σ → ρ → Bool) (change : σ → ρ → Option (Bool × σ)) : Guarded σ ρ where
  can
  run s r := if can s r then change s r else some (false, s)

theorem guard_refuses (can : σ → ρ → Bool) (change : σ → ρ → Option (Bool × σ)) (s : σ) (r : ρ) :
    (guard can change).Refuses s r := by
  intro hCan
  change (if can s r = true then _ else _) = _
  rw [show can s r = false from hCan]
  rfl

theorem guard_run {can : σ → ρ → Bool} {change : σ → ρ → Option (Bool × σ)} {s : σ} {r : ρ}
    (hCan : can s r = true) : (guard can change).run s r = change s r := by
  change (if can s r = true then _ else _) = _
  rw [if_pos hCan]

/-- One part after the other, the second only when the first has accepted. -/
def chain (first : Guarded σ ρ) (second : Guarded τ ρ) (s : σ × τ) (r : ρ) :
    Option (Bool × σ × τ) :=
  match first.run s.1 r with
  | none => none
  | some (false, s') => some (false, (s', s.2))
  | some (true, s') => (second.run s.2 r).map fun p => (p.1, (s', p.2))

/-- A store of two parts: both queries are asked, then the parts change one after
the other. -/
def both (first : Guarded σ ρ) (second : Guarded τ ρ) : Guarded (σ × τ) ρ :=
  guard (fun s r => first.can s.1 r && second.can s.2 r) (chain first second)

variable {first : Guarded σ ρ} {second : Guarded τ ρ} {s : σ} {t : τ} {r : ρ}

theorem both_run (hFirst : first.can s r = true) (hSecond : second.can t r = true) :
    (both first second).run (s, t) r = chain first second (s, t) r :=
  guard_run (by rw [hFirst, hSecond]; rfl)

theorem chain_accepted {s' : σ} (hRun : first.run s r = some (true, s')) :
    chain first second (s, t) r = (second.run t r).map fun p => (p.1, (s', p.2)) := by
  unfold chain
  rw [hRun]

theorem chain_none (hRun : first.run s r = none) : chain first second (s, t) r = none := by
  unfold chain
  rw [hRun]

/-- The second part is only changed after the first has accepted. -/
theorem first_accepts {s' : σ} {t' : τ} (h : chain first second (s, t) r = some (true, (s', t'))) :
    first.Accepts s r := by
  unfold chain at h
  split at h
  · cases h
  · cases h
  · rename_i s' hs
    exact ⟨s', hs⟩

/-- An accepted result whose store is rebuilt from the parts. -/
theorem map_accepts {α β : Type} {x : Option (Bool × α)} {f : α → β} :
    (∃ b, x.map (fun p => (p.1, f p.2)) = some (true, b)) ↔ ∃ a, x = some (true, a) := by
  cases x with
  | none => simp
  | some p =>
    obtain ⟨b, a⟩ := p
    constructor
    · rintro ⟨_, h⟩
      cases h
      exact ⟨a, rfl⟩
    rintro ⟨_, h⟩
    cases h
    exact ⟨f a, rfl⟩

theorem both_accepts_iff (hFirst : first.can s r = true) (hSecond : second.can t r = true) :
    (both first second).Accepts (s, t) r ↔ first.Accepts s r ∧ second.Accepts t r := by
  unfold Accepts
  rw [both_run hFirst hSecond]
  constructor
  · rintro ⟨⟨s', t'⟩, h⟩
    obtain ⟨s₁, hRun⟩ := first_accepts h
    rw [chain_accepted hRun] at h
    exact ⟨⟨s₁, hRun⟩, map_accepts.mp ⟨_, h⟩⟩
  rintro ⟨⟨s', hRun⟩, hSecond⟩
  rw [chain_accepted hRun]
  exact map_accepts.mpr hSecond

/-- The composite of two stores is predicted when both deliver what both
announce. -/
theorem both_predicted_iff :
    (both first second).Predicted (s, t) r ↔
      (first.can s r = true → second.can t r = true → first.Accepts s r ∧ second.Accepts t r) := by
  have hRefuses : (both first second).Refuses (s, t) r := guard_refuses _ _ _ _
  rw [predicted_iff, and_iff_left hRefuses]
  change ((first.can s r && second.can t r) = true → _) ↔ _
  rw [Bool.and_eq_true]
  constructor
  · intro h hFirst hSecond
    exact (both_accepts_iff hFirst hSecond).mp (h ⟨hFirst, hSecond⟩)
  · rintro h ⟨hFirst, hSecond⟩
    exact (both_accepts_iff hFirst hSecond).mpr (h hFirst hSecond)

end Guarded

end Beellama.Verified
