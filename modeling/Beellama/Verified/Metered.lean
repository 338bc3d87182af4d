import Mathlib.Data.List.Basic

/-!
# Computations that pay for what they do

A `Meter` says what a change of state costs.  `Pays` says of a computation that starts with an amount
that it never spends more, returns with what is left, and only throws what it may throw.  For a parser
the amount is the length of the text it still has to read.
-/

namespace Beellama.Verified

variable {ε σ α β : Type}

/-- What it costs to come from one state to another. -/
structure Meter (σ : Type) where
  Cost : σ → σ → Nat → Prop
  refl : ∀ s, Cost s s 0
  trans : ∀ {s s' s'' m n}, Cost s s' m → Cost s' s'' n → Cost s s'' (m + n)
  mono : ∀ {s s' m n}, Cost s s' m → m ≤ n → Cost s s' n

/-- With `avail` the computation returns a result with `Q` and leaves `left`, or throws what `ok`
allows, and never spends more than it used up. -/
def Pays (M : Meter σ) (ok : ε → Prop) (avail : Nat) (x : EStateM ε σ α) (left : α → Nat)
    (Q : α → Prop) : Prop :=
  ∀ s,
    match x s with
    | .ok a s' => Q a ∧ left a ≤ avail ∧ M.Cost s s' (avail - left a)
    | .error e s' => ok e ∧ M.Cost s s' avail

namespace Pays

variable {M : Meter σ} {ok : ε → Prop} {avail : Nat} {x : EStateM ε σ α} {left : α → Nat}
  {Q : α → Prop}

theorem pure {a : α} (hQ : Q a) (h : left a ≤ avail) :
    Pays M ok avail (Pure.pure a : EStateM ε σ α) left Q := fun s =>
  ⟨hQ, h, M.mono (M.refl s) (Nat.zero_le _)⟩

theorem throw {e : ε} (h : ok e) :
    Pays M ok avail (MonadExcept.throw e : EStateM ε σ α) left Q := fun s =>
  ⟨h, M.mono (M.refl s) (Nat.zero_le _)⟩

theorem bind {f : α → EStateM ε σ β} {mid : α → Nat} {R : α → Prop} {left : β → Nat} {Q : β → Prop}
    (hx : Pays M ok avail x mid R)
    (hf : ∀ a, R a → mid a ≤ avail → Pays M ok (mid a) (f a) left Q) :
    Pays M ok avail (x >>= f) left Q := by
  intro s
  have hFirst := hx s
  simp only [Bind.bind, EStateM.bind]
  cases hCase : x s with
  | error e s' =>
    rw [hCase] at hFirst
    exact hFirst
  | ok a s' =>
    rw [hCase] at hFirst
    obtain ⟨hR, hLe, hCost⟩ := hFirst
    have hSecond := hf a hR hLe s'
    dsimp only
    cases hRest : f a s' with
    | error e s'' =>
      rw [hRest] at hSecond
      exact ⟨hSecond.1, M.mono (M.trans hCost hSecond.2) (by omega)⟩
    | ok b s'' =>
      rw [hRest] at hSecond
      obtain ⟨hQ, hLeft, hMore⟩ := hSecond
      exact ⟨hQ, Nat.le_trans hLeft hLe, M.mono (M.trans hCost hMore) (by omega)⟩

theorem spend {n : Nat} (hCost : ∀ s s' a, x s = .ok a s' → M.Cost s s' n)
    (hOk : ∀ s, ∃ a s', x s = .ok a s') :
    Pays M ok (avail + n) x (fun _ => avail) fun _ => True := by
  intro s
  obtain ⟨a, s', hRun⟩ := hOk s
  rw [hRun]
  refine ⟨trivial, Nat.le_add_right _ _, M.mono (hCost s s' a hRun) ?_⟩
  show n ≤ avail + n - avail
  omega

section

variable (h : Pays M ok avail x left Q)

include h

/-- More to spend, less left, a weaker result. -/
theorem imp {more : Nat} {less : α → Nat} {Q' : α → Prop} (hAvail : avail ≤ more)
    (hLeft : ∀ a, Q a → less a ≤ left a) (hQ : ∀ a, Q a → Q' a) :
    Pays M ok more x less Q' := by
  intro s
  have hRun := h s
  cases hCase : x s with
  | error e s' =>
    rw [hCase] at hRun
    exact ⟨hRun.1, M.mono hRun.2 hAvail⟩
  | ok a s' =>
    rw [hCase] at hRun
    obtain ⟨hPost, hLe, hCost⟩ := hRun
    have hLess := hLeft a hPost
    exact ⟨hQ a hPost, by omega, M.mono hCost (by omega)⟩

/-- A result that is returned leaves at most what there was. -/
theorem within : Pays M ok avail x left fun a => left a ≤ avail := by
  intro s
  have hRun := h s
  cases hCase : x s with
  | error e s' =>
    rw [hCase] at hRun
    exact hRun
  | ok a s' =>
    rw [hCase] at hRun
    exact ⟨hRun.2.1, hRun.2⟩

theorem frame (n : Nat) : Pays M ok (avail + n) x (fun a => left a + n) Q := by
  intro s
  have hRun := h s
  cases hCase : x s with
  | error e s' =>
    rw [hCase] at hRun
    exact ⟨hRun.1, M.mono hRun.2 (Nat.le_add_right _ _)⟩
  | ok a s' =>
    rw [hCase] at hRun
    obtain ⟨hPost, hLe, hCost⟩ := hRun
    refine ⟨hPost, Nat.add_le_add_right hLe n, ?_⟩
    rw [Nat.add_sub_add_right]
    exact hCost

end

theorem ite {c : Prop} [Decidable c] {y : EStateM ε σ α} (hx : c → Pays M ok avail x left Q)
    (hy : ¬ c → Pays M ok avail y left Q) : Pays M ok avail (if c then x else y) left Q := by
  split
  · exact hx ‹_›
  · exact hy ‹_›

end Pays

end Beellama.Verified
