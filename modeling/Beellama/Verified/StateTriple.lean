import Mathlib.Data.List.Basic

/-!
# Triples for stateful methods that throw

A method is a computation in `EStateM`: it keeps what it has written when it throws.  `Triple P x Q E`:
started in a state with `P` it returns in a state with `Q`, or throws in a state with `E`.
-/

namespace Beellama.Verified

open List

variable {ε σ α β : Type}

/-- Started where `P` holds, `x` returns where `Q` holds or throws where `E`
holds. -/
def Triple (P : σ → Prop) (x : EStateM ε σ α) (Q : α → σ → Prop) (E : ε → σ → Prop) : Prop :=
  ∀ s, P s →
    match x s with
    | .ok a s' => Q a s'
    | .error e s' => E e s'

variable {a : α} {f : α → EStateM ε σ β} {s' s : σ} {l : List α}

namespace Triple

variable {P P' : σ → Prop} {x : EStateM ε σ α} {Q Q' : α → σ → Prop} {E E' : ε → σ → Prop}

theorem imp (h : Triple P x Q E) (hP : ∀ s, P' s → P s) (hQ : ∀ a s, Q a s → Q' a s)
    (hE : ∀ e s, E e s → E' e s) : Triple P' x Q' E' := by
  intro s hs
  have hx := h s (hP s hs)
  cases hCase : x s with
  | ok a s' =>
    rw [hCase] at hx
    exact hQ a s' hx
  | error e s' =>
    rw [hCase] at hx
    exact hE e s' hx

theorem pure {Q : α → σ → Prop} (h : ∀ s, P s → Q a s) :
    Triple P (Pure.pure a : EStateM ε σ α) Q E := h

theorem modify {f : σ → σ} {Q : Unit → σ → Prop} (h : ∀ s, P s → Q () (f s)) :
    Triple P (modify f : EStateM ε σ Unit) Q E := h

theorem bind {R : α → σ → Prop} {Q : β → σ → Prop}
    (hx : Triple P x R E) (hf : ∀ a, Triple (R a) (f a) Q E) :
    Triple P (x >>= f) Q E := by
  intro s hs
  have h := hx s hs
  simp only [Bind.bind, EStateM.bind]
  cases hCase : x s with
  | ok a s' =>
    rw [hCase] at h
    exact hf a s' h
  | error e s' =>
    rw [hCase] at h
    exact h

/-- Reading the state fixes it in the rest of the computation. -/
theorem get {f : σ → EStateM ε σ β} {Q : β → σ → Prop}
    (h : ∀ s, P s → Triple (fun s' => s' = s) (f s) Q E) :
    Triple P (MonadState.get >>= f) Q E := fun s hs => h s hs s rfl

theorem set {Q : Unit → σ → Prop} (h : ∀ s, P s → Q () s') :
    Triple P (MonadStateOf.set s' : EStateM ε σ Unit) Q E := fun s hs => h s hs

theorem ite {c : Prop} [Decidable c] {y : EStateM ε σ α}
    (hx : c → Triple P x Q E) (hy : ¬ c → Triple P y Q E) :
    Triple P (if c then x else y) Q E := by
  split
  · exact hx ‹_›
  · exact hy ‹_›

/-- A loop over a list keeps what every turn keeps. -/
theorem forM {f : α → EStateM ε σ PUnit}
    (h : ∀ a ∈ l, Triple P (f a) (fun _ => P) E) :
    Triple P (l.forM f) (fun _ => P) E := by
  induction l with
  | nil => exact Triple.pure fun _ hs => hs
  | cons a l ih =>
    exact (h a mem_cons_self).bind fun _ =>
      ih fun b hb => h b (mem_cons_of_mem a hb)

theorem of_ok (h : Triple P x Q E) (hs : P s) (hRun : x s = .ok a s') : Q a s' := by
  have hx := h s hs
  rwa [hRun] at hx

end Triple

/-! ## Running a computation that returns -/

variable {x : EStateM ε σ α}

theorem run_bind (h : x s = .ok a s') : (x >>= f) s = f a s' := by
  simp only [Bind.bind, EStateM.bind, h]

theorem run_get (s : σ) : (get : EStateM ε σ σ) s = .ok s s := rfl

theorem run_modify (f : σ → σ) (s : σ) : (modify f : EStateM ε σ Unit) s = .ok () (f s) := rfl

theorem run_bind_error {e : ε} (h : x s = .error e s') : (x >>= f) s = .error e s' := by
  simp only [Bind.bind, EStateM.bind, h]

theorem run_bind_inv {s'' : σ} {b : β}
    (h : (x >>= f) s = .ok b s'') : ∃ a s', x s = .ok a s' ∧ f a s' = .ok b s'' := by
  cases hx : x s with
  | ok a s' => exact ⟨a, s', rfl, by rwa [run_bind hx] at h⟩
  | error e s' =>
    rw [run_bind_error hx] at h
    cases h

variable {r : List β}

theorem run_mapM_cons (h : mapM f (a :: l) s = .ok r s') :
    ∃ b s₁ r', f a s = .ok b s₁ ∧ mapM f l s₁ = .ok r' s' ∧ r = b :: r' := by
  rw [mapM_cons] at h
  obtain ⟨b, s₁, ha, h⟩ := run_bind_inv h
  obtain ⟨r', s₂, hl, h⟩ := run_bind_inv h
  cases h
  exact ⟨b, s₁, r', ha, hl, rfl⟩

theorem run_mapM_eq {g : α → β}
    (hf : ∀ a s b s', f a s = .ok b s' → b = g a) (h : mapM f l s = .ok r s') : r = l.map g := by
  induction l generalizing s r with
  | nil =>
    cases h
    rfl
  | cons a l ih =>
    obtain ⟨b, s₁, r', ha, hl, rfl⟩ := run_mapM_cons h
    rw [map_cons, hf a s b s₁ ha, ih hl]

/-- A loop over a list of lists is the loop over their elements. -/
theorem run_mapM_flatten {l : List (List α)}
    {r : List (List β)} (h : mapM (fun x => mapM f x) l s = .ok r s') :
    mapM f l.flatten s = .ok r.flatten s' := by
  induction l generalizing s r with
  | nil =>
    cases h
    rfl
  | cons x l ih =>
    obtain ⟨y, s₁, r', hx, hl, rfl⟩ := run_mapM_cons h
    rw [flatten_cons, mapM_append, run_bind hx, run_bind (ih hl)]
    rfl

/-- A loop over a concatenation goes on where the first part ended. -/
theorem run_forM_append {l' : List α} {f : α → EStateM ε σ PUnit}
    (h : l.forM f s = .ok ⟨⟩ s') : (l ++ l').forM f s = l'.forM f s' := by
  induction l generalizing s with
  | nil =>
    cases h
    rfl
  | cons b l ih =>
    change (f b >>= fun _ => l.forM f) s = _ at h
    change (f b >>= fun _ => (l ++ l').forM f) s = _
    cases hb : f b s with
    | ok u s₁ =>
      rw [run_bind hb] at h ⊢
      exact ih h
    | error e s₁ =>
      rw [run_bind_error hb] at h
      cases h

/-- The last turn of a loop starts where the turns before it ended. -/
theorem run_forM_concat {f : α → EStateM ε σ PUnit} (a : α)
    (h : l.forM f s = .ok ⟨⟩ s') : (l ++ [a]).forM f s = f a s' := by
  rw [run_forM_append h]
  change (f a >>= fun _ => Pure.pure ⟨⟩) s' = f a s'
  rw [bind_pure_unit]

/-- The state a computation ends in, returned or thrown. -/
def finalState (x : EStateM ε σ α) (s : σ) : σ :=
  match x s with
  | .ok _ s' => s'
  | .error _ s' => s'

/-- The computation does not throw. -/
def returns (x : EStateM ε σ α) (s : σ) : Bool :=
  match x s with
  | .ok _ _ => true
  | .error _ _ => false

theorem run_of_returns (h : returns x s = true) : ∃ a, x s = .ok a (finalState x s) := by
  unfold returns at h
  unfold finalState
  cases hx : x s with
  | ok a s' => exact ⟨a, rfl⟩
  | error e s' =>
    rw [hx] at h
    cases h

theorem returns_bind_of_ok (h : x s = .ok a s') : returns (x >>= f) s = returns (f a) s' := by
  unfold returns
  rw [run_bind h]

theorem returns_bind_iff :
    returns (x >>= f) s = true ↔ ∃ a s', x s = .ok a s' ∧ returns (f a) s' = true := by
  cases hx : x s with
  | ok a s' =>
    rw [returns_bind_of_ok hx]
    exact ⟨fun h => ⟨a, s', rfl, h⟩, fun ⟨b, s'', hRun, h⟩ => by cases hRun; exact h⟩
  | error e s' =>
    unfold returns
    rw [run_bind_error hx]
    exact ⟨fun h => absurd h Bool.false_ne_true, fun ⟨b, s'', hRun, _⟩ => by cases hRun⟩

theorem returns_bind_of_total (h : ∀ a s', returns (f a) s' = true) : returns
    (x >>= f) s = returns x s := by
  unfold returns at h ⊢
  cases hx : x s with
  | ok a s' =>
    rw [run_bind hx]
    exact h a s'
  | error e s' => rw [run_bind_error hx]

end Beellama.Verified
