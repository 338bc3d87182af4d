import Mathlib.Data.List.Basic
import Mathlib.Logic.Relation

/-!
# Work-list loops with a set of seen items

A loop takes items off a stack, skips those it has seen, emits some and pushes the successors of each; an
item may also abort it.  It emits exactly what is reachable (`sound`, `complete`), and ends when the
successor relation is well founded below the start (`ends`).
-/

namespace Beellama.Verified

open List

/-- How a loop ends within its fuel. -/
inductive WorklistResult (σ : Type)
  | running
  | aborted
  | done (out : List σ)
  deriving DecidableEq

/-- Go on with the output of a loop that is done. -/
def WorklistResult.bind {σ τ : Type} (r : WorklistResult σ) (f : List σ → WorklistResult τ) :
    WorklistResult τ :=
  match r with
  | running => running
  | aborted => aborted
  | done out => f out

theorem WorklistResult.of_bind {σ τ : Type} {r : WorklistResult σ} {f : List σ → WorklistResult τ}
    {out : List τ} (h : r.bind f = .done out) : ∃ mid, r = .done mid ∧ f mid = .done out := by
  cases r with
  | running | aborted => cases h
  | done mid => exact ⟨mid, rfl, h⟩

section Worklist

variable {σ : Type} [DecidableEq σ] (expand : σ → Option (List σ)) (emits : σ → Bool)

/-- Emit an item unless it already was. -/
def emit (s : σ) (out : List σ) : List σ := if emits s ∧ s ∉ out then out ++ [s] else out

/-- The loop; the head of `todo` is next, the last successor pushed comes first. -/
def worklist : Nat → List σ → List σ → List σ → WorklistResult σ
  | 0, _, _, _ => .running
  | _ + 1, [], _, out => .done out
  | fuel + 1, s :: todo, seen, out =>
    if s ∈ seen then worklist fuel todo seen out
    else
      match expand s with
      | none => .aborted
      | some next => worklist fuel (next.reverse ++ todo) (s :: seen) (emit emits s out)

/-- One item is a successor of the other. -/
def Child (s s' : σ) : Prop := ∃ next, expand s = some next ∧ s' ∈ next

/-- What the loop can come to from an item. -/
def Reach : σ → σ → Prop := Relation.ReflTransGen (Child expand)

variable {expand emits}

theorem mem_emit {s x : σ} {out : List σ} :
    x ∈ emit emits s out ↔ x ∈ out ∨ emits s = true ∧ x = s := by
  simp only [emit]
  split
  next h =>
    rw [mem_append, mem_singleton]
    exact or_congr_right ⟨fun hEq => ⟨h.1, hEq⟩, fun hEq => hEq.2⟩
  next h =>
    constructor
    · exact Or.inl
    intro hx
    rcases hx with hOut | ⟨hEmits, hEq⟩
    · exact hOut
    by_cases hMem : s ∈ out
    · exact hEq ▸ hMem
    · exact absurd ⟨hEmits, hMem⟩ h

variable {s : σ}

theorem emit_nodup {out : List σ} (h : out.Nodup) : (emit emits s out).Nodup := by
  simp only [emit]
  split
  next hNew =>
    refine nodup_append.mpr ⟨h, by simp, ?_⟩
    intro x hx y hy hEq
    rw [hEq, mem_singleton.mp hy] at hx
    exact hNew.2 hx
  next => exact h

namespace Worklist

variable {todo seen out : List σ}

/-- More fuel does not change how the loop ended. -/
theorem mono {fuel fuel' : Nat} (hLe : fuel ≤ fuel')
    (h : worklist expand emits fuel todo seen out ≠ .running) :
    worklist expand emits fuel' todo seen out = worklist expand emits fuel todo seen out := by
  induction fuel generalizing fuel' todo seen out with
  | zero => exact absurd rfl h
  | succ fuel ih =>
    obtain ⟨n, rfl⟩ : ∃ n, fuel' = n + 1 := ⟨fuel' - 1, by omega⟩
    cases todo with
    | nil => rfl
    | cons s todo =>
      simp only [worklist] at h ⊢
      split
      next hSeen =>
        rw [if_pos hSeen] at h
        exact ih (by omega) h
      next hSeen =>
        rw [if_neg hSeen] at h
        cases hExpand : expand s with
        | none => rfl
        | some next =>
          rw [hExpand] at h
          exact ih (by omega) h

variable {todo seen out out' : List σ} {fuel : Nat}

section

variable (h : worklist expand emits fuel todo seen out = .done out')

include h

theorem keeps {P : List σ → List σ → List σ → Prop} (hP : P todo seen out)
    (hSkip : ∀ s todo seen out, s ∈ seen → P (s :: todo) seen out → P todo seen out)
    (hVisit : ∀ s todo seen out next, expand s = some next → P (s :: todo) seen out →
      P (next.reverse ++ todo) (s :: seen) (emit emits s out)) : ∃ seen', P [] seen' out' := by
  induction fuel generalizing todo seen out with
  | zero => contradiction
  | succ fuel ih =>
    cases todo with
    | nil =>
      simp only [worklist, WorklistResult.done.injEq] at h
      exact ⟨seen, h ▸ hP⟩
    | cons s todo =>
      simp only [worklist] at h
      split at h
      next hSeen => exact ih h (hSkip s todo seen out hSeen hP)
      next =>
        cases hExpand : expand s with
        | none =>
          rw [hExpand] at h
          contradiction
        | some next =>
          rw [hExpand] at h
          exact ih h (hVisit s todo seen out next hExpand hP)

/-- The output only grows, by items that are reachable and emitted. -/
theorem sound {x : σ} (hx : x ∈ out') :
    x ∈ out ∨ emits x = true ∧ ∃ t ∈ todo, Reach expand t x := by
  obtain ⟨-, hOut, -⟩ := keeps h (P := fun rest _ o =>
    (∀ x ∈ o, x ∈ out ∨ emits x = true ∧ ∃ t ∈ todo, Reach expand t x) ∧
      ∀ s ∈ rest, ∃ t ∈ todo, Reach expand t s)
    ⟨fun _ => Or.inl, fun s hs => ⟨s, hs, Relation.ReflTransGen.refl⟩⟩
    (fun s rest _ _ _ hP => ⟨hP.1, fun t ht => hP.2 t (mem_cons_of_mem _ ht)⟩) (by
      rintro s rest seen o next hExpand ⟨hOut, hRest⟩
      obtain ⟨t, ht, hReach⟩ := hRest s mem_cons_self
      refine ⟨fun x hx => ?_, fun y hy => ?_⟩
      · rcases mem_emit.mp hx with hOld | ⟨hEmits, rfl⟩
        · exact hOut x hOld
        · exact Or.inr ⟨hEmits, t, ht, hReach⟩
      rcases mem_append.mp hy with hNext | hTodo
      · exact ⟨t, ht, hReach.tail ⟨next, hExpand, mem_reverse.mp hNext⟩⟩
      · exact hRest y (mem_cons_of_mem _ hTodo))
  exact hOut x hx

theorem out_subset {x : σ} (hx : x ∈ out) : x ∈ out' := by
  obtain ⟨-, hOut⟩ := keeps h (P := fun _ _ o => x ∈ o) hx (fun _ _ _ _ _ hP => hP)
    fun _ _ _ _ _ _ hP => mem_emit.mpr (Or.inl hP)
  exact hOut

theorem nodup (hOut : out.Nodup) : out'.Nodup := by
  obtain ⟨-, hOut⟩ := keeps h (P := fun _ _ o => o.Nodup) hOut (fun _ _ _ _ _ hP => hP)
    fun _ _ _ _ _ _ hP => emit_nodup hP
  exact hOut

/-- What was seen has been emitted, and its successors are seen or to do. -/
def Closed (expand : σ → Option (List σ)) (emits : σ → Bool) (todo seen out : List σ) : Prop :=
  ∀ s ∈ seen, (emits s = true → s ∈ out) ∧
    ∃ next, expand s = some next ∧ ∀ s' ∈ next, s' ∈ seen ∨ s' ∈ todo

omit h in
omit [DecidableEq σ] in
theorem Closed.skip (h : Closed expand emits (s :: todo) seen out) (hSeen : s ∈ seen) :
    Closed expand emits todo seen out := by
  intro x hx
  obtain ⟨hOut, next, hExpand, hNext⟩ := h x hx
  refine ⟨hOut, next, hExpand, ?_⟩
  intro s' hs'
  rcases hNext s' hs' with hOld | hTodo
  · exact Or.inl hOld
  rcases mem_cons.mp hTodo with hEq | hRest
  · exact Or.inl (hEq ▸ hSeen)
  · exact Or.inr hRest

omit h in
theorem Closed.visit {todo seen out next : List σ}
    (h : Closed expand emits (s :: todo) seen out) (hExpand : expand s = some next) :
    Closed expand emits (next.reverse ++ todo) (s :: seen) (emit emits s out) := by
  intro x hx
  rcases mem_cons.mp hx with hEq | hOld
  · subst hEq
    refine ⟨fun hEmits => mem_emit.mpr (Or.inr ⟨hEmits, rfl⟩), next, hExpand, ?_⟩
    intro s' hs'
    exact Or.inr (mem_append_left _ (mem_reverse.mpr hs'))
  obtain ⟨hOut, next', hExpand', hNext⟩ := h x hOld
  refine ⟨fun hEmits => mem_emit.mpr (Or.inl (hOut hEmits)), next', hExpand', ?_⟩
  intro s' hs'
  rcases hNext s' hs' with hSeen | hTodo
  · exact Or.inl (mem_cons_of_mem _ hSeen)
  rcases mem_cons.mp hTodo with hEq | hRest
  · exact Or.inl (hEq ▸ mem_cons_self)
  · exact Or.inr (mem_append_right _ hRest)

/-- A loop that ends has seen all it was to do, and what it has seen is closed. -/
theorem closes (hClosed : Closed expand emits todo seen out) :
    ∃ seen', Closed expand emits [] seen' out' ∧ (∀ s ∈ seen, s ∈ seen') ∧
      ∀ s ∈ todo, s ∈ seen' := by
  obtain ⟨seen', hClosed', hOld, hTodo⟩ := keeps h (P := fun rest seen' o =>
    Closed expand emits rest seen' o ∧ (∀ s ∈ seen, s ∈ seen') ∧ ∀ s ∈ todo, s ∈ seen' ∨ s ∈ rest)
    ⟨hClosed, fun _ hs => hs, fun _ hs => Or.inr hs⟩
    (by
      rintro s rest seen' o hSeen ⟨hClosed, hOld, hTodo⟩
      refine ⟨hClosed.skip hSeen, hOld, fun x hx => ?_⟩
      rcases hTodo x hx with hIn | hRest
      · exact Or.inl hIn
      rcases mem_cons.mp hRest with rfl | hRest
      · exact Or.inl hSeen
      · exact Or.inr hRest)
    (by
      rintro s rest seen' o next hExpand ⟨hClosed, hOld, hTodo⟩
      refine ⟨hClosed.visit hExpand, fun x hx => mem_cons_of_mem _ (hOld x hx), fun x hx => ?_⟩
      rcases hTodo x hx with hIn | hRest
      · exact Or.inl (mem_cons_of_mem _ hIn)
      rcases mem_cons.mp hRest with rfl | hRest
      · exact Or.inl mem_cons_self
      · exact Or.inr (mem_append_right _ hRest))
  exact ⟨seen', hClosed', hOld, fun s hs => (hTodo s hs).resolve_right not_mem_nil⟩

end

omit [DecidableEq σ] in
theorem Closed.reach {seen out : List σ} (h : Closed expand emits [] seen out) {s x : σ}
    (hs : s ∈ seen) (hReach : Reach expand s x) : x ∈ seen := by
  induction hReach with
  | refl => exact hs
  | tail _ hChild ih =>
    obtain ⟨next, hExpand, hMem⟩ := hChild
    obtain ⟨-, next', hExpand', hNext⟩ := h _ ih
    rw [hExpand] at hExpand'
    rcases hNext _ (Option.some.inj hExpand' ▸ hMem) with hSeen | hNil
    · exact hSeen
    · simp at hNil

/-- A loop that ends from nothing seen has seen all that is reachable: it is a
finite list. -/
theorem reach_seen {out out' : List σ} (h : worklist expand emits fuel [s] [] out = .done out') :
    ∃ seen' : List σ, ∀ x, Reach expand s x → x ∈ seen' ∧ (emits x = true → x ∈ out') := by
  have hStart : Closed expand emits [s] [] out := by
    intro x hx
    simp at hx
  obtain ⟨seen', hClosed, -, hTodo⟩ := closes h hStart
  refine ⟨seen', ?_⟩
  intro x hReach
  have hSeen := hClosed.reach (hTodo s mem_cons_self) hReach
  exact ⟨hSeen, (hClosed x hSeen).1⟩

/-- A loop that ends from nothing seen has emitted all that is reachable. -/
theorem complete {out out' : List σ}
    (h : worklist expand emits fuel [s] [] out = .done out') {x : σ} (hReach : Reach expand s x)
    (hEmits : emits x = true) : x ∈ out' := by
  obtain ⟨seen', hSeen⟩ := reach_seen h
  exact (hSeen x hReach).2 hEmits

/-- A loop that aborts came to an item without successors. -/
theorem reach_of_aborted (h : worklist expand emits fuel todo seen out = .aborted) :
    ∃ t ∈ todo, ∃ x, Reach expand t x ∧ expand x = none := by
  induction fuel generalizing todo seen out with
  | zero => contradiction
  | succ fuel ih =>
    cases todo with
    | nil => contradiction
    | cons s todo =>
      simp only [worklist] at h
      split at h
      next =>
        obtain ⟨t, ht, hx⟩ := ih h
        exact ⟨t, mem_cons_of_mem _ ht, hx⟩
      next =>
        cases hExpand : expand s with
        | none => exact ⟨s, mem_cons_self, s, Relation.ReflTransGen.refl, hExpand⟩
        | some next =>
          rw [hExpand] at h
          obtain ⟨t, ht, x, hReach, hNone⟩ := ih h
          rcases mem_append.mp ht with hNext | hTodo
          · have hChild : Child expand s t := ⟨next, hExpand, mem_reverse.mp hNext⟩
            exact ⟨s, mem_cons_self, x, Relation.ReflTransGen.head hChild hReach, hNone⟩
          · exact ⟨t, mem_cons_of_mem _ hTodo, x, hReach, hNone⟩

/-- An item is worked off: it leaves the stack after some turns, or aborts the
loop. -/
def WorkedOff (expand : σ → Option (List σ)) (emits : σ → Bool) (items : List σ) : Prop :=
  ∀ todo seen out, ∃ n seen' out',
    (∀ fuel, worklist expand emits (fuel + n) (items ++ todo) seen out =
      worklist expand emits fuel todo seen' out') ∨
    ∀ fuel, worklist expand emits (fuel + n) (items ++ todo) seen out = .aborted

theorem workedOff_list {items : List σ} (h : ∀ s ∈ items, WorkedOff expand emits [s]) :
    WorkedOff expand emits items := by
  induction items with
  | nil =>
    intro todo seen out
    exact ⟨0, seen, out, Or.inl fun fuel => rfl⟩
  | cons s items ih =>
    intro todo seen out
    obtain ⟨n, seen₁, out₁, hFirst⟩ := h s mem_cons_self (items ++ todo) seen out
    obtain ⟨m, seen₂, out₂, hRest⟩ :=
      ih (fun x hx => h x (mem_cons_of_mem _ hx)) todo seen₁ out₁
    refine ⟨m + n, seen₂, out₂, ?_⟩
    rcases hFirst with hDone | hAborted
    · have hStep : ∀ fuel, worklist expand emits (fuel + (m + n)) (s :: items ++ todo) seen out =
          worklist expand emits (fuel + m) (items ++ todo) seen₁ out₁ := by
        intro fuel
        have hAt := hDone (fuel + m)
        rwa [Nat.add_assoc] at hAt
      rcases hRest with hDone' | hAborted'
      · exact Or.inl fun fuel => (hStep fuel).trans (hDone' fuel)
      · exact Or.inr fun fuel => (hStep fuel).trans (hAborted' fuel)
    refine Or.inr fun fuel => ?_
    have hAt := hAborted (fuel + m)
    rwa [Nat.add_assoc] at hAt

variable {s : σ}

/-- An item with finitely many descents is worked off. -/
theorem workedOff (h : Acc (fun a b => Child expand b a) s) : WorkedOff expand emits [s] := by
  induction h with
  | intro s _ ih =>
    intro todo seen out
    by_cases hSeen : s ∈ seen
    · refine ⟨1, seen, out, Or.inl fun fuel => ?_⟩
      simp [worklist, hSeen]
    cases hExpand : expand s with
    | none =>
      refine ⟨1, seen, out, Or.inr fun fuel => ?_⟩
      simp [worklist, hSeen, hExpand]
    | some next =>
      have hNext : WorkedOff expand emits next.reverse := by
        refine workedOff_list ?_
        intro x hx
        exact ih x ⟨next, hExpand, mem_reverse.mp hx⟩
      obtain ⟨n, seen', out', hDone⟩ := hNext todo (s :: seen) (emit emits s out)
      refine ⟨n + 1, seen', out', ?_⟩
      have hStep : ∀ fuel, worklist expand emits (fuel + (n + 1)) ([s] ++ todo) seen out =
          worklist expand emits (fuel + n) (next.reverse ++ todo) (s :: seen)
            (emit emits s out) := by
        intro fuel
        simp [worklist, hSeen, hExpand]
      rcases hDone with hDone | hAborted
      · exact Or.inl fun fuel => (hStep fuel).trans (hDone fuel)
      · exact Or.inr fun fuel => (hStep fuel).trans (hAborted fuel)

/-- The loop ends where the descents from its start are finite. -/
theorem ends (h : Acc (fun a b => Child expand b a) s) (out : List σ) :
    ∃ fuel, worklist expand emits fuel [s] [] out ≠ .running := by
  have hWorked : WorkedOff expand emits [s] := workedOff h
  obtain ⟨n, seen', out', hDone⟩ := hWorked [] [] out
  refine ⟨1 + n, ?_⟩
  rcases hDone with hDone | hAborted
  · have hAt := hDone 1
    rw [append_nil] at hAt
    rw [hAt]
    simp [worklist]
  have hAt := hAborted 1
  rw [append_nil] at hAt
  rw [hAt]
  simp

end Worklist

end Worklist

/-! ## Loops over loops -/

/-- Run a loop for each item of a list, each on the output of the one before. -/
def thread {α σ : Type} (f : α → List σ → WorklistResult σ) (l : List α) (out : List σ) :
    WorklistResult σ :=
  l.foldl (fun r x => r.bind (f x)) (.done out)

section Thread

variable {α σ : Type} {f : α → List σ → WorklistResult σ}

theorem foldl_bind (l : List α) (r : WorklistResult σ) :
    l.foldl (fun r x => r.bind (f x)) r = r.bind (thread f l) := by
  cases r with
  | done out => rfl
  | running =>
    induction l with
    | nil => rfl
    | cons x l ih => exact ih
  | aborted =>
    induction l with
    | nil => rfl
    | cons x l ih => exact ih

theorem thread_cons (x : α) (l : List α) (out : List σ) :
    thread f (x :: l) out = (f x out).bind (thread f l) :=
  foldl_bind l (f x out)

/-- When every loop adds what `Q` says of its item, together they add what `Q` says
of some item. -/
theorem thread_union {ω : Type} {I : List σ → Prop} {D : List σ → ω → Prop} {Q : α → ω → Prop}
    {l : List α} {out out' : List σ}
    (hStep : ∀ x ∈ l, ∀ out out', I out → f x out = .done out' →
      I out' ∧ ∀ v, D out' v ↔ D out v ∨ Q x v)
    (hOut : I out) (h : thread f l out = .done out') :
    I out' ∧ ∀ v, D out' v ↔ D out v ∨ ∃ x ∈ l, Q x v := by
  induction l generalizing out with
  | nil =>
    have hEq : out = out' := by simpa [thread] using h
    subst hEq
    exact ⟨hOut, by simp⟩
  | cons x l ih =>
    rw [thread_cons] at h
    obtain ⟨mid, hFirst, h⟩ := WorklistResult.of_bind h
    obtain ⟨hMid, hAdd⟩ := hStep x mem_cons_self out mid hOut hFirst
    obtain ⟨hEnd, hRest⟩ := ih (fun y hy => hStep y (mem_cons_of_mem _ hy)) hMid h
    refine ⟨hEnd, ?_⟩
    intro v
    rw [hRest v, hAdd v]
    simp only [mem_cons, exists_eq_or_imp]
    exact or_assoc

/-- The loops do not abort when none of them does. -/
theorem thread_ne_aborted {I : List σ → Prop} {l : List α} {out : List σ}
    (hStep : ∀ x ∈ l, ∀ out, I out → f x out ≠ .aborted ∧ ∀ out', f x out = .done out' → I out')
    (hOut : I out) : thread f l out ≠ .aborted := by
  induction l generalizing out with
  | nil => simp [thread]
  | cons x l ih =>
    rw [thread_cons]
    obtain ⟨hNot, hKeep⟩ := hStep x mem_cons_self out hOut
    cases hFirst : f x out with
    | running => simp [WorklistResult.bind]
    | aborted => exact absurd hFirst hNot
    | done mid => exact ih (fun y hy => hStep y (mem_cons_of_mem _ hy)) (hKeep mid hFirst)

end Thread

/-! ## Runs with enough fuel -/

/-- With enough fuel the result is `r`, and the fuel does not run out. -/
def Settles {σ : Type} (f : Nat → WorklistResult σ) (r : WorklistResult σ) : Prop :=
  r ≠ .running ∧ ∃ n, ∀ fuel, n ≤ fuel → f fuel = r

namespace Settles

variable {σ τ : Type}

variable {r : WorklistResult σ}

theorem const (h : r ≠ .running) : Settles (fun _ => r) r :=
  ⟨h, 0, fun _ _ => rfl⟩

variable {f : Nat → WorklistResult σ} {g : List σ → Nat → WorklistResult τ}

theorem bind (hf : Settles f r) (hg : ∀ out, r = .done out → ∃ r', Settles (g out) r') :
    ∃ r', Settles (fun fuel => (f fuel).bind fun out => g out fuel) r' ∧
      ∀ out', r' = .done out' → ∃ out, r = .done out ∧ Settles (g out) (.done out') := by
  obtain ⟨hRunning, n, hn⟩ := hf
  cases r with
  | running => exact absurd rfl hRunning
  | aborted =>
    refine ⟨.aborted, ⟨by simp, n, ?_⟩, by simp⟩
    intro fuel hFuel
    show (f fuel).bind _ = .aborted
    rw [hn fuel hFuel]
    rfl
  | done out =>
    obtain ⟨r', hr', m, hm⟩ := hg out rfl
    refine ⟨r', ⟨hr', n + m, ?_⟩, ?_⟩
    · intro fuel hFuel
      show (f fuel).bind _ = r'
      rw [hn fuel (by omega)]
      exact hm fuel (by omega)
    · intro out' hOut
      exact ⟨out, rfl, hOut ▸ ⟨hr', m, hm⟩⟩

theorem bind_done {out : List σ} {r : WorklistResult τ} (hf : Settles f (.done out))
    (hg : Settles (g out) r) :
    Settles (fun fuel => (f fuel).bind fun out => g out fuel) r := by
  obtain ⟨-, n, hn⟩ := hf
  obtain ⟨hRunning, m, hm⟩ := hg
  refine ⟨hRunning, n + m, ?_⟩
  intro fuel hFuel
  show (f fuel).bind _ = r
  rw [hn fuel (by omega)]
  exact hm fuel (by omega)

/-- The loops are done together when each is, on every output before it. -/
theorem thread_done {α : Type} {I : List σ → Prop} {f : Nat → α → List σ → WorklistResult σ}
    {l : List α} (out : List σ)
    (hStep : ∀ x ∈ l, ∀ out, I out →
      ∃ out', Settles (fun fuel => f fuel x out) (.done out') ∧ I out')
    (hOut : I out) :
    ∃ out', Settles (fun fuel => Verified.thread (f fuel) l out) (.done out') ∧ I out' := by
  induction l generalizing out with
  | nil => exact ⟨out, const (by simp), hOut⟩
  | cons x l ih =>
    obtain ⟨mid, hFirst, hMid⟩ := hStep x mem_cons_self out hOut
    obtain ⟨out', hRest, hOut'⟩ := ih _ (fun y hy => hStep y (mem_cons_of_mem _ hy)) hMid
    refine ⟨out', ?_, hOut'⟩
    simp only [thread_cons]
    exact bind_done (g := fun mid fuel => Verified.thread (f fuel) l mid) hFirst hRest

/-- The loops settle together when each does, on every output before it. -/
theorem thread {α : Type} {I : List σ → Prop} {f : Nat → α → List σ → WorklistResult σ}
    {l : List α} {out : List σ}
    (hStep : ∀ x ∈ l, ∀ out, I out → (∃ r, Settles (fun fuel => f fuel x out) r) ∧
      ∀ fuel out', f fuel x out = .done out' → I out')
    (hOut : I out) : ∃ r, Settles (fun fuel => Verified.thread (f fuel) l out) r := by
  induction l generalizing out with
  | nil => exact ⟨.done out, const (by simp)⟩
  | cons x l ih =>
    obtain ⟨⟨r, hFirst⟩, hKeep⟩ := hStep x mem_cons_self out hOut
    have hBind : ∃ r', Settles (fun fuel => (f fuel x out).bind (Verified.thread (f fuel) l)) r' ∧
        ∀ out', r' = .done out' → ∃ mid, r = .done mid ∧
          Settles (fun fuel => Verified.thread (f fuel) l mid) (.done out') := by
      refine bind (g := fun mid fuel => Verified.thread (f fuel) l mid) hFirst ?_
      intro mid hMid
      obtain ⟨-, n, hn⟩ := hFirst
      have hMid' : I mid := hKeep n mid ((hn n (Nat.le_refl n)).trans hMid)
      exact ih (fun y hy => hStep y (mem_cons_of_mem _ hy)) hMid'
    obtain ⟨r', hSettles, -⟩ := hBind
    refine ⟨r', ?_⟩
    simp only [thread_cons]
    exact hSettles

/-- A property of all runs that are done holds of the result. -/
theorem of_done {out : List σ} (h : Settles f (.done out)) : ∃ fuel, f fuel = .done out := by
  obtain ⟨-, n, hn⟩ := h
  exact ⟨n, hn n (Nat.le_refl n)⟩

theorem of_aborted (h : Settles f .aborted) : ∃ fuel, f fuel = .aborted := by
  obtain ⟨-, n, hn⟩ := h
  exact ⟨n, hn n (Nat.le_refl n)⟩

end Settles

end Beellama.Verified
