import Mathlib.Data.List.Basic

/-!
# Readers that stage their writes

A reader of a stream of bytes throws, or returns a value, the writes that it has staged, and the rest.
`Stages P x` says that `x` stages only writes with the property `P`, with a rule for every way of
composing readers; `Returns Q x` is the same for the value.
-/

namespace Beellama.Verified

open List

/-- A reader that throws `ε` and stages writes of the type `ω`. -/
def StagedReader (ω ε α : Type) : Type := List UInt8 → Except ε (α × List ω × List UInt8)

namespace StagedReader

variable {ω ε α β : Type}

protected def pure (a : α) : StagedReader ω ε α := fun bytes => .ok (a, [], bytes)

protected def bind (x : StagedReader ω ε α) (f : α → StagedReader ω ε β) : StagedReader ω ε β :=
  fun bytes =>
    match x bytes with
    | .error e => .error e
    | .ok (a, ws, rest) =>
      match f a rest with
      | .error e => .error e
      | .ok (b, ws', rest') => .ok (b, ws ++ ws', rest')

instance : Monad (StagedReader ω ε) where
  pure := StagedReader.pure
  bind := StagedReader.bind

def fail (e : ε) : StagedReader ω ε α := fun _ => .error e

/-- Stage one write. -/
def stage (w : ω) : StagedReader ω ε Unit := fun bytes => .ok ((), [w], bytes)

/-- The next `n` bytes. -/
def take (eof : ε) (n : Nat) : StagedReader ω ε (List UInt8) := fun bytes =>
  if bytes.length < n then .error eof else .ok (bytes.take n, [], bytes.drop n)

/-- A little-endian number. -/
def leNat (bytes : List UInt8) : Nat := bytes.foldr (fun b n => b.toNat + 256 * n) 0

/-- Throw unless a condition holds. -/
def check (p : Prop) [Decidable p] (e : ε) : StagedReader ω ε Unit :=
  if p then Pure.pure () else fail e

/-- The reader accepts the stream. -/
def Accepts (x : StagedReader ω ε α) (bytes : List UInt8) : Prop := ∃ r, x bytes = .ok r

/-- All writes that the reader stages have the property. -/
def Stages (P : ω → Prop) (x : StagedReader ω ε α) : Prop :=
  ∀ ⦃bytes a ws rest⦄, x bytes = .ok (a, ws, rest) → ∀ w ∈ ws, P w

/-- The value that the reader returns has the property. -/
def Returns (Q : α → Prop) (x : StagedReader ω ε α) : Prop :=
  ∀ ⦃bytes a ws rest⦄, x bytes = .ok (a, ws, rest) → Q a

variable {P : ω → Prop} {Q : α → Prop} {x : StagedReader ω ε α}

theorem returns_pure {a : α} (h : Q a) : Returns Q (Pure.pure a : StagedReader ω ε α) := by
  intro bytes b ws rest hRun
  cases hRun
  exact h

theorem returns_check (p : Prop) [Decidable p] (e : ε) :
    Returns (fun _ => p) (check p e : StagedReader ω ε _) := by
  unfold check
  split
  · exact returns_pure ‹_›
  · intro bytes b ws rest h
    cases h

variable {f : α → StagedReader ω ε β}

theorem Returns.bind {R : β → Prop} (hx : Returns Q x)
    (hf : ∀ a, Q a → Returns R (f a)) : Returns R (x >>= f) := by
  intro bytes b ws rest h
  change StagedReader.bind x f bytes = _ at h
  unfold StagedReader.bind at h
  split at h
  · cases h
  rename_i a ws₁ rest₁ hFirst
  split at h
  · cases h
  rename_i b' ws₂ rest₂ hSecond
  cases h
  exact hf a (hx hFirst) hSecond

theorem stages_pure (a : α) : Stages P (Pure.pure a : StagedReader ω ε α) := by
  intro bytes b ws rest h w hw
  cases h
  exact absurd hw not_mem_nil

theorem stages_fail (e : ε) : Stages P (fail e : StagedReader ω ε α) := by
  intro bytes b ws rest h
  cases h

theorem stages_take (eof : ε) (n : Nat) : Stages P (take eof n : StagedReader ω ε _) := by
  intro bytes b ws rest h w hw
  unfold take at h
  split at h
  · cases h
  · cases h
    exact absurd hw not_mem_nil

theorem stages_stage {w : ω} (hw : P w) : Stages P (stage w : StagedReader ω ε _) := by
  intro bytes b ws rest h v hv
  cases h
  rw [mem_singleton.mp hv]
  exact hw

theorem stages_check (p : Prop) [Decidable p] (e : ε) :
    Stages P (check p e : StagedReader ω ε _) := by
  unfold check
  split
  · exact stages_pure ()
  · exact stages_fail e

theorem Stages.bind_returns (hx : Stages P x) (hQ : Returns Q x)
    (hf : ∀ a, Q a → Stages P (f a)) : Stages P (x >>= f) := by
  intro bytes b ws rest h w hw
  change StagedReader.bind x f bytes = _ at h
  unfold StagedReader.bind at h
  split at h
  · cases h
  rename_i a ws₁ rest₁ hFirst
  split at h
  · cases h
  rename_i b' ws₂ rest₂ hSecond
  cases h
  rcases mem_append.mp hw with hOld | hNew
  · exact hx hFirst w hOld
  · exact hf a (hQ hFirst) hSecond w hNew

theorem Stages.bind (hx : Stages P x) (hf : ∀ a, Stages P (f a)) : Stages P (x >>= f) :=
  hx.bind_returns (fun _ _ _ _ _ => trivial) fun a (_ : True) => hf a

variable {p : Prop}

theorem stages_check_bind [Decidable p] {e : ε} {f : Unit → StagedReader ω ε β}
    (hf : p → Stages P (f ())) : Stages P (check p e >>= f) :=
  (stages_check p e).bind_returns (returns_check p e) fun _ hp => hf hp

theorem Stages.map {f : α → β} (hx : Stages P x) : Stages P (f <$> x) :=
  hx.bind fun a => stages_pure (f a)

theorem stages_forM {γ : Type} {f : γ → StagedReader ω ε PUnit} {l : List γ}
    (hf : ∀ c ∈ l, Stages P (f c)) : Stages P (l.forM f) := by
  induction l with
  | nil => exact stages_pure PUnit.unit
  | cons c l ih =>
    exact Stages.bind (hf c (by simp)) fun _ => ih fun d hd => hf d (mem_cons_of_mem _ hd)

theorem stages_ite [Decidable p] {y z : StagedReader ω ε α} (hy : p → Stages P y)
    (hz : ¬p → Stages P z) : Stages P (if p then y else z) := by
  split
  · exact hy ‹_›
  · exact hz ‹_›

end StagedReader

end Beellama.Verified
