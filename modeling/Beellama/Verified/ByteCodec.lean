import Beellama.Verified.StagedReader
import Mathlib.Algebra.Order.Ring.Int

/-!
# Byte codecs

`leBytes` writes a number in little-endian order.  A reader `Consumes` bytes when
it takes exactly these off any stream and returns a value; there is a rule for
every way of composing readers, so that a reader is shown to be the inverse of a
writer part by part.
-/

namespace Beellama.Verified

open List StagedReader

/-- The low `k` bytes of a number. -/
def leBytes : Nat → Nat → List UInt8
  | 0, _ => []
  | k + 1, n => UInt8.ofNat n :: leBytes k (n / 256)

@[simp] theorem leBytes_length (k n : Nat) : (leBytes k n).length = k := by
  induction k generalizing n with
  | zero => rfl
  | succ k ih => rw [leBytes, length_cons, ih]

variable {k n : Nat}

theorem leNat_leBytes (h : n < 256 ^ k) : StagedReader.leNat (leBytes k n) = n := by
  induction k generalizing n with
  | zero =>
    have hZero : n = 0 := by simpa using h
    rw [hZero]
    rfl
  | succ k ih =>
    have hRest : n / 256 < 256 ^ k := Nat.div_lt_of_lt_mul (by rwa [Nat.pow_succ'] at h)
    change (UInt8.ofNat n).toNat + 256 * leNat (leBytes k (n / 256)) = n
    rw [ih hRest, UInt8.toNat_ofNat']
    omega

theorem leBytes_leNat (bytes : List UInt8) :
    leBytes bytes.length (StagedReader.leNat bytes) = bytes := by
  induction bytes with
  | nil => rfl
  | cons b bytes ih =>
    have hByte := b.toNat_lt
    change UInt8.ofNat (b.toNat + 256 * leNat bytes) ::
      leBytes bytes.length ((b.toNat + 256 * leNat bytes) / 256) = _
    have hDiv : (b.toNat + 256 * leNat bytes) / 256 = leNat bytes := by
      omega
    have hHead : UInt8.ofNat (b.toNat + 256 * leNat bytes) = b := by
      refine UInt8.toNat_inj.mp ?_
      rw [UInt8.toNat_ofNat']
      omega
    rw [hDiv, ih, hHead]

theorem leNat_lt (bytes : List UInt8) : StagedReader.leNat bytes < 256 ^ bytes.length := by
  induction bytes with
  | nil => exact Nat.one_pos
  | cons b bytes ih =>
    have hByte := b.toNat_lt
    change b.toNat + 256 * leNat bytes < 256 ^ (bytes.length + 1)
    omega

/-- Numbers of `k` bytes each. -/
def leWords (k : Nat) (values : List Nat) : List UInt8 := values.flatMap (leBytes k)

@[simp] theorem leWords_length (k : Nat) (values : List Nat) :
    (leWords k values).length = values.length * k := by
  induction values with
  | nil => rw [length_nil, Nat.zero_mul]; rfl
  | cons n values ih =>
    unfold leWords at ih ⊢
    rw [flatMap_cons, length_append, ih, leBytes_length, length_cons, Nat.succ_mul,
      Nat.add_comm]

/-- The `n` numbers of `k` bytes at the start of a list of bytes. -/
def readWords (k : Nat) : Nat → List UInt8 → List Nat
  | 0, _ => []
  | n + 1, bytes => StagedReader.leNat (bytes.take k) :: readWords k n (bytes.drop k)

theorem readWords_leWords {values : List Nat} (h : ∀ n ∈ values, n < 256 ^ k) :
    readWords k values.length (leWords k values) = values := by
  induction values with
  | nil => rfl
  | cons n values ih =>
    have hFirst : (leBytes k n).length = k := leBytes_length k n
    change leNat ((leBytes k n ++ leWords k values).take k) ::
      readWords k values.length ((leBytes k n ++ leWords k values).drop k) = _
    rw [take_left' hFirst, drop_left' hFirst, leNat_leBytes (h n (by simp)),
      ih fun m hm => h m (mem_cons_of_mem _ hm)]

theorem leWords_readWords {bytes : List UInt8} (h : bytes.length = n * k) :
    leWords k (readWords k n bytes) = bytes := by
  induction n generalizing bytes with
  | zero =>
    rw [Nat.zero_mul] at h
    rw [length_eq_zero_iff.mp h]
    rfl
  | succ n ih =>
    rw [Nat.succ_mul] at h
    have hFirst : (bytes.take k).length = k := by
      rw [length_take]
      omega
    have hHead := leBytes_leNat (bytes.take k)
    rw [hFirst] at hHead
    change leBytes k (leNat (bytes.take k)) ++ leWords k (readWords k n (bytes.drop k)) = _
    rw [hHead, ih (by rw [length_drop]; omega), take_append_drop]

theorem readWords_lt {m : Nat} {bytes : List UInt8} (h : m ∈ readWords k n bytes) :
    m < 256 ^ k := by
  induction n generalizing bytes with
  | zero => cases h
  | succ n ih =>
    rcases mem_cons.mp h with rfl | hRest
    · refine Nat.lt_of_lt_of_le (leNat_lt _) (Nat.pow_le_pow_right (by decide) ?_)
      rw [length_take]
      exact Nat.min_le_left _ _
    · exact ih hRest

namespace StagedReader

variable {ω ε α β : Type} {x : StagedReader ω ε α} {bytes more : List UInt8} {a : α} {b : β}

/-- The number of bytes that are left. -/
def remaining : StagedReader ω ε Nat := fun bytes => .ok (bytes.length, [], bytes)

/-- The reader takes exactly these bytes off the stream. -/
def Consumes (x : StagedReader ω ε α) (bytes : List UInt8) (a : α) : Prop :=
  ∀ rest, x (bytes ++ rest) = .ok (a, [], rest)

variable {f : α → StagedReader ω ε β}

theorem run_bind {rest : List UInt8} (h : x bytes = .ok (a, [], rest)) : (x >>= f) bytes = f a rest := by
  change StagedReader.bind x f bytes = _
  unfold StagedReader.bind
  rw [h]
  dsimp only
  cases f a rest with
  | error e => rfl
  | ok r => rfl

theorem run_check {p : Prop} [Decidable p] {f : Unit → StagedReader ω ε β} (h : p) (e : ε) :
    (check p e >>= f) bytes = f () bytes := by
  unfold check
  rw [if_pos h]
  exact run_bind rfl

theorem consumes_pure : Consumes (Pure.pure a : StagedReader ω ε α) [] a := fun _ => rfl

theorem Consumes.bind (hx : Consumes x bytes a)
    (hf : Consumes (f a) more b) : Consumes (x >>= f) (bytes ++ more) b := by
  intro rest
  rw [append_assoc, run_bind (hx _)]
  exact hf rest

theorem Consumes.map {f : α → β} (hx : Consumes x bytes a) : Consumes (f <$> x) bytes (f a) := by
  have hBind := hx.bind (f := fun v => (Pure.pure (f v) : StagedReader ω ε β)) consumes_pure
  rw [append_nil] at hBind
  exact hBind

theorem consumes_take (eof : ε) (h : bytes.length = n) :
    Consumes (take eof n : StagedReader ω ε _) bytes bytes := by
  intro rest
  unfold take
  rw [if_neg (by rw [length_append]; omega), take_left' h, drop_left' h]

end StagedReader

end Beellama.Verified
