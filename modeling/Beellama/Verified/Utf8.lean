import Mathlib.Data.List.Basic
import Mathlib.Algebra.Order.Ring.Int

/-!
# UTF-8

The encoding of a code point is a lead byte, which tells how many bytes follow, and the rest of its digits
to the base 64.  Read up to a byte of it, a code point is `c / 64 ^ n` where `n` bytes are missing.
-/

namespace Beellama.Verified

open List Option

/-- The code points of Unicode that are encoded: no surrogates. -/
def IsScalar (c : Nat) : Prop := c < 0xD800 ∨ (0xE000 ≤ c ∧ c < 0x110000)

instance (c : Nat) : Decidable (IsScalar c) := inferInstanceAs (Decidable (_ ∨ _))

namespace Utf8

/-- The number of bytes that follow the lead byte of a code point. -/
def following (c : Nat) : Nat :=
  if c < 0x80 then 0 else if c < 0x800 then 1 else if c < 0x10000 then 2 else 3

/-- The high bits of a lead byte that `n` bytes follow. -/
def leadMark : Nat → Nat
  | 0 => 0
  | 1 => 0xC0
  | 2 => 0xE0
  | _ => 0xF0

/-- The last `n` digits of a code point, the first ones first. -/
def continuations : Nat → Nat → List UInt8
  | 0, _ => []
  | n + 1, c => (0x80 + c / 64 ^ n % 64).toUInt8 :: continuations n c

def encode (c : Nat) : List UInt8 :=
  (leadMark (following c) + c / 64 ^ following c).toUInt8 :: continuations (following c) c

theorem continuations_length (n c : Nat) : (continuations n c).length = n := by
  induction n with
  | zero => rfl
  | succ n ih => exact congrArg Nat.succ ih

theorem encode_length (c : Nat) : (encode c).length = following c + 1 :=
  congrArg Nat.succ (continuations_length _ _)

theorem following_le (c : Nat) : following c ≤ 3 := by
  unfold following
  split
  · omega
  split
  · omega
  split
  · omega
  · omega

theorem div_step (c n : Nat) : c / 64 ^ (n + 1) * 64 + c / 64 ^ n % 64 = c / 64 ^ n := by
  rw [Nat.pow_succ, ← Nat.div_div_eq_div_mul]
  omega

theorem continuation_toNat (c n : Nat) :
    (0x80 + c / 64 ^ n % 64).toUInt8.toNat = 0x80 + c / 64 ^ n % 64 := by
  show (0x80 + c / 64 ^ n % 64) % 2 ^ 8 = _
  omega

variable {c : Nat}

theorem lead_lt (h : c < 0x110000) :
    c / 64 ^ following c < if following c = 0 then 0x80 else if following c = 1 then 0x20
      else if following c = 2 then 0x10 else 5 := by
  unfold following
  repeat' split
  all_goals omega

theorem lead_toNat (h : c < 0x110000) :
    (leadMark (following c) + c / 64 ^ following c).toUInt8.toNat =
      leadMark (following c) + c / 64 ^ following c := by
  have hLead := lead_lt h
  have hLe := following_le c
  generalize following c = k at hLead hLe ⊢
  match k, hLe with
  | 0, _ | 1, _ | 2, _ | 3, _ => simp [leadMark] at hLead ⊢; omega

variable {n : Nat} {b : UInt8}

theorem le_of_mem_continuations (h : b ∈ continuations n c) : 0x80 ≤ b.toNat := by
  induction n with
  | zero => exact (not_mem_nil h).elim
  | succ n ih =>
    cases mem_cons.mp h with
    | inl hHead =>
      rw [hHead, continuation_toNat]
      omega
    | inr hTail => exact ih hTail

theorem ne_zero_of_mem_encode (h : c < 0x110000) (hPos : c ≠ 0)
    (hb : b ∈ encode c) : b ≠ 0 := by
  rintro rfl
  cases mem_cons.mp hb with
  | inl hLead =>
    have hZero : 0 = leadMark (following c) + c / 64 ^ following c := by
      rw [← lead_toNat h, ← hLead]
      rfl
    have hLe := following_le c
    generalize hk : following c = k at hZero hLe
    match k, hLe with
    | 0, _ =>
      omega
    | 1, _ | 2, _ | 3, _ =>
      simp only [leadMark] at hZero
      omega
  | inr hTail => exact absurd (le_of_mem_continuations hTail) (by decide)

/-! ## Decoding byte by byte -/

/-- What has been read of a code point: its leading digits, and the bytes that are missing. -/
structure Progress where
  value : Nat
  missing : Nat
  deriving DecidableEq, Repr

/-- The bytes that follow a lead byte, and its digit. -/
def leadOf (b : UInt8) : Option (Nat × Nat) :=
  if b.toNat < 0x80 then some (0, b.toNat)
  else if b.toNat < 0xC0 then none
  else if b.toNat < 0xE0 then some (1, b.toNat - 0xC0)
  else if b.toNat < 0xF0 then some (2, b.toNat - 0xE0)
  else if b.toNat < 0xF8 then some (3, b.toNat - 0xF0)
  else none

/-- The code point that a state completes. -/
def Progress.completed (s : Progress) : List Nat := if s.missing = 0 then [s.value] else []

/-- One more byte, `none` where it does not fit. -/
def step (s : Progress) (b : UInt8) : Option Progress :=
  match s.missing with
  | 0 => (leadOf b).map fun r => ⟨r.2, r.1⟩
  | n + 1 =>
    if 0x80 ≤ b.toNat ∧ b.toNat < 0xC0 then some ⟨s.value * 64 + b.toNat % 64, n⟩ else none

/-- The code points that the bytes complete, and the state behind them. -/
def run : Progress → List UInt8 → Option (List Nat × Progress)
  | s, [] => some ([], s)
  | s, b :: bytes =>
    (step s b).bind fun s' =>
      (run s' bytes).map fun r => (s'.completed ++ r.1, r.2)

theorem run_cons (s : Progress) (b : UInt8) (bytes : List UInt8) :
    run s (b :: bytes) =
      (step s b).bind fun s' => (run s' bytes).map fun r => (s'.completed ++ r.1, r.2) := rfl

theorem run_append (s : Progress) (x y : List UInt8) :
    run s (x ++ y) = (run s x).bind fun r => (run r.2 y).map fun q => (r.1 ++ q.1, q.2) := by
  induction x generalizing s with
  | nil =>
    show run s y = (run s y).map fun q => ([] ++ q.1, q.2)
    cases run s y <;> rfl
  | cons b x ih =>
    rw [cons_append, run_cons, run_cons]
    cases step s b with
    | none => rfl
    | some s' =>
      simp only [bind_some, ih]
      cases run s' x with
      | none => rfl
      | some r =>
        simp only [bind_some, map_some]
        cases run r.2 y with
        | none => rfl
        | some q => simp only [map_some, append_assoc]

theorem step_continuation (c n : Nat) :
    step ⟨c / 64 ^ (n + 1), n + 1⟩ (0x80 + c / 64 ^ n % 64).toUInt8 = some ⟨c / 64 ^ n, n⟩ := by
  show (if _ then some _ else none) = _
  have hDigit : c / 64 ^ (n + 1) * 64 + (0x80 + c / 64 ^ n % 64) % 64 = c / 64 ^ n := by
    have hStep := div_step c n
    omega
  rw [continuation_toNat, if_pos (by omega), hDigit]

theorem step_lead (h : c < 0x110000) (v : Nat) :
    step ⟨v, 0⟩ (leadMark (following c) + c / 64 ^ following c).toUInt8 =
      some ⟨c / 64 ^ following c, following c⟩ := by
  show (leadOf _).map _ = _
  unfold leadOf
  rw [lead_toNat h]
  have hLead := lead_lt h
  have hLe := following_le c
  generalize c / 64 ^ following c = d at hLead ⊢
  generalize following c = k at hLead hLe ⊢
  match k, hLe with
  | 0, _ =>
    have hDigit : d < 0x80 := hLead
    rw [if_pos (by simp only [leadMark]; omega)]
    simp [leadMark]
  | 1, _ =>
    have hDigit : d < 0x20 := hLead
    simp only [leadMark]
    rw [if_neg (by omega), if_neg (by omega), if_pos (by omega), Nat.add_sub_cancel_left]
    rfl
  | 2, _ =>
    have hDigit : d < 0x10 := hLead
    simp only [leadMark]
    rw [if_neg (by omega), if_neg (by omega), if_neg (by omega), if_pos (by omega),
      Nat.add_sub_cancel_left]
    rfl
  | 3, _ =>
    have hDigit : d < 5 := hLead
    simp only [leadMark]
    rw [if_neg (by omega), if_neg (by omega), if_neg (by omega), if_neg (by omega),
      if_pos (by omega), Nat.add_sub_cancel_left]
    rfl

variable {k : Nat}

theorem run_continuations_take (c : Nat) (h : k < n) :
    run ⟨c / 64 ^ n, n⟩ ((continuations n c).take k) = some ([], ⟨c / 64 ^ (n - k), n - k⟩) := by
  induction n generalizing k with
  | zero => omega
  | succ n ih =>
    cases k with
    | zero => rfl
    | succ k =>
      have hStep := step_continuation c n
      have hRest := ih (Nat.lt_of_succ_lt_succ h)
      show (step _ _).bind _ = _
      rw [hStep, bind_some, hRest]
      have hMissing : n ≠ 0 := by omega
      simp [Progress.completed, hMissing]

theorem run_continuations (c : Nat) (h : 0 < n) :
    run ⟨c / 64 ^ n, n⟩ (continuations n c) = some ([c], ⟨c, 0⟩) := by
  induction n with
  | zero => omega
  | succ n ih =>
    have hStep := step_continuation c n
    show (step _ _).bind _ = _
    rw [hStep, bind_some]
    cases n with
    | zero => simp [run, continuations, Progress.completed]
    | succ n =>
      rw [ih (Nat.succ_pos n)]
      rfl

theorem run_encode (h : c < 0x110000) (v : Nat) : run ⟨v, 0⟩ (encode c) = some ([c], ⟨c, 0⟩) := by
  show (step _ _).bind _ = _
  rw [step_lead h v, bind_some]
  by_cases hOne : following c = 0
  · rw [hOne]
    simp [run, continuations, Progress.completed]
  · rw [run_continuations c (Nat.pos_of_ne_zero hOne)]
    simp [Progress.completed, hOne]

theorem run_encode_take (h : c < 0x110000) (hk : k < following c) (v : Nat) :
    run ⟨v, 0⟩ ((encode c).take (k + 1)) =
      some ([], ⟨c / 64 ^ (following c - k), following c - k⟩) := by
  show (step _ _).bind _ = _
  rw [step_lead h v, bind_some, run_continuations_take c hk]
  have hMissing : following c ≠ 0 := by omega
  simp [Progress.completed, hMissing]

theorem run_text {cps : List Nat} (h : ∀ c ∈ cps, c < 0x110000) (v : Nat) :
    ∃ v', run ⟨v, 0⟩ (cps.flatMap encode) = some (cps, ⟨v', 0⟩) := by
  induction cps generalizing v with
  | nil => exact ⟨v, rfl⟩
  | cons c cps ih =>
    obtain ⟨v', hRest⟩ := ih (fun d hd => h d (mem_cons_of_mem _ hd)) c
    refine ⟨v', ?_⟩
    rw [flatMap_cons, run_append, run_encode (h c mem_cons_self), bind_some,
      hRest]
    rfl

/-! ## Completions -/

variable {c' : Nat}

/-- The first digits of two code points with the same leading digits are the same. -/
theorem continuations_take_eq (hk : k ≤ n)
    (h : c / 64 ^ (n - k) = c' / 64 ^ (n - k)) :
    (continuations n c).take k = (continuations n c').take k := by
  induction k generalizing n with
  | zero => rfl
  | succ k ih =>
    cases n with
    | zero => omega
    | succ n =>
      rw [Nat.succ_sub_succ] at h
      have hRest := ih (Nat.le_of_succ_le_succ hk) h
      have hDigit : c / 64 ^ n = c' / 64 ^ n := by
        rw [← Nat.sub_add_cancel (Nat.le_of_succ_le_succ hk), Nat.pow_add,
          ← Nat.div_div_eq_div_mul, ← Nat.div_div_eq_div_mul, h]
      show _ :: (continuations n c).take k = _ :: (continuations n c').take k
      rw [hDigit, hRest]

/-- The code points that complete a prefix of an encoding. -/
theorem prefix_encode_iff (h : c < 0x110000) (h' : c' < 0x110000)
    (hk : k < following c) :
    (encode c).take (k + 1) <+: encode c' ↔
      following c' = following c ∧
        c' / 64 ^ (following c - k) = c / 64 ^ (following c - k) := by
  have hRun := run_encode_take h hk 0
  constructor
  · intro hPrefix
    have hLength : ((encode c).take (k + 1)).length = k + 1 := by
      rw [length_take, encode_length]
      omega
    have hTake := prefix_iff_eq_take.mp hPrefix
    rw [hLength] at hTake
    have hLe := hPrefix.length_le
    rw [encode_length] at hLe
    rw [hTake] at hRun
    by_cases hWhole : k = following c'
    · rw [take_of_length_le (by rw [encode_length]; omega), run_encode h'] at hRun
      exact absurd (congrArg Prod.fst (some.inj hRun)) (cons_ne_nil _ _)
    rw [run_encode_take h' (by omega)] at hRun
    have hState := congrArg Prod.snd (some.inj hRun)
    rw [Progress.mk.injEq] at hState
    have hFollowing : following c' = following c := by omega
    rw [hFollowing] at hState
    exact ⟨hFollowing, hState.1⟩
  rintro ⟨hFollowing, hDigits⟩
  have hTake : (encode c).take (k + 1) = (encode c').take (k + 1) := by
    show _ :: (continuations _ c).take k = _ :: (continuations _ c').take k
    have hLead : c / 64 ^ following c = c' / 64 ^ following c := by
      have hSplit : following c = following c - k + k := by omega
      rw [hSplit, Nat.pow_add, ← Nat.div_div_eq_div_mul, ← Nat.div_div_eq_div_mul, hDigits]
    rw [hFollowing, hLead, continuations_take_eq (Nat.le_of_lt hk) hDigits.symm]
  rw [hTake]
  exact take_prefix _ _

end Utf8

end Beellama.Verified
