import Beellama.Ports.GrammarPiece

/-!
# A text is read in one way

Two expressions that a text spells have one language (`Spells.lang_unique`).  A text is taken apart
from the left, into items, sequences and alternatives; what may stand behind each of them is no
continuation of it, so the ends agree as well.
-/

namespace Beellama.Ports

open GrammarParser List Option

namespace GbnfExpr

/-! ## Texts that end where a kind of bytes ends -/

/-- No text of the kind starts here. -/
def Free (P : UInt8 → Prop) (u : List UInt8) : Prop := ∀ c, u.head? = some c → ¬ P c

variable {P : UInt8 → Prop} {c : UInt8} {u : List UInt8}

theorem free_cons : Free P (c :: u) ↔ ¬ P c := by
  constructor
  · exact fun h => h c rfl
  · intro h d hd
    exact some.inj hd ▸ h

variable {t : List UInt8}

theorem free_append (ht : Free P t) (hu : Free P u) : Free P (t ++ u) := by
  cases t with
  | nil => exact hu
  | cons c t => exact free_cons.mpr (free_cons.mp ht)

variable {a b v : List UInt8}

theorem append_unique (hEq : a ++ u = b ++ v)
    (ha : ∀ c ∈ a, P c) (hb : ∀ c ∈ b, P c) (hu : Free P u) (hv : Free P v) :
    a = b ∧ u = v := by
  induction a generalizing b with
  | nil =>
    cases b with
    | nil => exact ⟨rfl, hEq⟩
    | cons d b =>
      rw [nil_append] at hEq
      rw [hEq] at hu
      exact absurd (hb d mem_cons_self) (hu d rfl)
  | cons c a ih =>
    cases b with
    | nil =>
      rw [nil_append] at hEq
      rw [← hEq] at hv
      exact absurd (ha c mem_cons_self) (hv c rfl)
    | cons d b =>
      obtain ⟨hHead, hTail⟩ := cons.inj hEq
      obtain ⟨hRest, hBehind⟩ := ih hTail (fun x hx => ha x (mem_cons_of_mem c hx))
        fun x hx => hb x (mem_cons_of_mem d hx)
      exact ⟨by rw [hHead, hRest], hBehind⟩

variable {nested : Bool}

theorem blanks_unique (hEq : a ++ u = b ++ v)
    (ha : Blanks nested a) (hb : Blanks nested b) (hu : Free (Blank nested) u)
    (hv : Free (Blank nested) v) : a = b ∧ u = v := append_unique hEq ha hb hu hv

/-! ## Literals and classes -/

variable {w : List UInt8}

theorem SpellsChar.unique {c d : Nat} (h : SpellsChar c t)
    (h' : SpellsChar d u) (hEq : t ++ v = u ++ w) : c = d ∧ t = u ∧ v = w := by
  have hParse := h.2 v
  rw [hEq, h'.2 w, some.injEq, Prod.mk.injEq] at hParse
  obtain ⟨hChar, hBehind⟩ := hParse
  rw [hBehind] at hEq
  exact ⟨hChar.symm, append_cancel_right hEq, hBehind.symm⟩

theorem SpellsChars.unique {cs ds : List Nat} (h : SpellsChars cs t)
    (h' : SpellsChars ds u) (hEq : t ++ '"'.toUInt8 :: v = u ++ '"'.toUInt8 :: w) :
    cs = ds ∧ t = u ∧ v = w := by
  induction h generalizing ds u with
  | nil =>
    cases h' with
    | nil => exact ⟨rfl, rfl, (cons.inj hEq).2⟩
    | @cons d ds t u hChar hHead hRest =>
      obtain ⟨x, t, rfl⟩ := exists_cons_of_ne_nil hChar.1
      exact absurd (congrArg some (cons.inj hEq).1.symm) hHead
  | @cons c cs t t' hChar hHead hRest ih =>
    cases h' with
    | nil =>
      obtain ⟨x, t, rfl⟩ := exists_cons_of_ne_nil hChar.1
      exact absurd (congrArg some (cons.inj hEq).1) hHead
    | @cons d ds u u' hChar' hHead' hRest' =>
      rw [append_assoc, append_assoc] at hEq
      obtain ⟨rfl, rfl, hTail⟩ := hChar.unique hChar' hEq
      obtain ⟨rfl, rfl, hBehind⟩ := ih hRest' hTail
      exact ⟨rfl, rfl, hBehind⟩

/-- The member that a range is mistaken for ends its class. -/
theorem single_ne_range {t' u u' v w : List UInt8} {high : Nat}
    (hHyphen : u.head? = some '-'.toUInt8 → u = bytes "-") (hHigh : SpellsChar high t')
    (hHead' : t'.head? ≠ some ']'.toUInt8)
    (hEq : u ++ ']'.toUInt8 :: v = '-'.toUInt8 :: (t' ++ (u' ++ ']'.toUInt8 :: w))) : False := by
  cases u with
  | nil => exact absurd (cons.inj hEq).1 (by decide)
  | cons x u =>
    obtain ⟨hx, hTail⟩ := cons.inj hEq
    have hu : u = [] := (cons.inj (hHyphen (congrArg some hx))).2
    rw [hu] at hTail
    obtain ⟨y, t', rfl⟩ := exists_cons_of_ne_nil hHigh.1
    exact hHead' (congrArg some (cons.inj hTail).1.symm)

theorem SpellsItems.unique {is js : List ClassItem} {t u v w : List UInt8} (h : SpellsItems is t)
    (h' : SpellsItems js u) (hEq : t ++ ']'.toUInt8 :: v = u ++ ']'.toUInt8 :: w) :
    is = js ∧ t = u ∧ v = w := by
  induction h generalizing js u with
  | nil =>
    cases h' with
    | nil => exact ⟨rfl, rfl, (cons.inj hEq).2⟩
    | @single c items t u hChar hHead hHyphen hRest =>
      obtain ⟨x, t, rfl⟩ := exists_cons_of_ne_nil hChar.1
      exact absurd (congrArg some (cons.inj hEq).1.symm) hHead
    | @range low high items t t' u hLow hHead hHigh hHead' hRest =>
      obtain ⟨x, t, rfl⟩ := exists_cons_of_ne_nil hLow.1
      exact absurd (congrArg some (cons.inj hEq).1.symm) hHead
  | @single c items t t₁ hChar hHead hHyphen hRest ih =>
    cases h' with
    | nil =>
      obtain ⟨x, t, rfl⟩ := exists_cons_of_ne_nil hChar.1
      exact absurd (congrArg some (cons.inj hEq).1) hHead
    | @single d items' u u₁ hChar' hHead' hHyphen' hRest' =>
      rw [append_assoc, append_assoc] at hEq
      obtain ⟨rfl, rfl, hTail⟩ := hChar.unique hChar' hEq
      obtain ⟨rfl, rfl, hBehind⟩ := ih hRest' hTail
      exact ⟨rfl, rfl, hBehind⟩
    | @range low high items' u u' u₁ hLow hHead' hHigh hHead'' hRest' =>
      simp only [append_assoc] at hEq
      obtain ⟨-, -, hTail⟩ := hChar.unique hLow hEq
      exact (single_ne_range hHyphen hHigh hHead'' hTail).elim
  | @range low high items t t' t₁ hLow hHead hHigh hHead' hRest ih =>
    cases h' with
    | nil =>
      obtain ⟨x, t, rfl⟩ := exists_cons_of_ne_nil hLow.1
      exact absurd (congrArg some (cons.inj hEq).1) hHead
    | @single d items' u u₁ hChar' hHead'' hHyphen' hRest' =>
      simp only [append_assoc] at hEq
      obtain ⟨-, -, hTail⟩ := hLow.unique hChar' hEq
      exact (single_ne_range hHyphen' hHigh hHead' hTail.symm).elim
    | @range low' high' items' u u' u₁ hLow' hHead'' hHigh' hHead''' hRest' =>
      simp only [append_assoc] at hEq
      obtain ⟨rfl, rfl, hTail⟩ := hLow.unique hLow' hEq
      obtain ⟨rfl, rfl, hTail'⟩ := hHigh.unique hHigh' (append_cancel_left hTail)
      obtain ⟨rfl, rfl, hBehind⟩ := ih hRest' hTail'
      exact ⟨rfl, rfl, hBehind⟩

/-! ## Operators -/

theorem free_blank_of_solid (h : Solid c) (u : List UInt8) : Free (Blank nested) (c :: u) := by
  refine free_cons.mpr fun hBlank => ?_
  obtain ⟨hSpace, hTab, -, hCr, hNl⟩ := h
  rcases hBlank with hEq | hEq | ⟨-, hEq | hEq⟩
  · exact hSpace hEq
  · exact hTab hEq
  · exact hCr hEq
  · exact hNl hEq

variable {sp : List UInt8}

theorem free_digit_blanks (hSp : Blanks nested sp)
    (hu : Free (fun c => isDigitChar c = true) u) :
    Free (fun c => isDigitChar c = true) (sp ++ u) := by
  refine free_append (fun c hc => ?_) hu
  exact ne_true_of_eq_false (not_digit_of_blank (hSp c (mem_of_mem_head? hc)))

variable {ds : List UInt8}

theorem SpellsNat.free_blank {n : Nat} (h : SpellsNat n ds)
    (u : List UInt8) : Free (Blank nested) (ds ++ u) := by
  obtain ⟨d, ds, rfl⟩ := exists_cons_of_ne_nil h.1
  exact free_cons.mpr fun hBlank =>
    ne_true_of_eq_false (not_digit_of_blank hBlank) (h.2.1 d mem_cons_self)

variable {m : Nat}

theorem SpellsNat.unique {n : Nat} {sp' ds' : List UInt8}
    (h : SpellsNat m ds) (h' : SpellsNat n ds') (hSp : Blanks nested sp) (hSp' : Blanks nested sp')
    (hu : Free (fun c => isDigitChar c = true) u) (hv : Free (fun c => isDigitChar c = true) v)
    (hEq : sp ++ (ds ++ u) = sp' ++ (ds' ++ v)) : m = n ∧ sp = sp' ∧ ds = ds' ∧ u = v := by
  obtain ⟨rfl, hRest⟩ := blanks_unique hEq hSp hSp' (h.free_blank u) (h'.free_blank v)
  obtain ⟨rfl, rfl⟩ := append_unique hRest h.2.1 h'.2.1 hu hv
  have hValue := h.2.2.symm.trans h'.2.2
  exact ⟨some.inj hValue, rfl, rfl, rfl⟩

/-- What stands behind the first number in braces. -/
inductive BraceTail (nested : Bool) (m : Nat) : Option Nat → List UInt8 → Prop
  | exactly : BraceTail nested m (some m) (bytes "\x7d")
  | atLeast {sp : List UInt8} (hSp : Blanks nested sp) :
      BraceTail nested m none (bytes "," ++ (sp ++ bytes "\x7d"))
  | between {n : Nat} {sp ds sp' : List UInt8} (hSp : Blanks nested sp) (hNat : SpellsNat n ds)
      (hSp' : Blanks nested sp') :
      BraceTail nested m (some n) (bytes "," ++ (sp ++ (ds ++ (sp' ++ bytes "\x7d"))))

variable {n : Option Nat}

variable (h : BraceTail nested m n t)

include h

theorem BraceTail.free_digit (u : List UInt8) : Free (fun c => isDigitChar c = true) (t ++ u) := by
  cases h with
  | exactly | atLeast _ | between _ _ _ => exact free_cons.mpr (by decide)

theorem BraceTail.free_blank (u : List UInt8) : Free (Blank nested) (t ++ u) := by
  cases h with
  | exactly | atLeast _ | between _ _ _ => exact free_blank_of_solid (by decide) _

variable {n' : Option Nat} {t' : List UInt8}

theorem BraceTail.unique (h' : BraceTail nested m n' t') (hEq : t ++ u = t' ++ v) :
    n = n' ∧ t = t' ∧ u = v := by
  have hClose : ∀ w : List UInt8, Free (Blank nested) ('}'.toUInt8 :: w) :=
    fun w => free_blank_of_solid (by decide) w
  have hCloseDigit : ∀ w : List UInt8, Free (fun c => isDigitChar c = true) ('}'.toUInt8 :: w) :=
    fun w => free_cons.mpr (by decide)
  cases h with
  | exactly =>
    cases h' with
    | exactly => exact ⟨rfl, rfl, (cons.inj hEq).2⟩
    | atLeast _ | between _ _ _ => exact absurd (cons.inj hEq).1 (by decide)
  | atLeast hSp =>
    cases h' with
    | exactly => exact absurd (cons.inj hEq).1 (by decide)
    | atLeast hSp' =>
      simp only [bytes_comma, append_assoc, cons_append,
        nil_append, cons.injEq, true_and] at hEq
      obtain ⟨rfl, hTail⟩ := blanks_unique hEq hSp hSp' (hClose u) (hClose v)
      exact ⟨rfl, rfl, (cons.inj hTail).2⟩
    | between hSp' hNat hSp'' =>
      simp only [bytes_comma, bytes_braceClosing, append_assoc, cons_append,
        nil_append, cons.injEq, true_and] at hEq
      obtain ⟨-, hTail⟩ := blanks_unique hEq hSp hSp' (hClose u) (hNat.free_blank _)
      obtain ⟨d, ds, rfl⟩ := exists_cons_of_ne_nil hNat.1
      have hDigit := hNat.2.1 d mem_cons_self
      rw [← (cons.inj hTail).1] at hDigit
      exact absurd hDigit (by decide)
  | between hSp hNat hSp₂ =>
    cases h' with
    | exactly => exact absurd (cons.inj hEq).1 (by decide)
    | atLeast hSp' =>
      simp only [bytes_comma, bytes_braceClosing, append_assoc, cons_append,
        nil_append, cons.injEq, true_and] at hEq
      obtain ⟨-, hTail⟩ := blanks_unique hEq hSp hSp' (hNat.free_blank _) (hClose v)
      obtain ⟨d, ds, rfl⟩ := exists_cons_of_ne_nil hNat.1
      have hDigit := hNat.2.1 d mem_cons_self
      rw [(cons.inj hTail).1] at hDigit
      exact absurd hDigit (by decide)
    | between hSp' hNat' hSp₂' =>
      simp only [bytes_comma, bytes_braceClosing, append_assoc, cons_append,
        nil_append, cons.injEq, true_and] at hEq
      obtain ⟨rfl, rfl, rfl, hTail⟩ := hNat.unique hNat' hSp hSp'
        (free_digit_blanks hSp₂ (hCloseDigit u)) (free_digit_blanks hSp₂' (hCloseDigit v)) hEq
      obtain ⟨rfl, hLast⟩ := blanks_unique hTail hSp₂ hSp₂' (hClose u) (hClose v)
      exact ⟨rfl, rfl, (cons.inj hLast).2⟩

omit h

/-- An operator without the blanks behind it. -/
inductive Operator (nested : Bool) : Nat → Option Nat → List UInt8 → Prop
  | star : Operator nested 0 none (bytes "*")
  | plus : Operator nested 1 none (bytes "+")
  | optional : Operator nested 0 (some 1) (bytes "?")
  | brace {m : Nat} {n : Option Nat} {sp ds sp' t : List UInt8} (hSp : Blanks nested sp)
      (hNat : SpellsNat m ds) (hSp' : Blanks nested sp') (hTail : BraceTail nested m n t) :
      Operator nested m n (bytes "\x7b" ++ (sp ++ (ds ++ (sp' ++ t))))

theorem SpellsBounds.operator (h : SpellsBounds nested m n t) :
    ∃ o sp, Operator nested m n o ∧ Blanks nested sp ∧ t = o ++ sp := by
  cases h with
  | star hSp => exact ⟨_, _, .star, hSp, rfl⟩
  | plus hSp => exact ⟨_, _, .plus, hSp, rfl⟩
  | optional hSp => exact ⟨_, _, .optional, hSp, rfl⟩
  | exactly h₁ hNat h₂ h₃ =>
    exact ⟨_, _, .brace h₁ hNat h₂ .exactly, h₃, by simp only [append_assoc]⟩
  | atLeast h₁ hNat h₂ h₃ h₄ =>
    exact ⟨_, _, .brace h₁ hNat h₂ (.atLeast h₃), h₄, by simp only [append_assoc]⟩
  | between h₁ hMin h₂ h₃ hMax h₄ h₅ =>
    exact ⟨_, _, .brace h₁ hMin h₂ (.between h₃ hMax h₄), h₅, by simp only [append_assoc]⟩

/-- The first byte of an operator. -/
def IsOperator (c : UInt8) : Prop :=
  c = '*'.toUInt8 ∨ c = '+'.toUInt8 ∨ c = '?'.toUInt8 ∨ c = '{'.toUInt8

variable {o : List UInt8}

theorem Operator.head (h : Operator nested m n o) : ∃ c t, o = c :: t ∧ IsOperator c := by
  cases h with
  | star => exact ⟨_, _, rfl, Or.inl rfl⟩
  | plus => exact ⟨_, _, rfl, Or.inr (Or.inl rfl)⟩
  | optional => exact ⟨_, _, rfl, Or.inr (Or.inr (Or.inl rfl))⟩
  | brace _ _ _ _ => exact ⟨_, _, rfl, Or.inr (Or.inr (Or.inr rfl))⟩

theorem IsOperator.solid (h : IsOperator c) : Solid c ∧ isWordChar c = false := by
  rcases h with rfl | rfl | rfl | rfl <;> decide

theorem Operator.unique {m' : Nat} {o' : List UInt8}
    (h : Operator nested m n o) (h' : Operator nested m' n' o') (hEq : o ++ u = o' ++ v) :
    m = m' ∧ n = n' ∧ o = o' ∧ u = v := by
  cases h with
  | star =>
    cases h' with
    | star => exact ⟨rfl, rfl, rfl, (cons.inj hEq).2⟩
    | plus | optional | brace _ _ _ _ => exact absurd (cons.inj hEq).1 (by decide)
  | plus =>
    cases h' with
    | plus => exact ⟨rfl, rfl, rfl, (cons.inj hEq).2⟩
    | star | optional | brace _ _ _ _ => exact absurd (cons.inj hEq).1 (by decide)
  | optional =>
    cases h' with
    | optional => exact ⟨rfl, rfl, rfl, (cons.inj hEq).2⟩
    | star | plus | brace _ _ _ _ => exact absurd (cons.inj hEq).1 (by decide)
  | brace hSp hNat hSp₂ hTail =>
    cases h' with
    | star | plus | optional => exact absurd (cons.inj hEq).1 (by decide)
    | brace hSp' hNat' hSp₂' hTail' =>
      simp only [bytes_brace, append_assoc, cons_append,
        cons.injEq, true_and] at hEq
      obtain ⟨rfl, rfl, rfl, hRest⟩ := hNat.unique hNat' hSp hSp'
        (free_digit_blanks hSp₂ (hTail.free_digit u))
        (free_digit_blanks hSp₂' (hTail'.free_digit v)) hEq
      obtain ⟨rfl, hLast⟩ := blanks_unique hRest hSp₂ hSp₂' (hTail.free_blank u)
        (hTail'.free_blank v)
      obtain ⟨rfl, rfl, hBehind⟩ := hTail.unique hTail' hLast
      exact ⟨rfl, rfl, rfl, hBehind⟩

/-- The blanks and operators behind a token. -/
inductive Operators (nested : Bool) : List (Nat × Option Nat) → List UInt8 → Prop
  | nil {sp : List UInt8} (hSp : Blanks nested sp) : Operators nested [] sp
  | cons {m : Nat} {n : Option Nat} {ops : List (Nat × Option Nat)} {sp o t : List UInt8}
      (hSp : Blanks nested sp) (hOperator : Operator nested m n o) (hRest : Operators nested ops t) :
      Operators nested ((m, n) :: ops) (sp ++ (o ++ t))

variable {ops : List (Nat × Option Nat)}

theorem Operators.append (h : Operators nested ops t) (hBounds : SpellsBounds nested m n o) :
    Operators nested (ops ++ [(m, n)]) (t ++ o) := by
  induction h with
  | nil hSp =>
    obtain ⟨core, sp, hOperator, hBehind, rfl⟩ := hBounds.operator
    exact .cons hSp hOperator (.nil hBehind)
  | cons hSp hOperator hRest ih =>
    rw [append_assoc, append_assoc]
    exact .cons hSp hOperator ih

/-- Nothing that continues the operators. -/
def Stopped (nested : Bool) (u : List UInt8) : Prop := Free (Blank nested) u ∧ Free IsOperator u

theorem Operators.unique {ops' : List (Nat × Option Nat)}
    (h : Operators nested ops t) (h' : Operators nested ops' t') (hu : Stopped nested u)
    (hv : Stopped nested v) (hEq : t ++ u = t' ++ v) : ops = ops' ∧ t = t' ∧ u = v := by
  have hOperatorFree : ∀ {m n o} {w : List UInt8}, Operator nested m n o →
      Free (Blank nested) (o ++ w) := by
    intro m n o w hOperator
    obtain ⟨c, o, rfl, hHead⟩ := hOperator.head
    exact free_blank_of_solid hHead.solid.1 _
  induction h generalizing ops' t' with
  | nil hSp =>
    cases h' with
    | nil hSp' =>
      obtain ⟨rfl, rfl⟩ := blanks_unique hEq hSp hSp' hu.1 hv.1
      exact ⟨rfl, rfl, rfl⟩
    | @cons m n ops' sp' o t' hSp' hOperator hRest =>
      rw [append_assoc, append_assoc] at hEq
      obtain ⟨-, hTail⟩ := blanks_unique hEq hSp hSp' hu.1 (hOperatorFree hOperator)
      obtain ⟨c, o, rfl, hHead⟩ := hOperator.head
      exact absurd hHead (hu.2 c (by rw [hTail]; rfl))
  | @cons m n ops sp o t hSp hOperator hRest ih =>
    cases h' with
    | nil hSp' =>
      rw [append_assoc, append_assoc] at hEq
      obtain ⟨-, hTail⟩ := blanks_unique hEq hSp hSp' (hOperatorFree hOperator) hv.1
      obtain ⟨c, o, rfl, hHead⟩ := hOperator.head
      exact absurd hHead (hv.2 c (by rw [← hTail]; rfl))
    | @cons m' n' ops' sp' o' t' hSp' hOperator' hRest' =>
      simp only [append_assoc] at hEq
      obtain ⟨rfl, hTail⟩ := blanks_unique hEq hSp hSp' (hOperatorFree hOperator)
        (hOperatorFree hOperator')
      obtain ⟨rfl, rfl, rfl, hNext⟩ := hOperator.unique hOperator' hTail
      obtain ⟨rfl, rfl, hBehind⟩ := ih hRest' hNext
      exact ⟨rfl, rfl, hBehind⟩

/-! ## Tokens -/

/-- An item without the blanks and operators behind it. -/
inductive Token : GbnfExpr → List UInt8 → Prop
  | literal {chars : List Nat} {t : List UInt8} (hChars : SpellsChars chars t) :
      Token (.literal chars) (bytes "\"" ++ (t ++ bytes "\""))
  | charClass {items : List ClassItem} {t : List UInt8} (hItems : SpellsItems items t)
      (hHead : t.head? ≠ some '^'.toUInt8) :
      Token (.charClass false items) (bytes "[" ++ (t ++ bytes "]"))
  | negated {items : List ClassItem} {t : List UInt8} (hItems : SpellsItems items t) :
      Token (.charClass true items) (bytes "[^" ++ (t ++ bytes "]"))
  | any : Token .any (bytes ".")
  | ref {name : List UInt8} (hName : name ≠ []) (hWord : ∀ c ∈ name, isWordChar c = true) :
      Token (.ref name) name
  | group {e : GbnfExpr} {sp t : List UInt8} (hSp : Blanks true sp)
      (hBody : Spells true .alternates e t) :
      Token (.group e) (bytes "(" ++ (sp ++ (t ++ bytes ")")))

def repeated (e : GbnfExpr) (ops : List (Nat × Option Nat)) : GbnfExpr :=
  ops.foldl (fun e op => .repetition e op.1 op.2) e

variable {e e' : GbnfExpr}

theorem lang_repeated {defs : List UInt8 → Option GbnfExpr}
    (h : lang defs e = lang defs e') (ops : List (Nat × Option Nat)) :
    lang defs (repeated e ops) = lang defs (repeated e' ops) := by
  induction ops generalizing e e' with
  | nil => exact h
  | cons op ops ih =>
    apply ih
    ext w
    rw [mem_lang_repetition, mem_lang_repetition, h]

theorem Spells.token (h : Spells nested .item e t) :
    ∃ b t₀ ops t₁, Token b t₀ ∧ Operators nested ops t₁ ∧ t = t₀ ++ t₁ ∧ e = repeated b ops := by
  generalize hLevel : Level.item = level at h
  induction h with
  | literal hChars hSp =>
    exact ⟨_, _, _, _, .literal hChars, .nil hSp, by simp only [append_assoc], rfl⟩
  | charClass hItems hHead hSp =>
    exact ⟨_, _, _, _, .charClass hItems hHead, .nil hSp, by simp only [append_assoc], rfl⟩
  | negated hItems hSp =>
    exact ⟨_, _, _, _, .negated hItems, .nil hSp, by simp only [append_assoc], rfl⟩
  | any hSp => exact ⟨_, _, _, _, .any, .nil hSp, rfl, rfl⟩
  | ref hName hWord hSp => exact ⟨_, _, _, _, .ref hName hWord, .nil hSp, rfl, rfl⟩
  | group hSp hBody hSp' =>
    exact ⟨_, _, _, _, .group hSp hBody, .nil hSp', by simp only [append_assoc], rfl⟩
  | repetition hBody hBounds ih =>
    obtain ⟨b, t₀, ops, t₁, hToken, hOps, rfl, rfl⟩ := ih hLevel
    refine ⟨b, t₀, _, _, hToken, hOps.append hBounds, append_assoc _ _ _, ?_⟩
    rw [repeated, repeated, foldl_append]
    rfl
  | empty | single _ | seq _ _ _ | one _ | alt _ _ _ _ => cases hLevel

/-- The first byte of an item. -/
def IsHead (c : UInt8) : Prop :=
  c = '"'.toUInt8 ∨ c = '['.toUInt8 ∨ c = '.'.toUInt8 ∨ c = '('.toUInt8 ∨ isWordChar c = true

theorem Token.head (h : Token e t) : ∃ c u, t = c :: u ∧ IsHead c := by
  cases h with
  | literal _ => exact ⟨_, _, rfl, Or.inl rfl⟩
  | charClass _ _ | negated _ => exact ⟨_, _, rfl, Or.inr (Or.inl rfl)⟩
  | any => exact ⟨_, _, rfl, Or.inr (Or.inr (Or.inl rfl))⟩
  | group _ _ => exact ⟨_, _, rfl, Or.inr (Or.inr (Or.inr (Or.inl rfl)))⟩
  | ref hName hWord =>
    obtain ⟨c, name, rfl⟩ := exists_cons_of_ne_nil hName
    exact ⟨c, name, rfl, Or.inr (Or.inr (Or.inr (Or.inr (hWord c mem_cons_self))))⟩

/-- An item begins with no blank, no operator, no bar and no parenthesis. -/
theorem IsHead.spec (h : IsHead c) :
    Solid c ∧ ¬ IsOperator c ∧ c ≠ '|'.toUInt8 ∧ c ≠ ')'.toUInt8 := by
  rcases h with rfl | rfl | rfl | rfl | hWord
  · exact ⟨by decide, by rw [IsOperator]; decide, by decide, by decide⟩
  · exact ⟨by decide, by rw [IsOperator]; decide, by decide, by decide⟩
  · exact ⟨by decide, by rw [IsOperator]; decide, by decide, by decide⟩
  · exact ⟨by decide, by rw [IsOperator]; decide, by decide, by decide⟩
  refine ⟨solid_of_word hWord, fun hOperator => ?_, ?_, ?_⟩
  · rw [hOperator.solid.2] at hWord
    exact Bool.false_ne_true hWord
  · rintro rfl
    exact absurd hWord (by decide)
  · rintro rfl
    exact absurd hWord (by decide)

/-- Behind alternatives: the end, or a closing parenthesis. -/
def Closing (u : List UInt8) : Prop := ∀ c, u.head? = some c → c = ')'.toUInt8

/-- Behind a sequence: a bar as well. -/
def EndsSequence (u : List UInt8) : Prop :=
  ∀ c, u.head? = some c → c = '|'.toUInt8 ∨ c = ')'.toUInt8

theorem Closing.ends (h : Closing u) : EndsSequence u := fun c hc => Or.inr (h c hc)

theorem EndsSequence.solid (h : EndsSequence u)
    (hc : u.head? = some c) : Solid c ∧ ¬ IsOperator c ∧ isWordChar c = false := by
  rcases h c hc with rfl | rfl
  · exact ⟨by decide, by rw [IsOperator]; decide, by decide⟩
  · exact ⟨by decide, by rw [IsOperator]; decide, by decide⟩

theorem free_blank_of_head (h : ∀ c, u.head? = some c → Solid c) : Free (Blank nested) u := by
  cases u with
  | nil => exact fun c hc => absurd hc (some_ne_none c).symm
  | cons c u => exact free_blank_of_solid (h c rfl) u

theorem EndsSequence.stopped (h : EndsSequence u) : Stopped nested u :=
  ⟨free_blank_of_head fun _ hc => (h.solid hc).1, fun _ hc => (h.solid hc).2.1⟩

/-- Alternatives of less than so many bytes are read in one way. -/
def UniqueBelow (k : Nat) : Prop :=
  ∀ {nested : Bool} {e e' : GbnfExpr} {t t' u v : List UInt8}, t.length < k →
    Spells nested .alternates e t → Spells nested .alternates e' t' → Closing u → Closing v →
    t ++ u = t' ++ v → t = t' ∧ u = v ∧ ∀ defs, lang defs e = lang defs e'

variable {nested' : Bool}

theorem Spells.free_blank {level : Level}
    (h : Spells nested level e t) (hu : ∀ c, u.head? = some c → Solid c) :
    Free (Blank nested') (t ++ u) := by
  apply free_blank_of_head
  intro c hc
  cases t with
  | nil => exact hu c hc
  | cons d t =>
    have hd : d = c := some.inj hc
    rw [← hd]
    exact h.solid rfl

theorem not_word_head {name : List UInt8} (hName : name ≠ [])
    (hWord : ∀ c ∈ name, isWordChar c = true) (hc : isWordChar c = false)
    (hEq : c :: u = name ++ v) : False := by
  obtain ⟨d, name, rfl⟩ := exists_cons_of_ne_nil hName
  have hHead := hWord d mem_cons_self
  rw [← (cons.inj hEq).1, hc] at hHead
  exact Bool.false_ne_true hHead

variable {k : Nat}

theorem Token.unique (hBelow : UniqueBelow k) {b b' : GbnfExpr}
    (h : Token b t) (h' : Token b' t') (hLength : t.length ≤ k)
    (hu : ∀ name, b = .ref name → Free (fun c => isWordChar c = true) u)
    (hv : ∀ name, b' = .ref name → Free (fun c => isWordChar c = true) v)
    (hEq : t ++ u = t' ++ v) : t = t' ∧ u = v ∧ ∀ defs, lang defs b = lang defs b' := by
  cases h with
  | literal hChars =>
    cases h' with
    | literal hChars' =>
      simp only [bytes_quote, append_assoc, cons_append, nil_append,
        cons.injEq, true_and] at hEq
      obtain ⟨rfl, rfl, rfl⟩ := hChars.unique hChars' hEq
      exact ⟨rfl, rfl, fun _ => rfl⟩
    | charClass _ _ | negated _ | any | group _ _ => exact absurd (cons.inj hEq).1 (by decide)
    | ref hName hWord =>
      exact (not_word_head hName hWord (by decide) hEq).elim
  | charClass hItems hHead =>
    cases h' with
    | charClass hItems' hHead' =>
      simp only [bytes_bracket, append_assoc, cons_append, cons.injEq, true_and] at hEq
      obtain ⟨rfl, rfl, rfl⟩ := hItems.unique hItems' hEq
      exact ⟨rfl, rfl, fun _ => rfl⟩
    | @negated items t' hItems' =>
      rename_i t
      simp only [bytes_bracket, bytes_caret, bytes_closing,
        cons_append, cons.injEq, true_and] at hEq
      cases t with
      | nil => exact absurd (cons.inj hEq).1 (by decide)
      | cons c t => exact absurd (congrArg some (cons.inj hEq).1) hHead
    | literal _ | any | group _ _ => exact absurd (cons.inj hEq).1 (by decide)
    | ref hName hWord =>
      exact (not_word_head hName hWord (by decide) hEq).elim
  | negated hItems =>
    cases h' with
    | negated hItems' =>
      simp only [bytes_caret, bytes_closing, append_assoc, cons_append,
        nil_append, cons.injEq, true_and] at hEq
      obtain ⟨rfl, rfl, rfl⟩ := hItems.unique hItems' hEq
      exact ⟨rfl, rfl, fun _ => rfl⟩
    | @charClass items t' hItems' hHead' =>
      simp only [bytes_bracket, bytes_caret, bytes_closing, append_assoc,
        cons_append, nil_append, cons.injEq, true_and] at hEq
      cases t' with
      | nil => exact absurd (cons.inj hEq).1 (by decide)
      | cons c t' => exact absurd (congrArg some (cons.inj hEq).1.symm) hHead'
    | literal _ | any | group _ _ => exact absurd (cons.inj hEq).1 (by decide)
    | ref hName hWord =>
      exact (not_word_head hName hWord (by decide) hEq).elim
  | any =>
    cases h' with
    | any => exact ⟨rfl, (cons.inj hEq).2, fun _ => rfl⟩
    | literal _ | charClass _ _ | negated _ | group _ _ =>
      exact absurd (cons.inj hEq).1 (by decide)
    | ref hName hWord =>
      exact (not_word_head hName hWord (by decide) hEq).elim
  | ref hName hWord =>
    cases h' with
    | ref hName' hWord' =>
      obtain ⟨rfl, rfl⟩ := append_unique hEq hWord hWord' (hu _ rfl) (hv _ rfl)
      exact ⟨rfl, rfl, fun _ => rfl⟩
    | literal _ | charClass _ _ | negated _ | any | group _ _ =>
      exact (not_word_head hName hWord (by decide) hEq.symm).elim
  | @group e sp t hSp hBody =>
    cases h' with
    | @group e' sp' t' hSp' hBody' =>
      simp only [bytes_open, append_assoc, cons_append,
        nil_append, cons.injEq, true_and] at hEq
      have hSolid : ∀ w : List UInt8, ∀ c, (')'.toUInt8 :: w).head? = some c → Solid c := by
        intro w c hc
        rw [← some.inj hc]
        decide
      have hClosing : ∀ w : List UInt8, Closing (')'.toUInt8 :: w) :=
        fun w c hc => (some.inj hc).symm
      obtain ⟨rfl, hTail⟩ := blanks_unique hEq hSp hSp' (hBody.free_blank (hSolid u))
        (hBody'.free_blank (hSolid v))
      simp only [bytes_close, length_append, length_cons] at hLength
      obtain ⟨rfl, hBehind, hLang⟩ := hBelow (by omega) hBody hBody' (hClosing u) (hClosing v) hTail
      refine ⟨rfl, (cons.inj hBehind).2, fun defs => ?_⟩
      rw [lang_group, lang_group, hLang defs]
    | literal _ | charClass _ _ | negated _ | any => exact absurd (cons.inj hEq).1 (by decide)
    | ref hName hWord =>
      exact (not_word_head hName hWord (by decide) hEq).elim

/-! ## Items and sequences -/

theorem Operators.head (h : Operators nested ops t) (hc : t.head? = some c) :
    isWordChar c = false := by
  cases h with
  | nil hSp => exact not_word_of_blank (hSp c (mem_of_mem_head? hc))
  | @cons m n ops sp o t hSp hOperator hRest =>
    cases sp with
    | nil =>
      obtain ⟨d, o, rfl, hHead⟩ := hOperator.head
      have hd : d = c := some.inj hc
      exact hd ▸ hHead.solid.2
    | cons d sp =>
      have hd : d = c := some.inj hc
      exact hd ▸ not_word_of_blank (hSp d mem_cons_self)

theorem Spells.item_unique (hBelow : UniqueBelow k)
    (h : Spells nested .item e t) (h' : Spells nested .item e' t')
    (hLength : t.length ≤ k) (hu : Stopped nested u) (hv : Stopped nested v) (hApart : Apart t u)
    (hApart' : Apart t' v) (hEq : t ++ u = t' ++ v) :
    t = t' ∧ u = v ∧ ∀ defs, lang defs e = lang defs e' := by
  obtain ⟨b, t₀, ops, t₁, hToken, hOps, rfl, rfl⟩ := h.token
  obtain ⟨b', t₀', ops', t₁', hToken', hOps', rfl, rfl⟩ := h'.token
  have hFree : ∀ {b t₀ ops t₁ w}, Token b t₀ → Operators nested ops t₁ → Apart (t₀ ++ t₁) w →
      ∀ name, b = .ref name → Free (fun c => isWordChar c = true) (t₁ ++ w) := by
    intro b t₀ ops t₁ w hToken hOps hApart name hRef
    rw [hRef] at hToken
    cases hToken with
    | ref hName hWord =>
      intro c hc
      cases t₁ with
      | nil =>
        rw [append_nil] at hApart
        have hLast := getLast?_eq_some_getLast hName
        exact ne_true_of_eq_false
          (hApart _ c hLast hc (hWord _ (getLast_mem hName)))
      | cons d t₁ =>
        have hd : d = c := some.inj hc
        exact ne_true_of_eq_false (hd ▸ hOps.head rfl)
  rw [append_assoc, append_assoc] at hEq
  rw [length_append] at hLength
  obtain ⟨rfl, hTail, hLang⟩ := hToken.unique hBelow hToken' (by omega) (hFree hToken hOps hApart)
    (hFree hToken' hOps' hApart') hEq
  obtain ⟨rfl, rfl, hBehind⟩ := hOps.unique hOps' hu hv hTail
  exact ⟨rfl, hBehind, fun defs => lang_repeated (hLang defs) ops⟩

/-- A sequence as the list of its items. -/
inductive Items (nested : Bool) : List GbnfExpr → List UInt8 → Prop
  | nil : Items nested [] []
  | cons {e : GbnfExpr} {es : List GbnfExpr} {t u : List UInt8} (hItem : Spells nested .item e t)
      (hRest : Items nested es u) (hApart : Apart t u) : Items nested (e :: es) (t ++ u)

theorem apart_nil (t : List UInt8) : Apart t [] :=
  fun _ _ _ hHead => absurd hHead (some_ne_none _).symm

variable {es : List GbnfExpr}

theorem Items.append_one {f : GbnfExpr}
    (h : Items nested es t) (hItem : Spells nested .item f u) (hApart : Apart t u) :
    Items nested (es ++ [f]) (t ++ u) := by
  induction h with
  | nil =>
    have hOne := Items.cons hItem .nil (apart_nil u)
    rwa [append_nil] at hOne
  | @cons e es t₁ u₁ hFirst hRest hFirstApart ih =>
    rw [append_assoc]
    refine .cons hFirst (ih fun c d hc hd => ?_) fun c d hc hd => ?_
    · cases u₁ with
      | nil => exact absurd hc (some_ne_none c).symm
      | cons x u₁ =>
        apply hApart c d _ hd
        rw [getLast?_append_of_ne_nil _ (cons_ne_nil x u₁)]
        exact hc
    cases u₁ with
    | nil =>
      rw [append_nil] at hApart
      exact hApart c d hc hd
    | cons x u₁ => exact hFirstApart c d hc hd

theorem Spells.items (h : Spells nested .sequence e t) :
    ∃ es, Items nested es t ∧ ∀ defs, lang defs e = (es.map (lang defs)).prod := by
  generalize hLevel : Level.sequence = level at h
  induction h with
  | empty => exact ⟨[], .nil, fun defs => lang_empty⟩
  | @single nested e t hItem =>
    refine ⟨[e], ?_, fun defs => ?_⟩
    · have hOne := Items.cons hItem .nil (apart_nil t)
      rwa [append_nil] at hOne
    · rw [map_singleton, prod_singleton]
  | seq hFirst hNext hApart ih =>
    obtain ⟨es, hItems, hLang⟩ := ih hLevel
    refine ⟨_, hItems.append_one hNext hApart, fun defs => ?_⟩
    rw [lang_seq, hLang defs, map_append, prod_append, map_singleton,
      prod_singleton]
  | literal _ _ | charClass _ _ _ | negated _ _ | any _ | ref _ _ _ | group _ _ _ | repetition _ _
  | one _ | alt _ _ _ _ => cases hLevel

theorem Spells.item_head (h : Spells nested .item e t) : ∃ c u, t = c :: u ∧ IsHead c := by
  obtain ⟨b, t₀, ops, t₁, hToken, -, rfl, -⟩ := h.token
  obtain ⟨c, u, rfl, hHead⟩ := hToken.head
  exact ⟨c, u ++ t₁, rfl, hHead⟩

theorem Items.head (h : Items nested es t)
    (hc : t.head? = some c) : IsHead c := by
  cases h with
  | nil => exact absurd hc (some_ne_none c).symm
  | cons hItem _ _ =>
    obtain ⟨d, u, rfl, hHead⟩ := hItem.item_head
    have hd : d = c := some.inj hc
    exact hd ▸ hHead

theorem Items.behind {t₁ u₁ : List UInt8}
    (h : Items nested es u₁) (hApart : Apart t₁ u₁) (hu : EndsSequence u) :
    Stopped nested (u₁ ++ u) ∧ Apart t₁ (u₁ ++ u) := by
  cases u₁ with
  | nil => exact ⟨hu.stopped, fun c d _ hd _ => (hu.solid hd).2.2⟩
  | cons x u₁ =>
    have hSpec := (h.head rfl).spec
    exact ⟨⟨free_blank_of_solid hSpec.1 _, free_cons.mpr hSpec.2.1⟩,
      fun c d hc hd => hApart c d hc hd⟩

theorem Items.unique (hBelow : UniqueBelow k) {es' : List GbnfExpr}
    (h : Items nested es t) (h' : Items nested es' t')
    (hLength : t.length ≤ k) (hu : EndsSequence u) (hv : EndsSequence v) (hEq : t ++ u = t' ++ v) :
    t = t' ∧ u = v ∧ ∀ defs, (es.map (lang defs)).prod = (es'.map (lang defs)).prod := by
  have hNot : ∀ {c : UInt8}, IsHead c → ¬ (c = '|'.toUInt8 ∨ c = ')'.toUInt8) :=
    fun hHead => not_or_intro hHead.spec.2.2.1 hHead.spec.2.2.2
  induction h generalizing es' t' with
  | nil =>
    cases h' with
    | nil => exact ⟨rfl, hEq, fun _ => rfl⟩
    | cons hItem _ _ =>
      obtain ⟨c, w, rfl, hHead⟩ := hItem.item_head
      rw [nil_append] at hEq
      exact absurd (hu c (by rw [hEq]; rfl)) (hNot hHead)
  | @cons e es t₁ u₁ hItem hRest hApart ih =>
    cases h' with
    | nil =>
      obtain ⟨c, w, rfl, hHead⟩ := hItem.item_head
      rw [nil_append] at hEq
      exact absurd (hv c (by rw [← hEq]; rfl)) (hNot hHead)
    | @cons e' es' t₁' u₁' hItem' hRest' hApart' =>
      rw [append_assoc, append_assoc] at hEq
      rw [length_append] at hLength
      obtain ⟨hStopped, hBehind⟩ := hRest.behind hApart hu
      obtain ⟨hStopped', hBehind'⟩ := hRest'.behind hApart' hv
      obtain ⟨rfl, hTail, hLang⟩ := hItem.item_unique hBelow hItem' (by omega) hStopped
        hStopped' hBehind hBehind' hEq
      obtain ⟨rfl, hEnd, hLangs⟩ := ih hRest' (by omega) hTail
      refine ⟨rfl, hEnd, fun defs => ?_⟩
      rw [map_cons, map_cons, prod_cons, prod_cons, hLang defs, hLangs defs]

/-! ## Alternatives -/

/-- Alternatives as the list of their sequences. -/
inductive Branches (nested : Bool) : List (List GbnfExpr) → List UInt8 → Prop
  | one {es : List GbnfExpr} {t : List UInt8} (hItems : Items nested es t) : Branches nested [es] t
  | cons {es : List GbnfExpr} {ess : List (List GbnfExpr)} {t sp u : List UInt8}
      (hItems : Items nested es t) (hSp : Blanks true sp) (hRest : Branches nested ess u) :
      Branches nested (es :: ess) (t ++ '|'.toUInt8 :: (sp ++ u))

variable {ess : List (List GbnfExpr)}

theorem Branches.append_one {f : List GbnfExpr}
    (h : Branches nested ess t) (hSp : Blanks true sp)
    (hItems : Items nested f u) : Branches nested (ess ++ [f]) (t ++ '|'.toUInt8 :: (sp ++ u)) := by
  induction h with
  | one hFirst => exact .cons hFirst hSp (.one hItems)
  | cons hFirst hSp' hRest ih =>
    have hMore := Branches.cons hFirst hSp' ih
    simp only [append_assoc, cons_append] at hMore ⊢
    exact hMore

/-- The language of alternatives of sequences. -/
def branchesLang (defs : List UInt8 → Option GbnfExpr) (ess : List (List GbnfExpr)) :
    Language Nat := (ess.map fun es => (es.map (lang defs)).prod).sum

theorem Spells.branches (h : Spells nested .alternates e t) :
    ∃ ess, Branches nested ess t ∧ ∀ defs, lang defs e = branchesLang defs ess := by
  generalize hLevel : Level.alternates = level at h
  induction h with
  | one hSequence =>
    obtain ⟨es, hItems, hLang⟩ := hSequence.items
    refine ⟨[es], .one hItems, fun defs => ?_⟩
    rw [hLang defs, branchesLang, map_singleton, sum_singleton]
  | alt hFirst hSp hNext hLast ih =>
    obtain ⟨ess, hBranches, hLang⟩ := ih hLevel
    obtain ⟨es, hItems, hNextLang⟩ := hNext.items
    refine ⟨ess ++ [es], ?_, fun defs => ?_⟩
    · have hMore := hBranches.append_one hSp hItems
      simp only [append_assoc]
      exact hMore
    · rw [lang_alt, hLang defs, hNextLang defs, branchesLang, branchesLang, map_append,
        sum_append, map_singleton, sum_singleton]
  | literal _ _ | charClass _ _ _ | negated _ _ | any _ | ref _ _ _ | group _ _ _ | repetition _ _
  | empty | single _ | seq _ _ _ => cases hLevel

theorem Branches.free_blank (h : Branches nested ess t) (hu : Closing u) :
    Free (Blank nested') (t ++ u) := by
  apply free_blank_of_head
  intro c hc
  cases h with
  | one hItems =>
    cases t with
    | nil => exact (hu.ends.solid hc).1
    | cons d t =>
      have hd : d = c := some.inj hc
      exact hd ▸ (hItems.head rfl).spec.1
  | @cons es ess t sp u' hItems hSp hRest =>
    cases t with
    | nil =>
      have hd : '|'.toUInt8 = c := some.inj hc
      rw [← hd]
      decide
    | cons d t =>
      have hd : d = c := some.inj hc
      exact hd ▸ (hItems.head rfl).spec.1

theorem Branches.unique (hBelow : UniqueBelow k)
    {ess' : List (List GbnfExpr)} (h : Branches nested ess t)
    (h' : Branches nested ess' t') (hLength : t.length ≤ k) (hu : Closing u) (hv : Closing v)
    (hEq : t ++ u = t' ++ v) :
    t = t' ∧ u = v ∧ ∀ defs, branchesLang defs ess = branchesLang defs ess' := by
  have hBar : ∀ w : List UInt8, EndsSequence ('|'.toUInt8 :: w) :=
    fun w c hc => Or.inl (some.inj hc).symm
  have hNot : ∀ {w x : List UInt8}, Closing w → w ≠ '|'.toUInt8 :: x := by
    intro w x hw hEq
    exact absurd (hw '|'.toUInt8 (by rw [hEq]; rfl)) (by decide)
  induction h generalizing ess' t' with
  | one hItems =>
    cases h' with
    | one hItems' =>
      obtain ⟨rfl, hEnd, hLang⟩ := hItems.unique hBelow hItems' hLength hu.ends hv.ends hEq
      refine ⟨rfl, hEnd, fun defs => ?_⟩
      rw [branchesLang, branchesLang, map_singleton, map_singleton, hLang defs]
    | cons hItems' hSp hRest =>
      rw [append_assoc] at hEq
      obtain ⟨-, hEnd, -⟩ := hItems.unique hBelow hItems' hLength hu.ends (hBar _) hEq
      exact absurd hEnd (hNot hu)
  | cons hItems hSp hRest ih =>
    rw [length_append, length_cons, length_append] at hLength
    cases h' with
    | one hItems' =>
      rw [append_assoc, cons_append] at hEq
      obtain ⟨-, hEnd, -⟩ := hItems.unique hBelow hItems' (by omega) (hBar _) hv.ends hEq
      exact absurd hEnd.symm (hNot hv)
    | cons hItems' hSp' hRest' =>
      simp only [append_assoc, cons_append] at hEq
      obtain ⟨rfl, hTail, hLang⟩ :=
        hItems.unique hBelow hItems' (by omega) (hBar _) (hBar _) hEq
      obtain ⟨rfl, hNext⟩ := blanks_unique (cons.inj hTail).2 hSp hSp'
        (hRest.free_blank hu) (hRest'.free_blank hv)
      obtain ⟨rfl, hEnd, hLangs⟩ := ih hRest' (by omega) hNext
      refine ⟨rfl, hEnd, fun defs => ?_⟩
      have hMore := hLangs defs
      rw [branchesLang, branchesLang] at hMore ⊢
      rw [map_cons, map_cons, sum_cons, sum_cons, hLang defs, hMore]

theorem uniqueBelow (k : Nat) : UniqueBelow k := by
  induction k with
  | zero => exact fun hLength => absurd hLength (Nat.not_lt_zero _)
  | succ k ih =>
    intro nested e e' t t' u v hLength h h' hu hv hEq
    obtain ⟨ess, hBranches, hLang⟩ := h.branches
    obtain ⟨ess', hBranches', hLang'⟩ := h'.branches
    obtain ⟨hText, hEnd, hSame⟩ :=
      hBranches.unique ih hBranches' (Nat.lt_succ_iff.mp hLength) hu hv hEq
    refine ⟨hText, hEnd, fun defs => ?_⟩
    rw [hLang defs, hLang' defs, hSame defs]

/-- The expressions that a text spells have one language. -/
theorem Spells.lang_unique (h : Spells nested .alternates e t) (h' : Spells nested .alternates e' t)
    (defs : List UInt8 → Option GbnfExpr) : lang defs e = lang defs e' := by
  have hEnd : Closing [] := fun c hc => absurd hc (some_ne_none c).symm
  exact (uniqueBelow _ (Nat.lt_succ_self t.length) h h' hEnd hEnd rfl).2.2 defs

end GbnfExpr

end Beellama.Ports
