import Mathlib.Data.List.Induction

/-!
# The trie of the tokenizers

`naive_trie`: the value of a key is the last one inserted (`valueOf_insert`), and the trie goes as far
along a text as some key does (`isSome_walk_insert`).
-/

namespace Beellama.Ports

open List Option

/-- `naive_trie` -/
inductive NaiveTrie
  | node (value : Option Int32) (children : UInt8 → Option NaiveTrie)

namespace NaiveTrie

def empty : NaiveTrie := .node none fun _ => none

def value : NaiveTrie → Option Int32
  | .node value _ => value

def traverse : NaiveTrie → UInt8 → Option NaiveTrie
  | .node _ children, c => children c

def insert (t : NaiveTrie) (key : List UInt8) (value : Int32) : NaiveTrie :=
  match key with
  | [] => .node (some value) t.traverse
  | c :: key =>
    .node t.value fun c' =>
      if c' = c then some (((t.traverse c).getD empty).insert key value) else t.traverse c'

/-- How far the trie goes along a text, from the offset on. -/
def getLongestPrefix (t : NaiveTrie) : List UInt8 → Nat → Nat
  | [], offset => offset
  | c :: key, offset =>
    match t.traverse c with
    | some child => child.getLongestPrefix key (offset + 1)
    | none => offset

/-- The node that a text leads to. -/
def walk (t : NaiveTrie) (key : List UInt8) : Option NaiveTrie := key.foldlM traverse t

/-- The value of a text. -/
def valueOf (t : NaiveTrie) (key : List UInt8) : Option Int32 := (t.walk key).bind value

variable {t : NaiveTrie} {c : UInt8} {key key' : List UInt8} {x : Int32}

theorem valueOf_empty : empty.valueOf key = none := by
  cases key with
  | nil => rfl
  | cons c key => rfl

theorem valueOf_cons : t.valueOf (c :: key) = (t.traverse c).bind fun t => t.valueOf key := by
  unfold valueOf walk
  rw [foldlM_cons, bind_eq_bind, bind_assoc]

theorem valueOf_insert :
    (t.insert key x).valueOf key' = if key' = key then some x else t.valueOf key' := by
  induction key generalizing t key' with
  | nil =>
    cases key' with
    | nil => rfl
    | cons c' key' =>
      rfl
  | cons c key ih =>
    cases key' with
    | nil =>
      rfl
    | cons c' key' =>
      rw [valueOf_cons, valueOf_cons]
      show (if c' = c then some (((t.traverse c).getD empty).insert key x)
        else t.traverse c').bind _ = _
      by_cases hSame : c' = c
      · subst hSame
        rw [if_pos rfl, bind_some, ih]
        simp only [cons.injEq, true_and]
        split
        · rfl
        cases t.traverse c' with
        | none => exact valueOf_empty
        | some child => rfl
      · rw [if_neg hSame, if_neg fun h => hSame (cons.inj h).1]

theorem walk_append {xs ys : List UInt8} :
    t.walk (xs ++ ys) = (t.walk xs).bind fun t => t.walk ys := foldlM_append

theorem walk_cons : t.walk (c :: key) = (t.traverse c).bind fun t => t.walk key := foldlM_cons

theorem isSome_walk_insert :
    ((t.insert key x).walk key').isSome ↔ (t.walk key').isSome ∨ key' <+: key := by
  induction key generalizing t key' with
  | nil =>
    cases key' with
    | nil => simp [walk]
    | cons c' key' =>
      have hSame : (t.insert [] x).walk (c' :: key') = t.walk (c' :: key') := rfl
      rw [hSame]
      simp
  | cons c key ih =>
    cases key' with
    | nil => simp [walk]
    | cons c' key' =>
      rw [walk_cons, walk_cons]
      by_cases hSame : c' = c
      · subst hSame
        have hChild : (t.insert (c' :: key) x).traverse c' =
            some (((t.traverse c').getD empty).insert key x) := if_pos rfl
        rw [hChild, bind_some, ih]
        cases t.traverse c' with
        | some child => simp
        | none =>
          cases key' with
          | nil => simp
          | cons c'' key' => simp [walk_cons, empty, traverse]
      have hChild : (t.insert (c :: key) x).traverse c' = t.traverse c' := if_neg hSame
      rw [hChild]
      simp [hSame]

theorem isSome_walk_foldl {α : Type} {items : List α} {text : α → List UInt8} {value : α → Int32}
    (hKey : key ≠ []) :
    ((items.foldl (fun t x => t.insert (text x) (value x)) empty).walk key).isSome ↔
      ∃ x ∈ items, key <+: text x := by
  induction items using reverseRecOn with
  | nil =>
    cases key with
    | nil => exact absurd rfl hKey
    | cons c key => simp [walk_cons, empty, traverse]
  | append_singleton items last ih =>
    rw [foldl_append, foldl_cons, foldl_nil, isSome_walk_insert, ih]
    simp

theorem getLongestPrefix_spec {m offset : Nat} :
    offset + m ≤ t.getLongestPrefix key offset ↔
      m ≤ key.length ∧ (t.walk (key.take m)).isSome := by
  induction key generalizing t m offset with
  | nil =>
    rw [getLongestPrefix, take_nil, length_nil]
    constructor
    · exact fun h => ⟨by omega, rfl⟩
    · exact fun h => by omega
  | cons c key ih =>
    cases m with
    | zero =>
      have hLe : offset ≤ t.getLongestPrefix (c :: key) offset := by
        rw [getLongestPrefix]
        cases t.traverse c with
        | none => exact Nat.le_refl _
        | some child =>
          have hChild := (@ih child 0 (offset + 1)).mpr ⟨by omega, rfl⟩
          exact Nat.le_of_succ_le hChild
      exact iff_of_true hLe ⟨by omega, rfl⟩
    | succ m =>
      rw [getLongestPrefix, take_succ_cons, walk_cons, length_cons, Nat.add_le_add_iff_right]
      cases t.traverse c with
      | none => simp
      | some child =>
        rw [show offset + (m + 1) = offset + 1 + m by omega, ih]
        rfl

end NaiveTrie

end Beellama.Ports
