import Mathlib.Algebra.Order.Ring.Int

/-!
# Tries with ordered children

A node holds its children in the order of their symbols and says whether a word ends at it.  Inserting
adds exactly one word (`insert_holds`).  A trie built by insertions is `WellFormed`: the symbols of the
children are distinct, and behind every child there is a word.
-/

namespace Beellama.Verified

open List

namespace SortedTrie

universe u

mutual

inductive Node (κ : Type u)
  | node (children : Children κ) (isEnd : Bool)

inductive Children (κ : Type u)
  | nil
  | cons (c : κ) (child : Node κ) (rest : Children κ)

end

variable {κ : Type u}

namespace Node

def empty : Node κ := .node .nil false

def children : Node κ → Children κ
  | .node children _ => children

def isEnd : Node κ → Bool
  | .node _ isEnd => isEnd

/-- The node that holds one word. -/
def path : List κ → Node κ
  | [] => .node .nil true
  | c :: s => .node (.cons c (path s) .nil) false

end Node

namespace Children

/-- The symbols of the children, in their order. -/
def keys : Children κ → List κ
  | .nil => []
  | .cons c _ rest => c :: rest.keys

def isEmpty : Children κ → Bool
  | .nil => true
  | .cons _ _ _ => false

end Children

mutual

/-- The word leads to the end of a word. -/
def Node.Holds : Node κ → List κ → Prop
  | .node _ isEnd, [] => isEnd = true
  | .node children _, c :: s => children.Holds c s

def Children.Holds : Children κ → κ → List κ → Prop
  | .nil, _, _ => False
  | .cons d child rest, c, s => c = d ∧ child.Holds s ∨ rest.Holds c s

end

theorem holds_nil (n : Node κ) : n.Holds [] ↔ n.isEnd = true := by
  cases n
  exact Iff.rfl

theorem holds_cons (n : Node κ) (c : κ) (s : List κ) : n.Holds (c :: s) ↔ n.children.Holds c s := by
  cases n
  exact Iff.rfl

theorem Children.Holds.mem_keys : {children : Children κ} → {c : κ} → {s : List κ} →
    children.Holds c s → c ∈ children.keys
  | .nil, _, _, h => h.elim
  | .cons _ _ _, _, _, h =>
    match h with
    | .inl hHere => mem_cons.mpr (Or.inl hHere.1)
    | .inr hRest => mem_cons.mpr (Or.inr hRest.mem_keys)

theorem path_holds (s t : List κ) : (Node.path s).Holds t ↔ t = s := by
  induction s generalizing t with
  | nil =>
    cases t with
    | nil => exact iff_of_true rfl rfl
    | cons c t => exact iff_of_false False.elim (cons_ne_nil c t)
  | cons d s ih =>
    cases t with
    | nil => exact iff_of_false Bool.false_ne_true (cons_ne_nil d s).symm
    | cons c t =>
      show (c = d ∧ (Node.path s).Holds t ∨ False) ↔ c :: t = d :: s
      rw [or_false, ih, cons.injEq]

variable [LinearOrder κ]

mutual

/-- A word is added. -/
def Node.insert : Node κ → List κ → Node κ
  | .node children _, [] => .node children true
  | .node children isEnd, c :: s => .node (children.insert c s) isEnd

def Children.insert : Children κ → κ → List κ → Children κ
  | .nil, c, s => .cons c (Node.path s) .nil
  | .cons d child rest, c, s =>
    if c < d then .cons c (Node.path s) (.cons d child rest)
    else if c = d then .cons d (child.insert s) rest
    else .cons d child (rest.insert c s)

end

mutual

theorem Node.insert_holds : (n : Node κ) → (s t : List κ) →
    ((n.insert s).Holds t ↔ n.Holds t ∨ t = s)
  | .node children isEnd, [], [] => by
      show true = true ↔ isEnd = true ∨ [] = []
      simp
  | .node children isEnd, [], c :: t => by
      show children.Holds c t ↔ children.Holds c t ∨ c :: t = []
      simp
  | .node children isEnd, d :: s, [] => by
      show isEnd = true ↔ isEnd = true ∨ [] = d :: s
      simp
  | .node children isEnd, d :: s, c :: t => by
      show (children.insert d s).Holds c t ↔ children.Holds c t ∨ c :: t = d :: s
      rw [children.insert_holds d s c t, cons.injEq]

theorem Children.insert_holds : (children : Children κ) → (d : κ) → (s : List κ) → (c : κ) →
    (t : List κ) → ((children.insert d s).Holds c t ↔ children.Holds c t ∨ c = d ∧ t = s)
  | .nil, d, s, c, t => by
      show (c = d ∧ (Node.path s).Holds t ∨ False) ↔ False ∨ c = d ∧ t = s
      rw [path_holds, or_false, false_or]
  | .cons e child rest, d, s, c, t => by
      rw [Children.insert]
      split
      next =>
        show (c = d ∧ (Node.path s).Holds t ∨ _) ↔ _
        rw [path_holds, or_comm]
      next =>
        split
        next hEq =>
          show (c = e ∧ (child.insert s).Holds t ∨ rest.Holds c t) ↔
            (c = e ∧ child.Holds t ∨ rest.Holds c t) ∨ c = d ∧ t = s
          rw [child.insert_holds s t, hEq, and_or_left, or_right_comm]
        next =>
          show (c = e ∧ child.Holds t ∨ (rest.insert d s).Holds c t) ↔
            (c = e ∧ child.Holds t ∨ rest.Holds c t) ∨ c = d ∧ t = s
          rw [rest.insert_holds d s c t, or_assoc]

end

/-! ## Tries that are built by insertions -/

/-- A word ends at the node, or goes on. -/
def Node.Fruitful (n : Node κ) : Prop := n.children.isEmpty = false ∨ n.isEnd = true

mutual

/-- Below every node the symbols are in their order, and behind each child is a word. -/
def Node.WellFormed : Node κ → Prop
  | .node children _ => children.WellFormed

def Children.WellFormed : Children κ → Prop
  | .nil => True
  | .cons c child rest =>
    (∀ d ∈ rest.keys, c < d) ∧ child.Fruitful ∧ child.WellFormed ∧ rest.WellFormed

end

theorem path_wellFormed (s : List κ) : (Node.path s).Fruitful ∧ (Node.path s).WellFormed := by
  induction s with
  | nil => exact ⟨Or.inr rfl, trivial⟩
  | cons c s ih =>
    exact ⟨Or.inl rfl, fun d hd => absurd hd not_mem_nil, ih.1, ih.2, trivial⟩

theorem Children.mem_keys_insert (children : Children κ) (c : κ) (s : List κ) (d : κ) :
    d ∈ (children.insert c s).keys ↔ d = c ∨ d ∈ children.keys :=
  match children with
  | .nil => by
      show d ∈ [c] ↔ d = c ∨ d ∈ []
      simp
  | .cons e child rest => by
      have hRest := rest.mem_keys_insert c s d
      rw [Children.insert]
      split
      next => exact mem_cons
      next =>
        split
        next hEq =>
          show d ∈ e :: rest.keys ↔ d = c ∨ d ∈ e :: rest.keys
          rw [hEq]
          simp
        next =>
          show d ∈ e :: (rest.insert c s).keys ↔ d = c ∨ d ∈ e :: rest.keys
          rw [mem_cons, mem_cons, hRest, or_left_comm]

theorem Children.insert_isEmpty (children : Children κ) (c : κ) (s : List κ) :
    (children.insert c s).isEmpty = false := by
  cases children with
  | nil => rfl
  | cons e child rest =>
    rw [Children.insert]
    split
    · rfl
    · split <;> rfl

theorem Node.insert_fruitful (n : Node κ) (s : List κ) : (n.insert s).Fruitful := by
  cases n with
  | node children isEnd =>
    cases s with
    | nil => exact Or.inr rfl
    | cons c s => exact Or.inl (children.insert_isEmpty c s)

mutual

theorem Node.insert_wellFormed : (n : Node κ) → (s : List κ) → n.WellFormed →
    (n.insert s).WellFormed
  | .node _ _, [], h => h
  | .node children _, c :: s, h => children.insert_wellFormed c s h

theorem Children.insert_wellFormed : (children : Children κ) → (c : κ) → (s : List κ) →
    children.WellFormed → (children.insert c s).WellFormed
  | .nil, c, s, _ => by
      obtain ⟨hFruitful, hPath⟩ := path_wellFormed s
      exact ⟨fun d hd => absurd hd not_mem_nil, hFruitful, hPath, trivial⟩
  | .cons e child rest, c, s, h => by
      obtain ⟨hOrder, hFruitful, hChild, hRest⟩ := h
      rw [Children.insert]
      split
      next hLt =>
        obtain ⟨hPathFruitful, hPath⟩ := path_wellFormed s
        refine ⟨fun d hd => ?_, hPathFruitful, hPath, hOrder, hFruitful, hChild, hRest⟩
        cases mem_cons.mp hd with
        | inl hEq => exact hEq ▸ hLt
        | inr hMem => exact lt_trans hLt (hOrder d hMem)
      next hNotLt =>
        split
        next =>
          exact ⟨hOrder, child.insert_fruitful s, child.insert_wellFormed s hChild, hRest⟩
        next hNe =>
          refine ⟨fun d hd => ?_, hFruitful, hChild, rest.insert_wellFormed c s hRest⟩
          cases (rest.mem_keys_insert c s d).mp hd with
          | inl hEq =>
            rw [hEq]
            exact lt_of_le_of_ne (not_lt.mp hNotLt) (Ne.symm hNe)
          | inr hMem => exact hOrder d hMem

end

mutual

theorem Node.exists_holds : (n : Node κ) → n.Fruitful → n.WellFormed → ∃ s, n.Holds s
  | .node _ true, _, _ => ⟨[], rfl⟩
  | .node children false, hFruitful, h => by
      have hSome := hFruitful.resolve_right Bool.false_ne_true
      obtain ⟨c, s, hHolds⟩ := children.exists_holds hSome h
      exact ⟨c :: s, hHolds⟩

theorem Children.exists_holds : (children : Children κ) → children.isEmpty = false →
    children.WellFormed → ∃ c s, children.Holds c s
  | .nil, hSome, _ => absurd hSome Bool.noConfusion
  | .cons c child _, _, h => by
      obtain ⟨s, hHolds⟩ := child.exists_holds h.2.1 h.2.2.1
      exact ⟨c, s, Or.inl ⟨rfl, hHolds⟩⟩

end

/-- The trie of words. -/
def ofWords (words : List (List κ)) : Node κ := words.foldl Node.insert .empty

theorem foldl_insert_holds (words : List (List κ)) (n : Node κ) (t : List κ) :
    (words.foldl Node.insert n).Holds t ↔ n.Holds t ∨ t ∈ words := by
  induction words generalizing n with
  | nil => simp
  | cons s words ih =>
    rw [foldl_cons, ih, n.insert_holds s t, mem_cons, or_assoc]

theorem ofWords_holds (words : List (List κ)) (t : List κ) :
    (ofWords words).Holds t ↔ t ∈ words := by
  rw [ofWords, foldl_insert_holds]
  apply or_iff_right
  cases t with
  | nil => exact Bool.false_ne_true
  | cons c t => exact id

theorem ofWords_wellFormed (words : List (List κ)) : (ofWords words).WellFormed := by
  have hFold : ∀ (words : List (List κ)) (n : Node κ), n.WellFormed →
      (words.foldl Node.insert n).WellFormed := by
    intro words
    induction words with
    | nil => exact fun n hn => hn
    | cons s words ih => exact fun n hn => ih _ (n.insert_wellFormed s hn)
  exact hFold words _ trivial

end SortedTrie

end Beellama.Verified
