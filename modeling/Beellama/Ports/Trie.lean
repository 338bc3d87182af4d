import Beellama.Ports.Unicode
import Beellama.Verified.LongestSuffix
import Beellama.Verified.OrderedMap
import Mathlib.Data.List.GetD

/-!
# The trie of literals (`common_trie`)

The trie of `src/common/trie.cpp`.  Nodes are numbered in the order of their creation.  `walk` is the node
a symbol sequence leads to, and `Tree` says that every node has exactly one such sequence; `insert`
keeps it and adds exactly one word.
-/

namespace Beellama.Ports

open Beellama.Verified List

/-- `common_trie::node` -/
structure TrieNode where
  children : OrderedMap Nat Nat := .empty
  /-- `pattern`, -1 is `none` -/
  pattern : Option Nat := none
  deriving DecidableEq

/-- `common_trie`; the count of the patterns is exact below 2^31 of them. -/
structure CommonTrie where
  nodes : List TrieNode
  nPatterns : Nat
  deriving DecidableEq

/-- `common_trie::match_result` -/
inductive TrieMatch
  | noMatch
  | partialMatch
  | completeMatch
  deriving DecidableEq, Repr

namespace CommonTrie

/-- A trie that holds its root. -/
def root : CommonTrie := ⟨[{}], 0⟩

def node (t : CommonTrie) (u : Nat) : TrieNode := t.nodes.getD u {}

/-- `nodes[u].children.find(ch)` -/
def child (t : CommonTrie) (u ch : Nat) : Option Nat := (t.node u).children.find ch

/-- `create_node`, entered as a child. -/
def addChild (t : CommonTrie) (u ch : Nat) : CommonTrie :=
  { t with
    nodes := t.nodes.modify u (fun n => { n with children := n.children.insert ch t.nodes.length })
      ++ [{}] }

/-- The loop of `insert`: the trie with the path of the symbols, and its end. -/
def insertPath (t : CommonTrie) (current : Nat) : List Nat → CommonTrie × Nat
  | [] => (t, current)
  | ch :: symbols =>
    match t.child current ch with
    | none => insertPath (t.addChild current ch) t.nodes.length symbols
    | some v => insertPath t v symbols

/-- `nodes[u].pattern = n_patterns++` where there is none. -/
def markPattern (t : CommonTrie) (u : Nat) : CommonTrie :=
  match (t.node u).pattern with
  | some _ => t
  | none =>
    { nodes := t.nodes.modify u (fun n => { n with pattern := some t.nPatterns })
      nPatterns := t.nPatterns + 1 }

/-- `insert` of a symbol sequence, with the pattern index. -/
def insert (t : CommonTrie) (symbols : List Nat) : CommonTrie × Option Nat :=
  let r := t.insertPath 0 symbols
  let t := r.1.markPattern r.2
  (t, (t.node r.2).pattern)

/-- The symbols of a word: its code points up to the first that does not parse.
The fuel bounds the bytes left. -/
def symbolsFrom (word : List UInt8) : Nat → Nat → List Nat
  | 0, _ => []
  | fuel + 1, pos =>
    if pos < word.length then
      match commonParseUtf8Codepoint word pos with
      | .success codepoint bytes => codepoint :: symbolsFrom word fuel (pos + bytes)
      | _ => []
    else []

def symbols (word : List UInt8) : List Nat := symbolsFrom word word.length 0

/-- A trie of symbol sequences, inserted in turn. -/
def build (ws : List (List Nat)) : CommonTrie := ws.foldl (fun t w => (t.insert w).1) root

/-- The constructor from strings. -/
def ofWords (words : List (List UInt8)) : CommonTrie := build (words.map symbols)

/-- The loop of `check_at` from a node and a position. -/
def checkFrom (t : CommonTrie) (sv : List UInt8) : Nat → Nat → Nat → TrieMatch
  | 0, _, _ => .noMatch
  | fuel + 1, current, pos =>
    let atEnd := if current ≠ 0 then TrieMatch.partialMatch else .noMatch
    if pos < sv.length then
      match commonParseUtf8Codepoint sv pos with
      | .success codepoint bytes =>
        match t.child current codepoint with
        | none => .noMatch
        | some v =>
          if (t.node v).pattern.isSome then .completeMatch
          else checkFrom t sv fuel v (pos + bytes)
      | _ => atEnd
    else atEnd

/-- `check_at` -/
def checkAt (t : CommonTrie) (sv : List UInt8) (startPos : Nat) : TrieMatch :=
  t.checkFrom sv (sv.length + 1) 0 startPos

/-! ## The words of a trie -/

/-- The node a symbol sequence leads to from the root. -/
def walk (t : CommonTrie) (s : List Nat) : Option Nat := s.foldlM t.child 0

/-- The sequence leads to a node. -/
def IsNode (t : CommonTrie) (s : List Nat) : Prop := ∃ u, t.walk s = some u

/-- The sequence is a word of the trie. -/
def IsWord (t : CommonTrie) (s : List Nat) : Prop :=
  ∃ u, t.walk s = some u ∧ (t.node u).pattern.isSome

/-- Every node is reached by exactly one sequence. -/
structure Tree (t : CommonTrie) : Prop where
  nonempty : 0 < t.nodes.length
  child_lt : ∀ {u ch v}, t.child u ch = some v → v < t.nodes.length
  child_gt : ∀ {u ch v}, t.child u ch = some v → u < v
  walk_inj : ∀ {s s' u}, t.walk s = some u → t.walk s' = some u → s = s'
  reached : ∀ {u}, u < t.nodes.length → ∃ s, t.walk s = some u

@[simp] theorem walk_nil (t : CommonTrie) : t.walk [] = some 0 := rfl

theorem walk_append (t : CommonTrie) (s s' : List Nat) :
    t.walk (s ++ s') = (t.walk s).bind fun u => s'.foldlM t.child u := by
  rw [walk, foldlM_append]
  rfl

theorem walk_snoc (t : CommonTrie) (s : List Nat) (ch : Nat) :
    t.walk (s ++ [ch]) = (t.walk s).bind fun u => t.child u ch := by
  rw [walk_append]
  cases t.walk s with
  | none => rfl
  | some u => simp

variable {t : CommonTrie} {s : List Nat}

theorem walk_snoc_eq_some {ch v : Nat} :
    t.walk (s ++ [ch]) = some v ↔ ∃ u, t.walk s = some u ∧ t.child u ch = some v := by
  rw [walk_snoc, Option.bind_eq_some_iff]

/-- The nodes of a trie are a prefix-closed set of sequences. -/
theorem prefixClosed (t : CommonTrie) : PrefixClosed t.IsNode where
  nil := ⟨0, rfl⟩
  init := by
    intro u c h
    obtain ⟨v, hv⟩ := h
    obtain ⟨w, hw, -⟩ := walk_snoc_eq_some.mp hv
    exact ⟨w, hw⟩

variable {u : Nat}

theorem child_of_le (h : t.nodes.length ≤ u) (ch : Nat) : t.child u ch = none := by
  rw [child, node, getD_eq_default _ _ h]
  rfl

namespace Tree

variable {t : CommonTrie} {s : List Nat} {u v ch : Nat}

theorem lt_of_walk (ht : t.Tree) (h : t.walk s = some u) : u < t.nodes.length := by
  obtain rfl | ⟨s', c, rfl⟩ := eq_nil_or_concat s
  · have hu : 0 = u := by simpa using h
    rw [← hu]
    exact ht.nonempty
  rw [concat_eq_append] at h
  obtain ⟨w, -, hChild⟩ := walk_snoc_eq_some.mp h
  exact ht.child_lt hChild

theorem length_le (ht : t.Tree) (h : t.walk s = some u) : s.length ≤ u := by
  induction s using reverseRecOn generalizing u with
  | nil => exact Nat.zero_le _
  | append_singleton s c ih =>
    obtain ⟨w, hw, hChild⟩ := walk_snoc_eq_some.mp h
    have hLe := ih hw
    have hLt := ht.child_gt hChild
    rw [length_append, length_singleton]
    omega

theorem eq_nil_of_root (ht : t.Tree) (h : t.walk s = some 0) : s = [] :=
  ht.walk_inj h (walk_nil t)

theorem ne_root (ht : t.Tree) (h : t.walk s = some u) (hNe : s ≠ []) : u ≠ 0 := by
  intro hu
  rw [hu] at h
  exact hNe (ht.eq_nil_of_root h)

end Tree

theorem root_child (u ch : Nat) : root.child u ch = none := by
  cases u with
  | zero => rfl
  | succ u => rfl

theorem root_walk_snoc (s : List Nat) (ch : Nat) : root.walk (s ++ [ch]) = none := by
  rw [walk_snoc]
  cases root.walk s with
  | none => rfl
  | some u => exact root_child u ch

theorem root_tree : root.Tree where
  nonempty := by decide
  child_lt := by
    intro u ch v h
    simp [root_child] at h
  child_gt := by
    intro u ch v h
    simp [root_child] at h
  walk_inj := by
    intro s s' u h h'
    obtain rfl | ⟨v, c, rfl⟩ := eq_nil_or_concat s
    · obtain rfl | ⟨v', c', rfl⟩ := eq_nil_or_concat s'
      · rfl
      · rw [concat_eq_append, root_walk_snoc] at h'
        contradiction
    · rw [concat_eq_append, root_walk_snoc] at h
      contradiction
  reached := by
    intro u h
    have hu : u = 0 := by simpa [root] using h
    exact ⟨[], by rw [hu]; rfl⟩

theorem root_not_isWord (s : List Nat) : ¬root.IsWord s := by
  intro h
  obtain ⟨u, -, hPattern⟩ := h
  cases u with
  | zero => simp [node, root] at hPattern
  | succ u => simp [node, root] at hPattern

/-! ## A new child -/

section AddChild

variable {t : CommonTrie} {u ch : Nat}

theorem addChild_length (t : CommonTrie) (u ch : Nat) :
    (t.addChild u ch).nodes.length = t.nodes.length + 1 := by
  simp [addChild]

variable (hu : u < t.nodes.length)

include hu

theorem addChild_node (w : Nat) :
    (t.addChild u ch).node w =
      if w = u then { t.node u with children := (t.node u).children.insert ch t.nodes.length }
      else t.node w := by
  simp only [node, addChild, getD_eq_getElem?_getD]
  by_cases hw : w < t.nodes.length
  · rw [getElem?_append_left (by simpa using hw), getElem?_modify]
    by_cases hEq : w = u
    · subst hEq
      simp [hw]
    · simp [hEq, Ne.symm hEq]
  have hNe : w ≠ u := by omega
  rw [if_neg hNe, getElem?_append_right (by simpa using hw),
    getElem?_eq_none (Nat.le_of_not_lt hw)]
  by_cases hNew : w = t.nodes.length
  · simp [hNew]
  · rw [getElem?_eq_none (by simp; omega)]

theorem addChild_child (w c : Nat) :
    (t.addChild u ch).child w c =
      if w = u ∧ c = ch then some t.nodes.length else t.child w c := by
  simp only [child, addChild_node hu]
  by_cases hw : w = u
  · subst hw
    simp [OrderedMap.find_insert]
  · simp [hw]

theorem addChild_pattern (w : Nat) : ((t.addChild u ch).node w).pattern = (t.node w).pattern := by
  rw [addChild_node hu]
  by_cases hw : w = u
  · simp [hw]
  · rw [if_neg hw]

theorem addChild_walk (hChild : t.child u ch = none)
    {w : Nat} (h : t.walk s = some w) : (t.addChild u ch).walk s = some w := by
  induction s using reverseRecOn generalizing w with
  | nil => exact h
  | append_singleton s c ih =>
    obtain ⟨v, hv, hNext⟩ := walk_snoc_eq_some.mp h
    have hNot : ¬(v = u ∧ c = ch) := by
      intro hEq
      rw [hEq.1, hEq.2, hChild] at hNext
      contradiction
    refine walk_snoc_eq_some.mpr ⟨v, ih hv, ?_⟩
    rw [addChild_child hu, if_neg hNot]
    exact hNext

theorem walk_of_addChild {w : Nat} (h : (t.addChild u ch).walk s = some w) :
    t.walk s = some w ∨ w = t.nodes.length ∧ ∃ s₀, t.walk s₀ = some u ∧ s = s₀ ++ [ch] := by
  induction s using reverseRecOn generalizing w with
  | nil => exact Or.inl h
  | append_singleton s c ih =>
    obtain ⟨v, hv, hNext⟩ := walk_snoc_eq_some.mp h
    rw [addChild_child hu] at hNext
    have hOld : ∀ x, t.child v c = some x → t.walk s = some v := by
      intro x hx
      cases ih hv with
      | inl hWalk => exact hWalk
      | inr hNew =>
        rw [hNew.1, child_of_le (Nat.le_refl _)] at hx
        contradiction
    split at hNext
    next hEq =>
      obtain ⟨rfl, rfl⟩ := hEq
      have hw : t.nodes.length = w := by simpa using hNext
      cases ih hv with
      | inl hWalk => exact Or.inr ⟨hw.symm, s, hWalk, rfl⟩
      | inr hNew => omega
    next hNe =>
      exact Or.inl (walk_snoc_eq_some.mpr ⟨v, hOld w hNext, hNext⟩)

omit hu in
theorem addChild_tree (ht : t.Tree) (hu : u < t.nodes.length) (hChild : t.child u ch = none) :
    (t.addChild u ch).Tree where
  nonempty := by
    rw [addChild_length]
    omega
  child_lt := by
    intro w c v h
    rw [addChild_child hu] at h
    rw [addChild_length]
    split at h
    · have hv : t.nodes.length = v := by simpa using h
      omega
    · have hLt := ht.child_lt h
      omega
  child_gt := by
    intro w c v h
    rw [addChild_child hu] at h
    split at h
    next hEq =>
      have hv : t.nodes.length = v := by simpa using h
      omega
    next => exact ht.child_gt h
  walk_inj := by
    intro s s' w h h'
    cases walk_of_addChild hu h with
    | inl hOld =>
      have hLt := ht.lt_of_walk hOld
      cases walk_of_addChild hu h' with
      | inl hOld' => exact ht.walk_inj hOld hOld'
      | inr hNew' => omega
    | inr hNew =>
      obtain ⟨hw, s₀, hs₀, rfl⟩ := hNew
      cases walk_of_addChild hu h' with
      | inl hOld' =>
        have hLt := ht.lt_of_walk hOld'
        omega
      | inr hNew' =>
        obtain ⟨-, s₁, hs₁, rfl⟩ := hNew'
        rw [ht.walk_inj hs₀ hs₁]
  reached := by
    intro w h
    rw [addChild_length] at h
    by_cases hw : w < t.nodes.length
    · obtain ⟨s, hs⟩ := ht.reached hw
      exact ⟨s, addChild_walk hu hChild hs⟩
    obtain ⟨s, hs⟩ := ht.reached hu
    refine ⟨s ++ [ch], walk_snoc_eq_some.mpr ⟨u, addChild_walk hu hChild hs, ?_⟩⟩
    rw [addChild_child hu, if_pos ⟨rfl, rfl⟩]
    have hEq : t.nodes.length = w := by omega
    rw [hEq]

theorem addChild_isWord (hChild : t.child u ch = none)
    (s : List Nat) : (t.addChild u ch).IsWord s ↔ t.IsWord s := by
  constructor
  · intro h
    obtain ⟨w, hw, hPattern⟩ := h
    rw [addChild_pattern hu] at hPattern
    cases walk_of_addChild hu hw with
    | inl hOld => exact ⟨w, hOld, hPattern⟩
    | inr hNew =>
      rw [hNew.1, node, getD_eq_default _ _ (Nat.le_refl _)] at hPattern
      contradiction
  intro h
  obtain ⟨w, hw, hPattern⟩ := h
  refine ⟨w, addChild_walk hu hChild hw, ?_⟩
  rw [addChild_pattern hu]
  exact hPattern

end AddChild

/-! ## Insertion -/

theorem addChild_walk_new {ch : Nat} (hu : u < t.nodes.length) (hChild : t.child u ch = none)
    (hWalk : t.walk s = some u) : (t.addChild u ch).walk (s ++ [ch]) = some t.nodes.length :=
  walk_snoc_eq_some.mpr ⟨u, addChild_walk hu hChild hWalk, by
    rw [addChild_child hu, if_pos ⟨rfl, rfl⟩]⟩

/-- `insert` makes the path of the symbols and leaves the words as they are. -/
theorem insertPath_spec (ht : t.Tree) (hWalk : t.walk s = some u) (symbols : List Nat) :
    (t.insertPath u symbols).1.Tree ∧
      (t.insertPath u symbols).1.walk (s ++ symbols) = some (t.insertPath u symbols).2 ∧
      ∀ w, (t.insertPath u symbols).1.IsWord w ↔ t.IsWord w := by
  induction symbols generalizing t u s with
  | nil => exact ⟨ht, by simpa [insertPath] using hWalk, fun w => Iff.rfl⟩
  | cons ch symbols ih =>
    have hu := ht.lt_of_walk hWalk
    have hAppend : s ++ ch :: symbols = (s ++ [ch]) ++ symbols := by simp
    rw [hAppend]
    simp only [insertPath]
    cases hChild : t.child u ch with
    | none =>
      have hNew := addChild_walk_new hu hChild hWalk
      obtain ⟨hTree, hEnd, hWords⟩ := ih (addChild_tree ht hu hChild) hNew
      exact ⟨hTree, hEnd, fun w => (hWords w).trans (addChild_isWord hu hChild w)⟩
    | some v => exact ih ht (walk_snoc_eq_some.mpr ⟨u, hWalk, hChild⟩)

theorem markPattern_node (t : CommonTrie) (hu : u < t.nodes.length) (w : Nat) :
    ((t.markPattern u).node w).children = (t.node w).children ∧
      (((t.markPattern u).node w).pattern.isSome ↔ (t.node w).pattern.isSome ∨ w = u) := by
  simp only [markPattern]
  split
  next p hPattern =>
    refine ⟨rfl, Or.inl, ?_⟩
    intro h
    cases h with
    | inl hOld => exact hOld
    | inr hEq => simp [hEq, hPattern]
  next hPattern =>
    simp only [node]
    by_cases hEq : u = w
    · subst hEq
      simp [hu]
    · simp [hEq, Ne.symm hEq]

theorem markPattern_length (t : CommonTrie) (u : Nat) :
    (t.markPattern u).nodes.length = t.nodes.length := by
  simp only [markPattern]
  split
  · rfl
  · simp

theorem markPattern_child (t : CommonTrie) (hu : u < t.nodes.length) (w ch : Nat) :
    (t.markPattern u).child w ch = t.child w ch := by
  rw [child, (t.markPattern_node hu w).1, child]

theorem markPattern_walk (t : CommonTrie) (hu : u < t.nodes.length) (s : List Nat) :
    (t.markPattern u).walk s = t.walk s := by
  have hChild : (t.markPattern u).child = t.child := by
    funext w ch
    exact t.markPattern_child hu w ch
  rw [walk, hChild, walk]

theorem markPattern_tree (ht : t.Tree) (hu : u < t.nodes.length) : (t.markPattern u).Tree where
  nonempty := by
    rw [markPattern_length]
    exact ht.nonempty
  child_lt := by
    intro w ch v h
    rw [markPattern_child t hu] at h
    rw [markPattern_length]
    exact ht.child_lt h
  child_gt := by
    intro w ch v h
    rw [markPattern_child t hu] at h
    exact ht.child_gt h
  walk_inj := by
    intro s s' w h h'
    rw [markPattern_walk t hu] at h h'
    exact ht.walk_inj h h'
  reached := by
    intro w h
    rw [markPattern_length] at h
    obtain ⟨s, hs⟩ := ht.reached h
    exact ⟨s, (markPattern_walk t hu s).trans hs⟩

/-- The node of `s` becomes a word, and nothing else does. -/
theorem markPattern_isWord (ht : t.Tree) (hWalk : t.walk s = some u) (w : List Nat) :
    (t.markPattern u).IsWord w ↔ t.IsWord w ∨ w = s := by
  have hu := ht.lt_of_walk hWalk
  simp only [IsWord, markPattern_walk t hu, (t.markPattern_node hu _).2]
  constructor
  · intro h
    obtain ⟨v, hv, hPattern⟩ := h
    cases hPattern with
    | inl hOld => exact Or.inl ⟨v, hv, hOld⟩
    | inr hEq => exact Or.inr (ht.walk_inj (hEq ▸ hv) hWalk)
  intro h
  cases h with
  | inl hOld =>
    obtain ⟨v, hv, hPattern⟩ := hOld
    exact ⟨v, hv, Or.inl hPattern⟩
  | inr hEq => exact ⟨u, hEq ▸ hWalk, Or.inr rfl⟩

/-- `insert` keeps the tree and adds one word. -/
theorem insert_spec (ht : t.Tree) (symbols : List Nat) :
    (t.insert symbols).1.Tree ∧
      ∀ w, (t.insert symbols).1.IsWord w ↔ t.IsWord w ∨ w = symbols := by
  obtain ⟨hTree, hEnd, hWords⟩ := insertPath_spec ht (walk_nil t) symbols
  refine ⟨markPattern_tree hTree (hTree.lt_of_walk hEnd), ?_⟩
  intro w
  exact (markPattern_isWord hTree hEnd w).trans (or_congr_left (hWords w))

theorem insertAll_spec (ht : t.Tree) (ws : List (List Nat)) :
    (ws.foldl (fun t w => (t.insert w).1) t).Tree ∧
      ∀ w, (ws.foldl (fun t w => (t.insert w).1) t).IsWord w ↔ t.IsWord w ∨ w ∈ ws := by
  induction ws generalizing t with
  | nil => exact ⟨ht, by simp⟩
  | cons s ws ih =>
    obtain ⟨hTree, hWord⟩ := insert_spec ht s
    obtain ⟨hTree', hWords⟩ := ih hTree
    refine ⟨hTree', ?_⟩
    intro w
    rw [foldl_cons, hWords, hWord, mem_cons, or_assoc]

theorem build_tree (ws : List (List Nat)) : (build ws).Tree := (insertAll_spec root_tree ws).1

theorem build_isWord (ws : List (List Nat)) (w : List Nat) : (build ws).IsWord w ↔ w ∈ ws := by
  rw [build, (insertAll_spec root_tree ws).2]
  simp [root_not_isWord]

/-! ## The nodes of a trie -/

theorem addChild_isNode {u ch : Nat} (hu : u < t.nodes.length)
    (hChild : t.child u ch = none) (hWalk : t.walk s = some u) (ht : t.Tree)
    (w : List Nat) : (t.addChild u ch).IsNode w ↔ t.IsNode w ∨ w = s ++ [ch] := by
  constructor
  · intro h
    obtain ⟨v, hv⟩ := h
    cases walk_of_addChild hu hv with
    | inl hOld => exact Or.inl ⟨v, hOld⟩
    | inr hNew =>
      obtain ⟨-, s₀, hs₀, hEq⟩ := hNew
      rw [ht.walk_inj hs₀ hWalk] at hEq
      exact Or.inr hEq
  intro h
  cases h with
  | inl hOld =>
    obtain ⟨v, hv⟩ := hOld
    exact ⟨v, addChild_walk hu hChild hv⟩
  | inr hEq =>
    refine ⟨t.nodes.length, ?_⟩
    rw [hEq]
    refine walk_snoc_eq_some.mpr ⟨u, addChild_walk hu hChild hWalk, ?_⟩
    rw [addChild_child hu, if_pos ⟨rfl, rfl⟩]

/-- `insert` makes a node of every sequence on the path of the symbols. -/
theorem insertPath_isNode (ht : t.Tree) (hWalk : t.walk s = some u) (symbols w : List Nat) :
    (t.insertPath u symbols).1.IsNode w ↔ t.IsNode w ∨ s <+: w ∧ w <+: s ++ symbols := by
  induction symbols generalizing t u s with
  | nil =>
    constructor
    · exact Or.inl
    intro h
    cases h with
    | inl hOld => exact hOld
    | inr hBetween =>
      obtain ⟨hLow, hHigh⟩ := hBetween
      rw [append_nil] at hHigh
      rw [hHigh.eq_of_length_le hLow.length_le]
      exact ⟨u, hWalk⟩
  | cons ch symbols ih =>
    have hu := ht.lt_of_walk hWalk
    have hAppend : s ++ ch :: symbols = (s ++ [ch]) ++ symbols := by simp
    have hSplit : s <+: w ∧ w <+: s ++ ch :: symbols ↔
        w = s ∨ s ++ [ch] <+: w ∧ w <+: s ++ [ch] ++ symbols := by
      rw [← hAppend]
      constructor
      · intro h
        obtain ⟨⟨r, rfl⟩, hHigh⟩ := h
        cases r with
        | nil => exact Or.inl (append_nil s)
        | cons c r =>
          have hTail := (prefix_append_right_inj s).mp hHigh
          have hc : c = ch := (cons_prefix_cons.mp hTail).1
          refine Or.inr ⟨⟨r, ?_⟩, hHigh⟩
          simp [hc]
      intro h
      cases h with
      | inl hEq => exact ⟨by rw [hEq], by rw [hEq]; exact prefix_append s _⟩
      | inr hBetween => exact ⟨(prefix_append s [ch]).trans hBetween.1, hBetween.2⟩
    rw [hSplit]
    simp only [insertPath]
    cases hChild : t.child u ch with
    | none =>
      have hNew := addChild_walk_new hu hChild hWalk
      rw [ih (addChild_tree ht hu hChild) hNew, addChild_isNode hu hChild hWalk ht]
      constructor
      · rintro ((hOld | hEq) | hBetween)
        · exact Or.inl hOld
        · exact Or.inr (Or.inr ⟨by rw [hEq], by rw [hEq]; exact prefix_append _ _⟩)
        · exact Or.inr (Or.inr hBetween)
      rintro (hOld | hEq | hBetween)
      · exact Or.inl (Or.inl hOld)
      · exact Or.inl (Or.inl ⟨u, hEq ▸ hWalk⟩)
      · exact Or.inr hBetween
    | some v =>
      rw [ih ht (walk_snoc_eq_some.mpr ⟨u, hWalk, hChild⟩)]
      constructor
      · rintro (hOld | hBetween)
        · exact Or.inl hOld
        · exact Or.inr (Or.inr hBetween)
      rintro (hOld | hEq | hBetween)
      · exact Or.inl hOld
      · exact Or.inl ⟨u, hEq ▸ hWalk⟩
      · exact Or.inr hBetween

theorem insert_isNode (ht : t.Tree) (symbols w : List Nat) :
    (t.insert symbols).1.IsNode w ↔ t.IsNode w ∨ w <+: symbols := by
  obtain ⟨hTree, hEnd, -⟩ := insertPath_spec ht (walk_nil t) symbols
  have hu := hTree.lt_of_walk hEnd
  have hPath := insertPath_isNode ht (walk_nil t) symbols w
  have hNil : ([] : List Nat) <+: w := nil_prefix
  rw [nil_append, and_iff_right hNil] at hPath
  rw [← hPath]
  show (∃ v, ((t.insertPath 0 symbols).1.markPattern _).walk w = some v) ↔ _
  rw [markPattern_walk _ hu]
  exact Iff.rfl

/-- The nodes of a trie are the starts of what was inserted. -/
theorem build_isNode (ws : List (List Nat)) (s : List Nat) :
    (build ws).IsNode s ↔ s = [] ∨ ∃ w ∈ ws, s <+: w := by
  induction ws using reverseRecOn with
  | nil =>
    show root.IsNode s ↔ _
    have hRoot : root.IsNode s ↔ s = [] := by
      constructor
      · intro h
        obtain ⟨v, hv⟩ := h
        obtain rfl | ⟨s', c, rfl⟩ := eq_nil_or_concat s
        · rfl
        · rw [concat_eq_append, root_walk_snoc] at hv
          contradiction
      · intro h
        exact ⟨0, by rw [h]; rfl⟩
    simpa using hRoot
  | append_singleton ws x ih =>
    have hBuild : build (ws ++ [x]) = ((build ws).insert x).1 := by
      rw [build, foldl_append]
      rfl
    rw [hBuild, insert_isNode (build_tree ws), ih]
    simp [or_assoc]

/-! ## The index of a pattern -/

/-- The pattern of the node a sequence leads to. -/
def patternOf (t : CommonTrie) (s : List Nat) : Option Nat :=
  (t.walk s).bind fun u => (t.node u).pattern

theorem patternOf_eq (h : t.walk s = some u) : t.patternOf s = (t.node u).pattern := by
  rw [patternOf, h]
  rfl

theorem isWord_iff (t : CommonTrie) (s : List Nat) : t.IsWord s ↔ (t.patternOf s).isSome := by
  cases hWalk : t.walk s with
  | none => simp [IsWord, patternOf, hWalk]
  | some u => simp [IsWord, patternOf, hWalk]

theorem insertPath_patternOf (ht : t.Tree) (hWalk : t.walk s = some u) (symbols w : List Nat) :
    (t.insertPath u symbols).1.patternOf w = t.patternOf w ∧
      (t.insertPath u symbols).1.nPatterns = t.nPatterns := by
  induction symbols generalizing t u s with
  | nil => exact ⟨rfl, rfl⟩
  | cons ch symbols ih =>
    have hu := ht.lt_of_walk hWalk
    simp only [insertPath]
    cases hChild : t.child u ch with
    | some v => exact ih ht (walk_snoc_eq_some.mpr ⟨u, hWalk, hChild⟩)
    | none =>
      have hNew := addChild_walk_new hu hChild hWalk
      obtain ⟨hSame, hCount⟩ := ih (addChild_tree ht hu hChild) hNew
      refine ⟨?_, hCount⟩
      rw [hSame]
      cases hw : (t.addChild u ch).walk w with
      | some v =>
        rw [patternOf_eq hw, addChild_pattern hu]
        cases walk_of_addChild hu hw with
        | inl hOld => rw [patternOf_eq hOld]
        | inr hFresh =>
          have hNone : t.walk w = none := by
            cases hOld : t.walk w with
            | none => rfl
            | some v' =>
              rw [addChild_walk hu hChild hOld] at hw
              have hLt := ht.lt_of_walk hOld
              have hEq : v' = v := by simpa using hw
              omega
          rw [patternOf, hNone, hFresh.1, node, getD_eq_default _ _ (Nat.le_refl _)]
          rfl
      | none =>
        have hNone : t.walk w = none := by
          cases hOld : t.walk w with
          | none => rfl
          | some v' =>
            rw [addChild_walk hu hChild hOld] at hw
            contradiction
        rw [patternOf, patternOf, hw, hNone]
        rfl

theorem markPattern_of_none (h : (t.node u).pattern = none) :
    t.markPattern u =
      { nodes := t.nodes.modify u (fun n => { n with pattern := some t.nPatterns })
        nPatterns := t.nPatterns + 1 } := by
  rw [markPattern, h]

theorem markPattern_of_some {u p : Nat} (h : (t.node u).pattern = some p) :
    t.markPattern u = t := by
  rw [markPattern, h]

/-- The node of `s` takes the next index, unless it has one. -/
theorem markPattern_patternOf (ht : t.Tree) (hWalk : t.walk s = some u) (w : List Nat) :
    (t.markPattern u).patternOf w =
      if t.patternOf s = none ∧ w = s then some t.nPatterns else t.patternOf w := by
  have hu := ht.lt_of_walk hWalk
  rw [patternOf, markPattern_walk t hu, patternOf_eq hWalk]
  cases hPattern : (t.node u).pattern with
  | some p =>
    rw [markPattern_of_some hPattern, if_neg (by simp), patternOf]
  | none =>
    rw [markPattern_of_none hPattern]
    simp only [node]
    by_cases hEq : w = s
    · simp [hEq, hWalk, hu]
    rw [if_neg (by simp [hEq]), patternOf]
    cases hw : t.walk w with
    | none => rfl
    | some v =>
      have hNe : u ≠ v := by
        intro hSame
        exact hEq (ht.walk_inj hw (hSame ▸ hWalk))
      simp [hNe, node]

theorem markPattern_nPatterns (t : CommonTrie) (u : Nat) :
    (t.markPattern u).nPatterns =
      if (t.node u).pattern = none then t.nPatterns + 1 else t.nPatterns := by
  cases hPattern : (t.node u).pattern with
  | none => rw [markPattern_of_none hPattern, if_pos rfl]
  | some p => rw [markPattern_of_some hPattern, if_neg (by simp)]

theorem insert_patternOf (ht : t.Tree) (symbols w : List Nat) :
    (t.insert symbols).1.patternOf w =
        (if t.patternOf symbols = none ∧ w = symbols then some t.nPatterns else t.patternOf w) ∧
      (t.insert symbols).1.nPatterns =
        if t.patternOf symbols = none then t.nPatterns + 1 else t.nPatterns := by
  obtain ⟨hTree, hEnd, -⟩ := insertPath_spec ht (walk_nil t) symbols
  rw [nil_append] at hEnd
  have hPath := fun w => insertPath_patternOf ht (walk_nil t) symbols w
  constructor
  · show ((t.insertPath 0 symbols).1.markPattern _).patternOf w = _
    rw [markPattern_patternOf hTree hEnd, (hPath symbols).1, (hPath w).1, (hPath w).2]
  · show ((t.insertPath 0 symbols).1.markPattern _).nPatterns = _
    rw [markPattern_nPatterns, ← patternOf_eq hEnd, (hPath symbols).1, (hPath w).2]

/-- Patterns are numbered in the order in which the sequences came first. -/
theorem build_patternOf (ws : List (List Nat)) :
    (build ws).nPatterns = ws.eraseDups.length ∧
      ∀ s p, (build ws).patternOf s = some p ↔ ws.eraseDups[p]? = some s := by
  induction ws using reverseRecOn with
  | nil =>
    refine ⟨rfl, ?_⟩
    intro s p
    have hNone : root.patternOf s = none := by
      have h := (not_congr (isWord_iff root s)).mp (root_not_isWord s)
      simpa using h
    show root.patternOf s = some p ↔ _
    simp [hNone]
  | append_singleton ws x ih =>
    obtain ⟨hCount, hAt⟩ := ih
    have hBuild : build (ws ++ [x]) = ((build ws).insert x).1 := by
      rw [build, foldl_append]
      rfl
    have hInsert := insert_patternOf (build_tree ws) x
    have hKnown : (build ws).patternOf x = none ↔ x ∉ ws := by
      rw [← Option.not_isSome_iff_eq_none, ← isWord_iff, build_isWord]
    rw [hBuild, (hInsert x).2, hCount]
    by_cases hMem : x ∈ ws
    · have hSome : ¬(build ws).patternOf x = none := fun h => hKnown.mp h hMem
      have hSame : (ws ++ [x]).eraseDups = ws.eraseDups := by
        rw [eraseDups_append, removeAll]
        simp [hMem]
      rw [if_neg hSome, hSame]
      refine ⟨rfl, ?_⟩
      intro s p
      rw [(hInsert s).1, if_neg (fun h => hSome h.1)]
      exact hAt s p
    have hNone := hKnown.mpr hMem
    have hSnoc : (ws ++ [x]).eraseDups = ws.eraseDups ++ [x] := by
      rw [eraseDups_append, removeAll]
      simp [hMem, eraseDups_cons]
    rw [if_pos hNone, hSnoc, length_append]
    refine ⟨rfl, ?_⟩
    intro s p
    rw [(hInsert s).1, hCount]
    by_cases hEq : s = x
    · subst hEq
      rw [if_pos ⟨hNone, rfl⟩, getElem?_append]
      constructor
      · intro h
        have hp : ws.eraseDups.length = p := by simpa using h
        simp [← hp]
      intro h
      split at h
      next hLt =>
        exact absurd (mem_eraseDups.mp (mem_of_getElem? h)) hMem
      next hGe =>
        have hp := (List.getElem?_eq_some_iff.mp h).1
        rw [length_singleton] at hp
        congr 1
        omega
    rw [if_neg (fun h => hEq h.2), hAt, getElem?_append]
    split
    next => exact Iff.rfl
    next hGe =>
      rw [getElem?_eq_none (Nat.le_of_not_lt hGe)]
      constructor
      · intro h
        contradiction
      intro h
      have hIn := mem_of_getElem? h
      exact absurd (mem_singleton.mp hIn) hEq

end CommonTrie

end Beellama.Ports
