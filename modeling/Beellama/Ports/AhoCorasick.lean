import Beellama.Ports.Trie
import Mathlib.Data.List.Perm.Subperm

/-!
# The Aho-Corasick automaton (`common_aho_corasick`)

The automaton of `src/common/trie.cpp`.  A state stands for its `label`, the symbols on its path from
the root, and its failure link is its longest proper suffix that is a state; breadth first, the links
of shorter states are final before they are followed.  So the automaton stands at the longest suffix
of its input that is a state (`next_spec`).
-/

namespace Beellama.Ports

open Beellama.Verified List Option OrderedMap LongestSuffix

namespace CommonTrie

/-- `while (f && no child of f for ch) f = fail[f]` -/
def follow (t : CommonTrie) (fail : List Nat) (ch : Nat) : Nat → Nat → Nat
  | 0, f => f
  | fuel + 1, f =>
    if f ≠ 0 ∧ t.child f ch = none then follow t fail ch fuel (fail.getD f 0) else f

/-- Where the automaton goes from a state: the child where the failure links
stop, or the root. -/
def nextState (t : CommonTrie) (fail : List Nat) (state ch : Nat) : Nat :=
  (t.child (t.follow fail ch t.nodes.length state) ch).getD 0

end CommonTrie

/-- The variables of the breadth-first loop of the constructor. -/
structure AcBuild where
  fail : List Nat
  queue : List Nat
  order : List Nat

namespace AcBuild

/-- The body of the loop over the children `(ch, v)` of `u`. -/
def visitChild (t : CommonTrie) (u : Nat) (b : AcBuild) (e : Nat × Nat) : AcBuild :=
  let target := t.nextState b.fail (b.fail.getD u 0) e.1
  { b with
    fail := if u ≠ 0 then b.fail.set e.2 (if target ≠ e.2 then target else 0) else b.fail
    queue := b.queue ++ [e.2] }

/-- One turn of the loop: `u` leaves the queue. -/
def visit (t : CommonTrie) (b : AcBuild) (u : Nat) (rest : List Nat) : AcBuild :=
  (t.node u).children.entries.foldl (visitChild t u)
    { b with queue := rest, order := b.order ++ [u] }

/-- The loop, until the queue is empty. -/
def run (t : CommonTrie) : Nat → AcBuild → AcBuild
  | 0, b => b
  | fuel + 1, b =>
    match b.queue with
    | [] => b
    | u :: rest => run t fuel (b.visit t u rest)

def start (t : CommonTrie) : AcBuild := ⟨List.replicate t.nodes.length 0, [0], []⟩

end AcBuild

/-- `common_aho_corasick` -/
structure CommonAhoCorasick where
  t : CommonTrie
  fail : List Nat
  order : List Nat
  /-- `match`, -1 is `none` -/
  matched : List (Option Nat)
  alphabet : OrderedMap Nat Unit

namespace CommonAhoCorasick

/-- The body of the loop over `order` that fills `match`. -/
def fillMatch (t : CommonTrie) (fail : List Nat) (matched : List (Option Nat)) (u : Nat) :
    List (Option Nat) :=
  matched.set u
    (match (t.node u).pattern with
      | some p => some p
      | none => if u ≠ 0 then matched.getD (fail.getD u 0) none else none)

/-- Every symbol with a transition. -/
def alphabetOf (t : CommonTrie) : OrderedMap Nat Unit :=
  (t.nodes.flatMap fun n => n.children.keys).foldl (fun set ch => set.insert ch ()) .empty

/-- The constructor. -/
def ofTrie (t : CommonTrie) : CommonAhoCorasick :=
  let b := (AcBuild.start t).run t (t.nodes.length + 1)
  { t := t
    fail := b.fail
    order := b.order
    matched := b.order.foldl (fillMatch t b.fail) (List.replicate t.nodes.length none)
    alphabet := alphabetOf t }

def matchPattern (ac : CommonAhoCorasick) (s : Nat) : Option Nat := ac.matched.getD s none

def isTerminal (ac : CommonAhoCorasick) (s : Nat) : Bool := (ac.matchPattern s).isSome

def next (ac : CommonAhoCorasick) (state ch : Nat) : Nat := ac.t.nextState ac.fail state ch

end CommonAhoCorasick

/-! ## Labels and failure links -/

variable {w : List Nat} {t : CommonTrie}

namespace CommonTrie

open Classical in
/-- The symbols on the path from the root to a node. -/
noncomputable def label (t : CommonTrie) (u : Nat) : List Nat :=
  if h : ∃ s, t.walk s = some u then h.choose else []

namespace Tree

variable {t : CommonTrie} {u v ch : Nat} {s : List Nat}

variable (ht : t.Tree) (hu : u < t.nodes.length)

include ht hu

theorem walk_label : t.walk (t.label u) = some u := by
  have hEx := ht.reached hu
  rw [label, dif_pos hEx]
  exact hEx.choose_spec

omit hu in
theorem label_eq (h : t.walk s = some u) : t.label u = s :=
  ht.walk_inj (ht.walk_label (ht.lt_of_walk h)) h

theorem label_inj (hv : v < t.nodes.length) (h : t.label u = t.label v) : u = v := by
  have hWalk := ht.walk_label hu
  rw [h, ht.walk_label hv] at hWalk
  exact (some.inj hWalk).symm

omit hu in
@[simp] theorem label_root : t.label 0 = [] := ht.label_eq (walk_nil t)

theorem eq_root_of_label (h : t.label u = []) : u = 0 :=
  ht.label_inj hu ht.nonempty (by rw [h, ht.label_root])

theorem label_child (h : t.child u ch = some v) : t.label v = t.label u ++ [ch] :=
  ht.label_eq (walk_snoc_eq_some.mpr ⟨u, ht.walk_label hu, h⟩)

theorem isNode_label : t.IsNode (t.label u) :=
  ⟨u, ht.walk_label hu⟩

theorem isNode_snoc : t.IsNode (t.label u ++ [ch]) ↔ ∃ v, t.child u ch = some v := by
  constructor
  · intro h
    obtain ⟨v, hv⟩ := h
    obtain ⟨w, hw, hChild⟩ := walk_snoc_eq_some.mp hv
    rw [ht.walk_label hu] at hw
    exact ⟨v, some.inj hw ▸ hChild⟩
  intro h
  obtain ⟨v, hv⟩ := h
  exact ⟨v, walk_snoc_eq_some.mpr ⟨u, ht.walk_label hu, hv⟩⟩

end Tree

/-- The failure link of `u` is its longest proper suffix that is a node. -/
def FailAt (t : CommonTrie) (fail : List Nat) (u : Nat) : Prop :=
  fail.getD u 0 < t.nodes.length ∧
    LongestSuffix t.IsNode (t.label u).tail (t.label (fail.getD u 0))

variable {fail : List Nat} {f : Nat}

/-- The failure links are followed to the longest suffix that continues with the
symbol, when the links of all nodes that are no longer are final. -/
theorem follow_spec (ht : t.Tree) {ch : Nat} (fuel : Nat) (hf : f < t.nodes.length)
    (hFail : ∀ u < t.nodes.length, (t.label u).length ≤ (t.label f).length → t.FailAt fail u)
    (hFuel : (t.label f).length ≤ fuel) (hBound : SuffixBound t.IsNode w ch (t.label f)) :
    t.follow fail ch fuel f < t.nodes.length ∧
      SuffixBound t.IsNode w ch (t.label (t.follow fail ch fuel f)) ∧
      (t.follow fail ch fuel f = 0 ∨ t.child (t.follow fail ch fuel f) ch ≠ none) := by
  induction fuel generalizing f with
  | zero =>
    have hNil : t.label f = [] := length_eq_zero_iff.mp (Nat.le_zero.mp hFuel)
    exact ⟨hf, hBound, Or.inl (ht.eq_root_of_label hf hNil)⟩
  | succ fuel ih =>
    simp only [follow]
    split
    next hGo =>
      obtain ⟨hRoot, hChild⟩ := hGo
      obtain ⟨hLt, hLongest⟩ := hFail f hf (Nat.le_refl _)
      have hNe : t.label f ≠ [] := fun h => hRoot (ht.eq_root_of_label hf h)
      have hShort := hLongest.suffix.length_le
      rw [length_tail] at hShort
      have hStop : ¬t.IsNode (t.label f ++ [ch]) := by
        intro h
        obtain ⟨v, hv⟩ := (ht.isNode_snoc hf).mp h
        rw [hChild] at hv
        contradiction
      refine ih hLt ?_ (by omega) (hBound.fail t.prefixClosed hStop hLongest)
      intro u hu hLen
      exact hFail u hu (by omega)
    next hGo =>
      refine ⟨hf, hBound, ?_⟩
      by_cases hRoot : f = 0
      · exact Or.inl hRoot
      · exact Or.inr fun hChild => hGo ⟨hRoot, hChild⟩

/-- `nextState` is the longest suffix with one more symbol. -/
theorem nextState_spec (ht : t.Tree) (hf : f < t.nodes.length)
    (hFail : ∀ u < t.nodes.length, (t.label u).length ≤ (t.label f).length → t.FailAt fail u)
    (hLongest : LongestSuffix t.IsNode w (t.label f)) (ch : Nat) :
    t.nextState fail f ch < t.nodes.length ∧
      LongestSuffix t.IsNode (w ++ [ch]) (t.label (t.nextState fail f ch)) := by
  have hFuel : (t.label f).length ≤ t.nodes.length := by
    have hLe := ht.length_le (ht.walk_label hf)
    omega
  have hStart : SuffixBound t.IsNode w ch (t.label f) := hLongest.suffixBound t.prefixClosed
  obtain ⟨hLt, hBound, hStop⟩ := follow_spec ht t.nodes.length hf hFail hFuel hStart
  simp only [nextState]
  cases hChild : t.child (t.follow fail ch t.nodes.length f) ch with
  | some v =>
    have hNode := (ht.isNode_snoc hLt).mpr ⟨v, hChild⟩
    rw [getD_some, ht.label_child hLt hChild]
    exact ⟨ht.child_lt hChild, hBound.found hNode⟩
  | none =>
    cases hStop with
    | inr hNe => exact absurd hChild hNe
    | inl hRoot =>
      rw [hRoot] at hBound hChild
      have hNot : ¬t.IsNode [ch] := by
        intro h
        have h' : t.IsNode (t.label 0 ++ [ch]) := by simpa [ht.label_root] using h
        obtain ⟨v, hv⟩ := (ht.isNode_snoc ht.nonempty).mp h'
        rw [hChild] at hv
        contradiction
      rw [ht.label_root] at hBound
      rw [getD_none, ht.label_root]
      exact ⟨ht.nonempty, hBound.stuck t.prefixClosed hNot⟩

end CommonTrie

/-! ## The breadth-first order -/

open CommonTrie

namespace AcBuild

/-- The loop over the children of `u`, with `pending` still to come: the list is ordered by depth,
its failure links are final, and it is closed under the children visited. -/
structure Inv (t : CommonTrie) (u : Nat) (pending : List (Nat × Nat)) (b : AcBuild) : Prop where
  fail_length : b.fail.length = t.nodes.length
  lt : ∀ x ∈ b.order ++ b.queue, x < t.nodes.length
  nodup : (b.order ++ b.queue).Nodup
  root : 0 ∈ b.order ++ b.queue
  closed : ∀ x ∈ b.order, ∀ ch v, t.child x ch = some v →
    v ∈ b.order ++ b.queue ∨ x = u ∧ (ch, v) ∈ pending
  parent : ∀ x ∈ b.order ++ b.queue, x ≠ 0 → ∃ p ∈ b.order, ∃ ch, t.child p ch = some x
  sorted : (b.order ++ b.queue).Pairwise fun x y => (t.label x).length ≤ (t.label y).length
  low : ∀ x ∈ b.queue, (t.label u).length ≤ (t.label x).length
  high : ∀ x ∈ b.order ++ b.queue, (t.label x).length ≤ (t.label u).length + 1
  fails : ∀ x ∈ b.order ++ b.queue, t.FailAt b.fail x
  unset : ∀ x, x ∉ b.order ++ b.queue → b.fail.getD x 0 = 0

/-- The pending children of `u` are new. -/
structure Fresh (t : CommonTrie) (u : Nat) (pending : List (Nat × Nat)) (b : AcBuild) : Prop where
  mem : u ∈ b.order
  child : ∀ e ∈ pending, t.child u e.1 = some e.2
  fresh : ∀ e ∈ pending, e.2 ∉ b.order ++ b.queue
  nodup : (pending.map Prod.snd).Nodup

variable {t : CommonTrie} {b : AcBuild} {u : Nat} {pending : List (Nat × Nat)}

variable {x : Nat}

variable (ht : t.Tree)

include ht

/-- Every node that lies no deeper than `u` is listed. -/
theorem Inv.covered (h : Inv t u pending b) {s : List Nat}
    (hWalk : t.walk s = some x) (hLen : s.length ≤ (t.label u).length) :
    x ∈ b.order ++ b.queue := by
  induction s using reverseRecOn generalizing x with
  | nil =>
    have hx : 0 = x := by simpa using hWalk
    exact hx ▸ h.root
  | append_singleton s ch ih =>
    rw [length_append, length_singleton] at hLen
    obtain ⟨p, hp, hChild⟩ := walk_snoc_eq_some.mp hWalk
    have hLabel := ht.label_eq hp
    cases mem_append.mp (ih hp (by omega)) with
    | inl hOrder =>
      cases h.closed p hOrder ch x hChild with
      | inl hMem => exact hMem
      | inr hPending =>
        rw [hPending.1] at hLabel
        rw [hLabel] at hLen
        omega
    | inr hQueue =>
      have hLow := h.low p hQueue
      rw [hLabel] at hLow
      omega

/-- The failure links of all nodes no deeper than `u` are final. -/
theorem Inv.failAt (h : Inv t u pending b) (hx : x < t.nodes.length)
    (hLen : (t.label x).length ≤ (t.label u).length) : t.FailAt b.fail x :=
  h.fails x (h.covered ht (ht.walk_label hx) hLen)

variable {ch v : Nat}

/-- The link that the loop computes for a child of `u`. -/
theorem Inv.childLink (h : Inv t u pending b) (hu : u < t.nodes.length)
    (hNe : u ≠ 0) (hChild : t.child u ch = some v) :
    t.nextState b.fail (b.fail.getD u 0) ch < t.nodes.length ∧
      LongestSuffix t.IsNode (t.label v).tail
        (t.label (t.nextState b.fail (b.fail.getD u 0) ch)) ∧
      t.nextState b.fail (b.fail.getD u 0) ch ≠ v := by
  obtain ⟨hLt, hLongest⟩ := h.failAt ht hu (Nat.le_refl _)
  have hLabelNe : t.label u ≠ [] := fun hNil => hNe (ht.eq_root_of_label hu hNil)
  have hPos := length_pos_of_ne_nil hLabelNe
  have hShort := hLongest.suffix.length_le
  rw [length_tail] at hShort
  have hFails : ∀ x < t.nodes.length,
      (t.label x).length ≤ (t.label (b.fail.getD u 0)).length → t.FailAt b.fail x := by
    intro x hx hLen
    exact h.failAt ht hx (by omega)
  have hNext := nextState_spec ht (w := (t.label u).tail) (f := b.fail.getD u 0) hLt hFails hLongest
  have hTail : (t.label v).tail = (t.label u).tail ++ [ch] := by
    rw [ht.label_child hu hChild, tail_append_of_ne_nil hLabelNe]
  rw [hTail]
  refine ⟨(hNext ch).1, (hNext ch).2, ?_⟩
  intro hEq
  have hLe := (hNext ch).2.suffix.length_le
  rw [hEq, ht.label_child hu hChild] at hLe
  simp only [length_append, length_tail, length_singleton] at hLe
  omega

theorem visitChild_failAt (h : Inv t u pending b) (hu : u < t.nodes.length)
    (hChild : t.child u ch = some v) (hx : x ∈ b.order ++ b.queue ∨ x = v)
    (hNew : v ∉ b.order ++ b.queue) : t.FailAt (b.visitChild t u (ch, v)).fail x := by
  have hv := ht.child_lt hChild
  have hvFail : v < b.fail.length := by
    rw [h.fail_length]
    exact hv
  simp only [visitChild]
  by_cases hRoot : u = 0
  · -- the links of the root's children stay at the root
    rw [if_neg (by simpa using hRoot)]
    cases hx with
    | inl hOld => exact h.fails x hOld
    | inr hEq =>
      subst hEq
      have hLabel : (t.label x).tail = [] := by
        rw [ht.label_child hu hChild, hRoot, ht.label_root]
        rfl
      rw [FailAt, h.unset x hNew, hLabel, ht.label_root]
      exact ⟨ht.nonempty, nil t.prefixClosed⟩
  rw [if_pos hRoot]
  obtain ⟨hLt, hLongest, hNe⟩ := h.childLink ht hu hRoot hChild
  rw [if_pos hNe]
  by_cases hEq : x = v
  · subst hEq
    simp only [FailAt, getD_eq_getElem?_getD, getElem?_set_self hvFail, getD_some]
    exact ⟨hLt, hLongest⟩
  have hOld : x ∈ b.order ++ b.queue := by
    cases hx with
    | inl hMem => exact hMem
    | inr hEq' => exact absurd hEq' hEq
  have hFail := h.fails x hOld
  simp only [FailAt, getD_eq_getElem?_getD, getElem?_set_ne (Ne.symm hEq)] at hFail ⊢
  exact hFail

omit ht in
theorem visitChild_listed (t : CommonTrie) (u : Nat) (b : AcBuild) (e : Nat × Nat) :
    (b.visitChild t u e).order ++ (b.visitChild t u e).queue = b.order ++ b.queue ++ [e.2] := by
  simp [visitChild]

theorem visitChild_inv (h : Inv t u ((ch, v) :: pending) b)
    (hFresh : Fresh t u ((ch, v) :: pending) b) : Inv t u pending (b.visitChild t u (ch, v)) := by
  have hu := h.lt u (mem_append_left _ hFresh.mem)
  have hChild : t.child u ch = some v := hFresh.child (ch, v) mem_cons_self
  have hNew : v ∉ b.order ++ b.queue := hFresh.fresh (ch, v) mem_cons_self
  have hv := ht.child_lt hChild
  have hDepth : (t.label v).length = (t.label u).length + 1 := by
    rw [ht.label_child hu hChild, length_append, length_singleton]
  have hListed := visitChild_listed t u b (ch, v)
  have hMem : ∀ x, x ∈ (b.visitChild t u (ch, v)).order ++ (b.visitChild t u (ch, v)).queue ↔
      x ∈ b.order ++ b.queue ∨ x = v := by
    intro x
    rw [hListed, mem_append, mem_singleton]
  exact {
    fail_length := by
      simp only [visitChild]
      split
      · rw [length_set]
        exact h.fail_length
      · exact h.fail_length
    lt := by
      intro x hx
      cases (hMem x).mp hx with
      | inl hOld => exact h.lt x hOld
      | inr hEq => rw [hEq]; exact hv
    nodup := by
      rw [hListed]
      refine nodup_append.mpr ⟨h.nodup, by simp, ?_⟩
      intro x hx y hy hEq
      rw [hEq, mem_singleton.mp hy] at hx
      exact hNew hx
    root := (hMem 0).mpr (Or.inl h.root)
    closed := by
      intro x hx ch' v' hChild'
      cases h.closed x hx ch' v' hChild' with
      | inl hOld => exact Or.inl ((hMem v').mpr (Or.inl hOld))
      | inr hPending =>
        cases mem_cons.mp hPending.2 with
        | inl hEq =>
          have hEq' : v' = v := congrArg Prod.snd hEq
          exact Or.inl ((hMem v').mpr (Or.inr hEq'))
        | inr hRest => exact Or.inr ⟨hPending.1, hRest⟩
    parent := by
      intro x hx hRoot
      cases (hMem x).mp hx with
      | inl hOld => exact h.parent x hOld hRoot
      | inr hEq => exact ⟨u, hFresh.mem, ch, hEq ▸ hChild⟩
    sorted := by
      rw [hListed]
      refine pairwise_append.mpr ⟨h.sorted, pairwise_singleton _ _, ?_⟩
      intro x hx y hy
      rw [mem_singleton.mp hy, hDepth]
      exact h.high x hx
    low := by
      intro x hx
      have hx' : x ∈ b.queue ++ [v] := hx
      cases mem_append.mp hx' with
      | inl hOld => exact h.low x hOld
      | inr hEq =>
        rw [mem_singleton.mp hEq, hDepth]
        omega
    high := by
      intro x hx
      cases (hMem x).mp hx with
      | inl hOld => exact h.high x hOld
      | inr hEq => rw [hEq, hDepth]
    fails := by
      intro x hx
      exact visitChild_failAt ht h hu hChild ((hMem x).mp hx) hNew
    unset := by
      intro x hx
      have hNot := mt (hMem x).mpr hx
      rw [not_or] at hNot
      have hOld := h.unset x hNot.1
      simp only [visitChild]
      split
      · rw [getD_eq_getElem?_getD, getElem?_set_ne (Ne.symm hNot.2),
          ← getD_eq_getElem?_getD]
        exact hOld
      · exact hOld }

omit ht in
theorem visitChild_fresh (hFresh : Fresh t u ((ch, v) :: pending) b) :
    Fresh t u pending (b.visitChild t u (ch, v)) where
  mem := hFresh.mem
  child := fun e he => hFresh.child e (mem_cons_of_mem _ he)
  fresh := by
    intro e he
    rw [visitChild_listed, mem_append, mem_singleton, not_or]
    have hNodup := hFresh.nodup
    rw [map_cons, nodup_cons] at hNodup
    refine ⟨hFresh.fresh e (mem_cons_of_mem _ he), ?_⟩
    intro hEq
    exact hNodup.1 (mem_map.mpr ⟨e, he, hEq⟩)
  nodup := by
    have hNodup := hFresh.nodup
    rw [map_cons, nodup_cons] at hNodup
    exact hNodup.2

theorem visitChildren_inv (h : Inv t u pending b) (hFresh : Fresh t u pending b) :
    Inv t u [] (pending.foldl (visitChild t u) b) := by
  induction pending generalizing b with
  | nil => exact h
  | cons e pending ih => exact ih (visitChild_inv ht h hFresh) (visitChild_fresh hFresh)

variable {rest : List Nat}

omit ht in
theorem pop_inv (h : Inv t u [] b) (hQueue : b.queue = x :: rest) :
    Inv t x (t.node x).children.entries { b with queue := rest, order := b.order ++ [x] } := by
  have hListed : b.order ++ [x] ++ rest = b.order ++ b.queue := by
    rw [hQueue]
    simp
  have hx : x ∈ b.queue := by
    rw [hQueue]
    exact mem_cons_self
  have hLow := h.low x hx
  exact {
    fail_length := h.fail_length
    lt := by
      show ∀ y ∈ b.order ++ [x] ++ rest, y < t.nodes.length
      rw [hListed]
      exact h.lt
    nodup := by
      show (b.order ++ [x] ++ rest).Nodup
      rw [hListed]
      exact h.nodup
    root := by
      show 0 ∈ b.order ++ [x] ++ rest
      rw [hListed]
      exact h.root
    closed := by
      show ∀ y ∈ b.order ++ [x], ∀ ch v, t.child y ch = some v →
        v ∈ b.order ++ [x] ++ rest ∨ y = x ∧ (ch, v) ∈ (t.node x).children.entries
      intro y hy ch v hChild
      rw [hListed]
      cases mem_append.mp hy with
      | inl hOrder =>
        cases h.closed y hOrder ch v hChild with
        | inl hOld => exact Or.inl hOld
        | inr hPending => simp at hPending
      | inr hEq =>
        have hyx := mem_singleton.mp hEq
        rw [hyx] at hChild
        exact Or.inr ⟨hyx, mem_entries.mpr hChild⟩
    parent := by
      show ∀ y ∈ b.order ++ [x] ++ rest, y ≠ 0 → ∃ p ∈ b.order ++ [x], ∃ ch, t.child p ch = some y
      rw [hListed]
      intro y hy hRoot
      obtain ⟨p, hp, hChild⟩ := h.parent y hy hRoot
      exact ⟨p, mem_append_left _ hp, hChild⟩
    sorted := by
      show (b.order ++ [x] ++ rest).Pairwise fun y z => (t.label y).length ≤ (t.label z).length
      rw [hListed]
      exact h.sorted
    low := by
      have hSorted := (pairwise_append.mp h.sorted).2.1
      rw [hQueue, pairwise_cons] at hSorted
      exact hSorted.1
    high := by
      show ∀ y ∈ b.order ++ [x] ++ rest, (t.label y).length ≤ (t.label x).length + 1
      rw [hListed]
      intro y hy
      have hHigh := h.high y hy
      omega
    fails := by
      show ∀ y ∈ b.order ++ [x] ++ rest, t.FailAt b.fail y
      rw [hListed]
      exact h.fails
    unset := by
      show ∀ y, y ∉ b.order ++ [x] ++ rest → b.fail.getD y 0 = 0
      rw [hListed]
      exact h.unset }

theorem pop_fresh (h : Inv t u [] b) (hQueue : b.queue = x :: rest) :
    Fresh t x (t.node x).children.entries { b with queue := rest, order := b.order ++ [x] } := by
  have hx : x ∈ b.order ++ b.queue := by
    rw [hQueue]
    simp
  have hxLt := h.lt x hx
  exact {
    mem := mem_append_right _ (mem_singleton_self x)
    child := fun e he => mem_entries.mp he
    fresh := by
      intro e he hMem
      have hChild : t.child x e.1 = some e.2 := mem_entries.mp he
      have hMem' : e.2 ∈ b.order ++ b.queue := by
        rw [hQueue]
        simpa using hMem
      have hGt := ht.child_gt hChild
      -- a listed node has its parent in the order, but `x` still was in the queue
      obtain ⟨p, hp, ch, hParent⟩ := h.parent e.2 hMem' (by omega)
      have hpLt := h.lt p (mem_append_left _ hp)
      have hLabel := ht.label_child hxLt hChild
      rw [ht.label_child hpLt hParent] at hLabel
      have hEq : p = x := ht.label_inj hpLt hxLt (append_inj_left' hLabel rfl)
      have hDisjoint := (nodup_append.mp h.nodup).2.2 p hp x (by rw [hQueue]; simp)
      exact hDisjoint hEq
    nodup := by
      rw [List.Nodup, pairwise_map]
      refine List.Pairwise.imp_of_mem ?_ (t.node x).children.sorted
      intro e e' he he' hLt hEq
      have hLabel := ht.label_child hxLt (mem_entries.mp he)
      rw [hEq, ht.label_child hxLt (mem_entries.mp he')] at hLabel
      have hChar := append_inj_right' hLabel rfl
      have hSame : e'.1 = e.1 := by simpa using hChar
      omega }

theorem visit_inv (h : Inv t u [] b)
    (hQueue : b.queue = x :: rest) : Inv t x [] (b.visit t x rest) :=
  visitChildren_inv ht (pop_inv h hQueue) (pop_fresh ht h hQueue)

omit ht

theorem visitChildren_order (t : CommonTrie) (u : Nat) (pending : List (Nat × Nat)) (b : AcBuild) :
    (pending.foldl (visitChild t u) b).order = b.order := by
  induction pending generalizing b with
  | nil => rfl
  | cons e pending ih => exact ih (b.visitChild t u e)

theorem Inv.order_length (h : Inv t u pending b) : b.order.length ≤ t.nodes.length := by
  have hNodup := (nodup_append.mp h.nodup).1
  have hSub : b.order ⊆ range t.nodes.length := by
    intro x hx
    exact mem_range.mpr (h.lt x (mem_append_left _ hx))
  have hLe := (subperm_of_subset hNodup hSub).length_le
  rwa [length_range] at hLe

/-- The loop ends with an empty queue: every turn lists one more node. -/
theorem run_spec (ht : t.Tree) (fuel : Nat) (h : Inv t u [] b)
    (hFuel : t.nodes.length < fuel + b.order.length) :
    (b.run t fuel).queue = [] ∧ ∃ u', Inv t u' [] (b.run t fuel) := by
  induction fuel generalizing b u with
  | zero =>
    have hLe := h.order_length
    omega
  | succ fuel ih =>
    simp only [run]
    split
    next hQueue => exact ⟨hQueue, u, h⟩
    next x rest hQueue =>
      refine ih (visit_inv ht h hQueue) ?_
      rw [visit, visitChildren_order, length_append, length_singleton]
      omega

theorem start_inv (ht : t.Tree) : Inv t 0 [] (start t) where
  fail_length := length_replicate
  lt := by
    intro x hx
    rw [show x = 0 from by simpa [start] using hx]
    exact ht.nonempty
  nodup := by simp [start]
  root := by simp [start]
  closed := by simp [start]
  parent := by
    intro x hx hRoot
    exact absurd (by simpa [start] using hx) hRoot
  sorted := by simp [start]
  low := by simp [start, ht.label_root]
  high := by simp [start, ht.label_root]
  fails := by
    intro x hx
    have hx0 : x = 0 := by simpa [start] using hx
    have hFail : (start t).fail.getD 0 0 = 0 := by simp [start]
    rw [FailAt, hx0, hFail, ht.label_root]
    exact ⟨ht.nonempty, nil t.prefixClosed⟩
  unset := by
    intro x _
    simp only [start, getD_eq_getElem?_getD, getElem?_replicate]
    split
    · rfl
    · rfl

/-- What the constructor has when its loop ends. -/
structure Built (t : CommonTrie) (b : AcBuild) : Prop where
  mem_order : ∀ x < t.nodes.length, x ∈ b.order
  lt : ∀ x ∈ b.order, x < t.nodes.length
  nodup : b.order.Nodup
  sorted : b.order.Pairwise fun x y => (t.label x).length ≤ (t.label y).length
  fails : ∀ x < t.nodes.length, t.FailAt b.fail x

theorem built (ht : t.Tree) : Built t ((start t).run t (t.nodes.length + 1)) := by
  obtain ⟨hQueue, u, h⟩ := run_spec ht (t.nodes.length + 1) (start_inv ht) (by omega)
  generalize (start t).run t (t.nodes.length + 1) = b at hQueue h
  have hListed : b.order ++ b.queue = b.order := by rw [hQueue, append_nil]
  have hAll : ∀ s x, t.walk s = some x → x ∈ b.order := by
    intro s
    induction s using reverseRecOn with
    | nil =>
      intro x hWalk
      have hx : 0 = x := by simpa using hWalk
      rw [← hx, ← hListed]
      exact h.root
    | append_singleton s ch ih =>
      intro x hWalk
      obtain ⟨p, hp, hChild⟩ := walk_snoc_eq_some.mp hWalk
      cases h.closed p (ih p hp) ch x hChild with
      | inl hMem => exact hListed ▸ hMem
      | inr hPending => simp at hPending
  have hMem : ∀ x < t.nodes.length, x ∈ b.order := fun x hx => hAll _ x (ht.walk_label hx)
  exact {
    mem_order := hMem
    lt := fun x hx => h.lt x (mem_append_left _ hx)
    nodup := hListed ▸ h.nodup
    sorted := hListed ▸ h.sorted
    fails := fun x hx => h.fails x (mem_append_left _ (hMem x hx)) }

end AcBuild

/-! ## The pattern at each state -/

namespace CommonTrie

/-- `o` is the pattern of the longest word that ends `s`, `none` when no word
does. -/
def LongestPattern (t : CommonTrie) (s : List Nat) : Option Nat → Prop
  | none => ∀ w, t.IsWord w → ¬w <:+ s
  | some p => ∃ w v, t.walk w = some v ∧ (t.node v).pattern = some p ∧ w <:+ s ∧
      ∀ w', t.IsWord w' → w' <:+ s → w'.length ≤ w.length

variable {o : Option Nat}

theorem LongestPattern.isSome_iff {s : List Nat}
    (h : t.LongestPattern s o) : o.isSome ↔ ∃ w, t.IsWord w ∧ w <:+ s := by
  cases o with
  | none =>
    constructor
    · intro hNone
      contradiction
    intro hEx
    obtain ⟨w, hWord, hSuffix⟩ := hEx
    exact absurd hSuffix (h w hWord)
  | some p =>
    obtain ⟨w, v, hWalk, hPattern, hSuffix, -⟩ := h
    exact iff_of_true rfl ⟨w, ⟨v, hWalk, by rw [hPattern]; rfl⟩, hSuffix⟩

/-- A word that ends `s` ends the longest suffix of `s` that is a node. -/
theorem IsWord.suffix_longest {s u : List Nat} (hWord : t.IsWord w)
    (hLongest : LongestSuffix t.IsNode s u) : w <:+ s ↔ w <:+ u := by
  obtain ⟨v, hWalk, -⟩ := hWord
  constructor
  · exact hLongest.suffix_of_mem ⟨v, hWalk⟩
  · exact fun h => h.trans hLongest.suffix

theorem LongestPattern.of_longest {s u : List Nat}
    (hLongest : LongestSuffix t.IsNode s u) (h : t.LongestPattern u o) : t.LongestPattern s o := by
  cases o with
  | none =>
    intro w hWord
    rw [hWord.suffix_longest hLongest]
    exact h w hWord
  | some p =>
    obtain ⟨w, v, hWalk, hPattern, hSuffix, hLong⟩ := h
    refine ⟨w, v, hWalk, hPattern, hSuffix.trans hLongest.suffix, ?_⟩
    intro w' hWord hSuffix'
    exact hLong w' hWord ((hWord.suffix_longest hLongest).mp hSuffix')

/-- The pattern of a node is its own, or that of its longest proper suffix. -/
theorem longestPattern_fail (ht : t.Tree) {u : Nat} {f : List Nat}
    (hu : u < t.nodes.length) (hNone : (t.node u).pattern = none)
    (hLongest : LongestSuffix t.IsNode (t.label u).tail f) (h : t.LongestPattern f o) :
    t.LongestPattern (t.label u) o := by
  -- no word is the whole label, so the words that end it end its tail
  have hTail : ∀ w, t.IsWord w → w <:+ t.label u → w <:+ (t.label u).tail := by
    intro w hWord hSuffix
    obtain ⟨v, hWalk, hPattern⟩ := hWord
    have hNe : w ≠ t.label u := by
      intro hEq
      rw [hEq, ht.walk_label hu] at hWalk
      rw [← some.inj hWalk, hNone] at hPattern
      contradiction
    have hLen : w.length ≠ (t.label u).length := fun hEq => hNe (hSuffix.eq_of_length hEq)
    have hLe := hSuffix.length_le
    exact suffix_tail_of_lt suffix_rfl hSuffix (by omega)
  have hAt := h.of_longest hLongest
  cases o with
  | none =>
    intro w hWord hSuffix
    exact hAt w hWord (hTail w hWord hSuffix)
  | some p =>
    obtain ⟨w, v, hWalk, hPattern, hSuffix, hLong⟩ := hAt
    refine ⟨w, v, hWalk, hPattern, hSuffix.trans (tail_suffix _), ?_⟩
    intro w' hWord hSuffix'
    exact hLong w' hWord (hTail w' hWord hSuffix')

theorem longestPattern_self (ht : t.Tree) {u p : Nat}
    (hu : u < t.nodes.length) (hPattern : (t.node u).pattern = some p) :
    t.LongestPattern (t.label u) (some p) :=
  ⟨t.label u, u, ht.walk_label hu, hPattern, suffix_rfl, fun _ _ h => h.length_le⟩

/-- No word ends the empty sequence unless it is a word itself. -/
theorem longestPattern_root (hNone : (t.node 0).pattern = none) : t.LongestPattern [] none := by
  intro w hWord hSuffix
  obtain ⟨v, hWalk, hPattern⟩ := hWord
  rw [suffix_nil.mp hSuffix, walk_nil] at hWalk
  rw [← some.inj hWalk, hNone] at hPattern
  contradiction

end CommonTrie

namespace CommonAhoCorasick

theorem fillMatch_length (t : CommonTrie) (fail : List Nat) (matched : List (Option Nat))
    (u : Nat) : (fillMatch t fail matched u).length = matched.length := by
  rw [fillMatch, length_set]

/-- The loop fills the patterns in breadth-first order, failure links first. -/
theorem fillMatches_spec (ht : t.Tree) {b : AcBuild} (hBuilt : b.Built t)
    {done todo : List Nat} (hOrder : b.order = done ++ todo) {matched : List (Option Nat)}
    (hLength : matched.length = t.nodes.length)
    (hDone : ∀ x ∈ done, t.LongestPattern (t.label x) (matched.getD x none)) :
    ∀ x ∈ b.order, t.LongestPattern (t.label x)
      ((todo.foldl (fillMatch t b.fail) matched).getD x none) := by
  induction todo generalizing done matched with
  | nil =>
    rw [hOrder, append_nil]
    exact hDone
  | cons u todo ih =>
    have hMem : u ∈ b.order := by
      rw [hOrder]
      simp
    have hu := hBuilt.lt u hMem
    have hSet : ∀ o, (matched.set u o).getD u none = o := by
      intro o
      rw [getD_eq_getElem?_getD, getElem?_set_self (by omega), getD_some]
    have hUnset : ∀ o, ∀ x ∈ done, (matched.set u o).getD x none = matched.getD x none := by
      intro o x hx
      have hNodup := hBuilt.nodup
      rw [hOrder] at hNodup
      have hNe := (nodup_append.mp hNodup).2.2 x hx u mem_cons_self
      rw [getD_eq_getElem?_getD, getElem?_set_ne (Ne.symm hNe),
        ← getD_eq_getElem?_getD]
    have hNew : t.LongestPattern (t.label u) ((fillMatch t b.fail matched u).getD u none) := by
      rw [fillMatch, hSet]
      cases hPattern : (t.node u).pattern with
      | some p => exact longestPattern_self ht hu hPattern
      | none =>
        show t.LongestPattern (t.label u)
          (if u ≠ 0 then matched.getD (b.fail.getD u 0) none else none)
        by_cases hRoot : u = 0
        · rw [if_neg (by simpa using hRoot), hRoot, ht.label_root]
          exact longestPattern_root (hRoot ▸ hPattern)
        rw [if_pos hRoot]
        obtain ⟨hLt, hLongest⟩ := hBuilt.fails u hu
        refine longestPattern_fail ht hu hPattern hLongest (hDone _ ?_)
        -- the link is shorter than `u`, so it came before it
        have hNe : t.label u ≠ [] := fun hNil => hRoot (ht.eq_root_of_label hu hNil)
        have hPos := length_pos_of_ne_nil hNe
        have hShort := hLongest.suffix.length_le
        rw [length_tail] at hShort
        have hFail := hBuilt.mem_order _ hLt
        rw [hOrder] at hFail
        have hSorted := hBuilt.sorted
        rw [hOrder] at hSorted
        cases mem_append.mp hFail with
        | inl hBefore => exact hBefore
        | inr hAfter =>
          have hRest := (pairwise_append.mp hSorted).2.1
          cases mem_cons.mp hAfter with
          | inl hEq =>
            rw [hEq] at hShort
            omega
          | inr hLater =>
            have hLe := (pairwise_cons.mp hRest).1 _ hLater
            omega
    have hOrder' : b.order = (done ++ [u]) ++ todo := by
      rw [hOrder]
      simp
    refine ih hOrder' ?_ ?_
    · rw [fillMatch_length]
      exact hLength
    intro x hx
    cases mem_append.mp hx with
    | inl hOld =>
      rw [fillMatch, hUnset _ x hOld]
      exact hDone x hOld
    | inr hEq =>
      rw [mem_singleton.mp hEq]
      exact hNew

/-! ## The automaton -/

section OfTrie

variable {t : CommonTrie}

variable (ht : t.Tree)

include ht

theorem ofTrie_fails {u : Nat} (hu : u < t.nodes.length) :
    t.FailAt (ofTrie t).fail u := (AcBuild.built ht).fails u hu

/-- `match_pattern` is the pattern of the longest word that ends at the state. -/
theorem matchPattern_spec {u : Nat} (hu : u < t.nodes.length) :
    t.LongestPattern (t.label u) ((ofTrie t).matchPattern u) := by
  have hBuilt := AcBuild.built ht
  have hStart : ∀ x ∈ ([] : List Nat), t.LongestPattern (t.label x)
      ((replicate t.nodes.length (none : Option Nat)).getD x none) := by
    intro x hx
    contradiction
  exact fillMatches_spec ht hBuilt (nil_append _).symm length_replicate hStart u
    (hBuilt.mem_order u hu)

variable {q : Nat}

/-- The automaton stands at the longest suffix of its input that is a node. -/
theorem next_spec (hq : q < t.nodes.length)
    (hLongest : LongestSuffix t.IsNode w (t.label q)) (ch : Nat) :
    (ofTrie t).next q ch < t.nodes.length ∧
      LongestSuffix t.IsNode (w ++ [ch]) (t.label ((ofTrie t).next q ch)) :=
  nextState_spec ht hq (fun _ hu _ => ofTrie_fails ht hu) hLongest ch

/-- A state is terminal when the input that leads to it ends with a word. -/
theorem isTerminal_iff (hq : q < t.nodes.length) (hLongest : LongestSuffix t.IsNode w (t.label q)) :
    (ofTrie t).isTerminal q ↔ ∃ s, t.IsWord s ∧ s <:+ w :=
  ((matchPattern_spec ht hq).of_longest hLongest).isSome_iff

/-- The loop of `next` is over: no failure link is left to follow for the symbol. -/
def Stopped (ac : CommonAhoCorasick) (state ch : Nat) : Prop :=
  let f := ac.t.follow ac.fail ch ac.t.nodes.length state
  ¬(f ≠ 0 ∧ ac.t.child f ch = none)

/-- `next` ends its loop from every state. -/
theorem next_stopped (hq : q < t.nodes.length) (ch : Nat) : (ofTrie t).Stopped q ch := by
  have hFuel : (t.label q).length ≤ t.nodes.length := by
    have hLe := ht.length_le (ht.walk_label hq)
    omega
  have hStart : SuffixBound t.IsNode (t.label q) ch (t.label q) :=
    (self (ht.isNode_label hq)).suffixBound t.prefixClosed
  have hFollow := follow_spec ht t.nodes.length hq (fun _ hu _ => ofTrie_fails ht hu) hFuel hStart
  show ¬(t.follow (ofTrie t).fail ch t.nodes.length q ≠ 0 ∧ _)
  intro h
  cases hFollow.2.2 with
  | inl hRoot => exact h.1 hRoot
  | inr hChild => exact hChild h.2

theorem foldl_next_spec (w : List Nat) :
    w.foldl (ofTrie t).next 0 < t.nodes.length ∧
      LongestSuffix t.IsNode w (t.label (w.foldl (ofTrie t).next 0)) := by
  induction w using reverseRecOn with
  | nil =>
    show 0 < t.nodes.length ∧ LongestSuffix t.IsNode [] (t.label 0)
    rw [ht.label_root]
    exact ⟨ht.nonempty, nil t.prefixClosed⟩
  | append_singleton w ch ih =>
    rw [foldl_append]
    exact next_spec ht ih.1 ih.2 ch

end OfTrie

/-- Over every input the automaton of the sequences `ws` ends each of its loops,
stands at the longest suffix of the input that starts one of them, and
`match_pattern` is the longest one that ends the input.  Patterns are numbered in
the order in which the sequences came first. -/
theorem foldl_next_longest (ws : List (List Nat)) (w : List Nat) :
    (∀ v ch, v ++ [ch] <+: w →
        (ofTrie (build ws)).Stopped (v.foldl (ofTrie (build ws)).next 0) ch) ∧
      (∃ s, (ofTrie (build ws)).t.walk s = some (w.foldl (ofTrie (build ws)).next 0) ∧
        s <:+ w ∧ (s = [] ∨ ∃ x ∈ ws, s <+: x) ∧
        ∀ s', s' <:+ w → (∃ x ∈ ws, s' <+: x) → s'.length ≤ s.length) ∧
      match (ofTrie (build ws)).matchPattern (w.foldl (ofTrie (build ws)).next 0) with
      | none => ∀ x ∈ ws, ¬x <:+ w
      | some p => ∃ x, ws.eraseDups[p]? = some x ∧ x <:+ w ∧
          ∀ y ∈ ws, y <:+ w → y.length ≤ x.length := by
  have ht := build_tree ws
  obtain ⟨hq, hLongest⟩ := foldl_next_spec ht w
  refine ⟨?_, ?_, ?_⟩
  · intro v ch _
    exact next_stopped ht (foldl_next_spec ht v).1 ch
  · refine ⟨_, ht.walk_label hq, hLongest.suffix, ?_, ?_⟩
    · exact (build_isNode ws _).mp (ht.isNode_label hq)
    · intro s' hSuffix hStarts
      exact hLongest.longest ((build_isNode ws s').mpr (Or.inr hStarts)) hSuffix
  have hPattern := (matchPattern_spec ht hq).of_longest hLongest
  generalize (ofTrie (build ws)).matchPattern (w.foldl (ofTrie (build ws)).next 0) = pattern
    at hPattern ⊢
  cases pattern with
  | none =>
    intro x hx
    exact hPattern x ((build_isWord ws x).mpr hx)
  | some p =>
    obtain ⟨x, u, hWalk, hAt, hSuffix, hLong⟩ := hPattern
    refine ⟨x, ?_, hSuffix, ?_⟩
    · rw [← (build_patternOf ws).2, patternOf_eq hWalk]
      exact hAt
    · intro y hy hEnds
      exact hLong y ((build_isWord ws y).mpr hy) hEnds

/-- `he`, `she`, `his`, `hers` and `he` again: `ushe` ends with the second. -/
example : (ofTrie (build [[1, 2], [3, 1, 2], [1, 4, 3], [1, 2, 5, 3], [1, 2]])).matchPattern
    ([6, 3, 1, 2].foldl (ofTrie (build [[1, 2], [3, 1, 2], [1, 4, 3], [1, 2, 5, 3],
      [1, 2]])).next 0) = some 1 := by decide

end CommonAhoCorasick

end Beellama.Ports
