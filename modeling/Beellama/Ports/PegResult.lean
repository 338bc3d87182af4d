import Beellama.Ports.Peg

/-!
# Results of the PEG executor are well formed

The nodes of a result that is not a failure lie one behind the other in its span, and the children of
a node in the span of the node (`Spans`).  A parse only adds nodes to the arena (`Spans.mono`).  A
node is partial only where it is the last of its siblings, and so is everything above it.
-/

namespace Beellama.Ports

open Peg PegResult List Option

namespace Peg

variable {ctx : PegContext} {ast ast' : PegAst} {lo mid hi : Nat}

/-- `input[start, stop)` -/
def slice (input : List UInt8) (start stop : Nat) : List UInt8 :=
  (input.drop start).take (stop - start)

/-- The nodes lie between `lo` and `hi`, ordered and disjoint, and their children within them; only
the last may be partial, where `mayEnd` says so. -/
inductive Spans (ctx : PegContext) (ast : PegAst) : Bool → Nat → Nat → List Nat → Prop
  | nil {mayEnd : Bool} {lo hi : Nat} (hLe : lo ≤ hi) : Spans ctx ast mayEnd lo hi []
  | cons {mayEnd : Bool} {lo hi id : Nat} {rest : List Nat} {node : PegAstNode}
      (hNode : ast[id]? = some node) (hLo : lo ≤ node.start)
      (hText : node.text = slice ctx.input node.start node.stop)
      (hIds : ∀ child ∈ node.children, child < id)
      (hPartial : node.isPartial = true → mayEnd = true ∧ rest = [])
      (hChildren : Spans ctx ast (mayEnd && rest.isEmpty) node.start node.stop node.children)
      (hRest : Spans ctx ast mayEnd node.stop hi rest) : Spans ctx ast mayEnd lo hi (id :: rest)

variable {mayEnd : Bool} {nodes : List Nat}

namespace Spans

theorem le (h : Spans ctx ast mayEnd lo hi nodes) : lo ≤ hi := by
  induction h with
  | nil hLe => exact hLe
  | cons _ hLo _ _ _ _ _ ihChildren ihRest => omega

theorem mono (hGrows : ast <+: ast')
    (h : Spans ctx ast mayEnd lo hi nodes) : Spans ctx ast' mayEnd lo hi nodes := by
  induction h with
  | nil hLe => exact Spans.nil hLe
  | cons hNode hLo hText hIds hPartial _ _ ihChildren ihRest =>
    refine Spans.cons ?_ hLo hText hIds hPartial ihChildren ihRest
    obtain ⟨more, rfl⟩ := hGrows
    rw [List.getElem?_append_left (List.getElem?_eq_some_iff.mp hNode).1]
    exact hNode

theorem weaken (h : Spans ctx ast false lo hi nodes) : Spans ctx ast mayEnd lo hi nodes := by
  generalize hFlag : false = flag at h
  induction h generalizing mayEnd with
  | nil hLe => exact Spans.nil hLe
  | cons hNode hLo hText hIds hPartial _ _ ihChildren ihRest =>
    subst hFlag
    refine Spans.cons hNode hLo hText hIds ?_ (ihChildren rfl) (ihRest rfl)
    intro hTrue
    exact absurd (hPartial hTrue).1 (by simp)

theorem append {nodes' : List Nat} (h : Spans ctx ast false lo mid nodes)
    (h' : Spans ctx ast mayEnd mid hi nodes') : Spans ctx ast mayEnd lo hi (nodes ++ nodes') := by
  generalize hFlag : false = flag at h
  induction h with
  | @nil _ lo mid hLe =>
    cases h' with
    | nil hLe' => exact Spans.nil (Nat.le_trans hLe hLe')
    | cons hNode hLo hText hIds hPartial hChildren hRest =>
      exact Spans.cons hNode (Nat.le_trans hLe hLo) hText hIds hPartial hChildren hRest
  | cons hNode hLo hText hIds hPartial hChildren _ _ ihRest =>
    subst hFlag
    refine Spans.cons hNode hLo hText hIds ?_ hChildren.weaken (ihRest h' rfl)
    intro hTrue
    exact absurd (hPartial hTrue).1 (by simp)

theorem lt_length (h : Spans ctx ast mayEnd lo hi nodes) : ∀ id ∈ nodes, id < ast.length := by
  induction h with
  | nil => simp
  | cons hNode _ _ _ _ _ _ _ ihRest =>
    intro x hx
    rcases mem_cons.mp hx with rfl | hMem
    · exact (List.getElem?_eq_some_iff.mp hNode).1
    · exact ihRest x hMem

end Spans

/-- What a parse from `start` may answer, and do to the arena. -/
structure Fine (ctx : PegContext) (start : Nat) (ast : PegAst) (r : PegResult × PegAst) : Prop where
  grows : ast <+: r.2
  spans : r.1.type ≠ .fail → r.1.start = start ∧ r.1.stop ≤ ctx.input.length ∧
    Spans ctx r.2 (r.1.type = .needMoreInput) start r.1.stop r.1.nodes

/-! ## Parsers without children -/

/-- A result without nodes whose span is in the input. -/
structure Leaf (ctx : PegContext) (start : Nat) (r : PegResult) : Prop where
  nodes : r.nodes = []
  bounds : r.type ≠ .fail → r.start = start ∧ start ≤ r.stop ∧ r.stop ≤ ctx.input.length

variable {start : Nat}

theorem Leaf.fine {r : PegResult} (h : Leaf ctx start r) : Fine ctx start ast (r, ast) where
  grows := prefix_rfl
  spans := by
    intro hType
    obtain ⟨hStart, hLe, hStop⟩ := h.bounds hType
    refine ⟨hStart, hStop, ?_⟩
    rw [h.nodes]
    exact Spans.nil hLe

variable {stop : Nat}

theorem leaf_fail : Leaf ctx start (span .fail start stop) :=
  ⟨rfl, fun h => absurd rfl h⟩

theorem leaf_here (type : PegResultType) (hStart : start ≤ ctx.input.length) :
    Leaf ctx start (here type start) :=
  ⟨rfl, fun _ => ⟨rfl, Nat.le_refl start, hStart⟩⟩

theorem leaf_span (type : PegResultType) (hLe : start ≤ stop)
    (hStop : stop ≤ ctx.input.length) : Leaf ctx start (span type start stop) :=
  ⟨rfl, fun _ => ⟨rfl, hLe, hStop⟩⟩

variable {pos : Nat}

theorem literalLoop_leaf (literal : List UInt8) (hLe : start ≤ pos)
    (hPos : pos ≤ ctx.input.length) : Leaf ctx start (literalLoop ctx start literal pos) := by
  induction literal generalizing pos with
  | nil => exact leaf_span _ hLe hPos
  | cons c literal ih =>
    simp only [literalLoop]
    split
    next =>
      split
      · exact leaf_span _ hLe hPos
      · exact leaf_fail
    next b hAt =>
      have hLt := (List.getElem?_eq_some_iff.mp hAt).1
      split
      · exact leaf_fail
      · exact ih (by omega) (by omega)

theorem parseAny_leaf (hStart : start ≤ ctx.input.length) :
    Leaf ctx start (parseAny ctx start) := by
  simp only [parseAny]
  split
  next =>
    split
    · exact leaf_here _ hStart
    · exact leaf_fail
  next => exact leaf_fail
  next bytes hCode =>
    have hBounds := codepoint_bounds hCode
    exact leaf_span _ (by omega) hBounds.2

theorem skipSpace_bounds (rest : List UInt8) (pos : Nat) :
    pos ≤ skipSpace rest pos ∧ skipSpace rest pos ≤ pos + rest.length := by
  induction rest generalizing pos with
  | nil => simp [skipSpace]
  | cons c rest ih =>
    have hNext := ih (pos + 1)
    simp only [skipSpace, length_cons]
    split <;> omega

theorem parseSpace_leaf (hStart : start ≤ ctx.input.length) :
    Leaf ctx start (parseSpace ctx start) := by
  have hBounds := skipSpace_bounds (ctx.input.drop start) start
  rw [length_drop] at hBounds
  exact leaf_span _ hBounds.1 (by omega)

variable {matchCount : Nat}

theorem charsFinish_leaf (minCount : Int) (hLe : start ≤ pos) (hPos : pos ≤ ctx.input.length) :
    Leaf ctx start (charsFinish ctx start minCount pos matchCount) := by
  simp only [charsFinish]
  split
  · split
    · exact leaf_span _ hLe hPos
    · exact leaf_fail
  · exact leaf_span _ hLe hPos

theorem charsLoop_leaf (ranges : List CharRange) (negated : Bool)
    (minCount maxCount : Int) (fuel : Nat) (hLe : start ≤ pos) (hPos : pos ≤ ctx.input.length) :
    Leaf ctx start (charsLoop ctx start ranges negated minCount maxCount fuel pos matchCount) := by
  induction fuel generalizing pos matchCount with
  | zero => exact charsFinish_leaf minCount hLe hPos
  | succ fuel ih =>
    simp only [charsLoop]
    split
    next =>
      split
      next =>
        split
        · exact leaf_span _ hLe hPos
        split
        · exact leaf_span _ hLe hPos
        · exact leaf_fail
      next =>
        split
        · exact leaf_span _ hLe hPos
        · exact leaf_fail
      next codepoint bytes hCode =>
        have hBounds := codepoint_bounds hCode
        split
        · exact ih (by omega) hBounds.2
        · exact charsFinish_leaf minCount hLe hPos
    next => exact charsFinish_leaf minCount hLe hPos

/-- An escape sequence leaves the position that its result ends at. -/
structure Escape (ctx : PegContext) (start pos : Nat) (r : PegResult × Nat) : Prop where
  leaf : Leaf ctx start r.1
  success : r.1.type = .success → pos < r.2 ∧ r.2 ≤ ctx.input.length

theorem unicodeEscapeLoop_escape {start before : Nat} (n : Nat) (hLe : start ≤ pos)
    (hBefore : before < pos) (hPos : pos ≤ ctx.input.length) :
    Escape ctx start before (unicodeEscapeLoop ctx start n pos) := by
  induction n generalizing pos with
  | zero => exact ⟨leaf_span _ hLe hPos, fun _ => ⟨hBefore, hPos⟩⟩
  | succ n ih =>
    simp only [unicodeEscapeLoop]
    split
    next =>
      split
      · exact ⟨leaf_span _ hLe hPos, fun h => by contradiction⟩
      · exact ⟨leaf_fail, fun h => by contradiction⟩
    next c hAt =>
      have hLt := (List.getElem?_eq_some_iff.mp hAt).1
      split
      · exact ih (by omega) (by omega) (by omega)
      · exact ⟨leaf_fail, fun h => by contradiction⟩

theorem handleEscapeSequence_escape (delimiter : UInt8) (hLe : start ≤ pos)
    (hPos : pos < ctx.input.length) :
    Escape ctx start pos (handleEscapeSequence ctx start pos delimiter) := by
  simp only [handleEscapeSequence]
  split
  next =>
    split
    · exact ⟨leaf_span _ hLe (by omega), fun h => by contradiction⟩
    · exact ⟨leaf_fail, fun h => by contradiction⟩
  next c hAt =>
    have hLt := (List.getElem?_eq_some_iff.mp hAt).1
    split
    next =>
      refine ⟨leaf_span _ (by omega) (by omega), fun _ => ?_⟩
      omega
    next =>
      split
      next =>
        split
        · exact ⟨leaf_span _ hLe (by omega), fun h => by contradiction⟩
        · exact unicodeEscapeLoop_escape 4 (by omega) (by omega) (by omega)
      next => exact ⟨leaf_fail, fun h => by contradiction⟩

theorem stringLoop_leaf (delimiter : UInt8) (fuel : Nat) (hLe : start ≤ pos)
    (hPos : pos ≤ ctx.input.length) : Leaf ctx start (stringLoop ctx start delimiter fuel pos) := by
  induction fuel generalizing pos with
  | zero => exact leaf_fail
  | succ fuel ih =>
    simp only [stringLoop]
    split
    next => exact leaf_span _ hLe hPos
    next c hAt =>
      have hLt := (List.getElem?_eq_some_iff.mp hAt).1
      split
      next => exact leaf_span _ hLe hPos
      next =>
        split
        next =>
          have hEscape := handleEscapeSequence_escape delimiter hLe hLt
          split
          next hSuccess =>
            have hBounds := hEscape.success hSuccess
            exact ih (by omega) hBounds.2
          next => exact hEscape.leaf
        next =>
          split
          next =>
            split
            · exact leaf_span _ hLe hPos
            · exact leaf_fail
          next => exact leaf_fail
          next bytes hCode =>
            have hBounds := codepoint_bounds hCode
            exact ih (by omega) hBounds.2

theorem untilLoop_leaf (matcher : CommonTrie) (fuel : Nat) (hLe : start ≤ pos)
    (hPos : pos ≤ ctx.input.length) : Leaf ctx start (untilLoop ctx matcher start fuel pos) := by
  induction fuel generalizing pos with
  | zero => exact leaf_fail
  | succ fuel ih =>
    simp only [untilLoop]
    split
    next =>
      split
      next =>
        split
        · exact leaf_span _ hLe hPos
        · exact leaf_fail
      next => exact leaf_fail
      next bytes hCode =>
        have hBounds := codepoint_bounds hCode
        split
        · exact leaf_span _ hLe hPos
        · exact leaf_span _ hLe hPos
        · exact ih (by omega) hBounds.2
    next =>
      split
      · exact leaf_span _ hLe hPos
      · exact leaf_span _ hLe hPos

/-! ## Parsers with children -/

variable {parse : PegParse} {start : Nat}

/-- The parses of the children are fine. -/
def FineParse (ctx : PegContext) (parse : PegParse) : Prop :=
  ∀ id ast start r, start ≤ ctx.input.length → parse id ast start = some r → Fine ctx start ast r

variable {r : PegResult × PegAst} {children : List Nat}

section

variable (hParse : FineParse ctx parse)

include hParse

theorem sequenceLoop_fine (hPos : pos ≤ ctx.input.length)
    (hNodes : Spans ctx ast false start pos nodes)
    (h : sequenceLoop parse start children pos nodes ast = some r) : Fine ctx start ast r := by
  induction children generalizing pos nodes ast with
  | nil =>
    simp only [sequenceLoop, some.injEq] at h
    subst h
    exact ⟨prefix_rfl, fun _ => ⟨rfl, hPos, hNodes⟩⟩
  | cons child children ih =>
    simp only [sequenceLoop, bind_eq_bind] at h
    cases hChild : parse child ast pos with
    | none =>
      rw [hChild] at h
      contradiction
    | some r₁ =>
      obtain ⟨result, ast₁⟩ := r₁
      rw [hChild, bind_some] at h
      obtain ⟨hGrows, hSpans⟩ := hParse child ast pos _ hPos hChild
      simp only at h hGrows hSpans
      split at h
      next =>
        rw [some.injEq] at h
        subst h
        exact ⟨hGrows, fun hType => absurd rfl hType⟩
      next hMore =>
        rw [some.injEq] at h
        subst h
        obtain ⟨-, hStop, hSpans⟩ := hSpans (by simp [hMore])
        rw [hMore] at hSpans
        exact ⟨hGrows, fun _ => ⟨rfl, hStop, (hNodes.mono hGrows).append hSpans⟩⟩
      next hSuccess =>
        obtain ⟨-, hStop, hSpans⟩ := hSpans (by simp [hSuccess])
        rw [hSuccess] at hSpans
        obtain ⟨hGrows', hFine⟩ := ih hStop ((hNodes.mono hGrows).append hSpans) h
        exact ⟨hGrows.trans hGrows', hFine⟩

theorem choiceLoop_fine (hStart : start ≤ ctx.input.length)
    (h : choiceLoop parse start children ast = some r) : Fine ctx start ast r := by
  induction children generalizing ast with
  | nil =>
    simp only [choiceLoop, some.injEq] at h
    subst h
    exact leaf_fail.fine
  | cons child children ih =>
    simp only [choiceLoop, bind_eq_bind] at h
    cases hChild : parse child ast start with
    | none =>
      rw [hChild] at h
      contradiction
    | some r₁ =>
      obtain ⟨result, ast₁⟩ := r₁
      rw [hChild, bind_some] at h
      have hFine := hParse child ast start _ hStart hChild
      split at h
      next =>
        obtain ⟨hGrows, hSpans⟩ := ih h
        exact ⟨hFine.grows.trans hGrows, hSpans⟩
      next =>
        rw [some.injEq] at h
        exact h ▸ hFine

omit hParse in
theorem repetitionFinish_fine (minCount : Int)
    (hPos : pos ≤ ctx.input.length) (hNodes : Spans ctx ast false start pos nodes) :
    Fine ctx start ast (repetitionFinish ctx start minCount pos matchCount nodes, ast) := by
  simp only [repetitionFinish]
  split
  · split
    · exact ⟨prefix_rfl, fun _ => ⟨rfl, hPos, hNodes.weaken⟩⟩
    · exact leaf_fail.fine
  · exact ⟨prefix_rfl, fun _ => ⟨rfl, hPos, hNodes.weaken⟩⟩

theorem repetitionLoop_fine {child : Nat} {minCount maxCount : Int} {fuel : Nat}
    (hPos : pos ≤ ctx.input.length) (hNodes : Spans ctx ast false start pos nodes)
    (h : repetitionLoop ctx parse start child minCount maxCount fuel pos matchCount nodes ast =
      some r) : Fine ctx start ast r := by
  induction fuel generalizing pos matchCount nodes ast with
  | zero => contradiction
  | succ fuel ih =>
    simp only [repetitionLoop] at h
    split at h
    next =>
      simp only [bind_eq_bind] at h
      cases hChild : parse child ast pos with
      | none =>
        rw [hChild] at h
        contradiction
      | some r₁ =>
        obtain ⟨result, ast₁⟩ := r₁
        rw [hChild, bind_some] at h
        obtain ⟨hGrows, hSpans⟩ := hParse child ast pos _ hPos hChild
        have hNodes' := hNodes.mono hGrows
        have hBreak : ∀ r, some (repetitionFinish ctx start minCount pos matchCount nodes,
            ast₁) = some r → Fine ctx start ast r := by
          intro r hEq
          rw [some.injEq] at hEq
          subst hEq
          exact ⟨hGrows, (repetitionFinish_fine minCount hPos hNodes').spans⟩
        simp only at h hSpans
        split at h
        next hSuccess =>
          obtain ⟨-, hStop, hSpans⟩ := hSpans (by simp [hSuccess])
          rw [hSuccess] at hSpans
          split at h
          next => exact hBreak r h
          next =>
            obtain ⟨hGrows', hFine⟩ := ih hStop (hNodes'.append hSpans) h
            exact ⟨hGrows.trans hGrows', hFine⟩
        next hMore =>
          rw [some.injEq] at h
          subst h
          obtain ⟨-, hStop, hSpans⟩ := hSpans (by simp [hMore])
          rw [hMore] at hSpans
          exact ⟨hGrows, fun _ => ⟨rfl, hStop, hNodes'.append hSpans⟩⟩
        next => exact hBreak r h
    next =>
      rw [some.injEq] at h
      subst h
      exact repetitionFinish_fine minCount hPos hNodes

omit hParse in
theorem wrap_fine {rule tag : List UInt8} (h : Fine ctx start ast r) :
    Fine ctx start ast (wrap ctx rule tag r) := by
  obtain ⟨result, ast₁⟩ := r
  simp only [wrap]
  split
  next => exact h
  next hType =>
    obtain ⟨hStart, hStop, hSpans⟩ := h.spans hType
    obtain rfl : result.start = start := hStart
    have hGrows : ast₁ <+: PegAst.addNode ast₁ rule tag result.start result.stop
        (if result.start < ctx.input.length then
          (ctx.input.drop result.start).take (result.stop - result.start) else [])
        result.nodes (result.type = .needMoreInput) := prefix_append _ _
    refine ⟨h.grows.trans hGrows, fun _ => ⟨rfl, hStop, ?_⟩⟩
    refine Spans.cons getElem?_concat_length (Nat.le_refl _) ?_
      hSpans.lt_length (fun hPartial => ⟨hPartial, rfl⟩) ?_ (Spans.nil (Nat.le_refl _))
    · split
      next => rfl
      next hEnd =>
        rw [slice, drop_eq_nil_of_le (Nat.le_of_not_lt hEnd), take_nil]
    · simpa using hSpans.mono hGrows

/-- One parser of the arena, on fine parses of its children. -/
theorem execute_fine {arena : PegArena} {p : PegParser} (hStart : start ≤ ctx.input.length)
    (h : execute arena ctx parse p ast start = some r) : Fine ctx start ast r := by
  have hLeaf : ∀ r₁, Leaf ctx start r₁ → some (r₁, ast) = some r → Fine ctx start ast r := by
    intro r₁ hLeaf hEq
    rw [some.injEq] at hEq
    exact hEq ▸ hLeaf.fine
  have hNil : Spans ctx ast false start start [] := Spans.nil (Nat.le_refl start)
  cases p with
  | epsilonParser => exact hLeaf _ (leaf_here _ hStart) h
  | startParser => exact hLeaf _ (leaf_here _ hStart) h
  | endParser => exact hLeaf _ (leaf_here _ hStart) h
  | literalParser literal => exact hLeaf _ (literalLoop_leaf literal (Nat.le_refl _) hStart) h
  | sequenceParser children => exact sequenceLoop_fine hParse hStart hNil h
  | choiceParser children => exact choiceLoop_fine hParse hStart h
  | repetitionParser child minCount maxCount => exact repetitionLoop_fine hParse hStart hNil h
  | andParser child =>
    obtain ⟨r₁, hChild, rfl⟩ := map_eq_some_iff.mp h
    exact ⟨(hParse child ast start r₁ hStart hChild).grows, (leaf_here _ hStart).fine.spans⟩
  | notParser child =>
    obtain ⟨r₁, hChild, rfl⟩ := map_eq_some_iff.mp h
    refine ⟨(hParse child ast start r₁ hStart hChild).grows, ?_⟩
    cases hType : r₁.1.type with
    | fail => exact (leaf_here _ hStart).fine.spans
    | success => exact leaf_fail.fine.spans
    | needMoreInput => exact (leaf_here _ hStart).fine.spans
  | anyParser => exact hLeaf _ (parseAny_leaf hStart) h
  | spaceParser => exact hLeaf _ (parseSpace_leaf hStart) h
  | charsParser pattern ranges negated minCount maxCount =>
    exact hLeaf _ (charsLoop_leaf ranges negated minCount maxCount _ (Nat.le_refl _) hStart) h
  | stringParser delimiter => exact hLeaf _ (stringLoop_leaf delimiter _ (Nat.le_refl _) hStart) h
  | untilParser delimiters => exact hLeaf _ (untilLoop_leaf _ _ (Nat.le_refl _) hStart) h
  | ruleParser name child =>
    obtain ⟨r₁, hChild, rfl⟩ := map_eq_some_iff.mp h
    exact wrap_fine (hParse child ast start r₁ hStart hChild)
  | tagParser child tag =>
    obtain ⟨r₁, hChild, rfl⟩ := map_eq_some_iff.mp h
    exact wrap_fine (hParse child ast start r₁ hStart hChild)
  | refParser name =>
    obtain ⟨id, -, hChild⟩ := bind_eq_some_iff.mp h
    exact hParse id ast start r hStart hChild
  | atomicParser child =>
    obtain ⟨r₁, hChild, rfl⟩ := map_eq_some_iff.mp h
    have hFine := hParse child ast start r₁ hStart hChild
    simp only [clearPartial]
    split
    next hMore =>
      refine ⟨hFine.grows, fun _ => ?_⟩
      obtain ⟨hEq, hStop, hSpans⟩ := hFine.spans (by simp [hMore])
      exact ⟨hEq, hStop, Spans.nil hSpans.le⟩
    next => exact hFine
  | schemaParser child => exact hParse child ast start r hStart h
  | gbnfParser child grammar => exact hParse child ast start r hStart h
  | acParser child delimiters => exact hParse child ast start r hStart h

end

theorem parse_fine (arena : PegArena) (ctx : PegContext) (depth : Nat) :
    FineParse ctx (arena.parse ctx depth) := by
  induction depth with
  | zero =>
    intro id ast start r _ h
    contradiction
  | succ depth ih =>
    intro id ast start r hStart h
    obtain ⟨p, -, hExecute⟩ := bind_eq_some_iff.mp h
    exact execute_fine ih hStart hExecute

/-! ## The tree of a result -/

/-- A node of the tree below the nodes of a result. -/
inductive InTree (ast : PegAst) (nodes : List Nat) : Nat → PegAstNode → Prop
  | root {id : Nat} {node : PegAstNode} (hMem : id ∈ nodes) (hNode : ast[id]? = some node) :
      InTree ast nodes id node
  | child {parent id : Nat} {above node : PegAstNode} (hParent : InTree ast nodes parent above)
      (hMem : id ∈ above.children) (hNode : ast[id]? = some node) : InTree ast nodes id node

/-- A node of the rightmost path: the last of the nodes of a result, its last child, and
so on. -/
inductive OnRightmost (ast : PegAst) (nodes : List Nat) : Nat → Prop
  | root {id : Nat} (hLast : nodes.getLast? = some id) : OnRightmost ast nodes id
  | child {parent id : Nat} {above : PegAstNode} (hParent : OnRightmost ast nodes parent)
      (hNode : ast[parent]? = some above) (hLast : above.children.getLast? = some id) :
      OnRightmost ast nodes id

/-- The nodes are in the arena, ordered and disjoint, and between the bounds. -/
structure Ordered (ast : PegAst) (nodes : List Nat) (start stop : Nat) : Prop where
  inside : ∀ id ∈ nodes, ∃ node, ast[id]? = some node ∧ start ≤ node.start ∧
    node.start ≤ node.stop ∧ node.stop ≤ stop
  disjoint : nodes.Pairwise fun id id' => ∀ node node', ast[id]? = some node →
    ast[id']? = some node' → node.stop ≤ node'.start

/-- A result that is not a failure, over the AST arena it leaves. -/
structure WellFormedResult (ctx : PegContext) (ast : PegAst) (start : Nat) (r : PegResult) :
    Prop where
  start_eq : r.start = start
  start_le : start ≤ r.stop
  stop_le : r.stop ≤ ctx.input.length
  ordered : Ordered ast r.nodes start r.stop
  children : ∀ id node, InTree ast r.nodes id node → Ordered ast node.children node.start node.stop
  text : ∀ id node, InTree ast r.nodes id node → node.text = slice ctx.input node.start node.stop
  childIds : ∀ id node, InTree ast r.nodes id node → ∀ child ∈ node.children, child < id
  success : r.type = .success → ∀ id node, InTree ast r.nodes id node → node.isPartial = false
  needMoreInput : r.type = .needMoreInput → ∀ id node, InTree ast r.nodes id node →
    node.isPartial = true → OnRightmost ast r.nodes id

variable (h : Spans ctx ast mayEnd lo hi nodes)

include h

theorem Spans.ordered : Ordered ast nodes lo hi := by
  induction h with
  | nil => exact ⟨by simp, List.Pairwise.nil⟩
  | @cons mayEnd lo hi id rest node hNode hLo _ _ _ hChildren hRest _ ihRest =>
    have hChildrenLe := hChildren.le
    have hRestLe := hRest.le
    refine ⟨?_, pairwise_cons.mpr ⟨?_, ihRest.disjoint⟩⟩
    · intro x hx
      rcases mem_cons.mp hx with rfl | hMem
      · exact ⟨node, hNode, hLo, hChildrenLe, hRestLe⟩
      · obtain ⟨node', hNode', hStart, hSpan, hStop⟩ := ihRest.inside x hMem
        exact ⟨node', hNode', by omega, hSpan, hStop⟩
    intro x hx node₁ node₂ hNode₁ hNode₂
    obtain ⟨node', hNode', hStart, -⟩ := ihRest.inside x hx
    rw [hNode, some.injEq] at hNode₁
    rw [hNode', some.injEq] at hNode₂
    rw [← hNode₁, ← hNode₂]
    exact hStart

/-- What `Spans` says of one node; `mayEnd` where it may be partial. -/
structure NodeFine (ctx : PegContext) (ast : PegAst) (id : Nat) (node : PegAstNode)
    (mayEnd : Bool) : Prop where
  children : Spans ctx ast mayEnd node.start node.stop node.children
  text : node.text = slice ctx.input node.start node.stop
  childIds : ∀ child ∈ node.children, child < id
  isPartial : node.isPartial = true → mayEnd = true

variable {id : Nat} {node : PegAstNode}

theorem Spans.mem (hMem : id ∈ nodes) (hNode : ast[id]? = some node) :
    ∃ flag, NodeFine ctx ast id node flag ∧
      (flag = true → mayEnd = true ∧ nodes.getLast? = some id) := by
  induction h with
  | nil => simp at hMem
  | @cons mayEnd lo hi head rest first hFirst _ hText hIds hPartial hChildren _ _ ihRest =>
    rcases List.mem_cons.mp hMem with rfl | hTail
    · rw [hFirst, Option.some.injEq] at hNode
      subst hNode
      refine ⟨mayEnd && rest.isEmpty, ⟨hChildren, hText, hIds, ?_⟩, ?_⟩
      · intro hTrue
        obtain ⟨rfl, rfl⟩ := hPartial hTrue
        rfl
      intro hFlag
      simp only [Bool.and_eq_true, List.isEmpty_iff] at hFlag
      obtain ⟨hEnd, rfl⟩ := hFlag
      exact ⟨hEnd, rfl⟩
    obtain ⟨flag, hFine, hFlag⟩ := ihRest hTail
    refine ⟨flag, hFine, fun hTrue => ?_⟩
    obtain ⟨hEnd, hLast⟩ := hFlag hTrue
    refine ⟨hEnd, ?_⟩
    rw [List.getLast?_cons, hLast]
    rfl

/-- Every node of the tree is fine, and may be partial only on the rightmost path. -/
theorem Spans.inTree (hTree : InTree ast nodes id node) :
    ∃ flag, NodeFine ctx ast id node flag ∧
      (flag = true → mayEnd = true ∧ OnRightmost ast nodes id) := by
  induction hTree with
  | root hMem hNode =>
    obtain ⟨flag, hFine, hFlag⟩ := h.mem hMem hNode
    exact ⟨flag, hFine, fun hTrue => ⟨(hFlag hTrue).1, OnRightmost.root (hFlag hTrue).2⟩⟩
  | @child parent id above node hParent hMem hNode ih =>
    obtain ⟨flagAbove, hAbove, hFlagAbove⟩ := ih
    obtain ⟨flag, hFine, hFlag⟩ := hAbove.children.mem hMem hNode
    refine ⟨flag, hFine, fun hTrue => ?_⟩
    obtain ⟨hAboveTrue, hLast⟩ := hFlag hTrue
    obtain ⟨hEnd, hRight⟩ := hFlagAbove hAboveTrue
    have hAt : ast[parent]? = some above := by
      cases hParent with
      | root _ hNode => exact hNode
      | child _ _ hNode => exact hNode
    exact ⟨hEnd, OnRightmost.child hRight hAt hLast⟩

omit h

theorem wellFormed_of_spans {r : PegResult} (hEq : r.start = start)
    (hStop : r.stop ≤ ctx.input.length)
    (h : Spans ctx ast (r.type = .needMoreInput) start r.stop r.nodes) :
    WellFormedResult ctx ast start r where
  start_eq := hEq
  start_le := h.le
  stop_le := hStop
  ordered := h.ordered
  children := by
    intro id node hTree
    obtain ⟨flag, hFine, -⟩ := h.inTree hTree
    exact hFine.children.ordered
  text := by
    intro id node hTree
    obtain ⟨flag, hFine, -⟩ := h.inTree hTree
    exact hFine.text
  childIds := by
    intro id node hTree
    obtain ⟨flag, hFine, -⟩ := h.inTree hTree
    exact hFine.childIds
  success := by
    intro hSuccess id node hTree
    obtain ⟨flag, hFine, hFlag⟩ := h.inTree hTree
    by_contra hPartial
    have hMore := (hFlag (hFine.isPartial (by simpa using hPartial))).1
    rw [hSuccess] at hMore
    contradiction
  needMoreInput := by
    intro _ id node hTree hPartial
    obtain ⟨flag, hFine, hFlag⟩ := h.inTree hTree
    exact (hFlag (hFine.isPartial hPartial)).2

/-- **PEG parse results.**  Every result of `common_peg_arena::parse` that is not a
failure is well formed, for every arena, input and flag, from every position in the
input, and over every AST arena the context had before. -/
theorem parse_wellFormed (arena : PegArena) (ctx : PegContext) (depth id : Nat) (ast ast' : PegAst)
    (start : Nat) (r : PegResult) (hStart : start ≤ ctx.input.length)
    (h : arena.parse ctx depth id ast start = some (r, ast')) (hType : r.type ≠ .fail) :
    WellFormedResult ctx ast' start r := by
  obtain ⟨-, hSpans⟩ := parse_fine arena ctx depth id ast start _ hStart h
  obtain ⟨hEq, hStop, hNodes⟩ := hSpans hType
  exact wellFormed_of_spans hEq hStop hNodes

/-- A rule of a tagged literal and any character. -/
def taggedArena : PegArena :=
  ⟨[.literalParser [0x61], .tagParser 0 [0x74], .anyParser, .sequenceParser [1, 2],
    .ruleParser [0x72] 3], []⟩

/-- Its parse of the partial input `a`. -/
theorem taggedArena_wellFormed :
    WellFormedResult ⟨[0x61], true⟩
      [⟨0, [], [0x74], 0, 1, [0x61], [], false⟩, ⟨1, [0x72], [], 0, 1, [0x61], [0], true⟩]
      0 ⟨.needMoreInput, 0, 1, [1]⟩ :=
  parse_wellFormed taggedArena ⟨[0x61], true⟩ 4 4 [] _ 0 _ (by decide) (by decide) (by decide)

end Peg

end Beellama.Ports
