import Beellama.Ports.AhoCorasick
import Beellama.Verified.Run

/-!
# The reasoning budget sampler

The token matcher, the state machine and the mask of `src/common/reasoning-budget.cpp`.  The piece of a
token is a parameter; logits are a type with a value for minus infinity.  A run remembers the tokens
accepted since the last reset, how many of them were counted since the activation, and those
accepted since the forcing began.
-/

namespace Beellama.Ports

open Beellama.Verified CommonTrie List

/-- `llama_token` -/
abbrev LlamaToken := Int32

/-- `(uint32_t) token` -/
def tokenSymbol (token : LlamaToken) : Nat := token.toUInt32.toNat

theorem tokenSymbol_injective : Function.Injective tokenSymbol := by
  intro a b h
  have hBits : a.toUInt32 = b.toUInt32 := UInt32.toNat_inj.mp h
  calc a = a.toUInt32.toInt32 := (Int32.toInt32_toUInt32 a).symm
    _ = b.toUInt32.toInt32 := by rw [hBits]

/-! ## The matcher -/

/-- `token_matcher` -/
structure TokenMatcher where
  seqs : List (List LlamaToken)
  ac : CommonAhoCorasick
  state : Nat := 0

namespace TokenMatcher

/-- `collect`: the non-empty sequences, each once. -/
def collect (seqs : List (List LlamaToken)) : List (List LlamaToken) :=
  seqs.foldl (fun res seq => if seq ≠ [] ∧ seq ∉ res then res ++ [seq] else res) []

def buildTrie (seqs : List (List LlamaToken)) : CommonTrie := build (seqs.map (·.map tokenSymbol))

/-- The constructor. -/
def ofSeqs (seqs : List (List LlamaToken)) : TokenMatcher where
  seqs := collect seqs
  ac := .ofTrie (buildTrie (collect seqs))

/-- `advance`, with the index of the longest sequence that ends here. -/
def advance (m : TokenMatcher) (token : LlamaToken) : TokenMatcher × Option Nat :=
  let state := m.ac.next m.state (tokenSymbol token)
  let p := m.ac.matchPattern state
  ({ m with state := if p.isSome then 0 else state }, p)

def reset (m : TokenMatcher) : TokenMatcher := { m with state := 0 }

variable {seq : List LlamaToken}

theorem mem_collectInto {seqs res : List (List LlamaToken)} :
    seq ∈ seqs.foldl (fun res seq => if seq ≠ [] ∧ seq ∉ res then res ++ [seq] else res) res ↔
      seq ∈ res ∨ seq ∈ seqs ∧ seq ≠ [] := by
  induction seqs generalizing res with
  | nil => simp
  | cons s seqs ih =>
    rw [foldl_cons, ih]
    by_cases hs : s ≠ [] ∧ s ∉ res
    · rw [if_pos hs, mem_append, mem_singleton, mem_cons]
      constructor
      · intro h
        rcases h with (hRes | hEq) | hRest
        · exact Or.inl hRes
        · exact Or.inr ⟨Or.inl hEq, hEq ▸ hs.1⟩
        · exact Or.inr ⟨Or.inr hRest.1, hRest.2⟩
      intro h
      rcases h with hRes | ⟨hEq | hRest, hNe⟩
      · exact Or.inl (Or.inl hRes)
      · exact Or.inl (Or.inr hEq)
      · exact Or.inr ⟨hRest, hNe⟩
    rw [if_neg hs, mem_cons]
    constructor
    · intro h
      rcases h with hRes | hRest
      · exact Or.inl hRes
      · exact Or.inr ⟨Or.inr hRest.1, hRest.2⟩
    intro h
    rcases h with hRes | ⟨hEq | hRest, hNe⟩
    · exact Or.inl hRes
    · rw [hEq] at hNe ⊢
      by_cases hMem : s ∈ res
      · exact Or.inl hMem
      · exact absurd ⟨hNe, hMem⟩ hs
    · exact Or.inr ⟨hRest, hNe⟩

variable {seqs : List (List LlamaToken)}

theorem mem_collect : seq ∈ collect seqs ↔ seq ∈ seqs ∧ seq ≠ [] := by
  rw [collect, mem_collectInto]
  simp

/-- The matcher of `seqs` stands at a suffix of what it has read. -/
structure At (seqs : List (List LlamaToken)) (history : List LlamaToken) (m : TokenMatcher) :
    Prop where
  ac : m.ac = .ofTrie (buildTrie (collect seqs))
  lt : m.state < (buildTrie (collect seqs)).nodes.length
  suffix : (buildTrie (collect seqs)).label m.state <:+ history.map tokenSymbol

theorem buildTrie_tree (seqs : List (List LlamaToken)) : (buildTrie seqs).Tree := build_tree _

theorem at_root (history : List LlamaToken) {m : TokenMatcher}
    (hAc : m.ac = .ofTrie (buildTrie (collect seqs))) (hState : m.state = 0) :
    At seqs history m where
  ac := hAc
  lt := by
    rw [hState]
    exact (buildTrie_tree _).nonempty
  suffix := by
    rw [hState, (buildTrie_tree _).label_root]
    exact nil_suffix

variable {seqs : List (List LlamaToken)} {history : List LlamaToken} {m : TokenMatcher}

theorem At.next (h : At seqs history m) (token : LlamaToken) :
    m.ac.next m.state (tokenSymbol token) < (buildTrie (collect seqs)).nodes.length ∧
      (buildTrie (collect seqs)).label (m.ac.next m.state (tokenSymbol token)) <:+
        (history ++ [token]).map tokenSymbol := by
  have hTree := buildTrie_tree (collect seqs)
  rw [h.ac]
  obtain ⟨hLt, hLongest⟩ :=
    CommonAhoCorasick.next_spec hTree h.lt (LongestSuffix.self (hTree.isNode_label h.lt))
      (tokenSymbol token)
  refine ⟨hLt, hLongest.suffix.trans ?_⟩
  rw [map_append]
  exact suffix_append_singleton _ h.suffix

theorem At.advance (h : At seqs history m) (token : LlamaToken) :
    At seqs (history ++ [token]) (m.advance token).1 := by
  obtain ⟨hLt, hSuffix⟩ := h.next token
  by_cases hMatch : (m.ac.matchPattern (m.ac.next m.state (tokenSymbol token))).isSome
  · refine at_root _ h.ac ?_
    simp only [TokenMatcher.advance]
    rw [if_pos hMatch]
  have hState : (m.advance token).1.state = m.ac.next m.state (tokenSymbol token) := by
    simp only [TokenMatcher.advance]
    rw [if_neg hMatch]
  exact ⟨h.ac, hState ▸ hLt, hState ▸ hSuffix⟩

/-- A match means that a sequence ends with the token. -/
theorem At.matched (h : At seqs history m) {token : LlamaToken}
    (hMatch : (m.advance token).2.isSome) :
    ∃ seq ∈ seqs, seq ≠ [] ∧ seq <:+ history ++ [token] := by
  have hTree := buildTrie_tree (collect seqs)
  obtain ⟨hLt, hSuffix⟩ := h.next token
  have hMatch' : m.ac.isTerminal (m.ac.next m.state (tokenSymbol token)) := hMatch
  rw [h.ac] at hLt hSuffix hMatch'
  obtain ⟨s, hWord, hEnds⟩ := (CommonAhoCorasick.isTerminal_iff hTree hLt
    (LongestSuffix.self (hTree.isNode_label hLt))).mp hMatch'
  rw [buildTrie, build_isWord] at hWord
  obtain ⟨seq, hSeq, rfl⟩ := mem_map.mp hWord
  rw [mem_collect] at hSeq
  exact ⟨seq, hSeq.1, hSeq.2,
    (suffix_map_iff_of_injective tokenSymbol_injective).mp (hEnds.trans hSuffix)⟩

end TokenMatcher

/-! ## The state machine -/

/-- `common_reasoning_budget_state` -/
inductive ReasoningBudgetState
  | idle
  | counting
  | forcing
  | waitingUtf8
  | done
  deriving DecidableEq, Repr

/-- `common_reasoning_budget_ctx`.  The vocabulary is the pieces of its tokens. -/
structure ReasoningBudget where
  vocab : Option (LlamaToken → List UInt8)
  startMatcher : TokenMatcher
  endMatcher : TokenMatcher
  forcedTokens : List LlamaToken
  budget : Int
  remaining : Int
  state : ReasoningBudgetState
  forcePos : Nat
  /-- `end_match`, -1 is `none` -/
  endMatch : Option Nat

/-- `llama_token_data`: what `apply` reads and writes. -/
structure TokenData (Logit : Type) where
  id : LlamaToken
  logit : Logit

namespace ReasoningBudget

/-- `common_reasoning_budget_init_state` -/
def init (vocab : Option (LlamaToken → List UInt8)) (startSeqs endSeqs : List (List LlamaToken))
    (forcedTokens : List LlamaToken) (budget : Int) (initialState : ReasoningBudgetState) :
    ReasoningBudget where
  vocab := vocab
  startMatcher := .ofSeqs startSeqs
  endMatcher := .ofSeqs endSeqs
  forcedTokens := forcedTokens
  budget := budget
  remaining := budget
  -- promote COUNTING with budget <= 0 to FORCING
  state := if initialState = .counting ∧ budget ≤ 0 then .forcing else initialState
  forcePos := 0
  endMatch := none

/-- Activation, once a start sequence has matched. -/
def activate (ctx : ReasoningBudget) : ReasoningBudget :=
  let ctx := { ctx with state := .counting, remaining := ctx.budget }
  if ctx.remaining ≤ 0 then { ctx with state := .forcing, forcePos := 0 } else ctx

/-- `utf8_complete` -/
def utf8Complete (ctx : ReasoningBudget) (token : LlamaToken) : Bool :=
  match ctx.vocab with
  | none => true
  | some piece => commonUtf8IsComplete (piece token)

/-- `common_reasoning_budget_accept` -/
def accept (ctx : ReasoningBudget) (token : LlamaToken) : ReasoningBudget :=
  match ctx.state with
  | .idle =>
    let m := ctx.startMatcher.advance token
    let ctx := { ctx with startMatcher := m.1 }
    if m.2.isSome then ctx.activate else ctx
  | .counting | .waitingUtf8 =>
    let m := ctx.endMatcher.advance token
    let ctx := { ctx with endMatcher := m.1 }
    if m.2.isSome then { ctx with state := .done, endMatch := m.2 }
    else if ctx.state = .waitingUtf8 then
      if ctx.utf8Complete token then
        { ctx with state := .forcing, forcePos := 0, endMatcher := ctx.endMatcher.reset }
      else ctx
    else
      let ctx := { ctx with remaining := ctx.remaining - 1 }
      if ctx.remaining ≤ 0 then
        if ctx.utf8Complete token then
          { ctx with state := .forcing, forcePos := 0, endMatcher := ctx.endMatcher.reset }
        else { ctx with state := .waitingUtf8, endMatcher := ctx.endMatcher.reset }
      else ctx
  | .forcing =>
    let m := ctx.endMatcher.advance token
    let ctx := { ctx with endMatcher := m.1, forcePos := ctx.forcePos + 1 }
    if ctx.forcedTokens.length ≤ ctx.forcePos then
      { ctx with state := .done, endMatch := m.2 }
    else ctx
  | .done =>
    let m := ctx.startMatcher.advance token
    let ctx := { ctx with startMatcher := m.1 }
    if m.2.isSome then
      { ctx with endMatcher := ctx.endMatcher.reset, endMatch := none }.activate
    else ctx

/-- `common_reasoning_budget_apply` -/
def apply {Logit : Type} (negInf : Logit) (ctx : ReasoningBudget) (cur : List (TokenData Logit)) :
    List (TokenData Logit) :=
  if ctx.state ≠ .forcing then cur
  else
    match ctx.forcedTokens[ctx.forcePos]? with
    | none => cur
    | some forced => cur.map fun d => if d.id ≠ forced then { d with logit := negInf } else d

/-- `common_reasoning_budget_reset` -/
def reset (ctx : ReasoningBudget) : ReasoningBudget :=
  { ctx with
    state := .idle
    remaining := ctx.budget
    startMatcher := ctx.startMatcher.reset
    endMatcher := ctx.endMatcher.reset
    forcePos := 0
    endMatch := none }

/-- `common_reasoning_budget_force_end`, with its answer. -/
def forceEnd (ctx : ReasoningBudget) : ReasoningBudget × Bool :=
  if ctx.forcedTokens = [] then (ctx, false)
  else
    ({ ctx with state := .forcing, forcePos := 0, endMatcher := ctx.endMatcher.reset }, true)

/-- `common_reasoning_budget_force`, with its answer. -/
def force (ctx : ReasoningBudget) : ReasoningBudget × Bool :=
  if ctx.state ≠ .counting then (ctx, false)
  else
    ({ ctx with state := .forcing, forcePos := 0, endMatcher := ctx.endMatcher.reset }, true)

/-! ## What a step can do -/

section Steps

variable (ctx : ReasoningBudget) (token : LlamaToken)

theorem activate_spec : ctx.activate.startMatcher = ctx.startMatcher ∧
    (ctx.budget ≤ 0 ∧ ctx.activate.state = .forcing ∧ ctx.activate.forcePos = 0 ∨
      0 < ctx.budget ∧ ctx.activate.state = .counting ∧ ctx.activate.remaining = ctx.budget) := by
  simp only [activate]
  split
  next h => exact ⟨rfl, Or.inl ⟨h, rfl, rfl⟩⟩
  next h => exact ⟨rfl, Or.inr ⟨by omega, rfl, rfl⟩⟩

theorem activate_config : ctx.activate.vocab = ctx.vocab ∧
    ctx.activate.forcedTokens = ctx.forcedTokens ∧ ctx.activate.budget = ctx.budget := by
  simp only [activate]
  split
  · exact ⟨rfl, rfl, rfl⟩
  · exact ⟨rfl, rfl, rfl⟩

/-- `accept` keeps what `common_reasoning_budget_init` was given. -/
theorem accept_config : (ctx.accept token).vocab = ctx.vocab ∧
    (ctx.accept token).forcedTokens = ctx.forcedTokens ∧
    (ctx.accept token).budget = ctx.budget := by
  simp only [accept]
  repeat' split
  all_goals first
    | exact ⟨rfl, rfl, rfl⟩
    | exact activate_config _

/-- In IDLE and DONE the start matcher goes on, and a match activates. -/
theorem accept_watching (h : ctx.state = .idle ∨ ctx.state = .done) :
    (ctx.accept token).startMatcher = (ctx.startMatcher.advance token).1 ∧
      ((ctx.accept token).state = ctx.state ∨
        (ctx.startMatcher.advance token).2.isSome ∧
          (ctx.budget ≤ 0 ∧ (ctx.accept token).state = .forcing ∧
              (ctx.accept token).forcePos = 0 ∨
            0 < ctx.budget ∧ (ctx.accept token).state = .counting ∧
              (ctx.accept token).remaining = ctx.budget)) := by
  cases h with
  | inl hIdle =>
    simp only [accept, hIdle]
    split
    next hMatch =>
      obtain ⟨hStart, hActive⟩ :=
        activate_spec { ctx with startMatcher := (ctx.startMatcher.advance token).1 }
      exact ⟨hStart, Or.inr ⟨hMatch, hActive⟩⟩
    next => exact ⟨rfl, Or.inl rfl⟩
  | inr hDone =>
    simp only [accept, hDone]
    split
    next hMatch =>
      obtain ⟨hStart, hActive⟩ :=
        activate_spec
          { ctx with
            startMatcher := (ctx.startMatcher.advance token).1
            endMatcher := ctx.endMatcher.reset
            endMatch := none }
      exact ⟨hStart, Or.inr ⟨hMatch, hActive⟩⟩
    next => exact ⟨rfl, Or.inl rfl⟩

/-- In COUNTING the budget shrinks, until it is used up. -/
theorem accept_counting (h : ctx.state = .counting) :
    (ctx.accept token).startMatcher = ctx.startMatcher ∧
      ((ctx.accept token).state = .done ∨
        1 < ctx.remaining ∧ (ctx.accept token).state = .counting ∧
          (ctx.accept token).remaining = ctx.remaining - 1 ∨
        ctx.remaining ≤ 1 ∧ (ctx.endMatcher.advance token).2 = none ∧
          (ctx.utf8Complete token = true ∧ (ctx.accept token).state = .forcing ∧
              (ctx.accept token).forcePos = 0 ∨
            (ctx.accept token).state = .waitingUtf8)) := by
  simp only [accept, h]
  split
  · exact ⟨rfl, Or.inl rfl⟩
  next hNone =>
    have hNone' : (ctx.endMatcher.advance token).2 = none := by simpa using hNone
    rw [if_neg (by decide)]
    split
    next hUsed =>
      have hLe : ctx.remaining ≤ 1 := by
        omega
      split
      next hComplete => exact ⟨rfl, Or.inr (Or.inr ⟨hLe, hNone', Or.inl ⟨hComplete, rfl, rfl⟩⟩)⟩
      next => exact ⟨rfl, Or.inr (Or.inr ⟨hLe, hNone', Or.inr rfl⟩)⟩
    next hLeft =>
      have hGt : 1 < ctx.remaining := by
        omega
      exact ⟨rfl, Or.inr (Or.inl ⟨hGt, rfl, rfl⟩)⟩

theorem accept_waiting (h : ctx.state = .waitingUtf8) :
    (ctx.accept token).startMatcher = ctx.startMatcher ∧
      ((ctx.accept token).state = .done ∨ (ctx.accept token).state = .waitingUtf8 ∨
        (ctx.endMatcher.advance token).2 = none ∧ ctx.utf8Complete token = true ∧
          (ctx.accept token).state = .forcing ∧ (ctx.accept token).forcePos = 0) := by
  simp only [accept, h]
  split
  · exact ⟨rfl, Or.inl rfl⟩
  next hNone =>
    have hNone' : (ctx.endMatcher.advance token).2 = none := by simpa using hNone
    rw [if_pos trivial]
    split
    next hComplete => exact ⟨rfl, Or.inr (Or.inr ⟨hNone', hComplete, rfl, rfl⟩)⟩
    next => exact ⟨rfl, Or.inr (Or.inl rfl)⟩

theorem accept_forcing (h : ctx.state = .forcing) :
    (ctx.accept token).startMatcher = ctx.startMatcher ∧
      (ctx.accept token).forcePos = ctx.forcePos + 1 ∧
      (ctx.accept token).state =
        if ctx.forcedTokens.length ≤ ctx.forcePos + 1 then .done else .forcing := by
  simp only [accept, h]
  split
  · exact ⟨rfl, rfl, rfl⟩
  · exact ⟨rfl, rfl, rfl⟩

end Steps

end ReasoningBudget

/-! ## Runs -/

/-- The arguments of `common_reasoning_budget_init`. -/
structure BudgetParams where
  vocab : Option (LlamaToken → List UInt8)
  startSeqs : List (List LlamaToken)
  endSeqs : List (List LlamaToken)
  forcedTokens : List LlamaToken
  budget : Int
  initialState : ReasoningBudgetState

/-- A sampler with what happened to it. -/
structure BudgetRun where
  ctx : ReasoningBudget
  /-- the tokens accepted since the last reset -/
  history : List LlamaToken := []
  /-- how many of them were accepted in COUNTING since the activation -/
  counted : Nat := 0
  /-- the tokens accepted since the forcing began -/
  forced : List LlamaToken := []

inductive BudgetOp
  | accept (token : LlamaToken)
  | force
  | forceEnd
  | reset

namespace BudgetRun

def start (p : BudgetParams) : BudgetRun where
  ctx := .init p.vocab p.startSeqs p.endSeqs p.forcedTokens p.budget p.initialState

def step (op : BudgetOp) (r : BudgetRun) : BudgetRun :=
  match op with
  | .accept token =>
    { ctx := r.ctx.accept token
      history := r.history ++ [token]
      counted := if r.ctx.state = .counting then r.counted + 1 else 0
      forced := if r.ctx.state = .forcing then r.forced ++ [token] else [] }
  | .force => { r with ctx := r.ctx.force.1, forced := if r.ctx.force.2 then [] else r.forced }
  | .forceEnd =>
    { r with ctx := r.ctx.forceEnd.1, forced := if r.ctx.forceEnd.2 then [] else r.forced }
  | .reset => { ctx := r.ctx.reset }

/-- `force_end` finds no start sequence half matched, and no token that ends the counting is taken
for complete with a malformed tail. -/
def Fits (p : BudgetParams) (op : BudgetOp) (r : BudgetRun) : Prop :=
  match op with
  | .forceEnd => r.ctx.forcedTokens = [] ∨ r.ctx.startMatcher.state = 0
  | .accept token =>
    r.ctx.state = .waitingUtf8 ∨ r.ctx.state = .counting ∧ r.ctx.remaining ≤ 1 →
      (r.ctx.endMatcher.advance token).2 = none →
      ∀ piece, p.vocab = some piece → commonUtf8IsComplete (piece token) = true →
        strayTail (piece token) = false
  | _ => True

/-- What the sampler promises when a token is accepted. -/
structure Meets (p : BudgetParams) (r : BudgetRun) (token : LlamaToken) : Prop where
  /-- `accept` activates only at the end of a start sequence -/
  activation : r.ctx.state = .idle ∨ r.ctx.state = .done →
    (r.ctx.accept token).state = .counting ∨ (r.ctx.accept token).state = .forcing →
      ∃ seq ∈ p.startSeqs, seq ≠ [] ∧ seq <:+ r.history ++ [token]
  /-- a token accepted in COUNTING is within the budget, and the last one leaves it -/
  budget : 0 < p.budget → r.ctx.state = .counting →
    (r.counted : Int) + 1 ≤ p.budget ∧
      ((r.counted : Int) + 1 = p.budget → (r.ctx.accept token).state ≠ .counting)
  /-- the forcing begins after a complete code point -/
  complete : r.ctx.state = .counting ∨ r.ctx.state = .waitingUtf8 →
    (r.ctx.accept token).state = .forcing →
      ∀ piece, p.vocab = some piece → EndsComplete (piece token)
  /-- `apply` leaves exactly the next forced token -/
  mask : r.ctx.state = .forcing → p.forcedTokens ≠ [] →
    ∃ next, p.forcedTokens[r.forced.length]? = some next ∧
      ∀ (Logit : Type) (negInf : Logit) cur, r.ctx.apply negInf cur =
        cur.map fun d => if d.id = next then d else { d with logit := negInf }
  /-- DONE follows the last forced token -/
  done : r.ctx.state = .forcing → p.forcedTokens ≠ [] →
    (r.ctx.accept token).state =
      if r.forced.length + 1 = p.forcedTokens.length then .done else .forcing

/-- The invariant of a run. -/
structure Inv (p : BudgetParams) (r : BudgetRun) : Prop where
  vocab : r.ctx.vocab = p.vocab
  forcedTokens : r.ctx.forcedTokens = p.forcedTokens
  budget : r.ctx.budget = p.budget
  start : r.ctx.startMatcher.At p.startSeqs r.history
  root : r.ctx.state ≠ .idle → r.ctx.state ≠ .done → r.ctx.startMatcher.state = 0
  counting : r.ctx.state = .counting →
    0 < r.ctx.remaining ∧ (r.counted : Int) + r.ctx.remaining = p.budget
  forcing : r.ctx.state = .forcing → r.ctx.forcePos = r.forced.length ∧
    (p.forcedTokens ≠ [] → r.forced.length < p.forcedTokens.length)

theorem start_inv (p : BudgetParams) : Inv p (start p) where
  vocab := rfl
  forcedTokens := rfl
  budget := rfl
  start := TokenMatcher.at_root [] rfl rfl
  root := fun _ _ => rfl
  counting := by
    intro hState
    have hState' : (if p.initialState = .counting ∧ p.budget ≤ 0 then .forcing
        else p.initialState) = ReasoningBudgetState.counting := hState
    show 0 < p.budget ∧ ((0 : Nat) : Int) + p.budget = p.budget
    split at hState'
    next => contradiction
    next hNot =>
      have hPos : ¬p.budget ≤ 0 := fun hLe => hNot ⟨hState', hLe⟩
      omega
  forcing := by
    intro _
    exact ⟨rfl, length_pos_of_ne_nil⟩

variable {p : BudgetParams} {r : BudgetRun}

section

variable (h : Inv p r)

include h

theorem inv_watching (hState : r.ctx.state = .idle ∨ r.ctx.state = .done) (token : LlamaToken) :
    Inv p (step (.accept token) r) := by
  obtain ⟨hVocab, hForced, hBudget⟩ := r.ctx.accept_config token
  obtain ⟨hStart, hNext⟩ := r.ctx.accept_watching token hState
  have hNotCounting : r.ctx.state ≠ .counting := by
    cases hState with
    | inl hIdle => rw [hIdle]; decide
    | inr hDone => rw [hDone]; decide
  have hNotForcing : r.ctx.state ≠ .forcing := by
    cases hState with
    | inl hIdle => rw [hIdle]; decide
    | inr hDone => rw [hDone]; decide
  exact {
    vocab := hVocab.trans h.vocab
    forcedTokens := hForced.trans h.forcedTokens
    budget := hBudget.trans h.budget
    start := by
      show (r.ctx.accept token).startMatcher.At p.startSeqs (r.history ++ [token])
      rw [hStart]
      exact h.start.advance token
    root := by
      intro hIdle hDone
      show (r.ctx.accept token).startMatcher.state = 0
      rcases hNext with hSame | ⟨hMatch, -⟩
      · cases hState with
        | inl hWas => exact absurd (hSame.trans hWas) hIdle
        | inr hWas => exact absurd (hSame.trans hWas) hDone
      have hMatch' : (r.ctx.startMatcher.ac.matchPattern (r.ctx.startMatcher.ac.next
          r.ctx.startMatcher.state (tokenSymbol token))).isSome := hMatch
      rw [hStart]
      simp only [TokenMatcher.advance]
      rw [if_pos hMatch']
    counting := by
      intro hCounting
      have hCounting' : (r.ctx.accept token).state = .counting := hCounting
      show 0 < (r.ctx.accept token).remaining ∧
        (((if r.ctx.state = .counting then r.counted + 1 else 0 : Nat) : Int) +
          (r.ctx.accept token).remaining = p.budget)
      rw [if_neg hNotCounting]
      rcases hNext with hSame | ⟨-, hActive⟩
      · exact absurd (hSame.symm.trans hCounting') hNotCounting
      rcases hActive with ⟨-, hForcing, -⟩ | ⟨hPos, -, hRemaining⟩
      · rw [hForcing] at hCounting'
        contradiction
      rw [hRemaining, h.budget]
      rw [h.budget] at hPos
      omega
    forcing := by
      intro hForcing
      have hForcing' : (r.ctx.accept token).state = .forcing := hForcing
      show (r.ctx.accept token).forcePos =
          (if r.ctx.state = .forcing then r.forced ++ [token] else []).length ∧
        (p.forcedTokens ≠ [] →
          (if r.ctx.state = .forcing then r.forced ++ [token] else []).length <
            p.forcedTokens.length)
      rw [if_neg hNotForcing]
      rcases hNext with hSame | ⟨-, hActive⟩
      · exact absurd (hSame.symm.trans hForcing') hNotForcing
      rcases hActive with ⟨-, -, hPos⟩ | ⟨-, hCounting, -⟩
      · exact ⟨hPos, length_pos_of_ne_nil⟩
      · rw [hCounting] at hForcing'
        contradiction }

/-- A token accepted in COUNTING, WAITING_UTF8 or FORCING leaves the start
matcher at its root; what is left to say are the counters. -/
theorem inv_inside (hIdle : r.ctx.state ≠ .idle) (hDone : r.ctx.state ≠ .done) {token : LlamaToken}
    (hStart : (r.ctx.accept token).startMatcher = r.ctx.startMatcher)
    (hCounting : (r.ctx.accept token).state = .counting →
      0 < (r.ctx.accept token).remaining ∧
        ((step (.accept token) r).counted : Int) + (r.ctx.accept token).remaining = p.budget)
    (hForcing : (r.ctx.accept token).state = .forcing →
      (r.ctx.accept token).forcePos = (step (.accept token) r).forced.length ∧
        (p.forcedTokens ≠ [] →
          (step (.accept token) r).forced.length < p.forcedTokens.length)) :
    Inv p (step (.accept token) r) := by
  obtain ⟨hVocab, hForcedTokens, hBudget⟩ := r.ctx.accept_config token
  have hRoot : (r.ctx.accept token).startMatcher.state = 0 := by
    rw [hStart]
    exact h.root hIdle hDone
  have hAc : (r.ctx.accept token).startMatcher.ac =
      .ofTrie (TokenMatcher.buildTrie (TokenMatcher.collect p.startSeqs)) := by
    rw [hStart]
    exact h.start.ac
  exact {
    vocab := hVocab.trans h.vocab
    forcedTokens := hForcedTokens.trans h.forcedTokens
    budget := hBudget.trans h.budget
    start := TokenMatcher.at_root _ hAc hRoot
    root := fun _ _ => hRoot
    counting := hCounting
    forcing := hForcing }

theorem inv_counting (hState : r.ctx.state = .counting) (token : LlamaToken) :
    Inv p (step (.accept token) r) := by
  obtain ⟨hStart, hNext⟩ := r.ctx.accept_counting token hState
  obtain ⟨-, hSum⟩ := h.counting hState
  refine inv_inside h (by rw [hState]; decide) (by rw [hState]; decide) hStart ?_ ?_
  · intro hCounting
    have hCounted : (step (.accept token) r).counted = r.counted + 1 := if_pos hState
    rcases hNext with hDone | ⟨hLeft, -, hRemaining⟩ | ⟨-, -, ⟨-, hForcing, -⟩ | hWaiting⟩
    · rw [hDone] at hCounting
      contradiction
    · omega
    · rw [hForcing] at hCounting
      contradiction
    · rw [hWaiting] at hCounting
      contradiction
  intro hForcing
  have hForced : (step (.accept token) r).forced = [] := if_neg (by rw [hState]; decide)
  rw [hForced]
  rcases hNext with hDone | ⟨-, hCounting, -⟩ | ⟨-, -, ⟨-, -, hPos⟩ | hWaiting⟩
  · rw [hDone] at hForcing
    contradiction
  · rw [hCounting] at hForcing
    contradiction
  · exact ⟨hPos, length_pos_of_ne_nil⟩
  · rw [hWaiting] at hForcing
    contradiction

theorem inv_waiting (hState : r.ctx.state = .waitingUtf8) (token : LlamaToken) :
    Inv p (step (.accept token) r) := by
  obtain ⟨hStart, hNext⟩ := r.ctx.accept_waiting token hState
  refine inv_inside h (by rw [hState]; decide) (by rw [hState]; decide) hStart ?_ ?_
  · intro hCounting
    rcases hNext with hDone | hWaiting | ⟨-, -, hForcing, -⟩
    · rw [hDone] at hCounting
      contradiction
    · rw [hWaiting] at hCounting
      contradiction
    · rw [hForcing] at hCounting
      contradiction
  intro hForcing
  have hForced : (step (.accept token) r).forced = [] := if_neg (by rw [hState]; decide)
  rw [hForced]
  rcases hNext with hDone | hWaiting | ⟨-, -, -, hPos⟩
  · rw [hDone] at hForcing
    contradiction
  · rw [hWaiting] at hForcing
    contradiction
  · exact ⟨hPos, length_pos_of_ne_nil⟩

theorem inv_forcing (hState : r.ctx.state = .forcing) (token : LlamaToken) :
    Inv p (step (.accept token) r) := by
  obtain ⟨hStart, hPos, hNext⟩ := r.ctx.accept_forcing token hState
  obtain ⟨hForcePos, -⟩ := h.forcing hState
  refine inv_inside h (by rw [hState]; decide) (by rw [hState]; decide) hStart ?_ ?_
  · intro hCounting
    rw [hNext] at hCounting
    split at hCounting
    · contradiction
    · contradiction
  intro hForcing
  have hForced : (step (.accept token) r).forced = r.forced ++ [token] := if_pos hState
  rw [hForced, length_append, length_singleton]
  rw [hNext] at hForcing
  split at hForcing
  next => contradiction
  next hMore =>
    rw [h.forcedTokens] at hMore
    exact ⟨by omega, fun _ => by omega⟩

theorem inv_accept (token : LlamaToken) : Inv p (step (.accept token) r) := by
  cases hState : r.ctx.state with
  | idle => exact inv_watching h (Or.inl hState) token
  | counting => exact inv_counting h hState token
  | forcing => exact inv_forcing h hState token
  | waitingUtf8 => exact inv_waiting h hState token
  | done => exact inv_watching h (Or.inr hState) token

/-- A manual transition: the forcing starts over. -/
def forceNow (r : BudgetRun) : BudgetRun :=
  { r with
    ctx := { r.ctx with
      state := .forcing, forcePos := 0, endMatcher := r.ctx.endMatcher.reset }
    forced := [] }

theorem inv_forceNow (hRoot : r.ctx.startMatcher.state = 0) : Inv p r.forceNow where
  vocab := h.vocab
  forcedTokens := h.forcedTokens
  budget := h.budget
  start := h.start
  root := fun _ _ => hRoot
  counting := fun hCounting => by contradiction
  forcing := fun _ => ⟨rfl, length_pos_of_ne_nil⟩

theorem inv_force : Inv p (step .force r) := by
  by_cases hState : r.ctx.state = .counting
  · have hStep : step .force r = r.forceNow := by
      simp [step, ReasoningBudget.force, forceNow, hState]
    rw [hStep]
    exact inv_forceNow h (h.root (by rw [hState]; decide) (by rw [hState]; decide))
  have hStep : step .force r = r := by simp [step, ReasoningBudget.force, hState]
  rw [hStep]
  exact h

theorem inv_forceEnd (hFits : Fits p .forceEnd r) : Inv p (step .forceEnd r) := by
  by_cases hForced : r.ctx.forcedTokens = []
  · have hStep : step .forceEnd r = r := by simp [step, ReasoningBudget.forceEnd, hForced]
    rw [hStep]
    exact h
  have hStep : step .forceEnd r = r.forceNow := by
    simp [step, ReasoningBudget.forceEnd, forceNow, hForced]
  rw [hStep]
  cases hFits with
  | inl hNil => exact absurd hNil hForced
  | inr hRoot => exact inv_forceNow h hRoot

theorem inv_reset : Inv p (step .reset r) where
  vocab := h.vocab
  forcedTokens := h.forcedTokens
  budget := h.budget
  start := TokenMatcher.at_root [] h.start.ac rfl
  root := fun _ _ => rfl
  counting := fun hCounting => by contradiction
  forcing := fun hForcing => by contradiction

theorem inv_step (op : BudgetOp) (hFits : Fits p op r) : Inv p (step op r) := by
  cases op with
  | accept token => exact inv_accept h token
  | force => exact inv_force h
  | forceEnd => exact inv_forceEnd h hFits
  | reset => exact inv_reset h

end

/-- A run of the sampler whose steps all meet the condition. -/
def Reachable (p : BudgetParams) (r : BudgetRun) : Prop :=
  Run (fun c => c = start p) (fun op c c' => c' = step op c) (Fits p) r

theorem Reachable.inv (h : Reachable p r) : Inv p r := by
  refine Run.invariant h ?_ ?_
  · intro c hc
    rw [hc]
    exact start_inv p
  intro op c c' hInv hFits hStep
  rw [hStep]
  exact inv_step hInv op hFits

/-! ## The promises -/

section Promises

variable {p : BudgetParams} {r : BudgetRun} {token : LlamaToken}

theorem Inv.activation (h : Inv p r) (hState : r.ctx.state = .idle ∨ r.ctx.state = .done)
    (hActive : (r.ctx.accept token).state = .counting ∨ (r.ctx.accept token).state = .forcing) :
    ∃ seq ∈ p.startSeqs, seq ≠ [] ∧ seq <:+ r.history ++ [token] := by
  obtain ⟨-, hNext⟩ := r.ctx.accept_watching token hState
  rcases hNext with hSame | ⟨hMatch, -⟩
  · rw [hSame] at hActive
    rcases hState with hWas | hWas <;> rw [hWas] at hActive <;> simp at hActive
  · exact h.start.matched hMatch

theorem Inv.withinBudget (h : Inv p r) (hState : r.ctx.state = .counting) :
    (r.counted : Int) + 1 ≤ p.budget ∧
      ((r.counted : Int) + 1 = p.budget → (r.ctx.accept token).state ≠ .counting) := by
  obtain ⟨hPos, hSum⟩ := h.counting hState
  refine ⟨by omega, ?_⟩
  intro hLast hCounting
  obtain ⟨-, hNext⟩ := r.ctx.accept_counting token hState
  rcases hNext with hDone | ⟨hLeft, -, -⟩ | ⟨-, -, ⟨-, hForcing, -⟩ | hWaiting⟩
  · rw [hDone] at hCounting
    contradiction
  · omega
  · rw [hForcing] at hCounting
    contradiction
  · rw [hWaiting] at hCounting
    contradiction

/-- The counting ends in FORCING only on a complete piece. -/
theorem utf8Complete_of_forcing
    (hState : r.ctx.state = .counting ∨ r.ctx.state = .waitingUtf8)
    (hForcing : (r.ctx.accept token).state = .forcing) :
    (r.ctx.state = .waitingUtf8 ∨ r.ctx.state = .counting ∧ r.ctx.remaining ≤ 1) ∧
      (r.ctx.endMatcher.advance token).2 = none ∧ r.ctx.utf8Complete token = true := by
  cases hState with
  | inl hCounting =>
    obtain ⟨-, hNext⟩ := r.ctx.accept_counting token hCounting
    rcases hNext with hDone | ⟨-, hStays, -⟩ | ⟨hUsed, hNone, ⟨hComplete, -, -⟩ | hWaiting⟩
    · rw [hDone] at hForcing
      contradiction
    · rw [hStays] at hForcing
      contradiction
    · exact ⟨Or.inr ⟨hCounting, hUsed⟩, hNone, hComplete⟩
    · rw [hWaiting] at hForcing
      contradiction
  | inr hWaiting =>
    obtain ⟨-, hNext⟩ := r.ctx.accept_waiting token hWaiting
    rcases hNext with hDone | hStays | ⟨hNone, hComplete, -, -⟩
    · rw [hDone] at hForcing
      contradiction
    · rw [hStays] at hForcing
      contradiction
    · exact ⟨Or.inl hWaiting, hNone, hComplete⟩

theorem Inv.endsComplete (h : Inv p r) (hFits : Fits p (.accept token) r)
    (hState : r.ctx.state = .counting ∨ r.ctx.state = .waitingUtf8)
    (hForcing : (r.ctx.accept token).state = .forcing) (piece : LlamaToken → List UInt8)
    (hVocab : p.vocab = some piece) : EndsComplete (piece token) := by
  obtain ⟨hEnd, hNone, hComplete⟩ := utf8Complete_of_forcing hState hForcing
  simp only [ReasoningBudget.utf8Complete, h.vocab, hVocab] at hComplete
  exact endsComplete_of_isComplete hComplete (hFits hEnd hNone piece hVocab hComplete)

theorem Inv.mask (h : Inv p r) (hState : r.ctx.state = .forcing) (hForced : p.forcedTokens ≠ []) :
    ∃ next, p.forcedTokens[r.forced.length]? = some next ∧
      ∀ (Logit : Type) (negInf : Logit) cur, r.ctx.apply negInf cur =
        cur.map fun d => if d.id = next then d else { d with logit := negInf } := by
  obtain ⟨hPos, hLt⟩ := h.forcing hState
  have hNext := getElem?_eq_getElem (hLt hForced)
  refine ⟨_, hNext, ?_⟩
  intro Logit negInf cur
  simp only [ReasoningBudget.apply]
  rw [if_neg (by simpa using hState), hPos, h.forcedTokens, hNext]
  refine map_congr_left ?_
  intro d _
  rw [ite_not]

theorem Inv.done (h : Inv p r) (hState : r.ctx.state = .forcing) (hForced : p.forcedTokens ≠ []) :
    (r.ctx.accept token).state =
      if r.forced.length + 1 = p.forcedTokens.length then .done else .forcing := by
  obtain ⟨-, -, hNext⟩ := r.ctx.accept_forcing token hState
  obtain ⟨hPos, hLt⟩ := h.forcing hState
  have hLt' := hLt hForced
  rw [hNext, h.forcedTokens]
  refine if_congr ?_ rfl rfl
  omega

end Promises

/-- **The reasoning budget.**  In every run whose steps meet the condition, and
for every token accepted next, the activation follows a start sequence, the
counting stays within the budget, the forcing begins on a complete code point,
and a forced sequence that is not empty is forced token by token. -/
theorem reachable_meets (p : BudgetParams) (r : BudgetRun) (token : LlamaToken)
    (h : Reachable p r) (hFits : Fits p (.accept token) r) : Meets p r token where
  activation := h.inv.activation
  budget := fun _ hState => h.inv.withinBudget hState
  complete := h.inv.endsComplete hFits
  mask := h.inv.mask
  done := h.inv.done

/-- One reasoning token, with pieces that are one byte long. -/
def shortBudget : BudgetParams where
  vocab := some fun _ => [0x61]
  startSeqs := [[1]]
  endSeqs := [[3]]
  forcedTokens := [9, 3]
  budget := 1
  initialState := .idle

/-- The budget is used up by the token after the start sequence. -/
theorem shortBudget_meets : Meets shortBudget (step (.accept 1) (start shortBudget)) 2 := by
  have hReach : Reachable shortBudget (step (.accept 1) (start shortBudget)) := by
    refine Run.step (BudgetOp.accept 1) (Run.start rfl) ?_ rfl
    intro hEnd
    rcases hEnd with hWaiting | ⟨hCounting, -⟩
    · contradiction
    · contradiction
  refine reachable_meets shortBudget _ 2 hReach ?_
  intro _ _ piece hPiece _
  rw [← Option.some.inj hPiece]
  decide

/-- A start sequence of two tokens. -/
def pairStart : BudgetParams where
  vocab := none
  startSeqs := [[1, 2]]
  endSeqs := [[3]]
  forcedTokens := [9]
  budget := 5
  initialState := .idle

/-- The first start token, a forced end with its token. -/
def staleRun : BudgetRun :=
  step (.accept 9) (step .forceEnd (step (.accept 1) (start pairStart)))

/-- No forced tokens. -/
def emptyForced : BudgetParams := { shortBudget with forcedTokens := [], startSeqs := [[1]] }

/-- The budget is used up. -/
def emptyRun : BudgetRun := step (.accept 2) (step (.accept 1) (start emptyForced))

/-- A token that is an ASCII byte with a stray continuation byte. -/
def strayBudget : BudgetParams := { shortBudget with vocab := some fun _ => [0x61, 0x80] }

set_option maxRecDepth 20000 in
/-- After a forced end the start matcher stands in the middle of a sequence; without forced tokens
FORCING leads to DONE; a stray continuation byte counts as complete. -/
theorem staleStart_activates :
    (staleRun.ctx.state = .done ∧ (staleRun.ctx.accept 2).state = .counting ∧
      ∀ seq ∈ pairStart.startSeqs, ¬seq <:+ staleRun.history ++ [2]) ∧
    (emptyRun.ctx.state = .forcing ∧ (emptyRun.ctx.accept 7).state = .done ∧
      ∀ cur, emptyRun.ctx.apply (none : Option Int) cur = cur) ∧
    ((step (.accept 1) (start strayBudget)).ctx.state = .counting ∧
      ((step (.accept 1) (start strayBudget)).ctx.accept 2).state = .forcing ∧
      ¬EndsComplete [0x61, 0x80]) := by
  refine ⟨⟨by decide, by decide, by decide⟩,
    ⟨by decide, by decide, ?_⟩,
    ⟨by decide, by decide, ?_⟩⟩
  · intro cur
    have hState : emptyRun.ctx.state = .forcing := by decide
    simp only [ReasoningBudget.apply]
    rfl
  · exact strayByte_not_endsComplete

end BudgetRun

end Beellama.Ports
