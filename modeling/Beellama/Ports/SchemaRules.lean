import Beellama.Ports.GrammarUnique

/-!
# The rules of the schema converter (`_add_rule`)

A shallow embedding of the rule map of `src/common/json-schema-to-grammar.cpp`.  A rule
is bound to a name that is made of the one that was asked for; a name that is bound to
another text gets a number.  No name is ever bound to another text (`addRule_spec`).
-/

namespace Beellama.Ports

open GbnfExpr GrammarParser List Finset

namespace SchemaConverter

/-- `_rules`; a later entry hides an earlier one. -/
abbrev RuleMap := List (List UInt8 × List UInt8)

/-- `std::regex_replace(name, INVALID_RULE_CHARS_RE, "-")`: a run of other characters
becomes one hyphen. -/
def escNameFrom (inRun : Bool) : List UInt8 → List UInt8
  | [] => []
  | c :: name =>
    if isWordChar c then c :: escNameFrom false name
    else if inRun then escNameFrom true name
    else '-'.toUInt8 :: escNameFrom true name

def escName (name : List UInt8) : List UInt8 := escNameFrom false name

/-- The name is free for the rule: not bound, or bound to the same text. -/
def Free (rules : RuleMap) (rule name : List UInt8) : Prop :=
  rules.lookup name = none ∨ rules.lookup name = some rule

instance (rules : RuleMap) (rule name : List UInt8) : Decidable (Free rules rule name) :=
  inferInstanceAs (Decidable (_ ∨ _))

/-- The loop over the numbers behind the name. -/
def firstFree (rules : RuleMap) (rule name : List UInt8) : Nat → Nat → Nat
  | 0, i => i
  | fuel + 1, i =>
    if Free rules rule (name ++ decimal i) then i else firstFree rules rule name fuel (i + 1)

/-- `_add_rule` -/
def addRule (rules : RuleMap) (name rule : List UInt8) : List UInt8 × RuleMap :=
  let esc := escName name
  if Free rules rule esc then (esc, (esc, rule) :: rules)
  else
    let key := esc ++ decimal (firstFree rules rule esc (rules.length + 1) 0)
    (key, (key, rule) :: rules)

/-! ## No name is bound twice -/

/-- What is bound stays bound to its text. -/
def Extends (rules later : RuleMap) : Prop :=
  ∀ name text, rules.lookup name = some text → later.lookup name = some text

theorem Extends.refl (rules : RuleMap) : Extends rules rules := fun _ _ h => h

variable {rules : RuleMap}

theorem Extends.trans {later last : RuleMap} (h : Extends rules later)
    (h' : Extends later last) : Extends rules last :=
  fun name text hText => h' name text (h name text hText)

theorem lookup_cons_self (rules : RuleMap) (name rule : List UInt8) :
    lookup name ((name, rule) :: rules) = some rule := by
  rw [lookup_cons, beq_self_eq_true]

variable {name rule : List UInt8}

theorem Extends.cons (h : Free rules rule name) : Extends rules ((name, rule) :: rules) := by
  intro other text hText
  by_cases hEq : other = name
  · rw [hEq] at hText ⊢
    rw [lookup_cons_self]
    rcases h with hNone | hSame
    · rw [hNone] at hText
      exact absurd hText (Option.some_ne_none text).symm
    · exact hSame.symm.trans hText
  have hNe : (other == name) = false := beq_eq_false_iff_ne.mpr hEq
  rw [lookup_cons, hNe]
  exact hText

theorem mem_map_fst_of_lookup (h : rules.lookup name ≠ none) : name ∈ rules.map Prod.fst := by
  induction rules with
  | nil => exact absurd rfl h
  | cons entry rules ih =>
    rw [List.map_cons, List.mem_cons]
    rw [lookup_cons] at h
    cases hEq : name == entry.1 with
    | true => exact Or.inl (beq_iff_eq.mp hEq)
    | false =>
      rw [hEq] at h
      exact Or.inr (ih h)

theorem exists_free (rules : RuleMap) (rule name : List UInt8) :
    ∃ i ≤ rules.length, Free rules rule (name ++ decimal i) := by
  by_contra hNone
  have hBound : ∀ i ≤ rules.length, name ++ decimal i ∈ rules.map Prod.fst := by
    intro i hi
    apply mem_map_fst_of_lookup
    intro hFree
    exact hNone ⟨i, hi, Or.inl hFree⟩
  have hInjective : Function.Injective fun i => name ++ decimal i :=
    fun i j h => GrammarParser.decimal_injective (append_cancel_left h)
  have hSubset : (Finset.range (rules.length + 1)).image (fun i => name ++ decimal i) ⊆
      (rules.map Prod.fst).toFinset := by
    intro x hx
    obtain ⟨i, hi, rfl⟩ := mem_image.mp hx
    exact mem_toFinset.mpr (hBound i (Nat.lt_succ_iff.mp (Finset.mem_range.mp hi)))
  have hCard := card_le_card hSubset
  rw [card_image_of_injective _ hInjective, card_range] at hCard
  have hSize := toFinset_card_le (rules.map Prod.fst)
  rw [length_map] at hSize
  omega

theorem firstFree_spec {fuel i j : Nat} (hLe : i ≤ j)
    (hFuel : j < i + fuel) (h : Free rules rule (name ++ decimal j)) :
    Free rules rule (name ++ decimal (firstFree rules rule name fuel i)) := by
  induction fuel generalizing i with
  | zero => omega
  | succ fuel ih =>
    rw [firstFree]
    split
    next hFree => exact hFree
    next hNot =>
      have hNe : i ≠ j := fun hEq => hNot (hEq ▸ h)
      exact ih (by omega) (by omega)

theorem escNameFrom_word (inRun : Bool) (name : List UInt8) :
    ∀ c ∈ escNameFrom inRun name, isWordChar c = true := by
  induction name generalizing inRun with
  | nil => exact fun c hc => absurd hc not_mem_nil
  | cons d name ih =>
    intro c hc
    rw [escNameFrom] at hc
    split at hc
    next hWord =>
      cases mem_cons.mp hc with
      | inl hEq =>
        rw [hEq]
        exact hWord
      | inr hMem => exact ih false c hMem
    next =>
      split at hc
      · exact ih true c hc
      cases mem_cons.mp hc with
      | inl hEq =>
        rw [hEq]
        decide
      | inr hMem => exact ih true c hMem

theorem escName_ne_nil (h : name ≠ []) : escName name ≠ [] := by
  cases name with
  | nil => exact absurd rfl h
  | cons c name =>
    rw [escName, escNameFrom]
    split
    · exact cons_ne_nil _ _
    · exact cons_ne_nil _ _

theorem decimal_word (n : Nat) : ∀ c ∈ decimal n, isWordChar c = true := by
  intro c hc
  rw [isWordChar, decimalFrom_digit _ n c hc, Bool.or_true]

/-- The name that is returned is bound to the rule, and no other binding changes. -/
theorem addRule_spec (rules : RuleMap) (name rule : List UInt8) :
    (addRule rules name rule).2.lookup (addRule rules name rule).1 = some rule ∧
      Extends rules (addRule rules name rule).2 := by
  simp only [addRule]
  split
  next hFree => exact ⟨lookup_cons_self _ _ _, .cons hFree⟩
  next =>
    obtain ⟨j, hj, hFree⟩ := exists_free rules rule (escName name)
    exact ⟨lookup_cons_self _ _ _, .cons (firstFree_spec (Nat.zero_le j) (by omega) hFree)⟩

theorem addRule_name (rules : RuleMap) (hName : name ≠ []) (rule : List UInt8) :
    GbnfPiece.IsRuleName (addRule rules name rule).1 := by
  have hWord := escNameFrom_word false name
  simp only [addRule]
  split
  · exact ⟨escName_ne_nil hName, hWord⟩
  refine ⟨append_ne_nil_of_left_ne_nil (escName_ne_nil hName) _, fun c hc => ?_⟩
  cases mem_append.mp hc with
  | inl hEsc => exact hWord c hEsc
  | inr hNumber => exact decimal_word _ c hNumber

/-! ## Primitive rules (`_add_primitive`) -/

/-- A rule of the tables, with the names of the rules that its text refers to. -/
structure BuiltinRule where
  content : List UInt8
  deps : List (List UInt8)

def builtinRule (name content : String) (deps : List String) : List UInt8 × BuiltinRule :=
  (bytes name, ⟨bytes content, deps.map bytes⟩)

/-- `PRIMITIVE_RULES` -/
def primitiveRules : List (List UInt8 × BuiltinRule) :=
  [builtinRule "boolean" "(\"true\" | \"false\")" [],
    builtinRule "decimal-part" "[0-9]\x7b1,16\x7d" [],
    builtinRule "integral-part" "[0] | [1-9] [0-9]\x7b0,15\x7d" [],
    builtinRule "number"
      "(\"-\"? integral-part) (\".\" decimal-part)? ([eE] [-+]? integral-part)?"
      ["integral-part", "decimal-part"],
    builtinRule "integer" "(\"-\"? integral-part)" ["integral-part"],
    builtinRule "value" "object | array | string | number | boolean | null"
      ["object", "array", "string", "number", "boolean", "null"],
    builtinRule "object"
      ("\"\x7b\" space ( string \":\" space value (\",\" space string \":\" space value)* )? " ++
        "space \"\x7d\"") ["string", "value"],
    builtinRule "array" "\"[\" space ( value (\",\" space value)* )? space \"]\"" ["value"],
    builtinRule "uuid"
      ("\"\\\"\" [0-9a-fA-F]\x7b8\x7d \"-\" [0-9a-fA-F]\x7b4\x7d \"-\" [0-9a-fA-F]\x7b4\x7d " ++
        "\"-\" [0-9a-fA-F]\x7b4\x7d \"-\" [0-9a-fA-F]\x7b12\x7d \"\\\"\"") [],
    builtinRule "char"
      ("[^\"\\\\\\x7F\\x00-\\x1F] | [\\\\] ([\"\\\\bfnrt] | " ++
        "\"u\" [0-9a-fA-F]\x7b4\x7d)") [],
    builtinRule "string" "\"\\\"\" char* \"\\\"\"" ["char"],
    builtinRule "null" "\"null\"" []]

/-- `STRING_FORMAT_RULES` -/
def stringFormatRules : List (List UInt8 × BuiltinRule) :=
  [builtinRule "date"
      ("[0-9]\x7b4\x7d \"-\" ( \"0\" [1-9] | \"1\" [0-2] ) \"-\" " ++
        "( \"0\" [1-9] | [1-2] [0-9] | \"3\" [0-1] )") [],
    builtinRule "time"
      ("([01] [0-9] | \"2\" [0-3]) \":\" [0-5] [0-9] \":\" [0-5] [0-9] ( \".\" [0-9]\x7b3\x7d )? " ++
        "( \"Z\" | ( \"+\" | \"-\" ) ( [01] [0-9] | \"2\" [0-3] ) \":\" [0-5] [0-9] )") [],
    builtinRule "date-time" "date \"T\" time" ["date", "time"],
    builtinRule "date-string" "\"\\\"\" date \"\\\"\"" ["date"],
    builtinRule "time-string" "\"\\\"\" time \"\\\"\"" ["time"],
    builtinRule "date-time-string" "\"\\\"\" date-time \"\\\"\"" ["date-time"]]

def builtinNames : List (List UInt8) := (primitiveRules ++ stringFormatRules).map Prod.fst

/-- A rule of the first table, or else of the second. -/
def builtin (name : List UInt8) : Option BuiltinRule :=
  (primitiveRules ++ stringFormatRules).lookup name

/-- `_add_primitive`: the rule, and those of its names that are not bound yet; `none` for a name
that neither table has.  The fuel bounds the depth of the calls. -/
def addPrimitive : Nat → RuleMap → List UInt8 → BuiltinRule → Option (List UInt8 × RuleMap)
  | 0, _, _, _ => none
  | fuel + 1, rules, name, rule =>
    let added := addRule rules name rule.content
    (rule.deps.foldlM (fun rules dep => (builtin dep).bind fun depRule =>
      if rules.lookup dep = none then (addPrimitive fuel rules dep depRule).map Prod.snd
      else some rules) added.2).map fun later => (added.1, later)

theorem foldlM_extends {f : RuleMap → List UInt8 → Option RuleMap}
    (h : ∀ {rules later dep}, f rules dep = some later → Extends rules later)
    {deps : List (List UInt8)} {later : RuleMap} (hFold : deps.foldlM f rules = some later) :
    Extends rules later := by
  induction deps generalizing rules with
  | nil => exact Option.some.inj hFold ▸ .refl rules
  | cons dep deps ih =>
    obtain ⟨next, hNext, hRest⟩ := Option.bind_eq_some_iff.mp hFold
    exact (h hNext).trans (ih hRest)

/-- The name that is returned is bound to the text of the rule, and no other binding changes. -/
theorem addPrimitive_spec {fuel : Nat} {builtin : BuiltinRule} {added : List UInt8 × RuleMap}
    (h : addPrimitive fuel rules name builtin = some added) :
    added.2.lookup added.1 = some builtin.content ∧ Extends rules added.2 := by
  induction fuel generalizing rules name builtin added with
  | zero => exact absurd h.symm (Option.some_ne_none added)
  | succ fuel ih =>
    obtain ⟨later, hFold, rfl⟩ := Option.map_eq_some_iff.mp h
    obtain ⟨hBound, hExtends⟩ := addRule_spec rules name builtin.content
    have hLater := foldlM_extends (fun {before next dep} hStep => ?_) hFold
    · exact ⟨hLater _ _ hBound, hExtends.trans hLater⟩
    obtain ⟨depRule, -, hDep⟩ := Option.bind_eq_some_iff.mp hStep
    split at hDep
    next =>
      obtain ⟨pair, hPair, rfl⟩ := Option.map_eq_some_iff.mp hDep
      exact (ih hPair).2
    next => exact Option.some.inj hDep ▸ .refl before

/-- The names of the tables that are not bound yet. -/
def unbound (rules : RuleMap) : List (List UInt8) :=
  builtinNames.filter fun name => rules.lookup name = none

theorem Extends.unbound_sublist {later : RuleMap} (h : Extends rules later) :
    (unbound later).Sublist (unbound rules) := by
  refine List.monotone_filter_right builtinNames fun name hName => ?_
  have hLater : later.lookup name = none := of_decide_eq_true hName
  refine decide_eq_true ?_
  by_contra hBound
  obtain ⟨text, hText⟩ := Option.ne_none_iff_exists'.mp hBound
  exact absurd (hLater.symm.trans (h name text hText)) (Option.some_ne_none text).symm

/-- The names of the tables are names of rules, and so are those that their texts refer to. -/
theorem builtin_spec {builtinRule : BuiltinRule} (h : builtin name = some builtinRule) :
    name ∈ builtinNames ∧ escName name = name ∧
      ∀ dep ∈ builtinRule.deps, (builtin dep).isSome = true := by
  obtain ⟨before, after, hTable, -⟩ := List.lookup_eq_some_iff.mp h
  have hMem : (name, builtinRule) ∈ primitiveRules ++ stringFormatRules := by
    rw [hTable]
    exact mem_append_right before mem_cons_self
  have hAll : ∀ p ∈ primitiveRules ++ stringFormatRules, escName p.1 = p.1 ∧
      ∀ dep ∈ p.2.deps, (builtin dep).isSome = true := by decide +kernel
  exact ⟨mem_map_of_mem hMem, hAll _ hMem⟩

/-- A free name of the tables is bound to its rule. -/
theorem unbound_length_lt (hNone : rules.lookup name = none) (hName : name ∈ builtinNames)
    (hEsc : escName name = name) (rule : List UInt8) :
    (unbound (addRule rules name rule).2).length < (unbound rules).length := by
  obtain ⟨hBound, hExtends⟩ := addRule_spec rules name rule
  have hKey : (addRule rules name rule).1 = name := by
    simp only [addRule, hEsc]
    rw [if_pos (show Free rules rule name from Or.inl hNone)]
  rw [hKey] at hBound
  refine lt_of_le_of_ne hExtends.unbound_sublist.length_le fun hEq => ?_
  have hOld : name ∈ unbound rules := mem_filter.mpr ⟨hName, decide_eq_true hNone⟩
  rw [← hExtends.unbound_sublist.eq_of_length hEq] at hOld
  have hFree := of_decide_eq_true (mem_filter.mp hOld).2
  exact absurd (hFree.symm.trans hBound) (Option.some_ne_none rule).symm

theorem foldlM_isSome {f : RuleMap → List UInt8 → Option RuleMap} {P : RuleMap → Prop}
    {deps : List (List UInt8)} (hP : P rules)
    (h : ∀ dep ∈ deps, ∀ rules, P rules → ∃ later, f rules dep = some later ∧ P later) :
    (deps.foldlM f rules).isSome = true := by
  induction deps generalizing rules with
  | nil => rfl
  | cons dep deps ih =>
    obtain ⟨later, hStep, hLater⟩ := h dep mem_cons_self rules hP
    rw [foldlM_cons, hStep]
    exact ih hLater fun other hMem => h other (mem_cons_of_mem dep hMem)

/-- The depth of the calls is bounded by the names that are free: each call but the outermost
binds one of them. -/
theorem addPrimitive_isSome {fuel : Nat} {builtinRule : BuiltinRule}
    (hDeps : ∀ dep ∈ builtinRule.deps, (builtin dep).isSome = true)
    (hFuel : (unbound (addRule rules name builtinRule.content).2).length ≤ fuel) :
    (addPrimitive (fuel + 1) rules name builtinRule).isSome = true := by
  induction fuel using Nat.strong_induction_on generalizing rules name builtinRule with
  | h fuel ih =>
    rw [addPrimitive, Option.isSome_map]
    refine foldlM_isSome (P := fun rules => (unbound rules).length ≤ fuel) hFuel
      fun dep hDep before hBefore => ?_
    obtain ⟨depRule, hRule⟩ := Option.isSome_iff_exists.mp (hDeps dep hDep)
    obtain ⟨hMem, hEsc, hNext⟩ := builtin_spec hRule
    rw [hRule, Option.bind_some]
    split
    next hNone =>
      have hLess := unbound_length_lt hNone hMem hEsc depRule.content
      obtain ⟨added, hAdded⟩ := Option.isSome_iff_exists.mp
        (@ih (fuel - 1) (by omega) before dep depRule hNext (by omega))
      have hFuelEq : fuel - 1 + 1 = fuel := by omega
      rw [hFuelEq] at hAdded
      rw [hAdded]
      exact ⟨_, rfl, (addPrimitive_spec hAdded).2.unbound_sublist.length_le.trans hBefore⟩
    next => exact ⟨before, rfl, hBefore⟩

/-- `_add_primitive` of a rule of the tables. -/
def addBuiltin (rules : RuleMap) (name key : List UInt8) : Option (List UInt8 × RuleMap) :=
  (builtin key).bind (addPrimitive (builtinNames.length + 1) rules name)

theorem addBuiltin_spec {key : List UInt8} {added : List UInt8 × RuleMap}
    (h : addBuiltin rules name key = some added) :
    added.2.lookup added.1 ≠ none ∧ Extends rules added.2 := by
  obtain ⟨builtinRule, -, hAdd⟩ := Option.bind_eq_some_iff.mp h
  obtain ⟨hBound, hExtends⟩ := addPrimitive_spec hAdd
  rw [hBound]
  exact ⟨Option.some_ne_none _, hExtends⟩

/-- A rule of the tables is always added. -/
theorem addBuiltin_isSome (rules : RuleMap) (name : List UInt8) {key : List UInt8} :
    (addBuiltin rules name key).isSome = (builtin key).isSome := by
  cases hKey : builtin key with
  | none =>
    rw [addBuiltin, hKey]
    rfl
  | some builtinRule =>
    rw [addBuiltin, hKey]
    exact addPrimitive_isSome (builtin_spec hKey).2.2 (length_filter_le _ _)

/-! ## The grammar of the rules -/

/-- Expressions for the names of a rule map, each spelled by the text of its rule. -/
structure Reading (rules : RuleMap) where
  defs : List UInt8 → Option GbnfExpr
  reads : ∀ name text, rules.lookup name = some text →
    ∃ e, defs name = some e ∧ Spells false .alternates e text

/-- The reading of rules that pieces spell. -/
def Reading.ofPieces (pieces : List (List UInt8 × GbnfPiece))
    (h : ∀ p ∈ pieces, p.2.Spelled .alternates) :
    Reading (pieces.map fun p => (p.1, p.2.text)) where
  defs name := (pieces.lookup name).map GbnfPiece.expr
  reads := by
    intro name text hText
    induction pieces with
    | nil => exact absurd hText.symm (Option.some_ne_none text)
    | cons p pieces ih =>
      rw [List.map_cons, List.lookup_cons] at hText
      rw [List.lookup_cons]
      cases hEq : name == p.1 with
      | true =>
        rw [hEq] at hText
        exact ⟨p.2.expr, rfl, Option.some.inj hText ▸ h p List.mem_cons_self false⟩
      | false =>
        rw [hEq] at hText
        exact ih (fun q hq => h q (List.mem_cons_of_mem p hq)) hText

/-- A name that is bound to what pieces spell has their language. -/
theorem Reading.lang_ref (reading : Reading rules) {text : List UInt8}
    (hText : rules.lookup name = some text) {e : GbnfExpr} (hSpells : Spells false .alternates e text) :
    lang reading.defs (.ref name) = lang reading.defs e := by
  obtain ⟨e', hDef, hSpells'⟩ := reading.reads name text hText
  rw [← hSpells'.lang_unique hSpells]
  ext w
  rw [mem_lang_ref, hDef]
  constructor
  · rintro ⟨x, hEq, hMem⟩
    rwa [← Option.some.inj hEq] at hMem
  · exact fun hMem => ⟨_, rfl, hMem⟩

end SchemaConverter

end Beellama.Ports
