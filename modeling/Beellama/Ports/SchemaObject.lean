import Beellama.Ports.SchemaRules
import Beellama.Verified.SeparatedList
import Beellama.Verified.Utf8

/-!
# The rules of objects (`_build_object_rule`)

The method of `src/common/json-schema-to-grammar.cpp`.  The rule of the object lists the required
properties; behind them stands one alternative for each optional property that can come first, and a
chain of rules for the optional properties after it.
-/

namespace Beellama.Ports

open Beellama.Verified GbnfExpr GrammarParser List Option Utf8 SeparatedList GbnfGrammar

namespace SchemaConverter

open GbnfPiece

/-! ## Literals -/

/-- The names of properties: texts of Unicode, as the parser of JSON gives them. -/
abbrev Key := List Char

def utf8 (text : List Char) : List UInt8 := text.flatMap fun c => Utf8.encode c.toNat

/-- `dump_escaped` of one character, in the mode that keeps what is not of ASCII. -/
def dumpEscaped (c : Char) : List Char :=
  if c.toNat = 0x08 then ['\\', 'b']
  else if c.toNat = 0x09 then ['\\', 't']
  else if c.toNat = 0x0A then ['\\', 'n']
  else if c.toNat = 0x0C then ['\\', 'f']
  else if c.toNat = 0x0D then ['\\', 'r']
  else if c.toNat = 0x22 then ['\\', '"']
  else if c.toNat = 0x5C then ['\\', '\\']
  else if c.toNat ≤ 0x1F then
    ['\\', 'u', '0', '0', Nat.digitChar (c.toNat / 16), Nat.digitChar (c.toNat % 16)]
  else [c]

/-- `json(key).dump()` -/
def dump (key : Key) : List Char := '"' :: (key.flatMap dumpEscaped ++ ['"'])

/-- `GRAMMAR_LITERAL_ESCAPES`, for the characters of `GRAMMAR_LITERAL_ESCAPE_RE`. -/
def escapeLiteral (c : Char) : List Char :=
  if c = '\r' then ['\\', 'r']
  else if c = '\n' then ['\\', 'n']
  else if c = '"' then ['\\', '"']
  else if c = '\\' then ['\\', '\\']
  else [c]

/-- `format_literal` -/
def formatLiteral (literal : List Char) : List UInt8 :=
  bytes "\"" ++ utf8 (literal.flatMap escapeLiteral) ++ bytes "\""

example : formatLiteral (dump ['a', '"']) = bytes "\"\\\"a\\\\\\\"\\\"\"" := by decide +kernel

theorem decodeFollowing_continuations (c n : Nat) (rest : List UInt8) :
    decodeFollowing n (Utf8.continuations n c ++ rest) (c / 64 ^ n) = (c, rest) := by
  induction n with
  | zero => rw [decodeFollowing, pow_zero, Nat.div_one, continuations, nil_append]
  | succ n ih =>
    have hDigit : c / 64 ^ (n + 1) * 0x40 + (0x80 + c / 64 ^ n % 64) % 0x40 = c / 64 ^ n := by
      have hStep := div_step c n
      omega
    rw [continuations, cons_append, decodeFollowing, continuation_toNat, hDigit, ih]

/-- What the parser reads from the lead byte of a code point. -/
theorem decodeUtf8Char_lead {c : Nat} (h : c < 0x110000) (src : List UInt8) :
    decodeUtf8Char (Utf8.leadMark (Utf8.following c) + c / 64 ^ Utf8.following c).toUInt8 src =
      decodeFollowing (Utf8.following c) src (c / 64 ^ Utf8.following c) := by
  have hLead := Utf8.lead_lt h
  have hLe := Utf8.following_le c
  simp only [decodeUtf8Char]
  rw [Utf8.lead_toNat h]
  generalize c / 64 ^ Utf8.following c = d at hLead ⊢
  generalize Utf8.following c = k at hLead hLe ⊢
  obtain rfl | rfl | rfl | rfl : k = 0 ∨ k = 1 ∨ k = 2 ∨ k = 3 := by omega
  · have hDigit : d < 0x80 := hLead
    simp only [Utf8.leadMark]
    rw [if_pos (by omega), show (0 + d) % 2 ^ (8 - 1) = d by omega]
  · have hDigit : d < 0x20 := hLead
    simp only [Utf8.leadMark]
    rw [if_neg (by omega), if_pos (by omega), show (0xC0 + d) % 2 ^ (8 - 2) = d by omega]
  · have hDigit : d < 0x10 := hLead
    simp only [Utf8.leadMark]
    rw [if_neg (by omega), if_neg (by omega), if_pos (by omega),
      show (0xE0 + d) % 2 ^ (8 - 3) = d by omega]
  have hDigit : d < 5 := hLead
  simp only [Utf8.leadMark]
  rw [if_neg (by omega), if_neg (by omega), if_neg (by omega),
    show (0xF0 + d) % 2 ^ (8 - 4) = d by omega]

/-- The first byte of a code point is that of no other one of ASCII. -/
theorem lead_ne {c : Nat} (h : c < 0x110000) {d : UInt8} (hAscii : d.toNat < 0x80)
    (hNe : c ≠ d.toNat) :
    (Utf8.leadMark (Utf8.following c) + c / 64 ^ Utf8.following c).toUInt8 ≠ d := by
  intro hEq
  have hByte := congrArg UInt8.toNat hEq
  rw [lead_toNat h] at hByte
  have hLe := following_le c
  generalize hk : Utf8.following c = k at hByte hLe
  obtain rfl | rfl | rfl | rfl : k = 0 ∨ k = 1 ∨ k = 2 ∨ k = 3 := by omega
  · simp only [leadMark, pow_zero] at hByte
    omega
  -- the first byte of a longer one is at least 0xC0
  all_goals
    simp only [leadMark] at hByte
    omega

/-- A code point is spelled by its encoding, a backslash apart. -/
theorem spellsChar_encode {c : Nat} (h : c < 0x110000) (hEscape : c ≠ 0x5C) :
    SpellsChar c (Utf8.encode c) := by
  refine ⟨cons_ne_nil _ _, fun rest => ?_⟩
  have hLead := @lead_ne c h '\\'.toUInt8 (by decide) hEscape
  show (if _ = '\\'.toUInt8 then _ else some (decodeUtf8Char _ _)) = _
  rw [if_neg hLead, decodeUtf8Char_lead h]
  exact congrArg some (decodeFollowing_continuations _ _ _)

theorem char_lt (c : Char) : c.toNat < 0x110000 := by
  have hValid : c.toNat.isValidChar := c.valid
  rcases hValid with h | h
  · omega
  · exact h.2

theorem escapeLiteral_spells (c : Char) :
    SpellsChar c.toNat (utf8 (escapeLiteral c)) ∧
      (utf8 (escapeLiteral c)).head? ≠ some '"'.toUInt8 := by
  unfold escapeLiteral
  split
  next hEq =>
    rw [hEq]
    exact ⟨⟨cons_ne_nil _ _, fun rest => rfl⟩, by decide⟩
  split
  next hEq =>
    rw [hEq]
    exact ⟨⟨cons_ne_nil _ _, fun rest => rfl⟩, by decide⟩
  split
  next hEq =>
    rw [hEq]
    exact ⟨⟨cons_ne_nil _ _, fun rest => rfl⟩, by decide⟩
  split
  next hEq =>
    rw [hEq]
    exact ⟨⟨cons_ne_nil _ _, fun rest => rfl⟩, by decide⟩
  next hReturn hLine hQuote hBackslash =>
    have hNe : ∀ d : Char, c ≠ d → c.toNat ≠ d.toNat := fun d hd hEq => hd (Char.toNat_inj.mp hEq)
    have hText : utf8 [c] = encode c.toNat := append_nil _
    rw [hText]
    refine ⟨spellsChar_encode (char_lt c) (hNe _ hBackslash), fun hHead => ?_⟩
    exact @lead_ne _ (char_lt c) '"'.toUInt8 (by decide) (hNe _ hQuote) (some.inj hHead)

/-- The literal of a text. -/
def literalPiece (literal : List Char) : GbnfPiece :=
  ⟨.literal (literal.map Char.toNat), formatLiteral literal⟩

theorem literalPiece_spelled (literal : List Char) : (literalPiece literal).Spelled .item := by
  intro nested
  have hChars : SpellsChars (literal.map Char.toNat) (utf8 (literal.flatMap escapeLiteral)) := by
    induction literal with
    | nil => exact .nil
    | cons c literal ih =>
      obtain ⟨hChar, hHead⟩ := escapeLiteral_spells c
      rw [flatMap_cons, utf8, flatMap_append]
      exact .cons hChar hHead ih
  have hText := Spells.literal hChars (@blanks_nil nested)
  rwa [append_nil] at hText

theorem literalPiece_writes (defs : List UInt8 → Option GbnfExpr) (literal : List Char) :
    Writes defs (literalPiece literal) {literal.map Char.toNat} :=
  ⟨literalPiece_spelled literal, by
    ext w
    exact mem_lang_literal⟩

/-! ## The rule of an object -/

/-- What the rule of an object calls of the converter: rules are only added. `visit` is `none` where
it records an error. -/
structure Visitor (Schema : Type) where
  visit : Schema → List UInt8 → RuleMap → Option (List UInt8 × RuleMap)
  addPrimitive : List UInt8 → RuleMap → List UInt8 × RuleMap
  notStrings : List Key → RuleMap → List UInt8 × RuleMap
  visit_extends : ∀ schema name rules r, visit schema name rules = some r → Extends rules r.2
  visit_isName : ∀ schema name rules r, visit schema name rules = some r → IsRuleName r.1
  addPrimitive_extends : ∀ name rules, Extends rules (addPrimitive name rules).2
  notStrings_extends : ∀ keys rules, Extends rules (notStrings keys rules).2

/-- `additionalProperties`; absent and false are `closed`. -/
inductive AdditionalProperties (Schema : Type)
  | closed
  | any
  | schema (schema : Schema)

/-- The names under the rule of the object. -/
def subName (name suffix : List UInt8) : List UInt8 :=
  name ++ (if name = [] then [] else bytes "-") ++ suffix

/-- The rule of a property: its key, and the rule of its value. -/
def kvText (key : Key) (valueRule : List UInt8) : List UInt8 :=
  formatLiteral (dump key) ++ bytes " space \":\" space " ++ valueRule

/-- The name that stands for the additional properties. -/
def star : Key := ['*']

instance lawfulBEqKey : LawfulBEq Key := inferInstanceAs (LawfulBEq (List Char))

/-- The variables of `_build_object_rule`. -/
structure Properties where
  requiredProps : List Key
  optionalProps : List Key
  /-- `prop_kv_rule_names`; a later entry hides an earlier one -/
  kvRuleNames : List (Key × List UInt8)
  propNames : List Key
  rules : RuleMap

/-- `prop_kv_rule_names[key]` -/
def Properties.kvRule (s : Properties) (key : Key) : List UInt8 :=
  (s.kvRuleNames.lookup key).getD []

section Build

variable {Schema : Type} (V : Visitor Schema)

/-- A turn of the loop over the properties. -/
def addProperty (required : List Key) (name : List UInt8) (s : Properties)
    (property : Key × Schema) : Option Properties :=
  let key := property.1
  (V.visit property.2 (subName name (utf8 key)) s.rules).map fun value =>
    let kv := addRule value.2 (subName name (utf8 key ++ bytes "-kv")) (kvText key value.1)
    { requiredProps := s.requiredProps ++ if key ∈ required then [key] else []
      optionalProps := s.optionalProps ++ if key ∈ required then [] else [key]
      kvRuleNames := (key, kv.1) :: s.kvRuleNames
      propNames := s.propNames ++ [key]
      rules := kv.2 }

/-- The loop over the properties. -/
def addProperties (required : List Key) (name : List UInt8) :
    List (Key × Schema) → Properties → Option Properties
  | [], s => some s
  | property :: properties, s =>
    (addProperty V required name s property).bind (addProperties required name properties)

/-- The rules of the additional properties, for the rule of their values. -/
def addAdditionalRule (name : List UInt8) (s : Properties) (value : List UInt8 × RuleMap) :
    Properties :=
  let sub := subName name (bytes "additional")
  let key :=
    if s.propNames = [] then V.addPrimitive (bytes "string") value.2
    else
      let text := V.notStrings s.propNames value.2
      addRule text.2 (sub ++ bytes "-k") text.1
  let kv := addRule key.2 (sub ++ bytes "-kv") (key.1 ++ bytes " \":\" space " ++ value.1)
  { s with
    optionalProps := s.optionalProps ++ [star]
    kvRuleNames := (star, kv.1) :: s.kvRuleNames
    rules := kv.2 }

def addAdditional (name : List UInt8) (s : Properties) : AdditionalProperties Schema →
    Option Properties
  | .closed => some s
  | .any => some (addAdditionalRule V name s (V.addPrimitive (bytes "value") s.rules))
  | .schema schema =>
    (V.visit schema (subName name (bytes "additional") ++ bytes "-value") s.rules).map
      (addAdditionalRule V name s)

/-- `get_recursive_refs` -/
def getRecursiveRefs (name : List UInt8) (kvRule : Key → List UInt8) :
    List Key → Bool → RuleMap → List UInt8 × RuleMap
  | [], _, rules => ([], rules)
  | k :: ks, firstIsOptional, rules =>
    let commaRef := bytes "( \",\" space " ++ kvRule k ++ bytes " )"
    let res :=
      if firstIsOptional then commaRef ++ if k = star then bytes "*" else bytes "?"
      else kvRule k ++ if k = star then bytes " " ++ commaRef ++ bytes "*" else []
    if ks = [] then (res, rules)
    else
      let rest := getRecursiveRefs name kvRule ks true rules
      let added := addRule rest.2 (subName name (utf8 k ++ bytes "-rest")) rest.1
      (res ++ bytes " " ++ added.1, added.2)

/-- The required properties, joined by commas. -/
def requiredText (kvRule : Key → List UInt8) : List Key → List UInt8
  | [] => []
  | k :: ks => kvRule k ++ ks.flatMap fun k => bytes " \",\" space " ++ kvRule k

/-- The alternatives of the optional properties. -/
def optionalText (name : List UInt8) (kvRule : Key → List UInt8) :
    List Key → RuleMap → List UInt8 × RuleMap
  | [], rules => ([], rules)
  | k :: ks, rules =>
    let first := getRecursiveRefs name kvRule (k :: ks) false rules
    let later := optionalText name kvRule ks first.2
    (first.1 ++ (if ks = [] then [] else bytes " | ") ++ later.1, later.2)

/-- The rule of an object, when its properties have their rules. -/
def objectRule (name : List UInt8) (s : Properties) : List UInt8 × RuleMap :=
  let start := bytes "\"\x7b\" space " ++ requiredText s.kvRule s.requiredProps
  let optionals := optionalText name s.kvRule s.optionalProps s.rules
  let body :=
    if s.optionalProps = [] then []
    else bytes " (" ++ (if s.requiredProps = [] then [] else bytes " \",\" space ( ") ++
      optionals.1 ++ (if s.requiredProps = [] then [] else bytes " )") ++ bytes " )?"
  (start ++ body ++ bytes " space \"\x7d\"", optionals.2)

/-- `_build_object_rule` -/
def buildObjectRule (properties : List (Key × Schema)) (required : List Key) (name : List UInt8)
    (additional : AdditionalProperties Schema) (rules : RuleMap) :
    Option (List UInt8 × RuleMap) :=
  (addProperties V required name properties ⟨[], [], [], [], rules⟩).bind fun s =>
    (addAdditional V name s additional).map (objectRule name)

end Build

/-! ## Texts of items and of alternatives -/

/-- The language of a text, for every grammar of the rules. -/
abbrev RuleLang := (List UInt8 → Option GbnfExpr) → Language Nat

/-- Items that spell a text, with their language in every reading of the rules. -/
structure ItemsMean (rules : RuleMap) (items : List GbnfPiece) (text : List UInt8)
    (L : RuleLang) : Prop where
  ne : items ≠ []
  spelled : ∀ p ∈ items, p.Spelled .item
  text : (ofItems items).text = text
  lang : ∀ {later}, Extends rules later → ∀ reading : Reading later,
    itemsLang reading.defs items = L reading.defs

/-- The language of what stands between two properties. -/
def sepLang : RuleLang := fun defs => {[','.toNat]} * lang defs (.ref (bytes "space"))

/-- The language of the rule of a property. -/
def kvLang (kvRule : Key → List UInt8) (k : Key) : RuleLang := fun defs => lang defs (.ref (kvRule k))

theorem isRuleName_space : IsRuleName (bytes "space") := by decide +kernel

variable {items : List GbnfPiece}

theorem ItemsMean.later {rules later : RuleMap} {text : List UInt8}
    {L : RuleLang} (h : ItemsMean rules items text L) (hLater : Extends rules later) :
    ItemsMean later items text L :=
  ⟨h.ne, h.spelled, h.text, fun hLast => h.lang (hLater.trans hLast)⟩

variable {text : List UInt8} {L : RuleLang} {rules : RuleMap}

theorem ItemsMean.spells (h : ItemsMean rules items text L) :
    Spells false .alternates (ofItems items).expr text := by
  have hItems := ofItems_blanks h.spelled h.ne false blanks_nil
  rw [append_nil, h.text] at hItems
  exact .one hItems

/-- A rule of items, and the items behind which its name stands. -/
theorem ItemsMean.rule (h : ItemsMean rules items text L) {name : List UInt8}
    (hName : name ≠ []) :
    let added := addRule rules name text
    Extends rules added.2 ∧ (refPiece added.1).Spelled .item ∧
      ∀ {later}, Extends added.2 later → ∀ reading : Reading later,
        GbnfExpr.lang reading.defs (.ref added.1) = L reading.defs := by
  obtain ⟨hBound, hExtends⟩ := addRule_spec rules name text
  refine ⟨hExtends, refPiece_spelled (addRule_name rules hName text), ?_⟩
  intro later hLater reading
  rw [reading.lang_ref (hLater _ _ hBound) h.spells, lang_ofItems,
    h.lang (hExtends.trans hLater)]

theorem subName_ne_nil (name : List UInt8) {suffix : List UInt8} (h : suffix ≠ []) :
    subName name suffix ≠ [] := append_ne_nil_of_right_ne_nil _ h

/-! ## The optional properties -/

/-- `","` -/
def commaPiece : GbnfPiece := literalPiece [',']

def spacePiece : GbnfPiece := refPiece (bytes "space")

/-- `( "," space kv )` -/
def commaRefPiece (kv : List UInt8) : GbnfPiece :=
  spacedGroup (bytes " ") (bytes " ") [[commaPiece, spacePiece, refPiece kv]]

variable {alts : Alts}

section Optional

variable {name : List UInt8} {kvRule : Key → List UInt8}

theorem commaRef_writes (defs : List UInt8 → Option GbnfExpr) {k : Key}
    (hKv : IsRuleName (kvRule k)) :
    Writes defs (commaRefPiece (kvRule k)) (sepLang defs * kvLang kvRule k defs) := by
  have hComma : Writes defs commaPiece {[','.toNat]} := literalPiece_writes defs [',']
  have hItems := (hComma.cons (Writes.pair ⟨refPiece_spelled isRuleName_space, rfl⟩
    (⟨refPiece_spelled hKv, rfl⟩ : Writes defs (refPiece (kvRule k)) _))).one
  refine ⟨spacedGroup_spelled blanks_space blanks_space
    (Or.inr hItems.spelled), ?_⟩
  rw [commaRefPiece, lang_spacedGroup defs (cons_ne_nil _ _)]
  exact hItems.lang.trans (mul_assoc _ _ _).symm

/-- The item of the first property of `get_recursive_refs`. -/
def firstPiece (kv : List UInt8) (firstIsOptional : Bool) : GbnfPiece :=
  if firstIsOptional then optional (commaRefPiece kv) else refPiece kv

def firstLang (kvRule : Key → List UInt8) (k : Key) (firstIsOptional : Bool) : RuleLang :=
  fun defs => if firstIsOptional then 1 + sepLang defs * kvLang kvRule k defs else kvLang kvRule k defs

theorem firstPiece_writes (defs : List UInt8 → Option GbnfExpr) {k : Key}
    (hKv : IsRuleName (kvRule k)) (firstIsOptional : Bool) :
    Writes defs (firstPiece (kvRule k) firstIsOptional) (firstLang kvRule k firstIsOptional defs) := by
  cases firstIsOptional with
  | true =>
    have hComma := commaRef_writes defs hKv
    refine ⟨optional_spelled hComma.spelled, ?_⟩
    rw [firstPiece, if_pos rfl, lang_optional, hComma.lang, firstLang, if_pos rfl]
  | false => exact ⟨refPiece_spelled hKv, rfl⟩

theorem firstPiece_text {k : Key} (h : k ≠ star) (firstIsOptional : Bool) :
    (firstPiece (kvRule k) firstIsOptional).text =
      if firstIsOptional then
        bytes "( \",\" space " ++ kvRule k ++ bytes " )" ++ if k = star then bytes "*" else bytes "?"
      else kvRule k ++ if k = star then
        bytes " " ++ (bytes "( \",\" space " ++ kvRule k ++ bytes " )") ++ bytes "*" else [] := by
  cases firstIsOptional with
  | true =>
    rw [if_neg h]
    show (bytes "(" ++ bytes " " ++ (((bytes "\",\"" ++ bytes " " ++ bytes "space") ++ bytes " " ++
      kvRule k) ++ bytes " ") ++ bytes ")") ++ bytes "?" = _
    simp only [append_assoc]
    rfl
  | false =>
    rw [if_neg Bool.false_ne_true, if_neg h, append_nil]
    rfl

/-- The properties of a list: the first one, and each later one with its comma or not at all. -/
theorem getRecursiveRefs_spec {k : Key} {ks : List Key} (hKv : ∀ j ∈ k :: ks, IsRuleName (kvRule j))
    (hStar : star ∉ k :: ks) (firstIsOptional : Bool) (rules : RuleMap) :
    let refs := getRecursiveRefs name kvRule (k :: ks) firstIsOptional rules
    Extends rules refs.2 ∧ ∃ items, ItemsMean refs.2 items refs.1 fun defs =>
      firstLang kvRule k firstIsOptional defs *
        SeparatedList.optionalTail (sepLang defs) (fun j => kvLang kvRule j defs) ks := by
  induction ks generalizing k firstIsOptional rules with
  | nil =>
    have hNotStar : k ≠ star := fun hEq => hStar (hEq ▸ mem_cons_self)
    have hFirst := fun defs => firstPiece_writes defs (hKv k mem_cons_self) firstIsOptional
    refine ⟨.refl rules, [firstPiece (kvRule k) firstIsOptional], cons_ne_nil _ _, ?_, ?_, ?_⟩
    · exact fun p hp => mem_singleton.mp hp ▸ (hFirst fun _ => none).spelled
    · exact firstPiece_text hNotStar firstIsOptional
    intro later hLater reading
    rw [(hFirst reading.defs).one.lang]
    exact (mul_one _).symm
  | cons j ks ih =>
    have hNotStar : k ≠ star := fun hEq => hStar (hEq ▸ mem_cons_self)
    have hFirst := fun defs => firstPiece_writes defs (hKv k mem_cons_self) firstIsOptional
    obtain ⟨hRest, items, hItems⟩ := ih (fun i hi => hKv i (mem_cons_of_mem k hi))
      (fun hMem => hStar (mem_cons_of_mem k hMem)) true rules
    rw [getRecursiveRefs]
    simp only
    generalize getRecursiveRefs name kvRule (j :: ks) true rules = rest at hRest hItems ⊢
    -- the rule of the properties behind the first one
    have hName : subName name (utf8 k ++ bytes "-rest") ≠ [] :=
      subName_ne_nil name (append_ne_nil_of_right_ne_nil _ (by decide))
    obtain ⟨hAdded, hRef, hLang⟩ := hItems.rule hName
    generalize addRule rest.2 (subName name (utf8 k ++ bytes "-rest")) rest.1 = added
      at hAdded hRef hLang ⊢
    refine ⟨hRest.trans hAdded, [firstPiece (kvRule k) firstIsOptional, refPiece added.1],
      cons_ne_nil _ _, ?_, ?_, ?_⟩
    · intro p hp
      cases mem_cons.mp hp with
      | inl hEq =>
        rw [hEq]
        exact (hFirst fun _ => none).spelled
      | inr hLast =>
        rw [mem_singleton.mp hLast]
        exact hRef
    · rw [ofItems_text, firstPiece_text hNotStar, flatMap_singleton]
      exact (append_assoc _ _ _).symm
    · intro later hLater reading
      exact ((hFirst reading.defs).pair ⟨hRef, hLang hLater reading⟩).lang

/-- Alternatives that spell a text, with their language in every reading of the rules. -/
structure AltsMean (rules : RuleMap) (alts : Alts) (text : List UInt8) (L : RuleLang) : Prop where
  spelled : AltsSpelled alts
  text : (ofAlts alts).text = text
  lang : ∀ {later}, Extends rules later → ∀ reading : Reading later,
    altsLang reading.defs alts = L reading.defs

theorem ItemsMean.one (h : ItemsMean rules items text L) : AltsMean rules
    [items] text L :=
  ⟨⟨cons_ne_nil _ _, fun _ hMem => mem_singleton.mp hMem ▸ ⟨h.ne, h.spelled⟩⟩, h.text,
    fun hLater reading => (sum_singleton).trans (h.lang hLater reading)⟩

theorem ItemsMean.cons {more : List UInt8} {M : RuleLang} (h : ItemsMean rules items text L)
    (hAlts : AltsMean rules alts more M) :
    AltsMean rules (items :: alts) (text ++ bytes " | " ++ more) fun defs => L defs + M defs := by
  refine ⟨⟨cons_ne_nil _ _, fun _ hMem => ?_⟩, ?_, fun hLater reading => ?_⟩
  · cases mem_cons.mp hMem with
    | inl hEq =>
      rw [hEq]
      exact ⟨h.ne, h.spelled⟩
    | inr hRest => exact hAlts.spelled.2 _ hRest
  · obtain ⟨next, alts, rfl⟩ := exists_cons_of_ne_nil hAlts.spelled.1
    rw [← h.text, ← hAlts.text, ofAlts_text, ofAlts_text, flatMap_cons]
    simp only [append_assoc]
  · rw [← h.lang hLater reading, ← hAlts.lang hLater reading]
    rfl

/-- Any optional property may be the first one. -/
theorem optionalText_spec {k : Key} {ks : List Key} (hKv : ∀ j ∈ k :: ks, IsRuleName (kvRule j))
    (hStar : star ∉ k :: ks) (rules : RuleMap) :
    let optionals := optionalText name kvRule (k :: ks) rules
    Extends rules optionals.2 ∧ ∃ alts, AltsMean optionals.2 alts optionals.1 fun defs =>
      SeparatedList.optionalStart (sepLang defs) (fun j => kvLang kvRule j defs) (k :: ks) := by
  obtain ⟨hFirst, items, hItems⟩ := @getRecursiveRefs_spec name kvRule k ks hKv hStar false rules
  rw [optionalText]
  induction ks generalizing k rules items with
  | nil =>
    rw [optionalText, if_pos rfl, append_nil, append_nil]
    refine ⟨hFirst, [items], hItems.one.spelled, hItems.one.text, fun hLater reading => ?_⟩
    exact (hItems.one.lang hLater reading).trans (add_zero _).symm
  | cons j ks ih =>
    generalize getRecursiveRefs name kvRule (k :: j :: ks) false rules = first at hFirst hItems ⊢
    have hKv' : ∀ i ∈ j :: ks, IsRuleName (kvRule i) := fun i hi => hKv i (mem_cons_of_mem k hi)
    have hStar' : star ∉ j :: ks := fun hMem => hStar (mem_cons_of_mem k hMem)
    obtain ⟨hNext, items', hItems'⟩ := @getRecursiveRefs_spec name kvRule j ks hKv' hStar' false first.2
    obtain ⟨hLater, alts, hAlts⟩ := ih hKv' hStar' first.2 hNext items' hItems'
    exact ⟨hFirst.trans hLater, items :: alts, (hItems.later hLater).cons hAlts⟩

end Optional

/-! ## The rule of an object -/

/-- The language of the objects with the entries of the keys. -/
def objectLang (entry : Key → RuleLang) (keys : List Key) : RuleLang := fun defs =>
  {['{'.toNat]} * lang defs (.ref (bytes "space")) *
    SeparatedList.joined (sepLang defs) (fun k => entry k defs) keys *
    (lang defs (.ref (bytes "space")) * {['}'.toNat]})

/-- The items of the required properties. -/
def requiredItems (kvRule : Key → List UInt8) : List Key → List GbnfPiece
  | [] => []
  | k :: ks => refPiece (kvRule k) :: ks.flatMap fun k => [commaPiece, spacePiece, refPiece (kvRule k)]

section Object

variable {kvRule : Key → List UInt8}

theorem requiredItems_text (k : Key) (ks : List Key) :
    ((requiredItems kvRule (k :: ks)).flatMap fun p => bytes " " ++ p.text) =
      bytes " " ++ requiredText kvRule (k :: ks) := by
  have hEach : ∀ j, ([commaPiece, spacePiece, refPiece (kvRule j)].flatMap fun p =>
      bytes " " ++ p.text) = bytes " \",\" space " ++ kvRule j := by
    intro j
    simp only [flatMap_cons, flatMap_nil, append_nil]
    rfl
  rw [requiredItems, flatMap_cons, flatMap_assoc]
  simp only [hEach]
  rfl

theorem requiredItems_spelled {ks : List Key} (hKv : ∀ k ∈ ks, IsRuleName (kvRule k)) :
    ∀ p ∈ requiredItems kvRule ks, p.Spelled .item := by
  intro p hp
  cases ks with
  | nil => exact absurd hp not_mem_nil
  | cons k ks =>
    cases mem_cons.mp hp with
    | inl hEq =>
      rw [hEq]
      exact refPiece_spelled (hKv k mem_cons_self)
    | inr hRest =>
      obtain ⟨j, hj, hp⟩ := mem_flatMap.mp hRest
      have hName := hKv j (mem_cons_of_mem k hj)
      simp only [mem_cons, not_mem_nil, or_false] at hp
      rcases hp with rfl | rfl | rfl
      · exact literalPiece_spelled [',']
      · exact refPiece_spelled isRuleName_space
      · exact refPiece_spelled hName

theorem requiredItems_lang (defs : List UInt8 → Option GbnfExpr) (ks : List Key) :
    itemsLang defs (requiredItems kvRule ks) =
      SeparatedList.joined (sepLang defs) (fun k => kvLang kvRule k defs) ks := by
  cases ks with
  | nil => rfl
  | cons k ks =>
    have hFollowing : itemsLang defs
        (ks.flatMap fun k => [commaPiece, spacePiece, refPiece (kvRule k)]) =
        following (sepLang defs) (fun k => kvLang kvRule k defs) ks := by
      induction ks with
      | nil => rfl
      | cons j ks ih =>
        have hComma : lang defs commaPiece.expr = {[','.toNat]} :=
          (literalPiece_writes defs [',']).lang
        rw [flatMap_cons, itemsLang_append, ih, sepLang, ← hComma]
        simp only [itemsLang, map_cons, map_nil, prod_cons, prod_nil, mul_one]
        rw [← mul_assoc]
        rfl
    rw [joined, ← hFollowing]
    rfl

/-- The items of the optional properties, if there are any. -/
def bodyItems (required : List Key) (alts : Alts) : List GbnfPiece :=
  if alts = [] then []
  else if required = [] then [optional (spacedGroup [] (bytes " ") alts)]
  else [optional (spacedGroup (bytes " ") (bytes " ")
    [[commaPiece, spacePiece, spacedGroup (bytes " ") (bytes " ") alts]])]

theorem bodyItems_text (required : List Key) (h : alts ≠ []) :
    ((bodyItems required alts).flatMap fun p => bytes " " ++ p.text) =
      bytes " (" ++ (if required = [] then [] else bytes " \",\" space ( ") ++
        (ofAlts alts).text ++ (if required = [] then [] else bytes " )") ++ bytes " )?" := by
  rw [bodyItems, if_neg h]
  split
  · rw [flatMap_singleton, append_nil]
    show bytes " " ++ ((bytes "(" ++ [] ++ ((ofAlts alts).text ++ bytes " ") ++ bytes ")") ++
      bytes "?") = _
    simp only [append_assoc]
    rfl
  rw [flatMap_singleton]
  show bytes " " ++ ((bytes "(" ++ bytes " " ++ (((bytes "\",\"" ++ bytes " " ++ bytes "space") ++
    bytes " " ++ (bytes "(" ++ bytes " " ++ ((ofAlts alts).text ++ bytes " ") ++ bytes ")")) ++
    bytes " ") ++ bytes ")") ++ bytes "?") = _
  simp only [append_assoc]
  rfl

theorem bodyItems_spelled (required : List Key) (h : AltsSpelled alts) :
    ∀ p ∈ bodyItems required alts, p.Spelled .item := by
  intro p hp
  rw [bodyItems, if_neg h.1] at hp
  split at hp
  · rw [mem_singleton.mp hp]
    exact optional_spelled (spacedGroup_spelled blanks_nil blanks_space
      (Or.inr h))
  rw [mem_singleton.mp hp]
  have hInner := spacedGroup_spelled blanks_space blanks_space (Or.inr h)
  refine optional_spelled (spacedGroup_spelled blanks_space blanks_space
    (Or.inr ⟨cons_ne_nil _ _, fun items hItems => ?_⟩))
  rw [mem_singleton.mp hItems]
  refine ⟨cons_ne_nil _ _, fun q hq => ?_⟩
  simp only [mem_cons, not_mem_nil, or_false] at hq
  rcases hq with rfl | rfl | rfl
  · exact literalPiece_spelled [',']
  · exact refPiece_spelled isRuleName_space
  · exact hInner

theorem bodyItems_lang (defs : List UInt8 → Option GbnfExpr) (required : List Key) (h : alts ≠ []) :
    itemsLang defs (bodyItems required alts) =
      1 + if required = [] then altsLang defs alts else sepLang defs * altsLang defs alts := by
  rw [bodyItems, if_neg h]
  split
  · rw [itemsLang, map_singleton, prod_singleton, lang_optional, lang_spacedGroup defs h]
  have hComma : lang defs commaPiece.expr = {[','.toNat]} := (literalPiece_writes defs [',']).lang
  rw [itemsLang, map_singleton, prod_singleton, lang_optional,
    lang_spacedGroup defs (cons_ne_nil _ _), altsLang, map_singleton,
    sum_singleton, itemsLang, map_cons, map_cons, map_singleton,
    prod_cons, prod_cons, prod_singleton, lang_spacedGroup defs h, hComma,
    ← mul_assoc]
  rfl

/-- The language of the optional properties behind the required ones. -/
def bodyLang (kvRule : Key → List UInt8) (required optional : List Key) : RuleLang := fun defs =>
  if required = [] then
    1 + SeparatedList.optionalStart (sepLang defs) (fun k => kvLang kvRule k defs) optional
  else SeparatedList.optionalTail (sepLang defs) (fun k => kvLang kvRule k defs) optional

/-- The required properties in their order, and any of the optional ones in theirs. -/
theorem mem_joined_mul_bodyLang {defs : List UInt8 → Option GbnfExpr} {required optional : List Key}
    {w : List Nat} :
    w ∈ SeparatedList.joined (sepLang defs) (fun k => kvLang kvRule k defs) required *
        bodyLang kvRule required optional defs ↔
      ∃ S, S.Sublist optional ∧
        w ∈ SeparatedList.joined (sepLang defs) (fun k => kvLang kvRule k defs) (required ++ S) := by
  rw [bodyLang]
  split
  next hNone =>
    rw [hNone, joined, one_mul, mem_one_add_optionalStart]
    rfl
  next hSome => exact mem_joined_mul_optionalTail hSome

/-- What `_build_object_rule` writes of the optional properties. -/
theorem body_spec {name : List UInt8} {required optionalProps : List Key}
    (hKv : ∀ k ∈ optionalProps, IsRuleName (kvRule k)) (hStar : star ∉ optionalProps)
    (rules : RuleMap) :
    let optionals := optionalText name kvRule optionalProps rules
    Extends rules optionals.2 ∧ ∃ alts, (∀ p ∈ bodyItems required alts, p.Spelled .item) ∧
      ((bodyItems required alts).flatMap fun p => bytes " " ++ p.text) =
        (if optionalProps = [] then []
          else bytes " (" ++ (if required = [] then [] else bytes " \",\" space ( ") ++
            optionals.1 ++ (if required = [] then [] else bytes " )") ++ bytes " )?") ∧
      ∀ {later}, Extends optionals.2 later → ∀ reading : Reading later,
        itemsLang reading.defs (bodyItems required alts) =
          bodyLang kvRule required optionalProps reading.defs := by
  cases optionalProps with
  | nil =>
    refine ⟨.refl rules, [], fun p hp => absurd hp not_mem_nil, rfl, fun _ reading => ?_⟩
    rw [bodyLang]
    split
    · exact (add_zero _).symm
    · rfl
  | cons k ks =>
    obtain ⟨hExtends, alts, hAlts⟩ := @optionalText_spec name kvRule k ks hKv hStar rules
    refine ⟨hExtends, alts, bodyItems_spelled required hAlts.spelled, ?_, fun hLater reading => ?_⟩
    · rw [bodyItems_text required hAlts.spelled.1, if_neg (cons_ne_nil k ks), hAlts.text]
    rw [bodyItems_lang reading.defs required hAlts.spelled.1, hAlts.lang hLater reading, bodyLang]
    split
    · rfl
    · exact one_add_sep_mul_optionalStart (k :: ks)

/-- Behind the brace of an object without required properties two blanks are written. -/
def startPiece (required : List Key) : GbnfPiece :=
  if required = [] then ⟨.ref (bytes "space"), bytes "space" ++ bytes " "⟩ else spacePiece

theorem startPiece_writes (defs : List UInt8 → Option GbnfExpr) (required : List Key) :
    Writes defs (startPiece required) (lang defs (.ref (bytes "space"))) := by
  rw [startPiece]
  split
  · exact ⟨fun nested => .ref isRuleName_space.1 isRuleName_space.2 blanks_space, rfl⟩
  · exact ⟨refPiece_spelled isRuleName_space, rfl⟩

theorem startPiece_text (required : List Key) (kvRule : Key → List UInt8) :
    bytes "\"\x7b\"" ++ (bytes " " ++ (startPiece required).text ++
      (requiredItems kvRule required).flatMap fun p => bytes " " ++ p.text) =
      bytes "\"\x7b\" space " ++ requiredText kvRule required := by
  cases required with
  | nil => rfl
  | cons k ks =>
    rw [requiredItems_text, startPiece]
    rfl

/-- The language of the text of `_build_object_rule`. -/
theorem objectRule_spec {name : List UInt8} {s : Properties}
    (hRequired : ∀ k ∈ s.requiredProps, IsRuleName (s.kvRule k))
    (hOptional : ∀ k ∈ s.optionalProps, IsRuleName (s.kvRule k)) (hStar : star ∉ s.optionalProps) :
    let r := objectRule name s
    Extends s.rules r.2 ∧ ∃ items, ItemsMean r.2 items r.1 fun defs =>
      {['{'.toNat]} * lang defs (.ref (bytes "space")) *
        (SeparatedList.joined (sepLang defs) (fun k => kvLang s.kvRule k defs) s.requiredProps *
          bodyLang s.kvRule s.requiredProps s.optionalProps defs) *
        (lang defs (.ref (bytes "space")) * {['}'.toNat]}) := by
  obtain ⟨hExtends, alts, hSpelled, hText, hLang⟩ :=
    @body_spec s.kvRule name s.requiredProps s.optionalProps hOptional hStar s.rules
  have hEnd : ∀ defs, ItemsWrite defs [spacePiece, literalPiece ['}']]
      (lang defs (.ref (bytes "space")) * {['}'.toNat]}) := fun defs =>
    Writes.pair ⟨refPiece_spelled isRuleName_space, rfl⟩ (literalPiece_writes defs ['}'])
  refine ⟨hExtends, literalPiece ['{'] :: startPiece s.requiredProps ::
    (requiredItems s.kvRule s.requiredProps ++ bodyItems s.requiredProps alts ++
      [spacePiece, literalPiece ['}']]), cons_ne_nil _ _, ?_, ?_, fun hLater reading => ?_⟩
  · intro p hp
    simp only [mem_cons, mem_append] at hp
    rcases hp with rfl | rfl | (hReq | hBody) | hp
    · exact literalPiece_spelled ['{']
    · exact (startPiece_writes (fun _ => none) s.requiredProps).spelled
    · exact requiredItems_spelled hRequired p hReq
    · exact hSpelled p hBody
    · exact (hEnd fun _ => none).spelled p (by simpa using hp)
  · rw [ofItems_text, flatMap_cons, flatMap_append, flatMap_append, hText]
    have hStart := startPiece_text s.requiredProps s.kvRule
    rw [objectRule, ← hStart]
    simp only [append_assoc]
    rfl
  have hStart := (startPiece_writes reading.defs s.requiredProps).lang
  have hOpen := (literalPiece_writes reading.defs ['{']).lang
  have hRest : itemsLang reading.defs (requiredItems s.kvRule s.requiredProps ++
      bodyItems s.requiredProps alts ++ [spacePiece, literalPiece ['}']]) =
      joined (sepLang reading.defs) (fun k => kvLang s.kvRule k reading.defs)
          s.requiredProps * bodyLang s.kvRule s.requiredProps s.optionalProps reading.defs *
        (lang reading.defs (.ref (bytes "space")) * {['}'.toNat]}) := by
    rw [itemsLang_append, itemsLang_append, requiredItems_lang, hLang hLater reading,
      (hEnd reading.defs).lang]
  rw [itemsLang, map_cons, map_cons, prod_cons, prod_cons, hStart, hOpen]
  rw [mul_assoc, mul_assoc, mul_assoc]
  exact congrArg _ (congrArg _ (hRest.trans (mul_assoc _ _ _)))

end Object

/-! ## The loop over the properties -/

/-- The language of the entry of a key: the key, and what the rule of its value accepts. -/
def entryLang (value : Key → List UInt8) (k : Key) : RuleLang := fun defs =>
  {(dump k).map Char.toNat} * (lang defs (.ref (bytes "space")) * ({[':'.toNat]} *
    (lang defs (.ref (bytes "space")) * lang defs (.ref (value k)))))

theorem kvText_mean {value : Key → List UInt8} {k : Key} (h : IsRuleName (value k))
    (rules : RuleMap) : ∃ items, ItemsMean rules items (kvText k (value k)) (entryLang value k) := by
  have hItems : ∀ defs, ItemsWrite defs [literalPiece (dump k), spacePiece, literalPiece [':'],
      spacePiece, refPiece (value k)] (entryLang value k defs) := by
    intro defs
    have hSpace : Writes defs spacePiece (lang defs (.ref (bytes "space"))) :=
      ⟨refPiece_spelled isRuleName_space, rfl⟩
    exact (literalPiece_writes defs (dump k)).cons (hSpace.cons
      ((literalPiece_writes defs [':']).cons (hSpace.pair ⟨refPiece_spelled h, rfl⟩)))
  have hNone := hItems fun _ => none
  refine ⟨_, hNone.ne, hNone.spelled, ?_, fun _ reading => (hItems reading.defs).lang⟩
  rw [ofItems_text, kvText, append_assoc]
  exact congrArg _ (by
    simp only [flatMap_cons, flatMap_nil, append_nil]
    rfl)

section Loop

variable {Schema : Type} (V : Visitor Schema) (properties : List (Key × Schema))
  (required : List Key) (name : List UInt8)

/-- The rule of the property and the rule of its value, which `visit` gave for its schema. -/
structure HasRule (rules : RuleMap) (k : Key) (kv value : List UInt8) : Prop where
  isName : IsRuleName kv
  bound : rules.lookup kv = some (kvText k value)
  isValueName : IsRuleName value
  visited : ∃ schema before after, (k, schema) ∈ properties ∧
    V.visit schema (subName name (utf8 k)) before = some (value, after)

/-- The state when the properties of the keys have their rules. -/
structure Listed (keys : List Key) (s : Properties) : Prop where
  requiredProps : s.requiredProps = keys.filter (· ∈ required)
  optionalProps : s.optionalProps = keys.filter (· ∉ required)
  hasRule : ∀ k ∈ keys, ∃ value, HasRule V properties name s.rules k (s.kvRule k) value

variable {V properties required name}

theorem HasRule.later {rules later : RuleMap} {k : Key} {kv value : List UInt8}
    (h : HasRule V properties name rules k kv value) (hLater : Extends rules later) :
    HasRule V properties name later k kv value :=
  ⟨h.isName, hLater _ _ h.bound, h.isValueName, h.visited⟩

/-- A property gets its rule, and no earlier one loses its own. -/
theorem Listed.addProperty {keys : List Key} {s s' : Properties} {property : Key × Schema}
    (h : Listed V properties required name keys s) (hMem : property ∈ properties)
    (hStep : addProperty V required name s property = some s') :
    Listed V properties required name (keys ++ [property.1]) s' ∧ Extends s.rules s'.rules := by
  obtain ⟨value, hVisit, rfl⟩ := map_eq_some_iff.mp hStep
  have hVisited := V.visit_extends _ _ _ _ hVisit
  have hName : subName name (utf8 property.1 ++ bytes "-kv") ≠ [] :=
    subName_ne_nil name (append_ne_nil_of_right_ne_nil _ (by decide))
  obtain ⟨hBound, hAdded⟩ := addRule_spec value.2
    (subName name (utf8 property.1 ++ bytes "-kv")) (kvText property.1 value.1)
  refine ⟨⟨?_, ?_, fun k hk => ?_⟩, hVisited.trans hAdded⟩
  · rw [filter_append, ← h.requiredProps]
    by_cases hReq : property.1 ∈ required
    · simp [hReq]
    · simp [hReq]
  · rw [filter_append, ← h.optionalProps]
    by_cases hReq : property.1 ∈ required
    · simp [hReq]
    · simp [hReq]
  simp only [Properties.kvRule, lookup_cons]
  by_cases hEq : k = property.1
  · rw [hEq, beq_self_eq_true]
    refine ⟨value.1, addRule_name _ hName _, hBound, V.visit_isName _ _ _ _ hVisit, ?_⟩
    exact ⟨property.2, s.rules, value.2, hMem, hVisit⟩
  rw [beq_eq_false_iff_ne.mpr hEq]
  have hOld : k ∈ keys := by
    cases mem_append.mp hk with
    | inl hOld => exact hOld
    | inr hNew => exact absurd (mem_singleton.mp hNew) hEq
  obtain ⟨old, hRule⟩ := h.hasRule k hOld
  exact ⟨old, hRule.later (hVisited.trans hAdded)⟩

theorem Listed.addProperties {todo : List (Key × Schema)} {keys : List Key} {s s' : Properties}
    (h : Listed V properties required name keys s) (hSubset : todo ⊆ properties)
    (hRun : addProperties V required name todo s = some s') :
    Listed V properties required name (keys ++ todo.map Prod.fst) s' ∧
      Extends s.rules s'.rules := by
  induction todo generalizing keys s with
  | nil =>
    obtain rfl := some.inj hRun
    rw [map_nil, append_nil]
    exact ⟨h, .refl _⟩
  | cons property todo ih =>
    obtain ⟨next, hStep, hRest⟩ := bind_eq_some_iff.mp hRun
    obtain ⟨hNext, hExtends⟩ := h.addProperty (hSubset mem_cons_self) hStep
    obtain ⟨hLast, hLater⟩ := ih hNext (fun p hp => hSubset (mem_cons_of_mem property hp)) hRest
    rw [append_assoc] at hLast
    exact ⟨hLast, hExtends.trans hLater⟩

end Loop

/-! ## The objects that are accepted -/

/-- The text accepts the required keys in their order and behind them any sublist of the optional
ones. -/
structure AdmitsSublists (rules : RuleMap) (text : List UInt8) (value : Key → List UInt8)
    (required optional : List Key) : Prop where
  spelled : ∃ e, Spells false .alternates e text
  accepts : ∀ {later}, Extends rules later → ∀ (reading : Reading later) {e},
    Spells false .alternates e text → ∀ w, w ∈ lang reading.defs e ↔
      ∃ S, S.Sublist optional ∧ w ∈ objectLang (entryLang value) (required ++ S) reading.defs

section Accepts

variable {Schema : Type} (V : Visitor Schema)

/-- An object has the required keys in the order of the properties, then a sublist of the
others in theirs, with commas between them. -/
theorem accepts_ordered_sublists {properties : List (Key × Schema)} (required : List Key)
    {name : List UInt8} {rules : RuleMap} (hStar : star ∉ properties.map Prod.fst)
    {r : List UInt8 × RuleMap}
    (hBuild : buildObjectRule V properties required name .closed rules = some r) :
    ∃ value : Key → List UInt8,
      (∀ k ∈ properties.map Prod.fst, ∃ schema before after, (k, schema) ∈ properties ∧
        V.visit schema (subName name (utf8 k)) before = some (value k, after)) ∧
      AdmitsSublists r.2 r.1 value ((properties.map Prod.fst).filter (· ∈ required))
        ((properties.map Prod.fst).filter (· ∉ required)) := by
  obtain ⟨s, hLoop, hRule⟩ := bind_eq_some_iff.mp hBuild
  obtain rfl : objectRule name s = r := some.inj hRule
  have hStart : Listed V properties required name [] ⟨[], [], [], [], rules⟩ :=
    ⟨rfl, rfl, fun k hk => absurd hk not_mem_nil⟩
  obtain ⟨hListed, -⟩ := hStart.addProperties (List.Subset.refl _) hLoop
  rw [nil_append] at hListed
  generalize properties.map Prod.fst = keys at hListed hStar ⊢
  choose! value hValue using hListed.hasRule
  have hKeys : ∀ k ∈ s.requiredProps ++ s.optionalProps, k ∈ keys := by
    intro k hk
    rw [hListed.requiredProps, hListed.optionalProps] at hk
    cases mem_append.mp hk with
    | inl hReq => exact mem_of_mem_filter hReq
    | inr hOpt => exact mem_of_mem_filter hOpt
  obtain ⟨hExtends, items, hItems⟩ := @objectRule_spec name s
    (fun k hk => (hValue k (hKeys k (mem_append_left _ hk))).isName)
    (fun k hk => (hValue k (hKeys k (mem_append_right _ hk))).isName)
    (fun hMem => hStar (hKeys _ (mem_append_right _ hMem)))
  refine ⟨value, fun k hk => (hValue k hk).visited, ⟨_, hItems.spells⟩, ?_⟩
  intro later hLater reading e hText w
  have hEntry : ∀ k ∈ keys,
      kvLang s.kvRule k reading.defs = entryLang value k reading.defs := by
    intro k hk
    obtain ⟨kvItems, hKv⟩ := kvText_mean (hValue k hk).isValueName later
    rw [kvLang, reading.lang_ref (hLater _ _ (hExtends _ _ (hValue k hk).bound)) hKv.spells,
      lang_ofItems, hKv.lang (.refl later)]
  rw [hText.lang_unique hItems.spells, lang_ofItems, hItems.lang hLater reading,
    mem_between fun _ => mem_joined_mul_bodyLang]
  rw [← hListed.requiredProps, ← hListed.optionalProps]
  refine exists_congr fun S => and_congr_right fun hS => ?_
  have hJoined : joined (sepLang reading.defs)
      (fun k => kvLang s.kvRule k reading.defs) (s.requiredProps ++ S) =
      joined (sepLang reading.defs)
        (fun k => entryLang value k reading.defs) (s.requiredProps ++ S) := by
    refine joined_congr fun k hk => hEntry k (hKeys k ?_)
    exact (List.Sublist.append_left hS s.requiredProps).subset hk
  rw [hJoined]
  rfl

end Accepts

/-- Schemas of constants, each the text of its value. -/
def constants : Visitor (List Char) where
  visit literal name rules :=
    some (addRule rules (if name = [] then bytes "root" else name) (formatLiteral literal))
  addPrimitive name rules := addRule rules (if name = [] then bytes "root" else name) (bytes "[^\"]*")
  notStrings _ rules := (bytes "[\"] [^\"]* [\"]", rules)
  visit_extends _ _ _ _ h := Option.some.inj h ▸ (addRule_spec _ _ _).2
  visit_isName _ name _ _ h := Option.some.inj h ▸ addRule_name _ (by
    split
    · decide
    next hName => exact hName) _
  addPrimitive_extends _ _ := (addRule_spec _ _ _).2
  notStrings_extends _ _ := .refl _

/-- The rules of an object with four properties, two of them required. -/
def fourProperties : Option (List UInt8 × RuleMap) :=
  buildObjectRule constants [(['b'], ['1']), (['a'], ['2']), (['d'], ['3']), (['c'], ['4'])]
    [['a'], ['b']] [] .closed [(bytes "space", bytes "| \" \"")]

example : fourProperties.map (fun r => (r.1, r.2.lookup (bytes "d-rest"))) =
    some (bytes ("\"\x7b\" space b-kv \",\" space a-kv " ++
      "( \",\" space ( d-kv d-rest | c-kv ) )? space \"\x7d\""),
      some (bytes "( \",\" space c-kv )?")) := by decide +kernel

theorem fourProperties_isSome : fourProperties.isSome = true := by decide +kernel

/-- `b` and `a` in this order, and then any of `d` and `c` in this order. -/
theorem fourProperties_accept :
    ∃ value : Key → List UInt8, AdmitsSublists (fourProperties.get fourProperties_isSome).2
      (fourProperties.get fourProperties_isSome).1 value [['b'], ['a']] [['d'], ['c']] := by
  have hBuild := (some_get fourProperties_isSome).symm
  obtain ⟨value, -, hAdmits⟩ :=
    accepts_ordered_sublists constants [['a'], ['b']] (by decide) hBuild
  exact ⟨value, hAdmits⟩

/-- The rule of a property as a piece. -/
def kvPiece (key : Key) (valueRule : List UInt8) : GbnfPiece :=
  ofItems [literalPiece (dump key), spacePiece, literalPiece [':'], spacePiece, refPiece valueRule]

def fourPieces : List (List UInt8 × GbnfPiece) :=
  [(bytes "d-rest", ofItems [optional (commaRefPiece (bytes "c-kv"))]),
    (bytes "c-kv", kvPiece ['c'] (bytes "c")), (bytes "c", ofItems [literalPiece ['4']]),
    (bytes "d-kv", kvPiece ['d'] (bytes "d")), (bytes "d", ofItems [literalPiece ['3']]),
    (bytes "a-kv", kvPiece ['a'] (bytes "a")), (bytes "a", ofItems [literalPiece ['2']]),
    (bytes "b-kv", kvPiece ['b'] (bytes "b")), (bytes "b", ofItems [literalPiece ['1']]),
    (bytes "space", ⟨.alt .empty (.literal [' '.toNat]), bytes "| \" \""⟩)]

theorem kvPiece_spelled (key : Key) {valueRule : List UInt8} (h : IsRuleName valueRule) :
    (kvPiece key valueRule).Spelled .alternates := by
  have hSpace : Writes (fun _ => none) spacePiece (lang (fun _ => none) spacePiece.expr) :=
    ⟨refPiece_spelled isRuleName_space, rfl⟩
  exact ofAlts_spelled ((literalPiece_writes (fun _ => none) (dump key)).cons (hSpace.cons
    ((literalPiece_writes _ [':']).cons (hSpace.pair ⟨refPiece_spelled h, rfl⟩)))).one.spelled

theorem fourPieces_spelled : ∀ p ∈ fourPieces, p.2.Spelled .alternates := by
  have hLiteral : ∀ literal, (ofItems [literalPiece literal]).Spelled .alternates :=
    fun literal => ofAlts_spelled (literalPiece_writes (fun _ => none) literal).one.one.spelled
  have hRest : (ofItems [optional (commaRefPiece (bytes "c-kv"))]).Spelled .alternates :=
    ofAlts_spelled (@firstPiece_writes (fun _ => bytes "c-kv") (fun _ => none) []
      (by decide +kernel) true).one.one.spelled
  have hSpace : ∀ nested, Spells nested .alternates (.alt .empty (.literal [' '.toNat]))
      (bytes "| \" \"") := fun nested =>
    .alt (.one .empty) blanks_space (.single (literalPiece_spelled [' '] nested))
      (Or.inr (by decide))
  simp only [fourPieces, forall_mem_cons, not_mem_nil, false_implies, implies_true,
    and_true]
  exact ⟨hRest, kvPiece_spelled _ (by decide +kernel), hLiteral _,
    kvPiece_spelled _ (by decide +kernel), hLiteral _, kvPiece_spelled _ (by decide +kernel),
    hLiteral _, kvPiece_spelled _ (by decide +kernel), hLiteral _, hSpace⟩

/-- The rules of the four properties have a reading. -/
theorem fourProperties_reading :
    Nonempty (Reading (fourProperties.get fourProperties_isSome).2) := by
  have hRules : (fourProperties.get fourProperties_isSome).2 =
      fourPieces.map fun p => (p.1, p.2.text) := by decide +kernel
  rw [hRules]
  exact ⟨.ofPieces fourPieces fourPieces_spelled⟩

end SchemaConverter

end Beellama.Ports
