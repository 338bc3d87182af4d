import Beellama.Ports.GrammarPiece
import Beellama.Verified.SortedTrie

/-!
# Keys that are none of the names (`_not_strings`)

A shallow embedding of `_not_strings` of `src/common/json-schema-to-grammar.cpp`, which
writes the expression of the additional keys of an object.  The names go into a trie; the
expression leads down the trie and leaves it at a character that is no child.
-/

namespace Beellama.Ports

open Beellama.Verified GbnfExpr GrammarParser List Option

namespace NotStrings

open GbnfPiece SortedTrie

/-! ## Names -/

/-- A letter, a digit or an underscore. -/
def isNameChar (c : UInt8) : Bool :=
  decide (0x61 ≤ c.toNat) && decide (c.toNat ≤ 0x7A) ||
    decide (0x41 ≤ c.toNat) && decide (c.toNat ≤ 0x5A) || c == '_'.toUInt8 || isDigitChar c

/-- The characters of the names; none has a meaning in a class. -/
@[ext]
structure NameChar where
  byte : UInt8
  isName : isNameChar byte = true
  deriving DecidableEq, Repr

def NameChar.code (c : NameChar) : Nat := c.byte.toNat

theorem NameChar.code_injective : Function.Injective NameChar.code :=
  fun _ _ h => NameChar.ext (UInt8.toNat_inj.mp h)

instance : LinearOrder NameChar := LinearOrder.lift' NameChar.code NameChar.code_injective

/-- `TrieNode` -/
abbrev TrieNode := Node NameChar

/-! ## The expression -/

/-- The content of the rule of a character of a string. -/
def charAlts : Alts :=
  [[⟨.charClass true [⟨0x22, none⟩, ⟨0x5C, none⟩, ⟨0x7F, none⟩, ⟨0x00, some 0x1F⟩],
      bytes "[^\"\\\\\\x7F\\x00-\\x1F]"⟩],
    [⟨.charClass false [⟨0x5C, none⟩], bytes "[\\\\]"⟩,
      group [[⟨.charClass false [⟨0x22, none⟩, ⟨0x5C, none⟩, ⟨0x62, none⟩, ⟨0x66, none⟩,
          ⟨0x6E, none⟩, ⟨0x72, none⟩, ⟨0x74, none⟩], bytes "[\"\\\\bfnrt]"⟩],
        [⟨.literal [0x75], bytes "\"u\""⟩,
          ⟨.repetition (.charClass false [⟨0x30, some 0x39⟩, ⟨0x61, some 0x66⟩, ⟨0x41, some 0x46⟩])
            4 (some 4), bytes "[0-9a-fA-F]\x7b4\x7d"⟩]]]]

def charExpr : GbnfExpr := (ofAlts charAlts).expr

example : (ofAlts charAlts).text =
    bytes ("[^\"\\\\\\x7F\\x00-\\x1F] | [\\\\] ([\"\\\\bfnrt] | " ++
      "\"u\" [0-9a-fA-F]\x7b4\x7d)") := by decide +kernel

/-- The name of the rule of a character, which the grammar binds to the content. -/
structure CharRule (defs : List UInt8 → Option GbnfExpr) where
  name : List UInt8
  isName : IsRuleName name
  bound : defs name = some charExpr

/-- `[c]` -/
def charPiece (c : NameChar) : GbnfPiece :=
  ⟨.charClass false [⟨c.code, none⟩], bytes "[" ++ [c.byte] ++ bytes "]"⟩

/-- `["]` -/
def quotePiece : GbnfPiece := ⟨.charClass false [⟨0x22, none⟩], bytes "[\"]"⟩

/-- `[^"rejects]` -/
def rejectPiece (rejects : List NameChar) : GbnfPiece :=
  ⟨.charClass true (⟨0x22, none⟩ :: rejects.map fun c => ⟨c.code, none⟩),
    bytes "[^\"" ++ rejects.map NameChar.byte ++ bytes "]"⟩

def plusPiece (name : List UInt8) : GbnfPiece := ⟨.repetition (.ref name) 1 none, name ++ bytes "+"⟩

def starPiece (name : List UInt8) : GbnfPiece := ⟨.repetition (.ref name) 0 none, name ++ bytes "*"⟩

mutual

/-- `visit` -/
def visit (charRule : List UInt8) : TrieNode → Alts
  | .node children _ =>
    visitChildren charRule children ++
      if children.isEmpty then [] else [[rejectPiece children.keys, starPiece charRule]]

/-- The loop of `visit` over the children. -/
def visitChildren (charRule : List UInt8) : Children NameChar → Alts
  | .nil => []
  | .cons c child rest =>
    (charPiece c ::
      if child.children.isEmpty = false then [group (visit charRule child)]
      else if child.isEnd then [plusPiece charRule] else []) :: visitChildren charRule rest

end

/-- `_not_strings`, for the name that `_add_primitive` gives to the rule of a character. -/
def notStrings (charRule : List UInt8) (strings : List (List NameChar)) : GbnfPiece :=
  let trie := ofWords strings
  let body := spacedGroup (bytes " ") (bytes " ") (visit charRule trie)
  ofItems [quotePiece, if trie.isEnd then body else optional body, quotePiece]

/-- The names of the comment of the source. -/
example : (notStrings (bytes "char") [[⟨0x61, rfl⟩, ⟨0x6E, rfl⟩, ⟨0x64, rfl⟩],
    [⟨0x61, rfl⟩, ⟨0x6C, rfl⟩, ⟨0x73, rfl⟩, ⟨0x6F, rfl⟩]]).text =
    bytes ("[\"] ( [a] ([l] ([s] ([o] char+ | [^\"o] char*) | [^\"s] char*) | " ++
      "[n] ([d] char+ | [^\"d] char*) | [^\"ln] char*) | [^\"a] char* )? [\"]") := by
  decide +kernel

/-! ## The text is spelled -/

theorem NameChar.bounds (c : NameChar) :
    0x30 ≤ c.code ∧ c.code < 0x7B ∧ c.code ≠ 0x5B ∧ c.code ≠ 0x5C ∧ c.code ≠ 0x5D ∧
      c.code ≠ 0x5E := by
  have hName := c.isName
  simp only [isNameChar, isDigitChar, Bool.or_eq_true, Bool.and_eq_true, decide_eq_true_eq,
    beq_iff_eq] at hName
  rw [NameChar.code]
  rcases hName with ((hLower | hUpper) | hUnderscore) | hDigit
  · omega
  · omega
  · rw [hUnderscore]
    decide
  · omega

theorem NameChar.byte_ne (c : NameChar) {d : UInt8} (h : c.code ≠ d.toNat) :
    [c.byte].head? ≠ some d := by
  intro hEq
  exact h (congrArg UInt8.toNat (some.inj hEq))

theorem NameChar.spells (c : NameChar) : SpellsChar c.code [c.byte] := by
  have hBounds := c.bounds
  apply spellsChar_plain
  · show c.code < 0x80
    omega
  intro hEq
  have hCode : c.code = 0x5C := congrArg UInt8.toNat hEq
  omega

theorem charPiece_spelled (c : NameChar) : (charPiece c).Spelled .item := by
  intro nested
  have hBounds := c.bounds
  have hItems : SpellsItems [⟨c.code, none⟩] ([c.byte] ++ []) :=
    .single c.spells (c.byte_ne (by show _ ≠ 0x5D; omega)) (by simp) .nil
  have hClass := @Spells.charClass nested _ _ [] hItems (c.byte_ne (by show _ ≠ 0x5E; omega))
    GbnfGrammar.blanks_nil
  exact hClass

theorem quotePiece_spelled : quotePiece.Spelled .item := by
  intro nested
  have hItems : SpellsItems [⟨0x22, none⟩] (bytes "\"" ++ []) :=
    .single (spellsChar_plain (by decide) (by decide)) (by decide) (by simp) .nil
  exact @Spells.charClass nested _ _ [] hItems (by decide) GbnfGrammar.blanks_nil

theorem rejects_spells (rejects : List NameChar) :
    SpellsItems (rejects.map fun c => ⟨c.code, none⟩) (rejects.map NameChar.byte) := by
  induction rejects with
  | nil => exact .nil
  | cons c rejects ih =>
    have hBounds := c.bounds
    refine @SpellsItems.single _ _ [c.byte] _ c.spells (c.byte_ne (by show _ ≠ 0x5D; omega)) ?_ ih
    intro hHyphen
    cases rejects with
    | nil => exact absurd hHyphen (some_ne_none _).symm
    | cons d rejects =>
      have hNext := d.bounds
      exact absurd hHyphen (d.byte_ne (by show _ ≠ 0x2D; omega))

theorem rejectPiece_spelled (rejects : List NameChar) : (rejectPiece rejects).Spelled .item := by
  intro nested
  have hItems : SpellsItems (⟨0x22, none⟩ :: rejects.map fun c => ⟨c.code, none⟩)
      (bytes "\"" ++ rejects.map NameChar.byte) := by
    refine .single (spellsChar_plain (by decide) (by decide)) (by decide) ?_ (rejects_spells _)
    intro hHyphen
    cases rejects with
    | nil => exact absurd hHyphen (some_ne_none _).symm
    | cons d rejects =>
      have hNext := d.bounds
      exact absurd hHyphen (d.byte_ne (by show _ ≠ 0x2D; omega))
  have hClass := @Spells.negated nested _ _ [] hItems GbnfGrammar.blanks_nil
  rw [append_nil] at hClass
  exact hClass

section CharRule

variable {defs : List UInt8 → Option GbnfExpr} (charRule : CharRule defs)
include charRule

theorem plusPiece_spelled : (plusPiece charRule.name).Spelled .item :=
  fun nested => .repetition (refPiece_spelled charRule.isName nested) (@SpellsBounds.plus nested []
    GbnfGrammar.blanks_nil)

theorem starPiece_spelled : (starPiece charRule.name).Spelled .item :=
  fun nested => .repetition (refPiece_spelled charRule.isName nested) (@SpellsBounds.star nested []
    GbnfGrammar.blanks_nil)

end CharRule

variable {defs : List UInt8 → Option GbnfExpr}

mutual

theorem visit_spelled (charRule : CharRule defs) :
    (n : TrieNode) → n.children.isEmpty = false → AltsSpelled (visit charRule.name n)
  | .node children _, hSome => by
      have hChildren := visitChildren_spelled charRule children
      have hLast : ∀ p ∈ [rejectPiece children.keys, starPiece charRule.name], p.Spelled .item := by
        simpa using ⟨rejectPiece_spelled children.keys, starPiece_spelled charRule⟩
      show AltsSpelled (visitChildren charRule.name children ++ if children.isEmpty then [] else
        [[rejectPiece children.keys, starPiece charRule.name]])
      rw [if_neg (by rw [show children.isEmpty = false from hSome]; exact Bool.false_ne_true)]
      refine ⟨append_ne_nil_of_right_ne_nil _ (cons_ne_nil _ _), fun items hItems => ?_⟩
      cases mem_append.mp hItems with
      | inl hMem => exact hChildren items hMem
      | inr hMem => exact mem_singleton.mp hMem ▸ ⟨cons_ne_nil _ _, hLast⟩

theorem visitChildren_spelled (charRule : CharRule defs) :
    (children : Children NameChar) → ∀ items ∈ visitChildren charRule.name children,
      items ≠ [] ∧ ∀ p ∈ items, p.Spelled .item
  | .nil => fun items hItems => absurd hItems not_mem_nil
  | .cons c child rest => by
      have hRest := visitChildren_spelled charRule rest
      have hChild := visit_spelled charRule child
      have hFirst : ∀ p ∈ charPiece c ::
          (if child.children.isEmpty = false then [group (visit charRule.name child)]
            else if child.isEnd then [plusPiece charRule.name] else []), p.Spelled .item := by
        intro p hp
        cases mem_cons.mp hp with
        | inl hEq =>
          rw [hEq]
          exact charPiece_spelled c
        | inr hMem =>
          split at hMem
          next hSome =>
            rw [mem_singleton.mp hMem]
            exact group_spelled (hChild hSome)
          next =>
            split at hMem
            · rw [mem_singleton.mp hMem]
              exact plusPiece_spelled charRule
            · exact absurd hMem not_mem_nil
      intro items hItems
      cases mem_cons.mp hItems with
      | inl hEq =>
        rw [hEq]
        exact ⟨cons_ne_nil _ _, hFirst⟩
      | inr hMem => exact hRest items hMem

end

/-- What is written spells the expression. -/
theorem notStrings_spelled (charRule : CharRule defs) (strings : List (List NameChar)) :
    (notStrings charRule.name strings).Spelled .alternates := by
  have hAlts : visit charRule.name (ofWords strings) = [] ∨
      AltsSpelled (visit charRule.name (ofWords strings)) := by
    cases hTrie : ofWords strings with
    | node children isEnd =>
      cases children with
      | nil => exact Or.inl rfl
      | cons c child rest => exact Or.inr (visit_spelled charRule _ rfl)
  have hBody := spacedGroup_spelled GbnfGrammar.blanks_space GbnfGrammar.blanks_space hAlts
  have hMiddle : (if (ofWords strings).isEnd then
      spacedGroup (bytes " ") (bytes " ") (visit charRule.name (ofWords strings))
      else optional (spacedGroup (bytes " ") (bytes " ")
        (visit charRule.name (ofWords strings)))).Spelled .item := by
    split
    · exact hBody
    · exact optional_spelled hBody
  show (ofAlts [[quotePiece, _, quotePiece]]).Spelled .alternates
  apply ofAlts_spelled
  refine ⟨cons_ne_nil _ _, fun items hItems => ?_⟩
  rw [mem_singleton.mp hItems]
  simpa using ⟨quotePiece_spelled, hMiddle, quotePiece_spelled⟩

/-! ## What is accepted -/

def codes (k : List NameChar) : List Nat := k.map NameChar.code

variable {k : List NameChar}

section Lang

variable (defs : List UInt8 → Option GbnfExpr)

theorem lang_charPiece (c : NameChar) : lang defs (charPiece c).expr = {[c.code]} := by
  ext w
  rw [charPiece, mem_lang_class]
  constructor
  · rintro ⟨x, rfl, hClass⟩
    have hx : x = c.code := by simpa [ClassItem.Contains] using hClass.mpr rfl
    rw [hx]
    rfl
  intro h
  rw [show w = [c.code] from h]
  exact ⟨c.code, rfl, by simp [ClassItem.Contains]⟩

theorem mem_lang_rejectPiece {rejects : List NameChar} {w : List Nat} :
    w ∈ lang defs (rejectPiece rejects).expr ↔
      ∃ x, w = [x] ∧ x ≠ 0x22 ∧ ∀ c ∈ rejects, x ≠ c.code := by
  rw [rejectPiece, mem_lang_class]
  simp [ClassItem.Contains]

variable {c : NameChar} {L M : Language Nat}

theorem cons_mem_mul (hL : ∀ w ∈ L, w.length = 1) :
    codes (c :: k) ∈ L * M ↔ [c.code] ∈ L ∧ codes k ∈ M := by
  constructor
  · rintro ⟨u, hu, v, hv, hEq⟩
    obtain ⟨x, rfl⟩ := length_eq_one_iff.mp (hL u hu)
    obtain ⟨rfl, rfl⟩ := cons.inj hEq
    exact ⟨hu, hv⟩
  · rintro ⟨hu, hv⟩
    exact ⟨_, hu, _, hv, rfl⟩

theorem nil_not_mem_mul (hL : ∀ w ∈ L, w.length = 1) : codes [] ∉ L * M := by
  rintro ⟨u, hu, v, hv, hEq⟩
  have hLength := hL u hu
  rw [(append_eq_nil_iff.mp hEq).1] at hLength
  exact absurd hLength (by decide)

/-- Of the characters of names, each is a character of a string. -/
theorem mem_lang_charExpr : codes k ∈ lang defs charExpr ↔ k.length = 1 := by
  show codes k ∈ lang defs (.alt (.charClass true _) (.seq (.charClass false _) _)) ↔ _
  rw [lang_alt, lang_seq, Language.mem_add, mem_lang_class]
  constructor
  · rintro (⟨x, hEq, -⟩ | hEscape)
    · rw [← length_map NameChar.code]
      show (codes k).length = 1
      rw [hEq]
      rfl
    obtain ⟨u, hu, v, -, hEq⟩ := Language.mem_mul.mp hEscape
    obtain ⟨x, rfl, hClass⟩ := mem_lang_class.mp hu
    have hx : x = 0x5C := by simpa [ClassItem.Contains] using hClass.mpr rfl
    cases k with
    | nil => exact absurd hEq (cons_ne_nil _ _)
    | cons c k =>
      have hCode : x = c.code := (cons.inj hEq).1
      have hBounds := c.bounds
      omega
  intro hLength
  obtain ⟨c, rfl⟩ := length_eq_one_iff.mp hLength
  have hBounds := c.bounds
  refine Or.inl ⟨c.code, rfl, ?_⟩
  simp only [mem_cons, ClassItem.Contains]
  simp
  omega

theorem mem_lang_charExpr_pow {n : Nat} : codes k ∈ lang defs charExpr ^ n ↔ k.length = n := by
  induction n generalizing k with
  | zero =>
    rw [pow_zero, length_eq_zero_iff]
    exact map_eq_nil_iff
  | succ n ih =>
    rw [pow_succ']
    constructor
    · rintro ⟨u, hu, v, hv, hEq⟩
      obtain ⟨k₁, k₂, rfl, rfl, rfl⟩ := map_eq_append_iff.mp hEq.symm
      rw [length_append, (mem_lang_charExpr defs).mp hu, ih.mp hv, Nat.add_comm]
    intro hLength
    cases k with
    | nil => exact absurd hLength (Nat.succ_ne_zero n).symm
    | cons c k =>
      refine ⟨codes [c], (mem_lang_charExpr defs).mpr rfl, codes k, ih.mpr ?_, rfl⟩
      exact Nat.succ_inj.mp hLength

theorem altsLang_cons (items : List GbnfPiece) (alts : Alts) :
    altsLang defs (items :: alts) = itemsLang defs items + altsLang defs alts := by
  rfl

theorem itemsLang_cons (p : GbnfPiece) (items : List GbnfPiece) :
    itemsLang defs (p :: items) = lang defs p.expr * itemsLang defs items := by
  rfl

theorem length_of_charPiece (c : NameChar) : ∀ w ∈ lang defs (charPiece c).expr, w.length = 1 := by
  intro w hw
  rw [lang_charPiece defs] at hw
  rw [show w = [c.code] from hw]
  rfl

theorem length_of_rejectPiece (rejects : List NameChar) :
    ∀ w ∈ lang defs (rejectPiece rejects).expr, w.length = 1 := by
  intro w hw
  obtain ⟨x, rfl, -⟩ := (mem_lang_rejectPiece defs).mp hw
  rfl

theorem cons_mem_charPiece_mul {d : NameChar} :
    codes (c :: k) ∈ lang defs (charPiece d).expr * L ↔ c = d ∧ codes k ∈ L := by
  rw [cons_mem_mul (length_of_charPiece defs d), lang_charPiece defs]
  refine and_congr_left fun _ => ?_
  constructor
  · intro h
    exact NameChar.code_injective (cons.inj h).1
  · rintro rfl
    rfl

end Lang

section Accepts

variable {defs : List UInt8 → Option GbnfExpr} (charRule : CharRule defs)
include charRule

theorem lang_charRule : lang defs (.ref charRule.name) = lang defs charExpr := by
  ext w
  rw [mem_lang_ref, charRule.bound]
  constructor
  · rintro ⟨e, hEq, hMem⟩
    rwa [← some.inj hEq] at hMem
  · exact fun hMem => ⟨_, rfl, hMem⟩

theorem mem_lang_plus : codes k ∈ lang defs (plusPiece charRule.name).expr ↔ k ≠ [] := by
  rw [plusPiece, mem_lang_repetition, lang_charRule]
  constructor
  · rintro ⟨n, hMin, -, hPow⟩ hNil
    have hLength := (mem_lang_charExpr_pow defs).mp hPow
    rw [hNil, length_nil] at hLength
    omega
  intro hNe
  exact ⟨k.length, length_pos_of_ne_nil hNe, fun b hb => absurd hb (not_mem_none b),
    (mem_lang_charExpr_pow defs).mpr rfl⟩

theorem mem_lang_star (k : List NameChar) : codes k ∈ lang defs (starPiece charRule.name).expr := by
  rw [starPiece, mem_lang_repetition, lang_charRule]
  exact ⟨k.length, Nat.zero_le _, fun b hb => absurd hb (not_mem_none b),
    (mem_lang_charExpr_pow defs).mpr rfl⟩

mutual

/-- Behind a node that has children what is accepted begins no word of the node. -/
theorem mem_visit : (n : TrieNode) → n.WellFormed → n.children.isEmpty = false →
    (k : List NameChar) →
    (codes k ∈ altsLang defs (visit charRule.name n) ↔ ¬ ∃ t, n.Holds (k ++ t))
  | .node children isEnd, hn, hSome, k => by
      have hReject : ∀ c k', codes (c :: k') ∈ itemsLang defs
          [rejectPiece children.keys, starPiece charRule.name] ↔ c ∉ children.keys := by
        intro c k'
        have hBounds := c.bounds
        rw [itemsLang_cons, cons_mem_mul (length_of_rejectPiece defs _), mem_lang_rejectPiece,
          itemsLang, map_singleton, prod_singleton,
          and_iff_left (mem_lang_star charRule k')]
        constructor
        · rintro ⟨x, hEq, -, hNone⟩ hMem
          exact hNone c hMem (cons.inj hEq).1.symm
        intro hNot
        refine ⟨c.code, rfl, by omega, fun d hd hEq => ?_⟩
        exact hNot (NameChar.code_injective hEq ▸ hd)
      show codes k ∈ altsLang defs (visitChildren charRule.name children ++
        if children.isEmpty then [] else [[rejectPiece children.keys, starPiece charRule.name]]) ↔ _
      rw [if_neg (by rw [show children.isEmpty = false from hSome]; exact Bool.false_ne_true),
        altsLang, map_append, sum_append, map_singleton, sum_singleton,
        Language.mem_add]
      cases k with
      | nil =>
        apply iff_of_false
        · rintro (hChild | hLast)
          · exact nil_not_mem_visitChildren children hChild
          · exact nil_not_mem_mul (length_of_rejectPiece defs _) hLast
        intro hNone
        obtain ⟨t, ht⟩ := Node.exists_holds (.node children isEnd) (Or.inl hSome) hn
        exact hNone ⟨t, ht⟩
      | cons c k =>
        have hChildren := mem_visitChildren children hn c k
        rw [hReject]
        show codes (c :: k) ∈ altsLang defs (visitChildren charRule.name children) ∨ _ ↔
          ¬ ∃ t, children.Holds c (k ++ t)
        rw [hChildren]
        by_cases hKey : c ∈ children.keys
        · rw [or_iff_left (not_not_intro hKey), and_iff_right hKey]
        refine iff_of_true (Or.inr hKey) ?_
        rintro ⟨t, ht⟩
        exact hKey ht.mem_keys

theorem mem_visitChildren : (children : Children NameChar) → children.WellFormed →
    (c : NameChar) → (k : List NameChar) →
    (codes (c :: k) ∈ altsLang defs (visitChildren charRule.name children) ↔
      c ∈ children.keys ∧ ¬ ∃ t, children.Holds c (k ++ t))
  | .nil, _, c, k => iff_of_false (Language.notMem_zero _) fun h => not_mem_nil h.1
  | .cons d child rest, hn, c, k => by
      obtain ⟨hOrder, hFruitful, hChild, hRest⟩ := hn
      have hTail : codes k ∈ itemsLang defs
          (if child.children.isEmpty = false then [group (visit charRule.name child)]
            else if child.isEnd then [plusPiece charRule.name] else []) ↔
          ¬ ∃ t, child.Holds (k ++ t) := by
        by_cases hSome : child.children.isEmpty = false
        · rw [if_pos hSome, itemsLang, map_singleton, prod_singleton,
            lang_group_piece defs (visit_spelled charRule child hSome).1]
          exact mem_visit child hChild hSome k
        have hEnd : child.isEnd = true := hFruitful.resolve_left hSome
        rw [if_neg hSome, if_pos hEnd, itemsLang, map_singleton, prod_singleton,
          mem_lang_plus]
        have hLeaf : ∀ s, child.Holds s ↔ s = [] := by
          intro s
          cases child with
          | node children isEnd =>
            cases children with
            | nil =>
              cases s with
              | nil => exact iff_of_true hEnd rfl
              | cons c s => exact iff_of_false False.elim (cons_ne_nil c s)
            | cons x y z => exact absurd rfl hSome
        constructor
        · rintro hNe ⟨t, ht⟩
          exact hNe (append_eq_nil_iff.mp ((hLeaf _).mp ht)).1
        · intro hNone hNil
          exact hNone ⟨[], (hLeaf _).mpr (by rw [hNil, append_nil])⟩
      have hLater := mem_visitChildren rest hRest c k
      show codes (c :: k) ∈ altsLang defs ((charPiece d :: _) :: visitChildren charRule.name rest) ↔
        c ∈ d :: rest.keys ∧ ¬ ∃ t, c = d ∧ child.Holds (k ++ t) ∨ rest.Holds c (k ++ t)
      rw [altsLang_cons, Language.mem_add, itemsLang_cons, cons_mem_charPiece_mul, hTail, hLater]
      by_cases hEq : c = d
      · subst hEq
        have hNotKey : c ∉ rest.keys := fun hKey => lt_irrefl c (hOrder c hKey)
        have hNone : ∀ s, ¬ rest.Holds c s := fun s hs => hNotKey hs.mem_keys
        simp [hNone, hNotKey]
      · simp [hEq]

theorem nil_not_mem_visitChildren : (children : Children NameChar) →
    codes [] ∉ altsLang defs (visitChildren charRule.name children)
  | .nil => Language.notMem_zero _
  | .cons d child rest => by
      have hLater := nil_not_mem_visitChildren rest
      show codes [] ∉ altsLang defs ((charPiece d :: _) :: visitChildren charRule.name rest)
      rw [altsLang_cons, Language.mem_add, itemsLang_cons]
      exact not_or_intro (nil_not_mem_mul (length_of_charPiece defs d)) hLater

end

/-- The key between quotes. -/
def quoted (k : List NameChar) : List Nat := 0x22 :: (codes k ++ [0x22])

omit charRule in
theorem lang_quotePiece : lang defs quotePiece.expr = {[0x22]} := by
  ext w
  rw [quotePiece, mem_lang_class]
  constructor
  · rintro ⟨x, rfl, hClass⟩
    have hx : x = 0x22 := by simpa [ClassItem.Contains] using hClass.mpr rfl
    rw [hx]
    rfl
  intro h
  rw [show w = [0x22] from h]
  exact ⟨0x22, rfl, by simp [ClassItem.Contains]⟩

omit charRule in
theorem quoted_mem {p : GbnfPiece} :
    quoted k ∈ lang defs (ofItems [quotePiece, p, quotePiece]).expr ↔ codes k ∈ lang defs p.expr := by
  rw [lang_ofItems, itemsLang_cons, itemsLang_cons, itemsLang, map_singleton,
    prod_singleton, lang_quotePiece]
  constructor
  · intro h
    obtain ⟨u, hu, v, hv, hEq⟩ := Language.mem_mul.mp h
    obtain ⟨x, hx, y, hy, rfl⟩ := Language.mem_mul.mp hv
    rw [show u = [0x22] from hu, show y = [0x22] from hy] at hEq
    have hKey : x ++ [0x22] = codes k ++ [0x22] := (cons.inj hEq).2
    rwa [← append_cancel_right hKey]
  intro h
  exact Language.mem_mul.mpr
    ⟨_, rfl, _, Language.mem_mul.mpr ⟨_, h, _, rfl, rfl⟩, rfl⟩

variable {names : List (List NameChar)}

/-- With a name that is not empty, a key is accepted when it begins no name; the empty key
when it is no name. -/
theorem accepts_iff (hSome : ∃ name ∈ names, name ≠ [])
    (key : List NameChar) :
    quoted key ∈ lang defs (notStrings charRule.name names).expr ↔
      key = [] ∧ [] ∉ names ∨ ∀ name ∈ names, ¬ key <+: name := by
  have hTrie : (ofWords names).children.isEmpty = false := by
    obtain ⟨name, hMem, hNe⟩ := hSome
    have hHolds := (ofWords_holds names name).mpr hMem
    cases name with
    | nil => exact absurd rfl hNe
    | cons c name =>
      rw [holds_cons] at hHolds
      cases hChildren : (ofWords names).children with
      | nil =>
        rw [hChildren] at hHolds
        exact hHolds.elim
      | cons d child rest => rfl
  have hVisit : codes key ∈ altsLang defs (visit charRule.name (ofWords names)) ↔
      ∀ name ∈ names, ¬ key <+: name := by
    rw [mem_visit charRule _ (ofWords_wellFormed names) hTrie]
    constructor
    · rintro hNone name hMem ⟨t, rfl⟩
      exact hNone ⟨t, (ofWords_holds names _).mpr hMem⟩
    · rintro hNone ⟨t, ht⟩
      exact hNone _ ((ofWords_holds names _).mp ht) ⟨t, rfl⟩
  have hBody := @lang_spacedGroup _ (bytes " ") (bytes " ") defs
    (visit_spelled charRule _ hTrie).1
  have hEnd : (ofWords names).isEnd = true ↔ [] ∈ names := by
    rw [← ofWords_holds names [], holds_nil]
  rw [notStrings, quoted_mem]
  by_cases hNil : [] ∈ names
  · rw [if_pos (hEnd.mpr hNil), hBody, hVisit]
    simp [hNil]
  have hKey : codes key = [] ↔ key = [] := map_eq_nil_iff
  rw [if_neg (mt hEnd.mp hNil), lang_optional, hBody, Language.mem_add, Language.mem_one, hKey,
    hVisit, and_iff_left hNil]

/-- Without such a name only the empty key is accepted. -/
theorem accepts_empty_iff (hNone : ∀ name ∈ names, name = [])
    (key : List NameChar) :
    quoted key ∈ lang defs (notStrings charRule.name names).expr ↔ key = [] := by
  have hVisit : visit charRule.name (ofWords names) = [] := by
    have hEmpty : ∀ c s, ¬ (ofWords names).Holds (c :: s) := by
      intro c s hHolds
      exact cons_ne_nil c s (hNone _ ((ofWords_holds names _).mp hHolds))
    have hWellFormed := ofWords_wellFormed names
    cases hTrie : ofWords names with
    | node children isEnd =>
      cases children with
      | nil => rfl
      | cons c child rest =>
        rw [hTrie] at hEmpty hWellFormed
        obtain ⟨d, s, hHolds⟩ := Children.exists_holds (.cons c child rest) rfl hWellFormed
        exact absurd hHolds (hEmpty d s)
  have hBody : lang defs (spacedGroup (bytes " ") (bytes " ")
      (visit charRule.name (ofWords names))).expr = 1 := by
    rw [hVisit, spacedGroup, lang_group]
    exact lang_empty
  have hKey : codes key ∈ (1 : Language Nat) ↔ key = [] := by
    exact map_eq_nil_iff
  rw [notStrings, quoted_mem]
  split
  · rw [hBody, hKey]
  · rw [lang_optional, hBody, Language.mem_add, or_self_iff, hKey]

/-- With a name that is not empty, the names, the empty key and the keys that begin no name; without
any, the empty key. -/
def Told (names : List (List NameChar)) (key : List NameChar) : Prop :=
  if ∃ name ∈ names, name ≠ [] then key = [] ∨ key ∈ names ∨ ∀ name ∈ names, ¬ key <+: name
  else names = [] ∧ key = []

/-- A key is accepted exactly when it is no name, if and only if it is told from them. -/
theorem accepts_exact_iff (names : List (List NameChar)) (key : List NameChar) :
    (quoted key ∈ lang defs (notStrings charRule.name names).expr ↔ key ∉ names) ↔
      Told names key := by
  rw [Told]
  by_cases hSome : ∃ name ∈ names, name ≠ []
  · rw [if_pos hSome, accepts_iff charRule hSome]
    have hSelf : key ∈ names → ¬ ∀ name ∈ names, ¬ key <+: name :=
      fun hMem hNone => hNone key hMem (prefix_refl key)
    by_cases hMem : key ∈ names
    · have hNot := hSelf hMem
      refine iff_of_true (iff_of_false ?_ (not_not_intro hMem)) (Or.inr (Or.inl hMem))
      rintro (⟨rfl, hNil⟩ | hNone)
      · exact hNil hMem
      · exact hNot hNone
    · rw [iff_true_right hMem, or_iff_right hMem]
      exact or_congr_left (and_iff_left_of_imp fun hNil => hNil ▸ hMem)
  have hNone : ∀ name ∈ names, name = [] := by
    intro name hMem
    by_contra hNe
    exact hSome ⟨name, hMem, hNe⟩
  rw [if_neg hSome, accepts_empty_iff charRule hNone]
  cases names with
  | nil => simp
  | cons name names =>
    have hName := hNone name mem_cons_self
    refine iff_of_false ?_ fun h => cons_ne_nil _ _ h.1
    intro hIff
    by_cases hKey : key = []
    · exact hIff.mp hKey (by rw [hKey, ← hName]; exact mem_cons_self)
    · apply hKey
      exact hIff.mpr fun hMem => hKey (hNone key hMem)

end Accepts

/-- The bindings of a grammar with the rule of a character alone. -/
def charDefs (name : List UInt8) : Option GbnfExpr :=
  if name = bytes "char" then some charExpr else none

def charRule : CharRule charDefs where
  name := bytes "char"
  isName := by decide +kernel
  bound := if_pos rfl

/-- For the name `ab` the key `a` is no name, and not accepted. -/
theorem prefix_rejected :
    [⟨0x61, rfl⟩] ∉ [[(⟨0x61, rfl⟩ : NameChar), ⟨0x62, rfl⟩]] ∧
      quoted [⟨0x61, rfl⟩] ∉
        lang charDefs (notStrings charRule.name [[⟨0x61, rfl⟩, ⟨0x62, rfl⟩]]).expr := by
  refine ⟨by decide, ?_⟩
  rw [accepts_iff charRule ⟨_, mem_cons_self, cons_ne_nil _ _⟩]
  rintro (⟨hNil, -⟩ | hNone)
  · exact cons_ne_nil _ _ hNil
  · exact hNone _ mem_cons_self ⟨[⟨0x62, rfl⟩], rfl⟩

end NotStrings

end Beellama.Ports
