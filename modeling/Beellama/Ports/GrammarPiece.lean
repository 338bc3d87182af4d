import Beellama.Ports.GrammarRules

/-!
# Writing expressions

Code that writes a grammar appends pieces of text.  A piece here is a text with the expression that it
spells.  What is written of spelled pieces is spelled (`ofAlts_spelled`), and its language is the sum
of the products of the languages of its items (`lang_ofAlts`).
-/

namespace Beellama.Ports

open GrammarParser List

variable {name sp : List UInt8}

namespace GbnfExpr

variable {defs : List UInt8 → Option GbnfExpr}

/-! ## Languages -/

variable {e : GbnfExpr} {w : List Nat}

@[simp] theorem lang_empty : lang defs .empty = 1 := by
  ext w
  constructor
  · intro h
    cases h
    rfl
  · rintro rfl
    exact Generates.empty

@[simp] theorem lang_seq (e f : GbnfExpr) : lang defs (.seq e f) = lang defs e * lang defs f := by
  ext w
  constructor
  · intro h
    cases h with
    | seq hFirst hNext => exact ⟨_, hFirst, _, hNext, rfl⟩
  · rintro ⟨u, hu, v, hv, rfl⟩
    exact Generates.seq hu hv

@[simp] theorem lang_alt (e f : GbnfExpr) : lang defs (.alt e f) = lang defs e + lang defs f := by
  ext w
  constructor
  · intro h
    cases h with
    | altLeft hLeft => exact Or.inl hLeft
    | altRight hRight => exact Or.inr hRight
  rintro (hLeft | hRight)
  · exact Generates.altLeft hLeft
  · exact Generates.altRight hRight

@[simp] theorem lang_group (e : GbnfExpr) : lang defs (.group e) = lang defs e := by
  ext w
  constructor
  · intro h
    cases h with
    | group hBody => exact hBody
  · exact Generates.group

theorem mem_lang_literal {chars : List Nat} : w ∈ lang defs (.literal chars) ↔ w = chars := by
  constructor
  · intro h
    cases h
    rfl
  · rintro rfl
    exact Generates.literal

theorem mem_lang_class {negated : Bool} {items : List ClassItem} :
    w ∈ lang defs (.charClass negated items) ↔
      ∃ c, w = [c] ∧ ((∃ item ∈ items, item.Contains c) ↔ negated = false) := by
  constructor
  · intro h
    cases h with
    | charClass hClass => exact ⟨_, rfl, hClass⟩
  · rintro ⟨c, rfl, hClass⟩
    exact Generates.charClass hClass

theorem mem_lang_ref : w ∈ lang defs (.ref name) ↔ ∃ e, defs name = some e ∧ w ∈ lang defs e := by
  constructor
  · intro h
    cases h with
    | ref hDef hBody => exact ⟨_, hDef, hBody⟩
  · rintro ⟨e, hDef, hBody⟩
    exact Generates.ref hDef hBody

variable {m : Nat} {n : Option Nat}

theorem mem_lang_repetition :
    w ∈ lang defs (.repetition e m n) ↔
      ∃ k, m ≤ k ∧ (∀ b ∈ n, k ≤ b) ∧ w ∈ lang defs e ^ k := generates_repetition

/-! ## Blanks behind a text -/

variable {nested : Bool} {t : List UInt8}

theorem blanks_append {u : List UInt8} (ht : Blanks nested t)
    (hu : Blanks nested u) : Blanks nested (t ++ u) := by
  intro c hc
  cases mem_append.mp hc with
  | inl h => exact ht c h
  | inr h => exact hu c h

theorem SpellsBounds.blanks (h : SpellsBounds nested m n t) (hSp : Blanks nested sp) :
    SpellsBounds nested m n (t ++ sp) := by
  cases h with
  | star h₁ => rw [append_assoc]; exact .star (blanks_append h₁ hSp)
  | plus h₁ => rw [append_assoc]; exact .plus (blanks_append h₁ hSp)
  | optional h₁ => rw [append_assoc]; exact .optional (blanks_append h₁ hSp)
  | exactly h₁ hNat h₂ h₃ =>
    rw [append_assoc]
    exact .exactly h₁ hNat h₂ (blanks_append h₃ hSp)
  | atLeast h₁ hNat h₂ h₃ h₄ =>
    rw [append_assoc]
    exact .atLeast h₁ hNat h₂ h₃ (blanks_append h₄ hSp)
  | between h₁ hMin h₂ h₃ hMax h₄ h₅ =>
    rw [append_assoc]
    exact .between h₁ hMin h₂ h₃ hMax h₄ (blanks_append h₅ hSp)

theorem Spells.item_blanks
    (h : Spells nested .item e t) (hSp : Blanks nested sp) : Spells nested .item e (t ++ sp) := by
  cases h with
  | literal hChars h₁ => rw [append_assoc]; exact .literal hChars (blanks_append h₁ hSp)
  | charClass hItems hHead h₁ =>
    rw [append_assoc]
    exact .charClass hItems hHead (blanks_append h₁ hSp)
  | negated hItems h₁ => rw [append_assoc]; exact .negated hItems (blanks_append h₁ hSp)
  | any h₁ => rw [append_assoc]; exact .any (blanks_append h₁ hSp)
  | ref hName hWord h₁ => rw [append_assoc]; exact .ref hName hWord (blanks_append h₁ hSp)
  | group h₁ hBody h₂ => rw [append_assoc]; exact .group h₁ hBody (blanks_append h₂ hSp)
  | repetition hBody hBounds =>
    rw [append_assoc]
    exact .repetition hBody (hBounds.blanks hSp)

end GbnfExpr

open GbnfExpr

/-! ## Pieces -/

/-- A text that is written, and the expression that it stands for. -/
structure GbnfPiece where
  expr : GbnfExpr
  text : List UInt8
  deriving DecidableEq, Repr

namespace GbnfPiece

/-- The text spells the expression, in a group or not. -/
def Spelled (level : Level) (p : GbnfPiece) : Prop := ∀ nested, Spells nested level p.expr p.text

/-- The alternatives that are written, each the list of its items. -/
abbrev Alts := List (List GbnfPiece)

/-- Items, joined by blanks. -/
def ofItems : List GbnfPiece → GbnfPiece
  | [] => ⟨.empty, []⟩
  | item :: items =>
    items.foldl (fun p item => ⟨.seq p.expr item.expr, p.text ++ bytes " " ++ item.text⟩) item

/-- Alternatives, joined by bars. -/
def ofAlts : Alts → GbnfPiece
  | [] => ⟨.empty, []⟩
  | items :: alts =>
    alts.foldl
      (fun p items =>
        ⟨.alt p.expr (ofItems items).expr, p.text ++ bytes " | " ++ (ofItems items).text⟩)
      (ofItems items)

/-- Alternatives in parentheses. -/
def group (alts : Alts) : GbnfPiece :=
  ⟨.group (ofAlts alts).expr, bytes "(" ++ (ofAlts alts).text ++ bytes ")"⟩

/-- Alternatives in parentheses, with blanks inside. -/
def spacedGroup (before after : List UInt8) (alts : Alts) : GbnfPiece :=
  ⟨.group (ofAlts alts).expr, bytes "(" ++ before ++ ((ofAlts alts).text ++ after) ++ bytes ")"⟩

/-- `p?` -/
def optional (p : GbnfPiece) : GbnfPiece := ⟨.repetition p.expr 0 (some 1), p.text ++ bytes "?"⟩

/-- The name of a rule. -/
def refPiece (name : List UInt8) : GbnfPiece := ⟨.ref name, name⟩

/-- A name that the parser reads: not empty, of letters, digits and hyphens. -/
def IsRuleName (name : List UInt8) : Prop := name ≠ [] ∧ ∀ c ∈ name, isWordChar c = true

instance (name : List UInt8) : Decidable (IsRuleName name) := inferInstanceAs (Decidable (_ ∧ _))

variable {items : List GbnfPiece} {p : GbnfPiece}

section

variable (hItems : ∀ p ∈ items, p.Spelled .item)

include hItems

theorem foldl_items_spelled (hStart : ∀ nested sp, Blanks nested sp →
      Spells nested .sequence p.expr (p.text ++ sp)) (nested : Bool) (hSp : Blanks nested sp) :
    let q := items.foldl
      (fun p item => (⟨.seq p.expr item.expr, p.text ++ bytes " " ++ item.text⟩ : GbnfPiece)) p
    Spells nested .sequence q.expr (q.text ++ sp) := by
  induction items generalizing p with
  | nil => exact hStart nested sp hSp
  | cons item items ih =>
    apply ih fun q hq => hItems q (mem_cons_of_mem _ hq)
    intro nested' sp' hSp'
    have hItem := (hItems item mem_cons_self nested').item_blanks hSp'
    rw [append_assoc (p.text ++ bytes " ")]
    apply Spells.seq (hStart nested' _ GbnfGrammar.blanks_space) hItem
    intro c d hc _ hWord
    rw [show bytes " " = [' '.toUInt8] from rfl, getLast?_concat] at hc
    rw [← Option.some.inj hc] at hWord
    exact absurd hWord (by decide)

theorem ofItems_blanks (hNe : items ≠ []) (nested : Bool) (hSp : Blanks nested sp) :
    Spells nested .sequence (ofItems items).expr ((ofItems items).text ++ sp) := by
  cases items with
  | nil => exact absurd rfl hNe
  | cons item items =>
    apply foldl_items_spelled (fun q hq => hItems q (mem_cons_of_mem _ hq)) _ nested hSp
    intro nested' sp' hSp'
    exact .single ((hItems item mem_cons_self nested').item_blanks hSp')

omit hItems in
theorem ofItems_text (item : GbnfPiece) (items : List GbnfPiece) :
    (ofItems (item :: items)).text = item.text ++ items.flatMap fun p => bytes " " ++ p.text := by
  show (items.foldl _ item).text = _
  induction items generalizing item with
  | nil => exact (append_nil _).symm
  | cons next items ih =>
    rw [foldl_cons, ih, flatMap_cons]
    simp only [append_assoc]

omit hItems in
theorem ofAlts_text (items : List GbnfPiece) (alts : Alts) :
    (ofAlts (items :: alts)).text =
      (ofItems items).text ++ alts.flatMap fun items => bytes " | " ++ (ofItems items).text := by
  show (alts.foldl _ (ofItems items)).text = _
  generalize ofItems items = p
  induction alts generalizing p with
  | nil => exact (append_nil _).symm
  | cons next alts ih =>
    rw [foldl_cons, ih, flatMap_cons]
    simp only [append_assoc]

theorem ofItems_text_ne_nil (hNe : items ≠ []) : (ofItems items).text ≠ [] := by
  cases items with
  | nil => exact absurd rfl hNe
  | cons item items =>
    have hFirst : item.text ≠ [] := (hItems item mem_cons_self true).item_ne_nil
    generalize item = p at hFirst
    clear hItems hNe
    induction items generalizing p with
    | nil => exact hFirst
    | cons next items ih =>
      apply ih
      exact append_ne_nil_of_left_ne_nil
        (append_ne_nil_of_left_ne_nil hFirst _) _

end

/-- Alternatives of spelled items. -/
def AltsSpelled (alts : Alts) : Prop :=
  alts ≠ [] ∧ ∀ items ∈ alts, items ≠ [] ∧ ∀ p ∈ items, p.Spelled .item

variable {alts : Alts}

theorem foldl_alts_spelled (hAlts : ∀ items ∈ alts, items ≠ [] ∧ ∀ p ∈ items, p.Spelled .item)
    (hStart : ∀ nested sp, Blanks nested sp → Spells nested .alternates p.expr (p.text ++ sp))
    (nested : Bool) (hSp : Blanks nested sp) :
    let q := alts.foldl
      (fun p items => (⟨.alt p.expr (ofItems items).expr,
        p.text ++ bytes " | " ++ (ofItems items).text⟩ : GbnfPiece)) p
    Spells nested .alternates q.expr (q.text ++ sp) := by
  induction alts generalizing p with
  | nil => exact hStart nested sp hSp
  | cons items alts ih =>
    apply ih fun q hq => hAlts q (mem_cons_of_mem _ hq)
    intro nested' sp' hSp'
    obtain ⟨hNe, hItems⟩ := hAlts items mem_cons_self
    have hNext := ofItems_blanks hItems hNe nested' hSp'
    have hText : (p.text ++ bytes " | " ++ (ofItems items).text) ++ sp' =
        (p.text ++ bytes " ") ++ bytes "|" ++ bytes " " ++ ((ofItems items).text ++ sp') := by
      rw [show bytes " | " = bytes " " ++ bytes "|" ++ bytes " " from rfl]
      simp only [append_assoc]
    rw [hText]
    refine .alt (hStart nested' _ GbnfGrammar.blanks_space) GbnfGrammar.blanks_space hNext
      (Or.inr ?_)
    exact append_ne_nil_of_left_ne_nil (ofItems_text_ne_nil hItems hNe) _

theorem ofAlts_blanks (h : AltsSpelled alts) (nested : Bool)
    (hSp : Blanks nested sp) :
    Spells nested .alternates (ofAlts alts).expr ((ofAlts alts).text ++ sp) := by
  obtain ⟨hNe, hAlts⟩ := h
  cases alts with
  | nil => exact absurd rfl hNe
  | cons items alts =>
    obtain ⟨hNe, hItems⟩ := hAlts items mem_cons_self
    apply foldl_alts_spelled (fun q hq => hAlts q (mem_cons_of_mem _ hq)) _ nested hSp
    intro nested' sp' hSp'
    exact .one (ofItems_blanks hItems hNe nested' hSp')

theorem ofAlts_spelled (h : AltsSpelled alts) : (ofAlts alts).Spelled .alternates := by
  intro nested
  have hText := ofAlts_blanks h nested GbnfGrammar.blanks_nil
  rwa [append_nil] at hText

theorem group_spelled (h : AltsSpelled alts) : (group alts).Spelled .item := by
  intro nested
  have hGroup : Spells nested .item (.group (ofAlts alts).expr)
      (bytes "(" ++ [] ++ (ofAlts alts).text ++ bytes ")" ++ []) :=
    Spells.group GbnfGrammar.blanks_nil (ofAlts_spelled h true) GbnfGrammar.blanks_nil
  rw [append_nil] at hGroup
  exact hGroup

variable {before after : List UInt8}

theorem spacedGroup_spelled (hBefore : Blanks true before)
    (hAfter : Blanks true after) (h : alts = [] ∨ AltsSpelled alts) :
    (spacedGroup before after alts).Spelled .item := by
  intro nested
  rcases h with hNil | hAlts
  · have hGroup : Spells nested .item (.group .empty)
        (bytes "(" ++ (before ++ after) ++ [] ++ bytes ")" ++ []) :=
      .group (blanks_append hBefore hAfter) (.one .empty) GbnfGrammar.blanks_nil
    rw [append_nil, append_nil] at hGroup
    rw [hNil, spacedGroup, ofAlts, nil_append, append_assoc (bytes "(")]
    simpa only [append_assoc] using hGroup
  have hGroup : Spells nested .item (.group (ofAlts alts).expr)
      (bytes "(" ++ before ++ ((ofAlts alts).text ++ after) ++ bytes ")" ++ []) :=
    .group hBefore (ofAlts_blanks hAlts true hAfter) GbnfGrammar.blanks_nil
  rwa [append_nil] at hGroup

theorem optional_spelled (h : p.Spelled .item) : (optional p).Spelled .item :=
  fun nested => .repetition (h nested) (@SpellsBounds.optional nested [] GbnfGrammar.blanks_nil)

theorem refPiece_spelled (h : IsRuleName name) : (refPiece name).Spelled .item := by
  intro nested
  have hRef := @Spells.ref nested _ [] h.1 h.2 GbnfGrammar.blanks_nil
  rwa [append_nil] at hRef

/-! ## The language of what is written -/

section Lang

variable (defs : List UInt8 → Option GbnfExpr)

def itemsLang (items : List GbnfPiece) : Language Nat :=
  (items.map fun p => lang defs p.expr).prod

def altsLang (alts : Alts) : Language Nat := (alts.map (itemsLang defs)).sum

theorem itemsLang_append (items more : List GbnfPiece) :
    itemsLang defs (items ++ more) = itemsLang defs items * itemsLang defs more := by
  rw [itemsLang, map_append, prod_append]
  rfl

theorem lang_ofItems (items : List GbnfPiece) :
    lang defs (ofItems items).expr = itemsLang defs items := by
  cases items with
  | nil => exact lang_empty
  | cons item items =>
    have hFold : ∀ (items : List GbnfPiece) (p : GbnfPiece), lang defs (items.foldl
        (fun p item => (⟨.seq p.expr item.expr, p.text ++ bytes " " ++ item.text⟩ : GbnfPiece))
        p).expr = lang defs p.expr * itemsLang defs items := by
      intro items
      induction items with
      | nil => exact fun p => (mul_one _).symm
      | cons next items ih =>
        intro p
        rw [foldl_cons, ih, lang_seq, mul_assoc]
        rfl
    exact hFold items item

theorem lang_ofAlts (hNe : alts ≠ []) : lang defs (ofAlts alts).expr = altsLang defs alts := by
  cases alts with
  | nil => exact absurd rfl hNe
  | cons items alts =>
    have hFold : ∀ (alts : Alts) (p : GbnfPiece), lang defs (alts.foldl
        (fun p items => (⟨.alt p.expr (ofItems items).expr,
          p.text ++ bytes " | " ++ (ofItems items).text⟩ : GbnfPiece)) p).expr =
        lang defs p.expr + altsLang defs alts := by
      intro alts
      induction alts with
      | nil => exact fun p => (add_zero _).symm
      | cons next alts ih =>
        intro p
        rw [foldl_cons, ih, lang_alt, add_assoc, lang_ofItems]
        rfl
    rw [ofAlts, hFold, lang_ofItems]
    rfl

theorem lang_spacedGroup (hNe : alts ≠ []) :
    lang defs (spacedGroup before after alts).expr = altsLang defs alts := by
  rw [spacedGroup, lang_group, lang_ofAlts defs hNe]

theorem lang_optional (p : GbnfPiece) : lang defs (optional p).expr = 1 + lang defs p.expr := by
  ext w
  rw [optional, mem_lang_repetition, Language.mem_add]
  constructor
  · rintro ⟨k, -, hMax, hPow⟩
    have hLe := hMax 1 rfl
    cases k with
    | zero =>
      exact Or.inl hPow
    | succ k =>
      rw [Nat.le_zero.mp (Nat.succ_le_succ_iff.mp hLe), pow_one] at hPow
      exact Or.inr hPow
  rintro (rfl | hMem)
  · exact ⟨0, le_rfl, fun b _ => Nat.zero_le b, Language.nil_mem_one⟩
  · refine ⟨1, Nat.zero_le 1, fun b hb => Nat.le_of_eq (Option.some.inj hb), ?_⟩
    rwa [pow_one]

theorem lang_group_piece (hNe : alts ≠ []) : lang defs (group alts).expr = altsLang defs alts := by
  rw [group, lang_group, lang_ofAlts defs hNe]

/-! ## Pieces that are spelled, with their languages -/

variable {defs}

/-- An item that is spelled and has the language. -/
structure Writes (defs : List UInt8 → Option GbnfExpr) (p : GbnfPiece) (L : Language Nat) :
    Prop where
  spelled : p.Spelled .item
  lang : GbnfExpr.lang defs p.expr = L

structure ItemsWrite (defs : List UInt8 → Option GbnfExpr) (items : List GbnfPiece)
    (L : Language Nat) : Prop where
  ne : items ≠ []
  spelled : ∀ p ∈ items, p.Spelled .item
  lang : itemsLang defs items = L

structure AltsWrite (defs : List UInt8 → Option GbnfExpr) (alts : Alts) (L : Language Nat) :
    Prop where
  spelled : AltsSpelled alts
  lang : altsLang defs alts = L

variable {L : Language Nat}

theorem Writes.one (h : Writes defs p L) : ItemsWrite defs [p] L := by
  refine ⟨cons_ne_nil _ _, fun q hq => mem_singleton.mp hq ▸ h.spelled, ?_⟩
  rw [← h.lang, itemsLang, map_singleton, prod_singleton]

variable {M : Language Nat}

theorem Writes.cons (h : Writes defs p L) (hItems : ItemsWrite defs items M) :
    ItemsWrite defs (p :: items) (L * M) := by
  refine ⟨cons_ne_nil _ _, fun q hq => ?_, ?_⟩
  · cases mem_cons.mp hq with
    | inl hEq =>
      rw [hEq]
      exact h.spelled
    | inr hMem => exact hItems.spelled q hMem
  · rw [← h.lang, ← hItems.lang, itemsLang, map_cons]
    rfl

theorem Writes.pair {q : GbnfPiece} (hp : Writes defs p L)
    (hq : Writes defs q M) : ItemsWrite defs [p, q] (L * M) := hp.cons hq.one

theorem ItemsWrite.one (h : ItemsWrite defs items L) : AltsWrite defs [items] L := by
  constructor
  · exact ⟨cons_ne_nil _ _, fun is hMem => mem_singleton.mp hMem ▸ ⟨h.ne, h.spelled⟩⟩
  · rw [← h.lang, altsLang, map_singleton, sum_singleton]

variable {more : Alts}

theorem AltsWrite.append (h : AltsWrite defs alts L)
    (hMore : AltsWrite defs more M) : AltsWrite defs (alts ++ more) (L + M) := by
  constructor
  · refine ⟨append_ne_nil_of_left_ne_nil h.spelled.1 _, fun items hItems => ?_⟩
    cases mem_append.mp hItems with
    | inl hLeft => exact h.spelled.2 items hLeft
    | inr hRight => exact hMore.spelled.2 items hRight
  · rw [← h.lang, ← hMore.lang, altsLang, map_append, sum_append]
    rfl

theorem ItemsWrite.cons (h : ItemsWrite defs items L) (hAlts : AltsWrite defs alts M) :
    AltsWrite defs (items :: alts) (L + M) := h.one.append hAlts

theorem AltsWrite.group (h : AltsWrite defs alts L) : Writes defs (group alts) L :=
  ⟨group_spelled h.spelled, (lang_group_piece defs h.spelled.1).trans h.lang⟩

variable {c : Prop}

theorem AltsWrite.ite_append [Decidable c]
    (h : c → AltsWrite defs alts L) (hMore : AltsWrite defs more M) :
    AltsWrite defs ((if c then alts else []) ++ more) ((if c then L else 0) + M) := by
  by_cases hc : c
  · rw [if_pos hc, if_pos hc]
    exact (h hc).append hMore
  · rw [if_neg hc, if_neg hc, zero_add]
    exact hMore

theorem AltsWrite.append_ite [Decidable c]
    (h : AltsWrite defs alts L) (hMore : c → AltsWrite defs more M) :
    AltsWrite defs (alts ++ if c then more else []) (L + if c then M else 0) := by
  by_cases hc : c
  · rw [if_pos hc, if_pos hc]
    exact h.append (hMore hc)
  · rw [if_neg hc, if_neg hc, add_zero, append_nil]
    exact h

end Lang

end GbnfPiece

end Beellama.Ports
