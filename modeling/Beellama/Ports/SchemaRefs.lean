import Beellama.Ports.SchemaObject
import Beellama.Verified.Run

/-!
# References between schemas (`_resolve_ref`)

`resolve_refs`, `_resolve_ref` and the part of `visit` that calls it, of
`src/common/json-schema-to-grammar.cpp`.  The rules of other schemas are generated by bodies that ask
the converter, a machine that works on a stack of such bodies.
-/

namespace Beellama.Ports

open Beellama.Verified List Option

open GrammarParser hiding addRule

namespace SchemaRefs

open SchemaConverter

/-! ## Documents -/

/-- `json`, with the numbers that are integers. -/
inductive Json
  | null
  | bool (value : Bool)
  | number (value : Int)
  | string (value : List Char)
  | array (items : List Json)
  | object (fields : List (List Char × Json))
  deriving Repr

namespace Json

/-- `schema.contains(key)` and `schema[key]` -/
def field (key : List Char) : Json → Option Json
  | .object fields => fields.lookup key
  | _ => none

mutual

/-- `dump` without blanks. -/
def dumpText : Json → List Char
  | .null => "null".toList
  | .bool value => if value then "true".toList else "false".toList
  | .number value => if value < 0 then '-' :: Nat.toDigits 10 value.natAbs else Nat.toDigits 10 value.natAbs
  | .string value => dump value
  | .array items => '[' :: (dumpItems items ++ [']'])
  | .object fields => '{' :: (dumpFields fields ++ ['}'])

def dumpItems : List Json → List Char
  | [] => []
  | item :: items => dumpText item ++ (if items.isEmpty then [] else [',']) ++ dumpItems items

def dumpFields : List (List Char × Json) → List Char
  | [] => []
  | (key, value) :: fields =>
    dump key ++ [':'] ++ dumpText value ++ (if fields.isEmpty then [] else [',']) ++ dumpFields fields

end

/-- `std::isspace` -/
def isSpace (c : Char) : Bool := c = ' ' || (9 ≤ c.toNat && c.toNat ≤ 13)

/-- `std::stoull`: blanks, a sign and digits, whatever follows. -/
def stoull (text : List Char) : Option Nat :=
  let text := text.dropWhile isSpace
  let negative := text.head? = some '-'
  let text := if text.head? = some '-' ∨ text.head? = some '+' then text.tail else text
  let digits := text.takeWhile Char.isDigit
  if digits = [] then none
  else
    let value := digits.foldl (fun n c => n * 10 + (c.toNat - '0'.toNat)) 0
    if 2 ^ 64 ≤ value then none else some (if negative then (2 ^ 64 - value) % 2 ^ 64 else value)

/-- A token of a pointer. -/
def select (target : Json) (sel : List Char) : Option Json :=
  match target with
  | .object fields => fields.lookup sel
  | .array items => (stoull sel).bind fun i => items[i]?
  | _ => none

end Json

/-- `string_split(text, "/")` -/
def splitSlash : List Char → List (List Char)
  | [] => [[]]
  | c :: text =>
    if c = '/' then [] :: splitSlash text
    else
      match splitSlash text with
      | [] => [[c]]
      | part :: parts => (c :: part) :: parts

/-- The definition that a local reference points to. -/
def pointsTo (document : Json) (ref : List Char) : Option Json :=
  (splitSlash (ref.dropWhile (· ≠ '#')).tail).tail.foldlM Json.select document

/-- `_refs`; a later entry hides an earlier one. -/
abbrev Refs := List (List Char × Json)

/-- A reference that is met; `none` where it does not resolve, or not in the document. -/
def addRef (document : Json) (refs : Refs) (ref : List Char) : Option Refs :=
  if (refs.lookup ref).isSome then some refs
  else if ref.take 2 = ['#', '/'] then
    (pointsTo document ref).map fun target => (ref, target) :: refs
  else none

mutual

/-- `visit_refs` -/
def visitRefs (document : Json) : Json → Refs → Option Refs
  | .array items, refs => visitRefsItems document items refs
  | .object fields, refs =>
    match fields.lookup "$ref".toList with
    | some (.string ref) => addRef document refs ref
    | some _ => none
    | none => visitRefsFields document fields refs
  | _, refs => some refs

def visitRefsItems (document : Json) : List Json → Refs → Option Refs
  | [], refs => some refs
  | item :: items, refs => (visitRefs document item refs).bind (visitRefsItems document items)

def visitRefsFields (document : Json) : List (List Char × Json) → Refs → Option Refs
  | [], refs => some refs
  | (_, value) :: fields, refs =>
    (visitRefs document value refs).bind (visitRefsFields document fields)

end

/-- `resolve_refs` of a document of which all references are local. -/
def resolveRefs (document : Json) : Option Refs := visitRefs document document []

/-- Every reference has the definition that it points to. -/
def RefsPoint (document : Json) (refs : Refs) : Prop :=
  ∀ ref target, refs.lookup ref = some target → pointsTo document ref = some target

variable {document : Json} {ref : List Char}

theorem RefsPoint.addRef {refs refs' : Refs} (h : RefsPoint document refs)
    (hAdd : addRef document refs ref = some refs') : RefsPoint document refs' := by
  rw [SchemaRefs.addRef] at hAdd
  split at hAdd
  next => exact some.inj hAdd ▸ h
  next =>
    split at hAdd
    next =>
      obtain ⟨target, hPoints, rfl⟩ := map_eq_some_iff.mp hAdd
      intro other found hFound
      rw [lookup_cons] at hFound
      cases hEq : other == ref with
      | true =>
        rw [hEq] at hFound
        rw [beq_iff_eq.mp hEq, hPoints]
        exact hFound
      | false =>
        rw [hEq] at hFound
        exact h other found hFound
    next => exact absurd hAdd.symm (some_ne_none refs')

mutual

theorem RefsPoint.visitRefs : (n : Json) → {refs refs' : Refs} →
    RefsPoint document refs → visitRefs document n refs = some refs' → RefsPoint document refs'
  | .array items, _, _, h, hVisit => RefsPoint.visitRefsItems items h hVisit
  | .object fields, _, _, h, hVisit => by
      rw [SchemaRefs.visitRefs] at hVisit
      split at hVisit
      next => exact h.addRef hVisit
      next => exact absurd hVisit.symm (Option.some_ne_none _)
      next => exact RefsPoint.visitRefsFields fields h hVisit
  | .null, _, _, h, hVisit | .bool _, _, _, h, hVisit | .number _, _, _, h, hVisit
  | .string _, _, _, h, hVisit => by
      rw [SchemaRefs.visitRefs] at hVisit
      · exact Option.some.inj hVisit ▸ h
      all_goals exact fun _ hEq => Json.noConfusion hEq

theorem RefsPoint.visitRefsItems : (items : List Json) → {refs refs' : Refs} →
    RefsPoint document refs → visitRefsItems document items refs = some refs' →
      RefsPoint document refs'
  | [], _, _, h, hVisit => Option.some.inj hVisit ▸ h
  | item :: items, _, _, h, hVisit => by
      obtain ⟨next, hItem, hRest⟩ := bind_eq_some_iff.mp hVisit
      exact RefsPoint.visitRefsItems items (RefsPoint.visitRefs item h hItem) hRest

theorem RefsPoint.visitRefsFields : (fields : List (List Char × Json)) →
    {refs refs' : Refs} → RefsPoint document refs →
      visitRefsFields document fields refs = some refs' → RefsPoint document refs'
  | [], _, _, h, hVisit => Option.some.inj hVisit ▸ h
  | (_, value) :: fields, _, _, h, hVisit => by
      obtain ⟨next, hValue, hRest⟩ := bind_eq_some_iff.mp hVisit
      exact RefsPoint.visitRefsFields fields (RefsPoint.visitRefs value h hValue) hRest

end

variable {refs : Refs}

theorem resolveRefs_points (h : resolveRefs document = some refs) : RefsPoint document refs :=
  RefsPoint.visitRefs document (fun _ _ hFound => absurd hFound.symm (some_ne_none _)) h

/-! ## Names -/

def reservedNames : List (List UInt8) := bytes "root" :: builtinNames

/-- The name of the rule that `visit` adds. -/
def ruleNameOf (name : List UInt8) : List UInt8 :=
  if name ∈ reservedNames then name ++ bytes "-" else if name = [] then bytes "root" else name

/-- The name that `_resolve_ref` gives to the rule of a definition. -/
def refName (ref : List Char) : List UInt8 :=
  bytes "ref" ++ escName (utf8 (if '#' ∈ ref then (ref.dropWhile (· ≠ '#')).tail else ref))

example : refName "#/definitions/a_b".toList = bytes "ref-definitions-a-b" := by decide +kernel

variable {name : List UInt8}

theorem escNameFrom_of_word (h : ∀ c ∈ name, isWordChar c = true)
    (inRun : Bool) : escNameFrom inRun name = name := by
  induction name generalizing inRun with
  | nil => rfl
  | cons c name ih =>
    rw [escNameFrom, if_pos (h c mem_cons_self),
      ih (fun d hd => h d (mem_cons_of_mem c hd))]

theorem refName_word (ref : List Char) : ∀ c ∈ refName ref, isWordChar c = true := by
  intro c hc
  cases mem_append.mp hc with
  | inl hRef =>
    have hWord : ∀ c ∈ bytes "ref", isWordChar c = true := by decide +kernel
    exact hWord c hRef
  | inr hFragment => exact escNameFrom_word false _ c hFragment

theorem escName_refName (ref : List Char) : escName (refName ref) = refName ref :=
  escNameFrom_of_word (refName_word ref) false

/-- The rule of a definition is asked for under the name of the reference. -/
theorem ruleNameOf_refName (ref : List Char) : ruleNameOf (refName ref) = refName ref := by
  have hStart : (refName ref).take 3 = bytes "ref" := rfl
  have hReserved : ∀ name ∈ reservedNames, name.take 3 ≠ bytes "ref" := by decide +kernel
  rw [ruleNameOf, if_neg fun hMem => hReserved _ hMem hStart, if_neg fun hNil => ?_]
  rw [hNil] at hStart
  exact absurd hStart (by decide)

theorem decimal_ne_nil (n : Nat) : decimal n ≠ [] := by
  rw [decimal, decimalFrom]
  split
  · exact cons_ne_nil _ _
  · exact append_ne_nil_of_right_ne_nil _ (cons_ne_nil _ _)

/-- A rule of a definition gets the name of the reference if that is free, and another one
otherwise. -/
theorem addRule_refName {rules : RuleMap} {text : List UInt8} :
    (addRule rules (refName ref) text).1 = refName ref ↔ Free rules text (refName ref) := by
  rw [addRule]
  simp only [escName_refName]
  split
  next hFree => exact ⟨fun _ => hFree, fun _ => rfl⟩
  next hTaken =>
    refine ⟨fun hEq => ?_, fun hFree => absurd hFree hTaken⟩
    have hNil := append_right_eq_self.mp hEq
    exact absurd hNil (decimal_ne_nil _)

/-! ## The converter as a machine -/

/-- How the text of a rule is generated: what is asked for depends on the names that come back. -/
inductive Body
  | text (rule : List UInt8)
  | addRule (name rule : List UInt8) (next : List UInt8 → Body)
  | addPrimitive (name key : List UInt8) (next : List UInt8 → Body)
  | visit (schema : Json) (name : List UInt8) (next : List UInt8 → Body)
  | error

/-- What `visit` does with a schema that is no reference. -/
inductive Plan
  /-- `return _add_primitive(…)` -/
  | primitive (name key : List UInt8)
  /-- `return _add_rule(rule_name, …)` -/
  | rule (body : Body)

/-- The references of the document, and how the rules of the other schemas are generated. -/
structure Env where
  refs : Refs
  generate : Json → List UInt8 → List UInt8 → Plan

inductive Control
  /-- `visit(schema, name)` is called -/
  | visit (schema : Json) (name : List UInt8)
  /-- the rule of the name is generated -/
  | run (ruleName : List UInt8) (body : Body)
  /-- `_resolve_ref(ref)` is called -/
  | resolve (ref : List Char)
  /-- a call returns the name -/
  | back (name : List UInt8)

/-- The callers, the innermost first. -/
inductive Frame
  | body (ruleName : List UInt8) (next : List UInt8 → Body)
  /-- `_resolve_ref`, which visits the definition of the reference -/
  | definition (ref : List Char) (schema : Json)

/-- The definition that was visited for a reference, with the name that came back and the
text of its rule. -/
structure Generated where
  ref : List Char
  schema : Json
  name : List UInt8
  text : List UInt8

structure Config where
  control : Control
  stack : List Frame
  rules : RuleMap
  /-- `_refs_being_resolved` -/
  beingResolved : List (List Char)
  /-- the names that `_resolve_ref` has returned so far, with their references -/
  resolved : List (List Char × List UInt8)
  /-- the definitions that have been visited so far -/
  generated : List Generated

/-- A step of the converter; `none` at its end, and where an error is recorded. -/
def step (env : Env) (c : Config) : Option Config :=
  match c.control with
  | .visit schema name =>
    match schema.field "$ref".toList with
    | some (.string ref) =>
      some { c with
        control := .resolve ref
        stack := .body (ruleNameOf name) .text :: c.stack }
    | some _ => none
    | none =>
      match env.generate schema name (ruleNameOf name) with
      | .primitive name key => (addBuiltin c.rules name key).map fun added =>
        { c with control := .back added.1, rules := added.2 }
      | .rule body => some { c with control := .run (ruleNameOf name) body }
  | .run ruleName (.text rule) =>
    let added := addRule c.rules ruleName rule
    some { c with control := .back added.1, rules := added.2 }
  | .run ruleName (.addRule name rule next) =>
    let added := addRule c.rules name rule
    some { c with control := .run ruleName (next added.1), rules := added.2 }
  | .run ruleName (.addPrimitive name key next) => (addBuiltin c.rules name key).map fun added =>
    { c with control := .run ruleName (next added.1), rules := added.2 }
  | .run ruleName (.visit schema name next) =>
    some { c with control := .visit schema name, stack := .body ruleName next :: c.stack }
  | .run _ .error => none
  | .resolve ref =>
    if c.rules.lookup (refName ref) = none ∧ ref ∉ c.beingResolved then
      let schema := (env.refs.lookup ref).getD .null
      some { c with
        control := .visit schema (refName ref)
        stack := .definition ref schema :: c.stack
        beingResolved := ref :: c.beingResolved }
    else
      some { c with
        control := .back (refName ref)
        resolved := (ref, refName ref) :: c.resolved }
  | .back name =>
    match c.stack with
    | [] => none
    | .body ruleName next :: stack => some { c with control := .run ruleName (next name), stack }
    | .definition ref schema :: stack =>
      some { c with
        stack
        beingResolved := c.beingResolved.erase ref
        resolved := (ref, name) :: c.resolved
        generated := ⟨ref, schema, name, (c.rules.lookup name).getD []⟩ :: c.generated }

/-- The converter before it visits the document. -/
def start (document : Json) (name : List UInt8) : Config where
  control := .visit document name
  stack := []
  rules := [(bytes "space", bytes "| \" \" | \"\\n\"\x7b1,2\x7d [ \\t]\x7b0,20\x7d")]
  beingResolved := []
  resolved := []
  generated := []

/-! ## References that keep their definitions -/

/-- A definition like that of the reference was visited, and the name came back. -/
def HasRule (refs : Refs) (c : Config) (ref : List Char) (name : List UInt8) : Prop :=
  ∃ g ∈ c.generated, refs.lookup ref = some g.schema ∧ g.name = name

/-- The names of references are bound to the rules of their definitions, as far as these are
complete. -/
def KeepsSoFar (refs : Refs) (c : Config) : Prop :=
  ∀ ref name, (ref, name) ∈ c.resolved →
    HasRule refs c ref name ∨ name = refName ref ∧ ref ∈ c.beingResolved

/-- Every name returned for a reference is bound to the rule of the definition it points to. -/
def KeepsDefinitions (document : Json) (c : Config) : Prop :=
  ∀ ref name, (ref, name) ∈ c.resolved → ∃ g ∈ c.generated,
    g.name = name ∧ pointsTo document ref = some g.schema ∧ c.rules.lookup name = some g.text

/-- A reference that is met has a definition. -/
def Resolves (refs : Refs) (c : Config) : Prop :=
  ∀ ref, c.control = .resolve ref → refs.lookup ref ≠ none

/-- The reference of the innermost frame, when this is `_resolve_ref`. -/
def topRef : List Frame → Option (List Char)
  | .definition ref _ :: _ => some ref
  | _ => none

/-- A reference that finds its name bound finds it bound for its own definition, or meets it
inside of this; and when a definition that refers to itself gets its rule, its name is free. -/
structure NoClash (refs : Refs) (c : Config) : Prop where
  known : ∀ ref, c.control = .resolve ref → c.rules.lookup (refName ref) ≠ none →
    HasRule refs c ref (refName ref) ∨ ref ∈ c.beingResolved
  free : ∀ ref text, topRef c.stack = some ref → c.control = .run (refName ref) (.text text) →
    (ref, refName ref) ∈ c.resolved → Free c.rules text (refName ref)

/-! ## What a step does -/

/-- The steps, one rule for each. -/
inductive Move (env : Env) (c : Config) : Config → Prop
  | reference {schema : Json} {name : List UInt8} {ref : List Char}
      (hControl : c.control = .visit schema name) :
      Move env c { c with
        control := .resolve ref
        stack := .body (ruleNameOf name) .text :: c.stack }
  | primitive {schema : Json} {name : List UInt8} {added : List UInt8 × RuleMap}
      (hControl : c.control = .visit schema name) (hBound : added.2.lookup added.1 ≠ none)
      (hExtends : Extends c.rules added.2) :
      Move env c { c with control := .back added.1, rules := added.2 }
  | generate {schema : Json} {name : List UInt8} (body : Body)
      (hControl : c.control = .visit schema name) :
      Move env c { c with control := .run (ruleNameOf name) body }
  | finish {ruleName rule : List UInt8} (hControl : c.control = .run ruleName (.text rule)) :
      Move env c { c with
        control := .back (addRule c.rules ruleName rule).1
        rules := (addRule c.rules ruleName rule).2 }
  /-- a rule or a primitive rule is added on the way -/
  | add {ruleName : List UInt8} {body body' : Body} {rules : RuleMap}
      (hControl : c.control = .run ruleName body) (hExtends : Extends c.rules rules) :
      Move env c { c with control := .run ruleName body', rules := rules }
  | call {ruleName : List UInt8} {body : Body} {schema : Json} {name : List UInt8}
      {next : List UInt8 → Body} (hControl : c.control = .run ruleName body) :
      Move env c { c with control := .visit schema name, stack := .body ruleName next :: c.stack }
  | define {ref : List Char} (hControl : c.control = .resolve ref)
      (hFree : c.rules.lookup (refName ref) = none) (hNew : ref ∉ c.beingResolved) :
      Move env c { c with
        control := .visit ((env.refs.lookup ref).getD .null) (refName ref)
        stack := .definition ref ((env.refs.lookup ref).getD .null) :: c.stack
        beingResolved := ref :: c.beingResolved }
  | known {ref : List Char} (hControl : c.control = .resolve ref)
      (hKnown : c.rules.lookup (refName ref) ≠ none ∨ ref ∈ c.beingResolved) :
      Move env c { c with
        control := .back (refName ref)
        resolved := (ref, refName ref) :: c.resolved }
  | resume {name ruleName : List UInt8} {next : List UInt8 → Body} {stack : List Frame}
      (hControl : c.control = .back name) (hStack : c.stack = .body ruleName next :: stack) :
      Move env c { c with control := .run ruleName (next name), stack := stack }
  | defined {name : List UInt8} {ref : List Char} {schema : Json} {stack : List Frame}
      (hControl : c.control = .back name) (hStack : c.stack = .definition ref schema :: stack) :
      Move env c { c with
        stack := stack
        beingResolved := c.beingResolved.erase ref
        resolved := (ref, name) :: c.resolved
        generated := ⟨ref, schema, name, (c.rules.lookup name).getD []⟩ :: c.generated }

variable {env : Env} {c' : Config} {c : Config}

theorem Move.of_step (h : step env c = some c') : Move env c c' := by
  unfold step at h
  split at h
  next schema name hControl =>
    split at h
    next => exact some.inj h ▸ .reference hControl
    next => exact absurd h.symm (some_ne_none c')
    next =>
      split at h
      next =>
        obtain ⟨added, hAdded, rfl⟩ := map_eq_some_iff.mp h
        obtain ⟨hBound, hExtends⟩ := addBuiltin_spec hAdded
        exact .primitive hControl hBound hExtends
      next body _ => exact some.inj h ▸ .generate body hControl
  next hControl => exact some.inj h ▸ .finish hControl
  next hControl => exact some.inj h ▸ .add hControl (addRule_spec _ _ _).2
  next hControl =>
    obtain ⟨added, hAdded, rfl⟩ := map_eq_some_iff.mp h
    exact .add hControl (addBuiltin_spec hAdded).2
  next hControl => exact some.inj h ▸ .call hControl
  next => exact absurd h.symm (some_ne_none c')
  next ref hControl =>
    split at h
    next hFree => exact some.inj h ▸ .define hControl hFree.1 hFree.2
    next hKnown =>
      refine some.inj h ▸ .known hControl ?_
      by_cases hBound : c.rules.lookup (refName ref) = none
      · exact Or.inr (not_not.mp fun hNew => hKnown ⟨hBound, hNew⟩)
      · exact Or.inl hBound
  next name hControl =>
    split at h
    next => exact absurd h.symm (some_ne_none c')
    next hStack => exact some.inj h ▸ .resume hControl hStack
    next hStack => exact some.inj h ▸ .defined hControl hStack

/-! ## Invariants -/

/-- The references that are being resolved. -/
def refsOf : List Frame → List (List Char)
  | [] => []
  | .body _ _ :: stack => refsOf stack
  | .definition ref _ :: stack => ref :: refsOf stack

/-- The rule of a definition has the name of its reference; a body calls `_resolve_ref`. -/
def StackSound (refs : Refs) : List Frame → Prop
  | [] => True
  | .body ruleName _ :: stack =>
    (∀ ref, topRef stack = some ref → ruleName = refName ref) ∧ StackSound refs stack
  | .definition ref schema :: stack =>
    refs.lookup ref = some schema ∧ topRef stack = none ∧ StackSound refs stack

/-- What is known about a call that works for a reference. -/
def ControlSound (refs : Refs) (c : Config) : Prop :=
  match c.control with
  | .visit _ name => ∀ ref, topRef c.stack = some ref →
      name = refName ref ∧ ((ref, refName ref) ∈ c.resolved → HasRule refs c ref (refName ref))
  | .run ruleName _ => ∀ ref, topRef c.stack = some ref → ruleName = refName ref
  | .resolve _ => topRef c.stack = none
  | .back name => ∀ ref, topRef c.stack = some ref → c.rules.lookup name ≠ none ∧
      ((ref, refName ref) ∈ c.resolved → HasRule refs c ref (refName ref) ∨ name = refName ref)

structure Sound (refs : Refs) (c : Config) : Prop where
  being : c.beingResolved = refsOf c.stack
  nodup : c.beingResolved.Nodup
  stack : StackSound refs c.stack
  control : ControlSound refs c
  bound : ∀ g ∈ c.generated, c.rules.lookup g.name = some g.text
  keeps : KeepsSoFar refs c

theorem start_sound (refs : Refs) (document : Json) (name : List UInt8) :
    Sound refs (start document name) where
  being := rfl
  nodup := nodup_nil
  stack := trivial
  control := fun _ hTop => absurd hTop.symm (some_ne_none _)
  bound := fun _ hg => absurd hg not_mem_nil
  keeps := fun _ _ hMem => absurd hMem not_mem_nil

theorem eq_some_getD {α : Type} {x : Option α} (h : x ≠ none) (y : α) : x = some (x.getD y) := by
  cases x with
  | none => exact absurd rfl h
  | some a => rfl

/-- When a definition is complete, the names that it returned for itself are those of its rule. -/
theorem Sound.keeps_defined (h : Sound refs c) {schema : Json}
    (hLookup : refs.lookup ref = some schema)
    (hOwn : (ref, refName ref) ∈ c.resolved → HasRule refs c ref (refName ref) ∨ name = refName ref)
    (text : List UInt8) (stack : List Frame) :
    KeepsSoFar refs { c with
      stack := stack
      beingResolved := c.beingResolved.erase ref
      resolved := (ref, name) :: c.resolved
      generated := ⟨ref, schema, name, text⟩ :: c.generated } := by
  have hNew : HasRule refs { c with
      stack := stack
      beingResolved := c.beingResolved.erase ref
      resolved := (ref, name) :: c.resolved
      generated := ⟨ref, schema, name, text⟩ :: c.generated } ref name :=
    ⟨_, mem_cons_self, hLookup, rfl⟩
  have hOld : ∀ {other name'}, HasRule refs c other name' → HasRule refs { c with
      stack := stack
      beingResolved := c.beingResolved.erase ref
      resolved := (ref, name) :: c.resolved
      generated := ⟨ref, schema, name, text⟩ :: c.generated } other name' :=
    fun ⟨g, hg, hRule⟩ => ⟨g, mem_cons_of_mem _ hg, hRule⟩
  intro other name' hMem
  cases mem_cons.mp hMem with
  | inl hEq =>
    obtain ⟨rfl, rfl⟩ := Prod.mk.inj hEq
    exact Or.inl hNew
  | inr hBefore =>
    rcases h.keeps other name' hBefore with hRule | ⟨hName, hBeing⟩
    · exact Or.inl (hOld hRule)
    by_cases hSame : other = ref
    · rw [hName, hSame] at hBefore
      rw [hName, hSame]
      rcases hOwn hBefore with hRule | hName'
      · exact Or.inl (hOld hRule)
      · exact Or.inl (hName' ▸ hNew)
    · exact Or.inr ⟨hName, (mem_erase_of_ne hSame).mpr hBeing⟩

/-- A step without a clash keeps the invariants. -/
theorem Sound.move (h : Sound env.refs c)
    (hResolves : Resolves env.refs c) (hNoClash : NoClash env.refs c) (hMove : Move env c c') :
    Sound env.refs c' := by
  have hCall := h.control
  unfold ControlSound at hCall
  cases hMove with
  | reference hControl =>
    rw [hControl] at hCall
    refine ⟨h.being, h.nodup, ⟨fun ref hTop => ?_, h.stack⟩, rfl, h.bound, h.keeps⟩
    rw [(hCall ref hTop).1, ruleNameOf_refName]
  | primitive hControl hBound hExtends =>
    rw [hControl] at hCall
    refine ⟨h.being, h.nodup, h.stack, fun ref hTop => ?_,
      fun g hg => hExtends _ _ (h.bound g hg), h.keeps⟩
    exact ⟨hBound, fun hUsed => Or.inl ((hCall ref hTop).2 hUsed)⟩
  | generate body hControl =>
    rw [hControl] at hCall
    refine ⟨h.being, h.nodup, h.stack, fun ref hTop => ?_, h.bound, h.keeps⟩
    show ruleNameOf _ = _
    rw [(hCall ref hTop).1, ruleNameOf_refName]
  | @finish ruleName rule hControl =>
    rw [hControl] at hCall
    obtain ⟨hBound, hExtends⟩ := addRule_spec c.rules ruleName rule
    refine ⟨h.being, h.nodup, h.stack, fun ref hTop => ⟨?_, fun hUsed => Or.inr ?_⟩,
      fun g hg => hExtends _ _ (h.bound g hg), h.keeps⟩
    · show lookup _ (addRule c.rules ruleName rule).2 ≠ none
      rw [hBound]
      exact some_ne_none rule
    have hName : ruleName = refName ref := hCall ref hTop
    rw [hName] at hControl ⊢
    exact addRule_refName.mpr (hNoClash.free ref rule hTop hControl hUsed)
  | add hControl hExtends =>
    rw [hControl] at hCall
    exact ⟨h.being, h.nodup, h.stack, hCall, fun g hg => hExtends _ _ (h.bound g hg), h.keeps⟩
  | call hControl =>
    rw [hControl] at hCall
    exact ⟨h.being, h.nodup, ⟨hCall, h.stack⟩, fun _ hTop => absurd hTop.symm (some_ne_none _),
      h.bound, h.keeps⟩
  | @define ref hControl hFree hNew =>
    rw [hControl] at hCall
    refine ⟨congrArg _ h.being, nodup_cons.mpr ⟨hNew, h.nodup⟩,
      ⟨eq_some_getD (hResolves ref hControl) _, hCall, h.stack⟩, fun other hTop => ?_, h.bound,
      fun other name hMem => ?_⟩
    · obtain rfl := some.inj hTop
      exact ⟨rfl, fun hUsed => (h.keeps ref _ hUsed).resolve_right fun hBeing => hNew hBeing.2⟩
    rcases h.keeps other name hMem with hRule | ⟨hName, hBeing⟩
    · exact Or.inl hRule
    · exact Or.inr ⟨hName, mem_cons_of_mem ref hBeing⟩
  | @known ref hControl hKnown =>
    rw [hControl] at hCall
    refine ⟨h.being, h.nodup, h.stack, fun other hTop => ?_, h.bound, fun other name hMem => ?_⟩
    · exact absurd (hTop.symm.trans hCall) (some_ne_none other)
    cases mem_cons.mp hMem with
    | inl hEq =>
      obtain ⟨rfl, rfl⟩ := Prod.mk.inj hEq
      rcases hKnown with hBound | hBeing
      · exact (hNoClash.known other hControl hBound).imp_right fun hBeing => ⟨rfl, hBeing⟩
      · exact Or.inr ⟨rfl, hBeing⟩
    | inr hBefore => exact h.keeps other name hBefore
  | resume hControl hStack =>
    have hFrames := h.stack
    have hBeing := h.being
    rw [hStack] at hFrames hBeing
    exact ⟨hBeing, h.nodup, hFrames.2, hFrames.1, h.bound, h.keeps⟩
  | @defined name ref schema stack hControl hStack =>
    have hFrames := h.stack
    have hBeing := h.being
    rw [hStack] at hFrames hBeing
    rw [hControl, hStack] at hCall
    obtain ⟨hBound, hOwn⟩ := hCall ref rfl
    refine ⟨?_, h.nodup.erase ref, hFrames.2.2, ?_, fun g hg => ?_,
      h.keeps_defined hFrames.1 hOwn _ _⟩
    · show c.beingResolved.erase ref = refsOf stack
      rw [hBeing]
      exact erase_cons_head _ _
    · show ControlSound env.refs { c with
        stack := stack
        beingResolved := c.beingResolved.erase ref
        resolved := (ref, name) :: c.resolved
        generated := ⟨ref, schema, name, (c.rules.lookup name).getD []⟩ :: c.generated }
      unfold ControlSound
      rw [hControl]
      exact fun other hTop => absurd (hTop.symm.trans hFrames.2.1) (some_ne_none other)
    cases mem_cons.mp hg with
    | inl hEq =>
      rw [hEq]
      exact eq_some_getD hBound []
    | inr hOld => exact h.bound g hOld

/-! ## Runs -/

/-- The runs of the converter on a document, with a condition on every step. -/
abbrev ConverterRun (env : Env) (document : Json) (name : List UInt8) (P : Config → Prop) :
    Config → Prop :=
  Run (· = start document name) (fun (_ : Unit) c c' => step env c = some c') fun _ c => P c

theorem ConverterRun.sound {generate : Json → List UInt8 → List UInt8 → Plan}
    (h : ConverterRun ⟨refs, generate⟩ document name (fun c => Resolves refs c ∧ NoClash refs c) c) :
    Sound refs c := by
  refine Run.invariant h (fun c hStart => ?_) fun _ c c' hSound hStep hMove => ?_
  · rw [hStart]
    exact start_sound refs document name
  · exact hSound.move hStep.1 hStep.2 (.of_step hMove)

/-- In a run without a clash every name of a reference is that of the rule of its definition,
or the definition is still being visited; at the end of the run every name is. -/
theorem definitions_kept {document : Json} {refs : Refs} (hRefs : resolveRefs document = some refs)
    {generate : Json → List UInt8 → List UInt8 → Plan} {name : List UInt8} {c : Config}
    (hRun : ConverterRun ⟨refs, generate⟩ document name
      (fun c => Resolves refs c ∧ NoClash refs c) c) :
    KeepsSoFar refs c ∧ (c.stack = [] → KeepsDefinitions document c) := by
  have hSound := ConverterRun.sound hRun
  refine ⟨hSound.keeps, fun hEnd ref name hMem => ?_⟩
  have hNone : ref ∉ c.beingResolved := by
    rw [hSound.being, hEnd]
    exact not_mem_nil
  obtain ⟨g, hg, hLookup, hName⟩ :=
    (hSound.keeps ref name hMem).resolve_right fun hBeing => hNone hBeing.2
  refine ⟨g, hg, hName, resolveRefs_points hRefs _ _ hLookup, ?_⟩
  rw [← hName]
  exact hSound.bound g hg

/-! ## Documents of alternatives and constants -/

/-- `_generate_union_rule`, with the names of the alternatives that have been visited. -/
def unionBody (name : List UInt8) : List Json → Nat → List (List UInt8) → Body
  | [], _, rules => .text ((rules.intersperse (bytes " | ")).flatten)
  | schema :: schemas, i, rules =>
    .visit schema (name ++ (if name = [] then bytes "alternative-" else bytes "-") ++ decimal i)
      fun rule => unionBody name schemas (i + 1) (rules ++ [rule])

/-- `schema.empty()` -/
def Json.isEmpty : Json → Bool
  | .null => true
  | .array items => items.isEmpty
  | .object fields => fields.isEmpty
  | _ => false

/-- The branches of `visit` for alternatives, constants and empty schemas; the others are given. -/
def generate (other : Json → List UInt8 → List UInt8 → Plan) (schema : Json)
    (name ruleName : List UInt8) : Plan :=
  match (schema.field "oneOf".toList).or (schema.field "anyOf".toList) with
  | some (.array schemas) => .rule (unionBody name schemas 0 [])
  | some _ => .rule .error
  | none =>
    match schema.field "type".toList with
    | some (.array _) => other schema name ruleName
    | _ =>
      match schema.field "const".toList with
      | some value => .rule (.text (formatLiteral value.dumpText))
      | none =>
        if schema.isEmpty then .rule (.addPrimitive (bytes "object") (bytes "object") .text)
        else other schema name ruleName

/-- Steps one after the other. -/
def steps (env : Env) : Nat → Config → Option Config
  | 0, c => some c
  | n + 1, c => (step env c).bind (steps env n)

/-- The reference of the call is one of the references of the document. -/
def isResolved (refs : Refs) (c : Config) : Bool :=
  match c.control with
  | .resolve ref => (refs.lookup ref).isSome
  | _ => true

theorem isResolved_resolves (h : isResolved refs c = true) : Resolves refs c := by
  intro ref hControl
  unfold isResolved at h
  rw [hControl] at h
  exact isSome_iff_ne_none.mp h

/-- The name of the reference is not taken. -/
def isClean (c : Config) : Bool :=
  match c.control with
  | .resolve ref => (c.rules.lookup (refName ref)).isNone || decide (ref ∈ c.beingResolved)
  | .run _ (.text text) =>
    match topRef c.stack with
    | some ref => decide (Free c.rules text (refName ref))
    | none => true
  | _ => true

theorem isClean_noClash (h : isClean c = true) : NoClash refs c := by
  unfold isClean at h
  refine ⟨fun ref hControl hBound => ?_, fun ref text hTop hControl _ => ?_⟩
  · rw [hControl] at h
    cases Bool.or_eq_true_iff.mp h with
    | inl hNone => exact absurd (isNone_iff_eq_none.mp hNone) hBound
    | inr hBeing => exact Or.inr (of_decide_eq_true hBeing)
  rw [hControl] at h
  simp only [hTop] at h
  exact of_decide_eq_true h

/-- Steps from configurations that pass the test. -/
def testedSteps (env : Env) (test : Config → Bool) : Nat → Config → Option Config
  | 0, c => some c
  | n + 1, c => if test c then (step env c).bind (testedSteps env test n) else none

theorem ConverterRun.testedSteps {P : Config → Prop} {test : Config → Bool}
    (hTest : ∀ c, test c = true → P c) {n : Nat} (h : ConverterRun env document name P c)
    (hSteps : testedSteps env test n c = some c') : ConverterRun env document name P c' := by
  induction n generalizing c with
  | zero => exact some.inj hSteps ▸ h
  | succ n ih =>
    rw [SchemaRefs.testedSteps] at hSteps
    split at hSteps
    next hPasses =>
      obtain ⟨next, hStep, hRest⟩ := bind_eq_some_iff.mp hSteps
      exact ih (.step () h (hTest c hPasses) hStep) hRest
    next => exact absurd hSteps.symm (some_ne_none c')

def text (s : String) : Json := .string s.toList

def object (fields : List (String × Json)) : Json := .object (fields.map fun f => (f.1.toList, f.2))

/-- A reference to a definition. -/
def refTo (name : String) : Json := object [("$ref", text ("#/definitions/" ++ name))]

/-- A list, whose definition refers to itself. -/
def recursiveList : Json :=
  object [("definitions", object [("list", object [("anyOf",
    .array [object [("const", text "nil")], refTo "list"])])]),
    ("$ref", text "#/definitions/list")]

/-- Other schemas than alternatives and constants do not occur in the documents below. -/
def noOther : Json → List UInt8 → List UInt8 → Plan := fun _ _ _ => .rule .error

def isKept (refs : Refs) (c : Config) : Bool := isResolved refs c && isClean c

theorem isKept_spec (h : isKept refs c = true) : Resolves refs c ∧ NoClash refs c := by
  obtain ⟨hResolved, hClean⟩ := Bool.and_eq_true_iff.mp h
  exact ⟨isResolved_resolves hResolved, isClean_noClash hClean⟩

theorem recursiveList_run : ((resolveRefs recursiveList).bind fun refs =>
    (testedSteps ⟨refs, generate noOther⟩ (isKept refs) 17 (start recursiveList [])).map fun c =>
      ((step ⟨refs, generate noOther⟩ c).isNone, c.resolved.length, c.stack.isEmpty)) =
        some (true, 2, true) := by
  decide +kernel

/-- The list and the reference inside of it have the rule of the definition. -/
theorem recursiveList_kept : ∃ refs c, resolveRefs recursiveList = some refs ∧
    step ⟨refs, generate noOther⟩ c = none ∧ c.resolved.length = 2 ∧
    KeepsDefinitions recursiveList c := by
  obtain ⟨refs, hRefs, hRun⟩ := bind_eq_some_iff.mp recursiveList_run
  obtain ⟨c, hEnd, hLast⟩ := map_eq_some_iff.mp hRun
  simp only [Prod.mk.injEq] at hLast
  obtain ⟨hDone, hLength, hEmpty⟩ := hLast
  exact ⟨refs, c, hRefs, isNone_iff_eq_none.mp hDone, hLength, (definitions_kept hRefs
    (ConverterRun.testedSteps (fun _ => isKept_spec) (.start rfl) hEnd)).2 (isEmpty_iff.mp hEmpty)⟩

/-- A reference of which no visited definition has the text. -/
theorem not_keepsDefinitions (hUsed : (ref, name) ∈ c.resolved)
    (hOther : (c.generated.all fun g =>
      (pointsTo document ref).map Json.dumpText ≠ some g.schema.dumpText) = true) :
    ¬KeepsDefinitions document c := by
  intro hKeeps
  obtain ⟨g, hg, -, hTarget, -⟩ := hKeeps ref name hUsed
  have hText := of_decide_eq_true (all_eq_true.mp hOther g hg)
  rw [hTarget] at hText
  exact hText rfl

/-- A run has ended, all its references resolve, and one of them is bound to a rule although no
visited definition has the text it points to. -/
def bindsOther (document : Json) (env : Env) (ref : List Char) (name : List UInt8) (c : Config) :
    Bool :=
  (step env c).isNone && c.stack.isEmpty && (c.resolved.all fun p => (pointsTo document p.1).isSome) &&
    decide ((ref, name) ∈ c.resolved) &&
    c.generated.all fun g => (pointsTo document ref).map Json.dumpText ≠ some g.schema.dumpText

theorem bindsOther_spec {env : Env} (h : bindsOther document env ref name c = true) :
    step env c = none ∧ c.stack = [] ∧ (∀ p ∈ c.resolved, pointsTo document p.1 ≠ none) ∧
      ¬KeepsDefinitions document c := by
  simp only [bindsOther, Bool.and_eq_true] at h
  obtain ⟨⟨⟨⟨hDone, hEmpty⟩, hAll⟩, hUsed⟩, hOther⟩ := h
  exact ⟨isNone_iff_eq_none.mp hDone, isEmpty_iff.mp hEmpty,
    fun p hp => isSome_iff_ne_none.mp (all_eq_true.mp hAll p hp),
    not_keepsDefinitions (of_decide_eq_true hUsed) hOther⟩

/-- Two definitions whose names differ in a character that no rule name has. -/
def clashing : Json :=
  object [("definitions", object [("a_b", object [("const", text "x")]),
      ("a-b", object [("const", text "y")])]),
    ("anyOf", .array [refTo "a_b", refTo "a-b"])]

theorem clashing_run : ((resolveRefs clashing).bind fun refs =>
    (steps ⟨refs, generate noOther⟩ 17 (start clashing [])).map
      (bindsOther clashing ⟨refs, generate noOther⟩ "#/definitions/a-b".toList
        (bytes "ref-definitions-a-b"))) = some true := by
  decide +kernel

/-- The second reference gets the rule of the first definition. -/
theorem clashing_binds_other :
    ∃ refs c, resolveRefs clashing = some refs ∧
      steps ⟨refs, generate noOther⟩ 17 (start clashing []) = some c ∧
      step ⟨refs, generate noOther⟩ c = none ∧ c.stack = [] ∧
      (∀ p ∈ c.resolved, pointsTo clashing p.1 ≠ none) ∧ ¬KeepsDefinitions clashing c := by
  obtain ⟨refs, hRefs, hRun⟩ := bind_eq_some_iff.mp clashing_run
  obtain ⟨c, hEnd, hBinds⟩ := map_eq_some_iff.mp hRun
  exact ⟨refs, c, hRefs, hEnd, bindsOther_spec hBinds⟩

/-- A definition beside a reference; `resolve_refs` goes no further into such an object. -/
def besideRef : Json :=
  object [("$ref", text "#/definitions/a"),
    ("definitions", object [("a", object [("anyOf",
      .array [object [("const", text "x")], refTo "b"])]), ("b", object [("const", text "y")])])]

theorem besideRef_run : ((resolveRefs besideRef).bind fun refs =>
    (testedSteps ⟨refs, generate noOther⟩ isClean 21 (start besideRef [])).map
      (bindsOther besideRef ⟨refs, generate noOther⟩ "#/definitions/b".toList
        (bytes "ref-definitions-b"))) = some true := by
  decide +kernel

/-- The reference inside of the definition was not entered; it gets the rule of an empty schema,
although no name is taken at any step. -/
theorem besideRef_binds_other :
    ∃ refs c, resolveRefs besideRef = some refs ∧
      ConverterRun ⟨refs, generate noOther⟩ besideRef [] (NoClash refs) c ∧
      step ⟨refs, generate noOther⟩ c = none ∧ c.stack = [] ∧
      (∀ p ∈ c.resolved, pointsTo besideRef p.1 ≠ none) ∧ ¬KeepsDefinitions besideRef c := by
  obtain ⟨refs, hRefs, hRun⟩ := bind_eq_some_iff.mp besideRef_run
  obtain ⟨c, hEnd, hBinds⟩ := map_eq_some_iff.mp hRun
  exact ⟨refs, c, hRefs,
    ConverterRun.testedSteps (fun _ => isClean_noClash) (.start rfl) hEnd, bindsOther_spec hBinds⟩

end SchemaRefs

end Beellama.Ports
