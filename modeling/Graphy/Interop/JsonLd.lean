import Graphy.Core.Iri

/-!
# Contexts of JSON-LD

A context gives IRIs to terms.  The definitions of a context object are taken in over the
inherited ones; then every definition, inherited or not, is expanded once against a snapshot
of them all.
-/

namespace Graphy.JsonLd

abbrev Text := List Char

/-- A tree of `serde_json`; the fields of an object are in the order of its iteration. -/
inductive Value where
  | null
  | bool (b : Bool)
  | number (lexical : Text)
  | string (s : Text)
  | array (items : List Value)
  | object (fields : List (Text × Value))

structure ParseError where
  message : String
deriving DecidableEq, Repr

def Value.asStr : Value → Option Text
  | .string s => some s
  | _ => none

def get (fields : List (Text × Value)) (key : String) : Option Value :=
  fields.lookup key.toList

structure TermDefinition where
  iri : Text
  /-- `@type` coercion: an IRI, or the keyword `@id`. -/
  typeCoercion : Option Text
  /-- `@container: @list`. -/
  listContainer : Bool
  language : Option Text
deriving DecidableEq, Repr

structure Context where
  terms : Text → Option TermDefinition
  vocab : Option Text
  base : Option Text
  language : Option Text

/-- No definitions. -/
def Context.default : Context := ⟨fun _ => none, none, none, none⟩

def Context.insert (context : Context) (term : Text) (definition : TermDefinition) : Context :=
  { context with terms := Function.update context.terms term (some definition) }

/-! ## Merging -/

section Merge

variable (toLowercase : Text → Text)

/-- The definition of a term by an object. -/
def bodyDefinition (term : Text) (body : List (Text × Value)) :
    Except ParseError TermDefinition := do
  let container := (get body "@container").bind Value.asStr
  match container with
  | some container =>
      if container ≠ "@list".toList ∧ container ≠ "@set".toList then
        throw ⟨"@container " ++ String.ofList container ++ " is not supported"⟩
  | none => pure ()
  if (get body "@reverse").isSome then throw ⟨"@reverse is not supported"⟩
  return {
    iri := ((get body "@id").bind Value.asStr).getD term
    typeCoercion := (get body "@type").bind Value.asStr
    listContainer := container = some "@list".toList
    language := ((get body "@language").bind Value.asStr).map toLowercase }

/-- The definition of a term; null gives none. -/
def termDefinition (term : Text) (definition : Value) :
    Except ParseError (Option TermDefinition) :=
  match definition with
  | .string iri => .ok (some ⟨iri, none, false, none⟩)
  | .object body => do
      let definition ← bodyDefinition toLowercase term body
      return some definition
  | .null => .ok none
  | _ => .error ⟨"bad definition for term `" ++ String.ofList term ++ "`"⟩

/-- Keys of a context object that define no term. -/
def keywords : List Text := ["@vocab".toList, "@base".toList, "@language".toList, "@version".toList]

/-- One entry of a context object. -/
def addEntry (context : Context) (entry : Text × Value) : Except ParseError Context :=
  if entry.1 = "@vocab".toList then .ok { context with vocab := entry.2.asStr }
  else if entry.1 = "@base".toList then .ok { context with base := entry.2.asStr }
  else if entry.1 = "@language".toList then
    .ok { context with language := entry.2.asStr.map toLowercase }
  else if entry.1 = "@version".toList then .ok context
  else do
    match ← termDefinition toLowercase entry.1 entry.2 with
    | some definition => return context.insert entry.1 definition
    | none => return context

/-- The entries of a context object over the inherited definitions. -/
def collect (base : Context) (map : List (Text × Value)) : Except ParseError Context :=
  map.foldlM (addEntry toLowercase) base

/-- A value that is a term, a colon and something else than two slashes. -/
def expandPrefixed (context : Context) (value : Text) : Option Text :=
  match splitOnce ':' value with
  | none => none
  | some (name, suffix) =>
      if "//".toList.isPrefixOf suffix then none
      else (context.terms name).map fun definition => definition.iri ++ suffix

/-- Term IRIs may themselves be prefixed: every one is expanded against a snapshot. -/
def secondPass (snapshot : Context) : Context :=
  { snapshot with
    terms := fun term => (snapshot.terms term).map fun definition =>
      { definition with iri := (expandPrefixed snapshot definition.iri).getD definition.iri } }

mutual

def mergeContext (base : Context) : Value → Except ParseError Context
  | .array parts => do
      let context ← mergeParts base parts
      return secondPass context
  | .null => .ok (secondPass Context.default)
  | .string _ => .error ⟨"remote @context documents are not supported"⟩
  | .object map => do
      let context ← collect toLowercase base map
      return secondPass context
  | .bool _ | .number _ => .error ⟨"@context must be an object, array or null"⟩

/-- Contexts merged one into the other: the parts of an array, or those of nested nodes. -/
def mergeParts (context : Context) : List Value → Except ParseError Context
  | [] => .ok context
  | part :: parts => do
      let context ← mergeContext context part
      mergeParts context parts

end

end Merge

/-! ## Using a context -/

def isAbsoluteIri (value : Text) : Bool :=
  match splitOnce ':' value with
  | some (scheme, _) =>
      !scheme.isEmpty
        && scheme.all (fun ch => isAsciiAlphanumeric ch || ['+', '-', '.'].contains ch)
        && scheme.head?.any isAsciiAlphabetic
  | none => false

/-- The debug text of an error of IRI resolution. -/
def debugText : TermError → String
  | .invalidIri iri pos reason =>
      s!"InvalidIri \x7b iri: {iri.quote}, pos: {pos}, reason: {reason.quote} \x7d"
  | .relativeBase base => s!"RelativeBase \x7b base: {base.quote} \x7d"
  -- Resolution has no other errors.
  | e => e.message

/-- Expands a key or a `@type` value to an IRI. -/
def expandIri (context : Context) (value : Text) (vocabPosition : Bool) :
    Except ParseError (Option Text) :=
  if value.head? = some '@' then .ok none
  else
    match context.terms value with
    | some definition => .ok (some definition.iri)
    | none =>
      match expandPrefixed context value with
      | some expanded => .ok (some expanded)
      | none =>
        if isAbsoluteIri value then .ok (some value)
        else if vocabPosition then .ok (context.vocab.map (· ++ value))
        else
          match context.base with
          | some base =>
              match Iri.resolve (String.ofList base) (String.ofList value) with
              | .ok iri => .ok (some iri.toList)
              | .error e => .error ⟨"bad IRI: " ++ debugText e⟩
          | none =>
              if value = [] then .error ⟨"relative @id with no base"⟩ else .ok (some value)

/-! ## What a context means -/

/-- The value is a term, a colon and a suffix that does not start with two slashes. -/
def Prefixed (definitions : Context) (value name suffix : Text) (definition : TermDefinition) :
    Prop :=
  splitOnce ':' value = some (name, suffix) ∧ "//".toList.isPrefixOf suffix = false ∧
    definitions.terms name = some definition

/-- The value is read past the terms: no keyword, and no term but an own one that stands for
itself. -/
def Plain (definitions : Context) (own : Text → Prop) (value : Text) : Prop :=
  value.head? ≠ some '@' ∧
    ∀ definition, definitions.terms value = some definition → own value ∧ definition.iri = value

/-- What is neither a keyword, a term nor prefixed, below the vocabulary unless it is absolute. -/
def vocabIri (definitions : Context) (value : Text) : Text :=
  if isAbsoluteIri value then value else (definitions.vocab.map (· ++ value)).getD value

/-- The full expansion of a value under definitions of which some are a context object's own and
the others, expanded already, are inherited: `expandIri` in the position of a key, with every
definition on the way expanded in its turn. -/
inductive Expands (definitions : Context) (own : Text → Prop) : Text → Text → Prop where
  | keyword {value} (keyword : value.head? = some '@') : Expands definitions own value value
  | inheritedTerm {value definition} (word : value.head? ≠ some '@')
      (defined : definitions.terms value = some definition) (old : ¬ own value) :
      Expands definitions own value definition.iri
  | term {value definition expanded} (word : value.head? ≠ some '@')
      (defined : definitions.terms value = some definition) (new : own value)
      (other : definition.iri ≠ value) (further : Expands definitions own definition.iri expanded) :
      Expands definitions own value expanded
  | inherited {value name suffix definition} (plain : Plain definitions own value)
      (prefixed : Prefixed definitions value name suffix definition) (old : ¬ own name) :
      Expands definitions own value (definition.iri ++ suffix)
  | through {value name suffix definition expanded} (plain : Plain definitions own value)
      (prefixed : Prefixed definitions value name suffix definition) (new : own name)
      (further : Expands definitions own definition.iri expanded) :
      Expands definitions own value (expanded ++ suffix)
  | whole {value} (plain : Plain definitions own value)
      (none : expandPrefixed definitions value = none) :
      Expands definitions own value (vocabIri definitions value)

/-- The terms an object defines. -/
def Defines (map : List (Text × Value)) (term : Text) : Prop :=
  term ∉ keywords ∧ ∃ definition, (term, definition) ∈ map ∧ definition ≠ .null

/-- The definition of the term goes through the other one: it is its name, or has it before the
colon. -/
def GoesThrough (definitions : Context) (own : Text → Prop) (term name : Text) : Prop :=
  own term ∧ own name ∧ ∃ d, definitions.terms term = some d ∧
    ((name = d.iri ∧ name ≠ term ∧ (definitions.terms name).isSome) ∨
      ∃ suffix definition, Prefixed definitions d.iri name suffix definition)

/-- No term is defined through itself: every term ranks above those it goes through. -/
def Acyclic (definitions : Context) (own : Text → Prop) : Prop :=
  ∃ rank : Text → Nat, ∀ term name, GoesThrough definitions own term name → rank name < rank term

/-- Own terms have their full expansions; inherited terms are as they were. -/
structure Complete (base definitions : Context) (own : Text → Prop) (merged : Context) : Prop where
  expanded : ∀ term d, own term → definitions.terms term = some d →
    ∃ iri, merged.terms term = some { d with iri := iri } ∧ Expands definitions own d.iri iri
  kept : ∀ term, ¬ own term → merged.terms term = base.terms term
  rest : { merged with terms := definitions.terms } = definitions

/-- The full expansion of a term. -/
def FullIri (definitions : Context) (own : Text → Prop) (term full : Text) : Prop :=
  ∃ d, definitions.terms term = some d ∧
    (own term ∧ Expands definitions own d.iri full ∨ ¬ own term ∧ full = d.iri)

/-- One pass is enough.  An own definition that is not prefixed is its own full expansion, so it is
not the name of another term, and absolute below a vocabulary; one that is prefixed goes through a
definition that is its own full expansion (and is no keyword or term itself, or happens to mean the
same); and nothing that is expanded already starts with a term and a colon.  A term that stands for
itself and the colon does no harm. -/
structure Settled (definitions : Context) (own : Text → Prop) : Prop where
  whole : ∀ term d, own term → definitions.terms term = some d →
    expandPrefixed definitions d.iri = none → Expands definitions own d.iri d.iri
  direct : ∀ term d name suffix definition, own term → own name →
    definitions.terms term = some d → Plain definitions own d.iri →
      Prefixed definitions d.iri name suffix definition →
        Expands definitions own definition.iri definition.iri
  shadowed : ∀ term d name suffix definition, own term → definitions.terms term = some d →
    ¬ Plain definitions own d.iri → Prefixed definitions d.iri name suffix definition →
      Expands definitions own d.iri (definition.iri ++ suffix)
  kept : ∀ term d name suffix definition, ¬ own term → definitions.terms term = some d →
    Prefixed definitions d.iri name suffix definition → definition.iri = name ++ [':']
  final : ∀ term full name suffix full', FullIri definitions own term full →
    FullIri definitions own name full' → splitOnce ':' full = some (name, suffix) →
      "//".toList.isPrefixOf suffix = false → full' = name ++ [':']

section Meaning

variable (toLowercase : Text → Text)

/-- The order of the keys does not matter. -/
def OrderFree (base : Context) (map : List (Text × Value)) : Prop :=
  (map.map Prod.fst).Nodup → ∀ map' : List (Text × Value), map'.Perm map →
    (mergeContext toLowercase base (.object map')).toOption
      = (mergeContext toLowercase base (.object map)).toOption

/-- An empty context object changes nothing. -/
def Stable (context : Context) : Prop :=
  mergeContext toLowercase context (.object []) = .ok context

/-- Merging the object does what it should. -/
def Meets (base : Context) (map : List (Text × Value)) : Prop :=
  OrderFree toLowercase base map ∧
    ∀ definitions merged, collect toLowercase base map = .ok definitions →
      mergeContext toLowercase base (.object map) = .ok merged →
        Complete base definitions (Defines map) merged ∧ Stable toLowercase merged

/-- One pass is enough for the object. -/
def OnePass (base : Context) (map : List (Text × Value)) : Prop :=
  ∀ definitions, collect toLowercase base map = .ok definitions →
    Settled definitions (Defines map)

mutual

/-- The property holds of every object and the context it is merged into. -/
def Throughout (P : Context → List (Text × Value) → Prop) (context : Context) : Value → Prop
  | .object map => P context map
  | .array parts => ThroughoutParts P context parts
  | _ => True

def ThroughoutParts (P : Context → List (Text × Value) → Prop) (context : Context) :
    List Value → Prop
  | [] => True
  | part :: parts =>
      Throughout P context part ∧
        ∀ merged, mergeContext toLowercase context part = .ok merged →
          ThroughoutParts P merged parts

end

mutual

/-- What a context value makes of the context it stands in. -/
inductive Resolves : Context → Value → Context → Prop where
  | null {base} : Resolves base .null Context.default
  | object {base map definitions merged}
      (collected : collect toLowercase base map = .ok definitions)
      (complete : Complete base definitions (Defines map) merged) :
      Resolves base (.object map) merged
  | array {base parts merged} (all : ResolvesParts base parts merged) :
      Resolves base (.array parts) merged

inductive ResolvesParts : Context → List Value → Context → Prop where
  | nil {context} : ResolvesParts context [] context
  | cons {context part parts merged final} (first : Resolves context part merged)
      (others : ResolvesParts merged parts final) : ResolvesParts context (part :: parts) final

end

end Meaning

end Graphy.JsonLd
