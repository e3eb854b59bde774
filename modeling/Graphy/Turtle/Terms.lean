import Graphy.Core.Concise

/-!
# Term assembly

The parser builds the terms of the statement in flight in one arena of concise
bytes and refers to them by 32-bit ranges.  References resolve against the base,
surface blank-node labels map to internal ordinals.
-/

namespace Graphy.Turtle

namespace Vocab

def xsdBoolean : String := "http://www.w3.org/2001/XMLSchema#boolean"
def xsdInteger : String := "http://www.w3.org/2001/XMLSchema#integer"
def xsdDecimal : String := "http://www.w3.org/2001/XMLSchema#decimal"
def xsdDouble : String := "http://www.w3.org/2001/XMLSchema#double"
def rdfType : String := "http://www.w3.org/1999/02/22-rdf-syntax-ns#type"
def rdfReifies : String := "http://www.w3.org/1999/02/22-rdf-syntax-ns#reifies"
def rdfFirst : String := "http://www.w3.org/1999/02/22-rdf-syntax-ns#first"
def rdfRest : String := "http://www.w3.org/1999/02/22-rdf-syntax-ns#rest"
def rdfNil : String := "http://www.w3.org/1999/02/22-rdf-syntax-ns#nil"

end Vocab

/-! ## Arena -/

/-- A range of the arena: its ends are 32-bit. -/
structure H where
  start : Nat
  stop : Nat
deriving DecidableEq, Repr

/-- Concise bytes of the terms built so far. -/
structure Arena where
  bytes : Bytes
deriving DecidableEq, Repr

namespace Arena

def empty : Arena := ⟨[]⟩

def mark (a : Arena) : Nat := a.bytes.length

/-- Handle for the bytes appended since the mark. -/
def handleFrom (a : Arena) (mark : Nat) : H := ⟨mark % 2 ^ 32, a.bytes.length % 2 ^ 32⟩

/-- The bytes of a handle; nothing when the range is out of bounds. -/
def get (a : Arena) (h : H) : Option Bytes :=
  if h.start ≤ h.stop ∧ h.stop ≤ a.bytes.length then
    some ((a.bytes.drop h.start).take (h.stop - h.start))
  else none

def append (a : Arena) (bytes : Bytes) : Arena := ⟨a.bytes ++ bytes⟩

end Arena

/-! ## References -/

/-- Whether the reference begins with a well-formed scheme. -/
def schemeShaped (s : List Char) : Bool := (Iri.splitScheme s).1.isSome

/-- Fast check for references the lexer has accepted; `false` means to take the
complete one. -/
def fastAbsoluteLexed (s : List Char) : Bool :=
  if !schemeShaped s then false
  else if s.any (fun c => decide (0x80 ≤ c.toNat) || c == '%' || c == '\x7f' || c == '[' || c == ']')
  then false
  else if 1 < s.count '#' then false
  else
    match (Iri.splitScheme s).2 with
    | '/' :: '/' :: after =>
        let authority := after.takeWhile fun c => !(['/', '?', '#'].contains c)
        if authority.contains '@' then false
        else
          match rsplitOnce ':' authority with
          | some (_, port) => port.all isAsciiDigit
          | none => true
    | _ => true

/-- Statement-independent parser context. -/
structure TermCtx where
  base : Option String
  prefixes : List (String × String)
  /-- Surface blank-node labels and their internal ordinals. -/
  labels : List (String × Nat)
  nextLabel : Nat
  trusted : Bool
  labelNs : Option Nat
deriving DecidableEq, Repr

namespace TermCtx

/-- Replace the base; a relative new base resolves against the old one. -/
def setBase (ctx : TermCtx) (new : String) : Except String TermCtx :=
  let resolved :=
    match ctx.base with
    | some cur => Iri.resolve cur new
    | none => (Iri.validateIri new).map fun _ => new
  match resolved with
  | .ok base => .ok { ctx with base := some base }
  | .error e => .error e.message

def new (base : Option String) (trusted : Bool) (labelNs : Option Nat) : Except String TermCtx :=
  let ctx : TermCtx := ⟨none, [], [], 0, trusted, labelNs⟩
  match base with
  | some b => ctx.setBase b
  | none => .ok ctx

def setPrefix (ctx : TermCtx) (name iri : String) : TermCtx :=
  { ctx with prefixes := (name, iri) :: ctx.prefixes }

def expandPrefix (ctx : TermCtx) (name : String) : Option String := ctx.prefixes.lookup name

/-- Absolutize a reference. -/
def resolveIri (ctx : TermCtx) (text : String) : Except String String :=
  let against (base : String) := (Iri.resolve base text).mapError TermError.message
  if ctx.trusted then
    if schemeShaped text.toList then .ok text
    else
      match ctx.base with
      | some base => against base
      | none => .ok text
  else if fastAbsoluteLexed text.toList then .ok text
  else
    match Iri.validateIri text with
    | .ok () => .ok text
    | .error _ =>
        match ctx.base with
        | some base => against base
        | none =>
            match Iri.validateReference text with
            | .error e => .error e.message
            | .ok () => .error s!"relative IRI {text.quote} without a base"

/-- Map a surface label to its internal ordinal. -/
def internalLabel (ctx : TermCtx) (surface : String) : Nat × TermCtx :=
  match ctx.labels.lookup surface with
  | some n => (n, ctx)
  | none =>
      (ctx.nextLabel, { ctx with
        labels := (surface, ctx.nextLabel) :: ctx.labels
        nextLabel := ctx.nextLabel + 1 })

/-- Fresh ordinal for a node that syntax mints. -/
def freshLabel (ctx : TermCtx) : Nat × TermCtx :=
  (ctx.nextLabel, { ctx with nextLabel := ctx.nextLabel + 1 })

end TermCtx

/-! ## Concise bytes -/

/-- The label of an ordinal: the namespace, the kind and the number. -/
def blankOrdinal (ns : Option Nat) (kind : String) (n : Nat) : Bytes :=
  Concise.encodeBlank ((ns.elim "" fun ns => s!"f{ns}") ++ kind ++ toString n)

/-- A language literal; the tag is lowercased. -/
def langBytes (lexical tag : String) (dir : Option Dir) : Bytes :=
  Concise.encodeLang lexical tag.toLower dir

/-- A datatyped literal; `xsd:string` is the simple form, and the language datatypes need
a tag. -/
def typedBytes (lexical dt : String) : Except String Bytes :=
  if dt = Graphy.Vocab.xsdString then .ok (Concise.encodeSimple lexical)
  else if dt = Graphy.Vocab.rdfLangString ∨ dt = Graphy.Vocab.rdfDirLangString then
    .error s!"literal with datatype {dt} requires a language tag"
  else .ok (Concise.encodeDatatype lexical dt)

end Graphy.Turtle
