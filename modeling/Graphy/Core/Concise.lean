import Graphy.Core.Iri

/-!
# The concise term encoding

Each term is one byte string: a type sigil, then content without escaping.  A
triple term is its sigil and three components, each a varint length and the
concise bytes.  `decode` is the trust boundary: it accepts valid UTF-8 with
structurally valid components only.
-/

namespace Graphy

/-- Base direction of a directional language-tagged string. -/
inductive Dir where
  | ltr
  | rtl
deriving DecidableEq, Repr

/-- A decoded term; a triple term stays its payload and decodes its components when
asked for them. -/
inductive TermRef where
  | iri (iri : String)
  | blankNode (label : String)
  | simple (lexical : String)
  | lang (lexical tag : String) (dir : Option Dir)
  | datatyped (lexical datatype : String)
  | tripleTerm (payload : Bytes)
deriving DecidableEq, Repr

/-- Debug form of a base direction. -/
def Dir.debug : Option Dir → String
  | none => "None"
  | some .ltr => "Some(Ltr)"
  | some .rtl => "Some(Rtl)"

/-- Debug form of a literal of the given kind. -/
def debugLiteral (lexical kind : String) : String :=
  "Literal(LiteralParts \x7b lexical: " ++ lexical.quote ++ ", kind: " ++ kind ++ " \x7d)"

/-- Debug form of a term, as error texts show it. -/
def TermRef.debug : TermRef → String
  | .iri text => s!"Iri({text.quote})"
  | .blankNode label => s!"BlankNode({label.quote})"
  | .simple lexical => debugLiteral lexical "Simple"
  | .lang lexical tag dir =>
      debugLiteral lexical ("Lang \x7b tag: " ++ tag.quote ++ ", dir: " ++ Dir.debug dir ++ " \x7d")
  | .datatyped lexical datatype =>
      debugLiteral lexical ("Datatyped \x7b datatype: " ++ datatype.quote ++ " \x7d")
  | .tripleTerm payload => "TripleTerm(TripleTermRef \x7b payload: " ++ toString payload ++ " \x7d)"

namespace Vocab

def xsdString : String := "http://www.w3.org/2001/XMLSchema#string"
def rdfLangString : String := "http://www.w3.org/1999/02/22-rdf-syntax-ns#langString"
def rdfDirLangString : String := "http://www.w3.org/1999/02/22-rdf-syntax-ns#dirLangString"

end Vocab

/-- Bytes of a string. -/
def strBytes (s : String) : Bytes := s.toByteArray.data.toList

/-- The string of some bytes, when they are UTF-8. -/
def utf8 (bytes : Bytes) : Except TermError String :=
  match String.fromUTF8? ⟨bytes.toArray⟩ with
  | some s => .ok s
  | none => .error .invalidUtf8

/-! ## Varints -/

namespace Varint

/-- Seven bits a byte, low ones first, the top bit set on all but the last. -/
def write (v : Nat) : Bytes :=
  if v / 128 = 0 then [UInt8.ofNat (v % 128)]
  else UInt8.ofNat (v % 128 + 128) :: write (v / 128)
termination_by v
decreasing_by omega

/-- The loop of `read` at byte `i` with the value `v` so far.  Only a tenth byte can
pass 64 bits, and that one is refused. -/
def readFrom (v i : Nat) : Bytes → Option (Nat × Nat)
  | [] => none
  | b :: rest =>
      if 10 ≤ i then none
      else
        let v := v + b.toNat % 128 * 2 ^ (7 * i)
        if b.toNat < 128 then if i = 9 ∧ 1 < b.toNat then none else some (v, i + 1)
        else readFrom v (i + 1) rest

/-- Value and bytes consumed, or nothing on truncation or overflow. -/
def read (bytes : Bytes) : Option (Nat × Nat) := readFrom 0 0 bytes

end Varint

namespace Concise

/-- Maximum triple-term nesting depth. -/
def maxTripleTermDepth : Nat := 32

/-! ## Encoding -/

def encodeIri (iri : String) : Bytes := 0x3E :: strBytes iri

def encodeBlank (label : String) : Bytes := 0x5F :: strBytes label

def encodeSimple (lexical : String) : Bytes := 0x22 :: strBytes lexical

def dirSuffix : Dir → String
  | .ltr => "--ltr"
  | .rtl => "--rtl"

def encodeLang (lexical tag : String) (dir : Option Dir) : Bytes :=
  0x40 :: strBytes tag ++ (match dir with
    | none => []
    | some d => strBytes (dirSuffix d)) ++ 0x22 :: strBytes lexical

def encodeDatatype (lexical datatype : String) : Bytes :=
  0x5E :: 0x3E :: strBytes datatype ++ 0x22 :: strBytes lexical

/-- A triple term of encoded components. -/
def encodeTripleTerm (s p o : Bytes) : Bytes :=
  0x09 :: (Varint.write s.length ++ s ++ (Varint.write p.length ++ p) ++
    (Varint.write o.length ++ o))

/-! ## Validation -/

/-- `alpha{1,8} ("-" alphanum{1,8})*` -/
def validateLangTagShape (tag : String) : Except TermError Unit :=
  match splitAll '-' tag.toList with
  | [] => .error (.invalidLangTag tag)
  | primary :: subtags =>
      if primary.isEmpty || decide (8 < utf8Len primary) || !primary.all isAsciiAlphabetic then
        .error (.invalidLangTag tag)
      else if subtags.any fun sub =>
          sub.isEmpty || decide (8 < utf8Len sub) || !sub.all isAsciiAlphanumeric then
        .error (.invalidLangTag tag)
      else .ok ()

/-- Stored tags are already lowercase. -/
def validateLangTagNormalized (tag : String) : Except TermError Unit := do
  validateLangTagShape tag
  if tag.toList.any isAsciiUppercase then throw (.invalidLangTag tag)

/-- Blank-node labels follow the grammar of the text formats. -/
def validateBlankLabel (label : String) : Except TermError Unit :=
  match label.toList with
  | [] => .error (.invalidBlankNodeLabel label)
  | first :: chars =>
      if !(isPnCharsU first || isAsciiDigit first) then .error (.invalidBlankNodeLabel label)
      else if chars.any fun c => !(isPnChars c || c == '.') then
        .error (.invalidBlankNodeLabel label)
      else if (first :: chars).getLast? = some '.' then .error (.invalidBlankNodeLabel label)
      else .ok ()

/-! ## Decoding -/

/-- Split at the quote that opens the lexical form. -/
def splitQuote (missing : String) (rest : Bytes) : Except TermError (Bytes × Bytes) :=
  match rest.idxOf? 0x22 with
  | none => .error (.invalidConcise missing)
  | some quote => .ok (rest.take quote, rest.drop (quote + 1))

/-- Byte index of the last `--`. -/
def rfindDashes (head : Bytes) : Option Nat :=
  (List.range head.length).reverse.find? fun i =>
    head[i]? == some 0x2D && head[i + 1]? == some 0x2D

/-- The tag and the direction of the head of a language literal. -/
def splitDirection (head : Bytes) : Except TermError (Bytes × Option Dir) :=
  match rfindDashes head with
  | none => .ok (head, none)
  | some i =>
      if head.drop (i + 2) = strBytes "ltr" then .ok (head.take i, some .ltr)
      else if head.drop (i + 2) = strBytes "rtl" then .ok (head.take i, some .rtl)
      else .error (.invalidConcise "bad base direction")

def decodeLang (rest : Bytes) : Except TermError TermRef := do
  let (head, lex) ← splitQuote "language literal missing '\"'" rest
  let _ ← utf8 head
  let (tag, dir) ← splitDirection head
  let tag ← utf8 tag
  validateLangTagNormalized tag
  let lex ← utf8 lex
  return .lang lex tag dir

def decodeDatatype (rest : Bytes) : Except TermError TermRef :=
  match rest with
  | [] => .error (.invalidConcise "datatyped literal missing '>'")
  | mark :: rest =>
      if mark ≠ 0x3E then .error (.invalidConcise "datatyped literal missing '>'")
      else do
        let (dt, lex) ← splitQuote "datatyped literal missing '\"'" rest
        let dt ← utf8 dt
        Iri.validateIri dt
        if dt = Vocab.xsdString ∨ dt = Vocab.rdfLangString ∨ dt = Vocab.rdfDirLangString then
          throw (.invalidConcise "datatype with a dedicated concise form")
        let lex ← utf8 lex
        return .datatyped lex dt

/-- Subjects are IRIs or blank nodes, predicates IRIs. -/
def checkPosition (pos : Nat) (t : TermRef) : Except TermError Unit :=
  match pos, t with
  | 0, .iri _ | 0, .blankNode _ => .ok ()
  | 0, _ => .error (.invalidPosition "triple term subject")
  | 1, .iri _ => .ok ()
  | 1, _ => .error (.invalidPosition "triple term predicate")
  | _, _ => .ok ()

/-- The bytes of the component that opens the payload, and what follows it. -/
def splitPart (payload : Bytes) : Option (Bytes × Bytes) :=
  match Varint.read payload with
  | none => none
  | some (len, n) =>
      if (payload.drop n).length < len then none
      else some ((payload.drop n).take len, (payload.drop n).drop len)

/-- Decode the component at a position and give what follows it. -/
def decodePart (dec : Bytes → Except TermError TermRef) (pos : Nat) (payload : Bytes) :
    Except TermError Bytes :=
  match splitPart payload with
  | none => .error (.invalidConcise "truncated triple term")
  | some (part, rest) => do
      let component ← dec part
      checkPosition pos component
      return rest

/-- Decode and validate; `levels` is how many levels of nesting are left. -/
def decodeAt : Nat → Bytes → Except TermError TermRef
  | 0, _ => .error (.tripleTermDepth maxTripleTermDepth)
  | _ + 1, [] => .error (.invalidConcise "empty")
  | levels + 1, sig :: rest =>
      if sig = 0x3E then do
        let s ← utf8 rest
        Iri.validateIri s
        return .iri s
      else if sig = 0x5F then do
        let label ← utf8 rest
        validateBlankLabel label
        return .blankNode label
      else if sig = 0x22 then do
        let lex ← utf8 rest
        return .simple lex
      else if sig = 0x40 then decodeLang rest
      else if sig = 0x5E then decodeDatatype rest
      else if sig = 0x09 then do
        let afterS ← decodePart (decodeAt levels) 0 rest
        let afterP ← decodePart (decodeAt levels) 1 afterS
        let afterO ← decodePart (decodeAt levels) 2 afterP
        if afterO ≠ [] then throw (.invalidConcise "trailing bytes in triple term")
        return .tripleTerm rest
      else .error (.invalidConcise "unknown sigil")

/-- Decode and validate concise bytes. -/
def decode (bytes : Bytes) : Except TermError TermRef := decodeAt (maxTripleTermDepth + 1) bytes

/-- A component of a triple term's payload, decoded when asked for. -/
def component (payload : Bytes) : Nat → Option TermRef
  | 0 => (splitPart payload).bind fun part => (decode part.1).toOption
  | want + 1 => (splitPart payload).bind fun part => component part.2 want

/-! ## Views -/

/-- A term taken apart down to its leaves. -/
inductive TermView where
  | iri (iri : String)
  | blankNode (label : String)
  | simple (lexical : String)
  | lang (lexical tag : String) (dir : Option Dir)
  | datatyped (lexical datatype : String)
  | tripleTerm (s p o : TermView)
deriving DecidableEq, Repr

/-- Follow the accessors of a decoded term through the given levels of nesting. -/
def viewAt : Nat → TermRef → Option TermView
  | 0, _ => none
  | _ + 1, .iri iri => some (.iri iri)
  | _ + 1, .blankNode label => some (.blankNode label)
  | _ + 1, .simple lexical => some (.simple lexical)
  | _ + 1, .lang lexical tag dir => some (.lang lexical tag dir)
  | _ + 1, .datatyped lexical datatype => some (.datatyped lexical datatype)
  | levels + 1, .tripleTerm payload => do
      let s ← (component payload 0).bind (viewAt levels)
      let p ← (component payload 1).bind (viewAt levels)
      let o ← (component payload 2).bind (viewAt levels)
      return .tripleTerm s p o

/-- A decoded term down to its leaves. -/
def view (t : TermRef) : Option TermView := viewAt (maxTripleTermDepth + 1) t

/-- The encoders, applied from the leaves up. -/
def reencode : TermView → Bytes
  | .iri iri => encodeIri iri
  | .blankNode label => encodeBlank label
  | .simple lexical => encodeSimple lexical
  | .lang lexical tag dir => encodeLang lexical tag dir
  | .datatyped lexical datatype => encodeDatatype lexical datatype
  | .tripleTerm s p o => encodeTripleTerm (reencode s) (reencode p) (reencode o)

end Concise

end Graphy
