import Graphy.Turtle.Lexer
import Graphy.Turtle.Writer

/-!
# Query results

The SPARQL results formats: JSON, XML, CSV and TSV for solutions and for the answer of ASK.
Terms arrive as concise bytes.  JSON is a tree here, its text is `serde_json`'s.
-/

namespace Graphy.Protocol

open Graphy.Concise

abbrev Text := List Char

/-- The output of a query. -/
inductive Results where
  | solutions (vars : List String) (rows : List (List (Option Bytes)))
  | boolean (b : Bool)
  | triples (triples : List (Bytes × Bytes × Bytes))
deriving DecidableEq, Repr

/-! ## Bytes that are no text -/

/-- The character that the bytes open with, and its bytes. -/
def firstChar (bytes : Bytes) : Option (Char × Nat) := do
  let width ← bytes.head?.bind Turtle.charWidth
  let s ← (utf8 (bytes.take width)).toOption
  let c ← s.toList.head?
  return (c, width)

def isContinuation (b : UInt8) : Bool := decide (0x80 ≤ b ∧ b ≤ 0xBF)

/-- Whether the second byte may follow the first in a character of three or four bytes. -/
def mayFollow (a b : UInt8) : Bool :=
  if a = 0xE0 then decide (0xA0 ≤ b ∧ b ≤ 0xBF)
  else if a = 0xED then decide (0x80 ≤ b ∧ b ≤ 0x9F)
  else if a = 0xF0 then decide (0x90 ≤ b ∧ b ≤ 0xBF)
  else if a = 0xF4 then decide (0x80 ≤ b ∧ b ≤ 0x8F)
  else isContinuation b

/-- How many of the bytes behind `a`, which open no character, one replacement stands for. -/
def brokenLength (a : UInt8) (rest : Bytes) : Nat :=
  if a < 0xE0 ∨ 0xF4 < a then 0
  else
    match rest with
    | [] => 0
    | b :: rest =>
        if !mayFollow a b then 0
        else if a < 0xF0 then 1
        else
          match rest with
          | [] => 1
          | c :: _ => if isContinuation c then 2 else 1

/-- Characters, with a replacement for each broken one. -/
def replaceBroken : Bytes → Text
  | [] => []
  | a :: rest =>
      match firstChar (a :: rest) with
      | some (c, width) => c :: replaceBroken (rest.drop (width - 1))
      | none => '\uFFFD' :: replaceBroken (rest.drop (brokenLength a rest))
termination_by bytes => bytes.length
decreasing_by
  all_goals simp only [List.length_cons, List.length_drop]
  all_goals omega

def fromUtf8Lossy (bytes : Bytes) : Text :=
  match utf8 bytes with
  | .ok s => s.toList
  | .error _ => replaceBroken bytes

/-! ## JSON -/

/-- A tree of `serde_json`; the fields of an object are sorted by their keys. -/
inductive Json where
  | string (s : String)
  | bool (b : Bool)
  | array (items : List Json)
  | object (fields : List (String × Json))

namespace Json

/-- Put a field into an object; an earlier one of the key is replaced. -/
def insert (key : String) (value : Json) : List (String × Json) → List (String × Json)
  | [] => [(key, value)]
  | (k, v) :: fields =>
      if key < k then (key, value) :: (k, v) :: fields
      else if key = k then (key, value) :: fields
      else (k, v) :: insert key value fields

/-- An object of the given fields, put in one after another. -/
def ofFields (fields : List (String × Json)) : List (String × Json) :=
  fields.foldl (fun o f => insert f.1 f.2 o) []

end Json

/-- Concise bytes of a decoded component. -/
def writeConcise : TermView → Bytes
  | .iri i => encodeIri i
  | .blankNode l => encodeBlank l
  | .simple lex => encodeSimple lex
  | .lang lex tag dir => encodeLang lex tag dir
  | .datatyped lex dt =>
      if dt = Graphy.Vocab.xsdString then encodeSimple lex else encodeDatatype lex dt
  | .tripleTerm s p o => encodeTripleTerm (writeConcise s) (writeConcise p) (writeConcise o)

def dirName : Dir → String
  | .ltr => "ltr"
  | .rtl => "rtl"

def literalJson (lex : String) (more : List (String × Json)) : Json :=
  .object (Json.ofFields (("type", .string "literal") :: ("value", .string lex) :: more))

/-- The object of a term; its components are encoded and decoded again, `levels` deep. -/
def termJsonAt : Nat → Bytes → Option Json
  | 0, _ => none
  | levels + 1, bytes =>
      match decode bytes with
      | .ok (.iri i) =>
          some (.object (Json.ofFields [("type", .string "uri"), ("value", .string i)]))
      | .ok (.blankNode l) =>
          some (.object (Json.ofFields [("type", .string "bnode"), ("value", .string l)]))
      | .ok (.simple lex) => some (literalJson lex [])
      | .ok (.lang lex tag none) => some (literalJson lex [("xml:lang", .string tag)])
      | .ok (.lang lex tag (some dir)) =>
          some (literalJson lex [("xml:lang", .string tag), ("its:dir", .string (dirName dir))])
      | .ok (.datatyped lex dt) =>
          some (literalJson lex
            (if dt = Graphy.Vocab.xsdString then [] else [("datatype", .string dt)]))
      | .ok (.tripleTerm payload) => do
          let s ← (component payload 0).bind view
          let p ← (component payload 1).bind view
          let o ← (component payload 2).bind view
          let s ← termJsonAt levels (writeConcise s)
          let p ← termJsonAt levels (writeConcise p)
          let o ← termJsonAt levels (writeConcise o)
          return .object (Json.ofFields [("type", .string "triple"), ("value", .object
            (Json.ofFields [("subject", s), ("predicate", p), ("object", o)]))])
      | .error _ =>
          some (.object (Json.ofFields [("type", .string "literal"),
            ("value", .string (String.ofList (fromUtf8Lossy bytes)))]))

def termJson (bytes : Bytes) : Option Json := termJsonAt (maxTripleTermDepth + 1) bytes

/-- The field of a binding; an unbound variable has none. -/
def bindingJson (cell : String × Option Bytes) : Option (Option (String × Json)) :=
  match cell.2 with
  | none => some none
  | some bytes => (termJson bytes).map fun term => some (cell.1, term)

/-- The bindings of a row, put into the object in the order of the variables. -/
def rowJson (vars : List String) (row : List (Option Bytes)) : Option Json := do
  let fields ← (vars.zip row).filterMapM bindingJson
  return .object (Json.ofFields fields)

/-- Nothing for triples, which have no JSON form. -/
def toJson : Results → Option Json
  | .boolean b => some (.object (Json.ofFields [("head", .object []), ("boolean", .bool b)]))
  | .solutions vars rows => do
      let bindings ← rows.mapM (rowJson vars)
      return .object (Json.ofFields [
        ("head", .object (Json.ofFields [("vars", .array (vars.map .string))])),
        ("results", .object (Json.ofFields [("bindings", .array bindings)]))])
  | .triples _ => none

/-! ## XML -/

/-- Replace every occurrence of a character. -/
def replaceChar (c : Char) (replacement : Text) (s : Text) : Text :=
  s.flatMap fun d => if d = c then replacement else [d]

def xmlEscape (s : Text) : Text :=
  replaceChar '"' "&quot;".toList (replaceChar '>' "&gt;".toList
    (replaceChar '<' "&lt;".toList (replaceChar '&' "&amp;".toList s)))

def dirXml : Option Dir → Text
  | none => []
  | some .ltr => " its:dir=\"ltr\"".toList
  | some .rtl => " its:dir=\"rtl\"".toList

def termRefXml : TermView → Text
  | .iri i => "<uri>".toList ++ xmlEscape i.toList ++ "</uri>".toList
  | .blankNode l => "<bnode>".toList ++ xmlEscape l.toList ++ "</bnode>".toList
  | .simple lex => "<literal>".toList ++ xmlEscape lex.toList ++ "</literal>".toList
  | .lang lex tag dir =>
      "<literal xml:lang=\"".toList ++ xmlEscape tag.toList ++ "\"".toList ++ dirXml dir ++
        ">".toList ++ xmlEscape lex.toList ++ "</literal>".toList
  | .datatyped lex dt =>
      if dt = Graphy.Vocab.xsdString then
        "<literal>".toList ++ xmlEscape lex.toList ++ "</literal>".toList
      else
        "<literal datatype=\"".toList ++ xmlEscape dt.toList ++ "\">".toList ++
          xmlEscape lex.toList ++ "</literal>".toList
  | .tripleTerm s p o =>
      "<triple><subject>".toList ++ termRefXml s ++ "</subject><predicate>".toList ++
        termRefXml p ++ "</predicate><object>".toList ++ termRefXml o ++
        "</object></triple>".toList

def termXml (bytes : Bytes) : Text :=
  match Turtle.termOf bytes with
  | some v => termRefXml v
  | none => "<literal>".toList ++ xmlEscape (fromUtf8Lossy bytes) ++ "</literal>".toList

def hasDirection : TermView → Bool
  | .lang _ _ dir => dir.isSome
  | .tripleTerm s p o => hasDirection s || hasDirection p || hasDirection o
  | _ => false

def termHasDirection (bytes : Bytes) : Bool := (Turtle.termOf bytes).elim false hasDirection

/-- The binding of a variable; an unbound one has none. -/
def bindingXml (cell : String × Option Bytes) : Text :=
  match cell.2 with
  | none => []
  | some bytes =>
      "<binding name=\"".toList ++ xmlEscape cell.1.toList ++ "\">".toList ++ termXml bytes ++
        "</binding>".toList

def rowXml (vars : List String) (row : List (Option Bytes)) : Text :=
  "<result>".toList ++ (vars.zip row).flatMap bindingXml ++ "</result>".toList

def variableXml (v : String) : Text :=
  "<variable name=\"".toList ++ xmlEscape v.toList ++ "\"/>".toList

/-- The document around a body; the namespace of the directions is declared where one occurs. -/
def documentXml (directional : Bool) (body : Text) : Text :=
  "<?xml version=\"1.0\"?>\n<sparql xmlns=\"http://www.w3.org/2005/sparql-results#\"".toList ++
    (if directional then
      " xmlns:its=\"http://www.w3.org/2005/11/its\" its:version=\"2.0\"".toList else []) ++
    ">".toList ++ body ++ "</sparql>".toList

def toXml : Results → Option Text
  | .boolean b =>
      some (documentXml false ("<head/>".toList ++ "<boolean>".toList ++
        (if b then "true" else "false").toList ++ "</boolean>".toList))
  | .solutions vars rows =>
      some (documentXml (rows.flatten.any fun cell => cell.elim false termHasDirection)
        ("<head>".toList ++ vars.flatMap variableXml ++ "</head><results>".toList ++
          rows.flatMap (rowXml vars) ++ "</results>".toList))
  | .triples _ => none

/-! ## CSV and TSV -/

/-- A term in the syntax of N-Triples. -/
def termNt (bytes : Bytes) : Text :=
  match Turtle.termOf bytes with
  | some v => fromUtf8Lossy (Turtle.writeTerm v)
  | none => fromUtf8Lossy bytes

/-- Text pieces with a separator between each two of them. -/
def join (separator : Char) : List Text → Text
  | [] => []
  | [piece] => piece
  | piece :: pieces => piece ++ separator :: join separator pieces

/-- A CSV field, quoted where it has to be. -/
def csvEscape (s : Text) : Text :=
  if s.any fun c => [',', '"', '\n', '\r'].contains c then
    '"' :: replaceChar '"' ['"', '"'] s ++ ['"']
  else s

def csvCell : Option Bytes → Text
  | none => []
  | some bytes =>
      match decode bytes with
      | .ok (.iri i) => csvEscape i.toList
      | .ok (.blankNode l) => "_:".toList ++ l.toList
      | .ok (.simple lex) | .ok (.lang lex _ _) | .ok (.datatyped lex _) => csvEscape lex.toList
      | _ => csvEscape (termNt bytes)

def toCsv : Results → Option Text
  | .boolean b => some ((if b then "true" else "false").toList ++ ['\r', '\n'])
  | .solutions vars rows =>
      some (join ',' (vars.map fun v => csvEscape v.toList) ++ ['\r', '\n'] ++
        rows.flatMap fun row => join ',' (row.map csvCell) ++ ['\r', '\n'])
  | .triples _ => none

def tsvCell (cell : Option Bytes) : Text := cell.elim [] termNt

def toTsv : Results → Option Text
  | .boolean b => some ((if b then "true" else "false").toList ++ ['\n'])
  | .solutions vars rows =>
      some (join '\t' (vars.map fun v => '?' :: v.toList) ++ ['\n'] ++
        rows.flatMap fun row => join '\t' (row.map tsvCell) ++ ['\n'])
  | .triples _ => none

end Graphy.Protocol
