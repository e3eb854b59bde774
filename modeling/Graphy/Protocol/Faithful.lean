import Graphy.Misc.Csv
import Graphy.Misc.Utf8
import Graphy.Misc.Xml
import Graphy.Protocol.Results

/-!
# Faithful results

A reader for each results format, after its specification and not after the writers, and
when a table of solutions comes back from all of them.
-/

namespace Graphy.Protocol

open Graphy.Concise Graphy.Turtle

/-! ## Tables -/

/-- The names that the query language gives to variables. -/
def isVarName (v : String) : Bool :=
  match v.toList with
  | [] => false
  | c :: cs => (isPnCharsU c || isAsciiDigit c) && cs.all isVarnameChar

/-- Solutions of a query.  The cells of a row are looked up by their variables, so that a
variable that is selected twice has equal cells. -/
structure Table where
  vars : List String
  rows : List (List (Option Bytes))
  some_ : vars ≠ []
  named : ∀ v ∈ vars, isVarName v = true
  width : ∀ row ∈ rows, row.length = vars.length
  accepted : ∀ row ∈ rows, ∀ bytes, some bytes ∈ row → ∃ t, decode bytes = .ok t
  projected : ∀ row ∈ rows, ∀ a ∈ vars.zip row, ∀ b ∈ vars.zip row, a.1 = b.1 → a.2 = b.2

/-- What a reader makes of a document. -/
structure Solutions where
  vars : List String
  rows : List (List (Option TermView))
deriving DecidableEq, Repr

namespace Table

def results (T : Table) : Results := .solutions T.vars T.rows

/-- The terms of a table. -/
def solutions (T : Table) : Solutions :=
  ⟨T.vars, T.rows.map fun row => row.map fun cell => cell.bind termOf⟩

end Table

/-! ## TSV -/

/-- The tokens up to the end of the input. -/
def tokensOf : Nat → Cursor → Option (List Token)
  | 0, _ => none
  | fuel + 1, c =>
      match c.next true false with
      | (.eof _, _) => some []
      | (.token _ t, c) => (tokensOf fuel c).map (t :: ·)
      | _ => none

/-- The tag that a token spells; the lexer takes three of them for directives. -/
def tagOf : Token → Option (String × Option Dir)
  | .langTag tag dir => some (tag, dir)
  | .kwPrefixAt => some ("prefix", none)
  | .kwBaseAt => some ("base", none)
  | .kwVersionAt => some ("version", none)
  | _ => none

def typed (lex dt : String) : TermView :=
  if dt = Graphy.Vocab.xsdString then .simple lex else .datatyped lex dt

/-- The literal of a string and the tokens behind it. -/
def readLiteral (lex : String) : List Token → TermView × List Token
  | [] => (.simple lex, [])
  | .doubleCaret :: .iri dt :: ts => (typed lex dt, ts)
  | t :: ts =>
      match tagOf t with
      | some tag => (.lang lex tag.1 tag.2, ts)
      | none => (.simple lex, t :: ts)

/-- The term that the tokens open with, and the tokens behind it. -/
def readTerm : Nat → List Token → Option (TermView × List Token)
  | 0, _ => none
  | _ + 1, .iri i :: ts => some (.iri i, ts)
  | _ + 1, .blankLabel label :: ts => some (.blankNode label, ts)
  | _ + 1, .string lex _ _ :: ts => some (readLiteral lex ts)
  | levels + 1, .ltLtParen :: ts => do
      let s ← readTerm levels ts
      let p ← readTerm levels s.2
      let o ← readTerm levels p.2
      if o.2.head? = some .rParenGtGt then some (.tripleTerm s.1 p.1 o.1, o.2.tail) else none
  | _, _ => none

/-- A cell: nothing, or a term and nothing behind it.  The space lets the lexer end a label. -/
def readCell (text : Text) : Option (Option TermView) :=
  if text = [] then some none
  else do
    let bytes := Utf8.encode text ++ [0x20]
    let tokens ← tokensOf (bytes.length + 1) ⟨bytes, ⟨0, 1, 1⟩⟩
    let term ← readTerm (tokens.length + 1) tokens
    if term.2 = [] then some (some term.1) else none

def readName : Text → Option String
  | '?' :: name => some (String.ofList name)
  | _ => none

/-- A table of tab-separated values: every line ends, and has a cell for each variable. -/
def readTsv (text : Text) : Option Solutions :=
  match splitAll '\n' text with
  | [] => none
  | header :: lines => do
      let vars ← (splitAll '\t' header).mapM readName
      let rows ← lines.dropLast.mapM fun line => (splitAll '\t' line).mapM readCell
      if lines.getLast? = some [] ∧ ∀ row ∈ rows, row.length = vars.length then some ⟨vars, rows⟩
      else none

/-! ## CSV -/

/-- What a field says of a term. -/
def fieldOf : Option TermView → Text
  | none => []
  | some (.iri i) => i.toList
  | some (.blankNode label) => "_:".toList ++ label.toList
  | some (.simple lex) | some (.lang lex _ _) | some (.datatyped lex _) => lex.toList
  | some (.tripleTerm s p o) => fromUtf8Lossy (writeTerm (.tripleTerm s p o))

/-- The records of a table. -/
def Solutions.records (s : Solutions) : List (List Text) :=
  s.vars.map String.toList :: s.rows.map fun row => row.map fieldOf

/-! ## XML -/

def sparqlNamespace : Text := "http://www.w3.org/2005/sparql-results#".toList

def itsNamespace : Text := "http://www.w3.org/2005/11/its".toList

/-- The children of an element that has the name and no attributes. -/
def childrenOf (name : String) : Xml.Node → Option (List Xml.Node)
  | .element n attrs children => if n = name.toList ∧ attrs = [] then some children else none
  | .text _ => none

/-- The only one. -/
def onlyOne {α : Type} : List α → Option α
  | [a] => some a
  | _ => none

/-- Character data and nothing else. -/
def dataOf : List Xml.Node → Option String
  | [] => some ""
  | [.text s] => some (String.ofList s)
  | _ => none

def dirOf (s : Text) : Option Dir :=
  if s = "ltr".toList then some .ltr else if s = "rtl".toList then some .rtl else none

/-- A literal by the attributes of its element. -/
def readLiteralXml (directions : Bool) (lex : String) : List (Text × Text) → Option TermView
  | [] => some (.simple lex)
  | [(a, x)] =>
      if a = "xml:lang".toList then some (.lang lex (String.ofList x) none)
      else if a = "datatype".toList then some (typed lex (String.ofList x))
      else none
  | [(a, x), (b, y)] =>
      if directions ∧ a = "xml:lang".toList ∧ b = "its:dir".toList then
        (dirOf y).map fun dir => .lang lex (String.ofList x) (some dir)
      else none
  | _ => none

/-- The term of an element; directions need their namespace. -/
def readTermXml (directions : Bool) : Nat → Xml.Node → Option TermView
  | levels + 1, .element name attrs children =>
      if name = "literal".toList then do
        let lex ← dataOf children
        readLiteralXml directions lex attrs
      else if attrs ≠ [] then none
      else if name = "uri".toList then (dataOf children).map .iri
      else if name = "bnode".toList then (dataOf children).map .blankNode
      else if name = "triple".toList then
        match children with
        | [s, p, o] => do
            let s ← ((childrenOf "subject" s).bind onlyOne).bind (readTermXml directions levels)
            let p ← ((childrenOf "predicate" p).bind onlyOne).bind (readTermXml directions levels)
            let o ← ((childrenOf "object" o).bind onlyOne).bind (readTermXml directions levels)
            return .tripleTerm s p o
        | _ => none
      else none
  | _, _ => none

/-- The value of an element's only attribute `name`, and the element's children. -/
def namedChildren (element : String) : Xml.Node → Option (String × List Xml.Node)
  | .element n [(a, x)] children =>
      if n = element.toList ∧ a = "name".toList then some (String.ofList x, children) else none
  | _ => none

def readBinding (directions : Bool) (node : Xml.Node) : Option (String × TermView) := do
  let named ← namedChildren "binding" node
  let child ← onlyOne named.2
  let v ← readTermXml directions (maxTripleTermDepth + 1) child
  return (named.1, v)

def readVariable (node : Xml.Node) : Option String := do
  let named ← namedChildren "variable" node
  if named.2.isEmpty then some named.1 else none

/-- A row; every binding is one of a variable of the head. -/
def readResult (directions : Bool) (vars : List String) (node : Xml.Node) :
    Option (List (Option TermView)) := do
  let children ← childrenOf "result" node
  let bindings ← children.mapM (readBinding directions)
  if ∀ b ∈ bindings, b.1 ∈ vars then some (vars.map fun v => bindings.lookup v) else none

/-- The solutions of a document. -/
def readXml (text : Text) : Option Solutions :=
  match Xml.read text with
  | some (.element name attrs [head, results]) =>
      if name = "sparql".toList ∧ attrs.lookup "xmlns".toList = some sparqlNamespace then do
        let directions := decide (attrs.lookup "xmlns:its".toList = some itsNamespace)
        let vars ← (childrenOf "head" head).bind fun nodes => nodes.mapM readVariable
        let rows ← (childrenOf "results" results).bind fun nodes =>
          nodes.mapM (readResult directions vars)
        return ⟨vars, rows⟩
      else none
  | _ => none

/-! ## JSON -/

namespace Json

def field (key : String) : Json → Option Json
  | .object fields => fields.lookup key
  | _ => none

def text : Json → Option String
  | .string s => some s
  | _ => none

def items : Json → Option (List Json)
  | .array items => some items
  | _ => none

/-- A field that is a string. -/
def textAt (key : String) (j : Json) : Option String := (j.field key).bind text

end Json

def readDir (j : Json) : Option (Option Dir) :=
  match j.textAt "its:dir" with
  | none => some none
  | some dir => (dirOf dir.toList).map some

/-- The term of an object. -/
def readTermJson : Nat → Json → Option TermView
  | 0, _ => none
  | levels + 1, j => do
      let kind ← j.textAt "type"
      if kind = "uri" then (j.textAt "value").map .iri
      else if kind = "bnode" then (j.textAt "value").map .blankNode
      else if kind = "literal" then do
        let lex ← j.textAt "value"
        match j.textAt "xml:lang", j.textAt "datatype" with
        | some tag, _ => do
            let dir ← readDir j
            return .lang lex tag dir
        | none, some dt => some (typed lex dt)
        | none, none => some (.simple lex)
      else if kind = "triple" then do
        let value ← j.field "value"
        let s ← (value.field "subject").bind (readTermJson levels)
        let p ← (value.field "predicate").bind (readTermJson levels)
        let o ← (value.field "object").bind (readTermJson levels)
        return .tripleTerm s p o
      else none

def readBound : Option Json → Option (Option TermView)
  | none => some none
  | some j => (readTermJson (maxTripleTermDepth + 1) j).map some

/-- A row: each variable that has a field is bound to its term. -/
def readBindings (vars : List String) (row : Json) : Option (List (Option TermView)) :=
  vars.mapM fun v => readBound (row.field v)

def readJson (tree : Json) : Option Solutions := do
  let head ← tree.field "head"
  let vars ← ((head.field "vars").bind Json.items).bind fun items => items.mapM Json.text
  let results ← tree.field "results"
  let bindings ← (results.field "bindings").bind Json.items
  let rows ← bindings.mapM (readBindings vars)
  return ⟨vars, rows⟩

/-! ## The contract -/

namespace Table

/-- Every reader gives the table back, and no other table gives the same document. -/
structure Faithful (T : Table) : Prop where
  tsv : (toTsv T.results).bind readTsv = some T.solutions
  csv : (toCsv T.results).bind Csv.read = some T.solutions.records
  xml : (toXml T.results).bind readXml = some T.solutions
  json : (toJson T.results).bind readJson = some T.solutions
  unlike : ∀ T' : Table, toTsv T'.results = toTsv T.results ∨ toXml T'.results = toXml T.results ∨
    toJson T'.results = toJson T.results → T'.solutions = T.solutions

end Table

/-- The characters of a term, in all of its strings. -/
def chars : TermView → Text
  | .iri i => i.toList
  | .blankNode label => label.toList
  | .simple lex => lex.toList
  | .lang lex tag _ => tag.toList ++ lex.toList
  | .datatyped lex dt => dt.toList ++ lex.toList
  | .tripleTerm s p o => chars s ++ chars p ++ chars o

/-- Every character of the terms is one that XML allows, and no tab and no carriage return. -/
def Table.Plain (T : Table) : Prop :=
  ∀ row ∈ T.solutions.rows, ∀ v, some v ∈ row → ∀ c ∈ chars v,
    Xml.isChar c = true ∧ c ≠ '\t' ∧ c ≠ '\r'

end Graphy.Protocol
