import Graphy.Turtle.Parser

/-!
# The canonical writer

N-Quads as the merge and the debugging tools write them; with no graph label it is
N-Triples.  IRIs, labels and tags are printed as they are, strings with four escapes.
-/

namespace Graphy.Turtle

open Graphy.Concise

/-- The canonical escape of a byte, or the byte itself. -/
def escapeByte (b : UInt8) : Bytes :=
  if b = 0x22 then [0x5C, 0x22]
  else if b = 0x5C then [0x5C, 0x5C]
  else if b = 0x0A then [0x5C, 0x6E]
  else if b = 0x0D then [0x5C, 0x72]
  else [b]

def writeString (lexical : String) : Bytes :=
  0x22 :: (strBytes lexical).flatMap escapeByte ++ [0x22]

def writeDirection : Option Dir → Bytes
  | none => []
  | some d => strBytes (dirSuffix d)

/-- Write one term in the N-Triples syntax. -/
def writeTerm : TermView → Bytes
  | .iri iri => 0x3C :: strBytes iri ++ [0x3E]
  | .blankNode label => strBytes "_:" ++ strBytes label
  | .simple lexical => writeString lexical
  | .lang lexical tag dir => writeString lexical ++ 0x40 :: strBytes tag ++ writeDirection dir
  | .datatyped lexical datatype =>
      writeString lexical ++
        if datatype ≠ Graphy.Vocab.xsdString then strBytes "^^<" ++ strBytes datatype ++ [0x3E]
        else []
  | .tripleTerm s p o =>
      strBytes "<<( " ++ writeTerm s ++ 0x20 :: writeTerm p ++ 0x20 :: writeTerm o ++
        strBytes " )>>"

/-- The term of some concise bytes, down to its leaves. -/
def termOf (bytes : Bytes) : Option TermView := (decode bytes).toOption.bind view

def writeGraph : Option TermView → Bytes
  | none => []
  | some g => 0x20 :: writeTerm g

/-- A quad of terms. -/
structure QuadView where
  s : TermView
  p : TermView
  o : TermView
  g : Option TermView
deriving DecidableEq, Repr

def writeView (q : QuadView) : Bytes :=
  writeTerm q.s ++ 0x20 :: writeTerm q.p ++ 0x20 :: writeTerm q.o ++ writeGraph q.g ++
    strBytes " .\n"

/-- The terms of a quad of concise bytes; a graph label has to decode as well. -/
def QuadRec.view (q : QuadRec) : Option QuadView := do
  let s ← termOf q.s
  let p ← termOf q.p
  let o ← termOf q.o
  match q.g with
  | none => return ⟨s, p, o, none⟩
  | some g => do
      let g ← termOf g
      return ⟨s, p, o, some g⟩

/-- Write a quad; nothing when some bytes do not decode. -/
def writeQuad (q : QuadRec) : Option Bytes := q.view.map writeView

/-- Write quads one after another. -/
def writeQuads (quads : List QuadRec) : Option Bytes := (quads.mapM writeQuad).map List.flatten

end Graphy.Turtle
