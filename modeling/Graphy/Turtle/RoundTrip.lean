import Graphy.Turtle.Nx
import Graphy.Turtle.Writer

/-!
# Writing quads and parsing them back

The round trip of the canonical writer and the N-Quads parser: the same quads, up to a
renaming of the blank-node labels.  The parser keeps the bytes of a statement, and of the
quads of one call, in arenas with 32-bit handles; the sizes say when these suffice.
-/

namespace Graphy.Turtle

open Graphy.Concise

/-! ## Labels -/

/-- The labels seen so far, in the order of their first occurrence, with one more. -/
def see (seen : List String) (label : String) : List String :=
  if label ∈ seen then seen else seen ++ [label]

def seeTerm (seen : List String) : TermView → List String
  | .blankNode label => see seen label
  | .tripleTerm s p o => seeTerm (seeTerm (seeTerm seen s) p) o
  | _ => seen

def seeGraph (seen : List String) : Option TermView → List String
  | none => seen
  | some g => seeTerm seen g

def seeQuad (seen : List String) (q : QuadView) : List String :=
  seeGraph (seeTerm (seeTerm (seeTerm seen q.s) q.p) q.o) q.g

/-- The labels of some quads in the order of their first occurrence. -/
def labelsOf (quads : List QuadView) : List String := quads.foldl seeQuad []

/-- The label by the place of its first occurrence. -/
def ordinalLabel (seen : List String) (label : String) : String :=
  "s" ++ toString (seen.idxOf label)

def renameTerm (f : String → String) : TermView → TermView
  | .blankNode label => .blankNode (f label)
  | .tripleTerm s p o => .tripleTerm (renameTerm f s) (renameTerm f p) (renameTerm f o)
  | v => v

def QuadView.rename (f : String → String) (q : QuadView) : QuadView :=
  ⟨renameTerm f q.s, renameTerm f q.p, renameTerm f q.o, q.g.map (renameTerm f)⟩

/-- The canonical bytes of a quad. -/
def QuadView.encode (q : QuadView) : QuadRec :=
  ⟨reencode q.s, reencode q.p, reencode q.o, q.g.map reencode, none⟩

/-! ## Sizes -/

/-- Bytes that a term and the parts it is built from take in the arena of a statement. -/
def termArena : TermView → Nat
  | .tripleTerm s p o =>
      termArena s + termArena p + termArena o + (reencode (.tripleTerm s p o)).length
  | v => (reencode v).length

def QuadView.arena (q : QuadView) : Nat :=
  termArena q.s + termArena q.p + termArena q.o + (q.g.elim 0 termArena)

/-- With the labels by the place of their first occurrence, no statement takes 2^32 bytes in
its arena, and neither do all quads together in the buffer. -/
structure Fits (quads : List QuadView) : Prop where
  statements : ∀ q ∈ quads, (q.rename (ordinalLabel (labelsOf quads))).arena < 2 ^ 32
  buffer : (quads.map fun q =>
    (q.rename (ordinalLabel (labelsOf quads))).encode.size).sum < 2 ^ 32

/-! ## The round trip -/

/-- Accepted terms in legal positions. -/
structure QuadRec.Legal (q : QuadRec) : Prop where
  subject : ∃ t, decode q.s = .ok t ∧ checkPosition 0 t = .ok ()
  predicate : ∃ t, decode q.p = .ok t ∧ checkPosition 1 t = .ok ()
  object : ∃ t, decode q.o = .ok t
  graph : ∀ g, q.g = some g → ∃ t, decode g = .ok t ∧ checkPosition 0 t = .ok ()

/-- The default options, with the lenient and the trusted mode left open. -/
def lineOptions (lenient trusted : Bool) : Options := ⟨none, true, lenient, none, trusted⟩

/-- Parse a text fed in one chunk. -/
def parseNQuads (lenient trusted : Bool) (text : Bytes) :
    Outcome ParseError NxParser (List QuadRec) :=
  NxParser.readFrom [text] (.new (lineOptions lenient trusted) true false)

/-- Writing the quads and parsing the text succeed and give the same quads, up to one
injective renaming of their labels. -/
def RoundTrips (lenient trusted : Bool) (quads : List QuadRec) : Prop :=
  ∃ text views rename, writeQuads quads = some text ∧ quads.mapM QuadRec.view = some views ∧
    Set.InjOn rename {label | label ∈ labelsOf views} ∧
    ∃ p, parseNQuads lenient trusted text =
      .ok (views.map fun q => (q.rename rename).encode) p

end Graphy.Turtle
