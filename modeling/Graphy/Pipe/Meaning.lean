import Graphy.Misc.FirstSeen
import Graphy.Misc.Interleave
import Graphy.Pipe.Plan

/-!
# What pipelines mean

Operators as functions on whole lists of quads, and the sizes up to which the 32-bit offsets and
ranks of the stages are exact.
-/

namespace Graphy.Pipe

/-- What is counted: single quads, or maximal runs of one subject. -/
def units : Unit → List QuadRef → List (List QuadRef)
  | .quads, xs => xs.map fun q => [q]
  | .subjects, xs => xs.splitBy fun a b => a.s == b.s

/-- The terms of a quad. -/
def terms (q : QuadRef) : Bytes × Bytes × Bytes × Option Bytes := (q.s, q.p, q.o, q.g)

/-- The graph, subject and predicate of a quad. -/
def groupOf (q : QuadRef) : Option Bytes × Bytes × Bytes := (q.g, q.s, q.p)

/-- Quads by graph, by subject within it and by predicate within that, each level in first-seen
order. -/
def regroup : List QuadRef → List QuadRef :=
  grouped (fun q => q.g) (grouped (fun q => q.s) (grouped (fun q => q.p) id))

/-- What an operator makes of the whole list. -/
def OpSpec.apply : OpSpec → List QuadRef → List QuadRef
  | .skip n unit, xs => ((units unit xs).drop n).flatten
  | .head n unit, xs => ((units unit xs).take n).flatten
  | .tail n unit, xs => ((units unit xs).drop ((units unit xs).length - n)).flatten
  | .tree, xs => regroup (firsts terms xs)

/-- What a chain makes of the whole list. -/
def applyAll : List OpSpec → List QuadRef → List QuadRef
  | [], xs => xs
  | spec :: specs, xs => applyAll specs (spec.apply xs)

/-- The quads among the events of a source. -/
def quadsOf (evs : List Event) : List QuadRef := evs.filterMap Event.quad?

/-! ## Sizes -/

/-- The offsets into the copy of a quad fit 32 bits, and that of its graph is not the mark of the
default graph. -/
def Packable (q : QuadRef) : Prop :=
  q.s.length + q.p.length < 2 ^ 32 ∧
    (q.g ≠ none → q.s.length + q.p.length + q.o.length < u32Max)

/-- A graph name is a term, which has at least one byte. -/
def NamesGraph (q : QuadRef) : Prop := q.g ≠ some []

def OpSpec.Fits : OpSpec → List QuadRef → Prop
  | .skip _ _, _ => True
  | .head _ _, _ => True
  | .tail n _, xs => n = 0 ∨ ∀ q ∈ xs, Packable q
  | .tree, xs => (∀ q ∈ xs, Packable q ∧ NamesGraph q) ∧
      (firsts groupOf xs).length ≤ 2 ^ 32

/-- Every operator of a chain fits the list that reaches it, and `last` holds of what leaves the
chain. -/
def FitsAll (last : List QuadRef → Prop) : List OpSpec → List QuadRef → Prop
  | [], xs => last xs
  | spec :: specs, xs => spec.Fits xs ∧ FitsAll last specs (spec.apply xs)

/-- The bytes an event takes in a batch. -/
def Event.size : Event → Nat
  | .quad q => q.s.length + q.p.length + q.o.length + (q.g.getD []).length
  | .declared name iri => (strBytes name).length + (strBytes iri).length

/-- The batch that the junction takes up next has its offsets below 32 bits. -/
def Merge.Exact {S : Type} (m : Merge S) : Prop :=
  m.current = [] → ∀ batch ∈ m.channel.head?, batch.byteLen < 2 ^ 32

/-! ## Stopping -/

/-- A head that has been given the quads has told its source to stop. -/
def filled (n : Nat) : Unit → List QuadRef → Bool
  | .quads, xs => !xs.isEmpty && decide (n ≤ xs.length)
  | .subjects, xs => decide (n < (units .subjects xs).length)

/-- A chain that has been given the quads has told its source to stop.  What a tail or a tree
buffers stops nobody. -/
def halted : List OpSpec → List QuadRef → Bool
  | .skip n unit :: specs, xs => halted specs ((OpSpec.skip n unit).apply xs)
  | .head n unit :: specs, xs =>
      filled n unit xs || halted specs ((OpSpec.head n unit).apply xs)
  | _, _ => false

/-- The legs that `concat` starts when the shared operators have been given some quads: none once
these have told their source to stop. -/
def started (before after : List OpSpec) : List QuadRef → List (List Event) → List (List Event)
  | _, [] => []
  | given, input :: inputs =>
      if halted after given then []
      else input :: started before after (given ++ applyAll before (quadsOf input)) inputs

/-! ## Runs -/

/-- The results of the legs, one after another. -/
def legsOut (before : List OpSpec) (inputs : List (List Event)) : List QuadRef :=
  inputs.flatMap fun input => applyAll before (quadsOf input)

/-- The terminal has been given the quads, and every stage has been finished exactly once. -/
def Ran.Delivers (ran : Ran) (xs : List QuadRef) : Prop :=
  ran.terminal.quads = xs ∧ ran.terminal.finished = 1 ∧ ∀ n ∈ ran.finished, n = 1

end Graphy.Pipe
