import Graphy.Core.Iri

/-!
# Reference resolution

The target of a reference as section 5.2 of RFC 3986 defines it, in the terms of
the section: dot segments are removed by moving from an input buffer to an output
buffer, each step by the first of the rules A to E that applies.
-/

namespace Graphy.Rfc3986

open Iri

/-- The output without its last segment and the slash before it, if any. -/
def dropLastSegment (output : List Char) : List Char :=
  ((output.reverse.dropWhile fun c => c != '/').drop 1).reverse

/-- The first path segment with the slash before it, if any. -/
def firstSegment : List Char → List Char
  | [] => []
  | c :: rest => c :: rest.takeWhile fun c => c != '/'

/-- One step on the input and the output buffer. -/
def step (buffers : List Char × List Char) : List Char × List Char :=
  let input := buffers.1
  let output := buffers.2
  if ['.', '.', '/'].isPrefixOf input then (input.drop 3, output)
  else if ['.', '/'].isPrefixOf input then (input.drop 2, output)
  else if ['/', '.', '/'].isPrefixOf input then ('/' :: input.drop 3, output)
  else if input = ['/', '.'] then (['/'], output)
  else if ['/', '.', '.', '/'].isPrefixOf input then ('/' :: input.drop 4, dropLastSegment output)
  else if input = ['/', '.', '.'] then (['/'], dropLastSegment output)
  else if input = ['.'] ∨ input = ['.', '.'] then ([], output)
  else (input.drop (firstSegment input).length, output ++ firstSegment input)

/-- The path without dot segments: every step shortens the input. -/
def removeDotSegments (path : List Char) : List Char := (step^[path.length] (path, [])).2

/-- A relative path merged with the base's. -/
def merge (base : IriParts) (path : List Char) : List Char :=
  if base.authority.isSome ∧ base.path = [] then '/' :: path
  else (base.path.reverse.dropWhile fun c => c != '/').reverse ++ path

/-- The target of a reference against a base. -/
def target (base r : IriParts) : IriParts :=
  if r.scheme.isSome then { r with path := removeDotSegments r.path }
  else if r.authority.isSome then
    { r with scheme := base.scheme, path := removeDotSegments r.path }
  else if r.path = [] then
    { base with query := if r.query.isSome then r.query else base.query, fragment := r.fragment }
  else
    { scheme := base.scheme
      authority := base.authority
      path := removeDotSegments (if r.path.head? = some '/' then r.path else merge base r.path)
      query := r.query
      fragment := r.fragment }

/-- The text of parts (5.3). -/
def recompose (p : IriParts) : List Char :=
  (p.scheme.elim [] fun s => s ++ [':']) ++ (p.authority.elim [] fun a => '/' :: '/' :: a) ++
    p.path ++ (p.query.elim [] fun q => '?' :: q) ++ (p.fragment.elim [] fun f => '#' :: f)

/-- The reference resolves to an absolute IRI whose parts are those of the target. -/
def Resolves (base reference : String) : Prop :=
  ∃ b r iri, parseReference base = .ok b ∧ parseReference reference = .ok r ∧
    resolve base reference = .ok iri ∧ validateIri iri = .ok () ∧
      parseReference iri = .ok (target b r)

/-- Parts without an authority whose path would be read as one. -/
def Ambiguous (p : IriParts) : Prop := p.authority = none ∧ ['/', '/'] <+: p.path

instance decidableAmbiguous (p : IriParts) : Decidable (Ambiguous p) :=
  inferInstanceAs (Decidable (_ ∧ _))

/-- Without dot segments the path of the target begins with two slashes, and the target has
no authority. -/
def Uncovers (base reference : String) : Prop :=
  ∃ b r, parseReference base = .ok b ∧ parseReference reference = .ok r ∧ Ambiguous (target b r)

end Graphy.Rfc3986
