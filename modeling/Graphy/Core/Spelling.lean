import Graphy.Core.Concise

/-!
# Spellings of terms

Bytes that decode stand for a term, plain or a triple term with its components.
The encoder gives a term one spelling; the decoder also takes component lengths with
more bytes than they need, so that one triple term can be spelled in several ways.
A codec of inline values is what the store relies on when it carries a literal in a
column value instead of its dictionary.
-/

namespace Graphy.Term

/-- The spelling the encoder gives a term. -/
def bytes : Term → Bytes
  | .atom b => b
  | .tripleTerm s p o => Concise.encodeTripleTerm s p o.bytes

/-- The term of some bytes, when they decode; `levels` is how many levels of nesting are
left. -/
def readAt : Nat → Bytes → Option Term
  | 0, _ => none
  | levels + 1, b =>
      match Concise.decodeAt (levels + 1) b with
      | .error _ => none
      | .ok (.tripleTerm payload) => do
          let (s, afterS) ← Concise.splitPart payload
          let (p, afterP) ← Concise.splitPart afterS
          let (o, _) ← Concise.splitPart afterP
          let o ← readAt levels o
          return .tripleTerm s p o
      | .ok _ => some (.atom b)

def read (b : Bytes) : Option Term := readAt (Concise.maxTripleTermDepth + 1) b

/-- Bytes that decode and are the encoder's spelling of their term. -/
def Canonical (b : Bytes) : Prop := ∃ t, read b = some t ∧ t.bytes = b

end Graphy.Term

/-! ## Inline values -/

namespace Graphy

/-- The inline value encoding: canonical literals that fit a payload are carried
in the id itself.  `tryInline` accepts a spelling only when the canonical
writer reproduces it, so decoding an accepted value gives the spelling back. -/
class InlineCodec where
  tryInline : Bytes → Option Col
  inlineConcise : Col → Option Bytes
  tag_tryInline {b : Bytes} {c : Col} : tryInline b = some c → 1 ≤ c.tag ∧ c.tag ≤ 6
  kind_tryInline {b : Bytes} {c : Col} : tryInline b = some c → sigilKind b = .literal
  read_tryInline {b : Bytes} {c : Col} : tryInline b = some c → Term.read b = some (.atom b)
  inlineConcise_tryInline {b : Bytes} {c : Col} : tryInline b = some c → inlineConcise c = some b

export InlineCodec (tryInline inlineConcise)

/-- The codec that inlines nothing; it agrees with every other one on terms without
inline-encodable literals. -/
@[reducible] def plainCodec : InlineCodec where
  tryInline := fun _ => none
  inlineConcise := fun _ => none
  tag_tryInline := by simp
  kind_tryInline := by simp
  read_tryInline := by simp
  inlineConcise_tryInline := by simp

end Graphy
