import Graphy.Core.Term

/-!
# Public term ids

A public id names a term across positions: a dictionary section with an ordinal
that starts at 1, or a word whose tag is not the dictionary tag (inline values,
triple-term ordinals and sentinels).
-/

namespace Graphy

/-- Dictionary section of a public id. -/
inductive Section where
  | shared
  | subjects
  | predicates
  | objects
  | graphs
  | tripleTerms
deriving DecidableEq, Repr

/-- A public term id. -/
inductive TermId where
  | dict (section_ : Section) (ordinal : Nat)
  | raw (word : Col)
deriving DecidableEq, Repr

namespace TermId

/-- Sentinel naming the default graph. -/
def defaultGraph : TermId := .raw ⟨15, 0⟩

/-- Section and ordinal of a dictionary reference. -/
def dictRef : TermId → Option (Section × Nat)
  | .dict s o => some (s, o)
  | .raw _ => none

/-- Public id of a column value from the positional section math alone. -/
def rawTermId (nShared : Nat) (v : Col) : TermPos → TermId
  | .subject =>
      if v.payload < nShared then .dict .shared (v.payload + 1)
      else .dict .subjects (v.payload - nShared + 1)
  | .predicate => .dict .predicates (v.payload + 1)
  | .graph => if v = Col.dict 0 then defaultGraph else .dict .graphs v.payload
  | .object =>
      if v.tag = 0 then
        if v.payload < nShared then .dict .shared (v.payload + 1)
        else .dict .objects (v.payload - nShared + 1)
      else .raw v

end TermId

end Graphy
