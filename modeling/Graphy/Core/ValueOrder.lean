import Graphy.Core.Inline
import Graphy.Misc.Scaled

/-!
# Value comparison

Inline values compare by value across ids: numbers by the exact rational they
stand for, through the doubles where one is a double, booleans among themselves
and dates or times of one kind by instant.
-/

namespace Graphy

open Ieee

/-- The integer below the decimal, and whether a fraction lies above it. -/
def decFloor (u : Int) (s : Nat) : Except Panic (Int × Bool) :=
  if s = 0 then .ok (u, false)
  else if s ≤ 38 then do
    let p ← Int128.plain (10 ^ s)
    let floor ← Int128.plain (u / p)
    let frac ← Int128.plain (u % p)
    .ok (floor, decide (frac ≠ 0))
  else .ok (if 0 ≤ u then 0 else -1, decide (u ≠ 0))

/-- Compare an integer against a decimal: by the decimal's floor, then by its fraction. -/
def cmpIntDec (a u : Int) (s : Nat) : Except Panic Ordering :=
  (decFloor u s).map fun f =>
    match cmp a f.1 with
    | .eq => if f.2 then .lt else .eq
    | ord => ord

/-- Compare two decimals, the first at the smaller scale, at the larger one; where the
product overflows the sign decides. -/
def cmpRaised (u1 : Int) (s1 : Nat) (u2 : Int) (s2 : Nat) : Ordering :=
  if u1 = 0 then cmp 0 u2
  else
    match (Int128.checkedPow 10 (s2 - s1)).bind fun p => Int128.checked (u1 * p) with
    | some lhs => cmp lhs u2
    | none => if 0 < u1 then .gt else .lt

/-- Compare two decimals; the recursion of the source only exchanges them. -/
def cmpDecDec (u1 : Int) (s1 : Nat) (u2 : Int) (s2 : Nat) : Ordering :=
  if s2 < s1 then (cmpRaised u2 s2 u1 s1).swap else cmpRaised u1 s1 u2 s2

section Comparison

variable [PowersOfTen]

def InlineValue.toF64 : InlineValue → Option Nat
  | .integer i => some (Ieee.double.ofInt i)
  | .decimal unscaled scale =>
      some (Ieee.double.div (Ieee.double.ofInt unscaled) (PowersOfTen.powi scale))
  | .double bits _ => some bits
  | _ => none

/-- Compare two values, or nothing where their spaces do not compare. -/
def InlineValue.partialCmp : InlineValue → InlineValue → Except Panic (Option Ordering)
  | .integer x, .integer y => .ok (some (cmp x y))
  | .integer x, .decimal unscaled scale => (cmpIntDec x unscaled scale).map some
  | .decimal unscaled scale, .integer y =>
      (cmpIntDec y unscaled scale).map fun ord => some ord.swap
  | .decimal u1 s1, .decimal u2 s2 => .ok (some (cmpDecDec u1 s1 u2 s2))
  | .double x _, v => .ok (v.toF64.bind (Ieee.double.partialCmp x))
  | v, .double y _ => .ok (v.toF64.bind (Ieee.double.partialCmp · y))
  | .boolean x, .boolean y => .ok (some (cmp x.toNat y.toNat))
  | .dateTime x, .dateTime y =>
      if x.dateOnly = y.dateOnly then
        .ok (some ((cmp x.seconds y.seconds).then (cmp x.millis y.millis)))
      else .ok none
  | _, _ => .ok none

def partialCmpValue (a b : Col) : Except Panic (Option Ordering) :=
  match a.decode, b.decode with
  | some va, some vb => va.partialCmp vb
  | _, _ => .ok none

end Comparison

/-! ## Inline numbers -/

/-- An id that carries an integer or a decimal. -/
structure InlineNumber where
  id : Col
  numeric : id.tag = 1 ∨ id.tag = 2

namespace InlineNumber

/-- The rational the id stands for. -/
def value (a : InlineNumber) : ℚ :=
  match a.id.decode with
  | some (.integer v) => v
  | some (.decimal unscaled scale) => Scaled.value unscaled scale
  | _ => 0

/-- The comparison does not put the first above the second. -/
def AtMost [PowersOfTen] (a b : InlineNumber) : Prop :=
  ∃ ord, partialCmpValue a.id b.id = .ok (some ord) ∧ ord ≠ .gt

end InlineNumber

end Graphy
