import Mathlib.Algebra.Order.Ring.Int
import Mathlib.Order.Compare

/-!
# Binary floating point

A number of a binary interchange format is given by its bits: a sign, a biased
exponent and a fraction.  Without the sign the bits of finite numbers count up
from zero in the order of their magnitudes, and each magnitude is a whole number
of the least one.  Operations round to nearest, ties to even.
-/

namespace Graphy.Ieee

/-- A format by the bits of its significand, the hidden one among them, and of its exponent. -/
structure Format where
  precision : Nat
  width : Nat
deriving DecidableEq, Repr

def double : Format := ⟨53, 11⟩

def single : Format := ⟨24, 8⟩

namespace Format

variable (f : Format)

/-- The bit of the sign. -/
def signBit : Nat := 2 ^ (f.precision + f.width - 1)

/-- Bits of infinity; a NaN lies above. -/
def infinity : Nat := (2 ^ f.width - 1) * 2 ^ (f.precision - 1)

def nan : Nat := f.infinity + 2 ^ (f.precision - 2)

/-- The least magnitude is `2 ^ -least`. -/
def least : Nat := 2 ^ (f.width - 1) + f.precision - 3

def negative (bits : Nat) : Bool := decide (bits / f.signBit % 2 = 1)

def magnitude (bits : Nat) : Nat := bits % f.signBit

def signed (negative : Bool) (magnitude : Nat) : Nat := negative.toNat * f.signBit + magnitude

def isNan (bits : Nat) : Bool := decide (f.infinity < f.magnitude bits)

def isInfinite (bits : Nat) : Bool := decide (f.magnitude bits = f.infinity)

/-- A finite magnitude as a multiple of the least one. -/
def units (magnitude : Nat) : Nat :=
  if magnitude < 2 ^ (f.precision - 1) then magnitude
  else (magnitude % 2 ^ (f.precision - 1) + 2 ^ (f.precision - 1)) *
    2 ^ (magnitude / 2 ^ (f.precision - 1) - 1)

end Format

/-- The whole number nearest to a ratio, the even one of two. -/
def nearest (num den : Nat) : Nat :=
  let below := num / den
  let rest := num % den
  if den < 2 * rest ∨ (2 * rest = den ∧ below % 2 = 1) then below + 1 else below

namespace Format

variable (f : Format)

/-- The magnitude nearest to a ratio: where it has more bits than the significand, the last
ones are rounded away, and each of them counts for a binade. -/
def round (num den : Nat) : Nat :=
  let units := num * 2 ^ f.least
  let excess := (units / den).log2 + 1 - f.precision
  min f.infinity (excess * 2 ^ (f.precision - 1) + nearest units (den * 2 ^ excess))

def ofInt (v : Int) : Nat := f.signed (decide (v < 0)) (f.round v.natAbs 1)

def div (x y : Nat) : Nat :=
  let negative := f.negative x ^^ f.negative y
  if f.isNan x || f.isNan y || (f.isInfinite x && f.isInfinite y) ||
      (f.magnitude x == 0 && f.magnitude y == 0) then f.nan
  else if f.isInfinite x || f.magnitude y == 0 then f.signed negative f.infinity
  else if f.isInfinite y then f.signed negative 0
  else f.signed negative (f.round (f.units (f.magnitude x)) (f.units (f.magnitude y)))

/-- The place of a number among all that compare; the zeros share one. -/
def rank (bits : Nat) : Int :=
  if f.negative bits then -(f.magnitude bits : Int) else f.magnitude bits

/-- The order of two numbers; none with a NaN. -/
def partialCmp (x y : Nat) : Option Ordering :=
  if f.isNan x || f.isNan y then none else some (cmp (f.rank x) (f.rank y))

end Format

/-- A number of the single format in the double one. -/
def widen (bits : Nat) : Nat :=
  let magnitude := single.magnitude bits
  let wide :=
    if single.infinity < magnitude then double.nan
    else if magnitude = single.infinity then double.infinity
    else double.round (single.units magnitude) (2 ^ single.least)
  double.signed (single.negative bits) wide

/-- A tenth: the quotient of two whole numbers is rounded to even. -/
example : double.div (double.ofInt 1) (double.ofInt 10) = 0x3FB999999999999A := by decide +kernel

/-! ## Powers of ten -/

/-- Powers of ten of the double format.  How they are rounded is left to the platform. -/
class PowersOfTen where
  powi : Int → Nat

/-- Powers of ten rounded to the nearest. -/
@[reducible] def nearestPowers : PowersOfTen where
  powi e := double.round (10 ^ e.toNat) (10 ^ (-e).toNat)

end Graphy.Ieee
