import Graphy.Core.Inline
import Graphy.Misc.Scaled

/-!
# Exact decimals

Query evaluation computes decimals on a 128-bit coefficient and a 32-bit scale.
Sums and products answer nothing past 128 bits; comparison falls back to doubles
there.
-/

namespace Graphy

open Ieee

/-- The decimal `unscaled · 10⁻ˢᶜᵃˡᵉ`. -/
structure Dec where
  unscaled : Int
  scale : Nat
deriving DecidableEq, Repr

namespace Dec

/-- The rational a decimal stands for. -/
def value (d : Dec) : ℚ := Scaled.value d.unscaled d.scale

def fromInt (i : Int) : Dec := ⟨i, 0⟩

def fromI128 (i : Int) : Dec := ⟨i, 0⟩

/-- Fraction digits a quotient carries at least. -/
def divScale : Nat := 18

/-- Strip trailing fraction zeros. -/
def strip (unscaled : Int) : Nat → Dec
  | 0 => ⟨unscaled, 0⟩
  | scale + 1 =>
      if unscaled % 10 = 0 then strip (unscaled / 10) scale else ⟨unscaled, scale + 1⟩

def normal (d : Dec) : Dec := strip d.unscaled d.scale

/-- One more character of the coefficient. -/
def parseDigit (v : Int) (c : Char) : Option Int :=
  if isAsciiDigit c then pushDigit v c else none

/-- Parse a decimal: optional sign, digits, optional fraction. -/
def parse (lex : List Char) : Option Dec :=
  if lex = [] then none
  else
    let (neg, rest) := splitSign lex
    let (int, frac) := (splitOnce '.' rest).getD (rest, [])
    if int = [] ∧ frac = [] then none
    else
      ((int ++ frac).foldlM parseDigit 0).map fun unscaled =>
        normal ⟨if neg then -unscaled else unscaled, frac.length % 2 ^ 32⟩

def pow10 (e : Nat) : Option Int := Int128.checkedPow 10 e

/-- Both coefficients at the larger scale. -/
def aligned (a b : Dec) : Option (Int × Int × Nat) := do
  let scale := max a.scale b.scale
  let pa ← pow10 (scale - a.scale)
  let ax ← Int128.checked (a.unscaled * pa)
  let pb ← pow10 (scale - b.scale)
  let bx ← Int128.checked (b.unscaled * pb)
  return (ax, bx, scale)

def checkedAdd (a b : Dec) : Option Dec := do
  let (ax, bx, scale) ← aligned a b
  let sum ← Int128.checked (ax + bx)
  return normal ⟨sum, scale⟩

def checkedSub (a b : Dec) : Option Dec := do
  let (ax, bx, scale) ← aligned a b
  let difference ← Int128.checked (ax - bx)
  return normal ⟨difference, scale⟩

def checkedMul (a b : Dec) : Option Dec := do
  let product ← Int128.checked (a.unscaled * b.unscaled)
  if a.scale + b.scale < 2 ^ 32 then return normal ⟨product, a.scale + b.scale⟩
  else none

/-- The coefficient of the dividend at the scale of the quotient. -/
def dividend (a : Dec) (shift : Nat) : Option Int := do
  let p ← pow10 shift
  Int128.checked (a.unscaled * p)

/-- Truncating division; nothing on a zero divisor or when the dividend overflows. -/
def checkedDiv (a b : Dec) : Except Panic (Option Dec) :=
  if b.unscaled = 0 then .ok none
  else
    let s := max divScale a.scale
    if s + b.scale < 2 ^ 32 then
      match dividend a (s + b.scale - a.scale) with
      | none => .ok none
      | some num => (Int128.plain (num.tdiv b.unscaled)).map fun q => some (normal ⟨q, s⟩)
    else .error .overflow

/-- A 32-bit number read as signed. -/
def asI32 (n : Nat) : Int := if n % 2 ^ 32 < 2 ^ 31 then n % 2 ^ 32 else (n % 2 ^ 32 : Nat) - 2 ^ 32

/-- The nearest double of the coefficient, divided by a power of ten. -/
def toF64 [PowersOfTen] (d : Dec) : Nat :=
  double.div (double.ofInt d.unscaled) (PowersOfTen.powi (asI32 d.scale))

/-- Compare at the larger scale, or by the doubles where the alignment overflows. -/
def compare [PowersOfTen] (a b : Dec) : Ordering :=
  match aligned a b with
  | some (ax, bx, _) => cmp ax bx
  | none => (double.partialCmp a.toF64 b.toF64).getD .eq

/-- Truncate toward zero. -/
def trunc (d : Dec) : Except Panic Int :=
  match pow10 d.scale with
  | some p => Int128.plain (d.unscaled.tdiv p)
  | none => .ok 0

def abs (d : Dec) : Option Dec := (Int128.checked d.unscaled.natAbs).map fun u => ⟨u, d.scale⟩

/-- The decimal has no fraction. -/
def isExact (d : Dec) : Bool :=
  decide (d.scale = 0) || (pow10 d.scale).any fun p => decide (d.unscaled.tmod p = 0)

def ceil (d : Dec) : Except Panic Dec := do
  let t ← d.trunc
  if !d.isExact && decide (0 < d.unscaled) then (Int128.plain (t + 1)).map fromI128
  else .ok (fromI128 t)

def floor (d : Dec) : Except Panic Dec := do
  let t ← d.trunc
  if !d.isExact && decide (d.unscaled < 0) then (Int128.plain (t - 1)).map fromI128
  else .ok (fromI128 t)

/-- Round to the nearest integer, halves up. -/
def round (d : Dec) : Except Panic Dec :=
  match pow10 d.scale with
  | none => .ok d
  | some p => do
      let t ← Int128.plain (d.unscaled.tdiv p)
      let rem := d.unscaled.tmod p
      let half := p.tdiv 2
      if half < rem.natAbs ∨ (rem.natAbs = half ∧ 0 < d.unscaled) then
        if 0 < d.unscaled then (Int128.plain (t + 1)).map fromI128
        else (Int128.plain (t - 1)).map fromI128
      else .ok (fromI128 t)

/-- The canonical spelling, with at least one fraction digit. -/
def lexical (d : Dec) : List Char :=
  let d := d.normal
  let digits := Nat.toDigits 10 d.unscaled.natAbs
  (if d.unscaled < 0 then ['-'] else []) ++
    if d.scale = 0 then digits ++ ['.', '0']
    else if d.scale < digits.length then
      digits.take (digits.length - d.scale) ++ '.' :: digits.drop (digits.length - d.scale)
    else '0' :: '.' :: List.replicate (d.scale - digits.length) '0' ++ digits

/-! ## Values of the engine -/

/-- The decimals that parsing, the conversion of a 64-bit integer and the operations
produce. -/
inductive Produced : Dec → Prop
  | fromInt (i : Int) (low : -2 ^ 63 ≤ i) (high : i < 2 ^ 63) : Produced (fromInt i)
  | parse {lex : List Char} {d : Dec} : parse lex = some d → Produced d
  | add {a b d : Dec} : Produced a → Produced b → checkedAdd a b = some d → Produced d
  | sub {a b d : Dec} : Produced a → Produced b → checkedSub a b = some d → Produced d
  | mul {a b d : Dec} : Produced a → Produced b → checkedMul a b = some d → Produced d
  | div {a b d : Dec} : Produced a → Produced b → checkedDiv a b = .ok (some d) → Produced d
  | abs {a d : Dec} : Produced a → a.abs = some d → Produced d
  | ceil {a d : Dec} : Produced a → a.ceil = .ok d → Produced d
  | floor {a d : Dec} : Produced a → a.floor = .ok d → Produced d
  | round {a d : Dec} : Produced a → a.round = .ok d → Produced d

/-- The operations on two decimals are exact and none panics. -/
structure Exact [PowersOfTen] (a b : Dec) : Prop where
  add {d : Dec} : checkedAdd a b = some d → d.value = a.value + b.value
  sub {d : Dec} : checkedSub a b = some d → d.value = a.value - b.value
  mul {d : Dec} : checkedMul a b = some d → d.value = a.value * b.value
  div : ∃ q, checkedDiv a b = .ok q
  compare : compare a b = cmp a.value b.value
  trunc : a.trunc = .ok (if 0 ≤ a.value then ⌊a.value⌋ else ⌈a.value⌉)
  ceil : a.ceil = .ok (fromI128 ⌈a.value⌉)
  floor : a.floor = .ok (fromI128 ⌊a.value⌋)
  round : ∃ d, a.round = .ok d ∧ d.value = ⌊a.value + 1 / 2⌋
  parse : Dec.parse a.lexical = some a

/-- Both coefficients fit 128 bits at the larger scale, as the powers of ten do. -/
structure CommonScale (a b : Dec) : Prop where
  near : a.scale - b.scale ≤ 38 ∧ b.scale - a.scale ≤ 38
  left : Int128.Fits (a.unscaled * 10 ^ (b.scale - a.scale))
  right : Int128.Fits (b.unscaled * 10 ^ (a.scale - b.scale))

/-- The order of two decimals without a common scale.  The one with the smaller scale is
further from zero, so its sign decides, and the other's where it is zero. -/
def farOrder (a b : Dec) : Ordering :=
  if a.scale ≤ b.scale then if a.unscaled = 0 then cmp 0 b.unscaled else cmp a.unscaled 0
  else if b.unscaled = 0 then cmp a.unscaled 0 else cmp 0 b.unscaled

/-- The doubles tell apart what has no common scale, the first decimal rounds and spells within
the ranges, and the quotient's scale and coefficient fit. -/
structure WithinRange [PowersOfTen] (a b : Dec) : Prop where
  doubles : ¬ CommonScale a b → double.partialCmp a.toF64 b.toF64 = some (farOrder a b)
  fraction : a.scale = 0 → a.unscaled ≤ 0
  scale : a.scale ≤ 38
  spelling : if a.scale = 0 then (a.unscaled.natAbs * 10 : Int) ≤ Int128.maximum
    else a.unscaled ≠ Int128.minimum
  quotientScale : b.unscaled ≠ 0 → max divScale a.scale + b.scale < 2 ^ 32
  quotient : ¬ (a.unscaled = Int128.minimum ∧ divScale ≤ a.scale ∧ b = ⟨-1, 0⟩)

end Dec

end Graphy
