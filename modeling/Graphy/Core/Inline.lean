import Graphy.Core.Concise
import Graphy.Misc.Digits
import Graphy.Misc.Ieee

/-!
# Inline values

Numbers, booleans, dates and times whose canonical spelling fits are carried in
the id itself: four tag bits, then a payload whose unsigned order is the value
order.  A spelling inlines when the canonical writer gives it back.
-/

namespace Graphy

namespace Vocab

def xsdBoolean : String := "http://www.w3.org/2001/XMLSchema#boolean"
def xsdInteger : String := "http://www.w3.org/2001/XMLSchema#integer"
def xsdDecimal : String := "http://www.w3.org/2001/XMLSchema#decimal"
def xsdDouble : String := "http://www.w3.org/2001/XMLSchema#double"
def xsdFloat : String := "http://www.w3.org/2001/XMLSchema#float"
def xsdDateTime : String := "http://www.w3.org/2001/XMLSchema#dateTime"
def xsdDate : String := "http://www.w3.org/2001/XMLSchema#date"

/-- Datatypes whose values are exact. -/
def exact : List String := [xsdInteger, xsdDecimal, xsdBoolean, xsdDate, xsdDateTime]

end Vocab

/-- Writing doubles and floats, each given by the bits of its double. -/
class FloatWriter where
  renderDouble : Nat → List Char
  renderFloat : Nat → List Char

/-- An inlined dateTime or date. -/
structure InlineDateTime where
  dateOnly : Bool
  /-- Seconds from the epoch, the timezone offset subtracted. -/
  seconds : Int
  millis : Nat
  /-- Timezone offset in quarter-hours. -/
  tzQuarters : Option Int
deriving DecidableEq, Repr

/-- A value carried in a payload. -/
inductive InlineValue where
  | integer (v : Int)
  /-- The number `unscaled · 10⁻ˢᶜᵃˡᵉ`. -/
  | decimal (unscaled : Int) (scale : Nat)
  | double (bits : Nat) (declaredFloat : Bool)
  | boolean (b : Bool)
  | dateTime (dt : InlineDateTime)
deriving DecidableEq, Repr

namespace InlineDateTime

/-- Seconds of the wall clock from the epoch. -/
def wall (dt : InlineDateTime) : Int := dt.seconds + dt.tzQuarters.getD 0 * 900

/-- The ranges of the payload fields; a date is a midnight of its wall clock. -/
def Fits (dt : InlineDateTime) : Prop :=
  (-2 ^ 40 ≤ dt.seconds ∧ dt.seconds < 2 ^ 40) ∧ dt.millis ≤ 999 ∧
    (-56 ≤ dt.tzQuarters.getD 0 ∧ dt.tzQuarters.getD 0 ≤ 56) ∧
    (dt.dateOnly = true → dt.millis = 0 ∧ dt.wall % 86400 = 0)

instance (dt : InlineDateTime) : Decidable dt.Fits := inferInstanceAs (Decidable (_ ∧ _ ∧ _ ∧ _))

def tzField : Option Int → Nat
  | some q => 2 ^ 58 + (q + 64).toNat * 2 ^ 51
  | none => 0

def payload (dt : InlineDateTime) : Nat :=
  dt.dateOnly.toNat * 2 ^ 59 + tzField dt.tzQuarters + dt.millis * 2 ^ 41 +
    (dt.seconds + 2 ^ 40).toNat

def ofPayload (payload : Nat) : InlineDateTime where
  dateOnly := decide (payload / 2 ^ 59 % 2 = 1)
  seconds := (payload % 2 ^ 41 : Nat) - 2 ^ 40
  millis := payload / 2 ^ 41 % 2 ^ 10
  tzQuarters :=
    if payload / 2 ^ 58 % 2 = 1 then some ((payload / 2 ^ 51 % 2 ^ 7 : Nat) - 64) else none

end InlineDateTime

/-- The id of a value that fits the payload ranges. -/
def InlineValue.inline : InlineValue → Option Col
  | .integer v => if -2 ^ 59 ≤ v ∧ v < 2 ^ 59 then some ⟨1, (v + 2 ^ 59).toNat⟩ else none
  | .decimal unscaled scale =>
      if -2 ^ 51 ≤ unscaled ∧ unscaled < 2 ^ 51 then
        some ⟨2, (unscaled + 2 ^ 51).toNat * 2 ^ 8 + scale⟩
      else none
  | .double bits declaredFloat =>
      if bits % 2 ^ 5 ≠ 0 then none
      else some ⟨3, declaredFloat.toNat * 2 ^ 59 + bits / 2 ^ 5⟩
  | .boolean b => some ⟨4, b.toNat⟩
  | .dateTime dt => if dt.Fits then some ⟨5, dt.payload⟩ else none

/-- The value an id carries. -/
def Col.decode (c : Col) : Option InlineValue :=
  let payload : Nat := c.payload % 2 ^ 60
  match c.tag with
  | 1 => some (.integer ((payload : Int) - 2 ^ 59))
  | 2 => some (.decimal ((payload / 2 ^ 8 : Nat) - 2 ^ 51) (payload % 2 ^ 8))
  | 3 => some (.double (payload % 2 ^ 59 * 2 ^ 5) (decide (payload / 2 ^ 59 % 2 = 1)))
  | 4 => some (.boolean (decide (payload % 2 = 1)))
  | 5 => some (.dateTime (.ofPayload payload))
  | _ => none

/-! ## Decimals and integers -/

def parseI64 (lex : List Char) : Option Int :=
  let (neg, digits) := splitSign lex
  if digits = [] ∨ digits.all isAsciiDigit = false then none
  else
    let magnitude : Int := Nat.ofDigitChars 10 digits 0
    let v := if neg then -magnitude else magnitude
    if -2 ^ 63 ≤ v ∧ v < 2 ^ 63 then some v else none

def renderInt (v : Int) : List Char :=
  (if v < 0 then ['-'] else []) ++ Nat.toDigits 10 v.natAbs

/-- Drop trailing fraction zeros, all but one fraction digit. -/
def stripZeros (unscaled : Int) : Nat → Int × Nat
  | scale + 2 =>
      if unscaled % 10 = 0 then stripZeros (unscaled / 10) (scale + 1) else (unscaled, scale + 2)
  | scale => (unscaled, scale)

/-- A decimal has at least one fraction digit. -/
def padScale (unscaled : Int) (scale : Nat) : Option (Int × Nat) :=
  if scale = 0 then (Int128.checked (unscaled * 10)).map fun u => (u, 1)
  else some (unscaled, scale)

/-- The value of a canonical unscaled number and scale that fit. -/
def decimalValue (n : Int × Nat) : Option InlineValue :=
  if 255 < n.2 ∨ ¬ (-2 ^ 51 ≤ n.1 ∧ n.1 < 2 ^ 51) then none else some (.decimal n.1 n.2)

/-- The decimal of a sign, an integer part and a fraction. -/
def decimalOf (neg : Bool) (intPart fracPart : List Char) : Option InlineValue :=
  if intPart = [] ∧ fracPart = [] then none
  else if (intPart ++ fracPart).all isAsciiDigit = false then none
  else do
    let magnitude ← accumulate (intPart ++ fracPart)
    let unscaled := if neg then -magnitude else magnitude
    let stripped := stripZeros unscaled (fracPart.length % 2 ^ 32)
    let padded ← padScale stripped.1 stripped.2
    decimalValue padded

def parseDecimal (lex : List Char) : Option InlineValue :=
  let signed := splitSign lex
  let parts := (splitOnce '.' signed.2).getD (signed.2, [])
  decimalOf signed.1 parts.1 parts.2

def renderDecimal (unscaled : Int) (scale : Nat) : List Char :=
  let sign := if unscaled < 0 then ['-'] else []
  let digits := Nat.toDigits 10 unscaled.natAbs
  if scale = 0 then sign ++ digits
  else
    let digits := padLeft (scale + 1) digits
    let point := digits.length - scale
    sign ++ digits.take point ++ '.' :: digits.drop point

/-! ## Doubles -/

/-- The exponent of a numeral, zero where none is written. -/
def parseExponent : List Char → Option Int
  | [] => some 0
  | c :: rest =>
      let (neg, digits) := splitSign rest
      if (c ≠ 'e' ∧ c ≠ 'E') ∨ digits = [] ∨ digits.all isAsciiDigit = false then none
      else
        let exponent : Int := Nat.ofDigitChars 10 digits 0
        some (if neg then -exponent else exponent)

/-- A numeral without a sign, as a whole number and a power of ten. -/
def parseNumeral (lex : List Char) : Option (Nat × Int) :=
  let int := lex.takeWhile isAsciiDigit
  let rest := lex.dropWhile isAsciiDigit
  let pointed := rest.head? = some '.'
  let frac := if pointed then rest.tail.takeWhile isAsciiDigit else []
  let rest := if pointed then rest.tail.dropWhile isAsciiDigit else rest
  if int = [] ∧ frac = [] then none
  else (parseExponent rest).map fun e => (Nat.ofDigitChars 10 (int ++ frac) 0, e - frac.length)

/-- A numeral, rounded to the nearest number of the format, or the name of what is no
finite number. -/
def parseMagnitude (f : Ieee.Format) (lex : List Char) : Option Nat :=
  match parseNumeral lex with
  | some (digits, e) => some (f.round (digits * 10 ^ e.toNat) (10 ^ (-e).toNat))
  | none =>
      let name := lex.map Char.toLower
      if name = "inf".toList ∨ name = "infinity".toList then some f.infinity
      else if name = "nan".toList then some f.nan
      else none

def parseFp (f : Ieee.Format) (lex : List Char) : Option Nat :=
  let (neg, rest) := splitSign lex
  (parseMagnitude f rest).map (f.signed neg)

def parseDouble (lex : List Char) : Option Nat := parseFp Ieee.double lex

/-- A float, as a double. -/
def parseFloat (lex : List Char) : Option Nat := (parseFp Ieee.single lex).map Ieee.widen

/-! ## Dates and times -/

def isLeapYear (y : Int) : Bool := decide (y % 4 = 0 ∧ (y % 100 ≠ 0 ∨ y % 400 = 0))

def daysInMonth (y : Int) (m : Nat) : Nat :=
  if m ∈ [1, 3, 5, 7, 8, 10, 12] then 31
  else if m ∈ [4, 6, 9, 11] then 30
  else if m = 2 then if isLeapYear y then 29 else 28
  else 0

/-- Days since 1970-01-01 in the proleptic Gregorian calendar. -/
def daysFromCivil (y : Int) (m d : Nat) : Int :=
  let y := if m ≤ 2 then y - 1 else y
  let era := y / 400
  let yoe := y % 400
  let mp : Int := if 2 < m then m - 3 else m + 9
  let doy := (153 * mp + 2) / 5 + d - 1
  let doe := yoe * 365 + yoe / 4 - yoe / 100 + doy
  era * 146097 + doe - 719468

/-- Inverse of `daysFromCivil`. -/
def civilFromDays (z : Int) : Int × Nat × Nat :=
  let z := z + 719468
  let era := z / 146097
  let doe := z % 146097
  let yoe := (doe - doe / 1460 + doe / 36524 - doe / 146096) / 365
  let doy := doe - (365 * yoe + yoe / 4 - yoe / 100)
  let mp := (5 * doy + 2) / 153
  let d := (doy - (153 * mp + 2) / 5 + 1).toNat
  let m := (if mp < 10 then mp + 3 else mp - 9).toNat
  let y := yoe + era * 400
  (if m ≤ 2 then y + 1 else y, m, d)

def twoDigits (a b : Char) : Nat := digitOf a * 10 + digitOf b

/-- Quarter-hours of an offset, or nothing outside fourteen hours or between quarters. -/
def tzOf (negative : Bool) (hh mm : Nat) : Option Int :=
  if 14 < hh ∨ (hh = 14 ∧ mm ≠ 0) ∨ 59 < mm ∨ mm % 15 ≠ 0 then none
  else
    let q : Int := hh * 4 + mm / 15
    some (if negative then -q else q)

/-- The signed offset `±hh:mm`. -/
def tzSuffix : List Char → Option (Bool × Nat × Nat)
  | [sign, a, b, ':', c, d] =>
      if (sign = '+' ∨ sign = '-') ∧ [a, b, c, d].all isAsciiDigit = true then
        some (decide (sign = '-'), twoDigits a b, twoDigits c d)
      else none
  | _ => none

/-- Split a trailing timezone off; nothing when one is there that quarter-hours do not
hold. -/
def splitTz (lex : List Char) : Option (List Char × Option Int) :=
  if lex.getLast? = some 'Z' then some (lex.dropLast, some 0)
  else
    match tzSuffix (lex.drop (lex.length - 6)) with
    | some (negative, hh, mm) =>
        (tzOf negative hh mm).map fun q => (lex.take (lex.length - 6), some q)
    | none => some (lex, none)

def stripMinus : List Char → Bool × List Char
  | '-' :: rest => (true, rest)
  | rest => (false, rest)

/-- The month and day of `-MM-DD`. -/
def monthDay : List Char → Option (Nat × Nat)
  | ['-', a, b, '-', c, d] =>
      if [a, b, c, d].all isAsciiDigit then some (twoDigits a b, twoDigits c d) else none
  | _ => none

def parseDateFields (s : List Char) : Option (Int × Nat × Nat) := do
  let (neg, s) := stripMinus s
  if s.length < 10 then none
  else
    let ystr := s.take (s.length - 6)
    let (m, d) ← monthDay (s.drop (s.length - 6))
    if ystr.length < 4 ∨ ystr.all isAsciiDigit = false then none
    else
      let y ← parseI64 ystr
      if 40000 < y then none
      else
        let y := if neg then -y else y
        if ¬ (1 ≤ m ∧ m ≤ 12) ∨ d < 1 ∨ daysInMonth y m < d then none
        else some (y, m, d)

/-- Milliseconds of a fraction of one to three digits. -/
def parseMillis : List Char → Option Nat
  | [] => some 0
  | '.' :: frac =>
      if frac = [] ∨ 3 < frac.length ∨ frac.all isAsciiDigit = false then none
      else some (Nat.ofDigitChars 10 frac 0 * 10 ^ (3 - frac.length))
  | _ => none

/-- Seconds of the day and milliseconds. -/
def parseTimeFields : List Char → Option (Int × Nat)
  | h1 :: h2 :: ':' :: m1 :: m2 :: ':' :: s1 :: s2 :: rest =>
      if [h1, h2, m1, m2, s1, s2].all isAsciiDigit = false then none
      else
        let h := twoDigits h1 h2
        let mi := twoDigits m1 m2
        let sec := twoDigits s1 s2
        if 23 < h ∨ 59 < mi ∨ 59 < sec then none
        else (parseMillis rest).map fun millis => ((h * 3600 + mi * 60 + sec : Nat), millis)
  | _ => none

/-- The date of the text before the time, and the time. -/
def splitTime (dateOnly : Bool) (body : List Char) : Option (List Char × Option (List Char)) :=
  if dateOnly then some (body, none) else (splitOnce 'T' body).map fun p => (p.1, some p.2)

def isAscii (c : Char) : Bool := decide (c.toNat < 128)

def parseDateTime (lex : List Char) (dateOnly : Bool) : Option InlineDateTime :=
  if lex.all isAscii = false then none
  else do
    let (body, tzQuarters) ← splitTz lex
    let (datePart, timePart) ← splitTime dateOnly body
    let (y, m, d) ← parseDateFields datePart
    let (sod, millis) ← (timePart.map parseTimeFields).getD (some (0, 0))
    let wall := daysFromCivil y m d * 86400 + sod
    let seconds := wall - tzQuarters.getD 0 * 900
    if ¬ (-2 ^ 40 ≤ seconds ∧ seconds < 2 ^ 40) then none
    else some { dateOnly, seconds, millis, tzQuarters }

def renderNumber (width n : Nat) : List Char := padLeft width (Nat.toDigits 10 n)

/-- The fraction without its trailing zeros. -/
def renderMillis (millis : Nat) : List Char :=
  if 0 < millis then '.' :: ((renderNumber 3 millis).reverse.dropWhile (· == '0')).reverse else []

def renderTz : Option Int → List Char
  | none => []
  | some q =>
      if q = 0 then ['Z']
      else
        (if q < 0 then '-' else '+') :: renderNumber 2 (q.natAbs / 4) ++
          ':' :: renderNumber 2 (q.natAbs % 4 * 15)

def renderDate (y : Int) (m d : Nat) : List Char :=
  (if y < 0 then ['-'] else []) ++
    (if y.natAbs < 10000 then renderNumber 4 y.natAbs else Nat.toDigits 10 y.natAbs) ++
    '-' :: renderNumber 2 m ++ '-' :: renderNumber 2 d

def renderTime (sod millis : Nat) : List Char :=
  'T' :: renderNumber 2 (sod / 3600) ++ ':' :: renderNumber 2 (sod / 60 % 60) ++
    ':' :: renderNumber 2 (sod % 60) ++ renderMillis millis

def renderDateTime (dt : InlineDateTime) : List Char :=
  let civil := civilFromDays (dt.wall / 86400)
  let sod := (dt.wall % 86400).toNat
  renderDate civil.1 civil.2.1 civil.2.2 ++
    (if dt.dateOnly then [] else renderTime sod dt.millis) ++ renderTz dt.tzQuarters

/-! ## Spellings -/

section Spellings

variable [FloatWriter]

namespace InlineValue

/-- The spelling of the canonical writer. -/
def canonicalLexical : InlineValue → List Char
  | .integer v => renderInt v
  | .decimal unscaled scale => renderDecimal unscaled scale
  | .double bits false => FloatWriter.renderDouble bits
  | .double bits true => FloatWriter.renderFloat bits
  | .boolean b => if b then "true".toList else "false".toList
  | .dateTime dt => renderDateTime dt

/-- The payload ranges. -/
def InRange : InlineValue → Prop
  | .integer v => -2 ^ 59 ≤ v ∧ v < 2 ^ 59
  | .decimal unscaled scale => (-2 ^ 51 ≤ unscaled ∧ unscaled < 2 ^ 51) ∧ scale ≤ 255
  | .double bits _ => bits < 2 ^ 64 ∧ bits % 2 ^ 5 = 0
  | .boolean _ => True
  | .dateTime dt => dt.Fits

/-- Canonical decimals have a fraction digit and none to strip. -/
def Canonical : InlineValue → Prop
  | .decimal unscaled scale => 1 ≤ scale ∧ (scale = 1 ∨ unscaled % 10 ≠ 0)
  | _ => True

def datatypeIri : InlineValue → String
  | .integer _ => Vocab.xsdInteger
  | .decimal .. => Vocab.xsdDecimal
  | .double _ false => Vocab.xsdDouble
  | .double _ true => Vocab.xsdFloat
  | .boolean _ => Vocab.xsdBoolean
  | .dateTime dt => if dt.dateOnly then Vocab.xsdDate else Vocab.xsdDateTime

end InlineValue

def parseBoolean (lex : List Char) : Option Bool :=
  if lex = "true".toList then some true
  else if lex = "false".toList then some false
  else none

/-- The value of a spelling of a recognised datatype. -/
def parseInline (lex : List Char) (datatype : String) : Option InlineValue :=
  if datatype = Vocab.xsdInteger then (parseI64 lex).map .integer
  else if datatype = Vocab.xsdDecimal then parseDecimal lex
  else if datatype = Vocab.xsdDouble then (parseDouble lex).map (.double · false)
  else if datatype = Vocab.xsdFloat then (parseFloat lex).map (.double · true)
  else if datatype = Vocab.xsdBoolean then (parseBoolean lex).map .boolean
  else if datatype = Vocab.xsdDateTime then (parseDateTime lex false).map .dateTime
  else if datatype = Vocab.xsdDate then (parseDateTime lex true).map .dateTime
  else none

/-- The id of a canonical spelling that fits, or nothing: the dictionary then holds the
term. -/
def Col.tryInline (lex : List Char) (datatype : String) : Option Col :=
  match parseInline lex datatype with
  | none => none
  | some value => if value.canonicalLexical ≠ lex then none else value.inline

end Spellings

end Graphy
