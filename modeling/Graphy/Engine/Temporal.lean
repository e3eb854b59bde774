import Graphy.Engine.Decimal

/-!
# Dates and times of the engine

A date or a date with a time is a day number, a second of the day and the offset it
was written with, if any.  Comparison moves both by their offsets and back into a
day, and orders them by day and second; one without an offset is taken at the two
ends of the offsets it may have.
-/

namespace Graphy

/-- Why reading a date panics. -/
inductive TemporalPanic where
  | arithmetic (panic : Panic)
  /-- A slice ends inside a character. -/
  | boundary
deriving DecidableEq, Repr

structure Temporal where
  day : Int
  second : Dec
  offsetMinutes : Option Int
deriving DecidableEq, Repr

namespace Temporal

/-! ## Integers of 64 bits -/

def Fits64 (x : Int) : Prop := -2 ^ 63 ≤ x ∧ x < 2 ^ 63

instance (x : Int) : Decidable (Fits64 x) := inferInstanceAs (Decidable (_ ∧ _))

/-- The result of a checked operation. -/
def checked64 (x : Int) : Option Int := if Fits64 x then some x else none

/-- The result of an operation that panics on overflow. -/
def plain64 (x : Int) : Except Panic Int := if Fits64 x then .ok x else .error .overflow

/-! ## Reading -/

/-- Split at a byte offset. -/
def cutBytes : Nat → List Char → Except TemporalPanic (List Char × List Char)
  | 0, s => .ok ([], s)
  | _ + 1, [] => .error .boundary
  | n + 1, c :: s =>
      if c.utf8Size ≤ n + 1 then (cutBytes (n + 1 - c.utf8Size) s).map fun r => (c :: r.1, r.2)
      else .error .boundary

/-- Sign, hours and minutes of a six-byte suffix `±..:..`; the fourth byte is a colon only as a
character of its own. -/
def zoneTexts : List Char → Option (Bool × List Char × List Char)
  | sign :: rest =>
      if sign = '+' ∨ sign = '-' then
        match cutBytes 2 rest with
        | .ok (hh, ':' :: mm) => some (decide (sign = '-'), hh, mm)
        | _ => none
      else none
  | [] => none

/-- Minutes of an offset of at most fourteen hours.  The numbers may have signs of their own. -/
def offsetOf (negative : Bool) (hh mm : List Char) : Option Int := do
  let h ← parseI64 hh
  let m ← parseI64 mm
  if 14 < h ∨ 59 < m ∨ (h = 14 ∧ m ≠ 0) then none
  else return (if negative then -1 else 1) * (h * 60 + m)

/-- Split a trailing time zone off. -/
def splitZone (lex : List Char) : Except TemporalPanic (Option (List Char × Option Int)) :=
  if lex.getLast? = some 'Z' then .ok (some (lex.dropLast, some 0))
  else if 6 ≤ utf8Len lex then
    (cutBytes (utf8Len lex - 6) lex).map fun parts =>
      match zoneTexts parts.2 with
      | some (negative, hh, mm) =>
          (offsetOf negative hh mm).map fun offset => (parts.1, some offset)
      | none => some (lex, none)
  else .ok (some (lex, none))

/-- The texts between the separators of a form. -/
structure Texts where
  negative : Bool
  year : List Char
  month : List Char
  day : List Char
  /-- Hour, minute and second. -/
  time : Option (List Char × List Char × List Char)
deriving DecidableEq, Repr

/-- Exactly three parts. -/
def threeParts (separator : Char) (s : List Char) : Option (List Char × List Char × List Char) :=
  match splitAll separator s with
  | [a, b, c] => some (a, b, c)
  | _ => none

/-- Date and time, if any. -/
def splitTime (body : List Char) : List Char × Option (List Char) :=
  match splitOnce 'T' body with
  | some (date, time) => (date, some time)
  | none => (body, none)

def timeTexts : Option (List Char) → Option (Option (List Char × List Char × List Char))
  | none => some none
  | some time => (threeParts ':' time).map some

def texts (body : List Char) : Option Texts := do
  let date := stripMinus (splitTime body).1
  let ymd ← threeParts '-' date.2
  let time ← timeTexts (splitTime body).2
  return ⟨date.1, ymd.1, ymd.2.1, ymd.2.2, time⟩

def maxDay (year month : Int) : Int :=
  if month = 2 then if isLeapYear year then 29 else 28
  else if month ∈ [4, 6, 9, 11] then 30
  else 31

/-- Year, month and day in the ranges of the calendar; there is no year zero. -/
def civil (t : Texts) : Option (Int × Int × Int) := do
  let year ← parseI64 t.year
  let month ← parseI64 t.month
  let day ← parseI64 t.day
  if year = 0 ∨ ¬ (1 ≤ month ∧ month ≤ 12) then none
  else
    let year := if t.negative then -year else year
    if 1 ≤ day ∧ day ≤ maxDay year month then return (year, month, day) else none

/-- Days since 0000-03-01. -/
def daysFromCivil (year month day : Int) : Except Panic Int := do
  let year ← plain64 (year - if month ≤ 2 then 1 else 0)
  let era := year / 400
  let yoe := year % 400
  let mp := month + if 2 < month then -3 else 9
  let doy := (153 * mp + 2) / 5 + day - 1
  let eras ← plain64 (era * 146097)
  let years ← plain64 (eras + (365 * yoe + yoe / 4 - yoe / 100))
  plain64 (years + doy)

section Clock

variable [Ieee.PowersOfTen]

/-- The second of the day; 24:00:00 is its end. -/
def clock (hh mm ss : List Char) : Option Dec := do
  let hour ← parseI64 hh
  let minute ← parseI64 mm
  let sec ← Dec.parse ss
  if ¬ (0 ≤ hour ∧ hour ≤ 24) ∨ ¬ (0 ≤ minute ∧ minute ≤ 59) ∨
      Dec.compare sec (Dec.fromInt 0) = .lt ∨ Dec.compare sec (Dec.fromInt 60) ≠ .lt ∨
      (hour = 24 ∧ (minute ≠ 0 ∨ sec.unscaled ≠ 0)) then none
  else Dec.checkedAdd (Dec.fromInt (hour * 3600 + minute * 60)) sec

def secondOf : Option (List Char × List Char × List Char) → Option Dec
  | none => some (Dec.fromInt 0)
  | some (hh, mm, ss) => clock hh mm ss

/-- The date and the second of the day. -/
def fields (body : List Char) : Option ((Int × Int × Int) × Dec) := do
  let t ← texts body
  let date ← civil t
  let second ← secondOf t.time
  return (date, second)

def parseTemporal (lex : List Char) : Except TemporalPanic (Option Temporal) := do
  match ← splitZone lex with
  | none => .ok none
  | some (body, offset) =>
      match fields body with
      | none => .ok none
      | some (date, second) =>
          match daysFromCivil date.1 date.2.1 date.2.2 with
          | .ok day => .ok (some ⟨day, second, offset⟩)
          | .error panic => .error (.arithmetic panic)

/-! ## Comparing -/

omit [Ieee.PowersOfTen] in
/-- Day and second after whole days were taken from a second count. -/
def carried (day : Int) (shifted : Dec) (dayDelta : Int) : Option (Int × Dec) := do
  let back ← Int128.checked (dayDelta * 86400)
  let within ← Dec.checkedSub shifted (Dec.fromI128 back)
  let delta ← checked64 dayDelta
  let day ← checked64 (day + delta)
  return (day, within)

omit [Ieee.PowersOfTen] in
/-- Day and second on the UTC timeline, with an offset to assume where none was written. -/
def normalize (t : Temporal) (assumed : Int) : OptionT (Except Panic) (Int × Dec) := do
  let seconds ← OptionT.mk (.ok (checked64 (t.offsetMinutes.getD assumed * 60)))
  let shifted ← OptionT.mk (.ok (Dec.checkedSub t.second (Dec.fromInt seconds)))
  let whole ← OptionT.lift shifted.trunc
  OptionT.mk (.ok (carried t.day shifted (whole / 86400)))

/-- By day, then by second. -/
def order (x y : Int × Dec) : Ordering := (cmp x.1 y.1).then (Dec.compare x.2 y.2)

/-- Only what lies outside the whole interval is ordered. -/
def outside (before after : Ordering) : Option Ordering :=
  if before = .lt then some .lt else if after = .gt then some .gt else none

def compare (a b : Temporal) : OptionT (Except Panic) Ordering :=
  match a.offsetMinutes, b.offsetMinutes with
  | some _, none => do
      let av ← normalize a 0
      let earliest ← normalize b (14 * 60)
      let latest ← normalize b (-14 * 60)
      OptionT.mk (.ok (outside (order av earliest) (order av latest)))
  | none, some _ => do
      let bv ← normalize b 0
      let earliest ← normalize a (14 * 60)
      let latest ← normalize a (-14 * 60)
      OptionT.mk (.ok (outside (order latest bv) (order earliest bv)))
  | _, _ => do
      let av ← normalize a 0
      let bv ← normalize b 0
      return order av bv

def temporalCmp (x y : List Char) : Except TemporalPanic (Option Ordering) := do
  match ← parseTemporal x with
  | none => .ok none
  | some a =>
      match ← parseTemporal y with
      | none => .ok none
      | some b =>
          match (compare a b).run with
          | .ok result => .ok result
          | .error panic => .error (.arithmetic panic)

end Clock

end Temporal

end Graphy
