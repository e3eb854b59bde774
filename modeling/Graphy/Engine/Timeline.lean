import Graphy.Engine.Temporal

/-!
# The timeline

What a date or time says, as a rational count of seconds in the proleptic Gregorian
calendar, and what comparing two of them should answer.
-/

namespace Graphy.Temporal

/-! ## The calendar -/

/-- Days from the first day of year 1 to the first day of a year. -/
def daysBeforeYear (year : Int) : Int :=
  365 * (year - 1) + (year - 1) / 4 - (year - 1) / 100 + (year - 1) / 400

/-- Days of a year before a month. -/
def daysBeforeMonth (year month : Int) : Int :=
  ((List.range (month - 1).toNat).map fun i => maxDay year (i + 1)).sum

/-- The first of January of year 1 is day 1. -/
def dayNumber (year month day : Int) : Int :=
  daysBeforeYear year + daysBeforeMonth year month + day

/-! ## Readings -/

/-- What a form says. -/
structure Reading where
  year : Int
  month : Int
  day : Int
  hour : Int
  minute : Int
  second : ℚ
  /-- Minutes, where a time zone is written. -/
  offset : Option Int

namespace Reading

/-- Seconds on the UTC timeline, with an offset to assume where none is written. -/
def instant (r : Reading) (assumed : Int) : ℚ :=
  86400 * dayNumber r.year r.month r.day + (3600 * r.hour + 60 * r.minute + r.second) -
    60 * r.offset.getD assumed

end Reading

/-- The number a decimal numeral spells. -/
def decimalText (lex : List Char) : ℚ :=
  let signed := splitSign lex
  let parts := (splitOnce '.' signed.2).getD (signed.2, [])
  (if signed.1 then -1 else 1) * Nat.ofDigitChars 10 (parts.1 ++ parts.2) 0 / 10 ^ parts.2.length

/-- The fraction has fewer digits than a 32-bit scale counts. -/
def ShortFraction (lex : List Char) : Prop :=
  ((splitOnce '.' (splitSign lex).2).getD ((splitSign lex).2, [])).2.length < 2 ^ 32

/-- Hour, minute and second. -/
def readTime : Option (List Char × List Char × List Char) → Option (Int × Int × ℚ)
  | none => some (0, 0, 0)
  | some (hh, mm, ss) => do
      let hour ← parseI64 hh
      let minute ← parseI64 mm
      return (hour, minute, decimalText ss)

def Texts.reading (t : Texts) (offset : Option Int) : Option Reading := do
  let year ← parseI64 t.year
  let month ← parseI64 t.month
  let day ← parseI64 t.day
  let time ← readTime t.time
  return ⟨if t.negative then -year else year, month, day, time.1, time.2.1, time.2.2, offset⟩

/-- The texts and the offset of a form. -/
def formTexts (lex : List Char) : Option (Texts × Option Int) :=
  match splitZone lex with
  | .ok (some (body, offset)) => (texts body).map fun t => (t, offset)
  | _ => none

/-- What a form says. -/
def reading (lex : List Char) : Option Reading :=
  (formTexts lex).bind fun t => t.1.reading t.2

/-- A form whose seconds have a short fraction. -/
def Short (lex : List Char) : Prop :=
  ∀ t ∈ formTexts lex, ∀ time ∈ t.1.time, ShortFraction time.2.2

/-! ## Comparison along the timeline -/

/-- What comparing two readings answers when it follows the timeline: the order of the instants
where both or neither have an offset; else an order that holds for every offset of at most fourteen
hours, and nothing where there is none. -/
structure FollowsTimeline (r s : Reading) (result : Option Ordering) : Prop where
  alike : r.offset.isSome = s.offset.isSome → result = some (cmp (r.instant 0) (s.instant 0))
  less : r.offset.isSome ≠ s.offset.isSome → (result = some .lt ↔
    ∀ o, -(14 * 60) ≤ o → o ≤ 14 * 60 → r.instant o < s.instant o)
  greater : r.offset.isSome ≠ s.offset.isSome → (result = some .gt ↔
    ∀ o, -(14 * 60) ≤ o → o ≤ 14 * 60 → s.instant o < r.instant o)
  nothing : r.offset.isSome ≠ s.offset.isSome → result ≠ some .eq

/-! ## When the comparison follows it -/

/-- The offset is taken where none was written. -/
def zoned (t : Temporal) (assumed : Int) : Temporal :=
  { t with offsetMinutes := some (t.offsetMinutes.getD assumed) }

/-- Seconds on the UTC timeline. -/
def instant (t : Temporal) : ℚ :=
  86400 * t.day + t.second.value - 60 * t.offsetMinutes.getD 0

/-- The coefficient of the second after the offset was taken. -/
def shifted (t : Temporal) : Int :=
  t.second.unscaled - t.offsetMinutes.getD 0 * 60 * 10 ^ t.second.scale

/-- The days that the offset moves. -/
def carry (t : Temporal) : Int := (shifted t).tdiv (10 ^ t.second.scale) / 86400

/-- The second of the day on the UTC timeline. -/
def within (t : Temporal) : Dec :=
  ⟨shifted t - carry t * 86400 * 10 ^ t.second.scale, t.second.scale⟩

/-- Moving by the offset and back into a day stays within 128 bits, and the day within 64. -/
structure Moves (t : Temporal) : Prop where
  offset : Int128.Fits (t.offsetMinutes.getD 0 * 60 * 10 ^ t.second.scale)
  second : Int128.Fits (shifted t)
  back : Int128.Fits (carry t * 86400 * 10 ^ t.second.scale)
  day : Fits64 (t.day + carry t)

/-- The offset moves the time into the last second before its own date. -/
def Late (t : Temporal) : Prop := 86400 * (t.day : ℚ) - 1 < instant t ∧ instant t < 86400 * t.day

/-- A late time, and one on or after it in what is left of that second. -/
structure Overtakes (s t : Temporal) : Prop where
  late : Late s
  other : ¬ Late t
  after : instant s ≤ instant t
  before : instant t < 86400 * s.day

/-- Seconds of one day that no common scale holds. -/
structure Unaligned (s t : Temporal) : Prop where
  day : s.day + carry s = t.day + carry t
  seconds : ¬ Dec.CommonScale (within s) (within t)

section Tells

variable [Ieee.PowersOfTen]

/-- Whether the first is before the second comes out right. -/
structure TellsBefore (s t : Temporal) : Prop where
  overtaken : Overtakes s t → instant s = instant t
  overtaking : ¬ Overtakes t s
  doubles : Unaligned s t →
    (Ieee.double.partialCmp (within s).toF64 (within t).toF64 = some .lt ↔
      Dec.farOrder (within s) (within t) = .lt)

/-- Whether the first is after the second comes out right. -/
structure TellsAfter (s t : Temporal) : Prop where
  overtaken : ¬ Overtakes s t
  overtaking : Overtakes t s → instant s = instant t
  doubles : Unaligned s t →
    (Ieee.double.partialCmp (within s).toF64 (within t).toF64 = some .gt ↔
      Dec.farOrder (within s) (within t) = .gt)

/-- The comparison of two times with offsets comes out right. -/
structure Told (s t : Temporal) : Prop where
  moves : Moves s ∧ Moves t
  before : TellsBefore s t
  after : TellsAfter s t

/-- The comparison of the first with the interval of the second comes out right: its ends are
told, or one of them cannot be computed and no order is due. -/
def ToldLeft (s t : Temporal) : Prop :=
  let earliest := zoned t (14 * 60)
  let latest := zoned t (-14 * 60)
  (Moves s ∧ Moves earliest ∧ Moves latest) ∧ TellsBefore s earliest ∧ TellsAfter s latest ∨
    ¬ (Moves s ∧ Moves earliest ∧ Moves latest) ∧
      instant earliest ≤ instant s ∧ instant s ≤ instant latest

/-- The comparison of the interval of the first with the second comes out right. -/
def ToldRight (s t : Temporal) : Prop :=
  let earliest := zoned s (14 * 60)
  let latest := zoned s (-14 * 60)
  (Moves t ∧ Moves earliest ∧ Moves latest) ∧ TellsBefore latest t ∧ TellsAfter earliest t ∨
    ¬ (Moves t ∧ Moves earliest ∧ Moves latest) ∧
      instant earliest ≤ instant t ∧ instant t ≤ instant latest

/-- The comparison of two times follows the timeline. -/
def Discerned (s t : Temporal) : Prop :=
  match s.offsetMinutes, t.offsetMinutes with
  | some _, none => ToldLeft s t
  | none, some _ => ToldRight s t
  | _, _ => Told (zoned s 0) (zoned t 0)

end Tells

end Graphy.Temporal
