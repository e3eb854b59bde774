import Graphy.Engine.Proofs.Decimal
import Graphy.Engine.Timeline
import Mathlib.Tactic.IntervalCases

/-!
# What reading and moving a time computes

An accepted form has a day of the calendar, a second of that day and an offset of at
most fourteen hours.  Moving it by the offset is exact where it fits.
-/

namespace Graphy.Dec

open Temporal

/-! ## Decimals and integers -/

theorem digits_of_foldlM {s : List Char} {v w : Int} (h : s.foldlM parseDigit v = some w) :
    s.all isAsciiDigit = true := by
  induction s generalizing v with
  | nil => rfl
  | cons c s ih =>
      rw [List.foldlM_cons] at h
      obtain ⟨u, one, rest⟩ := Option.bind_eq_some_iff.mp h
      unfold parseDigit at one
      split at one
      · next digit => rw [List.all_cons, digit, ih rest, Bool.true_and]
      · cases one

/-- A short numeral is read as the number it spells. -/
theorem parse_value {lex : List Char} {d : Dec} (h : parse lex = some d)
    (short : ShortFraction lex) : d.value = decimalText lex := by
  unfold parse at h
  split at h
  · cases h
  · obtain ⟨neg, rest, signed⟩ : ∃ neg rest, splitSign lex = (neg, rest) := ⟨_, _, rfl⟩
    obtain ⟨int, frac, parts⟩ :
        ∃ int frac, (splitOnce '.' rest).getD (rest, []) = (int, frac) := ⟨_, _, rfl⟩
    simp only [signed, parts] at h
    split at h
    · cases h
    · obtain ⟨m, read, rfl⟩ := Option.map_eq_some_iff.mp h
      have digits := digits_of_foldlM read
      rw [foldlM_parseDigit digits] at read
      obtain ⟨rfl, -⟩ := Int128.checked_eq_some.mp ((accumulate_eq _).symm.trans read)
      simp only [ShortFraction, signed, parts] at short
      rw [normal_value, value, Scaled.value, Nat.mod_eq_of_lt short]
      simp only [decimalText, signed, parts]
      split <;> push_cast <;> ring

theorem strip_scale_le (u : Int) (s : Nat) : (strip u s).scale ≤ s := by
  induction s generalizing u with
  | zero => exact le_rfl
  | succ s ih =>
      rw [strip]
      split
      · exact (ih _).trans (Nat.le_succ s)
      · exact le_rfl

variable {d : Dec}

/-- A decimal beside an integer keeps its coefficient. -/
theorem aligned_whole (w : d.Wf) (small : d.scale ≤ 38) (n : Int) :
    aligned d (fromInt n) =
      if Int128.Fits (n * 10 ^ d.scale) then some (d.unscaled, n * 10 ^ d.scale, d.scale)
      else none := by
  simp only [aligned, fromInt, Nat.max_zero, Nat.sub_self, Nat.sub_zero, pow10_eq, Nat.zero_le,
    if_true, if_pos small, pow_zero, mul_one, bind, pure, Option.bind_some,
    Int128.checked_of_fits w.fits]
  unfold Int128.checked
  split <;> rfl

/-- A decimal and an integer meet at the scale of the decimal. -/
theorem commonScale_whole (w : d.Wf) (small : d.scale ≤ 38) {n : Int}
    (fits : Int128.Fits (n * 10 ^ d.scale)) : CommonScale d (fromInt n) := by
  refine ⟨⟨small, by simp [fromInt]⟩, ?_, fits⟩
  rw [fromInt, Nat.zero_sub, pow_zero, mul_one]
  exact w.fits

/-- What is left of a decimal when an integer is taken away. -/
theorem Wf.sub_whole (w : d.Wf) {n : Int} (fits : Int128.Fits (d.unscaled - n * 10 ^ d.scale)) :
    Wf ⟨d.unscaled - n * 10 ^ d.scale, d.scale⟩ := by
  refine ⟨fits, w.scale, ?_⟩
  rcases w.normal with whole | kept
  · exact .inl whole
  · rcases Nat.eq_zero_or_pos d.scale with whole | positive
    · exact .inl whole
    · obtain ⟨k, succ⟩ : ∃ k, d.scale = k + 1 := ⟨d.scale - 1, by omega⟩
      have ten : n * 10 ^ d.scale = 10 * (n * 10 ^ k) := by
        rw [succ, pow_succ]
        ring
      right
      show (d.unscaled - n * 10 ^ d.scale) % 10 ≠ 0
      rw [ten]
      omega

/-- Taking an integer away leaves the fraction. -/
theorem checkedSub_whole (w : d.Wf) (small : d.scale ≤ 38) (n : Int) :
    checkedSub d (fromInt n) =
      if Int128.Fits (n * 10 ^ d.scale) ∧ Int128.Fits (d.unscaled - n * 10 ^ d.scale) then
        some ⟨d.unscaled - n * 10 ^ d.scale, d.scale⟩
      else none := by
  rw [checkedSub, aligned_whole w small]
  by_cases fits : Int128.Fits (n * 10 ^ d.scale)
  · rw [if_pos fits]
    simp only [bind, pure, Option.bind_some]
    by_cases difference : Int128.Fits (d.unscaled - n * 10 ^ d.scale)
    · rw [Int128.checked_of_fits difference, if_pos ⟨fits, difference⟩]
      exact congrArg some (w.sub_whole difference).normal_eq
    · rw [Int128.checked_eq_none.mpr difference, if_neg (difference ·.2)]
      rfl
  · rw [if_neg fits, if_neg (fits ·.1)]
    rfl

/-- A sum with an integer has at most 38 fraction digits. -/
theorem scale_of_checkedAdd {n : Int} {a : Dec} (run : checkedAdd (fromInt n) a = some d) :
    a.scale ≤ 38 ∧ d.scale ≤ 38 := by
  simp only [checkedAdd, bind, pure, Option.bind_eq_some_iff, Option.some.injEq] at run
  obtain ⟨⟨ax, bx, s⟩, align, sum, -, rfl⟩ := run
  have same : s = a.scale := by
    rw [(aligned_spec align).1]
    exact Nat.zero_max ..
  simp only [aligned, bind, fromInt, Nat.zero_max, Nat.sub_zero, pow10_eq,
    Option.bind_eq_some_iff] at align
  obtain ⟨pa, power, -⟩ := align
  have small : a.scale ≤ 38 := by
    by_contra large
    rw [if_neg large] at power
    cases power
  refine ⟨small, (strip_scale_le sum s).trans ?_⟩
  rwa [same]

end Graphy.Dec

namespace Graphy.Temporal

/-! ## The calendar -/

/-- A year in its century and leap period. -/
theorem exists_cycle (year : Int) : ∃ a c k j, year = 400 * a + 100 * c + 4 * k + j ∧
    (0 ≤ c ∧ c ≤ 3) ∧ (0 ≤ k ∧ k ≤ 24) ∧ 0 ≤ j ∧ j ≤ 3 :=
  ⟨year / 400, year % 400 / 100, year % 100 / 4, year % 4, by omega, by omega, by omega, by omega⟩

/-- A year has 365 days, a leap year one more. -/
theorem daysBeforeYear_succ (year : Int) :
    daysBeforeYear (year + 1) = daysBeforeYear year + if isLeapYear year then 366 else 365 := by
  obtain ⟨a, c, k, j, sum, century, period, place⟩ := exists_cycle year
  unfold daysBeforeYear isLeapYear
  by_cases leap : year % 4 = 0 ∧ (year % 100 ≠ 0 ∨ year % 400 = 0)
  · rw [decide_eq_true leap, if_pos rfl]
    omega
  · rw [decide_eq_false leap, if_neg Bool.false_ne_true]
    omega

/-- Months counted from March have 153 days in five. -/
theorem daysBeforeMonth_eq (year : Int) {month : Int} (low : 1 ≤ month) (high : month ≤ 12) :
    daysBeforeMonth year month =
      if month ≤ 2 then 31 * (month - 1)
      else (if isLeapYear year then 60 else 59) + (153 * (month - 3) + 2) / 5 := by
  unfold daysBeforeMonth
  cases leap : isLeapYear year <;> interval_cases month <;>
    simp [List.range_succ, maxDay, leap]

theorem plain64_eq_ok {x y : Int} : plain64 x = .ok y ↔ x = y ∧ Fits64 x := by
  unfold plain64
  split <;> simp [*]

/-- The days of a date in the year counted from March. -/
def marchDays (year month day : Int) : Int :=
  year / 400 * 146097 + (365 * (year % 400) + year % 400 / 4 - year % 400 / 100) +
    ((153 * (month + if 2 < month then -3 else 9) + 2) / 5 + day - 1)

theorem daysFromCivil_eq {year month day n : Int} (run : daysFromCivil year month day = .ok n) :
    n = marchDays (year - if month ≤ 2 then 1 else 0) month day := by
  unfold daysFromCivil at run
  obtain ⟨y, first, run⟩ := bind_ok run
  obtain ⟨rfl, -⟩ := plain64_eq_ok.mp first
  obtain ⟨eras, second, run⟩ := bind_ok run
  obtain ⟨rfl, -⟩ := plain64_eq_ok.mp second
  obtain ⟨years, third, run⟩ := bind_ok run
  obtain ⟨rfl, -⟩ := plain64_eq_ok.mp third
  exact (plain64_eq_ok.mp run).1.symm
where
  bind_ok {α β : Type} {x : Except Panic α} {f : α → Except Panic β} {b : β}
      (h : x >>= f = .ok b) : ∃ a, x = .ok a ∧ f a = .ok b := by
    cases x with
    | ok a => exact ⟨a, rfl, h⟩
    | error e => cases h

/-- The code's days are those of the calendar, counted from another day. -/
theorem daysFromCivil_spec {year month day n : Int} (low : 1 ≤ month) (high : month ≤ 12)
    (run : daysFromCivil year month day = .ok n) : n = dayNumber year month day + 305 := by
  rw [daysFromCivil_eq run, dayNumber, daysBeforeMonth_eq year low high]
  by_cases early : month ≤ 2
  · obtain ⟨a, c, k, j, sum, century, period, place⟩ := exists_cycle (year - 1)
    simp only [marchDays, daysBeforeYear, if_pos early, if_neg (show ¬ 2 < month by omega)]
    have january : month = 1 ∨ month = 2 := by omega
    rcases january with rfl | rfl <;> omega
  · obtain ⟨a, c, k, j, sum, century, period, place⟩ := exists_cycle year
    have succ := daysBeforeYear_succ year
    simp only [marchDays, if_neg early, if_pos (show 2 < month by omega), sub_zero]
    have months : month + -3 = month - 3 := rfl
    rw [months]
    have whole : daysBeforeYear (year + 1) =
        year / 400 * 146097 + (365 * (year % 400) + year % 400 / 4 - year % 400 / 100) := by
      unfold daysBeforeYear
      omega
    cases leap : isLeapYear year
    · simp only [leap, Bool.false_eq_true, if_false] at succ ⊢
      omega
    · simp only [leap, if_true] at succ ⊢
      omega

/-! ## Reading -/

/-- A second of a day, or its end. -/
structure IsClock (d : Dec) : Prop where
  wf : d.Wf
  scale : d.scale ≤ 38
  low : 0 ≤ d.value
  high : d.value ≤ 86400

theorem value_fromInt (i : Int) : (Dec.fromInt i).value = i := Scaled.value_zero i

section Clock

variable [Ieee.PowersOfTen]

/-- The seconds of a minute; what cannot be aligned with sixty is below it. -/
theorem sixty_of_compare {d : Dec} (w : d.Wf) (small : d.scale ≤ 38)
    (low : Dec.compare d (Dec.fromInt 0) ≠ .lt) (high : Dec.compare d (Dec.fromInt 60) = .lt) :
    0 ≤ d.value ∧ d.value < 60 := by
  constructor
  · have common : Dec.CommonScale d (Dec.fromInt 0) := by
      refine Dec.commonScale_whole w small ?_
      rw [zero_mul]
      exact Int128.fits_zero
    rw [Dec.compare_of_commonScale common, value_fromInt, Int.cast_zero] at low
    exact not_lt.mp fun less => low less.cmp_eq_lt
  · by_cases fits : Int128.Fits (60 * 10 ^ d.scale)
    · have common := Dec.commonScale_whole w small fits
      rw [Dec.compare_of_commonScale common, value_fromInt] at high
      exact_mod_cast (cmp_eq_lt_iff _ _).mp high
    · have power : (0 : Int) < 10 ^ d.scale := by positivity
      have large : d.unscaled < 60 * 10 ^ d.scale := by
        have top := w.fits.2
        unfold Int128.Fits Int128.minimum at fits
        omega
      rw [Dec.value, Scaled.value, div_lt_iff₀ (by positivity)]
      exact_mod_cast large

theorem clock_spec {hh mm ss : List Char} {d : Dec} (run : clock hh mm ss = some d) :
    ∃ hour minute sec, parseI64 hh = some hour ∧ parseI64 mm = some minute ∧
      Dec.parse ss = some sec ∧ d.value = 3600 * hour + 60 * minute + sec.value ∧ IsClock d := by
  simp only [clock, bind, Option.bind_eq_some_iff] at run
  obtain ⟨hour, hours, minute, minutes, sec, seconds, run⟩ := run
  split at run
  · cases run
  · rename_i accepted
    simp only [not_or, not_not] at accepted
    obtain ⟨hourRange, minuteRange, low, high, midnight⟩ := accepted
    have w : sec.Wf := Dec.parse_wf seconds
    obtain ⟨small, scale⟩ := Dec.scale_of_checkedAdd run
    obtain ⟨nonneg, below⟩ := sixty_of_compare w small low high
    obtain ⟨sum, wf⟩ := Dec.checkedAdd_spec run
    rw [value_fromInt] at sum
    push_cast at sum
    have hourLow : (0 : ℚ) ≤ hour := by exact_mod_cast hourRange.1
    have minuteLow : (0 : ℚ) ≤ minute := by exact_mod_cast minuteRange.1
    have minuteHigh : (minute : ℚ) ≤ 59 := by exact_mod_cast minuteRange.2
    have bound : hour * 3600 + minute * 60 + sec.value ≤ (86400 : ℚ) := by
      by_cases last : hour = 24
      · obtain ⟨noMinute, noSecond⟩ : minute = 0 ∧ sec.unscaled = 0 := by
          by_contra later
          exact midnight ⟨last, not_and_or.mp later⟩
        rw [last, noMinute, Dec.value, Scaled.value, noSecond]
        norm_num
      · have earlier : (hour : ℚ) ≤ 23 := by exact_mod_cast show hour ≤ 23 by omega
        linarith
    have whole : (Dec.fromInt (hour * 3600 + minute * 60)).Wf := by
      refine Dec.fromI128_wf ?_
      unfold Int128.Fits Int128.minimum Int128.maximum
      omega
    exact ⟨hour, minute, sec, hours, minutes, seconds, by linarith, wf whole w, scale,
      by linarith, by linarith⟩

end Clock

/-- Midnight. -/
theorem isClock_zero : IsClock (Dec.fromInt 0) := by
  refine ⟨Dec.fromI128_wf Int128.fits_zero, Nat.zero_le _, ?_, ?_⟩ <;> rw [value_fromInt] <;>
    norm_num

theorem utf8Len_cons (c : Char) (s : List Char) : utf8Len (c :: s) = c.utf8Size + utf8Len s := by
  simp [utf8Len]

theorem length_le_utf8Len (s : List Char) : s.length ≤ utf8Len s := by
  induction s with
  | nil => exact le_rfl
  | cons c s ih =>
      have positive := c.utf8Size_pos
      simp only [utf8Len, List.map_cons, List.sum_cons, List.length_cons] at ih ⊢
      omega

theorem cutBytes_spec {n : Nat} {s a b : List Char} (run : cutBytes n s = .ok (a, b)) :
    s = a ++ b ∧ utf8Len a = n := by
  induction s generalizing n a with
  | nil =>
      cases n with
      | zero =>
          cases run
          exact ⟨rfl, rfl⟩
      | succ n => cases run
  | cons c s ih =>
      cases n with
      | zero =>
          cases run
          exact ⟨rfl, rfl⟩
      | succ n =>
          rw [cutBytes] at run
          split at run
          · next inside =>
              cases rest : cutBytes (n + 1 - c.utf8Size) s with
              | error e =>
                  rw [rest] at run
                  cases run
              | ok parts =>
                  obtain ⟨a', b'⟩ := parts
                  rw [rest] at run
                  cases run
                  obtain ⟨rfl, length⟩ := ih rest
                  refine ⟨rfl, ?_⟩
                  simp only [utf8Len, List.map_cons, List.sum_cons] at length ⊢
                  omega
          · cases run

theorem digitOf_le {c : Char} (digit : isAsciiDigit c = true) : digitOf c ≤ 9 := by
  simp only [isAsciiDigit, inRanges, List.any_cons, List.any_nil, Bool.or_false,
    decide_eq_true_eq] at digit
  unfold digitOf
  omega

/-- A number of two characters is at least minus nine. -/
theorem low_of_parseI64 {s : List Char} {v : Int} (run : parseI64 s = some v)
    (short : s.length ≤ 2) : -9 ≤ v := by
  obtain ⟨neg, digits, signed⟩ : ∃ neg digits, splitSign s = (neg, digits) := ⟨_, _, rfl⟩
  simp only [parseI64, signed] at run
  split at run
  · cases run
  · rename_i accepted
    simp only [not_or, Bool.not_eq_false] at accepted
    obtain ⟨same, -⟩ := Option.ite_none_right_eq_some.mp run |>.symm
    cases neg with
    | false =>
        have same := Option.some.inj same
        simp only [Bool.false_eq_true, if_false] at same
        omega
    | true =>
        have same := Option.some.inj same
        have one : digits.length ≤ 1 := by
          unfold splitSign at signed
          split at signed
          · cases signed
          · cases signed
            simpa using short
          · cases signed
        obtain _ | ⟨c, _ | ⟨d, rest⟩⟩ := digits
        · exact (accepted.1 rfl).elim
        · have digit := digitOf_le (c := c) (by simpa using accepted.2)
          rw [ofDigitChars_cons, Nat.ofDigitChars_nil] at same
          simp only [if_true] at same
          omega
        · simp at one

theorem offset_range {negative : Bool} {hh mm : List Char} {offset : Int}
    (run : offsetOf negative hh mm = some offset) (shortH : hh.length ≤ 2)
    (shortM : mm.length ≤ 2) : -(14 * 60) ≤ offset ∧ offset ≤ 14 * 60 := by
  simp only [offsetOf, bind, pure, Option.bind_eq_some_iff] at run
  obtain ⟨h, hours, m, minutes, run⟩ := run
  have lowH := low_of_parseI64 hours shortH
  have lowM := low_of_parseI64 minutes shortM
  split at run
  · cases run
  · have same := Option.some.inj run
    cases negative <;> simp at same <;> omega

/-- A time within its day, with an offset of at most fourteen hours. -/
structure Sane (t : Temporal) : Prop where
  clock : IsClock t.second
  offset : ∀ o ∈ t.offsetMinutes, -(14 * 60) ≤ o ∧ o ≤ 14 * 60

theorem utf8Len_append (a b : List Char) : utf8Len (a ++ b) = utf8Len a + utf8Len b := by
  simp [utf8Len]

theorem size_of_cut {lex front suffix : List Char} (enough : 6 ≤ utf8Len lex)
    (cut : cutBytes (utf8Len lex - 6) lex = .ok (front, suffix)) : utf8Len suffix = 6 := by
  obtain ⟨rfl, size⟩ := cutBytes_spec cut
  rw [utf8Len_append] at enough size
  omega

theorem length_of_zoneTexts {suffix hh mm : List Char} {negative : Bool}
    (size : utf8Len suffix = 6) (zone : zoneTexts suffix = some (negative, hh, mm)) :
    hh.length ≤ 2 ∧ mm.length ≤ 2 := by
  unfold zoneTexts at zone
  split at zone
  · next sign rest =>
      split at zone
      · next signed =>
          split at zone
          · next hh' mm' cut =>
              cases zone
              obtain ⟨rfl, first⟩ := cutBytes_spec cut
              have one : sign.utf8Size = 1 := by
                rcases signed with rfl | rfl <;> rfl
              have colon : Char.utf8Size ':' = 1 := rfl
              have whole : utf8Len (sign :: (hh ++ ':' :: mm)) = 1 + (2 + (1 + utf8Len mm)) := by
                rw [← first, utf8Len_cons, utf8Len_append, utf8Len_cons, one, colon]
              have h := length_le_utf8Len hh
              have m := length_le_utf8Len mm
              omega
          · cases zone
      · cases zone
  · cases zone

theorem offset_of_splitZone {lex body : List Char} {offset : Option Int}
    (run : splitZone lex = .ok (some (body, offset))) :
    ∀ o ∈ offset, -(14 * 60) ≤ o ∧ o ≤ 14 * 60 := by
  unfold splitZone at run
  split at run
  · cases run
    simp
  · split at run
    · next enough =>
        cases cut : cutBytes (utf8Len lex - 6) lex with
        | error e =>
            rw [cut] at run
            cases run
        | ok parts =>
            obtain ⟨front, suffix⟩ := parts
            rw [cut] at run
            have result := Except.ok.inj run
            simp only at result
            split at result
            · next negative hh mm zone =>
                obtain ⟨o, range, same⟩ := Option.map_eq_some_iff.mp result
                cases same
                obtain ⟨shortH, shortM⟩ := length_of_zoneTexts (size_of_cut enough cut) zone
                intro o' mem
                cases mem
                exact offset_range range shortH shortM
            · cases result
              simp
    · cases run
      simp

/-- The numbers of a date in the calendar. -/
theorem civil_spec {t : Texts} {year month day : Int} (run : civil t = some (year, month, day)) :
    ∃ y, parseI64 t.year = some y ∧ (if t.negative then -y else y) = year ∧
      parseI64 t.month = some month ∧ parseI64 t.day = some day ∧ 1 ≤ month ∧ month ≤ 12 := by
  simp only [civil, bind, pure, Option.bind_eq_some_iff, Option.ite_none_left_eq_some,
    Option.ite_none_right_eq_some, not_or, not_not, Option.some.injEq, Prod.mk.injEq] at run
  obtain ⟨y, years, m, months, d, days, ⟨-, low, high⟩, -, same, rfl, rfl⟩ := run
  exact ⟨y, years, same, months, days, low, high⟩

/-- What an accepted form is read as. -/
structure ReadAs [Ieee.PowersOfTen] (lex : List Char) (t : Temporal) (r : Reading) : Prop where
  sane : Sane t
  reading : reading lex = some r
  offset : t.offsetMinutes = r.offset
  day : t.day = dayNumber r.year r.month r.day + 305
  second : Short lex → t.second.value = 3600 * r.hour + 60 * r.minute + r.second

theorem exists_reading [Ieee.PowersOfTen] {lex : List Char} {t : Temporal}
    (run : parseTemporal lex = .ok (some t)) : ∃ r, ReadAs lex t r := by
  unfold parseTemporal at run
  cases zone : splitZone lex with
  | error e =>
      rw [zone] at run
      cases run
  | ok parts =>
  obtain _ | ⟨body, offset⟩ := parts
  · rw [zone] at run
    cases run
  rw [zone] at run
  simp only [bind, Except.bind] at run
  cases read : fields body with
  | none =>
      rw [read] at run
      cases run
  | some parsed =>
  obtain ⟨⟨year, month, day_⟩, second⟩ := parsed
  rw [read] at run
  simp only at run
  cases days : daysFromCivil year month day_ with
  | error e =>
      rw [days] at run
      cases run
  | ok n =>
  rw [days] at run
  cases run
  simp only [fields, bind, pure, Option.bind_eq_some_iff] at read
  obtain ⟨t, split_, date, civil_, clock_, seconds, same⟩ := read
  cases same
  have form : formTexts lex = some (t, offset) := by
    simp only [formTexts, zone, split_, Option.map_some]
  obtain ⟨y, years, signed, months, dayText, low, high⟩ := civil_spec civil_
  have offsets := offset_of_splitZone zone
  have day := daysFromCivil_spec low high days
  cases time : t.time with
  | none =>
      rw [time] at seconds
      cases seconds
      refine ⟨⟨year, month, day_, 0, 0, 0, offset⟩, ⟨isClock_zero, offsets⟩, ?_, rfl, day,
        fun _ => ?_⟩
      · simp [reading, form, Texts.reading, years, months, dayText, time, readTime, signed]
      · rw [value_fromInt]
        norm_num
  | some texts_ =>
      obtain ⟨hh, mm, ss⟩ := texts_
      rw [time] at seconds
      obtain ⟨hour, minute, sec, hours, minutes, parsed, value, isClock⟩ := clock_spec seconds
      refine ⟨⟨year, month, day_, hour, minute, decimalText ss, offset⟩, ⟨isClock, offsets⟩, ?_,
        rfl, day, fun short => ?_⟩
      · simp [reading, form, Texts.reading, years, months, dayText, time, readTime, hours, minutes,
          signed]
      · rw [value, Dec.parse_value parsed (short _ form _ time)]

end Graphy.Temporal
