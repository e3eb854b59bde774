import Graphy.Core.Proofs.Calendar
import Graphy.Misc.Digits

/-!
# Inline ids are canonical

Encoding a value that fits and decoding it gives the value back, and each parser
gives back what its canonical writer wrote; so a spelling inlines when it is the
canonical one of a value in range.
-/

namespace Graphy

/-! ## Payloads -/

namespace InlineDateTime

theorem ofPayload_payload {dt : InlineDateTime} (h : dt.Fits) :
    dt.payload < 2 ^ 60 ∧ ofPayload dt.payload = dt := by
  obtain ⟨dateOnly, seconds, millis, tzQuarters⟩ := dt
  obtain ⟨range, small, zone, -⟩ := h
  simp only at range small zone
  have flag : dateOnly.toNat ≤ 1 := Bool.toNat_le dateOnly
  have zoned : tzField tzQuarters < 2 ^ 59 ∧
      (if tzField tzQuarters / 2 ^ 58 % 2 = 1 then
        some ((tzField tzQuarters / 2 ^ 51 % 2 ^ 7 : Nat) - 64 : Int) else none) = tzQuarters ∧
      tzField tzQuarters % 2 ^ 51 = 0 := by
    cases tzQuarters with
    | none => exact ⟨by decide, rfl, rfl⟩
    | some q =>
        simp only [Option.getD_some] at zone
        rw [show tzField (some q) = 2 ^ 58 + (q + 64).toNat * 2 ^ 51 from rfl]
        refine ⟨by omega, ?_, by omega⟩
        rw [if_pos (by omega), Option.some.injEq]
        omega
  obtain ⟨below, restored, aligned⟩ := zoned
  unfold payload ofPayload
  simp only
  generalize tzField tzQuarters = field at *
  generalize hseconds : (seconds + 2 ^ 40).toNat = offset
  have parts : (dateOnly.toNat * 2 ^ 59 + field + millis * 2 ^ 41 + offset) / 2 ^ 59 % 2 =
        dateOnly.toNat ∧
      (dateOnly.toNat * 2 ^ 59 + field + millis * 2 ^ 41 + offset) / 2 ^ 58 % 2 =
        field / 2 ^ 58 % 2 ∧
      (dateOnly.toNat * 2 ^ 59 + field + millis * 2 ^ 41 + offset) / 2 ^ 51 % 2 ^ 7 =
        field / 2 ^ 51 % 2 ^ 7 ∧
      (dateOnly.toNat * 2 ^ 59 + field + millis * 2 ^ 41 + offset) / 2 ^ 41 % 2 ^ 10 = millis ∧
      (dateOnly.toNat * 2 ^ 59 + field + millis * 2 ^ 41 + offset) % 2 ^ 41 = offset := by
    omega
  obtain ⟨kind, hasZone, zone_, thousandths, low⟩ := parts
  rw [kind, hasZone, zone_, thousandths, low, restored]
  refine ⟨by omega, ?_⟩
  rw [← hseconds, Int.toNat_of_nonneg (by omega)]
  cases dateOnly <;> simp

end InlineDateTime

namespace InlineValue

/-- Encoding a value in range and decoding it gives it back. -/
theorem decode_inline {v : InlineValue} (h : v.InRange) :
    ∃ id, v.inline = some id ∧ id.decode = some v := by
  cases v with
  | integer v =>
      refine ⟨_, if_pos h, ?_⟩
      obtain ⟨low, high⟩ := h
      simp only [Col.decode, Option.some.injEq, integer.injEq]
      omega
  | decimal unscaled scale =>
      refine ⟨_, if_pos h.1, ?_⟩
      obtain ⟨⟨low, high⟩, small⟩ := h
      simp only [Col.decode, Option.some.injEq, decimal.injEq]
      omega
  | double bits declaredFloat =>
      refine ⟨_, if_neg (not_not.mpr h.2), ?_⟩
      obtain ⟨small, aligned⟩ := h
      simp only [Col.decode, Option.some.injEq, double.injEq]
      cases declaredFloat <;> simp <;> omega
  | boolean b =>
      refine ⟨_, rfl, ?_⟩
      cases b <;> rfl
  | dateTime dt =>
      refine ⟨_, if_pos h, ?_⟩
      obtain ⟨small, back⟩ := InlineDateTime.ofPayload_payload h
      simp only [Col.decode, Nat.mod_eq_of_lt small, back]

end InlineValue

/-! ## Numbers -/

theorem allDigits_toDigits (n : Nat) : (Nat.toDigits 10 n).all isAsciiDigit = true :=
  List.all_eq_true.mpr fun _ => isAsciiDigit_of_mem_toDigits

theorem allDigits_renderNumber (width n : Nat) : (renderNumber width n).all isAsciiDigit = true :=
  List.all_eq_true.mpr fun _ => isAsciiDigit_of_mem_padLeft

theorem splitSign_digits {s : List Char} (digits : s.all isAsciiDigit = true) :
    splitSign s = (false, s) := by
  cases s with
  | nil => rfl
  | cons c s => exact splitSign_digit (List.all_eq_true.mp digits c List.mem_cons_self) s

theorem parseI64_digits {s : List Char} (some_ : s ≠ []) (digits : s.all isAsciiDigit = true)
    (small : Nat.ofDigitChars 10 s 0 < 2 ^ 63) :
    parseI64 s = some (Nat.ofDigitChars 10 s 0 : Int) := by
  simp only [parseI64, splitSign_digits digits, some_, digits, false_or, Bool.true_eq_false,
    if_false]
  rw [if_pos (by simp; omega)]
  simp

theorem parseI64_renderInt {v : Int} (low : -2 ^ 63 ≤ v) (high : v < 2 ^ 63) :
    parseI64 (renderInt v) = some v := by
  have digits := allDigits_toDigits v.natAbs
  have sign : splitSign (renderInt v) = (decide (v < 0), Nat.toDigits 10 v.natAbs) := by
    unfold renderInt
    by_cases negative : v < 0
    · rw [if_pos negative, decide_eq_true negative]
      rfl
    · rw [if_neg negative, decide_eq_false negative]
      exact splitSign_digits digits
  simp only [parseI64, sign, Nat.toDigits_ne_nil, digits, false_or, Bool.true_eq_false, if_false,
    Nat.ofDigitChars_ten_toDigits, decide_eq_true_eq]
  have signed : (if v < 0 then -(v.natAbs : Int) else v.natAbs) = v := by
    split <;> omega
  rw [signed, if_pos ⟨low, high⟩]

/-! ## Decimals -/

theorem stripZeros_of_canonical {u : Int} {s : Nat} (h : s = 1 ∨ u % 10 ≠ 0) :
    stripZeros u s = (u, s) := by
  match s with
  | 0 => rfl
  | 1 => rfl
  | s + 2 => rw [stripZeros, if_neg (h.resolve_left (by omega))]

theorem stripZeros_canonical (u : Int) (s : Nat) :
    (stripZeros u s).2 = 0 ∨ (stripZeros u s).2 = 1 ∨ (stripZeros u s).1 % 10 ≠ 0 := by
  induction s generalizing u with
  | zero => exact .inl rfl
  | succ s ih =>
      cases s with
      | zero => exact .inr (.inl rfl)
      | succ s =>
          rw [stripZeros]
          split
          · exact ih _
          · next kept => exact .inr (.inr kept)

theorem padScale_canonical {n : Int} {s : Nat} {r : Int × Nat}
    (h : padScale (stripZeros n s).1 (stripZeros n s).2 = some r) :
    1 ≤ r.2 ∧ (r.2 = 1 ∨ r.1 % 10 ≠ 0) := by
  unfold padScale at h
  split at h
  · obtain ⟨w, -, rfl⟩ := Option.map_eq_some_iff.mp h
    exact ⟨le_rfl, .inl rfl⟩
  · next scaled =>
      cases h
      exact ⟨Nat.pos_of_ne_zero scaled, (stripZeros_canonical n s).resolve_left scaled⟩

/-- A decimal that is read is canonical and fits its payload. -/
theorem canonical_of_decimalOf {neg : Bool} {int frac : List Char} {v : InlineValue}
    (h : decimalOf neg int frac = some v) :
    ∃ u s, v = .decimal u s ∧ v.Canonical ∧ v.InRange := by
  unfold decimalOf at h
  split at h
  · cases h
  split at h
  · cases h
  obtain ⟨m, -, rest⟩ := Option.bind_eq_some_iff.mp h
  obtain ⟨⟨u, s⟩, padded, final⟩ := Option.bind_eq_some_iff.mp rest
  unfold decimalValue at final
  split at final
  · cases final
  · next within =>
      cases final
      rw [not_or, not_not] at within
      exact ⟨u, s, rfl, padScale_canonical padded, within.2, by simpa using within.1⟩

/-- What a sign, an integer part and a fraction of canonical scale spell. -/
theorem parseDecimal_spelled (negative : Bool) {int frac : List Char} (some_ : int ≠ [])
    (fraction : 1 ≤ frac.length) (small : frac.length ≤ 255)
    (digits : (int ++ frac).all isAsciiDigit = true) {m : Nat}
    (number : Nat.ofDigitChars 10 (int ++ frac) 0 = m) (range : m ≤ 2 ^ 51)
    (canonical : frac.length = 1 ∨ m % 10 ≠ 0) :
    parseDecimal ((if negative then ['-'] else []) ++ int ++ '.' :: frac) =
      decimalValue (if negative then -m else m, frac.length) := by
  obtain ⟨c, rest, rfl⟩ := List.exists_cons_of_ne_nil some_
  have first : isAsciiDigit c = true := by simp_all
  have point : '.' ∉ c :: rest := by
    intro inside
    have := List.all_eq_true.mp digits '.' (List.mem_append_left _ inside)
    cases this
  have sign : splitSign ((if negative then ['-'] else []) ++ (c :: rest) ++ '.' :: frac) =
      (negative, (c :: rest) ++ '.' :: frac) := by
    cases negative with
    | true => rfl
    | false => exact splitSign_digit first _
  have read : accumulate ((c :: rest) ++ frac) = some (m : Int) := by
    rw [accumulate_eq, number]
    refine Int128.checked_of_fits ?_
    unfold Int128.Fits Int128.minimum Int128.maximum
    omega
  have stripped : stripZeros (if negative then -(m : Int) else m) frac.length =
      (if negative then -(m : Int) else m, frac.length) := by
    refine stripZeros_of_canonical (canonical.imp_right fun kept => ?_)
    split <;> omega
  simp only [parseDecimal, sign, splitOnce_append point, Option.getD_some, decimalOf,
    List.cons_ne_nil, false_and, if_false, digits, Bool.true_eq_false, read, bind, Option.bind_some,
    Nat.mod_eq_of_lt (show frac.length < 2 ^ 32 by omega), stripped, padScale]
  rw [if_neg (by omega), Option.bind_some]

theorem parseDecimal_renderDecimal {u : Int} {s : Nat} (h : (InlineValue.decimal u s).InRange)
    (canonical : (InlineValue.decimal u s).Canonical) :
    parseDecimal (renderDecimal u s) = some (.decimal u s) := by
  obtain ⟨⟨low, high⟩, small⟩ := h
  obtain ⟨positive, kept⟩ := canonical
  obtain ⟨ds, hds⟩ : ∃ ds, ds = padLeft (s + 1) (Nat.toDigits 10 u.natAbs) := ⟨_, rfl⟩
  have long : s + 1 ≤ ds.length := by
    rw [hds, length_padLeft]
    omega
  have digits : ds.all isAsciiDigit = true := by
    rw [hds]
    exact allDigits_renderNumber _ _
  have number : Nat.ofDigitChars 10 ds 0 = u.natAbs := by
    rw [hds, ofDigitChars_padLeft, Nat.ofDigitChars_ten_toDigits]
  have fraction : (ds.drop (ds.length - s)).length = s := by
    rw [List.length_drop]
    omega
  have spelled := @parseDecimal_spelled (decide (u < 0)) (ds.take (ds.length - s))
    (ds.drop (ds.length - s)) (List.ne_nil_of_length_pos (by rw [List.length_take]; omega))
    (by omega) (by omega) (by rwa [List.take_append_drop]) u.natAbs
    (by rw [List.take_append_drop, number]) (by omega) (by omega)
  have text : renderDecimal u s = (if decide (u < 0) = true then ['-'] else []) ++
      ds.take (ds.length - s) ++ '.' :: ds.drop (ds.length - s) := by
    simp only [renderDecimal, ← hds, decide_eq_true_eq, if_neg (show s ≠ 0 by omega)]
  have signed : (if decide (u < 0) = true then -(u.natAbs : Int) else u.natAbs) = u := by
    simp only [decide_eq_true_eq]
    split <;> omega
  rw [text, spelled, signed, fraction, decimalValue, if_neg (by simp only; omega)]

/-! ## Dates and times -/

theorem renderNumber_two {n : Nat} (h : n < 100) :
    ∃ a b, renderNumber 2 n = [a, b] ∧ isAsciiDigit a = true ∧ isAsciiDigit b = true ∧
      twoDigits a b = n := by
  obtain ⟨a, b, both⟩ : ∃ a b, renderNumber 2 n = [a, b] := by
    refine List.length_eq_two.mp ?_
    have short : (Nat.toDigits 10 n).length ≤ 2 :=
      (Nat.length_toDigits_le_iff (by decide) (by decide)).mpr h
    rw [renderNumber, length_padLeft]
    omega
  have digits := allDigits_renderNumber 2 n
  have number : Nat.ofDigitChars 10 (renderNumber 2 n) 0 = n := by
    rw [renderNumber, ofDigitChars_padLeft, Nat.ofDigitChars_ten_toDigits]
  rw [both] at digits number
  simp only [List.all_cons, List.all_nil, Bool.and_true, Bool.and_eq_true] at digits
  refine ⟨a, b, both, digits.1, digits.2, ?_⟩
  rw [ofDigitChars_cons, ofDigitChars_cons, Nat.ofDigitChars_nil, zero_mul, zero_add] at number
  exact number

/-- A number is its digits without the trailing zeros, scaled. -/
theorem strip_trailing (s : List Char) :
    ∃ k, s.length = (s.reverse.dropWhile (· == '0')).reverse.length + k ∧
      Nat.ofDigitChars 10 s 0 =
        10 ^ k * Nat.ofDigitChars 10 (s.reverse.dropWhile (· == '0')).reverse 0 := by
  have parts : s = (s.reverse.dropWhile (· == '0')).reverse ++
      (s.reverse.takeWhile (· == '0')).reverse := by
    rw [← List.reverse_append, List.takeWhile_append_dropWhile, List.reverse_reverse]
  have zeros : (s.reverse.takeWhile (· == '0')).reverse =
      List.replicate (s.reverse.takeWhile (· == '0')).length '0' := by
    refine List.eq_replicate_iff.mpr ⟨List.length_reverse, fun c inside => ?_⟩
    have := List.all_eq_true.mp List.all_takeWhile c (List.mem_reverse.mp inside)
    simpa using this
  refine ⟨(s.reverse.takeWhile (· == '0')).length, ?_, ?_⟩
  · conv_lhs => rw [parts, zeros]
    rw [List.length_append, List.length_replicate]
  · conv_lhs => rw [parts, zeros]
    rw [Nat.ofDigitChars_append, Nat.ofDigitChars_replicate_zero]

theorem parseMillis_renderMillis {millis : Nat} (h : millis ≤ 999) :
    parseMillis (renderMillis millis) = some millis := by
  unfold renderMillis
  by_cases positive : 0 < millis
  · have length : (renderNumber 3 millis).length = 3 := by
      have short : (Nat.toDigits 10 millis).length ≤ 3 :=
        (Nat.length_toDigits_le_iff (by decide) (by decide)).mpr (by omega)
      rw [renderNumber, length_padLeft]
      omega
    have number : Nat.ofDigitChars 10 (renderNumber 3 millis) 0 = millis := by
      rw [renderNumber, ofDigitChars_padLeft, Nat.ofDigitChars_ten_toDigits]
    have digits := allDigits_renderNumber 3 millis
    obtain ⟨k, total, scaled⟩ := strip_trailing (renderNumber 3 millis)
    have kept : ((renderNumber 3 millis).reverse.dropWhile (· == '0')).reverse.all isAsciiDigit =
        true := by
      rw [List.all_eq_true] at digits ⊢
      exact fun c inside => digits c (List.mem_reverse.mp
        ((List.dropWhile_sublist _).subset (List.mem_reverse.mp inside)))
    rw [if_pos positive]
    generalize ((renderNumber 3 millis).reverse.dropWhile (· == '0')).reverse = frac at *
    have some_ : frac ≠ [] := by
      rintro rfl
      rw [Nat.ofDigitChars_nil] at scaled
      omega
    have short : ¬ 3 < frac.length := by omega
    simp only [parseMillis, some_, short, kept, Bool.true_eq_false, or_false, if_false]
    rw [← number, scaled, show 3 - frac.length = k by omega, Nat.mul_comm]
  · rw [if_neg positive]
    show some 0 = _
    rw [show millis = 0 by omega]

theorem parseTimeFields_renderTime {sod millis : Nat} (day : sod < 86400) (h : millis ≤ 999) :
    ∃ time, renderTime sod millis = 'T' :: time ∧ 6 ≤ time.length ∧
      parseTimeFields time = some ((sod : Int), millis) := by
  obtain ⟨h1, h2, hours, dh1, dh2, nh⟩ := @renderNumber_two (sod / 3600) (by omega)
  obtain ⟨m1, m2, minutes, dm1, dm2, nm⟩ := @renderNumber_two (sod / 60 % 60) (by omega)
  obtain ⟨s1, s2, secs, ds1, ds2, ns⟩ := @renderNumber_two (sod % 60) (by omega)
  refine ⟨h1 :: h2 :: ':' :: m1 :: m2 :: ':' :: s1 :: s2 :: renderMillis millis, ?_, ?_, ?_⟩
  · rw [renderTime, hours, minutes, secs]
    rfl
  · simp
  · simp only [parseTimeFields, List.all_cons, List.all_nil, dh1, dh2, dm1, dm2, ds1, ds2,
      Bool.and_true, Bool.true_eq_false, if_false, nh, nm, ns, parseMillis_renderMillis h]
    rw [if_neg (by omega), Option.map_some]
    congr 2
    omega

theorem daysInMonth_le (y : Int) (m : Nat) : daysInMonth y m ≤ 31 := by
  unfold daysInMonth
  split_ifs <;> decide

/-- The digits of a year, four at least. -/
theorem yearDigits {n : Nat} (h : n ≤ 40000) :
    ∃ c ys, (if n < 10000 then renderNumber 4 n else Nat.toDigits 10 n) = c :: ys ∧
      3 ≤ ys.length ∧ (c :: ys).all isAsciiDigit = true ∧ parseI64 (c :: ys) = some (n : Int) := by
  obtain ⟨s, hs, long, digits, number⟩ :
      ∃ s, (if n < 10000 then renderNumber 4 n else Nat.toDigits 10 n) = s ∧ 4 ≤ s.length ∧
        s.all isAsciiDigit = true ∧ Nat.ofDigitChars 10 s 0 = n := by
    by_cases short : n < 10000
    · refine ⟨_, if_pos short, ?_, allDigits_renderNumber 4 n, ?_⟩
      · rw [renderNumber, length_padLeft]
        omega
      · rw [renderNumber, ofDigitChars_padLeft, Nat.ofDigitChars_ten_toDigits]
    · refine ⟨_, if_neg short, ?_, allDigits_toDigits n, Nat.ofDigitChars_ten_toDigits⟩
      have := mt (@Nat.length_toDigits_le_iff 10 n 4 (by decide) (by decide)).mp short
      omega
  obtain ⟨c, ys, rfl⟩ :=
    List.exists_cons_of_ne_nil (List.ne_nil_of_length_pos (by omega : 0 < s.length))
  have read := parseI64_digits (List.cons_ne_nil c ys) digits (by omega)
  rw [number] at read
  exact ⟨c, ys, hs, by simpa using long, digits, read⟩

theorem stripMinus_digit {c : Char} (digit : isAsciiDigit c = true) (s : List Char) :
    stripMinus (c :: s) = (false, c :: s) := by
  unfold stripMinus
  split
  · next same =>
      cases same
      cases digit
  · rfl

/-- A written date is read back; its text ends in the month and day. -/
theorem parseDateFields_renderDate {y : Int} {m d : Nat} (range : y.natAbs ≤ 40000) (m1 : 1 ≤ m)
    (m12 : m ≤ 12) (d1 : 1 ≤ d) (dn : d ≤ daysInMonth y m) :
    parseDateFields (renderDate y m d) = some (y, m, d) ∧
      ∃ front a b c e, renderDate y m d = front ++ ['-', a, b, '-', c, e] ∧
        (∀ x ∈ front, isAsciiDigit x = true ∨ x = '-') ∧ [a, b, c, e].all isAsciiDigit = true := by
  have short := daysInMonth_le y m
  obtain ⟨a, b, months, da, db, nm⟩ := @renderNumber_two m (by omega)
  obtain ⟨c, e, days, dc, de, nd⟩ := @renderNumber_two d (by omega)
  obtain ⟨x, ys, year, long, digits, read⟩ := yearDigits range
  have first : isAsciiDigit x = true := List.all_eq_true.mp digits x List.mem_cons_self
  have text : renderDate y m d =
      ((if y < 0 then ['-'] else []) ++ x :: ys) ++ ['-', a, b, '-', c, e] := by
    rw [renderDate, months, days, year]
    simp
  have stripped : stripMinus (renderDate y m d) =
      (decide (y < 0), (x :: ys) ++ ['-', a, b, '-', c, e]) := by
    rw [text]
    by_cases negative : y < 0
    · rw [if_pos negative, decide_eq_true negative]
      rfl
    · rw [if_neg negative, decide_eq_false negative]
      exact stripMinus_digit first _
  refine ⟨?_, _, a, b, c, e, text, ?_, by simp [da, db, dc, de]⟩
  · have length : ((x :: ys) ++ ['-', a, b, '-', c, e]).length - 6 = (x :: ys).length := by
      simp
    have front : ¬ ((x :: ys) ++ ['-', a, b, '-', c, e]).length < 10 := by
      simp
      omega
    have wide : ¬ (x :: ys).length < 4 := by
      simp
      omega
    have signed : (if decide (y < 0) = true then -(y.natAbs : Int) else y.natAbs) = y := by
      simp only [decide_eq_true_eq]
      split <;> omega
    have sized : ¬ (40000 : Int) < y.natAbs := by omega
    simp only [parseDateFields, stripped, front, if_false, length, List.drop_left', List.take_left',
      monthDay, List.all_cons, List.all_nil, da, db, dc, de, Bool.and_true, if_true, nm, nd, wide,
      read, bind, Option.bind_some, sized, signed]
    have valid : (∀ z ∈ ys, isAsciiDigit z = true) ∧ (1 ≤ m ∧ m ≤ 12) ∧ ¬ d = 0 ∧
        d ≤ daysInMonth y m :=
      ⟨fun z inside => List.all_eq_true.mp digits z (List.mem_cons_of_mem _ inside),
        ⟨m1, m12⟩, by omega, dn⟩
    simpa [first] using valid
  · intro z inside
    obtain sign | digit := List.mem_append.mp inside
    · split at sign
      · exact .inr (List.mem_singleton.mp sign)
      · cases sign
    · exact .inl (List.all_eq_true.mp digits z digit)

/-! ## Timezones -/

theorem tzOf_natAbs {q : Int} (low : -56 ≤ q) (high : q ≤ 56) :
    tzOf (decide (q < 0)) (q.natAbs / 4) (q.natAbs % 4 * 15) = some q := by
  unfold tzOf
  rw [if_neg (by omega), Option.some.injEq]
  simp only [decide_eq_true_eq]
  split <;> omega

/-- Nothing in the text looks like an offset. -/
def Zoneless (body : List Char) : Prop :=
  body.getLast? ≠ some 'Z' ∧ tzSuffix (body.drop (body.length - 6)) = none

/-- A written timezone is split off again. -/
theorem splitTz_renderTz {body : List Char} {tz : Option Int} (low : -56 ≤ tz.getD 0)
    (high : tz.getD 0 ≤ 56) (zoneless : Zoneless body) :
    splitTz (body ++ renderTz tz) = some (body, tz) := by
  cases tz with
  | none =>
      rw [renderTz, List.append_nil, splitTz, if_neg zoneless.1, zoneless.2]
  | some q =>
      rw [Option.getD_some] at low high
      by_cases utc : q = 0
      · subst utc
        rw [show renderTz (some 0) = ['Z'] from rfl, splitTz, if_pos (by simp),
          List.dropLast_concat]
      · obtain ⟨a, b, hours, da, db, nh⟩ := @renderNumber_two (q.natAbs / 4) (by omega)
        obtain ⟨c, e, minutes, dc, de, nm⟩ := @renderNumber_two (q.natAbs % 4 * 15) (by omega)
        obtain ⟨sign, hsign, minus, signed⟩ : ∃ sign, sign = (if q < 0 then '-' else '+') ∧
            decide (sign = '-') = decide (q < 0) ∧ (sign = '+' ∨ sign = '-') := by
          by_cases negative : q < 0
          · exact ⟨'-', by rw [if_pos negative], by simp [negative], .inr rfl⟩
          · exact ⟨'+', by rw [if_neg negative], by simp [negative], .inl rfl⟩
        have text : renderTz (some q) = [sign, a, b, ':', c, e] := by
          simp only [renderTz, if_neg utc, ← hsign, hours, minutes]
          rfl
        have last : (body ++ [sign, a, b, ':', c, e]).getLast? ≠ some 'Z' := by
          rw [List.getLast?_append]
          rintro same
          cases same
          cases de
        have length : (body ++ [sign, a, b, ':', c, e]).length - 6 = body.length := by simp
        have suffix : tzSuffix [sign, a, b, ':', c, e] =
            some (decide (q < 0), q.natAbs / 4, q.natAbs % 4 * 15) := by
          simp only [tzSuffix, List.all_cons, List.all_nil, da, db, dc, de, Bool.and_true, and_true,
            if_pos signed, minus, nh, nm]
        rw [text, splitTz, if_neg last, length, List.drop_left', suffix]
        · simp only [tzOf_natAbs low high, Option.map_some, List.take_left']
        · rfl

/-- Text that ends in a month and day, or in a time, has no offset. -/
theorem zoneless_date {front : List Char} {a b c e : Char} (digit : isAsciiDigit e = true) :
    Zoneless (front ++ ['-', a, b, '-', c, e]) := by
  constructor
  · rw [List.getLast?_append]
    rintro same
    cases same
    cases digit
  · have length : (front ++ ['-', a, b, '-', c, e]).length - 6 = front.length := by simp
    rw [length, List.drop_left' rfl]
    rfl

theorem tzSuffix_of_unsigned {s : List Char} (h : ∀ c ∈ s, c ≠ '+' ∧ c ≠ '-') :
    tzSuffix s = none := by
  unfold tzSuffix
  split
  · next sign _ _ _ _ =>
      have clear := h sign List.mem_cons_self
      rw [if_neg (by simp [clear])]
  · rfl

theorem zoneless_time {front time : List Char} (long : 6 ≤ time.length)
    (h : ∀ c ∈ time, c ≠ '+' ∧ c ≠ '-' ∧ c ≠ 'Z') : Zoneless (front ++ time) := by
  constructor
  · have some_ : time ≠ [] := List.ne_nil_of_length_pos (by omega)
    rw [List.getLast?_append_of_ne_nil _ some_]
    exact fun same => (h 'Z' (List.mem_of_getLast? same)).2.2 rfl
  · have length : (front ++ time).length - 6 = front.length + (time.length - 6) := by
      rw [List.length_append]
      omega
    rw [length, List.drop_length_add_append]
    refine tzSuffix_of_unsigned fun c inside => ?_
    obtain ⟨plus, minus, -⟩ := h c (List.mem_of_mem_drop inside)
    exact ⟨plus, minus⟩

/-! ## Characters of a written date or time -/

theorem mem_renderMillis {millis : Nat} {c : Char} (h : c ∈ renderMillis millis) :
    isAsciiDigit c = true ∨ c = '.' := by
  unfold renderMillis at h
  by_cases positive : 0 < millis
  · rw [if_pos positive] at h
    obtain point | kept := List.mem_cons.mp h
    · exact .inr point
    · exact .inl (isAsciiDigit_of_mem_padLeft (List.mem_reverse.mp
        ((List.dropWhile_sublist _).subset (List.mem_reverse.mp kept))))
  · rw [if_neg positive] at h
    cases h

theorem mem_renderTime {sod millis : Nat} {c : Char} (h : c ∈ renderTime sod millis) :
    isAsciiDigit c = true ∨ c ∈ ['T', ':', '.'] := by
  have digit {n : Nat} (inside : c ∈ renderNumber 2 n) : isAsciiDigit c = true :=
    isAsciiDigit_of_mem_padLeft inside
  simp only [renderTime, List.mem_append, List.mem_cons, List.cons_append, or_assoc] at h
  obtain rfl | hours | rfl | minutes | rfl | secs | fraction := h
  · simp
  · exact .inl (digit hours)
  · simp
  · exact .inl (digit minutes)
  · simp
  · exact .inl (digit secs)
  · obtain digit | rfl := mem_renderMillis fraction
    · exact .inl digit
    · simp

theorem mem_renderTz {tz : Option Int} {c : Char} (h : c ∈ renderTz tz) :
    isAsciiDigit c = true ∨ c ∈ ['Z', '+', '-', ':'] := by
  have digit {n : Nat} (inside : c ∈ renderNumber 2 n) : isAsciiDigit c = true :=
    isAsciiDigit_of_mem_padLeft inside
  cases tz with
  | none => cases h
  | some q =>
      rw [renderTz] at h
      split at h
      · rw [List.mem_singleton.mp h]
        simp
      · simp only [List.mem_append, List.mem_cons, List.cons_append] at h
        obtain sign | hours | rfl | minutes := h
        · rw [sign]
          split <;> simp
        · exact .inl (digit hours)
        · simp
        · exact .inl (digit minutes)

theorem isAscii_of_digit {c : Char} (h : isAsciiDigit c = true) : isAscii c = true := by
  rw [isAsciiDigit_eq, Char.isDigit_iff_toNat] at h
  rw [isAscii, decide_eq_true_eq]
  exact lt_of_le_of_lt h.2 (by decide)

theorem isAscii_of_chars {c : Char} {marks : List Char} (h : isAsciiDigit c = true ∨ c ∈ marks)
    (ascii : marks.all isAscii = true) : isAscii c = true :=
  h.elim isAscii_of_digit (List.all_eq_true.mp ascii c)

/-- What the parts of a text read together. -/
theorem parseDateTime_parts {lex body date : List Char} {time : Option (List Char)}
    {dt : InlineDateTime} {y sod : Int} {m d : Nat} (ascii : lex.all isAscii = true)
    (zone : splitTz lex = some (body, dt.tzQuarters))
    (parts : splitTime dt.dateOnly body = some (date, time))
    (readDate : parseDateFields date = some (y, m, d))
    (readTime : (time.map parseTimeFields).getD (some (0, 0)) = some (sod, dt.millis))
    (instant : daysFromCivil y m d * 86400 + sod - dt.tzQuarters.getD 0 * 900 = dt.seconds)
    (range : -2 ^ 40 ≤ dt.seconds ∧ dt.seconds < 2 ^ 40) :
    parseDateTime lex dt.dateOnly = some dt := by
  rw [parseDateTime, ascii, if_neg (by decide), zone]
  simp only [bind, Option.bind_some, parts, readDate, readTime, instant]
  rw [if_neg (not_not.mpr range)]

/-- A written dateTime or date is read back. -/
theorem parseDateTime_renderDateTime {dt : InlineDateTime} (h : dt.Fits) :
    parseDateTime (renderDateTime dt) dt.dateOnly = some dt := by
  obtain ⟨range, thousandths, zone, midnight⟩ := h
  obtain ⟨y, m, d, civil, m1, m12, d1, dn, day, low, high⟩ := civilFromDays_spec (dt.wall / 86400)
  have bounded : y.natAbs ≤ 40000 := by
    unfold InlineDateTime.wall at low high
    omega
  obtain ⟨readDate, front, a, b, c, e, dateText, frontChars, dateDigits⟩ :=
    parseDateFields_renderDate bounded m1 m12 d1 dn
  have dateChars : ∀ x ∈ renderDate y m d, isAsciiDigit x = true ∨ x ∈ ['-'] := by
    intro x inside
    rw [dateText] at inside
    obtain old | last := List.mem_append.mp inside
    · exact (frontChars x old).imp_right List.mem_singleton.mpr
    · simp only [List.all_cons, List.all_nil, Bool.and_true, Bool.and_eq_true] at dateDigits
      obtain ⟨da, db, dc, de⟩ := dateDigits
      simp only [List.mem_cons, List.not_mem_nil, or_false] at last
      obtain rfl | rfl | rfl | rfl | rfl | rfl := last <;> simp [*]
  have lastDigit : isAsciiDigit e = true := by
    simp only [List.all_cons, List.all_nil, Bool.and_true, Bool.and_eq_true] at dateDigits
    exact dateDigits.2.2.2
  obtain ⟨sod, hsod⟩ : ∃ sod, sod = (dt.wall % 86400).toNat := ⟨_, rfl⟩
  have sodWall : (sod : Int) = dt.wall % 86400 := by omega
  have restored : daysFromCivil y m d * 86400 + sod - dt.tzQuarters.getD 0 * 900 = dt.seconds := by
    rw [day, sodWall]
    unfold InlineDateTime.wall
    omega
  cases kind : dt.dateOnly with
  | true =>
      obtain ⟨whole, noSeconds⟩ := midnight kind
      have text : renderDateTime dt = renderDate y m d ++ renderTz dt.tzQuarters := by
        simp [renderDateTime, civil, kind]
      have split_ := splitTz_renderTz zone.1 zone.2 (@zoneless_date front a b c _ lastDigit)
      rw [← dateText, ← text] at split_
      have ascii : (renderDateTime dt).all isAscii = true := by
        rw [List.all_eq_true, text]
        intro x inside
        obtain date | offset := List.mem_append.mp inside
        · exact isAscii_of_chars (dateChars x date) rfl
        · exact isAscii_of_chars (mem_renderTz offset) rfl
      rw [show (sod : Int) = 0 by omega] at restored
      rw [← kind]
      refine parseDateTime_parts ascii split_ (if_pos kind) readDate ?_ restored range
      rw [whole]
      rfl
  | false =>
      obtain ⟨time, timeText, long, readTime⟩ :=
        @parseTimeFields_renderTime sod dt.millis (by omega) thousandths
      have text : renderDateTime dt =
          (renderDate y m d ++ 'T' :: time) ++ renderTz dt.tzQuarters := by
        rw [← timeText, hsod]
        simp [renderDateTime, civil, kind]
      have timeChars : ∀ x ∈ 'T' :: time, isAsciiDigit x = true ∨ x ∈ ['T', ':', '.'] := by
        rw [← timeText]
        exact fun x => mem_renderTime
      have zoneless : Zoneless (renderDate y m d ++ 'T' :: time) := by
        refine zoneless_time (le_trans long (Nat.le_succ _)) fun x inside => ?_
        obtain digit | mark := timeChars x inside
        · refine ⟨?_, ?_, ?_⟩ <;> rintro rfl <;> cases digit
        · simp only [List.mem_cons, List.not_mem_nil, or_false] at mark
          obtain rfl | rfl | rfl := mark <;> decide
      have split_ := splitTz_renderTz zone.1 zone.2 zoneless
      rw [← text] at split_
      have ascii : (renderDateTime dt).all isAscii = true := by
        rw [List.all_eq_true, text]
        intro x inside
        obtain body | offset := List.mem_append.mp inside
        · obtain date | time_ := List.mem_append.mp body
          · exact isAscii_of_chars (dateChars x date) rfl
          · exact isAscii_of_chars (timeChars x time_) rfl
        · exact isAscii_of_chars (mem_renderTz offset) rfl
      have dateClear : 'T' ∉ renderDate y m d := by
        intro inside
        obtain digit | mark := dateChars 'T' inside
        · cases digit
        · simp at mark
      have parts : splitTime dt.dateOnly (renderDate y m d ++ 'T' :: time) =
          some (renderDate y m d, some time) := by
        rw [splitTime, kind, splitOnce_append dateClear]
        rfl
      rw [← kind]
      exact parseDateTime_parts ascii split_ parts readDate readTime restored range

theorem dateOnly_of_parseDateTime {lex : List Char} {dateOnly : Bool} {dt : InlineDateTime}
    (h : parseDateTime lex dateOnly = some dt) : dt.dateOnly = dateOnly := by
  unfold parseDateTime at h
  split at h
  · cases h
  · obtain ⟨⟨body, tz⟩, -, h⟩ := Option.bind_eq_some_iff.mp h
    obtain ⟨⟨date, time⟩, -, h⟩ := Option.bind_eq_some_iff.mp h
    obtain ⟨⟨y, m, d⟩, -, h⟩ := Option.bind_eq_some_iff.mp h
    obtain ⟨⟨sod, millis⟩, -, h⟩ := Option.bind_eq_some_iff.mp h
    simp only at h
    split at h
    · cases h
    · cases h
      rfl

theorem inRange_of_inline {dt : InlineDateTime} {id : Col}
    (h : (InlineValue.dateTime dt).inline = some id) : (InlineValue.dateTime dt).InRange := by
  by_contra outside
  have refused : (InlineValue.dateTime dt).inline = none := if_neg outside
  rw [refused] at h
  cases h

/-! ## Spellings that inline -/

theorem parseInline_integer (lex : List Char) :
    parseInline lex Vocab.xsdInteger = (parseI64 lex).map .integer := if_pos rfl

theorem parseInline_decimal (lex : List Char) :
    parseInline lex Vocab.xsdDecimal = parseDecimal lex := by
  rw [parseInline, if_neg (by decide), if_pos rfl]

theorem parseInline_boolean (lex : List Char) :
    parseInline lex Vocab.xsdBoolean = (parseBoolean lex).map .boolean := by
  rw [parseInline, if_neg (by decide), if_neg (by decide), if_neg (by decide), if_neg (by decide),
    if_pos rfl]

theorem parseInline_dateTime (lex : List Char) :
    parseInline lex Vocab.xsdDateTime = (parseDateTime lex false).map .dateTime := by
  rw [parseInline, if_neg (by decide), if_neg (by decide), if_neg (by decide), if_neg (by decide),
    if_neg (by decide), if_pos rfl]

theorem parseInline_date (lex : List Char) :
    parseInline lex Vocab.xsdDate = (parseDateTime lex true).map .dateTime := by
  rw [parseInline, if_neg (by decide), if_neg (by decide), if_neg (by decide), if_neg (by decide),
    if_neg (by decide), if_neg (by decide), if_pos rfl]

section Spellings

variable [FloatWriter]

/-- A canonical spelling of an exact datatype is read back. -/
theorem parseInline_canonicalLexical {v : InlineValue} (exact_ : v.datatypeIri ∈ Vocab.exact)
    (range : v.InRange) (canonical : v.Canonical) :
    parseInline v.canonicalLexical v.datatypeIri = some v := by
  cases v with
  | integer n =>
      show parseInline (renderInt n) Vocab.xsdInteger = _
      obtain ⟨low, high⟩ := range
      rw [parseInline_integer, parseI64_renderInt (by omega) (by omega)]
      rfl
  | decimal unscaled scale =>
      show parseInline (renderDecimal unscaled scale) Vocab.xsdDecimal = _
      rw [parseInline_decimal, parseDecimal_renderDecimal range canonical]
  | double bits declaredFloat =>
      cases declaredFloat with
      | false => exact absurd exact_ (show Vocab.xsdDouble ∉ Vocab.exact by decide)
      | true => exact absurd exact_ (show Vocab.xsdFloat ∉ Vocab.exact by decide)
  | boolean b =>
      show parseInline _ Vocab.xsdBoolean = _
      rw [parseInline_boolean]
      cases b <;> simp [InlineValue.canonicalLexical, parseBoolean]
  | dateTime dt =>
      have read := parseDateTime_renderDateTime range
      cases kind : dt.dateOnly with
      | true =>
          rw [kind] at read
          simp only [InlineValue.datatypeIri, InlineValue.canonicalLexical, kind, if_true,
            parseInline_date, read, Option.map_some]
      | false =>
          rw [kind] at read
          simp only [InlineValue.datatypeIri, InlineValue.canonicalLexical, kind,
            Bool.false_eq_true, if_false, parseInline_dateTime, read, Option.map_some]

omit [FloatWriter] in
/-- A value that is read has the datatype asked for and is canonical, and encoding it checks
the ranges. -/
theorem parseInline_spec {lex : List Char} {dt : String} {v : InlineValue}
    (exact_ : dt ∈ Vocab.exact) (h : parseInline lex dt = some v) :
    v.datatypeIri = dt ∧ v.Canonical ∧ ∀ id, v.inline = some id → v.InRange := by
  simp only [Vocab.exact, List.mem_cons, List.not_mem_nil, or_false] at exact_
  obtain rfl | rfl | rfl | rfl | rfl := exact_
  · rw [parseInline_integer] at h
    obtain ⟨n, -, rfl⟩ := Option.map_eq_some_iff.mp h
    refine ⟨rfl, trivial, fun id run => ?_⟩
    by_contra outside
    have refused : (InlineValue.integer n).inline = none := if_neg outside
    rw [refused] at run
    cases run
  · rw [parseInline_decimal] at h
    obtain ⟨u, s, rfl, canonical, range⟩ := canonical_of_decimalOf h
    exact ⟨rfl, canonical, fun _ _ => range⟩
  · rw [parseInline_boolean] at h
    obtain ⟨b, -, rfl⟩ := Option.map_eq_some_iff.mp h
    exact ⟨rfl, trivial, fun _ _ => trivial⟩
  · rw [parseInline_date] at h
    obtain ⟨d, read, rfl⟩ := Option.map_eq_some_iff.mp h
    refine ⟨?_, trivial, fun id => inRange_of_inline⟩
    rw [InlineValue.datatypeIri, dateOnly_of_parseDateTime read, if_pos rfl]
  · rw [parseInline_dateTime] at h
    obtain ⟨d, read, rfl⟩ := Option.map_eq_some_iff.mp h
    refine ⟨?_, trivial, fun id => inRange_of_inline⟩
    rw [InlineValue.datatypeIri, dateOnly_of_parseDateTime read, if_neg (by decide)]

/-- A spelling inlines when it is the canonical one of a value in range, and its id carries
that value. -/
theorem tryInline_eq_some {lex : List Char} {dt : String} (exact_ : dt ∈ Vocab.exact) {id : Col} :
    Col.tryInline lex dt = some id ↔
      ∃ v : InlineValue, v.InRange ∧ v.Canonical ∧ v.datatypeIri = dt ∧ v.canonicalLexical = lex ∧
        v.inline = some id := by
  constructor
  · intro h
    unfold Col.tryInline at h
    split at h
    · cases h
    · next v read =>
        split at h
        · cases h
        · next same =>
            obtain ⟨datatype, canonical, range⟩ := parseInline_spec exact_ read
            exact ⟨v, range id h, canonical, datatype, not_not.mp same, h⟩
  · rintro ⟨v, range, canonical, rfl, rfl, run⟩
    rw [Col.tryInline, parseInline_canonicalLexical exact_ range canonical]
    exact (if_neg (not_not.mpr rfl)).trans run

/-- Inline ids are a canonical bijection: a spelling of an exact datatype inlines when and only
when it is the canonical spelling of a value in the payload range, its id then decodes to a value
with that spelling and datatype, and two spellings with one id are one. -/
theorem tryInline_bijection :
    (∀ (lex : List Char) (dt : String), dt ∈ Vocab.exact →
      ((∃ id, Col.tryInline lex dt = some id) ↔
        ∃ v : InlineValue, v.InRange ∧ v.Canonical ∧ v.datatypeIri = dt ∧
          v.canonicalLexical = lex)) ∧
    (∀ (lex : List Char) (dt : String) (id : Col), dt ∈ Vocab.exact →
      Col.tryInline lex dt = some id →
        ∃ v, id.decode = some v ∧ v.canonicalLexical = lex ∧ v.datatypeIri = dt) ∧
    (∀ (lex lex' : List Char) (dt dt' : String) (id : Col), dt ∈ Vocab.exact → dt' ∈ Vocab.exact →
      Col.tryInline lex dt = some id → Col.tryInline lex' dt' = some id →
        lex = lex' ∧ dt = dt') := by
  have decodes {lex : List Char} {dt : String} {id : Col} (exact_ : dt ∈ Vocab.exact)
      (h : Col.tryInline lex dt = some id) :
      ∃ v, id.decode = some v ∧ v.canonicalLexical = lex ∧ v.datatypeIri = dt := by
    obtain ⟨v, range, -, datatype, spelling, run⟩ := (tryInline_eq_some exact_).mp h
    obtain ⟨id', run', back⟩ := InlineValue.decode_inline range
    rw [run] at run'
    cases run'
    exact ⟨v, back, spelling, datatype⟩
  refine ⟨fun lex dt exact_ => ⟨?_, ?_⟩, fun lex dt id exact_ h => decodes exact_ h, ?_⟩
  · rintro ⟨id, h⟩
    obtain ⟨v, range, canonical, datatype, spelling, -⟩ := (tryInline_eq_some exact_).mp h
    exact ⟨v, range, canonical, datatype, spelling⟩
  · rintro ⟨v, range, canonical, datatype, spelling⟩
    obtain ⟨id, run, -⟩ := InlineValue.decode_inline range
    exact ⟨id, (tryInline_eq_some exact_).mpr ⟨v, range, canonical, datatype, spelling, run⟩⟩
  · intro lex lex' dt dt' id exact_ exact' h h'
    obtain ⟨v, back, spelling, datatype⟩ := decodes exact_ h
    obtain ⟨v', back', spelling', datatype'⟩ := decodes exact' h'
    rw [back] at back'
    cases back'
    exact ⟨spelling.symm.trans spelling', datatype.symm.trans datatype'⟩

end Spellings

end Graphy
