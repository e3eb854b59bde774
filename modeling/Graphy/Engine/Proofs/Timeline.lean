import Graphy.Engine.Proofs.Temporal

/-!
# Comparing along the timeline

After moving, day and second make up the instant, and the second lies within the day
but for a time that its offset moved into the last second before its date.  There the
comparison by days goes wrong, and nowhere else but where decimals do not fit.
-/

namespace Graphy.Temporal

/-! ## Moving -/

/-- The seconds from the start of the date. -/
def elapsed (t : Temporal) : ℚ := t.second.value - 60 * t.offsetMinutes.getD 0

theorem instant_eq (t : Temporal) : instant t = 86400 * t.day + elapsed t := by
  unfold instant elapsed
  ring

theorem value_shifted (t : Temporal) : Scaled.value (shifted t) t.second.scale = elapsed t := by
  unfold shifted elapsed
  rw [Scaled.value_sub]
  congr 1
  rw [Scaled.value]
  push_cast
  field_simp

/-- Where a time comes to lie. -/
structure Lies (t : Temporal) : Prop where
  carry : -1 ≤ carry t ∧ carry t ≤ 1
  value : (within t).value = elapsed t - 86400 * Temporal.carry t
  low : -1 < (within t).value
  high : (within t).value < 86400
  late : (within t).value < 0 ↔ Late t
  stays : Late t → Temporal.carry t = 0

theorem offset_getD {t : Temporal} (h : Sane t) :
    -(14 * 60) ≤ t.offsetMinutes.getD 0 ∧ t.offsetMinutes.getD 0 ≤ 14 * 60 := by
  cases zone : t.offsetMinutes with
  | none => simp
  | some o => exact h.offset o zone

theorem lies_of_sane {t : Temporal} (h : Sane t) : Lies t := by
  obtain ⟨lowO, highO⟩ := offset_getD h
  obtain ⟨clock, range⟩ := h
  have low : (-50400 : ℚ) ≤ elapsed t := by
    have bound : (t.offsetMinutes.getD 0 : ℚ) ≤ 14 * 60 := by exact_mod_cast highO
    have := clock.low
    unfold elapsed
    linarith
  have high : elapsed t ≤ 136800 := by
    have bound : (-(14 * 60) : ℚ) ≤ t.offsetMinutes.getD 0 := by exact_mod_cast lowO
    have := clock.high
    unfold elapsed
    linarith
  have value : (within t).value = elapsed t - 86400 * carry t := by
    rw [← value_shifted, within, Dec.value, Scaled.value_sub]
    congr 1
    rw [Scaled.value]
    push_cast
    field_simp
  have late : Late t ↔ -1 < elapsed t ∧ elapsed t < 0 := by
    unfold Late
    rw [instant_eq]
    constructor <;> rintro ⟨h, h'⟩ <;> constructor <;> linarith
  obtain ⟨whole, whole_eq⟩ : ∃ w, w = (shifted t).tdiv (10 ^ t.second.scale) := ⟨_, rfl⟩
  have carry_eq : carry t = whole / 86400 := by rw [whole_eq, carry]
  have toward := Scaled.tdiv_eq (shifted t) t.second.scale
  rw [value_shifted, ← whole_eq] at toward
  by_cases sign : 0 ≤ elapsed t
  · rw [if_pos sign] at toward
    have below : (whole : ℚ) ≤ elapsed t := toward ▸ Int.floor_le _
    have above : elapsed t < whole + 1 := toward ▸ Int.lt_floor_add_one _
    have nonneg : 0 ≤ whole := toward ▸ Int.floor_nonneg.mpr sign
    have top : whole ≤ 136800 := by exact_mod_cast below.trans high
    have parts : 86400 * carry t ≤ whole ∧ whole + 1 ≤ 86400 * carry t + 86400 := by omega
    have lowPart : (86400 * carry t : ℚ) ≤ whole := by exact_mod_cast parts.1
    have highPart : (whole + 1 : ℚ) ≤ 86400 * carry t + 86400 := by exact_mod_cast parts.2
    refine ⟨by omega, value, by linarith, by linarith, ?_, fun isLate => ?_⟩
    · rw [late]
      constructor
      · intro negative
        linarith
      · intro isLate
        linarith
    · linarith [late.mp isLate]
  · rw [if_neg sign] at toward
    have below : elapsed t ≤ whole := toward ▸ Int.le_ceil _
    have above : whole < elapsed t + 1 := toward ▸ Int.ceil_lt_add_one _
    have bottom : -50400 ≤ whole := by exact_mod_cast low.trans below
    have nonpos : whole ≤ 0 := by
      have : (whole : ℚ) < 1 := by linarith
      have : whole < 1 := by exact_mod_cast this
      omega
    have parts : 86400 * carry t ≤ whole ∧ whole + 1 ≤ 86400 * carry t + 86400 := by omega
    have lowPart : (86400 * carry t : ℚ) ≤ whole := by exact_mod_cast parts.1
    have highPart : (whole + 1 : ℚ) ≤ 86400 * carry t + 86400 := by exact_mod_cast parts.2
    have stays (isLate : -1 < elapsed t) : carry t = 0 := by
      have : (-1 : ℚ) < whole := by linarith
      have : -1 < whole := by exact_mod_cast this
      omega
    refine ⟨by omega, value, by linarith, by linarith, ?_, fun isLate => stays (late.mp isLate).1⟩
    rw [late]
    constructor
    · intro negative
      have noDay : carry t = 0 := by
        by_contra moved
        have back : carry t = -1 := by omega
        rw [back] at value
        push_cast at value
        linarith
      rw [noDay, Int.cast_zero, mul_zero, sub_zero] at value
      rw [noDay] at lowPart
      push_cast at lowPart
      exact ⟨by linarith, by linarith⟩
    · intro isLate
      rw [value, stays isLate.1]
      push_cast
      linarith

instance Moves.decidable (t : Temporal) : Decidable (Moves t) :=
  decidable_of_iff (Int128.Fits (t.offsetMinutes.getD 0 * 60 * 10 ^ t.second.scale) ∧
      Int128.Fits (shifted t) ∧ Int128.Fits (carry t * 86400 * 10 ^ t.second.scale) ∧
      Fits64 (t.day + carry t))
    ⟨fun h => ⟨h.1, h.2.1, h.2.2.1, h.2.2.2⟩, fun h => ⟨h.offset, h.second, h.back, h.day⟩⟩

/-- A time placed on the timeline, where that fits. -/
def placed (t : Temporal) : Option (Int × Dec) :=
  if Moves t then some (t.day + carry t, within t) else none

/-- The second of the day fits where the shifted second and the day do. -/
theorem fits_within {t : Temporal} (h : Lies t) (second : Int128.Fits (shifted t))
    (back : Int128.Fits (carry t * 86400 * 10 ^ t.second.scale)) :
    Int128.Fits (shifted t - carry t * 86400 * 10 ^ t.second.scale) := by
  obtain ⟨p, power⟩ : ∃ p : Int, p = 10 ^ t.second.scale := ⟨_, rfl⟩
  have positive : 0 < p := power ▸ by positivity
  have scaled : (10 : ℚ) ^ t.second.scale = p := by rw [power]; push_cast; rfl
  have low := h.low
  have high := h.high
  simp only [within, Dec.value, Scaled.value, scaled] at low high
  rw [lt_div_iff₀ (by exact_mod_cast positive)] at low
  rw [div_lt_iff₀ (by exact_mod_cast positive)] at high
  rw [← power] at low high back ⊢
  have low : -1 * p < shifted t - carry t * 86400 * p := by exact_mod_cast low
  have high : shifted t - carry t * 86400 * p < 86400 * p := by exact_mod_cast high
  unfold Int128.Fits Int128.minimum Int128.maximum at *
  have days : carry t = 0 ∨ carry t = 1 ∨ carry t = -1 := by
    have := h.carry
    omega
  rcases days with days | days | days <;> rw [days] at low high back ⊢ <;> omega

theorem carried_eq {t : Temporal} (h : Lies t) (wf : Dec.Wf ⟨shifted t, t.second.scale⟩)
    (small : t.second.scale ≤ 38) :
    carried t.day ⟨shifted t, t.second.scale⟩ (carry t) =
      if Int128.Fits (carry t * 86400 * 10 ^ t.second.scale) ∧ Fits64 (t.day + carry t) then
        some (t.day + carry t, within t)
      else none := by
  have whole : Int128.Fits (carry t * 86400) ∧ Fits64 (carry t) := by
    have := h.carry
    unfold Int128.Fits Int128.minimum Int128.maximum Fits64
    omega
  have taken := Dec.checkedSub_whole wf small (carry t * 86400)
  rw [show Dec.fromInt = Dec.fromI128 from rfl] at taken
  rw [carried, Int128.checked_of_fits whole.1]
  simp only [bind, pure, Option.bind_some, taken, checked64, if_pos whole.2]
  by_cases back : Int128.Fits (carry t * 86400 * 10 ^ t.second.scale)
  · rw [if_pos ⟨back, fits_within h wf.fits back⟩, Option.bind_some]
    by_cases day : Fits64 (t.day + carry t)
    · rw [if_pos day, if_pos ⟨back, day⟩]
      rfl
    · rw [if_neg day, if_neg (day ·.2)]
      rfl
  · simp only [back, false_and, if_false, Option.bind_none]

theorem some_bind {α β : Type} (a : α) (f : α → OptionT (Except Panic) β) :
    OptionT.mk (.ok (some a)) >>= f = f a := rfl

theorem none_bind {α β : Type} (f : α → OptionT (Except Panic) β) :
    OptionT.mk (.ok none) >>= f = OptionT.mk (.ok none) := rfl

theorem normalize_eq {t : Temporal} {assumed : Int} (sane : Sane (zoned t assumed)) :
    normalize t assumed = OptionT.mk (.ok (placed (zoned t assumed))) := by
  obtain ⟨z, same⟩ : ∃ z, z = zoned t assumed := ⟨_, rfl⟩
  have offset : t.offsetMinutes.getD assumed = z.offsetMinutes.getD 0 := by rw [same]; rfl
  have second : t.second = z.second := by rw [same]; rfl
  have day : t.day = z.day := by rw [same]; rfl
  rw [← same] at sane ⊢
  obtain ⟨wf, small, -, -⟩ := sane.clock
  have lies := lies_of_sane sane
  have minutes : Fits64 (z.offsetMinutes.getD 0 * 60) := by
    have range := offset_getD sane
    unfold Fits64
    omega
  have taken := Dec.checkedSub_whole wf small (z.offsetMinutes.getD 0 * 60)
  simp only [normalize, offset, second, day, checked64, if_pos minutes]
  by_cases fits : Int128.Fits (z.offsetMinutes.getD 0 * 60 * 10 ^ z.second.scale) ∧
      Int128.Fits (shifted z)
  · rw [if_pos (show _ ∧ Int128.Fits (z.second.unscaled - _) from fits)] at taken
    have whole : (Dec.fromInt (z.offsetMinutes.getD 0 * 60)).Wf := by
      refine Dec.fromI128_wf ?_
      have range := offset_getD sane
      unfold Int128.Fits Int128.minimum Int128.maximum
      omega
    have wf' : Dec.Wf ⟨shifted z, z.second.scale⟩ := (Dec.checkedSub_spec taken).2 wf whole
    have trunc := wf'.trunc_eq
    have carries := carried_eq lies wf' small
    simp only at trunc
    rw [show Dec.mk (z.second.unscaled - _) _ = Dec.mk (shifted z) z.second.scale from rfl] at taken
    have moves : Moves z ↔ Int128.Fits (carry z * 86400 * 10 ^ z.second.scale) ∧
        Fits64 (z.day + carry z) :=
      ⟨fun h => ⟨h.back, h.day⟩, fun h => ⟨fits.1, fits.2, h.1, h.2⟩⟩
    have placed_eq : placed z = carried z.day ⟨shifted z, z.second.scale⟩ (carry z) := by
      rw [carries, placed]
      exact if_congr moves rfl rfl
    have run : OptionT.lift (Dec.trunc ⟨shifted z, z.second.scale⟩) =
        OptionT.mk (.ok (some ((shifted z).tdiv (10 ^ z.second.scale)))) := by
      rw [trunc]
      rfl
    rw [some_bind, taken, some_bind, run, some_bind, placed_eq]
    rfl
  · have none_ : placed z = none := if_neg fun h => fits ⟨h.offset, h.second⟩
    rw [if_neg (show ¬ (_ ∧ Int128.Fits (z.second.unscaled - _)) from fits)] at taken
    rw [some_bind, taken, none_bind, none_]

/-! ## Order of what lies on the timeline -/

/-- The day a time comes to lie in. -/
def lyingDay (t : Temporal) : Int := t.day + carry t

theorem Lies.instant_eq {t : Temporal} (h : Lies t) :
    instant t = 86400 * lyingDay t + (within t).value := by
  rw [Temporal.instant_eq, h.value, lyingDay]
  push_cast
  ring

variable {s t : Temporal}

/-- A late time is overtaken from the day before only. -/
theorem not_overtakes (hs : Lies s) (ht : Lies t) (days : lyingDay s ≤ lyingDay t) :
    ¬ Overtakes s t := by
  intro h
  have nonneg : 0 ≤ (within t).value := not_lt.mp (mt ht.late.mp h.other)
  have before := h.before
  have days : (lyingDay s : ℚ) ≤ lyingDay t := by exact_mod_cast days
  have own : lyingDay s = s.day := by rw [lyingDay, hs.stays h.late, add_zero]
  rw [ht.instant_eq, ← own] at before
  linarith

/-- Of two days the later one's time is not after the other only when it is late. -/
theorem overtakes_iff (hs : Lies s) (ht : Lies t) (days : lyingDay s < lyingDay t) :
    Overtakes t s ↔ instant t ≤ instant s := by
  refine ⟨Overtakes.after, fun after => ?_⟩
  have next : (lyingDay s : ℚ) + 1 ≤ lyingDay t := by exact_mod_cast days
  have apart := after
  rw [hs.instant_eq, ht.instant_eq] at apart
  have lowT := ht.low
  have highS := hs.high
  have late : Late t := ht.late.mp (by linarith)
  have own : lyingDay t = t.day := by rw [lyingDay, ht.stays late, add_zero]
  refine ⟨late, fun lateS => ?_, after, ?_⟩
  · have negative := hs.late.mpr lateS
    linarith
  · rw [hs.instant_eq, ← own]
    linarith

theorem not_unaligned (days : lyingDay s ≠ lyingDay t) : ¬ Unaligned s t := fun h => days h.day

section Order

variable [Ieee.PowersOfTen]

/-- What the code compares. -/
def lyingOrder (s t : Temporal) : Ordering :=
  order (lyingDay s, within s) (lyingDay t, within t)

theorem lyingOrder_of_days (days : lyingDay s ≠ lyingDay t) :
    lyingOrder s t = cmp (lyingDay s) (lyingDay t) := by
  change (cmp (lyingDay s) (lyingDay t)).then (Dec.compare (within s) (within t)) = _
  rcases lt_or_gt_of_ne days with less | greater
  · rw [less.cmp_eq_lt]
    rfl
  · rw [greater.cmp_eq_gt]
    rfl

/-- On one day the seconds decide, as the decimals tell them. -/
theorem lyingOrder_of_same (days : lyingDay s = lyingDay t) :
    lyingOrder s t = Dec.compare (within s) (within t) := by
  rw [lyingOrder, order, days, cmp_self_eq_eq]
  rfl

omit [Ieee.PowersOfTen] in
theorem cmp_instant_of_same (hs : Lies s) (ht : Lies t) (days : lyingDay s = lyingDay t) :
    cmp (instant s) (instant t) = cmp (within s).value (within t).value := by
  rw [hs.instant_eq, ht.instant_eq, days]
  exact cmp_add_left _ _ _

/-- Seconds without a common scale come out one way when their doubles do. -/
theorem lyingOrder_of_unaligned (hs : Lies s) (ht : Lies t) (movesS : Moves s) (movesT : Moves t)
    (days : lyingDay s = lyingDay t) (far : ¬ Dec.CommonScale (within s) (within t))
    {o : Ordering} (differ : o ≠ .eq) :
    (lyingOrder s t = o ↔ Ieee.double.partialCmp (within s).toF64 (within t).toF64 = some o) ∧
      (cmp (instant s) (instant t) = o ↔ Dec.farOrder (within s) (within t) = o) := by
  constructor
  · rw [lyingOrder_of_same days, Dec.compare, Dec.aligned_eq_none_iff.mpr far]
    show Option.getD _ _ = o ↔ _
    cases Ieee.double.partialCmp (within s).toF64 (within t).toF64 with
    | none => exact iff_of_false differ.symm (Option.some_ne_none _).symm
    | some o' => exact Option.some_inj.symm
  · rw [cmp_instant_of_same hs ht days, Dec.cmp_value_of_far
      (fits_within hs movesS.second movesS.back) (fits_within ht movesT.second movesT.back) far]

/-- Seconds of one day at a common scale come out right. -/
theorem lyingOrder_of_commonScale (hs : Lies s) (ht : Lies t) (days : lyingDay s = lyingDay t)
    (common : Dec.CommonScale (within s) (within t)) :
    lyingOrder s t = cmp (instant s) (instant t) := by
  rw [lyingOrder_of_same days, Dec.compare_of_commonScale common, cmp_instant_of_same hs ht days]

theorem tellsBefore_iff (hs : Lies s) (ht : Lies t) (movesS : Moves s) (movesT : Moves t) :
    TellsBefore s t ↔ (lyingOrder s t = .lt ↔ instant s < instant t) := by
  rcases lt_trichotomy (lyingDay s) (lyingDay t) with less | same | greater
  · have overtaken := not_overtakes hs ht less.le
    have overtaking := overtakes_iff hs ht less
    rw [lyingOrder_of_days less.ne, less.cmp_eq_lt]
    constructor
    · intro h
      exact iff_of_true rfl (not_le.mp (mt overtaking.mpr h.overtaking))
    · intro h
      exact ⟨fun o => (overtaken o).elim, fun o => not_le.mpr (h.mp rfl) o.after,
        fun u => (not_unaligned less.ne u).elim⟩
  · have overtaken := not_overtakes hs ht same.le
    have overtaking := not_overtakes ht hs same.ge
    by_cases common : Dec.CommonScale (within s) (within t)
    · rw [lyingOrder_of_commonScale hs ht same common, cmp_eq_lt_iff]
      exact iff_of_true ⟨fun o => (overtaken o).elim, overtaking, fun u => (u.seconds common).elim⟩
        Iff.rfl
    · obtain ⟨told, true_⟩ :=
        lyingOrder_of_unaligned hs ht movesS movesT same common (o := .lt) (by simp)
      rw [told, ← cmp_eq_lt_iff, true_]
      exact ⟨fun h => h.doubles ⟨same, common⟩,
        fun h => ⟨fun o => (overtaken o).elim, overtaking, fun _ => h⟩⟩
  · have overtaken := overtakes_iff ht hs greater
    have overtaking := not_overtakes ht hs greater.le
    rw [lyingOrder_of_days greater.ne', greater.cmp_eq_gt]
    constructor
    · intro h
      refine iff_of_false (by simp) fun before => ?_
      exact before.ne (h.overtaken (overtaken.mpr before.le))
    · intro h
      exact ⟨fun o => o.after.antisymm (not_lt.mp fun before => by simpa using h.mpr before),
        overtaking, fun u => (not_unaligned greater.ne' u).elim⟩

theorem tellsAfter_iff (hs : Lies s) (ht : Lies t) (movesS : Moves s) (movesT : Moves t) :
    TellsAfter s t ↔ (lyingOrder s t = .gt ↔ instant t < instant s) := by
  rcases lt_trichotomy (lyingDay s) (lyingDay t) with less | same | greater
  · have overtaken := not_overtakes hs ht less.le
    have overtaking := overtakes_iff hs ht less
    rw [lyingOrder_of_days less.ne, less.cmp_eq_lt]
    constructor
    · intro h
      refine iff_of_false (by simp) fun after => ?_
      exact after.ne' (h.overtaking (overtaking.mpr after.le))
    · intro h
      exact ⟨overtaken, fun o => (o.after.antisymm
        (not_lt.mp fun after => by simpa using h.mpr after)).symm,
        fun u => (not_unaligned less.ne u).elim⟩
  · have overtaken := not_overtakes hs ht same.le
    have overtaking := not_overtakes ht hs same.ge
    by_cases common : Dec.CommonScale (within s) (within t)
    · rw [lyingOrder_of_commonScale hs ht same common, cmp_eq_gt_iff]
      exact iff_of_true ⟨overtaken, fun o => (overtaking o).elim, fun u => (u.seconds common).elim⟩
        Iff.rfl
    · obtain ⟨told, true_⟩ :=
        lyingOrder_of_unaligned hs ht movesS movesT same common (o := .gt) (by simp)
      rw [told, ← cmp_eq_gt_iff, true_]
      exact ⟨fun h => h.doubles ⟨same, common⟩,
        fun h => ⟨overtaken, fun o => (overtaking o).elim, fun _ => h⟩⟩
  · have overtaken := overtakes_iff ht hs greater
    have overtaking := not_overtakes ht hs greater.le
    rw [lyingOrder_of_days greater.ne', greater.cmp_eq_gt]
    constructor
    · intro h
      exact iff_of_true rfl (not_le.mp (mt overtaken.mpr h.overtaken))
    · intro h
      exact ⟨fun o => not_le.mpr (h.mp rfl) o.after, fun o => (overtaking o).elim,
        fun u => (not_unaligned greater.ne' u).elim⟩

/-- Times more than a day and a second apart are ordered by their days. -/
theorem lyingOrder_of_far (hs : Lies s) (ht : Lies t) (far : instant s + 86401 ≤ instant t) :
    lyingOrder s t = .lt := by
  have days : lyingDay s < lyingDay t := by
    rw [hs.instant_eq, ht.instant_eq] at far
    have low := hs.low
    have high := ht.high
    have less : (lyingDay s : ℚ) < lyingDay t := by linarith
    exact_mod_cast less
  rw [lyingOrder_of_days days.ne, days.cmp_eq_lt]

end Order

/-! ## The comparison -/

theorem Sane.zoned {t : Temporal} (h : Sane t) (assumed : Int) (low : -(14 * 60) ≤ assumed)
    (high : assumed ≤ 14 * 60) : Sane (zoned t assumed) := by
  refine ⟨h.clock, fun o mem => ?_⟩
  cases mem
  cases zone : t.offsetMinutes with
  | none => exact ⟨low, high⟩
  | some o => exact h.offset o zone

theorem zoned_of_some {t : Temporal} {o : Int} (zone : t.offsetMinutes = some o) (assumed : Int) :
    zoned t assumed = t := by
  obtain ⟨day, second, offset⟩ := t
  cases zone
  rfl

theorem instant_zoned {t : Temporal} (zone : t.offsetMinutes = none) (assumed : Int) :
    instant (zoned t assumed) = 86400 * t.day + t.second.value - 60 * assumed := by
  simp [instant, zoned, zone]

/-- An outcome is the order of two numbers when it tells each way right. -/
theorem eq_cmp_iff {o : Ordering} {x y : ℚ} :
    o = cmp x y ↔ (o = .lt ↔ x < y) ∧ (o = .gt ↔ y < x) := by
  rcases lt_trichotomy x y with less | rfl | greater
  · rw [less.cmp_eq_lt]
    have asymmetric := less.asymm
    cases o <;> simp [less, asymmetric]
  · rw [cmp_self_eq_eq]
    cases o <;> simp
  · rw [greater.cmp_eq_gt]
    have asymmetric := greater.asymm
    cases o <;> simp [greater, asymmetric]

/-- The interval is told when each end is, since the ends are far apart. -/
theorem outside_iff {before after : Ordering} {below above : Prop}
    (far : below → after ≠ .gt ∧ ¬ above) :
    (outside before after = some .lt ↔ below) ∧ (outside before after = some .gt ↔ above) ↔
      (before = .lt ↔ below) ∧ (after = .gt ↔ above) := by
  have less : outside before after = some .lt ↔ before = .lt := by
    unfold outside
    cases before <;> cases after <;> simp
  have greater : outside before after = some .gt ↔ before ≠ .lt ∧ after = .gt := by
    unfold outside
    cases before <;> cases after <;> simp
  rw [less, greater]
  refine and_congr_right fun told => ?_
  by_cases holds : below
  · obtain ⟨notAfter, notAbove⟩ := far holds
    simp [notAfter, notAbove]
  · rw [and_iff_right (mt told.mp holds)]

theorem outside_ne_eq (before after : Ordering) : outside before after ≠ some .eq := by
  unfold outside
  cases before <;> cases after <;> simp

theorem placed_of_moves {t : Temporal} (h : Moves t) : placed t = some (lyingDay t, within t) :=
  if_pos h

theorem placed_of_not_moves {t : Temporal} (h : ¬ Moves t) : placed t = none := if_neg h

/-- Three times placed one after the other. -/
theorem place_three {x y z : Temporal} (f : Int × Dec → Int × Dec → Int × Dec → Option Ordering) :
    (do let xv ← OptionT.mk (.ok (placed x))
        let yv ← OptionT.mk (.ok (placed y))
        let zv ← OptionT.mk (.ok (placed z))
        OptionT.mk (.ok (f xv yv zv)) : OptionT (Except Panic) Ordering) =
      OptionT.mk (.ok (if Moves x ∧ Moves y ∧ Moves z then
        f (lyingDay x, within x) (lyingDay y, within y) (lyingDay z, within z) else none)) := by
  by_cases mx : Moves x
  · rw [placed_of_moves mx, some_bind]
    by_cases my : Moves y
    · rw [placed_of_moves my, some_bind]
      by_cases mz : Moves z
      · rw [placed_of_moves mz, some_bind, if_pos ⟨mx, my, mz⟩]
      · rw [placed_of_not_moves mz, none_bind, if_neg (mz ·.2.2)]
    · rw [placed_of_not_moves my, none_bind, if_neg (my ·.2.1)]
  · rw [placed_of_not_moves mx, none_bind, if_neg (mx ·.1)]

theorem either_of {p q r : Prop} (h : p) : p ∧ q ∨ ¬ p ∧ r ↔ q := by simp [h]

theorem either_of_not {p q r : Prop} (h : ¬ p) : p ∧ q ∨ ¬ p ∧ r ↔ r := by simp [h]

/-- The ends of the interval of a time without an offset are 28 hours apart. -/
theorem interval_width {t : Temporal} (zone : t.offsetMinutes = none) :
    instant (zoned t (-14 * 60)) = instant (zoned t (14 * 60)) + 100800 := by
  rw [instant_zoned zone, instant_zoned zone]
  push_cast
  ring

/-- The interval of a time without an offset, by its earliest end. -/
theorem forall_offset_earliest {lower : ℚ} {t : Temporal} (zone : t.offsetMinutes = none) :
    (∀ o, -(14 * 60) ≤ o → o ≤ 14 * 60 → lower < instant (zoned t o)) ↔
      lower < instant (zoned t (14 * 60)) := by
  constructor
  · exact fun h => h _ (by omega) le_rfl
  · intro h o low high
    have bound : (o : ℚ) ≤ 14 * 60 := by exact_mod_cast high
    rw [instant_zoned zone] at h ⊢
    push_cast at h
    linarith

theorem forall_offset_latest {upper : ℚ} {t : Temporal} (zone : t.offsetMinutes = none) :
    (∀ o, -(14 * 60) ≤ o → o ≤ 14 * 60 → instant (zoned t o) < upper) ↔
      instant (zoned t (-14 * 60)) < upper := by
  constructor
  · exact fun h => h _ (by omega) (by omega)
  · intro h o low high
    have bound : (-(14 * 60) : ℚ) ≤ o := by exact_mod_cast low
    rw [instant_zoned zone] at h ⊢
    push_cast at h
    linarith

theorem followsTimeline_alike {r s : Reading} {o : Option Ordering}
    (same : r.offset.isSome = s.offset.isSome) :
    FollowsTimeline r s o ↔ o = some (cmp (r.instant 0) (s.instant 0)) :=
  ⟨fun h => h.alike same, fun h => ⟨fun _ => h, (absurd same ·), (absurd same ·), (absurd same ·)⟩⟩

theorem followsTimeline_mixed {r s : Reading} {o : Option Ordering}
    (differ : r.offset.isSome ≠ s.offset.isSome) (ordered : o ≠ some .eq) :
    FollowsTimeline r s o ↔
      (o = some .lt ↔ ∀ k, -(14 * 60) ≤ k → k ≤ 14 * 60 → r.instant k < s.instant k) ∧
      (o = some .gt ↔ ∀ k, -(14 * 60) ≤ k → k ≤ 14 * 60 → s.instant k < r.instant k) :=
  ⟨fun h => ⟨h.less differ, h.greater differ⟩,
    fun h => ⟨(absurd · differ), fun _ => h.1, fun _ => h.2, fun _ => ordered⟩⟩

section Compare

variable [Ieee.PowersOfTen] {a b : Temporal}

/-- What the comparison of the first with the second's interval answers. -/
def leftResult (a b : Temporal) : Option Ordering :=
  if Moves a ∧ Moves (zoned b (14 * 60)) ∧ Moves (zoned b (-14 * 60)) then
    outside (lyingOrder a (zoned b (14 * 60))) (lyingOrder a (zoned b (-14 * 60)))
  else none

def rightResult (a b : Temporal) : Option Ordering :=
  if Moves b ∧ Moves (zoned a (14 * 60)) ∧ Moves (zoned a (-14 * 60)) then
    outside (lyingOrder (zoned a (-14 * 60)) b) (lyingOrder (zoned a (14 * 60)) b)
  else none

def alikeResult (a b : Temporal) : Option Ordering :=
  if Moves (zoned a 0) ∧ Moves (zoned b 0) then some (lyingOrder (zoned a 0) (zoned b 0)) else none

/-- What the comparison answers. -/
def result (a b : Temporal) : Option Ordering :=
  match a.offsetMinutes, b.offsetMinutes with
  | some _, none => leftResult a b
  | none, some _ => rightResult a b
  | _, _ => alikeResult a b

theorem compare_alike (sa : Sane a) (sb : Sane b) :
    (do let av ← normalize a 0
        let bv ← normalize b 0
        return order av bv : OptionT (Except Panic) Ordering) =
      OptionT.mk (.ok (alikeResult a b)) := by
  rw [normalize_eq (sa.zoned 0 (by omega) (by omega)),
    normalize_eq (sb.zoned 0 (by omega) (by omega))]
  unfold alikeResult
  by_cases ma : Moves (zoned a 0)
  · rw [placed_of_moves ma, some_bind]
    by_cases mb : Moves (zoned b 0)
    · rw [placed_of_moves mb, some_bind, if_pos ⟨ma, mb⟩]
      rfl
    · rw [placed_of_not_moves mb, none_bind, if_neg (mb ·.2)]
  · rw [placed_of_not_moves ma, none_bind, if_neg (ma ·.1)]

theorem compare_eq (sa : Sane a) (sb : Sane b) : (compare a b).run = .ok (result a b) := by
  have na := normalize_eq (sa.zoned 0 (by omega) (by omega))
  have nb := normalize_eq (sb.zoned 0 (by omega) (by omega))
  have ea := normalize_eq (sa.zoned (14 * 60) (by omega) (by omega))
  have eb := normalize_eq (sb.zoned (14 * 60) (by omega) (by omega))
  have la := normalize_eq (sa.zoned (-14 * 60) (by omega) (by omega))
  have lb := normalize_eq (sb.zoned (-14 * 60) (by omega) (by omega))
  unfold compare result
  cases za : a.offsetMinutes with
  | some o =>
      cases zb : b.offsetMinutes with
      | some o' => exact congrArg OptionT.run (compare_alike sa sb)
      | none =>
          rw [zoned_of_some za] at na
          simp only [na, eb, lb, place_three fun x e l => outside (order x e) (order x l)]
          rfl
  | none =>
      cases zb : b.offsetMinutes with
      | none => exact congrArg OptionT.run (compare_alike sa sb)
      | some o =>
          rw [zoned_of_some zb] at nb
          simp only [nb, ea, la, place_three fun x e l => outside (order l x) (order e x)]
          rfl

theorem leftResult_ne_eq : leftResult a b ≠ some .eq := by
  unfold leftResult
  split
  · exact outside_ne_eq _ _
  · simp

theorem rightResult_ne_eq : rightResult a b ≠ some .eq := by
  unfold rightResult
  split
  · exact outside_ne_eq _ _
  · simp

/-- The comparison of two readings with offsets, or of two without. -/
theorem told_iff (sa : Sane a) (sb : Sane b) :
    Told (zoned a 0) (zoned b 0) ↔
      alikeResult a b = some (cmp (instant (zoned a 0)) (instant (zoned b 0))) := by
  have ha := lies_of_sane (sa.zoned 0 (by omega) (by omega))
  have hb := lies_of_sane (sb.zoned 0 (by omega) (by omega))
  unfold alikeResult
  by_cases moves : Moves (zoned a 0) ∧ Moves (zoned b 0)
  · rw [if_pos moves, Option.some.injEq, eq_cmp_iff, ← tellsBefore_iff ha hb moves.1 moves.2,
      ← tellsAfter_iff ha hb moves.1 moves.2]
    exact ⟨fun h => ⟨h.before, h.after⟩, fun h => ⟨moves, h.1, h.2⟩⟩
  · rw [if_neg moves]
    exact iff_of_false (fun h => moves h.moves) (Option.some_ne_none _).symm

theorem toldLeft_iff (sa : Sane a) (sb : Sane b) (zone : b.offsetMinutes = none) :
    ToldLeft a b ↔
      (leftResult a b = some .lt ↔ instant a < instant (zoned b (14 * 60))) ∧
      (leftResult a b = some .gt ↔ instant (zoned b (-14 * 60)) < instant a) := by
  have ha := lies_of_sane sa
  have he := lies_of_sane (sb.zoned (14 * 60) (by omega) (by omega))
  have hl := lies_of_sane (sb.zoned (-14 * 60) (by omega) (by omega))
  have width := interval_width zone
  unfold ToldLeft leftResult
  simp only
  by_cases moves : Moves a ∧ Moves (zoned b (14 * 60)) ∧ Moves (zoned b (-14 * 60))
  · obtain ⟨ma, me, ml⟩ := moves
    rw [if_pos ⟨ma, me, ml⟩, outside_iff, tellsBefore_iff ha he ma me, tellsAfter_iff ha hl ma ml]
    · exact either_of ⟨ma, me, ml⟩
    · intro below
      refine ⟨?_, by linarith⟩
      rw [lyingOrder_of_far ha hl (by linarith)]
      simp
  · rw [if_neg moves, either_of_not moves]
    simp

theorem toldRight_iff (sa : Sane a) (sb : Sane b) (zone : a.offsetMinutes = none) :
    ToldRight a b ↔
      (rightResult a b = some .lt ↔ instant (zoned a (-14 * 60)) < instant b) ∧
      (rightResult a b = some .gt ↔ instant b < instant (zoned a (14 * 60))) := by
  have hb := lies_of_sane sb
  have he := lies_of_sane (sa.zoned (14 * 60) (by omega) (by omega))
  have hl := lies_of_sane (sa.zoned (-14 * 60) (by omega) (by omega))
  have width := interval_width zone
  unfold ToldRight rightResult
  simp only
  by_cases moves : Moves b ∧ Moves (zoned a (14 * 60)) ∧ Moves (zoned a (-14 * 60))
  · obtain ⟨mb, me, ml⟩ := moves
    rw [if_pos ⟨mb, me, ml⟩, outside_iff, tellsBefore_iff hl hb ml mb, tellsAfter_iff he hb me mb]
    · exact either_of ⟨mb, me, ml⟩
    · intro below
      refine ⟨?_, by linarith⟩
      rw [lyingOrder_of_far he hb (by linarith)]
      simp
  · rw [if_neg moves, either_of_not moves]
    simp [and_comm]

end Compare

/-! ## Readings -/

section Readings

variable [Ieee.PowersOfTen] {x y : List Char} {a b : Temporal} {r s : Reading}

theorem ReadAs.instant_eq (h : ReadAs x a r) (short : Short x) (assumed : Int) :
    r.instant assumed = instant (zoned a assumed) + -(86400 * 305) := by
  unfold Reading.instant instant zoned
  rw [h.second short, h.day, h.offset]
  push_cast
  simp only [Option.getD_some]
  ring

theorem followsTimeline_iff (ra : ReadAs x a r) (rb : ReadAs y b s) (shortX : Short x)
    (shortY : Short y) : FollowsTimeline r s (result a b) ↔ Discerned a b := by
  have ia := ra.instant_eq shortX
  have ib := rb.instant_eq shortY
  unfold Discerned result
  cases za : a.offsetMinutes with
  | some o =>
      have zr : r.offset = some o := ra.offset ▸ za
      cases zb : b.offsetMinutes with
      | some o' =>
          have zs : s.offset = some o' := rb.offset ▸ zb
          rw [followsTimeline_alike (by rw [zr, zs]; rfl), ia, ib, cmp_add_right,
            told_iff ra.sane rb.sane]
      | none =>
          have zs : s.offset = none := rb.offset ▸ zb
          rw [followsTimeline_mixed (by rw [zr, zs]; simp) leftResult_ne_eq,
            toldLeft_iff ra.sane rb.sane zb]
          simp only [ia, ib, zoned_of_some za, add_lt_add_iff_right, forall_offset_earliest zb,
            forall_offset_latest zb]
  | none =>
      have zr : r.offset = none := ra.offset ▸ za
      cases zb : b.offsetMinutes with
      | none =>
          have zs : s.offset = none := rb.offset ▸ zb
          rw [followsTimeline_alike (by rw [zr, zs]), ia, ib, cmp_add_right,
            told_iff ra.sane rb.sane]
      | some o =>
          have zs : s.offset = some o := rb.offset ▸ zb
          rw [followsTimeline_mixed (by rw [zr, zs]; simp) rightResult_ne_eq,
            toldRight_iff ra.sane rb.sane za]
          simp only [ia, ib, zoned_of_some zb, add_lt_add_iff_right, forall_offset_earliest za,
            forall_offset_latest za]

/-- Two accepted forms compare along the timeline exactly when they are discerned. -/
theorem temporalCmp_followsTimeline_iff (acceptedX : parseTemporal x = .ok (some a))
    (acceptedY : parseTemporal y = .ok (some b)) (shortX : Short x) (shortY : Short y) :
    ∃ r s, reading x = some r ∧ reading y = some s ∧
      ((∃ o, temporalCmp x y = .ok o ∧ FollowsTimeline r s o) ↔ Discerned a b) := by
  obtain ⟨r, ra⟩ := exists_reading acceptedX
  obtain ⟨s, rb⟩ := exists_reading acceptedY
  have run : temporalCmp x y = .ok (result a b) := by
    simp only [temporalCmp, acceptedX, acceptedY, bind, Except.bind, compare_eq ra.sane rb.sane]
  refine ⟨r, s, ra.reading, rb.reading, ?_⟩
  rw [← followsTimeline_iff ra rb shortX shortY, run]
  constructor
  · rintro ⟨o, same, follows⟩
    rwa [Except.ok.inj same]
  · exact fun follows => ⟨_, rfl, follows⟩

end Readings

/-! ## The last second before a date -/

/-- Half a second before midnight, by its offset. -/
def halfBefore : List Char := "2000-01-01T00:00:59.5+00:01".toList

/-- A tenth of a second later. -/
def tenthLater : List Char := "1999-12-31T23:59:59.6Z".toList

theorem short_of_texts {x : List Char} {t : Texts × Option Int} (texts : formTexts x = some t)
    (short : ∀ time ∈ t.1.time, ShortFraction time.2.2) : Short x := by
  intro t' mem
  rw [texts] at mem
  cases mem
  exact short

theorem short_halfBefore : Short halfBefore := by
  refine short_of_texts (t := (⟨false, "2000".toList, "01".toList, "01".toList,
    some ("00".toList, "00".toList, "59.5".toList)⟩, some 1)) rfl fun time mem => ?_
  cases mem
  exact show 1 < 2 ^ 32 by decide

theorem short_tenthLater : Short tenthLater := by
  refine short_of_texts (t := (⟨false, "1999".toList, "12".toList, "31".toList,
    some ("23".toList, "59".toList, "59.6".toList)⟩, some 0)) rfl fun time mem => ?_
  cases mem
  exact show 1 < 2 ^ 32 by decide

theorem temporalCmp_followsTimeline_halfBefore :
    ∃ r s, reading halfBefore = some r ∧ reading tenthLater = some s ∧
      ((∃ o, @temporalCmp Ieee.nearestPowers halfBefore tenthLater = .ok o ∧ FollowsTimeline r s o) ↔
        @Discerned Ieee.nearestPowers ⟨730425, ⟨595, 1⟩, some 1⟩ ⟨730424, ⟨863996, 1⟩, some 0⟩) := by
  let powers := Ieee.nearestPowers
  exact temporalCmp_followsTimeline_iff rfl rfl short_halfBefore short_tenthLater

/-- The later time is answered to be the earlier one. -/
theorem not_followsTimeline_halfBefore :
    @temporalCmp Ieee.nearestPowers halfBefore tenthLater = .ok (some .gt) ∧
      ∃ r s, reading halfBefore = some r ∧ reading tenthLater = some s ∧
        r.instant 0 < s.instant 0 ∧ ¬ FollowsTimeline r s (some .gt) := by
  have half : reading halfBefore =
      some ⟨2000, 1, 1, 0, 0, decimalText "59.5".toList, some 1⟩ := rfl
  have tenth : reading tenthLater =
      some ⟨1999, 12, 31, 23, 59, decimalText "59.6".toList, some 0⟩ := rfl
  have seconds : decimalText "59.5".toList = 595 / 10 ^ 1 ∧
      decimalText "59.6".toList = 596 / 10 ^ 1 := by
    constructor
    · exact show (1 * (595 : Nat) / 10 ^ 1 : ℚ) = _ by norm_num
    · exact show (1 * (596 : Nat) / 10 ^ 1 : ℚ) = _ by norm_num
  have days : dayNumber 2000 1 1 = dayNumber 1999 12 31 + 1 := by decide
  have less : (⟨2000, 1, 1, 0, 0, decimalText "59.5".toList, some 1⟩ : Reading).instant 0 <
      (⟨1999, 12, 31, 23, 59, decimalText "59.6".toList, some 0⟩ : Reading).instant 0 := by
    simp only [Reading.instant, seconds, days, Option.getD_some]
    push_cast
    linarith
  refine ⟨rfl, _, _, half, tenth, less, fun follows => ?_⟩
  have order := (follows.alike rfl).trans (congrArg some less.cmp_eq_lt)
  cases order

end Graphy.Temporal
