import Graphy.Engine.Decimal

/-!
# The decimal operations

Every decimal the engine produces fits its fields and has no trailing fraction
zero.  On such decimals each operation is exact up to the ranges it misses.
-/

namespace Graphy.Dec

/-- A decimal that fits its fields and has no trailing fraction zero. -/
structure Wf (d : Dec) : Prop where
  fits : Int128.Fits d.unscaled
  scale : d.scale < 2 ^ 32
  normal : d.scale = 0 ∨ d.unscaled % 10 ≠ 0

/-! ## Normal form -/

theorem strip_value (u : Int) (s : Nat) : (strip u s).value = Scaled.value u s := by
  induction s generalizing u with
  | zero => rfl
  | succ s ih =>
      rw [strip]
      split
      · next divides =>
          have whole : u / 10 * 10 ^ 1 = u := by omega
          have raised := Scaled.value_raise (u / 10) s 1
          rw [whole] at raised
          rw [ih, raised]
      · rfl

theorem strip_wf {u : Int} (s : Nat) (fits : Int128.Fits u) (small : s < 2 ^ 32) :
    (strip u s).Wf := by
  induction s generalizing u with
  | zero => exact ⟨fits, small, .inl rfl⟩
  | succ s ih =>
      rw [strip]
      split
      · exact ih (fits.ediv (by decide)) (by omega)
      · next kept => exact ⟨fits, small, .inr kept⟩

theorem strip_of_normal {u : Int} {s : Nat} (h : s = 0 ∨ u % 10 ≠ 0) : strip u s = ⟨u, s⟩ := by
  cases s with
  | zero => rfl
  | succ s => rw [strip, if_neg (h.resolve_left (by omega))]

theorem normal_value (d : Dec) : d.normal.value = d.value := strip_value ..

theorem Wf.normal_eq {d : Dec} (h : d.Wf) : d.normal = d := strip_of_normal h.normal

/-! ## Sums and products -/

theorem pow10_eq (e : Nat) : pow10 e = if e ≤ 38 then some (10 ^ e) else none :=
  Int128.checkedPow_ten e

/-- Aligned coefficients have the values at the larger scale. -/
theorem aligned_spec {a b : Dec} {ax bx : Int} {s : Nat} (h : aligned a b = some (ax, bx, s)) :
    s = max a.scale b.scale ∧ Scaled.value ax s = a.value ∧ Scaled.value bx s = b.value := by
  simp only [aligned, bind, pure, Option.bind_eq_some_iff, Int128.checked_eq_some, pow10,
    Int128.checkedPow, Option.some.injEq, Prod.mk.injEq] at h
  obtain ⟨_, ⟨rfl, -⟩, _, ⟨rfl, -⟩, _, ⟨rfl, -⟩, _, ⟨rfl, -⟩, rfl, rfl, rfl⟩ := h
  have ra := Scaled.value_raise a.unscaled a.scale (max a.scale b.scale - a.scale)
  have rb := Scaled.value_raise b.unscaled b.scale (max a.scale b.scale - b.scale)
  rw [Nat.add_sub_cancel' (Nat.le_max_left _ _)] at ra
  rw [Nat.add_sub_cancel' (Nat.le_max_right _ _)] at rb
  exact ⟨rfl, ra, rb⟩

variable {a b d : Dec}

theorem checkedAdd_spec (h : checkedAdd a b = some d) :
    d.value = a.value + b.value ∧ (a.Wf → b.Wf → d.Wf) := by
  simp only [checkedAdd, bind, pure, Option.bind_eq_some_iff, Int128.checked_eq_some,
    Option.some.injEq] at h
  obtain ⟨⟨ax, bx, s⟩, align, _, ⟨rfl, fits⟩, rfl⟩ := h
  obtain ⟨rfl, va, vb⟩ := aligned_spec align
  refine ⟨?_, fun wa wb => strip_wf _ fits (max_lt wa.scale wb.scale)⟩
  rw [normal_value, ← va, ← vb]
  exact Scaled.value_add ax bx _

theorem checkedSub_spec (h : checkedSub a b = some d) :
    d.value = a.value - b.value ∧ (a.Wf → b.Wf → d.Wf) := by
  simp only [checkedSub, bind, pure, Option.bind_eq_some_iff, Int128.checked_eq_some,
    Option.some.injEq] at h
  obtain ⟨⟨ax, bx, s⟩, align, _, ⟨rfl, fits⟩, rfl⟩ := h
  obtain ⟨rfl, va, vb⟩ := aligned_spec align
  refine ⟨?_, fun wa wb => strip_wf _ fits (max_lt wa.scale wb.scale)⟩
  rw [normal_value, ← va, ← vb]
  exact Scaled.value_sub ax bx _

theorem checkedMul_spec (h : checkedMul a b = some d) :
    d.value = a.value * b.value ∧ d.Wf := by
  simp only [checkedMul, bind, pure, Option.bind_eq_some_iff, Int128.checked_eq_some] at h
  obtain ⟨_, ⟨rfl, fits⟩, scaled⟩ := h
  split at scaled
  · next small =>
      cases scaled
      refine ⟨?_, strip_wf _ fits small⟩
      rw [normal_value]
      exact Scaled.value_mul ..
  · cases scaled

/-! ## Comparison -/

theorem aligned_eq_none_iff : aligned a b = none ↔ ¬ CommonScale a b := by
  have larger : max a.scale b.scale - a.scale = b.scale - a.scale ∧
      max a.scale b.scale - b.scale = a.scale - b.scale := by omega
  have common : CommonScale a b ↔ (b.scale - a.scale ≤ 38 ∧
      Int128.Fits (a.unscaled * 10 ^ (b.scale - a.scale))) ∧ a.scale - b.scale ≤ 38 ∧
        Int128.Fits (b.unscaled * 10 ^ (a.scale - b.scale)) :=
    ⟨fun h => ⟨⟨h.near.2, h.left⟩, h.near.1, h.right⟩, fun h => ⟨⟨h.2.1, h.1.1⟩, h.1.2, h.2.2⟩⟩
  rw [common, aligned, larger.1, larger.2, pow10_eq, pow10_eq]
  by_cases near : b.scale - a.scale ≤ 38
  · by_cases left : Int128.Fits (a.unscaled * 10 ^ (b.scale - a.scale))
    · by_cases near' : a.scale - b.scale ≤ 38
      · by_cases right : Int128.Fits (b.unscaled * 10 ^ (a.scale - b.scale)) <;>
          simp [near, near', left, right, Int128.checked]
      · simp [near, near', left, Int128.checked]
    · simp [near, left, Int128.checked]
  · simp [near]

/-- Comparing decimals at a common scale is exact. -/
theorem compare_of_commonScale [Ieee.PowersOfTen] (h : CommonScale a b) :
    compare a b = cmp a.value b.value := by
  unfold compare
  cases align : aligned a b with
  | none => exact absurd h (aligned_eq_none_iff.mp align)
  | some r =>
      obtain ⟨ax, bx, s⟩ := r
      obtain ⟨-, va, vb⟩ := aligned_spec align
      rw [← va, ← vb, Scaled.cmp_value_same]

/-- What does not fit at a larger scale is beyond all that fits, on its side of zero. -/
theorem beyond_of_not_fits {u : Int} {k : Nat} (positive : 0 < u)
    (far : ¬ (k ≤ 38 ∧ Int128.Fits (u * 10 ^ k))) : Int128.maximum < u * 10 ^ k := by
  have power : (0 : Int) < 10 ^ k := by positivity
  have product : 10 ^ k ≤ u * 10 ^ k := le_mul_of_one_le_left power.le positive
  by_cases near : k ≤ 38
  · have misses : ¬ Int128.Fits (u * 10 ^ k) := fun fits => far ⟨near, fits⟩
    unfold Int128.Fits Int128.minimum at misses
    omega
  · have grows : (10 : Int) ^ 39 ≤ 10 ^ k := pow_le_pow_right₀ (by decide) (by omega)
    unfold Int128.maximum
    omega

theorem below_of_not_fits {u : Int} {k : Nat} (negative : u < 0)
    (far : ¬ (k ≤ 38 ∧ Int128.Fits (u * 10 ^ k))) : u * 10 ^ k < Int128.minimum := by
  have power : (0 : Int) < 10 ^ k := by positivity
  have product : 10 ^ k ≤ -u * 10 ^ k := le_mul_of_one_le_left power.le (by omega)
  rw [neg_mul] at product
  by_cases near : k ≤ 38
  · have misses : ¬ Int128.Fits (u * 10 ^ k) := fun fits => far ⟨near, fits⟩
    unfold Int128.Fits Int128.maximum at misses
    omega
  · have grows : (10 : Int) ^ 39 ≤ 10 ^ k := pow_le_pow_right₀ (by decide) (by omega)
    unfold Int128.minimum
    omega

theorem cmp_of_not_fits {u v : Int} {k : Nat} (fits : Int128.Fits v)
    (far : ¬ (k ≤ 38 ∧ Int128.Fits (u * 10 ^ k))) :
    cmp (u * 10 ^ k) v = if u = 0 then cmp 0 v else cmp u 0 := by
  rcases lt_trichotomy u 0 with negative | zero | positive
  · have less := (below_of_not_fits negative far).trans_le fits.1
    rw [if_neg negative.ne, less.cmp_eq_lt, negative.cmp_eq_lt]
  · rw [if_pos zero, zero, zero_mul]
  · have greater := fits.2.trans_lt (beyond_of_not_fits positive far)
    rw [if_neg positive.ne', greater.cmp_eq_gt, positive.cmp_eq_gt]

/-- Without a common scale the sign of one of the two decides. -/
theorem cmp_value_of_far (fitsA : Int128.Fits a.unscaled) (fitsB : Int128.Fits b.unscaled)
    (far : ¬ CommonScale a b) : cmp a.value b.value = farOrder a b := by
  unfold farOrder
  by_cases le : a.scale ≤ b.scale
  · rw [if_pos le, value, value, Scaled.cmp_value_of_le le]
    refine cmp_of_not_fits fitsB fun reaches => far ⟨⟨by omega, reaches.1⟩, reaches.2, ?_⟩
    rwa [Nat.sub_eq_zero_of_le le, pow_zero, mul_one]
  · have greater : b.scale ≤ a.scale := by omega
    rw [if_neg le, ← cmp_swap, value, value, Scaled.cmp_value_of_le greater,
      cmp_of_not_fits fitsA fun reaches => far ⟨⟨reaches.1, by omega⟩, ?_, reaches.2⟩]
    · by_cases zero : b.unscaled = 0
      · rw [if_pos zero, if_pos zero, cmp_swap]
      · rw [if_neg zero, if_neg zero, cmp_swap]
    · rwa [Nat.sub_eq_zero_of_le greater, pow_zero, mul_one]

/-- Two decimals without a common scale are not both zero. -/
theorem Wf.far_ne_zero (wa : a.Wf) (wb : b.Wf) (far : ¬ CommonScale a b) :
    a.unscaled ≠ 0 ∨ b.unscaled ≠ 0 := by
  by_contra zeros
  obtain ⟨zeroA, zeroB⟩ := not_or.mp zeros
  have zeroA := not_not.mp zeroA
  have zeroB := not_not.mp zeroB
  have wholeA := wa.normal
  have wholeB := wb.normal
  rw [zeroA] at wholeA
  rw [zeroB] at wholeB
  refine far ⟨by omega, ?_, ?_⟩
  · rw [zeroA, zero_mul]
    exact Int128.fits_zero
  · rw [zeroB, zero_mul]
    exact Int128.fits_zero

theorem cmp_zero_ne_eq {u : Int} (h : u ≠ 0) : cmp u 0 ≠ .eq ∧ cmp 0 u ≠ .eq :=
  ⟨fun same => h ((cmp_eq_eq_iff _ _).mp same), fun same => h ((cmp_eq_eq_iff _ _).mp same).symm⟩

theorem Wf.farOrder_ne_eq (wa : a.Wf) (wb : b.Wf) (far : ¬ CommonScale a b) :
    farOrder a b ≠ .eq := by
  have some_ := wa.far_ne_zero wb far
  unfold farOrder
  by_cases le : a.scale ≤ b.scale
  · rw [if_pos le]
    by_cases zero : a.unscaled = 0
    · rw [if_pos zero]
      exact (cmp_zero_ne_eq (some_.resolve_left (not_not.mpr zero))).2
    · rw [if_neg zero]
      exact (cmp_zero_ne_eq zero).1
  · rw [if_neg le]
    by_cases zero : b.unscaled = 0
    · rw [if_pos zero]
      exact (cmp_zero_ne_eq (some_.resolve_right (not_not.mpr zero))).1
    · rw [if_neg zero]
      exact (cmp_zero_ne_eq zero).2

/-- The comparison is exact where there is a common scale, and else where the doubles show the
order. -/
theorem Wf.compare_iff [Ieee.PowersOfTen] (wa : a.Wf) (wb : b.Wf) :
    compare a b = cmp a.value b.value ↔
      (¬ CommonScale a b → Ieee.double.partialCmp a.toF64 b.toF64 = some (farOrder a b)) := by
  by_cases common : CommonScale a b
  · exact iff_of_true (compare_of_commonScale common) fun far => absurd common far
  · have differ := wa.farOrder_ne_eq wb common
    rw [cmp_value_of_far wa.fits wb.fits common, compare, aligned_eq_none_iff.mpr common]
    simp only [common, not_false_eq_true, forall_const]
    generalize Ieee.double.partialCmp a.toF64 b.toF64 = told
    cases told with
    | none => exact iff_of_false (fun same => differ same.symm) (Option.some_ne_none _).symm
    | some o => exact Option.some_inj.symm

/-! ## Integers of a decimal -/

theorem Wf.trunc_eq (h : d.Wf) : d.trunc = .ok (d.unscaled.tdiv (10 ^ d.scale)) := by
  rw [trunc, pow10_eq]
  by_cases small : d.scale ≤ 38
  · rw [if_pos small]
    exact Int128.plain_of_fits (h.fits.tdiv (by positivity))
  · have below := h.fits.natAbs_lt_pow (Nat.lt_of_not_le small)
    rw [if_neg small, (Int128.tdiv_tmod_of_natAbs_lt (p := 10 ^ d.scale) (by omega)).1]

/-- A coefficient past the powers of ten is not zero, for zero has no fraction. -/
theorem Wf.unscaled_ne_zero (h : d.Wf) (positive : 0 < d.scale) : d.unscaled ≠ 0 := by
  obtain whole | kept := h.normal
  · omega
  · intro zero
    rw [zero] at kept
    exact kept rfl

theorem Wf.isExact_eq (h : d.Wf) :
    d.isExact = decide (d.unscaled.tmod (10 ^ d.scale) = 0) := by
  rw [isExact, pow10_eq]
  by_cases zero : d.scale = 0
  · rw [zero, pow_zero, Int.tmod_one]
    rfl
  · by_cases small : d.scale ≤ 38
    · rw [if_pos small, decide_eq_false zero]
      rfl
    · have below := h.fits.natAbs_lt_pow (Nat.lt_of_not_le small)
      have kept := h.unscaled_ne_zero (Nat.pos_of_ne_zero zero)
      rw [if_neg small, (Int128.tdiv_tmod_of_natAbs_lt (p := 10 ^ d.scale) (by omega)).2,
        decide_eq_false zero, decide_eq_false kept]
      rfl

/-- The integer past the truncated one on the side of the fraction fits. -/
theorem Wf.fits_ceil (h : d.Wf) : Int128.Fits ⌈d.value⌉ := by
  have positive : (0 : Int) < 10 ^ d.scale := by positivity
  have toward := h.fits.tdiv positive
  have spec := Scaled.ceil_eq_tdiv d.unscaled d.scale
  have parts := Int.mul_tdiv_add_tmod d.unscaled (10 ^ d.scale)
  rw [value, spec]
  split
  · next above =>
      have low := Int.tmod_nonneg (10 ^ d.scale) above.2.le
      have quotient := Int.tdiv_nonneg above.2.le positive.le
      have grows :
          d.unscaled.tdiv (10 ^ d.scale) ≤ 10 ^ d.scale * d.unscaled.tdiv (10 ^ d.scale) := by
        nlinarith
      exact Int128.fits_zero.of_between h.fits (by omega) (by omega)
  · rwa [add_zero]

theorem Wf.fits_floor (h : d.Wf) : Int128.Fits ⌊d.value⌋ := by
  rw [value, Scaled.floor_value]
  exact h.fits.ediv (by positivity)

theorem Wf.ceil_eq (h : d.Wf) : d.ceil = .ok (fromI128 ⌈d.value⌉) := by
  have spec := Scaled.ceil_eq_tdiv d.unscaled d.scale
  have fits := h.fits_ceil
  rw [value] at fits ⊢
  rw [ceil, h.trunc_eq, h.isExact_eq]
  simp only [bind, Except.bind, Bool.and_eq_true, Bool.not_eq_true', decide_eq_false_iff_not,
    decide_eq_true_eq]
  split
  · next above =>
      rw [if_pos above] at spec
      rw [← spec, Int128.plain_of_fits fits]
      rfl
  · next within =>
      rw [if_neg within, add_zero] at spec
      rw [spec]

theorem Wf.floor_eq (h : d.Wf) : d.floor = .ok (fromI128 ⌊d.value⌋) := by
  have spec := Scaled.floor_eq_tdiv d.unscaled d.scale
  have fits := h.fits_floor
  rw [value] at fits ⊢
  rw [floor, h.trunc_eq, h.isExact_eq]
  simp only [bind, Except.bind, Bool.and_eq_true, Bool.not_eq_true', decide_eq_false_iff_not,
    decide_eq_true_eq]
  split
  · next below =>
      rw [if_pos below] at spec
      rw [← spec, Int128.plain_of_fits fits]
      rfl
  · next within =>
      rw [if_neg within, sub_zero] at spec
      rw [spec]

/-! ## Rounding -/

/-- The remainder past half moves the truncated quotient to the nearest integer. -/
theorem nearest_eq_tdiv (u : Int) {h : Int} (positive : 0 < h) :
    (u + h) / (2 * h) = u.tdiv (2 * h) +
      if h < (u.tmod (2 * h)).natAbs ∨ ((u.tmod (2 * h)).natAbs = h ∧ 0 < u) then
        if 0 < u then 1 else -1
      else 0 := by
  have parts := Int.mul_tdiv_add_tmod u (2 * h)
  have high := Int.tmod_lt_of_pos u (show 0 < 2 * h by omega)
  have low := Int.lt_tmod_of_pos u (show 0 < 2 * h by omega)
  have sign : (0 ≤ u → 0 ≤ u.tmod (2 * h)) ∧ (u ≤ 0 → u.tmod (2 * h) ≤ 0) := by
    refine ⟨fun nonneg => Int.tmod_nonneg _ nonneg, fun nonpos => ?_⟩
    have mirrored := Int.tmod_nonneg (a := -u) (2 * h) (by omega)
    rw [Int.neg_tmod] at mirrored
    omega
  generalize u.tmod (2 * h) = r at *
  generalize u.tdiv (2 * h) = t at *
  have unique (k : Int) (below : 0 ≤ r + h - 2 * h * k) (above : r + h - 2 * h * k < 2 * h) :
      (u + h) / (2 * h) = t + k :=
    ((Int.ediv_emod_unique (by omega)).mpr ⟨by linarith, below, above⟩).1
  split_ifs with far up
  · exact unique 1 (by omega) (by omega)
  · exact unique (-1) (by omega) (by omega)
  · exact unique 0 (by omega) (by omega)

/-- The nearest integer fits when the divisor is two at least. -/
theorem fits_nearest {u h : Int} (fits : Int128.Fits u) (positive : 0 < h) :
    Int128.Fits ((u + h) / (2 * h)) := by
  have wide : 0 < 2 * h := by omega
  constructor
  · rw [Int.le_ediv_iff_mul_le wide]
    have := fits.1
    have : Int128.minimum * (2 * h) ≤ Int128.minimum * 1 :=
      Int.mul_le_mul_of_nonpos_left (by decide) (by omega)
    omega
  · refine Int.ediv_le_of_le_mul wide ?_
    have := fits.2
    have : Int128.maximum * 1 ≤ Int128.maximum * h :=
      Int.mul_le_mul_of_nonneg_left (by omega) (by decide)
    have : 1 * h ≤ Int128.maximum * h := Int.mul_le_mul_of_nonneg_right (by decide) positive.le
    linarith

/-- With one to 38 fraction digits rounding is exact. -/
theorem Wf.round_eq (h : d.Wf) (positive : 0 < d.scale) (small : d.scale ≤ 38) :
    d.round = .ok (fromI128 ⌊d.value + 1 / 2⌋) ∧ Int128.Fits ⌊d.value + 1 / 2⌋ := by
  obtain ⟨s, succ⟩ : ∃ s, d.scale = s + 1 := ⟨d.scale - 1, by omega⟩
  have ten : (10 : Int) ^ d.scale = 2 * (5 * 10 ^ s) := by
    rw [succ, pow_succ]
    ring
  have five : (0 : Int) < 5 * 10 ^ s := by positivity
  have halved : (2 * (5 * 10 ^ s) : Int) / 2 = 5 * 10 ^ s :=
    Int.mul_ediv_cancel_left _ (by decide)
  have spec : ⌊d.value + 1 / 2⌋ = (d.unscaled + 5 * 10 ^ s) / (2 * (5 * 10 ^ s)) := by
    rw [value, succ, Scaled.nearest_value, ← succ, ten, halved]
  have moved := nearest_eq_tdiv d.unscaled five
  have fits := fits_nearest h.fits five
  have toward := h.fits.tdiv (show (0 : Int) < 2 * (5 * 10 ^ s) by omega)
  rw [spec]
  refine ⟨?_, fits⟩
  rw [round, pow10_eq, if_pos small, ten]
  simp only [bind, Except.bind, Int128.plain_of_fits toward,
    Int.tdiv_eq_ediv_of_nonneg (show (0 : Int) ≤ 2 * (5 * 10 ^ s) by omega), halved]
  split_ifs at moved ⊢ with far up
  · rw [moved] at fits ⊢
    rw [Int128.plain_of_fits fits]
    rfl
  · rw [moved] at fits ⊢
    rw [sub_eq_add_neg, Int128.plain_of_fits fits]
    rfl
  · rw [moved, add_zero]

/-- Past 38 fraction digits rounding leaves the fraction. -/
theorem Wf.round_large (h : d.Wf) (large : 38 < d.scale) :
    d.round = .ok d ∧ d.value ≠ ⌊d.value + 1 / 2⌋ := by
  refine ⟨by rw [round, pow10_eq, if_neg (by omega)], ?_⟩
  have kept := h.unscaled_ne_zero (by omega)
  have below := h.fits.natAbs_lt_pow large
  have power : (0 : ℚ) < 10 ^ d.scale := by positivity
  have low : -(10 ^ d.scale : ℚ) < d.unscaled * 2 := by
    have bound : -(10 ^ d.scale : Int) < d.unscaled * 2 := by omega
    exact_mod_cast bound
  have high : (d.unscaled * 2 : ℚ) < 10 ^ d.scale := by
    have bound : d.unscaled * 2 < (10 ^ d.scale : Int) := by omega
    exact_mod_cast bound
  have floor : ⌊d.value + 1 / 2⌋ = 0 := by
    rw [Int.floor_eq_zero_iff, Set.mem_Ico, value, Scaled.value,
      div_add_div _ _ power.ne' two_ne_zero]
    constructor
    · apply div_nonneg <;> linarith
    · rw [div_lt_one (by linarith)]
      linarith
  rw [floor, value, Scaled.value, Int.cast_zero, div_ne_zero_iff]
  exact ⟨Int.cast_ne_zero.mpr kept, power.ne'⟩

theorem fromI128_wf {i : Int} (fits : Int128.Fits i) : (fromI128 i).Wf :=
  ⟨fits, Nat.two_pow_pos 32, .inl rfl⟩

/-- Without a fraction rounding moves what is positive. -/
theorem round_whole {u : Int} (fits : Int128.Fits u) :
    (⟨u, 0⟩ : Dec).round =
      if 0 < u then (Int128.plain (u + 1)).map fromI128 else .ok (fromI128 u) := by
  simp only [round, pow10_eq, Nat.zero_le, if_true, pow_zero, Int.tdiv_one, Int.tmod_one,
    Int128.plain_of_fits fits, bind, Except.bind, Int.natAbs_zero]
  rw [show Int.tdiv 1 2 = 0 from rfl]
  by_cases sign : 0 < u
  · simp [sign]
  · simp [sign]

/-- So rounding is exact without a fraction when nothing is above zero. -/
theorem round_whole_exact {u : Int} (fits : Int128.Fits u) :
    (∃ r, (⟨u, 0⟩ : Dec).round = .ok r ∧ r.value = ⌊(⟨u, 0⟩ : Dec).value + 1 / 2⌋) ↔ u ≤ 0 := by
  have floor : ⌊(⟨u, 0⟩ : Dec).value + 1 / 2⌋ = u := by
    rw [value, Scaled.value_zero, Int.floor_intCast_add]
    norm_num
  rw [floor, round_whole fits]
  constructor
  · rintro ⟨r, run, same⟩
    by_contra positive
    rw [if_pos (by omega)] at run
    cases next : Int128.plain (u + 1) with
    | error e =>
        rw [next] at run
        cases run
    | ok i =>
        rw [next] at run
        cases run
        rw [value, fromI128, Scaled.value_zero, Int.cast_inj] at same
        obtain ⟨rfl, -⟩ := Int128.plain_eq_ok.mp next
        exact absurd same (by simp)
  · intro nonpos
    exact ⟨_, if_neg (by omega), by rw [value, fromI128, Scaled.value_zero]⟩

theorem Wf.round_wf (h : d.Wf) {r : Dec} (run : d.round = .ok r) : r.Wf := by
  rcases Nat.eq_zero_or_pos d.scale with zero | positive
  · have whole : d = ⟨d.unscaled, 0⟩ := by rw [← zero]
    rw [whole, round_whole h.fits] at run
    split at run
    · cases next : Int128.plain (d.unscaled + 1) with
      | error e =>
          rw [next] at run
          cases run
      | ok i =>
          rw [next] at run
          cases run
          obtain ⟨rfl, fits⟩ := Int128.plain_eq_ok.mp next
          exact fromI128_wf fits
    · cases run
      exact fromI128_wf h.fits
  · by_cases small : d.scale ≤ 38
    · obtain ⟨rounded, fits⟩ := h.round_eq positive small
      rw [rounded] at run
      cases run
      exact fromI128_wf fits
    · rw [(h.round_large (by omega)).1] at run
      cases run
      exact h

/-! ## Quotients -/

theorem dividend_eq_some {shift : Nat} {num : Int} (h : dividend a shift = some num) :
    num = a.unscaled * 10 ^ shift ∧ Int128.Fits num := by
  simp only [dividend, bind, pow10, Int128.checkedPow, Option.bind_eq_some_iff,
    Int128.checked_eq_some] at h
  obtain ⟨_, ⟨rfl, -⟩, rfl, fits⟩ := h
  exact ⟨rfl, fits⟩

theorem dividend_zero (fits : Int128.Fits a.unscaled) : dividend a 0 = some a.unscaled := by
  simp [dividend, pow10, Int128.checkedPow, Int128.checked_of_fits fits,
    Int128.checked_of_fits (show Int128.Fits 1 by decide)]

/-- A power of ten divides the minimum only when it is one. -/
theorem scaled_eq_minimum {u : Int} {k : Nat} :
    u * 10 ^ k = Int128.minimum ↔ k = 0 ∧ u = Int128.minimum := by
  cases k with
  | zero => simp
  | succ k =>
      have : u * 10 ^ (k + 1) = u * 10 ^ k * 10 := by ring
      unfold Int128.minimum
      omega

/-- Division does not panic when the scale of the quotient fits and the dividend is not the
minimum by minus one. -/
theorem checkedDiv_ok (wa : a.Wf) :
    (∃ q, checkedDiv a b = .ok q) ↔
      (b.unscaled ≠ 0 → max divScale a.scale + b.scale < 2 ^ 32) ∧
        ¬ (a.unscaled = Int128.minimum ∧ divScale ≤ a.scale ∧ b = ⟨-1, 0⟩) := by
  unfold checkedDiv
  by_cases zero : b.unscaled = 0
  · rw [if_pos zero]
    refine iff_of_true ⟨_, rfl⟩ ⟨fun kept => absurd zero kept, ?_⟩
    rintro ⟨-, -, rfl⟩
    cases zero
  · rw [if_neg zero]
    by_cases small : max divScale a.scale + b.scale < 2 ^ 32
    · rw [if_pos small]
      simp only [zero, small, ne_eq, not_false_eq_true, implies_true, true_and]
      cases top : dividend a (max divScale a.scale + b.scale - a.scale) with
      | none =>
          refine iff_of_true ⟨_, rfl⟩ ?_
          rintro ⟨-, deep, rfl⟩
          rw [show max divScale a.scale + 0 - a.scale = 0 by omega, dividend_zero wa.fits] at top
          cases top
      | some num =>
          obtain ⟨rfl, fits⟩ := dividend_eq_some top
          have overflow := fits.tdiv_iff zero
          rw [scaled_eq_minimum] at overflow
          have whole : b = ⟨-1, 0⟩ ↔ b.unscaled = -1 ∧ b.scale = 0 := by
            cases b
            simp
          have shift : max divScale a.scale + b.scale - a.scale = 0 ↔
              divScale ≤ a.scale ∧ b.scale = 0 := by omega
          rw [shift] at overflow
          rw [whole]
          constructor
          · rintro ⟨q, run⟩ ⟨low, deep, unit, flat⟩
            have over_ := mt overflow.mp (fun no => no ⟨⟨⟨deep, flat⟩, low⟩, unit⟩)
            simp [Int128.plain, over_, Except.map] at run
          · intro no
            have within := overflow.mpr fun ⟨⟨⟨deep, flat⟩, low⟩, unit⟩ =>
              no ⟨low, deep, unit, flat⟩
            simp [Int128.plain_of_fits within, Except.map]
    · rw [if_neg small]
      refine iff_of_false ?_ fun both => small (both.1 zero)
      rintro ⟨q, run⟩
      cases run

theorem checkedDiv_wf (h : checkedDiv a b = .ok (some d)) : d.Wf := by
  unfold checkedDiv at h
  by_cases zero : b.unscaled = 0
  · rw [if_pos zero] at h
    cases h
  rw [if_neg zero] at h
  by_cases small : max divScale a.scale + b.scale < 2 ^ 32
  · rw [if_pos small] at h
    split at h
    · cases h
    · next num top =>
        cases quotient : Int128.plain (num.tdiv b.unscaled) with
        | error e =>
            rw [quotient] at h
            cases h
        | ok q =>
            rw [quotient] at h
            cases h
            obtain ⟨rfl, fits⟩ := Int128.plain_eq_ok.mp quotient
            exact strip_wf _ fits (lt_of_le_of_lt (Nat.le_add_right _ _) small)
  · rw [if_neg small] at h
    cases h

/-! ## Spellings -/

theorem foldlM_parseDigit {s : List Char} (digits : s.all isAsciiDigit = true) (v : Int) :
    s.foldlM parseDigit v = s.foldlM pushDigit v := by
  induction s generalizing v with
  | nil => rfl
  | cons c s ih =>
      rw [List.all_cons, Bool.and_eq_true] at digits
      rw [List.foldlM_cons, List.foldlM_cons, parseDigit, if_pos digits.1]
      exact bind_congr fun w => ih digits.2 w

/-- What a sign, an integer part and a fraction spell. -/
theorem parse_spelled (neg : Bool) {int frac : List Char} (some_ : int ≠ [])
    (digits : (int ++ frac).all isAsciiDigit = true) :
    parse ((if neg then ['-'] else []) ++ int ++ '.' :: frac) =
      (Int128.checked (Nat.ofDigitChars 10 (int ++ frac) 0)).map fun m =>
        normal ⟨if neg then -m else m, frac.length % 2 ^ 32⟩ := by
  obtain ⟨c, rest, rfl⟩ := List.exists_cons_of_ne_nil some_
  have first : isAsciiDigit c = true := by simp_all
  have point : '.' ∉ c :: rest := by
    intro inside
    have := List.all_eq_true.mp digits '.' (List.mem_append_left _ inside)
    cases this
  have sign : splitSign ((if neg then ['-'] else []) ++ (c :: rest) ++ '.' :: frac) =
      (neg, (c :: rest) ++ '.' :: frac) := by
    cases neg with
    | true => rfl
    | false => exact splitSign_digit first _
  have spelled : ((c :: rest) ++ frac).foldlM parseDigit 0 =
      Int128.checked (Nat.ofDigitChars 10 ((c :: rest) ++ frac) 0) := by
    rw [foldlM_parseDigit digits]
    exact accumulate_eq _
  rw [parse, if_neg (by simp), sign]
  simp only [splitOnce_append point, Option.getD_some, List.cons_ne_nil, false_and, if_false,
    spelled]

/-- The spelling of a decimal: digits before the point and the fraction digits of its
scale, one zero when there are none. -/
theorem Wf.lexical_eq (h : d.Wf) :
    ∃ int frac, d.lexical =
        (if decide (d.unscaled < 0) then ['-'] else []) ++ int ++ '.' :: frac ∧
      int ≠ [] ∧ (int ++ frac).all isAsciiDigit = true ∧ frac.length = max 1 d.scale ∧
      Nat.ofDigitChars 10 (int ++ frac) 0 =
        if d.scale = 0 then d.unscaled.natAbs * 10 else d.unscaled.natAbs := by
  have digits : (Nat.toDigits 10 d.unscaled.natAbs).all isAsciiDigit = true :=
    List.all_eq_true.mpr fun c => isAsciiDigit_of_mem_toDigits
  unfold lexical
  rw [h.normal_eq]
  simp only [decide_eq_true_eq]
  by_cases zero : d.scale = 0
  · refine ⟨Nat.toDigits 10 d.unscaled.natAbs, ['0'], ?_, Nat.toDigits_ne_nil, ?_, ?_, ?_⟩
    · rw [if_pos zero, List.append_assoc]
    · rw [List.all_append, digits]
      rfl
    · rw [zero]
      rfl
    · rw [if_pos zero, Nat.ofDigitChars_append, Nat.ofDigitChars_ten_toDigits, ofDigitChars_cons,
        Nat.ofDigitChars_nil]
      rfl
  · rw [if_neg zero, if_neg zero]
    by_cases long : d.scale < (Nat.toDigits 10 d.unscaled.natAbs).length
    · refine ⟨_, _, by rw [if_pos long, List.append_assoc], ?_, ?_, ?_, ?_⟩
      · exact List.ne_nil_of_length_pos (by rw [List.length_take]; omega)
      · rwa [List.take_append_drop]
      · rw [List.length_drop]
        omega
      · rw [List.take_append_drop, Nat.ofDigitChars_ten_toDigits]
    · refine ⟨['0'], List.replicate (d.scale - (Nat.toDigits 10 d.unscaled.natAbs).length) '0' ++
        Nat.toDigits 10 d.unscaled.natAbs, ?_, List.cons_ne_nil _ _, ?_, ?_, ?_⟩
      · rw [if_neg long, List.append_assoc]
        rfl
      · rw [List.all_append, List.all_append, digits, List.all_replicate]
        simp [isAsciiDigit, inRanges]
      · rw [List.length_append, List.length_replicate]
        omega
      · rw [Nat.ofDigitChars_append, Nat.ofDigitChars_append, ofDigitChars_cons,
          Nat.ofDigitChars_nil, Nat.ofDigitChars_replicate_zero]
        exact Nat.ofDigitChars_ten_toDigits

/-- A spelling parses back unless the coefficient with the digits spelled overflows. -/
theorem Wf.parse_lexical (h : d.Wf) :
    parse d.lexical = some d ↔
      if d.scale = 0 then (d.unscaled.natAbs * 10 : Int) ≤ Int128.maximum
      else d.unscaled ≠ Int128.minimum := by
  obtain ⟨int, frac, spelled, some_, digits, length, number⟩ := h.lexical_eq
  have scale := h.scale
  have fits := h.fits
  rw [spelled, parse_spelled _ some_ digits, length]
  unfold Int128.Fits at fits
  by_cases zero : d.scale = 0
  · have signed : (if decide (d.unscaled < 0) = true then -((d.unscaled.natAbs * 10 : Nat) : Int)
        else (d.unscaled.natAbs * 10 : Nat)) = d.unscaled * 10 := by
      simp only [decide_eq_true_eq]
      split <;> omega
    have restored : strip (d.unscaled * 10) (max 1 d.scale % 2 ^ 32) = d := by
      rw [zero, show max 1 0 % 2 ^ 32 = 0 + 1 from rfl, strip, if_pos (by omega),
        Int.mul_ediv_cancel _ (by decide), strip, ← zero]
    rw [if_pos zero] at number
    rw [if_pos zero, number, Option.map_eq_some_iff]
    constructor
    · rintro ⟨m, read, -⟩
      obtain ⟨-, fits⟩ := Int128.checked_eq_some.mp read
      rw [← Nat.cast_ofNat, ← Nat.cast_mul]
      exact fits.2
    · intro small
      have below : Int128.Fits ((d.unscaled.natAbs * 10 : Nat) : Int) := by
        refine ⟨le_trans (by decide) (Int.natCast_nonneg _), ?_⟩
        rwa [Nat.cast_mul, Nat.cast_ofNat]
      refine ⟨_, Int128.checked_of_fits below, ?_⟩
      rw [signed]
      exact restored
  · have signed : (if decide (d.unscaled < 0) = true then -(d.unscaled.natAbs : Int)
        else d.unscaled.natAbs) = d.unscaled := by
      simp only [decide_eq_true_eq]
      split <;> omega
    have restored : strip d.unscaled (max 1 d.scale % 2 ^ 32) = d := by
      rw [Nat.mod_eq_of_lt (by omega), Nat.max_eq_right (by omega)]
      exact strip_of_normal h.normal
    rw [if_neg zero] at number
    rw [if_neg zero, number, Option.map_eq_some_iff]
    constructor
    · rintro ⟨m, read, -⟩ low
      obtain ⟨-, above⟩ := Int128.checked_eq_some.mp read
      have := above.2
      rw [low] at this
      exact absurd this (by decide)
    · intro kept
      have below : Int128.Fits (d.unscaled.natAbs : Int) := by
        unfold Int128.Fits Int128.minimum Int128.maximum at *
        omega
      refine ⟨_, Int128.checked_of_fits below, ?_⟩
      rw [signed]
      exact restored

/-! ## The engine's decimals -/

theorem pushDigit_spec {v w : Int} {c : Char} (nonneg : 0 ≤ v) (h : pushDigit v c = some w) :
    0 ≤ w ∧ Int128.Fits w := by
  simp only [pushDigit, bind, Option.bind_eq_some_iff, Int128.checked_eq_some] at h
  obtain ⟨_, ⟨rfl, -⟩, rfl, fits⟩ := h
  exact ⟨by omega, fits⟩

/-- The coefficient read is not negative and fits. -/
theorem foldlM_parseDigit_spec {s : List Char} {v w : Int} (nonneg : 0 ≤ v) (fits : Int128.Fits v)
    (h : s.foldlM parseDigit v = some w) : 0 ≤ w ∧ Int128.Fits w := by
  induction s generalizing v with
  | nil =>
      cases h
      exact ⟨nonneg, fits⟩
  | cons c s ih =>
      rw [List.foldlM_cons] at h
      obtain ⟨u, one, rest⟩ := Option.bind_eq_some_iff.mp h
      unfold parseDigit at one
      split at one
      · obtain ⟨nonneg, fits⟩ := pushDigit_spec nonneg one
        exact ih nonneg fits rest
      · cases one

theorem parse_wf {lex : List Char} (h : parse lex = some d) : d.Wf := by
  unfold parse at h
  split at h
  · cases h
  · simp only at h
    split at h
    · cases h
    · obtain ⟨m, read, rfl⟩ := Option.map_eq_some_iff.mp h
      obtain ⟨nonneg, fits⟩ := foldlM_parseDigit_spec le_rfl Int128.fits_zero read
      refine strip_wf _ ?_ (Nat.mod_lt _ (Nat.two_pow_pos 32))
      unfold Int128.Fits Int128.minimum Int128.maximum at *
      simp only
      split <;> omega

/-- Every produced decimal is well formed. -/
theorem Produced.wf (h : Produced d) : d.Wf := by
  induction h with
  | fromInt i low high =>
      refine fromI128_wf ?_
      unfold Int128.Fits Int128.minimum Int128.maximum
      omega
  | parse read => exact parse_wf read
  | add _ _ run wa wb => exact (checkedAdd_spec run).2 wa wb
  | sub _ _ run wa wb => exact (checkedSub_spec run).2 wa wb
  | mul _ _ run => exact (checkedMul_spec run).2
  | div _ _ run => exact checkedDiv_wf run
  | abs _ run wa =>
      obtain ⟨u, size, rfl⟩ := Option.map_eq_some_iff.mp run
      obtain ⟨rfl, fits⟩ := Int128.checked_eq_some.mp size
      refine ⟨fits, wa.scale, wa.normal.imp_right fun kept => ?_⟩
      simp only
      omega
  | ceil _ run wa =>
      rw [wa.ceil_eq] at run
      cases run
      exact fromI128_wf wa.fits_ceil
  | floor _ run wa =>
      rw [wa.floor_eq] at run
      cases run
      exact fromI128_wf wa.fits_floor
  | round _ run wa => exact wa.round_wf run

/-- Rounding is exact with at most 38 fraction digits, and without any on nothing above zero. -/
theorem Wf.round_iff (h : d.Wf) :
    (∃ r, d.round = .ok r ∧ r.value = ⌊d.value + 1 / 2⌋) ↔
      (d.scale = 0 → d.unscaled ≤ 0) ∧ d.scale ≤ 38 := by
  rcases Nat.eq_zero_or_pos d.scale with zero | positive
  · have whole : d = ⟨d.unscaled, 0⟩ := by rw [← zero]
    have exact_ := round_whole_exact h.fits
    rw [← whole] at exact_
    rw [exact_]
    simp [zero]
  · by_cases small : d.scale ≤ 38
    · refine iff_of_true ⟨_, (h.round_eq positive small).1, ?_⟩ ⟨by omega, small⟩
      rw [value, fromI128, Scaled.value_zero]
    · obtain ⟨rounded, wrong⟩ := h.round_large (by omega)
      refine iff_of_false ?_ fun both => small both.2
      rintro ⟨r, run, same⟩
      rw [rounded] at run
      cases run
      exact wrong same

/-- On two produced decimals the operations are exact and do not panic when and only when the two
are within the ranges. -/
theorem exact_iff_withinRange [Ieee.PowersOfTen] (pa : Produced a) (pb : Produced b) :
    Exact a b ↔ WithinRange a b := by
  have wa := pa.wf
  have rounds := wa.round_iff
  have divides := @checkedDiv_ok a b wa
  have spells := wa.parse_lexical
  have compares := wa.compare_iff pb.wf
  constructor
  · intro exact_
    obtain ⟨fraction, scale⟩ := rounds.mp exact_.round
    obtain ⟨quotientScale, quotient⟩ := divides.mp exact_.div
    exact ⟨compares.mp exact_.compare, fraction, scale, spells.mp exact_.parse, quotientScale,
      quotient⟩
  · intro within
    refine
      { add := fun run => (checkedAdd_spec run).1
        sub := fun run => (checkedSub_spec run).1
        mul := fun run => (checkedMul_spec run).1
        div := divides.mpr ⟨within.quotientScale, within.quotient⟩
        compare := compares.mpr within.doubles
        trunc := ?_
        ceil := wa.ceil_eq
        floor := wa.floor_eq
        round := rounds.mpr ⟨within.fraction, within.scale⟩
        parse := spells.mpr within.spelling }
    rw [wa.trunc_eq, Scaled.tdiv_eq]
    rfl

/-- A tenth and a whole number of 39 digits: there is no common scale, and their doubles differ. -/
theorem exact_iff_withinRange_tenth : @Exact Ieee.nearestPowers ⟨1, 1⟩ ⟨10 ^ 38, 0⟩ := by
  let powers := Ieee.nearestPowers
  have tenth : parse "0.1".toList = some ⟨1, 1⟩ := by decide
  have large : parse "100000000000000000000000000000000000000".toList = some ⟨10 ^ 38, 0⟩ := by
    decide +kernel
  exact (exact_iff_withinRange (.parse tenth) (.parse large)).mpr
    { doubles := fun _ => by decide +kernel
      fraction := by decide
      scale := by decide
      spelling := by decide
      quotientScale := by decide
      quotient := by decide }

/-- Five is read without a fraction and rounds to six. -/
theorem round_five :
    parse "5.0".toList = some ⟨5, 0⟩ ∧ round ⟨5, 0⟩ = .ok ⟨6, 0⟩ ∧
      ∀ _ : Ieee.PowersOfTen, ¬ ∀ a b, Produced a → Produced b → Exact a b := by
  have read : parse "5.0".toList = some ⟨5, 0⟩ := by decide
  refine ⟨read, rfl, fun _ claimed => ?_⟩
  obtain ⟨r, run, same⟩ := (claimed ⟨5, 0⟩ ⟨5, 0⟩ (.parse read) (.parse read)).round
  cases run
  norm_num [value, Scaled.value, fromI128] at same

end Graphy.Dec
