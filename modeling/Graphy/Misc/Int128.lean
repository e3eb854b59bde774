import Mathlib.Algebra.Order.Ring.Int
import Mathlib.Order.Compare
import Mathlib.Tactic.Linarith

/-!
# Signed 128-bit arithmetic

An operation is computed on the integers and its result kept when it fits: the
checked form answers `none` where it does not, the plain form panics.
-/

namespace Graphy

/-- A panic of an arithmetic operation. -/
inductive Panic where
  | overflow
deriving DecidableEq, Repr

namespace Int128

def minimum : Int := -2 ^ 127

def maximum : Int := 2 ^ 127 - 1

def Fits (x : Int) : Prop := minimum ≤ x ∧ x ≤ maximum

instance (x : Int) : Decidable (Fits x) := inferInstanceAs (Decidable (_ ∧ _))

/-- The result of a checked operation. -/
def checked (x : Int) : Option Int := if Fits x then some x else none

/-- The result of an operation that panics on overflow. -/
def plain (x : Int) : Except Panic Int := if Fits x then .ok x else .error .overflow

def checkedPow (base : Int) (e : Nat) : Option Int := checked (base ^ e)

theorem checked_eq_some {x y : Int} : checked x = some y ↔ x = y ∧ Fits x := by
  unfold checked
  split <;> simp [*]

theorem checked_eq_none {x : Int} : checked x = none ↔ ¬ Fits x := by
  unfold checked
  split <;> simp [*]

theorem checked_of_fits {x : Int} (h : Fits x) : checked x = some x := if_pos h

theorem plain_of_fits {x : Int} (h : Fits x) : plain x = .ok x := if_pos h

theorem plain_eq_ok {x y : Int} : plain x = .ok y ↔ x = y ∧ Fits x := by
  unfold plain
  split <;> simp [*]

theorem Fits.of_between {x y z : Int} (hx : Fits x) (hz : Fits z) (low : x ≤ y) (high : y ≤ z) :
    Fits y :=
  ⟨hx.1.trans low, high.trans hz.2⟩

theorem fits_zero : Fits 0 := by decide

/-- A power of ten fits up to the exponent 38. -/
theorem fits_pow_ten {e : Nat} : Fits (10 ^ e) ↔ e ≤ 38 := by
  constructor
  · intro fits
    by_contra large
    have grows : (10 : Int) ^ 39 ≤ 10 ^ e := pow_le_pow_right₀ (by decide) (by omega)
    have bound : (10 : Int) ^ e ≤ maximum := fits.2
    have : maximum < (10 : Int) ^ 39 := by decide
    omega
  · intro small
    have grows : (10 : Int) ^ e ≤ 10 ^ 38 := pow_le_pow_right₀ (by decide) small
    have positive : (0 : Int) ≤ 10 ^ e := by positivity
    exact fits_zero.of_between (z := 10 ^ 38) (by decide) positive grows

theorem checkedPow_ten (e : Nat) : checkedPow 10 e = if e ≤ 38 then some (10 ^ e) else none := by
  simp only [checkedPow, checked, fits_pow_ten]

/-- A quotient by a positive number fits. -/
theorem Fits.ediv {x p : Int} (h : Fits x) (positive : 0 < p) : Fits (x / p) := by
  have low : minimum * p ≤ x := by
    have := h.1
    have : minimum * p ≤ minimum * 1 := Int.mul_le_mul_of_nonpos_left (by decide) (by omega)
    omega
  have high : x ≤ maximum * p := by
    have := h.2
    have : maximum * 1 ≤ maximum * p := Int.mul_le_mul_of_nonneg_left (by omega) (by decide)
    omega
  exact ⟨(Int.le_ediv_iff_mul_le positive).mpr low, Int.ediv_le_of_le_mul positive high⟩

/-- A remainder by a positive number that fits, fits. -/
theorem Fits.emod {x p : Int} (h : Fits p) (positive : 0 < p) : Fits (x % p) :=
  fits_zero.of_between h (Int.emod_nonneg x positive.ne') (Int.emod_lt_of_pos x positive).le

/-- A value that fits is below the powers of ten that do not. -/
theorem Fits.natAbs_lt_pow {x : Int} (h : Fits x) {e : Nat} (large : 38 < e) :
    (x.natAbs : Int) * 2 < 10 ^ e := by
  have grows : (10 : Int) ^ 39 ≤ 10 ^ e := pow_le_pow_right₀ (by decide) large
  unfold Fits minimum maximum at h
  omega

/-- Division toward zero by a positive number fits. -/
theorem Fits.tdiv {x p : Int} (h : Fits x) (positive : 0 < p) : Fits (x.tdiv p) := by
  rcases le_total 0 x with sign | sign
  · rw [Int.tdiv_eq_ediv_of_nonneg sign]
    exact h.ediv positive
  · have mirrored : (-x).tdiv p = -x / p := Int.tdiv_eq_ediv_of_nonneg (by omega)
    rw [Int.neg_tdiv] at mirrored
    have low := Int.ediv_nonneg (a := -x) (by omega) positive.le
    have high := Int.ediv_le_self (a := -x) p (by omega)
    exact h.of_between fits_zero (by omega) (by omega)

theorem tdiv_tmod_of_natAbs_lt {x p : Int} (h : (x.natAbs : Int) < p) :
    x.tdiv p = 0 ∧ x.tmod p = x := by
  have zero : x.tdiv p = 0 := by
    rcases le_total 0 x with sign | sign
    · exact Int.tdiv_eq_zero_of_lt sign (by omega)
    · have mirrored := @Int.tdiv_eq_zero_of_lt (-x) p (by omega) (by omega)
      rw [Int.neg_tdiv] at mirrored
      omega
  have parts := Int.mul_tdiv_add_tmod x p
  rw [zero, mul_zero, zero_add] at parts
  exact ⟨zero, parts⟩

/-- Division overflows on the minimum by minus one only. -/
theorem Fits.tdiv_iff {x y : Int} (h : Fits x) (divisor : y ≠ 0) :
    Fits (x.tdiv y) ↔ ¬ (x = minimum ∧ y = -1) := by
  have size : (x.tdiv y).natAbs = x.natAbs / y.natAbs := Int.natAbs_tdiv x y
  by_cases unit : y = -1
  · subst unit
    rw [Int.tdiv_neg, Int.tdiv_one]
    unfold Fits minimum maximum at *
    omega
  · refine iff_of_true ?_ fun both => unit both.2
    by_cases one : y = 1
    · rwa [one, Int.tdiv_one]
    · have halved : x.natAbs / y.natAbs ≤ x.natAbs / 2 :=
        Nat.div_le_div_left (by omega) (by decide)
      unfold Fits minimum maximum at *
      omega

end Int128

end Graphy
