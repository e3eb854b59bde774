import Mathlib.Algebra.Order.Field.Rat
import Mathlib.Algebra.Order.Ring.Unbundled.Basic
import Mathlib.Data.Rat.Floor
import Mathlib.Tactic.FieldSimp
import Mathlib.Tactic.Linarith
import Mathlib.Tactic.Positivity
import Mathlib.Tactic.Ring

/-!
# Scaled integers

An integer with a scale stands for the rational `u · 10⁻ˢ`.  Raising the scale
keeps the rational, so two scaled integers compare as their integers do at a
common scale.
-/

namespace Graphy.Scaled

/-- The rational `u · 10⁻ˢ`. -/
def value (u : Int) (s : Nat) : ℚ := u / 10 ^ s

@[simp] theorem value_zero (u : Int) : value u 0 = u := by simp [value]

/-- Raising the scale keeps the value. -/
theorem value_raise (u : Int) (s k : Nat) : value (u * 10 ^ k) (s + k) = value u s := by
  unfold value
  push_cast
  rw [pow_add]
  field_simp

/-- Integers at one scale compare as their values. -/
theorem cmp_value_same (u v : Int) (s : Nat) : cmp (value u s) (value v s) = cmp u v := by
  have increasing : StrictMono fun x : Int => value x s := by
    intro x y less
    exact (div_lt_div_iff_of_pos_right (by positivity)).mpr (Int.cast_lt.mpr less)
  exact increasing.cmp_map_eq u v

/-- The smaller scale is raised to the larger one. -/
theorem cmp_value_of_le {s t : Nat} (h : s ≤ t) (u v : Int) :
    cmp (value u s) (value v t) = cmp (u * 10 ^ (t - s)) v := by
  have raised := value_raise u s (t - s)
  rw [Nat.add_sub_cancel' h] at raised
  rw [← raised, cmp_value_same]

/-- The integer below the value. -/
theorem floor_value (u : Int) (s : Nat) : ⌊value u s⌋ = u / 10 ^ s := by
  have floors := Rat.floor_intCast_div_natCast u (10 ^ s)
  push_cast at floors
  exact floors

/-- The integer below the value is the value when the power divides. -/
theorem floor_eq_value_iff (u : Int) (s : Nat) :
    ((u / 10 ^ s : Int) : ℚ) = value u s ↔ u % 10 ^ s = 0 := by
  rw [value, eq_div_iff (by positivity)]
  have parts := Int.mul_ediv_add_emod u (10 ^ s)
  constructor
  · intro same
    have same : u / 10 ^ s * 10 ^ s = u := by exact_mod_cast same
    linarith
  · intro divides
    rw [divides] at parts
    have same : u / 10 ^ s * 10 ^ s = u := by linarith
    exact_mod_cast same

theorem value_add (u v : Int) (s : Nat) : value (u + v) s = value u s + value v s := by
  unfold value
  push_cast
  ring

theorem value_sub (u v : Int) (s : Nat) : value (u - v) s = value u s - value v s := by
  unfold value
  push_cast
  ring

theorem value_mul (u v : Int) (s t : Nat) : value (u * v) (s + t) = value u s * value v t := by
  unfold value
  push_cast
  rw [pow_add]
  field_simp

theorem value_nonneg {u : Int} {s : Nat} : 0 ≤ value u s ↔ 0 ≤ u := by
  rw [value, le_div_iff₀ (by positivity), zero_mul, Int.cast_nonneg_iff]

/-- The integer above the value. -/
theorem ceil_value (u : Int) (s : Nat) : ⌈value u s⌉ = -(-u / 10 ^ s) := by
  have ceils := Rat.ceil_intCast_div_natCast u (10 ^ s)
  push_cast at ceils
  exact ceils

/-! ## Truncation

Dividing toward zero drops the fraction; where one was dropped, the integer on
the far side is the next one. -/

theorem tdiv_of_nonneg {u : Int} (sign : 0 ≤ u) (s : Nat) : u.tdiv (10 ^ s) = ⌊value u s⌋ := by
  rw [floor_value, Int.tdiv_eq_ediv_of_nonneg sign]

theorem tdiv_of_nonpos {u : Int} (sign : u ≤ 0) (s : Nat) : u.tdiv (10 ^ s) = ⌈value u s⌉ := by
  rw [ceil_value, ← Int.tdiv_eq_ediv_of_nonneg (by omega), Int.neg_tdiv, neg_neg]

/-- Division toward zero drops the fraction. -/
theorem tdiv_eq (u : Int) (s : Nat) :
    u.tdiv (10 ^ s) = if 0 ≤ value u s then ⌊value u s⌋ else ⌈value u s⌉ := by
  by_cases sign : 0 ≤ u
  · rw [if_pos (value_nonneg.mpr sign), tdiv_of_nonneg sign]
  · rw [if_neg (mt value_nonneg.mp sign), tdiv_of_nonpos (by omega)]

theorem ceil_eq_tdiv (u : Int) (s : Nat) :
    ⌈value u s⌉ = u.tdiv (10 ^ s) + if u.tmod (10 ^ s) ≠ 0 ∧ 0 < u then 1 else 0 := by
  rcases le_or_gt u 0 with sign | sign
  · rw [tdiv_of_nonpos sign, if_neg (by omega), add_zero]
  · have positive : (0 : Int) < 10 ^ s := by positivity
    have parts := Int.mul_tdiv_add_tmod u (10 ^ s)
    have low := Int.tmod_nonneg (10 ^ s) sign.le
    have high := Int.tmod_lt_of_pos u positive
    rw [ceil_value]
    by_cases whole : u.tmod (10 ^ s) = 0
    · obtain ⟨quotient, -⟩ : -u / 10 ^ s = -u.tdiv (10 ^ s) ∧ -u % 10 ^ s = 0 :=
        (Int.ediv_emod_unique positive).mpr ⟨by linarith, by omega, by omega⟩
      rw [quotient, if_neg (by omega), neg_neg, add_zero]
    · obtain ⟨quotient, -⟩ : -u / 10 ^ s = -u.tdiv (10 ^ s) - 1 ∧
          -u % 10 ^ s = 10 ^ s - u.tmod (10 ^ s) :=
        (Int.ediv_emod_unique positive).mpr ⟨by linarith, by omega, by omega⟩
      rw [quotient, if_pos ⟨whole, sign⟩]
      ring

theorem floor_eq_tdiv (u : Int) (s : Nat) :
    ⌊value u s⌋ = u.tdiv (10 ^ s) - if u.tmod (10 ^ s) ≠ 0 ∧ u < 0 then 1 else 0 := by
  have mirrored := ceil_eq_tdiv (-u) s
  rw [ceil_value, neg_neg, ← floor_value, Int.neg_tdiv, Int.neg_tmod] at mirrored
  simp only [ne_eq, neg_eq_zero, Left.neg_pos_iff] at mirrored ⊢
  omega

/-- The nearest integer, halves up, is the floor half a unit further on. -/
theorem nearest_value (u : Int) (s : Nat) :
    ⌊value u (s + 1) + 1 / 2⌋ = (u + 10 ^ (s + 1) / 2) / 10 ^ (s + 1) := by
  have half : (10 : Int) ^ (s + 1) / 2 = 5 * 10 ^ s := by
    rw [pow_succ, show (10 : Int) ^ s * 10 = 5 * 10 ^ s * 2 by ring]
    exact Int.mul_ediv_cancel _ (by decide)
  have moved : value u (s + 1) + 1 / 2 = value (u + 5 * 10 ^ s) (s + 1) := by
    unfold value
    push_cast
    field_simp
    ring
  rw [half, moved, floor_value]

/-- An integer compares with a number as with the integer below it, and is smaller than
what lies strictly above. -/
theorem cmp_floor (a : Int) (q : ℚ) :
    cmp (a : ℚ) q = (cmp a ⌊q⌋).then (if (⌊q⌋ : ℚ) = q then .eq else .lt) := by
  have below := Int.floor_le q
  rcases lt_trichotomy a ⌊q⌋ with less | same | greater
  · have : (a : ℚ) < q := lt_of_lt_of_le (by exact_mod_cast less) below
    rw [this.cmp_eq_lt, less.cmp_eq_lt]
    rfl
  · subst same
    rw [cmp_self_eq_eq]
    by_cases exact_ : (⌊q⌋ : ℚ) = q
    · rw [if_pos exact_, exact_.cmp_eq_eq]
      rfl
    · rw [if_neg exact_, (lt_of_le_of_ne below exact_).cmp_eq_lt]
      rfl
  · have : q < (a : ℚ) := Int.floor_lt.mp greater
    rw [this.cmp_eq_gt, greater.cmp_eq_gt]
    rfl

end Graphy.Scaled
