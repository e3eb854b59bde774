import Graphy.Core.ValueOrder

/-!
# Inline numbers compare exactly

The floor of a decimal and the product at the larger scale stay in 128 bits, or
are decided by a sign.
-/

namespace Graphy

/-- An unscaled value in the payload's range. -/
def Unscaled (u : Int) : Prop := -2 ^ 51 ≤ u ∧ u < 2 ^ 51

/-- What an inline number carries. -/
theorem InlineNumber.decode_cases (a : InlineNumber) :
    (∃ v, a.id.decode = some (.integer v) ∧ a.value = v) ∨
      ∃ u s, a.id.decode = some (.decimal u s) ∧ Unscaled u ∧ a.value = Scaled.value u s := by
  obtain ⟨⟨tag, payload⟩, integer | decimal⟩ := a
  · left
    simp only at integer
    subst integer
    exact ⟨_, rfl, rfl⟩
  · right
    simp only at decimal
    subst decimal
    refine ⟨_, _, rfl, ?_, rfl⟩
    unfold Unscaled
    omega

/-- Every power of ten past the payload's range is past the unscaled value. -/
theorem Unscaled.lt_pow {u : Int} (h : Unscaled u) {s : Nat} (large : 38 < s) :
    u.natAbs < 10 ^ s := by
  have grows : 10 ^ 39 ≤ 10 ^ s := Nat.pow_le_pow_right (by decide) large
  unfold Unscaled at h
  omega

theorem Unscaled.fits {u : Int} (h : Unscaled u) : Int128.Fits u := by
  unfold Unscaled at h
  unfold Int128.Fits Int128.minimum Int128.maximum
  omega

/-- Quotient and remainder of a number below the divisor in magnitude. -/
theorem ediv_emod_of_natAbs_lt {u p : Int} (h : (u.natAbs : Int) < p) :
    u / p = (if 0 ≤ u then 0 else -1) ∧ (u % p ≠ 0 ↔ u ≠ 0) := by
  by_cases sign : 0 ≤ u
  · rw [Int.ediv_eq_zero_of_lt sign (by omega), Int.emod_eq_of_lt sign (by omega), if_pos sign]
    exact ⟨rfl, Iff.rfl⟩
  · obtain ⟨quotient, remainder⟩ : u / p = -1 ∧ u % p = u + p :=
      (Int.ediv_emod_unique (by omega)).mpr ⟨by ring, by omega, by omega⟩
    rw [quotient, remainder, if_neg sign]
    exact ⟨rfl, by omega⟩

/-- Floor and fraction of a decimal, without overflow. -/
theorem decFloor_eq {u : Int} (h : Unscaled u) (s : Nat) :
    decFloor u s = .ok (u / 10 ^ s, decide (u % 10 ^ s ≠ 0)) := by
  unfold decFloor
  by_cases zero : s = 0
  · subst zero
    simp
  · rw [if_neg zero]
    by_cases small : s ≤ 38
    · have positive : (0 : Int) < 10 ^ s := by positivity
      have power := Int128.fits_pow_ten.mpr small
      rw [if_pos small, Int128.plain_of_fits power]
      simp only [Int128.plain_of_fits (h.fits.ediv positive),
        Int128.plain_of_fits (power.emod positive), bind, Except.bind]
    · have below : (u.natAbs : Int) < 10 ^ s := by exact_mod_cast h.lt_pow (Nat.lt_of_not_le small)
      obtain ⟨quotient, fraction⟩ := ediv_emod_of_natAbs_lt below
      rw [if_neg small, quotient]
      simp only [fraction]

/-- An integer against a decimal. -/
theorem cmpIntDec_eq {u : Int} (h : Unscaled u) (a : Int) (s : Nat) :
    cmpIntDec a u s = .ok (cmp (a : ℚ) (Scaled.value u s)) := by
  rw [cmpIntDec, decFloor_eq h, Scaled.cmp_floor, Scaled.floor_value, Except.map]
  generalize cmp a (u / 10 ^ s) = ord
  simp only [Scaled.floor_eq_value_iff]
  cases ord <;> simp [Ordering.then]

/-- A product past the 128-bit range is past the payload's range, on its own side. -/
theorem cmp_of_overflow {u1 u2 : Int} {k : Nat} (h2 : Unscaled u2)
    (large : ¬ Int128.Fits (u1 * 10 ^ k)) :
    cmp (u1 * 10 ^ k) u2 = if 0 < u1 then .gt else .lt := by
  have positive : (0 : Int) < 10 ^ k := by positivity
  unfold Int128.Fits Int128.minimum Int128.maximum at large
  unfold Unscaled at h2
  by_cases sign : 0 < u1
  · have above : 0 < u1 * 10 ^ k := Int.mul_pos sign positive
    rw [if_pos sign]
    exact LT.lt.cmp_eq_gt (by omega)
  · have below : u1 * 10 ^ k ≤ 0 := Int.mul_nonpos_of_nonpos_of_nonneg (by omega) positive.le
    rw [if_neg sign]
    exact LT.lt.cmp_eq_lt (by omega)

/-- Two decimals, the first at the smaller scale. -/
theorem cmpRaised_eq {u1 u2 : Int} {s1 s2 : Nat} (h2 : Unscaled u2) (le : s1 ≤ s2) :
    cmpRaised u1 s1 u2 s2 = cmp (Scaled.value u1 s1) (Scaled.value u2 s2) := by
  rw [cmpRaised, Scaled.cmp_value_of_le le]
  by_cases zero : u1 = 0
  · rw [if_pos zero, zero, zero_mul]
  · rw [if_neg zero, Int128.checkedPow_ten]
    by_cases small : s2 - s1 ≤ 38
    · rw [if_pos small, Option.bind_some]
      by_cases fits : Int128.Fits (u1 * 10 ^ (s2 - s1))
      · rw [Int128.checked_of_fits fits]
      · rw [Int128.checked_eq_none.mpr fits, cmp_of_overflow h2 fits]
    · have large : ¬ Int128.Fits (u1 * 10 ^ (s2 - s1)) := by
        have below : (1 : Int) * 10 ^ (s2 - s1) ≤ u1.natAbs * 10 ^ (s2 - s1) :=
          Int.mul_le_mul_of_nonneg_right (by omega) (by positivity)
        have grows : (10 : Int) ^ 39 ≤ 10 ^ (s2 - s1) := pow_le_pow_right₀ (by decide) (by omega)
        unfold Int128.Fits Int128.minimum Int128.maximum
        rcases le_total 0 u1 with sign | sign
        · rw [Int.natAbs_of_nonneg sign] at below
          omega
        · rw [Int.ofNat_natAbs_of_nonpos sign, neg_mul] at below
          omega
      rw [if_neg small, Option.bind_none, cmp_of_overflow h2 large]

/-- Two decimals. -/
theorem cmpDecDec_eq {u1 u2 : Int} (h1 : Unscaled u1) (h2 : Unscaled u2) (s1 s2 : Nat) :
    cmpDecDec u1 s1 u2 s2 = cmp (Scaled.value u1 s1) (Scaled.value u2 s2) := by
  rcases Nat.lt_or_ge s2 s1 with swapped | le
  · rw [cmpDecDec, if_pos swapped, cmpRaised_eq h1 swapped.le, cmp_swap]
  · rw [cmpDecDec, if_neg (Nat.not_lt.mpr le), cmpRaised_eq h2 le]

variable [Ieee.PowersOfTen]

/-- The comparison of two inline numbers is that of their values. -/
theorem partialCmpValue_eq (a b : InlineNumber) :
    partialCmpValue a.id b.id = .ok (some (cmp a.value b.value)) := by
  unfold partialCmpValue
  obtain ⟨x, da, va⟩ | ⟨u1, s1, da, h1, va⟩ := a.decode_cases <;>
    obtain ⟨y, db, vb⟩ | ⟨u2, s2, db, h2, vb⟩ := b.decode_cases <;>
    rw [da, db, va, vb]
  · show Except.ok _ = _
    rw [Int.cast_strictMono.cmp_map_eq]
  · show (cmpIntDec x u2 s2).map some = _
    rw [cmpIntDec_eq h2]
    rfl
  · show (cmpIntDec y u1 s1).map _ = _
    rw [cmpIntDec_eq h1, ← cmp_swap, Except.map, Ordering.swap_swap]
  · show Except.ok _ = _
    rw [cmpDecDec_eq h1 h2]

namespace InlineNumber

theorem atMost_iff {a b : InlineNumber} : AtMost a b ↔ a.value ≤ b.value := by
  unfold AtMost
  rw [partialCmpValue_eq]
  constructor
  · rintro ⟨ord, same, notAbove⟩
    cases same
    exact (cmp_compares _ _).ne_gt.mp notAbove
  · intro le
    exact ⟨_, rfl, (cmp_compares _ _).ne_gt.mpr le⟩

/-- Comparing inline numbers never overflows and orders them as their exact values, so it is
reflexive, antisymmetric and transitive. -/
theorem partialCmp_exact :
    (∀ a b : InlineNumber, partialCmpValue a.id b.id = .ok (some (cmp a.value b.value))) ∧
    (∀ a : InlineNumber, AtMost a a) ∧
    (∀ a b : InlineNumber, AtMost a b → AtMost b a → partialCmpValue a.id b.id = .ok (some .eq)) ∧
    (∀ a b c : InlineNumber, AtMost a b → AtMost b c → AtMost a c) := by
  refine ⟨partialCmpValue_eq, fun a => atMost_iff.mpr le_rfl, fun a b ab ba => ?_,
    fun a b c ab bc => ?_⟩
  · have same : a.value = b.value := le_antisymm (atMost_iff.mp ab) (atMost_iff.mp ba)
    rw [partialCmpValue_eq, same.cmp_eq_eq]
  · exact atMost_iff.mpr ((atMost_iff.mp ab).trans (atMost_iff.mp bc))

end InlineNumber

end Graphy
