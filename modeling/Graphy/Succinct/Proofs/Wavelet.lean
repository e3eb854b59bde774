import Graphy.Succinct.Proofs.Reference
import Graphy.Succinct.Wavelet

/-!
# The wavelet matrix against its sequence

The levels are the directories over the levels of plain bits, so going down and coming
back up are the plain walks wherever the samples on the way are straight.  Only the low
bits of a symbol take part: one that does not fit the width is taken for the value with
the same low bits.
-/

namespace Graphy.Succinct

open Graphy.WaveletMatrix (levelOf partitioned buildLevels buildLevels_succ countLow)

/-! ## Levels over plain bits -/

/-- The directory over a level of plain bits. -/
def Level.over (plain : WaveletLevel) : Level where
  bits := .ofBits plain.bits
  zeros := (BitVector.ofBits plain.bits).countZeros

theorem length_ofBits (bits : List Bool) : (BitVector.ofBits bits).len = bits.length :=
  (holding_ofBits bits).len

theorem countZeros_ofBits (bits : List Bool) :
    (BitVector.ofBits bits).countZeros = bits.count false := by
  have zeros := (holding_ofBits bits).rank0_reference (le_refl bits.length)
  rw [← length_ofBits bits, (holding_ofBits bits).rank0_eq le_rfl, ← (holding_ofBits bits).countZeros_eq,
    length_ofBits, List.take_length, Except.ok.injEq] at zeros
  exact zeros

theorem newLevels_eq (width : Nat) (cur : List Nat) :
    newLevels width cur = (buildLevels width cur).map Level.over := by
  induction width generalizing cur with
  | zero => rfl
  | succ width ih => rw [newLevels, buildLevels_succ, List.map_cons, ih]; rfl

@[simp] theorem length_newLevels (width : Nat) (cur : List Nat) :
    (newLevels width cur).length = width := by
  rw [newLevels_eq, List.length_map, Graphy.WaveletMatrix.length_buildLevels]

section Level

variable {p : Nat → Bool} {cur : List Nat}

theorem next_over (bit : Bool) {i : Nat} (inside : i ≤ cur.length) :
    (Level.over (levelOf p cur)).next bit i =
      .ok (Graphy.WaveletMatrix.WaveletLevel.next (levelOf p cur) bit i) := by
  have holding := holding_ofBits (levelOf p cur).bits
  have within : i ≤ (levelOf p cur).bits.length := by rwa [levelOf, List.length_map]
  cases bit with
  | true =>
      have zeros : (Level.over (levelOf p cur)).zeros = (levelOf p cur).zeros := countZeros_ofBits _
      have rank : (Level.over (levelOf p cur)).bits.rank1 i = _ := holding.rank1_reference within
      rw [Level.next, if_pos rfl, rank, zeros]
      rfl
  | false =>
      have rank : (Level.over (levelOf p cur)).bits.rank0 i = _ := holding.rank0_reference within
      rw [Level.next, if_neg Bool.false_ne_true, rank, count_false_take,
        Graphy.BitVector.rank0_map_not within]
      rfl

theorem get_over {i v : Nat} (here : cur[i]? = some v) :
    (Level.over (levelOf p cur)).bits.get i = .ok (p v) := by
  refine (holding_ofBits (levelOf p cur).bits).get_reference ?_
  rw [levelOf, List.getElem?_map, here]
  rfl

end Level

/-! ## Access -/

theorem or_two_pow {width acc : Nat} (clear : 2 ^ (width + 1) ∣ acc) :
    acc ||| 1 <<< width = acc + 2 ^ width := by
  obtain ⟨a, rfl⟩ := clear
  rw [Nat.one_shiftLeft, ← Nat.two_pow_add_eq_or_of_lt (Nat.pow_lt_pow_succ (by omega))]

theorem accessFrom_eq {width : Nat} {cur : List Nat} {i v acc : Nat} (here : cur[i]? = some v)
    (clear : 2 ^ width ∣ acc) :
    accessFrom (newLevels width cur) i acc = .ok (acc + v % 2 ^ width) := by
  induction width generalizing cur i acc with
  | zero =>
      rw [Nat.pow_zero, Nat.mod_one]
      rfl
  | succ width ih =>
      have inside := (List.getElem?_eq_some_iff.mp here).1
      have lands := Graphy.WaveletMatrix.partitioned_next (p := fun v => v.testBit width) here
      change (do
        let bit ← (Level.over (levelOf (fun v => v.testBit width) cur)).bits.get i
        let i ← (Level.over (levelOf (fun v => v.testBit width) cur)).next bit i
        accessFrom (newLevels width (partitioned (fun v => v.testBit width) cur)) i
          (if bit then acc ||| 1 <<< (newLevels width _).length else acc)) = _
      rw [get_over here, ok_bind, next_over _ inside.le, ok_bind, length_newLevels,
        Graphy.WaveletMatrix.mod_two_pow_succ]
      have lower : 2 ^ width ∣ acc := Dvd.dvd.trans (Nat.pow_dvd_pow 2 (Nat.le_succ width)) clear
      cases bit : v.testBit width with
      | true =>
          rw [bit] at lands
          rw [if_pos rfl, if_pos rfl, or_two_pow clear, ih lands (Nat.dvd_add lower dvd_rfl),
            Nat.add_assoc]
      | false =>
          rw [bit] at lands
          rw [if_neg Bool.false_ne_true, if_neg Bool.false_ne_true, ih lands lower, Nat.zero_add]

/-! ## Down and back up -/

theorem countLow_zero (sym : Nat) (l : List Nat) : countLow 0 sym l = l.length := by
  simp [countLow, Nat.mod_one]

theorem descend_succ {width sym : Nat} {cur : List Nat} {l r : Nat} (order : l ≤ r)
    (inside : r ≤ cur.length) :
    descend (newLevels (width + 1) cur) sym l r =
      descend (newLevels width (partitioned (fun v => v.testBit width) cur)) sym
        (Graphy.WaveletMatrix.WaveletLevel.next (levelOf (fun v => v.testBit width) cur)
          (sym.testBit width) l)
        (Graphy.WaveletMatrix.WaveletLevel.next (levelOf (fun v => v.testBit width) cur)
          (sym.testBit width) r) := by
  change (do
    let l ← (Level.over (levelOf (fun v => v.testBit width) cur)).next
      (sym.testBit (newLevels width _).length) l
    let r ← (Level.over (levelOf (fun v => v.testBit width) cur)).next
      (sym.testBit (newLevels width _).length) r
    descend (newLevels width (partitioned (fun v => v.testBit width) cur)) sym l r) = _
  rw [length_newLevels, next_over _ (order.trans inside), ok_bind, next_over _ inside, ok_bind]

theorem descend_eq (width sym : Nat) {cur : List Nat} {l r : Nat} (order : l ≤ r)
    (inside : r ≤ cur.length) :
    ∃ l' r', descend (newLevels width cur) sym l r = .ok (l', r') ∧ l' ≤ r' ∧
      r' - l' = countLow width sym (slice cur l r) := by
  induction width generalizing cur l r with
  | zero =>
      refine ⟨l, r, rfl, order, ?_⟩
      rw [countLow_zero, slice, List.length_take, List.length_drop]
      omega
  | succ width ih =>
      have mono := Graphy.WaveletMatrix.next_mono (p := fun v => v.testBit width)
        (sym.testBit width) order inside
      have within := Graphy.WaveletMatrix.next_le_length (p := fun v => v.testBit width)
        (sym.testBit width) inside
      obtain ⟨l', r', down, order', size⟩ := ih mono within
      rw [Graphy.WaveletMatrix.slice_partitioned _ order inside,
        ← Graphy.WaveletMatrix.countLow_succ] at size
      exact ⟨l', r', (descend_succ order inside).trans down, order', size⟩

section Level

variable {p : Nat → Bool} {cur : List Nat} {pos v : Nat}

theorem back_next (bit : Bool) (pos : Nat) :
    (Level.over (levelOf p cur)).back bit
        (Graphy.WaveletMatrix.WaveletLevel.next (levelOf p cur) bit pos) =
      if bit then (BitVector.ofBits (levelOf p cur).bits).select1
          (Graphy.BitVector.rank1 (levelOf p cur).bits pos)
        else (BitVector.ofBits (levelOf p cur).bits).select0
          (Graphy.BitVector.rank0 (levelOf p cur).bits pos) := by
  cases bit with
  | true =>
      have zeros : (Level.over (levelOf p cur)).zeros = (levelOf p cur).zeros := countZeros_ofBits _
      rw [Level.back, if_pos rfl, if_pos rfl, Graphy.WaveletMatrix.WaveletLevel.next, if_pos rfl,
        zeros, minus, if_pos (Nat.le_add_right _ _), Nat.add_sub_cancel_left, ok_bind]
      rfl
  | false => rfl

theorem bit_levelOf (here : cur[pos]? = some v) : (levelOf p cur).bits[pos]? = some (p v) := by
  rw [levelOf, List.getElem?_map, here]
  rfl

/-- From where an element went, its level leads back to it. -/
theorem back_straight (here : cur[pos]? = some v)
    (straight : StraightBack (levelOf p cur) (p v) pos) :
    (Level.over (levelOf p cur)).back (p v)
      (Graphy.WaveletMatrix.WaveletLevel.next (levelOf p cur) (p v) pos) = .ok (some pos) := by
  have set := bit_levelOf (p := p) here
  rw [back_next]
  cases bit : p v with
  | true =>
      rw [bit] at set straight
      rw [if_pos rfl, (holding_ofBits _).select1_straight straight,
        Graphy.BitVector.select1_eq_some_iff.mpr ⟨set, rfl⟩]
  | false =>
      rw [bit] at set straight
      rw [if_neg Bool.false_ne_true, (holding_ofBits _).select0_straight straight,
        Graphy.BitVector.select0_eq_some_iff.mpr ⟨set, rfl⟩]

theorem back_crooked (here : cur[pos]? = some v)
    (crooked : ¬ StraightBack (levelOf p cur) (p v) pos) :
    (Level.over (levelOf p cur)).back (p v)
      (Graphy.WaveletMatrix.WaveletLevel.next (levelOf p cur) (p v) pos) = .error .underflow := by
  have set := bit_levelOf (p := p) here
  rw [back_next]
  cases bit : p v with
  | true =>
      rw [bit] at set crooked
      exact (holding_ofBits _).select1_crooked
        (Graphy.BitVector.select1_eq_some_iff.mpr ⟨set, rfl⟩) crooked
  | false =>
      rw [bit] at set crooked
      exact (holding_ofBits _).select0_crooked
        (Graphy.BitVector.select0_eq_some_iff.mpr ⟨set, rfl⟩) crooked

end Level

theorem climbs_succ (width : Nat) {pos v : Nat} {cur : List Nat} (here : cur[pos]? = some v) :
    Climbs (buildLevels (width + 1) cur) pos ↔
      StraightBack (levelOf (fun v => v.testBit width) cur) (v.testBit width) pos ∧
        Climbs (buildLevels width (partitioned (fun v => v.testBit width) cur))
          (Graphy.WaveletMatrix.WaveletLevel.next (levelOf (fun v => v.testBit width) cur)
            (v.testBit width) pos) := by
  have bit : (levelOf (fun v => v.testBit width) cur).bits.getD pos false = v.testBit width := by
    rw [List.getD_eq_getElem?_getD, bit_levelOf here]
    rfl
  rw [buildLevels_succ, Climbs, bit]

theorem ascend_succ {width sym pos pos' : Nat} {cur : List Nat}
    (found : ascend (newLevels width (partitioned (fun v => v.testBit width) cur)) sym pos =
      .ok (some pos')) :
    ascend (newLevels (width + 1) cur) sym pos =
      (Level.over (levelOf (fun v => v.testBit width) cur)).back (sym.testBit width) pos' := by
  change (ascend (newLevels width (partitioned (fun v => v.testBit width) cur)) sym pos >>= _) = _
  rw [found]
  change (Level.over (levelOf (fun v => v.testBit width) cur)).back (sym.testBit
    (newLevels width (partitioned (fun v => v.testBit width) cur)).length) pos' = _
  rw [length_newLevels]

theorem ascend_succ_error {width sym pos : Nat} {cur : List Nat} {trap : Trap}
    (trapped : ascend (newLevels width (partitioned (fun v => v.testBit width) cur)) sym pos =
      .error trap) :
    ascend (newLevels (width + 1) cur) sym pos = .error trap := by
  change (ascend (newLevels width (partitioned (fun v => v.testBit width) cur)) sym pos >>= _) = _
  rw [trapped]
  rfl

/-- Coming back up from the bucket of a symbol ends at the element with that many of the symbol
before it, or at a crooked sample on the way. -/
theorem ascend_eq {width sym : Nat} {cur : List Nat} {l r l' r' pos v : Nat}
    (order : l ≤ pos) (upto : pos < r) (inside : r ≤ cur.length) (here : cur[pos]? = some v)
    (low : v % 2 ^ width = sym % 2 ^ width)
    (down : descend (newLevels width cur) sym l r = .ok (l', r')) :
    (Climbs (buildLevels width cur) pos →
      ascend (newLevels width cur) sym (l' + countLow width sym (slice cur l pos)) =
        .ok (some pos)) ∧
    (¬ Climbs (buildLevels width cur) pos →
      ascend (newLevels width cur) sym (l' + countLow width sym (slice cur l pos)) =
        .error .underflow) := by
  induction width generalizing cur l r pos with
  | zero =>
      obtain ⟨rfl, rfl⟩ : l = l' ∧ r = r' := by
        rw [newLevels, descend] at down
        cases down
        exact ⟨rfl, rfl⟩
      have size : (slice cur l pos).length = pos - l := by
        rw [slice, List.length_take, List.length_drop]
        omega
      rw [countLow_zero, size, Nat.add_sub_of_le order]
      exact ⟨fun _ => rfl, fun crooked => absurd trivial crooked⟩
  | succ width ih =>
      obtain ⟨own, low'⟩ := (Graphy.WaveletMatrix.sameLow_succ v sym width).mp low
      rw [descend_succ (order.trans upto.le) inside] at down
      have within : pos ≤ cur.length := upto.le.trans inside
      have lands := Graphy.WaveletMatrix.partitioned_next (p := fun v => v.testBit width) here
      have order' := Graphy.WaveletMatrix.next_mono (p := fun v => v.testBit width)
        (sym.testBit width) order within
      have upto' := Graphy.WaveletMatrix.next_mono (p := fun v => v.testBit width)
        (sym.testBit width) (show pos + 1 ≤ r from upto) inside
      rw [Graphy.WaveletMatrix.next_succ _ here, if_pos own] at upto'
      have inside' := Graphy.WaveletMatrix.next_le_length (p := fun v => v.testBit width)
        (sym.testBit width) inside
      rw [own] at lands
      obtain ⟨climbing, stuck⟩ := ih order' upto' inside' lands low' down
      rw [Graphy.WaveletMatrix.slice_partitioned _ order within,
        ← Graphy.WaveletMatrix.countLow_succ] at climbing stuck
      have climbs := climbs_succ width here
      rw [own] at climbs
      have ahead := back_straight (p := fun v => v.testBit width) here
      have trapped := back_crooked (p := fun v => v.testBit width) here
      simp only [own] at ahead trapped
      rw [climbs]
      constructor
      · rintro ⟨straight, rest⟩
        rw [ascend_succ (climbing rest), ahead straight]
      · intro crooked
        by_cases rest : Climbs (buildLevels width (partitioned (fun v => v.testBit width) cur))
            (Graphy.WaveletMatrix.WaveletLevel.next (levelOf (fun v => v.testBit width) cur)
              (sym.testBit width) pos)
        · rw [ascend_succ (climbing rest), trapped fun straight => crooked ⟨straight, rest⟩]
        · exact ascend_succ_error (stuck rest)

/-! ## The packed builder -/

theorem values_withWidth {vs : List Nat} {width : Nat} (most : width ≤ 64)
    (fits : ∀ v ∈ vs, v < 2 ^ width) : (PackedInts.withWidth vs width).values = vs :=
  (PackedInts.packs_withWidth most fits).values
    (by rwa [PackedInts.width_withWidth]) (by rwa [PackedInts.width_withWidth])

theorem packedLevels_eq {values : PackedInts} (most : values.width ≤ 64) (shift : Nat)
    (parts : Option (PackedInts × PackedInts)) {cur : List Nat}
    (reads : streamed values parts = cur) (fits : ∀ v ∈ cur, v < 2 ^ values.width) :
    packedLevels values shift parts = newLevels shift cur := by
  induction shift generalizing parts cur with
  | zero => rfl
  | succ shift ih =>
      have fitsZs : ∀ v ∈ cur.filter (fun v => !v.testBit shift), v < 2 ^ values.width :=
        fun v hv => fits v (List.mem_of_mem_filter hv)
      have fitsOs : ∀ v ∈ cur.filter (fun v => v.testBit shift), v < 2 ^ values.width :=
        fun v hv => fits v (List.mem_of_mem_filter hv)
      rw [packedLevels, newLevels, reads]
      congr 1
      by_cases last : shift = 0
      · rw [if_pos last, last]
        rfl
      · rw [if_neg last]
        refine ih _ ?_ ?_
        · rw [streamed, values_withWidth most fitsZs, values_withWidth most fitsOs]
        · intro v hv
          rcases List.mem_append.mp hv with left | right
          · exact fitsZs v left
          · exact fitsOs v right

theorem fromPacked_eq {values : List Nat} {width : Nat} (most : width ≤ 64)
    (fits : ∀ v ∈ values, v < 2 ^ width) :
    WaveletMatrix.fromPacked (PackedInts.withWidth values width) =
      WaveletMatrix.new values width := by
  have same := PackedInts.width_withWidth values width
  have most' : (PackedInts.withWidth values width).width ≤ 64 := by rwa [same]
  have levels := packedLevels_eq most' (PackedInts.withWidth values width).width none
    (values_withWidth most fits) (by rwa [same])
  rw [WaveletMatrix.fromPacked, WaveletMatrix.new, levels, same,
    (PackedInts.packs_withWidth most fits).len]

/-! ## Any sequence -/

section Sequence

variable {values : List Nat} {width sym : Nat}

theorem access_eq {i v : Nat} (fits : ∀ v ∈ values, v < 2 ^ width) (here : values[i]? = some v) :
    (WaveletMatrix.new values width).access i = .ok v := by
  have inside : i < (WaveletMatrix.new values width).len := (List.getElem?_eq_some_iff.mp here).1
  rw [WaveletMatrix.access, if_pos inside]
  refine (accessFrom_eq here ⟨0, rfl⟩).trans ?_
  rw [Nat.mul_zero, Nat.zero_add, Nat.mod_eq_of_lt (fits v (List.mem_of_getElem? here))]

theorem rank_eq {i : Nat} (inside : i ≤ values.length) :
    (WaveletMatrix.new values width).rank sym i = .ok (countLow width sym (values.take i)) := by
  obtain ⟨l, r, down, order, size⟩ := descend_eq width sym (Nat.zero_le i) inside
  have within : i ≤ (WaveletMatrix.new values width).len := inside
  rw [WaveletMatrix.rank, if_pos within]
  change (descend (newLevels width values) sym 0 i >>= _) = _
  rw [down, ok_bind]
  change minus r l = _
  rw [minus, if_pos order, size]
  rfl

theorem select_past {k : Nat} (few : countLow width sym values ≤ k) :
    (WaveletMatrix.new values width).select sym k = .ok none := by
  obtain ⟨l, r, down, order, size⟩ :=
    descend_eq width sym (Nat.zero_le values.length) le_rfl
  rw [slice_zero values le_rfl] at size
  change (descend (newLevels width values) sym 0 values.length >>= _) = _
  rw [down, ok_bind]
  change (minus r l >>= _) = _
  rw [minus, if_pos order, ok_bind, size]
  exact if_pos few

theorem select_occurrence {pos v : Nat} (here : values[pos]? = some v)
    (low : v % 2 ^ width = sym % 2 ^ width) :
    (Climbs (buildLevels width values) pos →
      (WaveletMatrix.new values width).select sym (countLow width sym (values.take pos)) =
        .ok (some pos)) ∧
    (¬ Climbs (buildLevels width values) pos →
      (WaveletMatrix.new values width).select sym (countLow width sym (values.take pos)) =
        .error .underflow) := by
  have inside := (List.getElem?_eq_some_iff.mp here).1
  obtain ⟨l, r, down, order, size⟩ :=
    descend_eq width sym (Nat.zero_le values.length) le_rfl
  rw [slice_zero values le_rfl] at size
  have up := ascend_eq (Nat.zero_le pos) inside le_rfl here low down
  have first : slice values 0 pos = values.take pos := by
    rw [slice, Nat.sub_zero, List.drop_zero]
  rw [first] at up
  have next := Graphy.WaveletMatrix.countLow_take_lt here low
  have selected : (WaveletMatrix.new values width).select sym
      (countLow width sym (values.take pos)) =
      ascend (newLevels width values) sym (l + countLow width sym (values.take pos)) := by
    change (descend (newLevels width values) sym 0 values.length >>= _) = _
    rw [down, ok_bind]
    change (minus r l >>= _) = _
    rw [minus, if_pos order, ok_bind, size]
    exact if_neg (Nat.not_le_of_lt next)
  rw [selected]
  exact up

/-- Where the symbol is not taken for another value, agreeing on the low bits is being equal. -/
theorem countLow_eq_count (fits : ∀ v ∈ values, v < 2 ^ width)
    (apart : sym < 2 ^ width ∨ sym % 2 ^ width ∉ values) (i : Nat) :
    countLow width sym (values.take i) = (values.take i).count sym := by
  unfold countLow
  rw [List.count]
  refine List.countP_congr fun v hv => ?_
  have member := List.mem_of_mem_take hv
  have small := fits v member
  rw [Nat.mod_eq_of_lt small, decide_eq_true_eq, beq_iff_eq]
  constructor
  · rintro rfl
    rcases apart with smaller | absent
    · exact Nat.mod_eq_of_lt smaller
    · exact absurd member absent
  · rintro rfl
    exact (Nat.mod_eq_of_lt small).symm

theorem rank1_marks (values : List Nat) (sym i : Nat) :
    Graphy.BitVector.rank1 (values.map (· == sym)) i = (values.take i).count sym := by
  rw [Graphy.BitVector.rank1, ← List.map_take, List.count, List.count, List.countP_map]
  congr 1
  funext v
  cases same : v == sym with
  | true => simp [same]
  | false => simp [same]

theorem represents_of_apart (most : width ≤ 64) (fits : ∀ v ∈ values, v < 2 ^ width)
    (apart : sym < 2 ^ width ∨ sym % 2 ^ width ∉ values) (climb : Selectable values width sym) :
    Represents values width sym where
  access _ _ here := access_eq fits here
  rank i inside := by rw [rank_eq inside, countLow_eq_count fits apart]
  select k := by
    have all := countLow_eq_count fits apart values.length
    rw [List.take_length] at all
    cases found : Graphy.BitVector.select1 (values.map (· == sym)) k with
    | some pos =>
        obtain ⟨set, rank⟩ := Graphy.BitVector.select1_eq_some_iff.mp found
        rw [rank1_marks] at rank
        have here : values[pos]? = some sym := by
          rw [List.getElem?_map] at set
          obtain ⟨v, here, same⟩ := Option.map_eq_some_iff.mp set
          rwa [beq_iff_eq.mp same] at here
        have up := (select_occurrence here (Eq.refl (sym % 2 ^ width))).1 (climb pos here)
        rwa [countLow_eq_count fits apart, rank] at up
    | none =>
        have few := Graphy.BitVector.select1_eq_none_iff.mp found
        rw [← Graphy.BitVector.rank1_length, rank1_marks, List.length_map, List.take_length] at few
        exact select_past (by rwa [all])
  same := fromPacked_eq most fits

theorem Represents.apart (fits : ∀ v ∈ values, v < 2 ^ width)
    (represents : Represents values width sym) :
    sym < 2 ^ width ∨ sym % 2 ^ width ∉ values := by
  by_contra taken
  push Not at taken
  obtain ⟨large, member⟩ := taken
  have rank := represents.rank values.length le_rfl
  have absent : values.count sym = 0 := by
    rw [List.count_eq_zero]
    exact fun held => absurd (fits sym held) (Nat.not_lt_of_le large)
  rw [rank_eq le_rfl, List.take_length, absent, Except.ok.injEq, countLow, List.countP_eq_zero] at rank
  exact rank _ member (by rw [Nat.mod_mod, decide_eq_true rfl])

theorem Represents.selectable (represents : Represents values width sym) :
    Selectable values width sym := by
  intro pos here
  by_contra stuck
  have trapped := (select_occurrence here (Eq.refl (sym % 2 ^ width))).2 stuck
  rw [represents.select] at trapped
  cases trapped

/-- The matrix answers for a symbol as the sequence does exactly when the symbol is not taken for
another value and its occurrences climb from straight samples. -/
theorem represents_iff_apart_and_selectable (most : width ≤ 64)
    (fits : ∀ v ∈ values, v < 2 ^ width) :
    Represents values width sym ↔
      (sym < 2 ^ width ∨ sym % 2 ^ width ∉ values) ∧ Selectable values width sym :=
  ⟨fun represents => ⟨represents.apart fits, represents.selectable⟩,
    fun both => represents_of_apart most fits both.1 both.2⟩

end Sequence

theorem represents_iff_small : Represents [1, 0, 3] 2 1 ↔
    (1 < 2 ^ 2 ∨ 1 % 2 ^ 2 ∉ [1, 0, 3]) ∧ Selectable [1, 0, 3] 2 1 :=
  represents_iff_apart_and_selectable (by decide) (by decide)

/-- Above the width a symbol is counted as the value it is taken for. -/
theorem not_represents_above_width :
    (WaveletMatrix.new [1] 1).rank 3 1 = .ok 1 ∧ ¬ Represents [1] 1 3 := by
  refine ⟨rank_eq (show 1 ≤ [1].length by decide), fun represents => ?_⟩
  rcases represents.apart (by decide) with small | absent
  · exact absurd small (by decide)
  · exact absurd absent (by decide)

/-! ## Short sequences -/

theorem climbs_of_short {width pos v : Nat} {cur : List Nat} (short : cur.length ≤ 2 ^ 44)
    (here : cur[pos]? = some v) : Climbs (buildLevels width cur) pos := by
  induction width generalizing cur pos with
  | zero => trivial
  | succ width ih =>
      have lands := Graphy.WaveletMatrix.partitioned_next (p := fun v => v.testBit width) here
      refine (climbs_succ width here).mpr ⟨?_, ih (by rwa [Graphy.WaveletMatrix.length_partitioned]) lands⟩
      have size : (levelOf (fun v => v.testBit width) cur).bits.length ≤ 2 ^ 44 := by
        rwa [levelOf, List.length_map]
      unfold StraightBack
      split
      · exact straight_of_short size _
      · exact straight_of_short (by rwa [List.length_map]) _

/-- Over at most `2 ^ 44` values that fit the width, every symbol that fits is answered for. -/
theorem represents_of_short {values : List Nat} {width sym : Nat} (most : width ≤ 64)
    (fits : ∀ v ∈ values, v < 2 ^ width) (short : values.length ≤ 2 ^ 44)
    (small : sym < 2 ^ width) : Represents values width sym :=
  represents_of_apart most fits (Or.inl small) fun _ here => climbs_of_short short here

end Graphy.Succinct
