import Graphy.Succinct.Proofs.RankSelect
import Graphy.Succinct.Reference
import Mathlib.Data.List.Count

/-!
# The bit vector against its bits

Counts over the stream of the words are counts over the bits.  Everything but the
samples agrees for any bits, and the samples agree as long as the superblocks of
consecutive ones do not run backwards in 32 bits.
-/

namespace Graphy.Succinct

open PackedBits

section Reference

variable {bits : List Bool} {b : Nat → Bool}

/-- The bits are the start of the stream. -/
def Starts (bits : List Bool) (b : Nat → Bool) : Prop :=
  ∀ i, i < bits.length → bits[i]? = some (b i)

theorem Starts.rank1 (starts : Starts bits b) {i : Nat} (inside : i ≤ bits.length) :
    Graphy.BitVector.rank1 bits i = countBefore b i := by
  induction i with
  | zero => exact Graphy.BitVector.rank1_zero bits
  | succ i ih =>
      rw [Graphy.BitVector.rank1_succ_of_get (starts i (by omega)), ih (by omega), countBefore]

theorem Starts.select1 (starts : Starts bits b) {k p : Nat} :
    Graphy.BitVector.select1 bits k = some p ↔ Sits b k p ∧ p < bits.length := by
  rw [Graphy.BitVector.select1_eq_some_iff]
  constructor
  · rintro ⟨bit, rank⟩
    have inside := (List.getElem?_eq_some_iff.mp bit).1
    rw [starts p inside, Option.some_inj] at bit
    rw [starts.rank1 inside.le] at rank
    exact ⟨⟨bit, rank⟩, inside⟩
  · rintro ⟨⟨bit, rank⟩, inside⟩
    rw [starts p inside, starts.rank1 inside.le]
    exact ⟨congrArg some bit, rank⟩

theorem Starts.select1_none (starts : Starts bits b) {k : Nat}
    (absent : Graphy.BitVector.select1 bits k = none) : countBefore b bits.length ≤ k := by
  have few := Graphy.BitVector.select1_eq_none_iff.mp absent
  rwa [← Graphy.BitVector.rank1_length, starts.rank1 le_rfl] at few

theorem Starts.not (starts : Starts bits b) : Starts (bits.map not) fun j => !b j := by
  intro i inside
  rw [List.length_map] at inside
  rw [List.getElem?_map, starts i inside]
  rfl

end Reference

theorem count_false_take (bits : List Bool) (i : Nat) :
    (bits.take i).count false = Graphy.BitVector.rank1 (bits.map not) i := by
  rw [Graphy.BitVector.rank1, ← List.map_take]
  exact (List.count_map_of_injective _ not (fun a b => Bool.not_inj) false).symm

namespace Holding

variable {v : BitVector} {bits : List Bool} (h : Holding v bits)
include h

theorem starts : Starts bits (bitAt v.words) := by
  intro i inside
  rw [h.holds.bit, List.getD_eq_getElem?_getD, List.getElem?_eq_getElem inside]
  rfl

omit h in
theorem ordered_iff {b : Nat → Bool} {samples : List Nat} (starts : Starts bits b)
    (sampled : Samples b bits.length samples) (j : Nat) :
    Ordered samples j ↔ StraightAt bits j := by
  constructor
  · intro ordered p q first second
    obtain ⟨sits, inside⟩ := starts.select1.mp first
    obtain ⟨sits', inside'⟩ := starts.select1.mp second
    exact ordered _ _ (sampled.hit j p sits inside) (sampled.hit (j + 1) q sits' inside')
  · intro straight x y first second
    have more (i z : Nat) (hit : samples[i]? = some z) : 4096 * i < countBefore b bits.length := by
      by_contra past
      rw [sampled.none i (Nat.le_of_not_lt past)] at hit
      cases hit
    obtain ⟨p, inside, sits⟩ := exists_sits (more j x first)
    obtain ⟨q, inside', sits'⟩ := exists_sits (more (j + 1) y second)
    rw [sampled.hit j p sits inside, Option.some_inj] at first
    rw [sampled.hit (j + 1) q sits' inside', Option.some_inj] at second
    rw [← first, ← second]
    exact straight p q (starts.select1.mpr ⟨sits, inside⟩) (starts.select1.mpr ⟨sits', inside'⟩)

omit h in
/-- Samples that run backwards leave no range to search. -/
theorem selectSuperblock_crooked {b : Nat → Bool} {samples : List Nat} (starts : Starts bits b)
    (sampled : Samples b bits.length samples) {k : Nat}
    (crooked : ¬ StraightAt bits (k / selectSample)) (cumulative : Nat → Except Trap Nat) :
    v.selectSuperblock samples k cumulative = .error .underflow := by
  rw [← ordered_iff starts sampled] at crooked
  unfold Ordered at crooked
  push Not at crooked
  obtain ⟨x, y, first, second, crossed⟩ := crooked
  exact selectSuperblock_underflow first second crossed

theorem samples1_bits : Samples (bitAt v.words) bits.length v.select1Samples := by
  rw [← h.len]
  exact h.samples1

theorem samples0_bits :
    Samples (fun j => !bitAt v.words j) (bits.map not).length v.select0Samples := by
  rw [List.length_map, ← h.len]
  exact h.samples0

theorem select1_straight {k : Nat} (straight : StraightAt bits (k / selectSample)) :
    v.select1 k = .ok (Graphy.BitVector.select1 bits k) := by
  cases found : Graphy.BitVector.select1 bits k with
  | some p =>
      obtain ⟨sits, inside⟩ := h.starts.select1.mp found
      exact h.select1_eq sits (by rwa [h.len]) ((ordered_iff h.starts h.samples1_bits _).mpr straight)
  | none =>
      refine h.select1_none ?_
      rw [h.len]
      exact h.starts.select1_none found

theorem select0_straight {k : Nat} (straight : StraightAt (bits.map not) (k / selectSample)) :
    v.select0 k = .ok (Graphy.BitVector.select0 bits k) := by
  cases found : Graphy.BitVector.select0 bits k with
  | some p =>
      obtain ⟨sits, inside⟩ := h.starts.not.select1.mp found
      rw [List.length_map, ← h.len] at inside
      exact h.select0_eq sits inside ((ordered_iff h.starts.not h.samples0_bits _).mpr straight)
  | none =>
      refine h.select0_none ?_
      have few := h.starts.not.select1_none found
      rwa [List.length_map, ← h.len] at few

theorem select1_crooked {k p : Nat} (found : Graphy.BitVector.select1 bits k = some p)
    (crooked : ¬ StraightAt bits (k / selectSample)) : v.select1 k = .error .underflow := by
  obtain ⟨sits, inside⟩ := h.starts.select1.mp found
  have more := sits.lt inside
  rw [BitVector.select1, if_neg (by rw [h.ones_eq, h.len]; omega),
    selectSuperblock_crooked h.starts h.samples1_bits crooked]
  rfl

theorem select0_crooked {k p : Nat} (found : Graphy.BitVector.select0 bits k = some p)
    (crooked : ¬ StraightAt (bits.map not) (k / selectSample)) :
    v.select0 k = .error .underflow := by
  obtain ⟨sits, inside⟩ := h.starts.not.select1.mp found
  have more := sits.lt inside
  rw [List.length_map, ← h.len] at more
  rw [BitVector.select0, if_neg (by rw [h.countZeros_eq]; omega),
    selectSuperblock_crooked h.starts.not h.samples0_bits crooked]
  rfl

theorem rank1_reference {i : Nat} (inside : i ≤ bits.length) :
    v.rank1 i = .ok ((bits.take i).count true) := by
  rw [h.rank1_eq (by rwa [h.len]), ← h.starts.rank1 inside]
  rfl

theorem rank0_reference {i : Nat} (inside : i ≤ bits.length) :
    v.rank0 i = .ok ((bits.take i).count false) := by
  rw [h.rank0_eq (by rwa [h.len]), count_false_take, h.starts.not.rank1 (by rwa [List.length_map])]

theorem get_reference {i : Nat} {b : Bool} (bit : bits[i]? = some b) : v.get i = .ok b := by
  have inside := (List.getElem?_eq_some_iff.mp bit).1
  rw [h.starts i inside, Option.some_inj] at bit
  rw [h.get_eq (by rwa [h.len]), bit]

theorem nextOne_reference (i : Nat) : v.nextOne i = .ok (Graphy.BitVector.nextOne bits i) := by
  rw [Graphy.BitVector.nextOne_eq_select1]
  by_cases inside : i ≤ bits.length
  · rw [h.starts.rank1 inside]
    cases found : Graphy.BitVector.select1 bits (countBefore (bitAt v.words) i) with
    | some p =>
        obtain ⟨sits, within⟩ := h.starts.select1.mp found
        exact h.nextOne_found sits (by rwa [h.len])
    | none =>
        refine h.nextOne_none ?_
        rw [h.len]
        exact h.starts.select1_none found
  · have all : Graphy.BitVector.rank1 bits i = bits.count true := by
      rw [Graphy.BitVector.rank1, List.take_of_length_le (by omega)]
    rw [all, Graphy.BitVector.select1_eq_none_iff.mpr le_rfl]
    refine h.nextOne_none (countBefore_mono ?_)
    rw [h.len]
    omega

theorem get_eq_iff {p : Nat} {b : Bool} : v.get p = .ok b ↔ p < v.len ∧ bitAt v.words p = b := by
  by_cases inside : p < v.len
  · rw [h.get_eq inside, Except.ok.injEq]
    exact ⟨fun same => ⟨inside, same⟩, fun both => both.2⟩
  · rw [BitVector.get, if_neg inside]
    constructor
    · intro same
      cases same
    · intro both
      exact absurd both.1 inside

theorem inverse1 (straight : Straight bits) (k p : Nat) :
    v.select1 k = .ok (some p) ↔ v.get p = .ok true ∧ v.rank1 p = .ok k := by
  rw [h.select1_straight (straight _), Except.ok.injEq, h.starts.select1, h.get_eq_iff, ← h.len]
  constructor
  · rintro ⟨sits, inside⟩
    exact ⟨⟨inside, sits.set⟩, by rw [h.rank1_eq inside.le, sits.count]⟩
  · rintro ⟨⟨inside, set⟩, rank⟩
    rw [h.rank1_eq inside.le, Except.ok.injEq] at rank
    exact ⟨⟨set, rank⟩, inside⟩

theorem inverse0 (straight : Straight (bits.map not)) (k p : Nat) :
    v.select0 k = .ok (some p) ↔ v.get p = .ok false ∧ v.rank0 p = .ok k := by
  rw [h.select0_straight (straight _), Except.ok.injEq, Graphy.BitVector.select0,
    h.starts.not.select1, h.get_eq_iff, List.length_map, ← h.len]
  constructor
  · rintro ⟨sits, inside⟩
    refine ⟨⟨inside, ?_⟩, by rw [h.rank0_eq inside.le, sits.count]⟩
    have set := sits.set
    rwa [Bool.not_eq_true'] at set
  · rintro ⟨⟨inside, clear⟩, rank⟩
    rw [h.rank0_eq inside.le, Except.ok.injEq] at rank
    refine ⟨⟨?_, rank⟩, inside⟩
    rw [clear]
    rfl

end Holding

/-! ## Any bits -/

theorem agrees_of_straight {bits : List Bool} (straight : Straight bits)
    (straight' : Straight (bits.map not)) : Agrees bits where
  rank1 _ inside := (holding_ofBits bits).rank1_reference inside
  rank0 _ inside := (holding_ofBits bits).rank0_reference inside
  select1 _ := (holding_ofBits bits).select1_straight (straight _)
  select0 _ := (holding_ofBits bits).select0_straight (straight' _)
  nextOne := (holding_ofBits bits).nextOne_reference
  inverse1 := (holding_ofBits bits).inverse1 straight
  inverse0 := (holding_ofBits bits).inverse0 straight'

/-- A sample that runs backwards belongs to a one. -/
theorem exists_of_crooked {bits : List Bool} {j : Nat} (crooked : ¬ StraightAt bits j) :
    ∃ p, Graphy.BitVector.select1 bits (selectSample * j) = some p ∧
      ¬ StraightAt bits (selectSample * j / selectSample) := by
  have same : selectSample * j / selectSample = j := Nat.mul_div_cancel_left j (by decide)
  rw [same]
  refine Classical.byContradiction fun absent => crooked fun p _ first _ => ?_
  exact absurd ⟨p, first, crooked⟩ absent

theorem Agrees.straight {bits : List Bool} (agrees : Agrees bits) : Straight bits := by
  intro j
  by_contra crooked
  obtain ⟨p, found, crooked⟩ := exists_of_crooked crooked
  have trapped := (holding_ofBits bits).select1_crooked found crooked
  rw [agrees.select1] at trapped
  cases trapped

theorem Agrees.straight_not {bits : List Bool} (agrees : Agrees bits) :
    Straight (bits.map not) := by
  intro j
  by_contra crooked
  obtain ⟨p, found, crooked⟩ := exists_of_crooked crooked
  have trapped := (holding_ofBits bits).select0_crooked found crooked
  rw [agrees.select0] at trapped
  cases trapped

/-- The operations agree with the bits exactly when the superblocks of every 4096th one, and of
every 4096th zero, do not run backwards in 32 bits. -/
theorem agrees_iff_straight (bits : List Bool) :
    Agrees bits ↔ Straight bits ∧ Straight (bits.map not) :=
  ⟨fun agrees => ⟨agrees.straight, agrees.straight_not⟩,
    fun both => agrees_of_straight both.1 both.2⟩

/-- Up to `2 ^ 44` bits every superblock fits in 32 bits. -/
theorem straight_of_short {bits : List Bool} (short : bits.length ≤ 2 ^ 44) : Straight bits := by
  intro j p q first second
  have inside := Graphy.BitVector.select1_lt_length first
  have inside' := Graphy.BitVector.select1_lt_length second
  obtain ⟨-, rank⟩ := Graphy.BitVector.select1_eq_some_iff.mp first
  obtain ⟨-, rank'⟩ := Graphy.BitVector.select1_eq_some_iff.mp second
  rw [selectSample] at rank rank'
  have order : p ≤ q := by
    by_contra behind
    have := @Graphy.BitVector.rank1_mono bits q p (Nat.le_of_not_le behind)
    omega
  rw [superBits_eq]
  omega

theorem agrees_of_short {bits : List Bool} (short : bits.length ≤ 2 ^ 44) : Agrees bits :=
  agrees_of_straight (straight_of_short short)
    (straight_of_short (by rwa [List.length_map]))

/-! ## A superblock past 32 bits -/

theorem select1_padded (n : Nat) (bits : List Bool) (k : Nat) :
    Graphy.BitVector.select1 (List.replicate n false ++ bits) k =
      (Graphy.BitVector.select1 bits k).map (· + n) := by
  induction n with
  | zero => simp
  | succ n ih =>
      rw [List.replicate_succ, List.cons_append, Graphy.BitVector.select1, ih, Option.map_map]
      rfl

theorem select1_replicate {n k : Nat} (less : k < n) :
    Graphy.BitVector.select1 (List.replicate n true) k = some k := by
  induction n generalizing k with
  | zero => omega
  | succ n ih =>
      rw [List.replicate_succ]
      cases k with
      | zero => rfl
      | succ k =>
          rw [Graphy.BitVector.select1, ih (by omega)]
          rfl

/-- Ones that run on past the last superblock of 32 bits cross their samples. -/
theorem not_straight_across {n m : Nat} (zeros : n = 4096 * (2 ^ 32 - 1)) (ones : m = 4097) :
    ¬ Straight (List.replicate n false ++ List.replicate m true) := by
  intro straight
  have first : Graphy.BitVector.select1 (List.replicate n false ++ List.replicate m true)
      (selectSample * 0) = some (0 + n) := by
    rw [select1_padded, Nat.mul_zero, select1_replicate (by omega)]
    rfl
  have second : Graphy.BitVector.select1 (List.replicate n false ++ List.replicate m true)
      (selectSample * (0 + 1)) = some (4096 + n) := by
    rw [select1_padded, Nat.zero_add, Nat.mul_one, selectSample, select1_replicate (by omega)]
    rfl
  have order := straight 0 _ _ first second
  rw [superBits_eq] at order
  omega

/-- Zeros up to the last superblock of 32 bits, then ones past it. -/
theorem not_agrees_across_superblocks :
    ¬ Agrees (List.replicate (4096 * (2 ^ 32 - 1)) false ++ List.replicate 4097 true) :=
  fun agrees => not_straight_across rfl rfl agrees.straight

end Graphy.Succinct
