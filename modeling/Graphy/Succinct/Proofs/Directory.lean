import Graphy.Succinct.Proofs.BitStream
import Graphy.Succinct.Proofs.PackedInts

/-!
# The rank directory and the select samples

One pass over the blocks leaves the counts at every superblock and, within its
superblock, at every block.  A sample is the superblock of its target, cut to 32 bits.
-/

namespace Graphy.Succinct

open PackedBits

@[simp] theorem superBits_eq : superBits = 4096 := rfl

@[simp] theorem blockBits_eq : blockBits = 512 := rfl

@[simp] theorem blocksPerSuper_eq : blocksPerSuper = 8 := rfl

@[simp] theorem wordsPerBlock_eq : wordsPerBlock = 8 := rfl

/-! ## The directory -/

/-- Ones before a block within its superblock. -/
def onesInSuper (b : Nat → Bool) (blk : Nat) : Nat :=
  countBefore b (512 * blk) - countBefore b (4096 * (blk / 8))

theorem onesInSuper_lt (b : Nat → Bool) (blk : Nat) : onesInSuper b blk < 2 ^ 16 := by
  have split : 512 * blk = 4096 * (blk / 8) + 512 * (blk % 8) := by omega
  have most := countBefore_add_le (b := b) (4096 * (blk / 8)) (512 * (blk % 8))
  unfold onesInSuper
  rw [split]
  omega

theorem onesInSuper_add (b : Nat → Bool) (blk : Nat) :
    countBefore b (4096 * (blk / 8)) + onesInSuper b blk = countBefore b (512 * blk) := by
  have mono := countBefore_mono (b := b) (show 4096 * (blk / 8) ≤ 512 * blk by omega)
  unfold onesInSuper
  omega

/-- The directory over the first `n` blocks. -/
structure Counts (words : List Nat) (n : Nat) (d : Directory) : Prop where
  superRanks : d.superRanks = (List.range ((n + 7) / 8)).map fun sb =>
    countBefore (bitAt words) (4096 * sb)
  blockRanks : d.blockRanks = (List.range n).map (onesInSuper (bitAt words))
  total : d.total = countBefore (bitAt words) (512 * n)
  inSuper : countBefore (bitAt words) (4096 * ((n - 1) / 8)) + d.inSuper = d.total

theorem blockOnes_eq (words : List Nat) (blk : Nat) :
    countBefore (bitAt words) (512 * blk) + blockOnes words blk =
      countBefore (bitAt words) (512 * (blk + 1)) := by
  have stretch := countBefore_words words (blk * 8) 8
  rw [show 64 * (blk * 8 + 8) = 512 * (blk + 1) by omega,
    show 64 * (blk * 8) = 512 * blk by omega] at stretch
  exact stretch.symm

theorem Counts.push {words : List Nat} {n : Nat} {d : Directory} (counts : Counts words n d) :
    Counts words (n + 1) (d.push words n) := by
  have next := blockOnes_eq words n
  have inside := onesInSuper_lt (bitAt words) n
  have whole := onesInSuper_add (bitAt words) n
  have total := counts.total
  have before := counts.inSuper
  -- The count within the superblock starts again at its first block.
  have restart : (if n % 8 = 0 then 0 else d.inSuper) = onesInSuper (bitAt words) n := by
    by_cases first : n % 8 = 0
    · rw [if_pos first]
      rw [show 4096 * (n / 8) = 512 * n by omega] at whole
      omega
    · rw [if_neg first]
      rw [show (n - 1) / 8 = n / 8 by omega] at before
      omega
  refine ⟨?_, ?_, ?_, ?_⟩
  · change (if n % 8 = 0 then d.superRanks ++ [d.total] else d.superRanks) = _
    by_cases first : n % 8 = 0
    · rw [if_pos first, counts.superRanks, total, show (n + 1 + 7) / 8 = (n + 7) / 8 + 1 by omega,
        List.range_succ, List.map_append, List.map_singleton,
        show 4096 * ((n + 7) / 8) = 512 * n by omega]
    · rw [if_neg first, counts.superRanks, show (n + 1 + 7) / 8 = (n + 7) / 8 by omega]
  · change d.blockRanks ++ [(if n % 8 = 0 then 0 else d.inSuper) % 2 ^ 16] = _
    rw [restart, Nat.mod_eq_of_lt inside, counts.blockRanks, List.range_succ, List.map_append,
      List.map_singleton]
  · change d.total + blockOnes words n = _
    omega
  · change _ + ((if n % 8 = 0 then 0 else d.inSuper) + blockOnes words n) =
      d.total + blockOnes words n
    rw [restart, Nat.add_sub_cancel]
    omega

theorem counts_directory (words : List Nat) (len : Nat) :
    Counts words (len / 512 + 1) (directory words len) := by
  unfold directory
  change Counts words (len / 512 + 1) ((List.range (len / 512 + 1)).foldl _ _)
  induction len / 512 + 1 with
  | zero => exact ⟨rfl, rfl, rfl, rfl⟩
  | succ n ih =>
      rw [List.range_succ, List.foldl_append]
      exact ih.push

/-! ## The bit vector over some bits -/

/-- The bit vector over the words holds the bits. -/
structure Holding (v : BitVector) (bits : List Bool) : Prop where
  built : v = .fromWords v.words v.len
  len : v.len = bits.length
  holds : Holds v.words bits

theorem holding_ofBits (bits : List Bool) : Holding (.ofBits bits) bits := by
  obtain ⟨holds, length⟩ := BitWords.holds_fromBits bits
  exact ⟨rfl, length, holds⟩

theorem wordRange_eq (v : BitVector) {start stop : Nat} (order : start ≤ stop) (inside : stop ≤ v.words.length) :
    v.wordRange start stop =
      .ok (countBefore (bitAt v.words) (64 * stop) - countBefore (bitAt v.words) (64 * start)) := by
  have stretch := countBefore_words v.words start (stop - start)
  rw [Nat.add_sub_of_le order] at stretch
  rw [BitVector.wordRange, if_pos ⟨order, inside⟩, stretch, Nat.add_sub_cancel_left]

namespace Holding

variable {v : BitVector} {bits : List Bool} (h : Holding v bits)
include h

theorem length_words : v.words.length = (v.len + 63) / 64 := by
  rw [h.len, h.holds.length, wordCount]

theorem superRanks_eq : v.superRanks = (List.range (v.len / 4096 + 1)).map fun sb =>
    countBefore (bitAt v.words) (4096 * sb) := by
  rw [h.built]
  change (directory v.words v.len).superRanks = _
  rw [(counts_directory v.words v.len).superRanks]
  congr 2
  change (v.len / 512 + 1 + 7) / 8 = v.len / 4096 + 1
  omega

theorem length_superRanks : v.superRanks.length = v.len / 4096 + 1 := by
  rw [h.superRanks_eq, List.length_map, List.length_range]

theorem entry_superRanks {sb : Nat} (inside : sb ≤ v.len / 4096) :
    entry v.superRanks sb = .ok (countBefore (bitAt v.words) (4096 * sb)) := by
  rw [entry, h.superRanks_eq, List.getElem?_map, List.getElem?_range (by omega)]
  rfl

theorem blockRanks_eq :
    v.blockRanks = (List.range (v.len / 512 + 1)).map (onesInSuper (bitAt v.words)) := by
  rw [h.built]
  exact (counts_directory v.words v.len).blockRanks

theorem length_blockRanks : v.blockRanks.length = v.len / 512 + 1 := by
  rw [h.blockRanks_eq, List.length_map, List.length_range]

theorem entry_blockRanks {blk : Nat} (inside : blk ≤ v.len / 512) :
    entry v.blockRanks blk = .ok (onesInSuper (bitAt v.words) blk) := by
  rw [entry, h.blockRanks_eq, List.getElem?_map, List.getElem?_range (by omega)]
  rfl

/-- Past the length the words are clear. -/
theorem bit_beyond {j : Nat} (past : v.len ≤ j) : bitAt v.words j = false :=
  h.holds.bit_beyond (by rw [← h.len]; exact past)

theorem ones_eq : v.ones = countBefore (bitAt v.words) v.len := by
  rw [h.built]
  change (directory v.words v.len).total = countBefore (bitAt v.words) v.len
  rw [(counts_directory v.words v.len).total]
  exact countBefore_stop (by omega) fun p hp => h.bit_beyond hp

theorem countZeros_eq : v.countZeros = countBefore (fun j => !bitAt v.words j) v.len := by
  rw [countBefore_not, BitVector.countZeros, h.ones_eq]

/-! ## Rank -/

theorem partialWord_eq {i : Nat} (inside : i ≤ v.len) : v.partialWord i =
    .ok (countBefore (bitAt v.words) i - countBefore (bitAt v.words) (64 * (i / 64))) := by
  have enough := h.length_words
  by_cases whole : i % 64 = 0
  · rw [BitVector.partialWord, if_neg (not_not.mpr whole), show 64 * (i / 64) = i by omega,
      Nat.sub_self]
  · obtain ⟨w, here⟩ : ∃ w, v.words[i / 64]? = some w :=
      ⟨_, List.getElem?_eq_getElem (by omega)⟩
    have read : entry v.words (i / 64) = .ok w := by rw [entry, here]
    have within := (shows_bitAt v.words).countBefore here (show i % 64 ≤ 64 by omega)
    rw [show 64 * (i / 64) + i % 64 = i by omega] at within
    rw [BitVector.partialWord, if_pos whole, read, within, Nat.add_sub_cancel_left]
    change Except.ok (countOnes (w &&& (1 <<< (i % 64) - 1))) = _
    rw [Nat.one_shiftLeft, Nat.and_two_pow_sub_one_eq_mod, countOnes_mod w (by omega)]
    rfl

theorem rank1_eq {i : Nat} (inside : i ≤ v.len) :
    v.rank1 i = .ok (countBefore (bitAt v.words) i) := by
  have enough := h.length_words
  have supers := h.entry_superRanks (show i / 4096 ≤ v.len / 4096 by omega)
  have blocks := h.entry_blockRanks (show i / 512 ≤ v.len / 512 by omega)
  have range := wordRange_eq v (show i / 512 * 8 ≤ i / 64 by omega) (by omega)
  have whole := onesInSuper_add (bitAt v.words) (i / 512)
  have upper := countBefore_mono (b := bitAt v.words)
    (show 64 * (i / 512 * 8) ≤ 64 * (i / 64) by omega)
  have lower := countBefore_mono (b := bitAt v.words) (show 64 * (i / 64) ≤ i by omega)
  rw [BitVector.rank1, if_pos inside, superBits_eq, blockBits_eq, wordsPerBlock_eq, supers, blocks,
    range, h.partialWord_eq inside]
  change Except.ok _ = Except.ok _
  congr 1
  rw [show 64 * (i / 512 * 8) = 512 * (i / 512) by omega] at upper ⊢
  rw [show i / 512 / 8 = i / 4096 by omega] at whole
  omega

theorem rank0_eq {i : Nat} (inside : i ≤ v.len) :
    v.rank0 i = .ok (countBefore (fun j => !bitAt v.words j) i) := by
  have most := countBefore_le (b := bitAt v.words) i
  rw [BitVector.rank0, h.rank1_eq inside, countBefore_not]
  change minus i _ = _
  rw [minus, if_pos most]

theorem get_eq {i : Nat} (inside : i < v.len) : v.get i = .ok (bitAt v.words i) := by
  have enough := h.length_words
  obtain ⟨w, here⟩ : ∃ w, v.words[i / 64]? = some w := ⟨_, List.getElem?_eq_getElem (by omega)⟩
  have read : entry v.words (i / 64) = .ok w := by rw [entry, here]
  have shown := shows_bitAt v.words (i / 64) w here (i % 64) (by omega)
  rw [show 64 * (i / 64) + i % 64 = i by omega] at shown
  rw [BitVector.get, if_pos inside, read, ← shown]
  rfl

end Holding

/-! ## Samples -/

section Samples

variable {b : Nat → Bool} {cumulative : Nat → Nat} {len : Nat}

/-- The counts before the superblocks of a stream of `len` bits. -/
def Cumulative (b : Nat → Bool) (len : Nat) (cumulative : Nat → Nat) : Prop :=
  ∀ sb, sb ≤ len / 4096 → cumulative sb = countBefore b (4096 * sb)

theorem advance_range (left : Nat) {target sb : Nat} (low : cumulative sb ≤ target) :
    ∃ r, advance cumulative target left sb = r ∧ sb ≤ r ∧ r ≤ sb + left ∧
      cumulative r ≤ target ∧ (r < sb + left → target < cumulative (r + 1)) := by
  induction left generalizing sb with
  | zero => exact ⟨sb, rfl, le_rfl, le_rfl, low, fun less => absurd less (lt_irrefl _)⟩
  | succ left ih =>
      rw [advance]
      by_cases go : cumulative (sb + 1) ≤ target
      · obtain ⟨r, eq, from_, upto, below, past⟩ := ih go
        refine ⟨r, by rw [if_pos go, eq], by omega, by omega, below, fun less => past (by omega)⟩
      · exact ⟨sb, if_neg go, le_rfl, by omega, low, fun _ => by omega⟩

/-- The search for the superblock of a bit stops there. -/
theorem advance_eq (counts : Cumulative b len cumulative) {target p sb : Nat}
    (sits : Sits b target p) (inside : p < len) (start : sb ≤ len / 4096)
    (low : countBefore b (4096 * sb) ≤ target) :
    advance cumulative target (len / 4096 - sb) sb = p / 4096 := by
  rw [← counts sb start] at low
  obtain ⟨r, eq, from_, upto, below, past⟩ := advance_range (len / 4096 - sb) low
  rw [eq]
  rw [counts r (by omega)] at below
  have ahead : 4096 * r ≤ p := by
    by_contra before
    have := countBefore_mono (b := b) (show p + 1 ≤ 4096 * r by omega)
    rw [sits.succ] at this
    omega
  by_cases final : r < len / 4096
  · have next := past (by omega)
    rw [counts (r + 1) (by omega)] at next
    have := sits.before next
    omega
  · omega

theorem getElem?_sampleFrom (counts : Cumulative b len cumulative) {left target sb j p : Nat}
    (start : sb ≤ len / 4096) (low : countBefore b (4096 * sb) ≤ target) (less : j < left)
    (sits : Sits b (target + 4096 * j) p) (inside : p < len) :
    (sampleFrom cumulative (len / 4096 + 1) (countBefore b len) left target sb)[j]? =
      some (p / 4096 % 2 ^ 32) := by
  induction left generalizing target sb j with
  | zero => omega
  | succ left ih =>
      have more := sits.lt inside
      obtain ⟨p₀, inside₀, sits₀⟩ := exists_sits (show target < countBefore b len by omega)
      rw [sampleFrom, if_pos (by omega), Nat.add_sub_cancel, advance_eq counts sits₀ inside₀ start low]
      cases j with
      | zero =>
          rw [sits.unique sits₀]
          rfl
      | succ j =>
          have below := countBefore_mono (b := b) (show 4096 * (p₀ / 4096) ≤ p₀ by omega)
          rw [sits₀.count] at below
          rw [List.getElem?_cons_succ]
          have further : target + 4096 * (j + 1) = target + selectSample + 4096 * j := by
            rw [selectSample]
            omega
          rw [further] at sits
          exact ih (by omega) (by omega) (by omega) sits

theorem getElem?_sampleFrom_none {nSuper count left target sb j : Nat}
    (past : count ≤ target + 4096 * j) :
    (sampleFrom cumulative nSuper count left target sb)[j]? = none := by
  induction left generalizing target sb j with
  | zero => rfl
  | succ left ih =>
      rw [sampleFrom]
      by_cases more : target < count
      · rw [if_pos more]
        cases j with
        | zero => omega
        | succ j =>
            rw [List.getElem?_cons_succ]
            refine ih ?_
            rw [selectSample]
            omega
      · rw [if_neg more]
        rfl

/-- Every sample is the superblock of its target, in 32 bits. -/
structure Samples (b : Nat → Bool) (len : Nat) (samples : List Nat) : Prop where
  hit : ∀ j p, Sits b (4096 * j) p → p < len → samples[j]? = some (p / 4096 % 2 ^ 32)
  none : ∀ j, countBefore b len ≤ 4096 * j → samples[j]? = none

theorem samples_sample (counts : Cumulative b len cumulative) :
    Samples b len (sample cumulative (len / 4096 + 1) (countBefore b len)) := by
  constructor
  · intro j p sits inside
    have more := sits.lt inside
    have sits' : Sits b (0 + 4096 * j) p := by rwa [Nat.zero_add]
    refine getElem?_sampleFrom counts (Nat.zero_le _) (Nat.zero_le _) ?_ sits' inside
    rw [selectSample]
    omega
  · intro j past
    exact getElem?_sampleFrom_none (by omega)

end Samples

namespace Holding

variable {v : BitVector} {bits : List Bool} (h : Holding v bits)
include h

theorem samples1 : Samples (bitAt v.words) v.len v.select1Samples := by
  have counts : Cumulative (bitAt v.words) v.len (v.superRanks.getD · 0) := by
    intro sb inside
    change v.superRanks.getD sb 0 = _
    rw [List.getD_eq_getElem?_getD, h.superRanks_eq, List.getElem?_map,
      List.getElem?_range (by omega)]
    rfl
  have built : v.select1Samples = sample (v.superRanks.getD · 0) v.superRanks.length v.ones := by
    rw [h.built]
    rfl
  rw [built, h.length_superRanks, h.ones_eq]
  exact samples_sample counts

theorem samples0 : Samples (fun j => !bitAt v.words j) v.len v.select0Samples := by
  have counts : Cumulative (fun j => !bitAt v.words j) v.len (zerosBefore v.superRanks) := by
    intro sb inside
    rw [zerosBefore, List.getD_eq_getElem?_getD, h.superRanks_eq, List.getElem?_map,
      List.getElem?_range (by omega), superBits_eq, Nat.mul_comm, countBefore_not]
    rfl
  have built : v.select0Samples =
      sample (zerosBefore v.superRanks) v.superRanks.length v.countZeros := by
    rw [h.built]
    rfl
  rw [built, h.length_superRanks, h.countZeros_eq]
  exact samples_sample counts

end Holding

end Graphy.Succinct
