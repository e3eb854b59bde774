import Graphy.Succinct.Proofs.Directory
import Graphy.Succinct.Proofs.Serial

/-!
# Rank and select over the directories

Whatever superblock the samples lead to, at or before the right one, the block walk
and the word walk end at the bit asked for.  The samples fail a select only where the
superblocks of two consecutive ones, cut to 32 bits, run backwards by more than one.
-/

namespace Graphy.Succinct

open PackedBits

/-! ## From a sample to a superblock -/

theorem narrow_range {cumulative : Nat → Except Trap Nat} {c : Nat → Nat} {k n : Nat}
    (reads : ∀ sb, sb < n → cumulative sb = .ok (c sb)) (fuel : Nat) {lo hi : Nat}
    (room : hi ≤ n) (start : lo < n) (low : c lo ≤ k) :
    ∃ r, BitVector.narrow cumulative k fuel lo hi = .ok r ∧ r < n ∧ c r ≤ k := by
  induction fuel generalizing lo hi with
  | zero => exact ⟨lo, rfl, start, low⟩
  | succ fuel ih =>
      rw [BitVector.narrow]
      by_cases wide : 1 < hi - lo
      · have middle : (lo + hi) / 2 < n := by omega
        rw [if_pos wide, reads _ middle]
        change ∃ r, (if c ((lo + hi) / 2) ≤ k then _ else _) = _ ∧ _
        by_cases go : c ((lo + hi) / 2) ≤ k
        · rw [if_pos go]
          exact ih room middle go
        · rw [if_neg go]
          exact ih (by omega) start low
      · exact ⟨lo, if_neg wide, start, low⟩

/-- Two consecutive samples leave a range to search. -/
def Ordered (samples : List Nat) (j : Nat) : Prop :=
  ∀ x y, samples[j]? = some x → samples[j + 1]? = some y → x ≤ y + 1

namespace Holding

variable {v : BitVector} {bits : List Bool} (h : Holding v bits)
include h

theorem selectSuperblock_range {b : Nat → Bool} {samples : List Nat} {k : Nat}
    {cumulative : Nat → Except Trap Nat} (sampled : Samples b v.len samples)
    (reads : ∀ sb, sb < v.len / 4096 + 1 → cumulative sb = .ok (countBefore b (4096 * sb)))
    (more : k < countBefore b v.len) (ordered : Ordered samples (k / 4096)) :
    ∃ sb, v.selectSuperblock samples k cumulative = .ok sb ∧ sb < v.len / 4096 + 1 ∧
      countBefore b (4096 * sb) ≤ k := by
  obtain ⟨p, inside, sits⟩ := exists_sits (show 4096 * (k / 4096) < countBefore b v.len by omega)
  have first := sampled.hit _ p sits inside
  have read : entry samples (k / 4096) = .ok (p / 4096 % 2 ^ 32) := by rw [entry, first]
  have before := countBefore_mono (b := b) (show 4096 * (p / 4096 % 2 ^ 32) ≤ p by omega)
  rw [sits.count] at before
  -- The end of the range is within the directory and not before its start.
  obtain ⟨hi, next, room, order⟩ : ∃ hi, ((samples[k / 4096 + 1]?).map (· + 1)).getD
      v.superRanks.length = hi ∧ hi ≤ v.len / 4096 + 1 ∧ p / 4096 % 2 ^ 32 ≤ hi := by
    by_cases last : 4096 * (k / 4096 + 1) < countBefore b v.len
    · obtain ⟨q, inside', sits'⟩ := exists_sits last
      have second := sampled.hit _ q sits' inside'
      refine ⟨q / 4096 % 2 ^ 32 + 1, by rw [second]; rfl, by omega, ?_⟩
      exact ordered _ _ first second
    · refine ⟨v.len / 4096 + 1, ?_, le_rfl, by omega⟩
      rw [sampled.none _ (by omega)]
      exact h.length_superRanks
  have width : minus hi (p / 4096 % 2 ^ 32) = .ok (hi - p / 4096 % 2 ^ 32) := by
    rw [minus, if_pos order]
  rw [BitVector.selectSuperblock, selectSample, read, next]
  change ∃ sb, (minus hi (p / 4096 % 2 ^ 32) >>= _) = _ ∧ _
  rw [width, ok_bind]
  exact narrow_range reads _ room (by omega) (by omega)

omit h in
theorem selectSuperblock_underflow {samples : List Nat} {k x y : Nat}
    {cumulative : Nat → Except Trap Nat} (first : samples[k / 4096]? = some x)
    (second : samples[k / 4096 + 1]? = some y) (crossed : y + 1 < x) :
    v.selectSuperblock samples k cumulative = .error .underflow := by
  have read : entry samples (k / 4096) = .ok x := by rw [entry, first]
  have width : minus (y + 1) x = .error .underflow := by rw [minus, if_neg (by omega)]
  rw [BitVector.selectSuperblock, selectSample, read, second]
  change (minus (y + 1) x >>= _) = _
  rw [width]
  rfl

end Holding

/-! ## From a superblock to the bit -/

theorem walkBlocks_range {before : Nat → Except Trap Nat} {c : Nat → Nat} {rem blk : Nat}
    (left : Nat) (reads : ∀ i, blk ≤ i → i ≤ blk + left → before i = .ok (c i)) (low : c blk ≤ rem) :
    ∃ r, BitVector.walkBlocks before rem left blk = .ok r ∧ blk ≤ r ∧ r ≤ blk + left ∧ c r ≤ rem := by
  induction left generalizing blk with
  | zero => exact ⟨blk, rfl, le_rfl, le_rfl, low⟩
  | succ left ih =>
      rw [BitVector.walkBlocks, reads (blk + 1) (by omega) (by omega)]
      change ∃ r, (if c (blk + 1) ≤ rem then _ else _) = _ ∧ _
      by_cases go : c (blk + 1) ≤ rem
      · obtain ⟨r, eq, from_, upto, below⟩ := ih (fun i hi hi' => reads i (by omega) (by omega)) go
        exact ⟨r, by rw [if_pos go, eq], by omega, by omega, below⟩
      · exact ⟨blk, if_neg go, le_rfl, by omega, low⟩

theorem walkWords_eq {view : Nat → Nat} {words : List Nat} {b : Nat → Bool} {k p q : Nat}
    (shown : Shows view words b) (sits : Sits b k p) (low : countBefore b (64 * q) ≤ k)
    (inside : p < 64 * words.length) :
    BitVector.walkWords view (words.drop q) (k - countBefore b (64 * q)) q = .ok p := by
  have ahead : 64 * q ≤ p := by
    by_contra behind
    have := sits.lt (show p < 64 * q by omega)
    omega
  induction rest : words.drop q generalizing q with
  | nil =>
      have := List.drop_eq_nil_iff.mp rest
      omega
  | cons w ws ih =>
      have here : words[q]? = some w := by
        rw [← List.head?_drop, rest]
        rfl
      have tail : words.drop (q + 1) = ws := by
        rw [← List.tail_drop, rest]
        rfl
      have whole := shown.countBefore here (le_refl 64)
      rw [BitVector.walkWords, countOnes_eq]
      by_cases found : k - countBefore b (64 * q) < countBefore (view w).testBit 64
      · have place : p < 64 * q + 64 := sits.before (by omega)
        have word : Sits (view w).testBit (k - countBefore b (64 * q)) (p - 64 * q) := by
          refine ⟨?_, ?_⟩
          · rw [shown q w here _ (by omega), Nat.add_sub_of_le ahead, sits.set]
          · have portion := shown.countBefore here (show p - 64 * q ≤ 64 by omega)
            rw [Nat.add_sub_of_le ahead, sits.count] at portion
            omega
        rw [if_pos found, selectInWord_eq word (by omega)]
        change Except.ok (q * 64 + (p - 64 * q)) = _
        congr 1
        omega
      · have past : 64 * (q + 1) ≤ p := by
          by_contra before
          have := sits.lt (show p < 64 * q + 64 by omega)
          omega
        have bound : countBefore b (64 * (q + 1)) ≤ k := by
          rw [Nat.mul_succ]
          omega
        have step := ih bound past tail
        rw [if_neg found]
        rw [Nat.mul_succ, whole, ← Nat.sub_sub] at step
        exact step

/-- Zeros before a block within its superblock. -/
theorem onesInSuper_not (b : Nat → Bool) (blk : Nat) :
    minus ((blk - blk / 8 * 8) * 512) (onesInSuper b blk) =
      .ok (onesInSuper (fun j => !b j) blk) := by
  have split : 512 * blk = 4096 * (blk / 8) + 512 * (blk % 8) := by omega
  have most := countBefore_add_le (b := b) (4096 * (blk / 8)) (512 * (blk % 8))
  have mono := countBefore_mono (b := b) (show 4096 * (blk / 8) ≤ 512 * blk by omega)
  have upto := countBefore_le (b := b) (4096 * (blk / 8))
  rw [← split] at most
  unfold onesInSuper
  rw [minus, if_pos (by omega), countBefore_not, countBefore_not]
  congr 1
  omega

namespace Holding

variable {v : BitVector} {bits : List Bool} (h : Holding v bits)
include h

theorem selectFrom_eq {view : Nat → Nat} {b : Nat → Bool}
    {cumulative before : Nat → Except Trap Nat} {sb k p : Nat} (shown : Shows view v.words b)
    (sits : Sits b k p) (inside : p < v.len) (within : sb < v.len / 4096 + 1)
    (low : countBefore b (4096 * sb) ≤ k)
    (reads : cumulative sb = .ok (countBefore b (4096 * sb)))
    (blocks : ∀ blk, blk / 8 = sb → blk ≤ v.len / 512 → before blk = .ok (onesInSuper b blk)) :
    v.selectFrom view sb k cumulative before = .ok p := by
  have enough := h.length_words
  have size := h.length_blockRanks
  have start : onesInSuper b (sb * 8) ≤ k - countBefore b (4096 * sb) := by
    unfold onesInSuper
    rw [show 512 * (sb * 8) = 4096 * sb by omega, Nat.mul_div_cancel sb (by omega), Nat.sub_self]
    exact Nat.zero_le _
  obtain ⟨blk, walked, from_, upto, below⟩ := walkBlocks_range
    (min (sb * 8 + 8) v.blockRanks.length - 1 - sb * 8)
    (fun i hi hi' => blocks i (by omega) (by omega)) start
  have block := blocks blk (by omega) (by omega)
  have whole := onesInSuper_add b blk
  rw [show blk / 8 = sb by omega] at whole
  have first : minus k (countBefore b (4096 * sb)) = .ok (k - countBefore b (4096 * sb)) := by
    rw [minus, if_pos low]
  have second : minus (k - countBefore b (4096 * sb)) (onesInSuper b blk) =
      .ok (k - countBefore b (64 * (blk * 8))) := by
    rw [minus, if_pos below, show 64 * (blk * 8) = 512 * blk by omega, ← whole, Nat.sub_sub]
  have reached : countBefore b (64 * (blk * 8)) ≤ k := by
    rw [show 64 * (blk * 8) = 512 * blk by omega]
    omega
  have found := walkWords_eq shown sits reached (show p < 64 * v.words.length by omega)
  rw [BitVector.selectFrom, reads, ok_bind, first, ok_bind, blocksPerSuper_eq]
  change BitVector.walkBlocks before _ (min (sb * 8 + 8) v.blockRanks.length - 1 - sb * 8) (sb * 8)
    >>= _ = _
  rw [walked, ok_bind, block, ok_bind, second, ok_bind]
  exact found

/-! ## Select -/

theorem select1_eq {k p : Nat} (sits : Sits (bitAt v.words) k p) (inside : p < v.len)
    (ordered : Ordered v.select1Samples (k / 4096)) : v.select1 k = .ok (some p) := by
  have more := sits.lt inside
  obtain ⟨sb, found, within, low⟩ := h.selectSuperblock_range h.samples1
    (fun sb hsb => h.entry_superRanks (Nat.le_of_lt_succ hsb)) more ordered
  have bit := h.selectFrom_eq (shows_bitAt v.words) sits inside within low
    (h.entry_superRanks (Nat.le_of_lt_succ within)) fun blk _ inBlocks => h.entry_blockRanks inBlocks
  rw [BitVector.select1, if_neg (by rw [h.ones_eq]; omega), found, ok_bind, bit]
  rfl

theorem select1_none {k : Nat} (past : countBefore (bitAt v.words) v.len ≤ k) :
    v.select1 k = .ok none := by
  rw [BitVector.select1, if_pos (by rw [h.ones_eq]; exact past)]

theorem zerosBefore_eq {sb : Nat} (inside : sb < v.len / 4096 + 1) :
    v.zerosBefore sb = .ok (countBefore (fun j => !bitAt v.words j) (4096 * sb)) := by
  have most := countBefore_le (b := bitAt v.words) (4096 * sb)
  rw [BitVector.zerosBefore, h.entry_superRanks (by omega), ok_bind, minus, superBits_eq,
    Nat.mul_comm sb, if_pos most, countBefore_not]

theorem zerosInSuperBefore_eq {blk : Nat} (inside : blk ≤ v.len / 512) :
    v.zerosInSuperBefore (blk / 8) blk = .ok (onesInSuper (fun j => !bitAt v.words j) blk) := by
  rw [BitVector.zerosInSuperBefore, h.entry_blockRanks inside, ok_bind]
  exact onesInSuper_not _ blk

theorem select0_eq {k p : Nat} (sits : Sits (fun j => !bitAt v.words j) k p) (inside : p < v.len)
    (ordered : Ordered v.select0Samples (k / 4096)) : v.select0 k = .ok (some p) := by
  have more := sits.lt inside
  obtain ⟨sb, found, within, low⟩ := h.selectSuperblock_range h.samples0
    (fun sb hsb => h.zerosBefore_eq hsb) more ordered
  have blocks : ∀ blk, blk / 8 = sb → blk ≤ v.len / 512 →
      v.zerosInSuperBefore sb blk = .ok (onesInSuper (fun j => !bitAt v.words j) blk) := by
    rintro blk rfl inBlocks
    exact h.zerosInSuperBefore_eq inBlocks
  have bit := h.selectFrom_eq (shows_invert h.holds.small) sits inside within low
    (h.zerosBefore_eq within) blocks
  rw [BitVector.select0, if_neg (by rw [h.countZeros_eq]; omega), found, ok_bind, bit]
  rfl

theorem select0_none {k : Nat} (past : countBefore (fun j => !bitAt v.words j) v.len ≤ k) :
    v.select0 k = .ok none := by
  rw [BitVector.select0, if_pos (by rw [h.countZeros_eq]; exact past)]

end Holding

/-! ## Scanning forward -/

theorem bitAt_cons_lt (w : Nat) (ws : List Nat) {j : Nat} (inside : j < 64) :
    bitAt (w :: ws) j = w.testBit j := by
  rw [bitAt, show j / 64 = 0 by omega, Nat.mod_eq_of_lt inside]
  rfl

theorem bitAt_cons_add (w : Nat) (ws : List Nat) (j : Nat) :
    bitAt (w :: ws) (64 + j) = bitAt ws j := by
  rw [bitAt, bitAt, show (64 + j) / 64 = j / 64 + 1 by omega, show (64 + j) % 64 = j % 64 by omega]
  rfl

theorem eq_zero_of_clear {w : Nat} (small : w < 2 ^ 64) (clear : ∀ j, j < 64 → w.testBit j = false) :
    w = 0 := by
  refine Nat.zero_of_testBit_eq_false fun j => ?_
  by_cases inside : j < 64
  · exact clear j inside
  · exact Nat.testBit_lt_two_pow (lt_of_lt_of_le small (Nat.pow_le_pow_right (by omega) (by omega)))

theorem scanWords_none {words : List Nat} (small : ∀ w ∈ words, w < 2 ^ 64) (len wi : Nat)
    (clear : ∀ j, bitAt words j = false) : BitVector.scanWords len words wi = none := by
  induction words generalizing wi with
  | nil => rfl
  | cons w ws ih =>
      have zero : w = 0 := eq_zero_of_clear (small w List.mem_cons_self) fun j inside => by
        rw [← bitAt_cons_lt w ws inside, clear]
      rw [BitVector.scanWords, if_neg (not_not.mpr zero)]
      exact ih (fun x hx => small x (List.mem_cons_of_mem w hx)) _ fun j => by
        rw [← bitAt_cons_add w ws, clear]

theorem scanWords_eq {words : List Nat} (small : ∀ w ∈ words, w < 2 ^ 64) (len wi : Nat) {l : Nat}
    (first : Sits (bitAt words) 0 l) :
    BitVector.scanWords len words wi = if wi * 64 + l < len then some (wi * 64 + l) else none := by
  induction words generalizing wi l with
  | nil =>
      have set := first.set
      simp [bitAt] at set
  | cons w ws ih =>
      have low : countBefore (bitAt (w :: ws)) 64 = countBefore w.testBit 64 :=
        countBefore_congr fun j inside => bitAt_cons_lt w ws inside
      by_cases here : l < 64
      · have word : Sits w.testBit 0 l := by
          refine ⟨by rw [← bitAt_cons_lt w ws here, first.set], ?_⟩
          rw [← first.count]
          exact countBefore_congr fun j inside => (bitAt_cons_lt w ws (by omega)).symm
        have nonzero : w ≠ 0 := by
          rintro rfl
          have set := word.set
          rw [Nat.zero_testBit] at set
          cases set
        rw [BitVector.scanWords, if_pos nonzero, trailingZeros_eq word here]
      · have zero : w = 0 := eq_zero_of_clear (small w List.mem_cons_self) fun j inside => by
          cases set : w.testBit j with
          | false => rfl
          | true =>
              rw [← bitAt_cons_lt w ws inside] at set
              have one := countBefore_mono (b := bitAt (w :: ws)) (show j + 1 ≤ l by omega)
              rw [first.count, countBefore, set, Bool.toNat_true] at one
              omega
        have rest : Sits (bitAt ws) 0 (l - 64) := by
          have seen := Sits.drop (i := 64) (p := l - 64) (by rwa [Nat.add_sub_of_le (by omega)])
          rw [Nat.zero_sub, funext fun j => bitAt_cons_add w ws j] at seen
          exact seen
        rw [BitVector.scanWords, if_neg (not_not.mpr zero),
          ih (fun x hx => small x (List.mem_cons_of_mem w hx)) _ rest,
          show (wi + 1) * 64 + (l - 64) = wi * 64 + l by omega]

/-- The words from a place on, without the bits before it. -/
theorem bitAt_clearBelow {words : List Nat} {q w n : Nat} (here : words[q]? = some w)
    (inside : n < 64) (j : Nat) :
    bitAt (BitVector.clearBelow w n :: words.drop (q + 1)) j =
      (decide (n ≤ j) && bitAt words (64 * q + j)) := by
  by_cases first : j < 64
  · rw [bitAt_cons_lt _ _ first, ← shows_bitAt words q w here j first, BitVector.clearBelow,
      Nat.testBit_shiftLeft, Nat.testBit_shiftRight]
    by_cases past : n ≤ j
    · simp [past]
    · simp [past]
  · obtain ⟨k, rfl⟩ := Nat.exists_eq_add_of_le (Nat.le_of_not_lt first)
    rw [bitAt_cons_add, decide_eq_true (by omega), Bool.true_and, bitAt, bitAt,
      List.getD_eq_getElem?_getD, List.getElem?_drop, List.getD_eq_getElem?_getD,
      show (64 * q + (64 + k)) / 64 = q + 1 + k / 64 by omega,
      show (64 * q + (64 + k)) % 64 = k % 64 by omega]

theorem countBefore_clearBelow {words : List Nat} {q w n : Nat} (here : words[q]? = some w)
    (inside : n < 64) (m : Nat) :
    countBefore (bitAt (BitVector.clearBelow w n :: words.drop (q + 1))) m +
      countBefore (bitAt words) (64 * q + min n m) = countBefore (bitAt words) (64 * q + m) := by
  induction m with
  | zero => rw [Nat.min_zero, countBefore, Nat.zero_add]
  | succ m ih =>
      rw [countBefore, bitAt_clearBelow here inside]
      by_cases past : n ≤ m
      · rw [Nat.min_eq_left past] at ih
        rw [Nat.min_eq_left (by omega), decide_eq_true past, Bool.true_and, ← Nat.add_assoc _ m 1,
          countBefore]
        omega
      · rw [Nat.min_eq_right (by omega)] at ih
        rw [Nat.min_eq_right (by omega), decide_eq_false past, Bool.false_and, Bool.toNat_false]
        omega

theorem clearBelow_le (w n : Nat) : BitVector.clearBelow w n ≤ w := by
  rw [BitVector.clearBelow, Nat.shiftLeft_eq, Nat.shiftRight_eq_div_pow]
  exact Nat.div_mul_le_self w (2 ^ n)

namespace Holding

variable {v : BitVector} {bits : List Bool} (h : Holding v bits)
include h

theorem small_from {i w : Nat} (here : v.words[i / 64]? = some w) :
    ∀ x ∈ BitVector.clearBelow w (i % 64) :: v.words.drop (i / 64 + 1), x < 2 ^ 64 := by
  intro x member
  rcases List.mem_cons.mp member with rfl | later
  · exact lt_of_le_of_lt (clearBelow_le w _) (h.holds.small w (List.mem_of_getElem? here))
  · exact h.holds.small x (List.mem_of_mem_drop later)

theorem nextOne_found {i p : Nat}
    (sits : Sits (bitAt v.words) (countBefore (bitAt v.words) i) p) (inside : p < v.len) :
    v.nextOne i = .ok (some p) := by
  have enough := h.length_words
  have next : countBefore (bitAt v.words) i < countBefore (bitAt v.words) (p + 1) := by
    rw [sits.succ]
    exact Nat.lt_succ_self _
  have ahead : i ≤ p := (sits.range le_rfl next).1
  obtain ⟨w, here⟩ : ∃ w, v.words[i / 64]? = some w := ⟨_, List.getElem?_eq_getElem (by omega)⟩
  have read : entry v.words (i / 64) = .ok w := by rw [entry, here]
  have place : i % 64 < 64 := Nat.mod_lt _ (by omega)
  have first : Sits (bitAt (BitVector.clearBelow w (i % 64) :: v.words.drop (i / 64 + 1))) 0
      (p - 64 * (i / 64)) := by
    refine ⟨?_, ?_⟩
    · rw [bitAt_clearBelow here place, Nat.add_sub_of_le (by omega), sits.set, Bool.and_true,
        decide_eq_true_eq]
      omega
    · have counted := countBefore_clearBelow here place (p - 64 * (i / 64))
      rw [Nat.add_sub_of_le (by omega), sits.count, Nat.min_eq_left (by omega),
        show 64 * (i / 64) + i % 64 = i by omega] at counted
      omega
  have scanned := scanWords_eq (h.small_from here) v.len (i / 64) first
  rw [show i / 64 * 64 + (p - 64 * (i / 64)) = p by omega, if_pos inside] at scanned
  rw [BitVector.nextOne, if_neg (by omega), read, ok_bind, scanned]
  rfl

theorem nextOne_none {i : Nat}
    (past : countBefore (bitAt v.words) v.len ≤ countBefore (bitAt v.words) i) :
    v.nextOne i = .ok none := by
  have enough := h.length_words
  by_cases inside : i < v.len
  · obtain ⟨w, here⟩ : ∃ w, v.words[i / 64]? = some w := ⟨_, List.getElem?_eq_getElem (by omega)⟩
    have read : entry v.words (i / 64) = .ok w := by rw [entry, here]
    have clear : ∀ j, bitAt (BitVector.clearBelow w (i % 64) :: v.words.drop (i / 64 + 1)) j
        = false := by
      intro j
      rw [bitAt_clearBelow here (Nat.mod_lt _ (by omega))]
      by_cases behind : i % 64 ≤ j
      · rw [decide_eq_true behind, Bool.true_and]
        by_contra set
        rw [Bool.not_eq_false] at set
        by_cases within : 64 * (i / 64) + j < v.len
        · have mono := countBefore_mono (b := bitAt v.words) (show i ≤ 64 * (i / 64) + j by omega)
          have one := countBefore_mono (b := bitAt v.words)
            (show 64 * (i / 64) + j + 1 ≤ v.len from within)
          rw [countBefore, set, Bool.toNat_true] at one
          omega
        · rw [h.bit_beyond (by omega)] at set
          cases set
      · rw [decide_eq_false behind, Bool.false_and]
    rw [BitVector.nextOne, if_neg (by omega), read, ok_bind,
      scanWords_none (h.small_from here) _ _ clear]
    rfl
  · rw [BitVector.nextOne, if_pos (by omega)]

end Holding

end Graphy.Succinct
