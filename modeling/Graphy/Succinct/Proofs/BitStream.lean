import Graphy.Succinct.RankSelect

/-!
# Counting in a stream of bits

A position holding a set bit is told by the number of set bits before it.  Words are
windows of a stream: the bits of a word are counted like any other stretch, and the
bit with a given count before it is found inside the word.
-/

namespace Graphy.Succinct

open PackedBits

/-- Set bits of a stream before a position. -/
@[grind =] def countBefore (b : Nat → Bool) : Nat → Nat
  | 0 => 0
  | i + 1 => countBefore b i + (b i).toNat

section Stream

variable {b : Nat → Bool}

theorem countBefore_mono {i j : Nat} (h : i ≤ j) : countBefore b i ≤ countBefore b j := by
  induction h with
  | refl => exact le_rfl
  | step _ ih => exact ih.trans (Nat.le_add_right _ _)

theorem countBefore_add_le (i j : Nat) : countBefore b (i + j) ≤ countBefore b i + j := by
  induction j with
  | zero => exact le_rfl
  | succ j ih =>
      have one := Bool.toNat_le (b (i + j))
      rw [← Nat.add_assoc, countBefore]
      omega

theorem countBefore_le (i : Nat) : countBefore b i ≤ i := by
  have := countBefore_add_le (b := b) 0 i
  rw [Nat.zero_add, countBefore, Nat.zero_add] at this
  exact this

theorem countBefore_congr {c : Nat → Bool} {n : Nat} (h : ∀ i, i < n → b i = c i) :
    countBefore b n = countBefore c n := by
  induction n with
  | zero => rfl
  | succ n ih => rw [countBefore, countBefore, h n (Nat.lt_succ_self n), ih fun i hi => h i (by omega)]

theorem countBefore_add (i n : Nat) :
    countBefore b (i + n) = countBefore b i + countBefore (fun j => b (i + j)) n := by
  induction n with
  | zero => rfl
  | succ n ih => rw [← Nat.add_assoc, countBefore, countBefore, ih, Nat.add_assoc]

/-- Nothing is counted past the last set bit. -/
theorem countBefore_stop {i j : Nat} (h : i ≤ j) (clear : ∀ p, i ≤ p → b p = false) :
    countBefore b j = countBefore b i := by
  induction h with
  | refl => rfl
  | step less ih => rw [countBefore, ih, clear _ less, Bool.toNat_false, Nat.add_zero]

theorem countBefore_not (i : Nat) : countBefore (fun j => !b j) i = i - countBefore b i := by
  induction i with
  | zero => rfl
  | succ i ih =>
      have le := countBefore_le (b := b) i
      rw [countBefore, countBefore, ih]
      cases b i with
      | true =>
          rw [Bool.not_true, Bool.toNat_false, Bool.toNat_true]
          omega
      | false =>
          rw [Bool.not_false, Bool.toNat_true, Bool.toNat_false]
          omega

/-- A set bit with this many set bits before it. -/
structure Sits (b : Nat → Bool) (k p : Nat) : Prop where
  set : b p = true
  count : countBefore b p = k

theorem Sits.succ {k p : Nat} (h : Sits b k p) : countBefore b (p + 1) = k + 1 := by
  rw [countBefore, h.set, h.count]
  rfl

/-- The position lies in a range whose counts enclose it. -/
theorem Sits.range {k p lo hi : Nat} (h : Sits b k p) (low : countBefore b lo ≤ k)
    (high : k < countBefore b hi) : lo ≤ p ∧ p < hi := by
  constructor
  · by_contra before
    have := countBefore_mono (b := b) (show p + 1 ≤ lo by omega)
    rw [h.succ] at this
    omega
  · by_contra after
    have := countBefore_mono (b := b) (show hi ≤ p by omega)
    rw [h.count] at this
    omega

theorem Sits.before {k p hi : Nat} (h : Sits b k p) (high : k < countBefore b hi) : p < hi := by
  have start : countBefore b 0 ≤ k := Nat.zero_le k
  exact (h.range start high).2

theorem Sits.lt {k p n : Nat} (h : Sits b k p) (inside : p < n) : k < countBefore b n := by
  have := countBefore_mono (b := b) (show p + 1 ≤ n from inside)
  rw [h.succ] at this
  omega

theorem Sits.unique {k p q : Nat} (h : Sits b k p) (h' : Sits b k q) : p = q := by
  have next : k < countBefore b (q + 1) := by
    rw [h'.succ]
    exact Nat.lt_succ_self k
  have ahead := h.range h'.count.le next
  omega

theorem exists_sits {k n : Nat} (h : k < countBefore b n) : ∃ p, p < n ∧ Sits b k p := by
  induction n with
  | zero => cases h
  | succ n ih =>
      by_cases before : k < countBefore b n
      · obtain ⟨p, less, sits⟩ := ih before
        exact ⟨p, by omega, sits⟩
      · rw [countBefore] at h
        refine ⟨n, Nat.lt_succ_self n, ?_, ?_⟩
        · cases set : b n with
          | true => rfl
          | false =>
              rw [set, Bool.toNat_false] at h
              omega
        · have := Bool.toNat_le (b n)
          omega

/-- The same bit, seen from further on in the stream. -/
theorem Sits.drop {k p i : Nat} (h : Sits b k (i + p)) :
    Sits (fun j => b (i + j)) (k - countBefore b i) p := by
  have count := h.count
  rw [countBefore_add] at count
  exact ⟨h.set, by omega⟩

end Stream

/-! ## Words -/

theorem count_lowBits (w m : Nat) : (lowBits m w).count true = countBefore w.testBit m := by
  induction m with
  | zero => rfl
  | succ m ih =>
      rw [countBefore, ← ih]
      unfold lowBits
      rw [List.range_succ, List.map_append, List.count_append]
      cases set : w.testBit m <;> simp [set]

theorem countOnes_eq (w : Nat) : countOnes w = countBefore w.testBit 64 := count_lowBits w 64

/-- The views of the words are windows of the stream. -/
def Shows (view : Nat → Nat) (words : List Nat) (b : Nat → Bool) : Prop :=
  ∀ q w, words[q]? = some w → ∀ j, j < 64 → (view w).testBit j = b (64 * q + j)

theorem Shows.countBefore {view : Nat → Nat} {words : List Nat} {b : Nat → Bool}
    (shown : Shows view words b) {q w m : Nat} (here : words[q]? = some w) (inside : m ≤ 64) :
    countBefore b (64 * q + m) = countBefore b (64 * q) + countBefore (view w).testBit m := by
  rw [countBefore_add]
  congr 1
  exact countBefore_congr fun j hj => (shown q w here j (by omega)).symm

theorem shows_bitAt (words : List Nat) : Shows id words (bitAt words) := by
  intro q w here j inside
  have quotient : (64 * q + j) / 64 = q := by omega
  have place : (64 * q + j) % 64 = j := by omega
  rw [bitAt, quotient, place, List.getD_eq_getElem?_getD, here]
  rfl

theorem testBit_invert {w j : Nat} (small : w < 2 ^ 64) (inside : j < 64) :
    (invert w).testBit j = !w.testBit j := by
  unfold invert
  rw [Nat.sub_sub, Nat.add_comm, Nat.testBit_two_pow_sub_succ small]
  simp [inside]

theorem shows_invert {words : List Nat} (small : ∀ w ∈ words, w < 2 ^ 64) :
    Shows invert words fun j => !bitAt words j := by
  intro q w here j inside
  rw [testBit_invert (small w (List.mem_of_getElem? here)) inside]
  exact congrArg not (shows_bitAt words q w here j inside)

/-- Ones of a stretch of words. -/
theorem countBefore_words (words : List Nat) (start n : Nat) :
    countBefore (bitAt words) (64 * (start + n)) = countBefore (bitAt words) (64 * start) +
      (((words.drop start).take n).map countOnes).sum := by
  induction n with
  | zero => rfl
  | succ n ih =>
      rw [List.take_add_one, List.map_append, List.sum_append, ← Nat.add_assoc (countBefore _ _),
        ← ih, List.getElem?_drop, ← Nat.add_assoc start, Nat.mul_succ]
      cases here : words[start + n]? with
      | some w =>
          rw [(shows_bitAt words).countBefore here le_rfl]
          simp [countOnes_eq]
      | none =>
          have past := List.getElem?_eq_none_iff.mp here
          rw [countBefore_stop (Nat.le_add_right _ 64) fun p hp => bitAt_of_length_le (by omega)]
          simp

/-! ## Within a word -/

theorem trailingZeros_eq {w l : Nat} (first : Sits w.testBit 0 l) (inside : l < 64) :
    trailingZeros w = l := by
  have found : (List.range 64).find? w.testBit = some l := by
    rw [List.find?_range_eq_some]
    refine ⟨first.set, List.mem_range.mpr inside, fun j less => ?_⟩
    have count := first.count
    by_contra set
    have sits : Sits w.testBit 0 j := by
      refine ⟨by simpa using set, ?_⟩
      have := countBefore_mono (b := w.testBit) less.le
      omega
    have := sits.unique first
    omega
  rw [trailingZeros, found]
  rfl

theorem testBit_half (w j : Nat) : w.testBit (j + 1) = (w / 2).testBit j := Nat.testBit_succ w j

/-- A number and the one below it agree but for the lowest set bit and those below it. -/
theorem testBit_clear {w l : Nat} (first : Sits w.testBit 0 l) (j : Nat) :
    (w &&& (w - 1)).testBit j = (w.testBit j && decide (j ≠ l)) := by
  induction l generalizing w j with
  | zero =>
      have odd := first.set
      rw [Nat.testBit_zero, decide_eq_true_eq] at odd
      rw [Nat.testBit_and]
      cases j with
      | zero =>
          have even : (w - 1) % 2 ≠ 1 := by omega
          simp [Nat.testBit_zero, even]
      | succ j =>
          have half : (w - 1) / 2 = w / 2 := by omega
          rw [testBit_half, testBit_half, half, Bool.and_self]
          simp
  | succ l ih =>
      have even : w.testBit 0 = false := by
        have start := countBefore_mono (b := w.testBit) (show 1 ≤ l + 1 by omega)
        rw [first.count, countBefore, countBefore, Nat.zero_add] at start
        exact Bool.toNat_eq_zero.mp (Nat.le_zero.mp start)
      have upper : Sits (w / 2).testBit 0 l := by
        have seen := Sits.drop (i := 1) (p := l) (by rwa [Nat.add_comm])
        rw [Nat.zero_sub] at seen
        have shift : (fun j => w.testBit (1 + j)) = (w / 2).testBit := by
          funext j
          rw [Nat.add_comm, testBit_half]
        rwa [shift] at seen
      have positive : w ≠ 0 := by
        rintro rfl
        have set := first.set
        rw [Nat.zero_testBit] at set
        cases set
      rw [Nat.testBit_and]
      cases j with
      | zero => rw [even, Bool.false_and, Bool.false_and]
      | succ j =>
          rw [Nat.testBit_zero, decide_eq_false_iff_not] at even
          have half : (w - 1) / 2 = w / 2 - 1 := by omega
          have step := ih upper j
          rw [Nat.testBit_and] at step
          rw [testBit_half, testBit_half, half, step]
          simp

/-- Without the lowest set bit, one less is counted past it. -/
theorem countBefore_clear {w l : Nat} (first : Sits w.testBit 0 l) (i : Nat) :
    countBefore (w &&& (w - 1)).testBit i + (decide (l < i)).toNat = countBefore w.testBit i := by
  induction i with
  | zero => rfl
  | succ i ih =>
      rw [countBefore, countBefore, ← ih, testBit_clear first]
      rcases Nat.lt_trichotomy i l with less | rfl | greater
      · simp [show ¬ l < i by omega, show ¬ l < i + 1 by omega, show i ≠ l by omega]
      · simp [first.set]
      · simp [greater, show l < i + 1 by omega, show i ≠ l by omega]
        omega

theorem trailingZeros_clearLowest {w r m : Nat} (sits : Sits w.testBit r m) (inside : m < 64) :
    trailingZeros (clearLowest r w) = m := by
  induction r generalizing w with
  | zero => exact trailingZeros_eq sits inside
  | succ r ih =>
      obtain ⟨l, below, first⟩ : ∃ l, l < m ∧ Sits w.testBit 0 l :=
        exists_sits (by rw [sits.count]; exact Nat.succ_pos r)
      refine ih (w := w &&& (w - 1)) ⟨?_, ?_⟩
      · rw [testBit_clear first, sits.set]
        simp
        omega
      · have count := countBefore_clear first m
        rw [sits.count, decide_eq_true below, Bool.toNat_true] at count
        omega

theorem countBefore_mod (w : Nat) {m n : Nat} (inside : m ≤ n) :
    countBefore (w % 2 ^ n).testBit m = countBefore w.testBit m := by
  refine countBefore_congr fun j hj => ?_
  rw [Nat.testBit_mod_two_pow, decide_eq_true (show j < n by omega), Bool.true_and]

/-- The ones of the low bits of a word. -/
theorem countOnes_mod (w : Nat) {n : Nat} (inside : n ≤ 64) :
    countOnes (w % 2 ^ n) = countBefore w.testBit n := by
  rw [countOnes_eq, countBefore_stop inside, countBefore_mod w le_rfl]
  intro p hp
  rw [Nat.testBit_mod_two_pow, decide_eq_false (show ¬ p < n by omega), Bool.false_and]

theorem selectInBytes_eq {left w rem pos m : Nat} (sits : Sits w.testBit rem m)
    (inside : m < 8 * left) : selectInBytes left w rem pos = .ok (pos + m) := by
  induction left generalizing w rem pos m with
  | zero => omega
  | succ left ih =>
      have low := countOnes_mod w (show 8 ≤ 64 by omega)
      rw [selectInBytes, show w % 256 = w % 2 ^ 8 from rfl, low]
      by_cases here : rem < countBefore w.testBit 8
      · have place := sits.before here
        have inByte : Sits (w % 2 ^ 8).testBit rem m := by
          refine ⟨?_, ?_⟩
          · rw [Nat.testBit_mod_two_pow, sits.set, decide_eq_true place, Bool.true_and]
          · rw [countBefore_mod w place.le, sits.count]
        rw [if_pos here, trailingZeros_clearLowest inByte (by omega)]
      · have past : 8 ≤ m := by
          by_contra before
          exact here (sits.lt (by omega))
        have upper : Sits (w / 256).testBit (rem - countBefore w.testBit 8) (m - 8) := by
          have seen := Sits.drop (i := 8) (p := m - 8) (by rwa [Nat.add_sub_of_le past])
          have shift : (fun j => w.testBit (8 + j)) = (w / 256).testBit := by
            funext j
            rw [show 256 = 2 ^ 8 from rfl, Nat.testBit_div_two_pow, Nat.add_comm]
          rwa [shift] at seen
        rw [if_neg here, ih upper (by omega)]
        congr 1
        omega

/-- The bit of a word with a given number of set bits below it. -/
theorem selectInWord_eq {w r m : Nat} (sits : Sits w.testBit r m) (inside : m < 64) :
    selectInWord w r = .ok m := by
  rw [selectInWord, selectInBytes_eq sits (by omega), Nat.zero_add]

end Graphy.Succinct
