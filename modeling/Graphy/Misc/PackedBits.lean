import Mathlib.Algebra.Ring.Nat
import Mathlib.Data.Nat.Bitwise
import Mathlib.Data.List.Basic

/-!
# Bits packed in words

A word array read as a stream of bits, the lowest bit of the first word first.
`pushBits` appends a value at the end of the stream, `readBits` reads one back;
both touch two words when the value straddles a word boundary.
-/

namespace Graphy

namespace PackedBits

/-- Words that hold `n` bits. -/
def wordCount (n : Nat) : Nat := (n + 63) / 64

/-- Bit `j` of the stream. -/
def bitAt (words : List Nat) (j : Nat) : Bool := (words.getD (j / 64) 0).testBit (j % 64)

/-- The `width` low bits of a number, lowest first. -/
def lowBits (width v : Nat) : List Bool := (List.range width).map v.testBit

/-- Set the bits of `v` from bit position `bit` on, where the stream ends. -/
def pushBits (words : List Nat) (bit width v : Nat) : List Nat :=
  let off := bit % 64
  let words := if bit / 64 = words.length then words ++ [0] else words
  let words := words.modify (bit / 64) (fun w => w ||| (v <<< off) % 2 ^ 64)
  if 64 < off + width then words ++ [v >>> (64 - off)] else words

/-- The `width` low bits of a word. -/
def maskBits (width v : Nat) : Nat := if width = 64 then v else v &&& (1 <<< width - 1)

/-- The `width` bits from bit position `bit` on; nothing when a word is missing. -/
def readBits (words : List Nat) (bit width : Nat) : Option Nat := do
  let off := bit % 64
  let low ← words[bit / 64]?
  if 64 < off + width then
    let high ← words[bit / 64 + 1]?
    return maskBits width ((low >>> off) ||| (high <<< (64 - off)) % 2 ^ 64)
  else return maskBits width (low >>> off)

/-- The words hold exactly these bits, and zeros after them. -/
structure Holds (words : List Nat) (bits : List Bool) : Prop where
  length : words.length = wordCount bits.length
  small : ∀ w ∈ words, w < 2 ^ 64
  bit : ∀ j, bitAt words j = bits.getD j false

@[simp] theorem length_lowBits (width v : Nat) : (lowBits width v).length = width := by
  simp [lowBits]

theorem getD_lowBits {width v : Nat} (h : v < 2 ^ width) (k : Nat) :
    (lowBits width v).getD k false = v.testBit k := by
  by_cases inside : k < width
  · simp [lowBits, inside]
  · have zero : v.testBit k = false :=
      Nat.testBit_lt_two_pow (lt_of_lt_of_le h (Nat.pow_le_pow_right (by omega) (by omega)))
    rw [zero, List.getD_eq_default _ _ (by simp; omega)]

theorem bitAt_of_length_le {words : List Nat} {j : Nat} (h : words.length ≤ j / 64) :
    bitAt words j = false := by
  rw [bitAt, List.getD_eq_default _ _ h, Nat.zero_testBit]

theorem bitAt_snoc (words : List Nat) (x j : Nat) :
    bitAt (words ++ [x]) j =
      if j / 64 = words.length then x.testBit (j % 64) else bitAt words j := by
  by_cases here : j / 64 = words.length
  · rw [if_pos here, bitAt, here]
    simp
  · rw [if_neg here]
    by_cases before : j / 64 < words.length
    · rw [bitAt, bitAt, List.getD_append _ _ _ _ before]
    · have past : (words ++ [x]).length ≤ j / 64 := by
        rw [List.length_append, List.length_singleton]
        omega
      rw [bitAt_of_length_le past, bitAt_of_length_le (by omega)]

theorem bitAt_modify_or {words : List Nat} {k : Nat} (m : Nat) (h : k < words.length) (j : Nat) :
    bitAt (words.modify k (fun w => w ||| m)) j =
      (bitAt words j || (decide (j / 64 = k) && m.testBit (j % 64))) := by
  simp only [bitAt, List.getD_eq_getElem?_getD, List.getElem?_modify]
  by_cases here : j / 64 = k
  · subst here
    obtain ⟨w, hw⟩ : ∃ w, words[j / 64]? = some w := ⟨_, List.getElem?_eq_getElem h⟩
    simp [hw, Nat.testBit_or]
  · have off : ¬ k = j / 64 := fun e => here e.symm
    simp [here, off]

/-- The bits of a value that stay in its first word. -/
theorem testBit_shiftLeft_mod {v off i : Nat} (h : i < 64) :
    ((v <<< off) % 2 ^ 64).testBit i = (decide (off ≤ i) && v.testBit (i - off)) := by
  rw [Nat.testBit_mod_two_pow, Nat.testBit_shiftLeft, decide_eq_true h, Bool.true_and]

namespace Holds

variable {words : List Nat} {bits : List Bool} (holds : Holds words bits)
include holds

theorem bit_beyond {j : Nat} (h : bits.length ≤ j) : bitAt words j = false := by
  rw [holds.bit, List.getD_eq_default _ _ h]

/-- Room for the next bit, after a fresh word where the last one is full. -/
theorem grow : let grown := if bits.length / 64 = words.length then words ++ [0] else words
    bits.length / 64 < grown.length ∧ grown.length = bits.length / 64 + 1 ∧
      (∀ w ∈ grown, w < 2 ^ 64) ∧ ∀ j, bitAt grown j = bits.getD j false := by
  have count := holds.length
  unfold wordCount at count
  by_cases full : bits.length / 64 = words.length
  · simp only [if_pos full]
    refine ⟨by simp; omega, by simp; omega, ?_, ?_⟩
    · intro w hw
      rcases List.mem_append.mp hw with old | new
      · exact holds.small w old
      · rw [List.mem_singleton.mp new]
        exact Nat.two_pow_pos 64
    · intro j
      rw [bitAt_snoc, ← holds.bit]
      by_cases last : j / 64 = words.length
      · rw [if_pos last, Nat.zero_testBit, bitAt_of_length_le (by omega)]
      · rw [if_neg last]
  · simp only [if_neg full]
    exact ⟨by omega, by omega, holds.small, holds.bit⟩

end Holds

theorem lt_of_mem_modify_or {words : List Nat} {k m : Nat} (small : ∀ w ∈ words, w < 2 ^ 64)
    (hm : m < 2 ^ 64) : ∀ w ∈ words.modify k (fun w => w ||| m), w < 2 ^ 64 := by
  intro w hw
  obtain ⟨i, hi⟩ := List.getElem?_of_mem hw
  rw [List.getElem?_modify] at hi
  obtain ⟨w', hw', rfl⟩ := Option.map_eq_some_iff.mp hi
  have old := small w' (List.mem_of_getElem? hw')
  by_cases here : k = i
  · rw [if_pos here]
    exact Nat.or_lt_two_pow old hm
  · rw [if_neg here]
    exact old

/-- The stream with a value's bits after it. -/
theorem getD_append_lowBits {bits : List Bool} {width v : Nat} (fits : v < 2 ^ width) (j : Nat) :
    (bits ++ lowBits width v).getD j false =
      if j < bits.length then bits.getD j false else v.testBit (j - bits.length) := by
  by_cases before : j < bits.length
  · rw [if_pos before, List.getD_append _ _ _ _ before]
  · rw [if_neg before, List.getD_append_right _ _ _ _ (by omega), getD_lowBits fits]

/-- Pushing a value that fits its width appends its bits. -/
theorem Holds.pushBits {words : List Nat} {bits : List Bool} (holds : Holds words bits)
    {width v : Nat} (pos : 0 < width) (most : width ≤ 64) (fits : v < 2 ^ width) :
    Holds (pushBits words bits.length width v) (bits ++ lowBits width v) := by
  obtain ⟨inside, size, small, stream⟩ := holds.grow
  simp only [PackedBits.pushBits]
  generalize (if bits.length / 64 = words.length then words ++ [0] else words) = grown at *
  have past : ∀ k, width ≤ k → v.testBit k = false := by
    intro k hk
    exact Nat.testBit_lt_two_pow (lt_of_lt_of_le fits (Nat.pow_le_pow_right (by omega) hk))
  have or_small := lt_of_mem_modify_or (k := bits.length / 64) small
    (Nat.mod_lt (v <<< (bits.length % 64)) (Nat.two_pow_pos 64))
  have or_bit : ∀ j, bitAt (grown.modify (bits.length / 64)
      (fun w => w ||| (v <<< (bits.length % 64)) % 2 ^ 64)) j =
      if j < bits.length then bits.getD j false
      else decide (j / 64 = bits.length / 64) && v.testBit (j - bits.length) := by
    intro j
    rw [bitAt_modify_or _ inside, testBit_shiftLeft_mod (Nat.mod_lt _ (by omega)), stream]
    by_cases before : j < bits.length
    · rw [if_pos before]
      by_cases same : j / 64 = bits.length / 64
      · have below : ¬ bits.length % 64 ≤ j % 64 := by omega
        simp [below]
      · simp [same]
    · rw [if_neg before, List.getD_eq_default _ _ (by omega), Bool.false_or]
      by_cases same : j / 64 = bits.length / 64
      · have above : bits.length % 64 ≤ j % 64 := by omega
        have shift : j % 64 - bits.length % 64 = j - bits.length := by omega
        rw [decide_eq_true above, shift, Bool.true_and]
      · simp [same]
  by_cases straddles : 64 < bits.length % 64 + width
  · rw [if_pos straddles]
    refine ⟨?_, ?_, ?_⟩
    · simp only [List.length_append, List.length_modify, length_lowBits, size, wordCount,
        List.length_singleton]
      omega
    · intro w hw
      rcases List.mem_append.mp hw with old | new
      · exact or_small w old
      · rw [List.mem_singleton.mp new]
        have le : v >>> (64 - bits.length % 64) ≤ v := Nat.shiftRight_le v _
        exact lt_of_le_of_lt le (lt_of_lt_of_le fits (Nat.pow_le_pow_right (by omega) most))
    · intro j
      rw [bitAt_snoc, List.length_modify, size, or_bit, getD_append_lowBits fits]
      by_cases before : j < bits.length
      · rw [if_neg (by omega), if_pos before, if_pos before]
      · rw [if_neg before, if_neg before, Nat.testBit_shiftRight]
        by_cases next : j / 64 = bits.length / 64 + 1
        · have shift : 64 - bits.length % 64 + j % 64 = j - bits.length := by omega
          rw [if_pos next, shift]
        · rw [if_neg next]
          by_cases same : j / 64 = bits.length / 64
          · rw [decide_eq_true same, Bool.true_and]
          · rw [decide_eq_false same, Bool.false_and, past _ (by omega)]
  · rw [if_neg straddles]
    refine ⟨?_, or_small, ?_⟩
    · simp only [List.length_append, List.length_modify, length_lowBits, size, wordCount]
      omega
    · intro j
      rw [or_bit, getD_append_lowBits fits]
      by_cases before : j < bits.length
      · rw [if_pos before, if_pos before]
      · rw [if_neg before, if_neg before]
        by_cases same : j / 64 = bits.length / 64
        · rw [decide_eq_true same, Bool.true_and]
        · rw [decide_eq_false same, Bool.false_and, past _ (by omega)]

/-- The mask keeps the bits below the width. -/
theorem testBit_maskBits {width v : Nat} (small : ∀ k, 64 ≤ k → v.testBit k = false) (k : Nat) :
    (maskBits width v).testBit k = (decide (k < width) && v.testBit k) := by
  unfold maskBits
  by_cases whole : width = 64
  · rw [if_pos whole]
    by_cases hk : k < width
    · rw [decide_eq_true hk, Bool.true_and]
    · rw [small k (by omega), decide_eq_false hk, Bool.false_and]
  · rw [if_neg whole, Nat.testBit_and, Nat.one_shiftLeft, Nat.testBit_two_pow_sub_one,
      Bool.and_comm]

/-- Reading within the words gives the bits that stand there. -/
theorem readBits_spec {words : List Nat} {bit width : Nat} (pos : 0 < width) (most : width ≤ 64)
    (small : ∀ w ∈ words, w < 2 ^ 64) (inside : wordCount (bit + width) ≤ words.length) :
    ∃ v, readBits words bit width = some v ∧
      ∀ k, v.testBit k = (decide (k < width) && bitAt words (bit + k)) := by
  unfold wordCount at inside
  obtain ⟨low, hlow⟩ : ∃ w, words[bit / 64]? = some w :=
    ⟨_, List.getElem?_eq_getElem (show bit / 64 < words.length by omega)⟩
  have low_small := small low (List.mem_of_getElem? hlow)
  have low_bit : ∀ k, bit % 64 + k < 64 → bitAt words (bit + k) = low.testBit (bit % 64 + k) := by
    intro k hk
    have word : (bit + k) / 64 = bit / 64 := by omega
    have off : (bit + k) % 64 = bit % 64 + k := by omega
    rw [bitAt, word, off, List.getD_eq_getElem?_getD, hlow, Option.getD_some]
  have low_past : ∀ k, 64 ≤ bit % 64 + k → low.testBit (bit % 64 + k) = false := by
    intro k hk
    exact Nat.testBit_lt_two_pow (lt_of_lt_of_le low_small (Nat.pow_le_pow_right (by omega) hk))
  have of_bits : ∀ v, (∀ k, k < width → v.testBit k = bitAt words (bit + k)) →
      (∀ k, 64 ≤ k → v.testBit k = false) →
      ∀ k, (maskBits width v).testBit k = (decide (k < width) && bitAt words (bit + k)) := by
    intro v same beyond k
    rw [testBit_maskBits beyond]
    by_cases hk : k < width
    · rw [same k hk]
    · rw [decide_eq_false hk, Bool.false_and, Bool.false_and]
  by_cases straddles : 64 < bit % 64 + width
  · obtain ⟨high, hhigh⟩ : ∃ w, words[bit / 64 + 1]? = some w :=
      ⟨_, List.getElem?_eq_getElem (show bit / 64 + 1 < words.length by omega)⟩
    have read : readBits words bit width =
        some (maskBits width (low >>> (bit % 64) ||| (high <<< (64 - bit % 64)) % 2 ^ 64)) := by
      simp only [readBits, hlow, hhigh, if_pos straddles]
      rfl
    refine ⟨_, read, of_bits _ ?_ ?_⟩
    · intro k hk
      rw [Nat.testBit_or, Nat.testBit_shiftRight, testBit_shiftLeft_mod (by omega)]
      by_cases first : bit % 64 + k < 64
      · have not_yet : ¬ 64 - bit % 64 ≤ k := by omega
        rw [low_bit k first, decide_eq_false not_yet, Bool.false_and, Bool.or_false]
      · have word : (bit + k) / 64 = bit / 64 + 1 := by omega
        have off : (bit + k) % 64 = k - (64 - bit % 64) := by omega
        have reached : 64 - bit % 64 ≤ k := by omega
        rw [low_past k (by omega), decide_eq_true reached, Bool.true_and, Bool.false_or, bitAt,
          word, off, List.getD_eq_getElem?_getD, hhigh, Option.getD_some]
    · intro k hk
      have cut : ¬ k < 64 := by omega
      rw [Nat.testBit_or, Nat.testBit_shiftRight, low_past k (by omega), Nat.testBit_mod_two_pow,
        decide_eq_false cut, Bool.false_and, Bool.false_or]
  · have read : readBits words bit width = some (maskBits width (low >>> (bit % 64))) := by
      simp only [readBits, hlow, if_neg straddles]
      rfl
    refine ⟨_, read, of_bits _ ?_ ?_⟩
    · intro k hk
      rw [Nat.testBit_shiftRight, low_bit k (by omega)]
    · intro k hk
      rw [Nat.testBit_shiftRight, low_past k (by omega)]

/-- Reading where a value's bits stand gives the value. -/
theorem Holds.readBits {words : List Nat} {bits : List Bool} (holds : Holds words bits)
    {bit width v : Nat} (pos : 0 < width) (most : width ≤ 64) (fits : v < 2 ^ width)
    (inside : bit + width ≤ bits.length)
    (here : ∀ k, k < width → bits.getD (bit + k) false = v.testBit k) :
    readBits words bit width = some v := by
  have room : wordCount (bit + width) ≤ words.length := by
    rw [holds.length]
    unfold wordCount
    omega
  obtain ⟨u, read, spec⟩ := readBits_spec pos most holds.small room
  have same : u = v := by
    apply Nat.eq_of_testBit_eq
    intro k
    rw [spec, holds.bit]
    by_cases hk : k < width
    · rw [here k hk, decide_eq_true hk, Bool.true_and]
    · rw [decide_eq_false hk, Bool.false_and]
      exact (Nat.testBit_lt_two_pow
        (lt_of_lt_of_le fits (Nat.pow_le_pow_right (by omega) (by omega)))).symm
  rw [read, same]

/-- The last word has no bit past the end of the stream. -/
theorem Holds.padding {words : List Nat} {bits : List Bool} (holds : Holds words bits)
    (partial_ : bits.length % 64 ≠ 0) {last : Nat} (h : words.getLast? = some last) :
    last >>> (bits.length % 64) = 0 := by
  have nonempty : words ≠ [] := by
    intro empty
    rw [empty] at h
    cases h
  have size := holds.length
  unfold wordCount at size
  have place : words[bits.length / 64]? = some last := by
    rw [List.getLast?_eq_getElem?, size] at h
    rw [← h]
    congr 1
    omega
  have last_small := holds.small last (List.mem_of_getElem? place)
  apply Nat.eq_of_testBit_eq
  intro k
  rw [Nat.testBit_shiftRight, Nat.zero_testBit]
  by_cases inside : bits.length % 64 + k < 64
  · have word : (64 * (bits.length / 64) + (bits.length % 64 + k)) / 64 = bits.length / 64 := by
      omega
    have off : (64 * (bits.length / 64) + (bits.length % 64 + k)) % 64 = bits.length % 64 + k := by
      omega
    have beyond := holds.bit_beyond
      (show bits.length ≤ 64 * (bits.length / 64) + (bits.length % 64 + k) by omega)
    rwa [bitAt, word, off, List.getD_eq_getElem?_getD, place, Option.getD_some] at beyond
  · exact Nat.testBit_lt_two_pow
      (lt_of_lt_of_le last_small (Nat.pow_le_pow_right (by omega) (by omega)))

theorem holds_nil : Holds [] [] := by
  refine ⟨rfl, ?_, ?_⟩
  · intro w hw
    cases hw
  · intro j
    exact bitAt_of_length_le (Nat.zero_le _)

end PackedBits

end Graphy
