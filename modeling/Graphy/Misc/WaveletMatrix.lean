import Graphy.Misc.BitVector
import Graphy.Misc.Search

/-!
# Wavelet matrix

A sequence of symbols of a fixed bit width, stored as one bit vector per bit,
most significant first.  Each level is stably partitioned by the bits of the
level before it, zeros left and ones right.  Only the low `width` bits of a
symbol take part in any operation.
-/

namespace Graphy

open BitVector

/-- Number of bits that hold every value up to `max`. -/
def bitsFor (max : Nat) : Nat := if max = 0 then 0 else Nat.log2 max + 1

/-- One level: the bits, and the number of zeros among them. -/
structure WaveletLevel where
  bits : List Bool
  zeros : Nat
deriving DecidableEq, Repr

structure WaveletMatrix where
  width : Nat
  len : Nat
  levels : List WaveletLevel
deriving DecidableEq, Repr

namespace WaveletMatrix

/-- Levels for the low `width` bits of the values. -/
def buildLevels : Nat → List Nat → List WaveletLevel
  | 0, _ => []
  | width + 1, cur =>
      { bits := cur.map fun v => v.testBit width
        zeros := (cur.map fun v => v.testBit width).count false } ::
      buildLevels width
        (cur.filter (fun v => !v.testBit width) ++ cur.filter (fun v => v.testBit width))

def new (values : List Nat) (width : Nat) : WaveletMatrix where
  width := width
  len := values.length
  levels := buildLevels width values

/-- Where position `i` of a level goes on the next level, for a one or a zero. -/
def WaveletLevel.next (level : WaveletLevel) (bit : Bool) (i : Nat) : Nat :=
  if bit then level.zeros + rank1 level.bits i else rank0 level.bits i

def accessFrom : List WaveletLevel → Nat → Nat
  | [], _ => 0
  | level :: rest, i =>
      let bit := level.bits.getD i false
      (if bit then 2 ^ rest.length else 0) + accessFrom rest (WaveletLevel.next level bit i)

/-- The symbol at position `i`. -/
def access (wm : WaveletMatrix) (i : Nat) : Nat := accessFrom wm.levels i

def rankFrom : List WaveletLevel → Nat → Nat → Nat → Nat
  | [], _, l, r => r - l
  | level :: rest, sym, l, r =>
      let bit := sym.testBit rest.length
      rankFrom rest sym (WaveletLevel.next level bit l) (WaveletLevel.next level bit r)

/-- Occurrences of `sym` in `[0, i)`. -/
def rank (wm : WaveletMatrix) (sym i : Nat) : Nat := rankFrom wm.levels sym 0 i

/-- Descend to the bucket of `sym`, then invert each level's mapping. -/
def selectFrom : List WaveletLevel → Nat → Nat → Nat → Nat → Option Nat
  | [], _, l, r, k => if k < r - l then some (l + k) else none
  | level :: rest, sym, l, r, k =>
      let bit := sym.testBit rest.length
      match selectFrom rest sym (WaveletLevel.next level bit l) (WaveletLevel.next level bit r) k with
      | none => none
      | some pos =>
          if bit then select1 level.bits (pos - level.zeros) else select0 level.bits pos

/-- Position of the `k`-th occurrence of `sym`. -/
def select (wm : WaveletMatrix) (sym k : Nat) : Option Nat :=
  selectFrom wm.levels sym 0 wm.len k

/-! ## One level -/

/-- Stable partition by a bit: the clear ones, then the set ones. -/
def partitioned (p : Nat → Bool) (cur : List Nat) : List Nat :=
  cur.filter (fun v => !p v) ++ cur.filter p

/-- The level of the sequence for one bit. -/
def levelOf (p : Nat → Bool) (cur : List Nat) : WaveletLevel where
  bits := cur.map p
  zeros := (cur.map p).count false

theorem buildLevels_succ (width : Nat) (cur : List Nat) :
    buildLevels (width + 1) cur = levelOf (fun v => v.testBit width) cur ::
      buildLevels width (partitioned (fun v => v.testBit width) cur) := rfl

@[simp] theorem length_buildLevels (width : Nat) (cur : List Nat) :
    (buildLevels width cur).length = width := by
  induction width generalizing cur with
  | zero => rfl
  | succ width ih => rw [buildLevels_succ, List.length_cons, ih]

section Level

variable {p : Nat → Bool} {cur : List Nat}

@[simp] theorem length_partitioned : (partitioned p cur).length = cur.length := by
  have := List.length_eq_countP_add_countP p (l := cur)
  simp only [partitioned, List.length_append, ← List.countP_eq_length_filter]
  simp only [Bool.not_eq_true] at this
  have eq : (cur.countP fun v => !p v) = cur.countP fun v => decide (p v = false) := by
    congr 1
    funext v
    cases p v <;> rfl
  omega

theorem zeros_levelOf : (levelOf p cur).zeros = cur.countP fun v => !p v := by
  simp only [levelOf, List.count, List.countP_map]
  congr 1
  funext v
  cases h : p v <;> simp [h]

theorem rank1_map (i : Nat) : rank1 (cur.map p) i = (cur.take i).countP p := by
  simp only [rank1, ← List.map_take, List.count, List.countP_map]
  congr 1
  funext v
  cases h : p v <;> simp [h]

theorem rank0_map {i : Nat} (h : i ≤ cur.length) :
    rank0 (cur.map p) i = (cur.take i).countP fun v => !p v := by
  have total : (partitioned p (cur.take i)).length = (cur.take i).length := length_partitioned
  simp only [partitioned, List.length_append, ← List.countP_eq_length_filter,
    List.length_take] at total
  rw [rank0, rank1_map]
  omega

/-- Elements with the bit before position `i`, on top of the zeros for a one. -/
theorem next_eq (bit : Bool) {i : Nat} (h : i ≤ cur.length) :
    WaveletLevel.next (levelOf p cur) bit i =
      (if bit then cur.countP fun v => !p v else 0) +
        (cur.take i).countP fun v => decide (p v = bit) := by
  cases bit with
  | true =>
      simp only [WaveletLevel.next, if_true, zeros_levelOf]
      rw [levelOf, rank1_map]
      simp
  | false =>
      simp only [WaveletLevel.next, Bool.false_eq_true, if_false, Nat.zero_add]
      rw [levelOf, rank0_map h]
      congr 1
      funext v
      cases h : p v <;> rfl

theorem next_mono (bit : Bool) {i j : Nat} (h : i ≤ j) (hj : j ≤ cur.length) :
    WaveletLevel.next (levelOf p cur) bit i ≤ WaveletLevel.next (levelOf p cur) bit j := by
  rw [next_eq bit (h.trans hj), next_eq bit hj]
  exact Nat.add_le_add_left ((List.take_sublist_take_left h).countP_le) _

theorem next_le_length (bit : Bool) {i : Nat} (h : i ≤ cur.length) :
    WaveletLevel.next (levelOf p cur) bit i ≤ (partitioned p cur).length := by
  refine (next_mono bit h le_rfl).trans ?_
  rw [next_eq _ le_rfl, List.take_length]
  simp only [partitioned, List.length_append, ← List.countP_eq_length_filter]
  cases bit
  · simp
  · simp

theorem next_succ (bit : Bool) {i v : Nat} (h : cur[i]? = some v) :
    WaveletLevel.next (levelOf p cur) bit (i + 1) =
      WaveletLevel.next (levelOf p cur) bit i + if p v = bit then 1 else 0 := by
  have bound := (List.getElem?_eq_some_iff.mp h).1
  rw [next_eq bit bound, next_eq bit bound.le, List.take_add_one, h, List.countP_append]
  by_cases same : p v = bit
  · simp [same, Nat.add_assoc]
  · simp [same]

/-- The elements of a stretch with the bit are a stretch of the partition. -/
theorem slice_partitioned (bit : Bool) {l r : Nat} (h : l ≤ r) (hr : r ≤ cur.length) :
    slice (partitioned p cur) (WaveletLevel.next (levelOf p cur) bit l)
        (WaveletLevel.next (levelOf p cur) bit r) =
      (slice cur l r).filter fun v => decide (p v = bit) := by
  have whole : cur = cur.take l ++ slice cur l r ++ cur.drop r := by
    have first : cur.take l = slice cur 0 l := by simp [slice]
    have last : cur.drop r = slice cur r cur.length := by
      rw [slice, List.take_of_length_le (by simp)]
    rw [first, last, ← slice_append (Nat.zero_le l) h, ← slice_append (Nat.zero_le r) hr,
      slice_zero _ le_rfl]
  have upto : cur.take r = cur.take l ++ slice cur l r := by
    have first (n : Nat) : cur.take n = slice cur 0 n := by simp [slice]
    rw [first, first, ← slice_append (Nat.zero_le l) h]
  have middle (a b c : List Nat) : slice (a ++ b ++ c) a.length (a.length + b.length) = b := by
    simp [slice, List.append_assoc]
  rw [next_eq bit (h.trans hr), next_eq bit hr, upto, List.countP_append]
  simp only [List.countP_eq_length_filter]
  cases bit with
  | false =>
      simp only [Bool.false_eq_true, if_false, Nat.zero_add]
      have eq : partitioned p cur = (cur.take l).filter (fun v => decide (p v = false)) ++
          (slice cur l r).filter (fun v => decide (p v = false)) ++
          ((cur.drop r).filter (fun v => decide (p v = false)) ++ cur.filter p) := by
        have neg : (fun v => !p v) = fun v => decide (p v = false) := by
          funext v
          cases p v <;> rfl
        rw [partitioned, neg, ← List.append_assoc]
        congr 1
        conv_lhs => rw [whole]
        simp only [List.filter_append]
      rw [eq, middle]
  | true =>
      simp only [if_true, ← Nat.add_assoc]
      have eq : partitioned p cur = (cur.filter (fun v => !p v) ++
          (cur.take l).filter (fun v => decide (p v = true))) ++
          (slice cur l r).filter (fun v => decide (p v = true)) ++
          (cur.drop r).filter (fun v => decide (p v = true)) := by
        have pos : p = fun v => decide (p v = true) := by
          funext v
          cases h : p v <;> rfl
        rw [partitioned, List.append_assoc, List.append_assoc]
        congr 1
        conv_lhs => rw [whole]
        rw [← pos]
        simp only [List.filter_append, List.append_assoc]
      rw [eq, ← List.length_append, middle]

/-- Where an element goes. -/
theorem partitioned_next {i v : Nat} (h : cur[i]? = some v) :
    (partitioned p cur)[WaveletLevel.next (levelOf p cur) (p v) i]? = some v := by
  have bound := (List.getElem?_eq_some_iff.mp h).1
  have one := slice_partitioned (p := p) (p v) (Nat.le_succ i) bound
  rw [slice_eq_cons (Nat.lt_succ_self i) h, slice_self, List.filter_cons_of_pos (by simp),
    List.filter_nil] at one
  have mem : v ∈ slice (partitioned p cur) (WaveletLevel.next (levelOf p cur) (p v) i)
      (WaveletLevel.next (levelOf p cur) (p v) (i + 1)) := by rw [one]; exact List.mem_singleton_self v
  obtain ⟨j, lo, hi, get⟩ := mem_slice.mp mem
  rw [next_succ (p v) h, if_pos rfl] at hi
  rw [show WaveletLevel.next (levelOf p cur) (p v) i = j by omega]
  exact get

end Level

/-! ## All levels -/

theorem mod_two_pow_succ (v width : Nat) :
    v % 2 ^ (width + 1) = (if v.testBit width then 2 ^ width else 0) + v % 2 ^ width := by
  rw [Nat.mod_pow_succ, Nat.testBit_eq_decide_div_mod_eq, Nat.add_comm]
  rcases Nat.mod_two_eq_zero_or_one (v / 2 ^ width) with h | h <;> simp [h]

/-- Two symbols agree on one more bit when they agree on it and on the bits below. -/
theorem sameLow_succ (a b width : Nat) :
    a % 2 ^ (width + 1) = b % 2 ^ (width + 1) ↔
      a.testBit width = b.testBit width ∧ a % 2 ^ width = b % 2 ^ width := by
  have ha := Nat.mod_lt a (Nat.two_pow_pos width)
  have hb := Nat.mod_lt b (Nat.two_pow_pos width)
  rw [mod_two_pow_succ, mod_two_pow_succ]
  cases a.testBit width <;> cases b.testBit width <;> simp <;> omega

theorem accessFrom_buildLevels {width : Nat} {cur : List Nat} {i v : Nat} (h : cur[i]? = some v) :
    accessFrom (buildLevels width cur) i = v % 2 ^ width := by
  induction width generalizing cur i with
  | zero => simp [buildLevels, accessFrom, Nat.mod_one]
  | succ width ih =>
      have bit : (levelOf (fun v => v.testBit width) cur).bits.getD i false = v.testBit width := by
        simp [levelOf, List.getD_eq_getElem?_getD, h]
      rw [buildLevels_succ, accessFrom, bit, ih (partitioned_next h), length_buildLevels,
        mod_two_pow_succ]

/-- Number of symbols of a stretch that agree with `sym` on the low bits. -/
def countLow (width sym : Nat) (l : List Nat) : Nat :=
  l.countP fun v => decide (v % 2 ^ width = sym % 2 ^ width)

theorem countLow_succ (width sym : Nat) (l : List Nat) :
    countLow (width + 1) sym l =
      countLow width sym (l.filter fun v => decide (v.testBit width = sym.testBit width)) := by
  simp only [countLow, List.countP_filter]
  congr 1
  funext v
  rw [← Bool.decide_and]
  exact decide_eq_decide.mpr ((sameLow_succ v sym width).trans and_comm)

theorem rankFrom_buildLevels {width sym : Nat} {cur : List Nat} {l r : Nat} (h : l ≤ r)
    (hr : r ≤ cur.length) :
    rankFrom (buildLevels width cur) sym l r = countLow width sym (slice cur l r) := by
  induction width generalizing cur l r with
  | zero =>
      have all : countLow 0 sym (slice cur l r) = (slice cur l r).length := by
        simp [countLow, Nat.mod_one]
      rw [all]
      simp only [buildLevels, rankFrom, slice, List.length_take, List.length_drop]
      omega
  | succ width ih =>
      have le := next_mono (p := fun v => v.testBit width) (sym.testBit width) h hr
      have bound := next_le_length (p := fun v => v.testBit width) (sym.testBit width) hr
      rw [buildLevels_succ, rankFrom, length_buildLevels, ih le bound,
        slice_partitioned _ h hr, countLow_succ]

/-- Inverting the mapping of one level finds the position that went there. -/
theorem select_level {p : Nat → Bool} {cur : List Nat} {bit : Bool} {pos pos' : Nat}
    (zeros : bit = true → (levelOf p cur).zeros ≤ pos') :
    (if bit then select1 (levelOf p cur).bits (pos' - (levelOf p cur).zeros)
      else select0 (levelOf p cur).bits pos') = some pos ↔
        (∃ v, cur[pos]? = some v ∧ p v = bit) ∧ WaveletLevel.next (levelOf p cur) bit pos = pos' := by
  have get (b : Bool) : (levelOf p cur).bits[pos]? = some b ↔ ∃ v, cur[pos]? = some v ∧ p v = b := by
    simp [levelOf, List.getElem?_map]
  cases bit with
  | true =>
      have := zeros rfl
      rw [if_pos rfl, select1_eq_some_iff, get]
      refine and_congr Iff.rfl ?_
      simp only [WaveletLevel.next, if_true]
      omega
  | false =>
      rw [if_neg (by simp), select0_eq_some_iff, get]
      rfl

theorem selectFrom_buildLevels {width sym : Nat} {cur : List Nat} {l r k pos : Nat} (h : l ≤ r)
    (hr : r ≤ cur.length) :
    selectFrom (buildLevels width cur) sym l r k = some pos ↔
      l ≤ pos ∧ pos < r ∧ (∃ v, cur[pos]? = some v ∧ v % 2 ^ width = sym % 2 ^ width) ∧
        countLow width sym (slice cur l pos) = k := by
  induction width generalizing cur l r pos with
  | zero =>
      have all (i : Nat) (hi : i ≤ cur.length) : countLow 0 sym (slice cur l i) = i - l := by
        have : countLow 0 sym (slice cur l i) = (slice cur l i).length := by
          simp [countLow, Nat.mod_one]
        rw [this, slice, List.length_take, List.length_drop]
        omega
      simp only [buildLevels, selectFrom, Nat.pow_zero, Nat.mod_one, and_true]
      constructor
      · intro found
        split at found
        · cases found
          refine ⟨by omega, by omega, ⟨cur.get ⟨l + k, by omega⟩, List.getElem?_eq_getElem _⟩, ?_⟩
          rw [all _ (by omega)]
          omega
        · cases found
      · rintro ⟨lo, hi, -, rank⟩
        rw [all pos (by omega)] at rank
        rw [if_pos (by omega)]
        congr 1
        omega
  | succ width ih =>
      let p : Nat → Bool := fun v => v.testBit width
      let bit := sym.testBit width
      have le := next_mono (p := p) bit h hr
      have bound := next_le_length (p := p) bit hr
      have low : bit = true → (levelOf p cur).zeros ≤ WaveletLevel.next (levelOf p cur) bit l := by
        intro one
        rw [next_eq bit (h.trans hr), one, zeros_levelOf]
        exact Nat.le_add_right _ _
      have split : selectFrom (buildLevels (width + 1) cur) sym l r k = some pos ↔
          ∃ pos', selectFrom (buildLevels width (partitioned p cur)) sym
              (WaveletLevel.next (levelOf p cur) bit l)
              (WaveletLevel.next (levelOf p cur) bit r) k = some pos' ∧
            (if bit then select1 (levelOf p cur).bits (pos' - (levelOf p cur).zeros)
              else select0 (levelOf p cur).bits pos') = some pos := by
        rw [buildLevels_succ, selectFrom, length_buildLevels]
        cases selectFrom (buildLevels width (partitioned p cur)) sym
          (WaveletLevel.next (levelOf p cur) bit l) (WaveletLevel.next (levelOf p cur) bit r) k with
        | none => simp
        | some pos' => simp [bit, p]
      rw [split]
      constructor
      · rintro ⟨pos', found, inverted⟩
        obtain ⟨lo, hi, ⟨v', get', same'⟩, rank⟩ := (ih le bound).mp found
        obtain ⟨⟨v, get, hv⟩, goes⟩ :=
          (select_level fun one => (low one).trans lo).mp inverted
        have inside := (List.getElem?_eq_some_iff.mp get).1
        have lands := partitioned_next (p := p) get
        rw [hv, goes, get'] at lands
        cases lands
        have lpos : l ≤ pos := by
          by_contra lt
          have := next_mono (p := p) bit (show pos + 1 ≤ l by omega) (h.trans hr)
          rw [next_succ bit get, if_pos hv] at this
          omega
        have rpos : pos < r := by
          by_contra ge
          have := next_mono (p := p) bit (show r ≤ pos by omega) inside.le
          omega
        refine ⟨lpos, rpos, ⟨_, get, (sameLow_succ _ sym width).mpr ⟨hv, same'⟩⟩, ?_⟩
        rw [countLow_succ, ← slice_partitioned bit lpos inside.le, goes]
        exact rank
      · rintro ⟨lo, hi, ⟨v, get, same⟩, rank⟩
        have inside := (List.getElem?_eq_some_iff.mp get).1
        obtain ⟨hv, same'⟩ := (sameLow_succ v sym width).mp same
        have lands := partitioned_next (p := p) get
        have hv : p v = bit := hv
        rw [hv] at lands
        have lo' := next_mono (p := p) bit lo inside.le
        refine ⟨WaveletLevel.next (levelOf p cur) bit pos,
          (ih le bound).mpr ⟨lo', ?_, ⟨v, lands, same'⟩, ?_⟩,
          (select_level fun one => (low one).trans lo').mpr ⟨⟨v, get, hv⟩, rfl⟩⟩
        · have := next_mono (p := p) bit (show pos + 1 ≤ r by omega) hr
          rw [next_succ bit get, if_pos hv] at this
          omega
        · rw [slice_partitioned bit lo inside.le, ← countLow_succ]
          exact rank

/-! ## The matrix of a sequence -/

/-- The symbol at a position, as far as the width goes. -/
theorem access_new {values : List Nat} {width i v : Nat} (h : values[i]? = some v) :
    (new values width).access i = v % 2 ^ width := accessFrom_buildLevels h

/-- Occurrences before a position, of any symbol with the same low bits. -/
theorem rank_new {values : List Nat} {width sym i : Nat} (h : i ≤ values.length) :
    (new values width).rank sym i = countLow width sym (values.take i) := by
  rw [rank, new, rankFrom_buildLevels (Nat.zero_le i) h]
  simp [slice]

/-- The `k`-th position of a symbol with the same low bits. -/
theorem select_new {values : List Nat} {width sym k pos : Nat} :
    (new values width).select sym k = some pos ↔
      (∃ v, values[pos]? = some v ∧ v % 2 ^ width = sym % 2 ^ width) ∧
        countLow width sym (values.take pos) = k := by
  rw [select, new, selectFrom_buildLevels (Nat.zero_le _) le_rfl]
  have prefix_ : slice values 0 pos = values.take pos := by simp [slice]
  rw [prefix_]
  constructor
  · rintro ⟨-, -, rest⟩
    exact rest
  · rintro ⟨⟨v, get, same⟩, rank⟩
    exact ⟨Nat.zero_le _, (List.getElem?_eq_some_iff.mp get).1, ⟨v, get, same⟩, rank⟩

/-- Every occurrence counted is found at its place. -/
theorem exists_countP_take {α : Type} {p : α → Bool} {l : List α} {k : Nat} (h : k < l.countP p) :
    ∃ pos a, l[pos]? = some a ∧ p a = true ∧ (l.take pos).countP p = k := by
  induction l generalizing k with
  | nil => simp at h
  | cons a l ih =>
      by_cases here : p a = true
      · rw [List.countP_cons_of_pos here] at h
        cases k with
        | zero => exact ⟨0, a, rfl, here, rfl⟩
        | succ k =>
            obtain ⟨pos, b, get, hb, count⟩ := ih (by omega : k < l.countP p)
            refine ⟨pos + 1, b, by simpa using get, hb, ?_⟩
            rw [List.take_succ_cons, List.countP_cons_of_pos here, count]
      · rw [List.countP_cons_of_neg here] at h
        obtain ⟨pos, b, get, hb, count⟩ := ih h
        refine ⟨pos + 1, b, by simpa using get, hb, ?_⟩
        rw [List.take_succ_cons, List.countP_cons_of_neg here, count]

/-- Every occurrence below the rank of a symbol is selected. -/
theorem exists_select {values : List Nat} {width sym k : Nat}
    (h : k < (new values width).rank sym values.length) :
    ∃ pos, (new values width).select sym k = some pos := by
  rw [rank_new (le_refl _), List.take_length] at h
  obtain ⟨pos, v, get, low, count⟩ := exists_countP_take h
  exact ⟨pos, select_new.mpr ⟨⟨v, get, of_decide_eq_true low⟩, count⟩⟩

/-- An occurrence is counted past its position. -/
theorem countLow_take_lt {values : List Nat} {width sym pos v : Nat} (get : values[pos]? = some v)
    (low : v % 2 ^ width = sym % 2 ^ width) :
    countLow width sym (values.take pos) < countLow width sym values := by
  have next : countLow width sym (values.take (pos + 1)) =
      countLow width sym (values.take pos) + 1 := by
    simp [countLow, List.take_add_one, get, low]
  have mono : countLow width sym (values.take (pos + 1)) ≤ countLow width sym values :=
    (List.take_sublist _ _).countP_le
  omega

/-- Every position of a symbol is selected below its rank. -/
theorem select_of_get {values : List Nat} {width sym pos v : Nat} (get : values[pos]? = some v)
    (low : v % 2 ^ width = sym % 2 ^ width) :
    ∃ k, k < (new values width).rank sym values.length ∧
      (new values width).select sym k = some pos := by
  refine ⟨countLow width sym (values.take pos), ?_, select_new.mpr ⟨⟨v, get, low⟩, rfl⟩⟩
  rw [rank_new (le_refl _), List.take_length]
  exact countLow_take_lt get low

/-- Later occurrences are selected at later positions. -/
theorem select_lt {values : List Nat} {width sym k k' pos pos' : Nat} (lt : k < k')
    (h : (new values width).select sym k = some pos)
    (h' : (new values width).select sym k' = some pos') : pos < pos' := by
  by_contra ge
  have count := (select_new.mp h).2
  have count' := (select_new.mp h').2
  have mono : countLow width sym (values.take pos') ≤ countLow width sym (values.take pos) :=
    (List.take_sublist_take_left (Nat.not_lt.mp ge)).countP_le
  omega

/-- A width from the largest value keeps every value whole. -/
theorem lt_two_pow_bitsFor {max v : Nat} (h : v ≤ max) : v < 2 ^ bitsFor max := by
  simp only [bitsFor]
  split
  · omega
  · exact lt_of_le_of_lt h Nat.lt_log2_self

end WaveletMatrix

end Graphy
