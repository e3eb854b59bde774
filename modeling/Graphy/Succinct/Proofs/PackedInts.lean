import Graphy.Succinct.PackedInts

/-!
# Packing keeps the values

The words hold the bits of the values one after another, so a packed sequence reads
back as what was pushed, and its parts pass the checks of reassembly.
-/

namespace Graphy

open PackedBits

theorem bitsFor_le {max n : Nat} (h : max < 2 ^ n) : bitsFor max ≤ n := by
  unfold bitsFor
  by_cases zero : max = 0
  · rw [if_pos zero]
    exact Nat.zero_le n
  · rw [if_neg zero]
    exact (Nat.log2_lt zero).mpr h

theorem le_foldl_max {vs : List Nat} {init v : Nat} (h : v ≤ init ∨ v ∈ vs) :
    v ≤ vs.foldl max init := by
  induction vs generalizing init with
  | nil => simpa using h
  | cons u vs ih =>
      rw [List.foldl_cons]
      apply ih
      rcases h with below | member
      · exact Or.inl (le_trans below (le_max_left _ _))
      · rcases List.mem_cons.mp member with rfl | later
        · exact Or.inl (le_max_right _ _)
        · exact Or.inr later

theorem foldl_max_lt {vs : List Nat} {init n : Nat} (hi : init < n) (h : ∀ v ∈ vs, v < n) :
    vs.foldl max init < n := by
  induction vs generalizing init with
  | nil => exact hi
  | cons u vs ih =>
      exact ih (max_lt hi (h u List.mem_cons_self)) fun v hv => h v (List.mem_cons_of_mem _ hv)

theorem length_flatMap_lowBits (width : Nat) (vs : List Nat) :
    (vs.flatMap (lowBits width)).length = vs.length * width := by
  induction vs with
  | nil => simp
  | cons v vs ih => rw [List.flatMap_cons, List.length_append, ih, length_lowBits,
      List.length_cons, Nat.add_mul, Nat.one_mul, Nat.add_comm]

theorem getD_flatMap_lowBits {width : Nat} {vs : List Nat} (fits : ∀ v ∈ vs, v < 2 ^ width)
    {i v : Nat} (hv : vs[i]? = some v) {k : Nat} (hk : k < width) :
    (vs.flatMap (lowBits width)).getD (i * width + k) false = v.testBit k := by
  induction vs generalizing i with
  | nil => cases hv
  | cons u vs ih =>
      rw [List.flatMap_cons]
      cases i with
      | zero =>
          rw [List.getElem?_cons_zero, Option.some.injEq] at hv
          rw [Nat.zero_mul, Nat.zero_add, List.getD_append _ _ _ _ (by simpa using hk),
            getD_lowBits (fits u List.mem_cons_self), hv]
      | succ i =>
          have shift : (i + 1) * width + k - width = i * width + k := by
            rw [Nat.add_mul]
            omega
          have past : (lowBits width u).length ≤ (i + 1) * width + k := by
            rw [length_lowBits, Nat.add_mul]
            omega
          rw [List.getD_append_right _ _ _ _ past, length_lowBits, shift]
          exact ih (fun v hv => fits v (List.mem_cons_of_mem _ hv)) hv

namespace PackedInts

/-- The sequence packs these values. -/
structure Packs (p : PackedInts) (vs : List Nat) : Prop where
  len : p.len = vs.length
  data : Holds p.data (vs.flatMap (lowBits p.width))

theorem packs_push {p : PackedInts} {vs : List Nat} (packs : p.Packs vs) {v : Nat}
    (most : p.width ≤ 64) (fits : v < 2 ^ p.width) : (p.push v).Packs (vs ++ [v]) := by
  unfold push
  by_cases zero : p.width = 0
  · rw [if_pos zero]
    refine ⟨by simp [packs.len], ?_⟩
    have same : (vs ++ [v]).flatMap (lowBits p.width) = vs.flatMap (lowBits p.width) := by
      simp [zero, lowBits]
    exact same ▸ packs.data
  · rw [if_neg zero]
    refine ⟨by simp [packs.len], ?_⟩
    have size : p.len * p.width = (vs.flatMap (lowBits p.width)).length := by
      rw [length_flatMap_lowBits, packs.len]
    have grown := packs.data.pushBits (Nat.pos_of_ne_zero zero) most fits
    rw [← size] at grown
    simpa using grown

@[simp] theorem width_push (p : PackedInts) (v : Nat) : (p.push v).width = p.width := by
  unfold push
  split <;> rfl

theorem packs_foldl {p : PackedInts} {done vs : List Nat} (packs : p.Packs done)
    (most : p.width ≤ 64) (fits : ∀ v ∈ vs, v < 2 ^ p.width) :
    (vs.foldl push p).Packs (done ++ vs) ∧ (vs.foldl push p).width = p.width := by
  induction vs generalizing p done with
  | nil => exact ⟨by simpa using packs, rfl⟩
  | cons v vs ih =>
      have step := packs_push packs most (fits v List.mem_cons_self)
      have rest := ih step (by simpa using most)
        (fun u hu => by simpa using fits u (List.mem_cons_of_mem _ hu))
      simpa using rest

theorem packs_withWidth {vs : List Nat} {width : Nat} (most : width ≤ 64)
    (fits : ∀ v ∈ vs, v < 2 ^ width) : (withWidth vs width).Packs vs := by
  have start : (⟨width, 0, []⟩ : PackedInts).Packs [] := ⟨rfl, holds_nil⟩
  have packs := (packs_foldl start most fits).1
  rwa [List.nil_append] at packs

theorem width_withWidth (vs : List Nat) (width : Nat) : (withWidth vs width).width = width := by
  have same : ∀ p : PackedInts, (vs.foldl push p).width = p.width := by
    induction vs with
    | nil => exact fun p => rfl
    | cons v vs ih => exact fun p => (ih (p.push v)).trans (width_push p v)
  exact same _

theorem Packs.get {p : PackedInts} {vs : List Nat} (packs : p.Packs vs) (most : p.width ≤ 64)
    (fits : ∀ v ∈ vs, v < 2 ^ p.width) (i : Nat) : p.get i = vs[i]? := by
  unfold PackedInts.get
  by_cases inside : i < p.len
  · have bound : i < vs.length := packs.len ▸ inside
    have hv : vs[i]? = some vs[i] := List.getElem?_eq_getElem bound
    have small := fits _ (List.mem_of_getElem? hv)
    rw [if_pos inside, hv]
    by_cases zero : p.width = 0
    · rw [if_pos zero]
      rw [zero, Nat.pow_zero] at small
      congr 1
      omega
    · rw [if_neg zero]
      apply packs.data.readBits (Nat.pos_of_ne_zero zero) most small
      · rw [length_flatMap_lowBits, ← packs.len, ← Nat.succ_mul]
        exact Nat.mul_le_mul_right _ inside
      · exact fun k hk => getD_flatMap_lowBits fits hv hk
  · rw [packs.len] at inside
    rw [if_neg (by rwa [packs.len]), List.getElem?_eq_none (by omega)]

theorem Packs.values {p : PackedInts} {vs : List Nat} (packs : p.Packs vs) (most : p.width ≤ 64)
    (fits : ∀ v ∈ vs, v < 2 ^ p.width) : p.values = vs := by
  apply List.ext_getElem?
  intro i
  simp only [PackedInts.values, List.getElem?_map, packs.get most fits, packs.len]
  by_cases inside : i < vs.length
  · rw [List.getElem?_range inside, Option.map_some, List.getElem?_eq_getElem inside,
      Option.getD_some]
  · rw [List.getElem?_eq_none (by simpa using inside), List.getElem?_eq_none (by omega)]
    rfl

/-- The builder maintains what reassembly checks. -/
theorem Packs.fromWords {p : PackedInts} {vs : List Nat} (packs : p.Packs vs)
    (most : p.width ≤ 64) : fromWords p.width p.len p.data = .ok p := by
  have bits : (vs.flatMap (lowBits p.width)).length = p.len * p.width := by
    rw [length_flatMap_lowBits, packs.len]
  have count := packs.data.length
  rw [bits] at count
  rw [PackedInts.fromWords, if_neg (by omega), if_neg (by simpa using count), if_neg]
  rintro ⟨partial_, dirty⟩
  cases last : p.data.getLast? with
  | none =>
      rw [last] at dirty
      cases dirty
  | some w =>
      rw [last] at dirty
      have clean := packs.data.padding (by rwa [bits]) last
      rw [bits] at clean
      simp [clean] at dirty

end PackedInts

namespace BitWords

/-- One bit is a value of width one, which never straddles. -/
theorem push_words (b : BitWords) (bit : Bool) :
    (b.push bit).words = pushBits b.words b.len 1 bit.toNat := by
  have within : ¬ 64 < b.len % 64 + 1 := by omega
  have room : 1 <<< (b.len % 64) < 2 ^ 64 := by
    rw [Nat.one_shiftLeft]
    exact Nat.pow_lt_pow_right (by omega) (by omega)
  simp only [push, pushBits, if_neg within]
  cases bit with
  | true => rw [if_pos rfl, Bool.toNat_true, Nat.mod_eq_of_lt room]
  | false =>
      rw [if_neg Bool.false_ne_true, Bool.toNat_false, Nat.zero_shiftLeft, Nat.zero_mod]
      have same : (fun w : Nat => w ||| 0) = id := funext Nat.or_zero
      rw [same, List.modify_id]

theorem holds_push {b : BitWords} {bits : List Bool} (holds : Holds b.words bits)
    (len : b.len = bits.length) (bit : Bool) : Holds (b.push bit).words (bits ++ [bit]) := by
  have fits : bit.toNat < 2 ^ 1 := by cases bit <;> decide
  have grown := holds.pushBits Nat.one_pos (show 1 ≤ 64 by omega) fits
  have one : lowBits 1 bit.toNat = [bit] := by cases bit <;> rfl
  rw [one, ← len, ← push_words] at grown
  exact grown

theorem holds_foldl {b : BitWords} {done : List Bool} (holds : Holds b.words done)
    (len : b.len = done.length) (bits : List Bool) :
    Holds (bits.foldl push b).words (done ++ bits) ∧
      (bits.foldl push b).len = (done ++ bits).length := by
  induction bits generalizing b done with
  | nil => exact ⟨by rwa [List.append_nil], by rwa [List.append_nil]⟩
  | cons bit bits ih =>
      have rest := ih (holds_push holds len bit) (by simp [push, len])
      rwa [List.append_assoc] at rest

/-- Packed bits read back as what was pushed. -/
theorem holds_fromBits (bits : List Bool) :
    Holds (fromBits bits).words bits ∧ (fromBits bits).len = bits.length := by
  have start : Holds (⟨[], 0⟩ : BitWords).words [] := holds_nil
  have all := holds_foldl start rfl bits
  rwa [List.nil_append] at all

theorem bits_fromBits (bits : List Bool) : (fromBits bits).bits = bits := by
  obtain ⟨holds, len⟩ := holds_fromBits bits
  apply List.ext_getElem?
  intro i
  simp only [BitWords.bits, List.getElem?_map, len]
  by_cases inside : i < bits.length
  · rw [List.getElem?_range inside, Option.map_some, holds.bit, List.getD_eq_getElem?_getD,
      List.getElem?_eq_getElem inside, Option.getD_some]
  · rw [List.getElem?_eq_none (by simpa using inside), List.getElem?_eq_none (by omega)]
    rfl

end BitWords

end Graphy
