import Graphy.Succinct.Serial
import Graphy.Succinct.Proofs.PackedInts

/-!
# Reading packed sequences back

Two directions: what was written reads back unless its length exceeds the cap, and
whatever reads back has the shape its accessors rely on.
-/

namespace Graphy

open PackedBits

/-- A computation that succeeds has its first step succeed. -/
theorem bind_eq_ok {ε α β : Type} {x : Except ε α} {f : α → Except ε β} {b : β}
    (h : x >>= f = .ok b) : ∃ a, x = .ok a ∧ f a = .ok b := by
  cases x with
  | error e => cases h
  | ok a => exact ⟨a, rfl, h⟩

theorem ok_bind {ε α β : Type} (a : α) (f : α → Except ε β) : (Except.ok a >>= f) = f a := rfl

@[simp] theorem length_writeU64 (v : Nat) : (writeU64 v).length = 8 := by simp [writeU64]

@[simp] theorem length_writeU64s (vs : List Nat) : (writeU64s vs).length = vs.length * 8 := by
  induction vs with
  | nil => rfl
  | cons v vs ih =>
      have split : writeU64s (v :: vs) = writeU64 v ++ writeU64s vs := by simp [writeU64s]
      rw [split, List.length_append, ih, length_writeU64, List.length_cons]
      omega

namespace ByteCursor

/-- These bytes are ahead of the reader, from an aligned place on. -/
structure Ahead (c : ByteCursor) (bs : Bytes) : Prop where
  aligned : c.pos % 8 = 0
  rest : c.bytes.drop c.pos = bs

theorem ahead_new (bytes : Bytes) : (new bytes).Ahead bytes := ⟨rfl, rfl⟩

theorem Ahead.remaining {c : ByteCursor} {bs : Bytes} (ahead : c.Ahead bs) :
    c.remaining = bs.length := by
  rw [← ahead.rest, List.length_drop]
  rfl

theorem Ahead.skip {c : ByteCursor} {bs rest : Bytes} {n : Nat} (ahead : c.Ahead (bs ++ rest))
    (len : bs.length = n) (whole : n % 8 = 0) :
    ({ c with pos := c.pos + n } : ByteCursor).Ahead rest := by
  have aligned := ahead.aligned
  refine ⟨by simp only; omega, ?_⟩
  simp only
  rw [← List.drop_drop, ahead.rest, ← len, List.drop_left]

theorem readU64_ahead {c : ByteCursor} {v : Nat} {rest : Bytes} (hv : v < 2 ^ 64)
    (ahead : c.Ahead (writeU64 v ++ rest)) :
    ∃ c', c.readU64 = .ok (v, c') ∧ c'.Ahead rest := by
  have enough : ¬ c.remaining < 8 := by
    rw [ahead.remaining, List.length_append, length_writeU64]
    omega
  refine ⟨{ c with pos := c.pos + 8 }, ?_, ahead.skip (length_writeU64 v) rfl⟩
  have small : v < 256 ^ 8 := by
    have e : 256 ^ 8 = 2 ^ 64 := by decide
    rw [e]
    exact hv
  have taken : leNat ((c.bytes.drop c.pos).take 8) = v := by
    rw [ahead.rest, List.take_left' (length_writeU64 v)]
    exact leNat_leBytes_of_lt small
  rw [readU64, if_neg enough, taken]

theorem wordsOf_writeU64s {vs : List Nat} (small : ∀ v ∈ vs, v < 2 ^ 64) (rest : Bytes) :
    wordsOf vs.length (writeU64s vs ++ rest) = vs := by
  induction vs with
  | nil => rfl
  | cons v vs ih =>
      have split : writeU64s (v :: vs) ++ rest = writeU64 v ++ (writeU64s vs ++ rest) := by
        simp [writeU64s]
      have word : leNat (writeU64 v) = v := by
        have e : 256 ^ 8 = 2 ^ 64 := by decide
        exact leNat_leBytes_of_lt (e ▸ small v List.mem_cons_self)
      rw [split, List.length_cons, wordsOf, List.take_left' (length_writeU64 v),
        List.drop_left' (length_writeU64 v), word,
        ih fun u hu => small u (List.mem_cons_of_mem _ hu)]

theorem takeWords_ahead {c : ByteCursor} {vs : List Nat} {rest : Bytes}
    (small : ∀ v ∈ vs, v < 2 ^ 64) (room : vs.length * 8 < 2 ^ 64)
    (ahead : c.Ahead (writeU64s vs ++ rest)) :
    ∃ c', c.takeWords vs.length = .ok (vs, c') ∧ c'.Ahead rest := by
  have enough : ¬ c.remaining < vs.length * 8 := by
    rw [ahead.remaining, List.length_append, length_writeU64s]
    omega
  refine ⟨{ c with pos := c.pos + vs.length * 8 }, ?_,
    ahead.skip (length_writeU64s vs) (Nat.mul_mod_left _ _)⟩
  rw [takeWords, if_neg (by omega), if_neg enough, if_neg (by simpa using ahead.aligned),
    ahead.rest, wordsOf_writeU64s small]

/-! ## What a successful read says -/

theorem readU64_ok {c c' : ByteCursor} {v : Nat} (h : c.readU64 = .ok (v, c')) :
    v = wordAt c.bytes c.pos ∧ c'.bytes = c.bytes ∧ c'.pos = c.pos + 8 := by
  unfold readU64 at h
  by_cases few : c.remaining < 8
  · rw [if_pos few] at h
    cases h
  · rw [if_neg few] at h
    cases h
    exact ⟨rfl, rfl, rfl⟩

theorem length_wordsOf (n : Nat) (bytes : Bytes) : (wordsOf n bytes).length = n := by
  induction n generalizing bytes with
  | zero => rfl
  | succ n ih => rw [wordsOf, List.length_cons, ih]

theorem wordsOf_lt (n : Nat) (bytes : Bytes) : ∀ w ∈ wordsOf n bytes, w < 2 ^ 64 := by
  induction n generalizing bytes with
  | zero =>
      intro w hw
      cases hw
  | succ n ih =>
      intro w hw
      rcases List.mem_cons.mp hw with rfl | later
      · have bound := leNat_lt (bytes.take 8)
        have length : (bytes.take 8).length ≤ 8 := List.length_take_le 8 bytes
        have pow : 256 ^ (bytes.take 8).length ≤ 256 ^ 8 := Nat.pow_le_pow_right (by omega) length
        omega
      · exact ih _ w later

/-- Where the words stand. -/
theorem getD_wordsOf {n i : Nat} (h : i < n) (bytes : Bytes) :
    (wordsOf n bytes).getD i 0 = wordAt bytes (i * 8) := by
  induction n generalizing i bytes with
  | zero => omega
  | succ n ih =>
      cases i with
      | zero => rfl
      | succ i =>
          rw [wordsOf, List.getD_cons_succ, ih (Nat.lt_of_succ_lt_succ h), wordAt, wordAt,
            List.drop_drop, Nat.succ_mul, Nat.add_comm]

theorem takeWords_ok {c c' : ByteCursor} {n : Nat} {ws : List Nat}
    (h : c.takeWords n = .ok (ws, c')) :
    ws = wordsOf n (c.bytes.drop c.pos) ∧ c'.bytes = c.bytes ∧ c'.pos = c.pos + n * 8 := by
  unfold takeWords at h
  by_cases big : 2 ^ 64 ≤ n * 8
  · rw [if_pos big] at h
    cases h
  · rw [if_neg big] at h
    by_cases few : c.remaining < n * 8
    · rw [if_pos few] at h
      cases h
    · rw [if_neg few] at h
      by_cases odd : c.pos % 8 ≠ 0
      · rw [if_pos odd] at h
        cases h
      · rw [if_neg odd] at h
        cases h
        exact ⟨rfl, rfl, rfl⟩

end ByteCursor

namespace BitWords

@[simp] theorem length_bits (b : BitWords) : b.bits.length = b.len := by simp [bits]

/-- What the accessors of a bit vector rely on. -/
structure Valid (b : BitWords) : Prop where
  len : b.len ≤ cap
  holds : Holds b.words b.bits

/-- Words without padding bits hold the bits that are read off them. -/
theorem holds_of_clean {b : BitWords} (count : b.words.length = wordCount b.len)
    (small : ∀ w ∈ b.words, w < 2 ^ 64)
    (clean : ¬ (b.len % 64 ≠ 0 ∧
      (b.words.getLast?.any fun last => last >>> (b.len % 64) ≠ 0) = true)) :
    Holds b.words b.bits where
  length := by rw [count, length_bits]
  small := small
  bit j := by
    by_cases inside : j < b.len
    · rw [List.getD_eq_getElem?_getD, bits, List.getElem?_map, List.getElem?_range inside]
      rfl
    rw [List.getD_eq_default _ _ (by rw [length_bits]; omega)]
    by_cases past : b.words.length ≤ j / 64
    · exact bitAt_of_length_le past
    -- The bit lies in the padding of the last word.
    have last : b.words.length = j / 64 + 1 ∧ b.len % 64 ≠ 0 ∧ b.len % 64 ≤ j % 64 := by
      rw [count, wordCount] at past ⊢
      omega
    obtain ⟨here, partial_, beyond⟩ := last
    rw [not_and] at clean
    have zero := clean partial_
    rw [List.getLast?_eq_getElem?, here, Nat.add_sub_cancel,
      List.getElem?_eq_getElem (by omega)] at zero
    simp only [Option.any_some, decide_not, Bool.not_eq_true', decide_eq_false_iff_not,
      not_not] at zero
    rw [bitAt, List.getD_eq_getElem?_getD, List.getElem?_eq_getElem (by omega), Option.getD_some]
    have bit := Nat.testBit_shiftRight b.words[j / 64] (i := b.len % 64) (j := j % 64 - b.len % 64)
    rw [zero, Nat.zero_testBit, Nat.add_sub_cancel' beyond] at bit
    exact bit.symm

theorem deserializeView_of_le {b : BitWords} {bits : List Bool} {c : ByteCursor} {rest : Bytes}
    (holds : Holds b.words bits) (len : b.len = bits.length) (le : b.len ≤ cap)
    (ahead : c.Ahead (b.serialize ++ rest)) :
    ∃ c', deserializeView c = .ok (b, c') ∧ c'.Ahead rest := by
  unfold cap at le
  rw [serialize, List.append_assoc] at ahead
  obtain ⟨c₁, read, ahead⟩ := ByteCursor.readU64_ahead (by omega) ahead
  have count := holds.length
  rw [← len] at count
  obtain ⟨c₂, taken, ahead⟩ := ByteCursor.takeWords_ahead holds.small
    (by rw [count, wordCount]; omega) ahead
  rw [count] at taken
  have clean : ¬ (b.len % 64 ≠ 0 ∧
      (b.words.getLast?.any fun last => last >>> (b.len % 64) ≠ 0) = true) := by
    rintro ⟨partial_, dirty⟩
    cases last : b.words.getLast? with
    | none =>
        rw [last] at dirty
        cases dirty
    | some w =>
        rw [last] at dirty
        have zero := holds.padding (by rwa [← len]) last
        rw [← len] at zero
        simp [zero] at dirty
  refine ⟨c₂, ?_, ahead⟩
  have within : ¬ cap < b.len := by
    unfold cap
    omega
  simp only [deserializeView, read, taken, bind, Except.bind, if_neg within, if_neg clean, pure,
    Except.pure]

theorem deserializeView_of_gt {b : BitWords} {c : ByteCursor} {rest : Bytes} (gt : cap < b.len)
    (lt : b.len < 2 ^ 64) (ahead : c.Ahead (b.serialize ++ rest)) :
    ∃ e, deserializeView c = .error e := by
  rw [serialize, List.append_assoc] at ahead
  obtain ⟨c₁, read, -⟩ := ByteCursor.readU64_ahead lt ahead
  refine ⟨.invalidData s!"bitvector length {b.len} exceeds sanity cap", ?_⟩
  simp only [deserializeView, read, bind, Except.bind, if_pos gt]
  rfl

theorem deserializeView_ok {c c' : ByteCursor} {b : BitWords}
    (h : deserializeView c = .ok (b, c')) :
    b.Valid ∧ b.len = ByteCursor.wordAt c.bytes c.pos ∧
      (b.bits = (List.range b.len).map fun i =>
        (ByteCursor.wordAt c.bytes (c.pos + 8 + i / 64 * 8)).testBit (i % 64)) ∧
      c'.bytes = c.bytes ∧ c'.pos = c.pos + 8 + wordCount b.len * 8 := by
  obtain ⟨⟨len, c₁⟩, read, h⟩ := bind_eq_ok h
  obtain ⟨value, bytes, pos⟩ := ByteCursor.readU64_ok read
  simp only at h
  by_cases big : cap < len
  · rw [if_pos big] at h
    cases h
  rw [if_neg big] at h
  obtain ⟨⟨words, c₂⟩, taken, h⟩ := bind_eq_ok h
  obtain ⟨rfl, bytes', pos'⟩ := ByteCursor.takeWords_ok taken
  simp only at h
  split at h
  · cases h
  case isFalse clean =>
    cases h
    refine ⟨⟨Nat.le_of_not_lt big, holds_of_clean (ByteCursor.length_wordsOf _ _)
      (ByteCursor.wordsOf_lt _ _) clean⟩, value, List.map_congr_left fun i member => ?_,
      bytes'.trans bytes, by rw [pos', pos]⟩
    have inside : i < len := List.mem_range.mp member
    rw [bitAt, ByteCursor.getD_wordsOf (by rw [wordCount]; omega), bytes, pos, ByteCursor.wordAt,
      ByteCursor.wordAt, List.drop_drop]

end BitWords

namespace PackedInts

/-- What the accessors of a packed sequence rely on. -/
structure Valid (p : PackedInts) : Prop where
  width : p.width ≤ 64
  len : p.len ≤ cap
  data : p.data.length = wordCount (p.len * p.width)
  small : ∀ w ∈ p.data, w < 2 ^ 64

theorem fromWords_ok {width len : Nat} {data : List Nat} {p : PackedInts}
    (h : fromWords width len data = .ok p) :
    p = ⟨width, len, data⟩ ∧ width ≤ 64 ∧ data.length = wordCount (len * width) := by
  unfold fromWords at h
  by_cases wide : 64 < width
  · rw [if_pos wide] at h
    cases h
  rw [if_neg wide] at h
  by_cases count : data.length ≠ wordCount (len * width)
  · rw [if_pos count] at h
    cases h
  rw [if_neg count] at h
  split at h
  · cases h
  · cases h
    exact ⟨rfl, Nat.le_of_not_lt wide, not_not.mp count⟩

theorem deserializeView_of_le {p : PackedInts} {vs : List Nat} {c : ByteCursor} {rest : Bytes}
    (packs : p.Packs vs) (most : p.width ≤ 64) (le : p.len ≤ cap)
    (ahead : c.Ahead (p.serialize ++ rest)) :
    ∃ c', deserializeView c = .ok (p, c') ∧ c'.Ahead rest := by
  unfold cap at le
  rw [serialize, List.append_assoc, List.append_assoc] at ahead
  obtain ⟨c₁, width, ahead⟩ := ByteCursor.readU64_ahead (by omega) ahead
  obtain ⟨c₂, len, ahead⟩ := ByteCursor.readU64_ahead (by omega) ahead
  have count := packs.data.length
  rw [length_flatMap_lowBits, ← packs.len] at count
  have bits : p.len * p.width ≤ 2 ^ 48 * 64 := Nat.mul_le_mul le most
  obtain ⟨c₃, taken, ahead⟩ := ByteCursor.takeWords_ahead packs.data.small
    (by rw [count, wordCount]; omega) ahead
  rw [count] at taken
  refine ⟨c₃, ?_, ahead⟩
  have within : ¬ cap < p.len := by
    unfold cap
    omega
  simp only [deserializeView, width, len, taken, bind, Except.bind, if_neg within,
    if_neg (Nat.not_lt.mpr most), packs.fromWords most, pure, Except.pure]

theorem deserializeView_of_gt {p : PackedInts} {c : ByteCursor} {rest : Bytes} (most : p.width ≤ 64)
    (gt : cap < p.len) (lt : p.len < 2 ^ 64) (ahead : c.Ahead (p.serialize ++ rest)) :
    ∃ e, deserializeView c = .error e := by
  rw [serialize, List.append_assoc, List.append_assoc] at ahead
  obtain ⟨c₁, width, ahead⟩ := ByteCursor.readU64_ahead (by omega) ahead
  obtain ⟨c₂, len, -⟩ := ByteCursor.readU64_ahead lt ahead
  refine ⟨.invalidData s!"packed-int length {p.len} exceeds sanity cap", ?_⟩
  simp only [deserializeView, width, len, bind, Except.bind, if_pos gt,
    if_neg (Nat.not_lt.mpr most)]
  rfl

theorem deserializeView_ok {c c' : ByteCursor} {p : PackedInts}
    (h : deserializeView c = .ok (p, c')) :
    p.Valid ∧ p.width = ByteCursor.wordAt c.bytes c.pos ∧
      p.len = ByteCursor.wordAt c.bytes (c.pos + 8) ∧
      c'.bytes = c.bytes ∧ c'.pos = c.pos + 16 + wordCount (p.len * p.width) * 8 := by
  obtain ⟨⟨width, c₁⟩, readWidth, h⟩ := bind_eq_ok h
  obtain ⟨widthAt, bytes₁, pos₁⟩ := ByteCursor.readU64_ok readWidth
  simp only at h
  by_cases wide : 64 < width
  · rw [if_pos wide] at h
    cases h
  rw [if_neg wide] at h
  obtain ⟨⟨len, c₂⟩, readLen, h⟩ := bind_eq_ok h
  obtain ⟨lenAt, bytes₂, pos₂⟩ := ByteCursor.readU64_ok readLen
  simp only at h
  by_cases big : cap < len
  · rw [if_pos big] at h
    cases h
  rw [if_neg big] at h
  obtain ⟨⟨data, c₃⟩, taken, h⟩ := bind_eq_ok h
  obtain ⟨words, bytes₃, pos₃⟩ := ByteCursor.takeWords_ok taken
  have small : ∀ w ∈ data, w < 2 ^ 64 := words ▸ ByteCursor.wordsOf_lt _ _
  simp only at h
  cases parts : fromWords width len data with
  | error m =>
      rw [parts] at h
      cases h
  | ok q =>
      rw [parts] at h
      cases h
      obtain ⟨rfl, most, count⟩ := fromWords_ok parts
      refine ⟨⟨most, Nat.le_of_not_lt big, count, small⟩, widthAt, ?_,
        bytes₃.trans (bytes₂.trans bytes₁), by rw [pos₃, pos₂, pos₁]⟩
      rw [← bytes₁, ← pos₁]
      exact lenAt

/-- Every position of a valid sequence reads. -/
theorem Valid.get {p : PackedInts} (valid : p.Valid) {i : Nat} (h : i < p.len) :
    ∃ v, p.get i = some v := by
  unfold PackedInts.get
  rw [if_pos h]
  by_cases zero : p.width = 0
  · exact ⟨0, if_pos zero⟩
  · rw [if_neg zero]
    have within : wordCount (i * p.width + p.width) ≤ p.data.length := by
      rw [valid.data, ← Nat.succ_mul]
      have le := Nat.mul_le_mul_right p.width (Nat.succ_le_of_lt h)
      unfold wordCount
      omega
    obtain ⟨v, read, -⟩ := readBits_spec (Nat.pos_of_ne_zero zero) valid.width valid.small within
    exact ⟨v, read⟩

end PackedInts

end Graphy
