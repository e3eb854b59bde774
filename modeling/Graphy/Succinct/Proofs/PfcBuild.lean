import Graphy.Succinct.Proofs.Pfc

/-!
# Building front-coded dictionaries

Pushing a key leaves what can be read so far as it is, and makes the key readable at
the end of the data.
-/

namespace Graphy

namespace Varint

theorem readFrom_append {bytes : Bytes} {acc i : Nat} {r : Nat × Nat}
    (h : readFrom acc i bytes = some r) (extra : Bytes) :
    readFrom acc i (bytes ++ extra) = some r := by
  induction bytes generalizing acc i with
  | nil => cases h
  | cons b rest ih =>
      rw [readFrom] at h
      rw [List.cons_append, readFrom]
      by_cases long : 10 ≤ i
      · rw [if_pos long] at h
        cases h
      · rw [if_neg long] at h ⊢
        by_cases last : b.toNat < 128
        · rwa [if_pos last] at h ⊢
        · rw [if_neg last] at h ⊢
          exact ih h

theorem read_append {bytes : Bytes} {r : Nat × Nat} (h : read bytes = some r) (extra : Bytes) :
    read (bytes ++ extra) = some r := readFrom_append h extra

end Varint

namespace Pfc

/-! ## More data -/

/-- The second dictionary has the data and the blocks of the first, and more after them. -/
structure Extends (p q : Pfc) : Prop where
  blockSize : q.blockSize = p.blockSize
  data : ∃ extra, q.data = p.data ++ extra
  offsets : ∃ more, q.blockOffsets = p.blockOffsets ++ more

/-- The next entry can be read, and shares no more than the current key has. -/
def Sound (p : Pfc) (c : BlockCursor) : Prop :=
  ∃ lcp pos₁ suffix pos₂, p.readAt c.pos = .ok (lcp, pos₁) ∧ p.readAt pos₁ = .ok (suffix, pos₂) ∧
    lcp ≤ c.key.length ∧ pos₂ + suffix ≤ p.data.length

section Extends

variable {p q : Pfc} (more : p.Extends q)
include more

theorem Extends.readAt {pos : Nat} {r : Nat × Nat} (read : p.readAt pos = .ok r) :
    q.readAt pos = .ok r := by
  obtain ⟨extra, data⟩ := more.data
  unfold Pfc.readAt at read ⊢
  by_cases inside : pos ≤ p.data.length
  · rw [if_pos inside] at read
    rw [if_pos (by rw [data, List.length_append]; omega), data,
      List.drop_append_of_le_length inside]
    cases found : Varint.read (p.data.drop pos) with
    | none =>
        rw [found] at read
        cases read
    | some found' =>
        rw [found] at read
        rw [Varint.read_append found]
        exact read
  · rw [if_neg inside] at read
    cases read

theorem Extends.sliceAt {pos len : Nat} {bytes : Bytes} (read : p.sliceAt pos len = .ok bytes) :
    q.sliceAt pos len = .ok bytes := by
  obtain ⟨extra, data⟩ := more.data
  unfold Pfc.sliceAt at read ⊢
  by_cases inside : pos + len ≤ p.data.length
  · rw [if_pos inside] at read
    rw [if_pos (by rw [data, List.length_append]; omega), ← read, data,
      List.drop_append_of_le_length (by omega),
      List.take_append_of_le_length (by rw [List.length_drop]; omega)]
  · rw [if_neg inside] at read
    cases read

theorem Extends.offset {b off : Nat} (read : p.offset b = .ok off) : q.offset b = .ok off := by
  obtain ⟨added, offsets⟩ := more.offsets
  unfold Pfc.offset at read ⊢
  cases found : p.blockOffsets[b]? with
  | none =>
      rw [found] at read
      cases read
  | some off' =>
      rw [found] at read
      have inside := (List.getElem?_eq_some_iff.mp found).1
      rw [offsets, List.getElem?_append_left inside, found]
      exact read

theorem Extends.cursor {b : Nat} {c : BlockCursor} (read : p.cursor b = .ok c) :
    q.cursor b = .ok c := by
  obtain ⟨off, there, read⟩ := bind_eq_ok read
  obtain ⟨⟨len, start⟩, size, read⟩ := bind_eq_ok read
  obtain ⟨key, bytes, read⟩ := bind_eq_ok read
  rw [Pfc.cursor, more.offset there, ok_bind, more.readAt size, ok_bind]
  change (q.sliceAt start len >>= _) = _
  rw [more.sliceAt bytes]
  exact read

theorem Extends.advance {c c' : BlockCursor} (read : p.advance c = .ok c') :
    q.advance c = .ok c' := by
  obtain ⟨⟨lcp, pos₁⟩, first, read⟩ := bind_eq_ok read
  obtain ⟨⟨len, pos₂⟩, second, read⟩ := bind_eq_ok read
  obtain ⟨suffix, bytes, read⟩ := bind_eq_ok read
  rw [Pfc.advance, more.readAt first, ok_bind]
  change (q.readAt pos₁ >>= _) = _
  rw [more.readAt second, ok_bind]
  change (q.sliceAt pos₂ len >>= _) = _
  rw [more.sliceAt bytes]
  exact read

theorem Extends.advanceBy {k : Nat} {c c' : BlockCursor} (read : p.advanceBy k c = .ok c') :
    q.advanceBy k c = .ok c' := by
  induction k generalizing c with
  | zero => exact read
  | succ k ih =>
      obtain ⟨next, step, read⟩ := bind_eq_ok read
      rw [Pfc.advanceBy, more.advance step, ok_bind]
      exact ih read

theorem Extends.cursorTo {i : Nat} {c : BlockCursor} (read : p.cursorTo i = .ok c) :
    q.cursorTo i = .ok c := by
  obtain ⟨first, head, read⟩ := bind_eq_ok read
  rw [Pfc.cursorTo, more.blockSize, more.cursor head, ok_bind, more.advanceBy read]

theorem Extends.sound {c : BlockCursor} (sound : p.Sound c) : q.Sound c := by
  obtain ⟨lcp, pos₁, suffix, pos₂, first, second, shares, room⟩ := sound
  obtain ⟨extra, data⟩ := more.data
  refine ⟨lcp, pos₁, suffix, pos₂, more.readAt first, more.readAt second, shares, ?_⟩
  rw [data, List.length_append]
  omega

end Extends

/-! ## What a push adds -/

theorem take_commonPrefix (a b : Bytes) :
    a.take (commonPrefix a b) = b.take (commonPrefix a b) := by
  induction a generalizing b with
  | nil => cases b <;> simp [commonPrefix]
  | cons x a ih =>
      cases b with
      | nil => rfl
      | cons y b =>
          rw [commonPrefix]
          by_cases same : x = y
          · rw [if_pos same, List.take_succ_cons, List.take_succ_cons, ih, same]
          · rw [if_neg same, List.take_zero, List.take_zero]

theorem commonPrefix_le (a b : Bytes) :
    commonPrefix a b ≤ a.length ∧ commonPrefix a b ≤ b.length := by
  induction a generalizing b with
  | nil => cases b <;> simp [commonPrefix]
  | cons x a ih =>
      cases b with
      | nil => exact ⟨Nat.zero_le _, le_rfl⟩
      | cons y b =>
          have step := ih b
          rw [commonPrefix, List.length_cons, List.length_cons]
          by_cases same : x = y
          · rw [if_pos same]
            omega
          · rw [if_neg same]
            omega

/-- A varint is read where it was written. -/
theorem readAt_written {p : Pfc} {before after : Bytes} {v : Nat}
    (data : p.data = before ++ (Varint.write v ++ after)) (fits : v < 2 ^ 64) :
    p.readAt before.length = .ok (v, before.length + (Varint.write v).length) := by
  have inside : before.length ≤ p.data.length := by
    rw [data, List.length_append]
    omega
  have rest : p.data.drop before.length = Varint.write v ++ after := by
    rw [data, List.drop_left]
  rw [readAt, if_pos inside, rest, Varint.read_write fits]

theorem sliceAt_written {p : Pfc} {before bytes after : Bytes}
    (data : p.data = before ++ (bytes ++ after)) :
    p.sliceAt before.length bytes.length = .ok bytes := by
  have inside : before.length + bytes.length ≤ p.data.length := by
    rw [data, List.length_append, List.length_append]
    omega
  have rest : p.data.drop before.length = bytes ++ after := by
    rw [data, List.drop_left]
  rw [sliceAt, if_pos inside, rest, List.take_left]

/-- A head written at the end is where a cursor finds it. -/
theorem cursor_written {p : Pfc} {before key : Bytes} {b : Nat}
    (data : p.data = before ++ (Varint.write key.length ++ key)) (fits : key.length < 2 ^ 64)
    (offset : p.blockOffsets[b]? = some before.length) :
    p.cursor b = .ok ⟨p.data.length, key⟩ := by
  have there := offset_some offset
  have size := readAt_written data fits
  have data' : p.data = (before ++ Varint.write key.length) ++ (key ++ []) := by
    rw [data, List.append_nil, List.append_assoc]
  have bytes := sliceAt_written data'
  rw [List.length_append] at bytes
  rw [Pfc.cursor, there, ok_bind, size, ok_bind]
  change (p.sliceAt _ key.length >>= _) = _
  rw [bytes, ok_bind, data, List.length_append, List.length_append, ← Nat.add_assoc]
  rfl

/-- An entry written at the end is the next one of a cursor there. -/
theorem advance_written {p : Pfc} {before last suffix : Bytes} {lcp : Nat}
    (data : p.data = before ++ (Varint.write lcp ++ (Varint.write suffix.length ++ suffix)))
    (fits : lcp < 2 ^ 64) (fits' : suffix.length < 2 ^ 64) :
    p.advance ⟨before.length, last⟩ = .ok ⟨p.data.length, last.take lcp ++ suffix⟩ ∧
      (lcp ≤ last.length → p.Sound ⟨before.length, last⟩) := by
  have first := readAt_written data fits
  have data' : p.data = (before ++ Varint.write lcp) ++
      (Varint.write suffix.length ++ suffix) := by rw [data, List.append_assoc]
  have second := readAt_written data' fits'
  have data'' : p.data = (before ++ Varint.write lcp ++ Varint.write suffix.length) ++
      (suffix ++ []) := by rw [data', List.append_nil, List.append_assoc, List.append_assoc,
        List.append_assoc]
  have bytes := sliceAt_written data''
  have total : p.data.length = (before ++ Varint.write lcp).length +
      (Varint.write suffix.length).length + suffix.length := by
    rw [data'', List.append_nil, List.length_append, List.length_append]
  rw [@List.length_append _ (before ++ Varint.write lcp)] at bytes
  rw [← List.length_append] at first
  constructor
  · rw [Pfc.advance, first, ok_bind]
    change (p.readAt _ >>= _) = _
    rw [second, ok_bind]
    change (p.sliceAt _ suffix.length >>= _) = _
    rw [bytes, ok_bind, total]
    rfl
  · intro shares
    exact ⟨lcp, _, suffix.length, _, first, second, shares, total.ge⟩

/-! ## The builder -/

theorem divCeil_mul {bs : Nat} (positive : 1 ≤ bs) (q : Nat) : divCeil (bs * q) bs = q := by
  rw [divCeil, Nat.add_sub_assoc positive]
  exact (div_mod_add q (by omega)).1

theorem divCeil_mul_add {bs : Nat} (q : Nat) {r : Nat} (small : r < bs) :
    divCeil (bs * q + r + 1) bs = q + 1 := by
  have sum : bs * q + r + 1 + bs - 1 = bs * (q + 1) + r := by
    rw [Nat.mul_succ]
    omega
  rw [divCeil, sum]
  exact (div_mod_add (q + 1) small).1

theorem divCeil_first {n bs : Nat} (positive : 1 ≤ bs) (first : n % bs = 0) :
    divCeil n bs = n / bs ∧ divCeil (n + 1) bs = n / bs + 1 := by
  obtain ⟨q, r, small, rfl, quotient, rest⟩ := exists_div_mod n positive
  obtain rfl : r = 0 := rest.symm.trans first
  rw [quotient]
  exact ⟨divCeil_mul positive q, divCeil_mul_add q small⟩

theorem divCeil_inside {n bs : Nat} (positive : 1 ≤ bs) (inside : n % bs ≠ 0) :
    divCeil (n + 1) bs = divCeil n bs := by
  obtain ⟨q, r, small, rfl, quotient, rest⟩ := exists_div_mod n positive
  rw [rest] at inside
  obtain ⟨r, rfl⟩ := Nat.exists_eq_succ_of_ne_zero inside
  rw [divCeil_mul_add q small, ← Nat.add_one, ← Nat.add_assoc, divCeil_mul_add q (by omega)]

/-- The builder has taken these keys. -/
structure Took (b : PfcBuilder) (keys : List Bytes) : Prop where
  positive : 1 ≤ b.blockSize
  size : b.n = keys.length
  blocks : b.blockOffsets.length = divCeil b.n b.blockSize
  entry : ∀ i k, keys[i]? = some k → ∃ c, b.build.cursorTo i = .ok c ∧ c.key = k ∧
    (i + 1 < b.n → (i + 1) % b.blockSize ≠ 0 → b.build.Sound c)
  last : 0 < b.n → b.build.cursorTo (b.n - 1) = .ok ⟨b.data.length, b.last⟩
  ascending : b.blockOffsets.Pairwise (· < ·)
  below : ∀ off ∈ b.blockOffsets, off < b.data.length

theorem took_new {blockSize : Nat} (positive : 1 ≤ blockSize) : Took (.new blockSize) [] where
  positive := positive
  size := rfl
  blocks := (Nat.div_eq_of_lt (show 0 + blockSize - 1 < blockSize by omega)).symm
  entry := fun i k none => by cases none
  last := fun none => by cases none
  ascending := List.Pairwise.nil
  below := fun off none => by cases none

/-- Keys before and after a push. -/
theorem getElem?_snoc_cases {keys : List Bytes} {key k : Bytes} {i : Nat}
    (here : (keys ++ [key])[i]? = some k) :
    keys[i]? = some k ∨ i = keys.length ∧ key = k := by
  by_cases before : i < keys.length
  · rw [List.getElem?_append_left before] at here
    exact Or.inl here
  · rw [List.getElem?_append_right (Nat.le_of_not_lt before), List.getElem?_singleton] at here
    by_cases first : i - keys.length = 0
    · rw [if_pos first, Option.some_inj] at here
      exact Or.inr ⟨by omega, here⟩
    · rw [if_neg first] at here
      cases here

section Push

variable {b : PfcBuilder} {keys : List Bytes} (took : Took b keys) {key : Bytes}
  (fits : key.length < 2 ^ 64)
include took fits

theorem Took.push_head (first : b.n % b.blockSize = 0) : Took (b.push key) (keys ++ [key]) := by
  obtain ⟨count, next⟩ := divCeil_first took.positive first
  have pushed : b.push key = ⟨b.blockSize, b.n + 1, b.data ++ (Varint.write key.length ++ key),
      b.blockOffsets ++ [b.data.length], key⟩ := by
    rw [PfcBuilder.push, if_pos first]
  have more : b.build.Extends (b.push key).build := by
    rw [pushed]
    exact ⟨rfl, ⟨_, rfl⟩, ⟨_, rfl⟩⟩
  have written : (b.push key).build.cursorTo b.n = .ok ⟨(b.push key).data.length, key⟩ := by
    have start : (b.push key).build.blockOffsets[b.n / b.blockSize]? = some b.data.length := by
      rw [pushed, ← count, ← took.blocks]
      exact List.getElem?_concat_length
    have data : (b.push key).build.data = b.data ++ (Varint.write key.length ++ key) := by
      rw [pushed]
      rfl
    have head := cursor_written data fits start
    rw [cursorTo_head (by rw [pushed]; exact first)]
    rw [pushed] at head ⊢
    exact head
  have size := took.size
  refine ⟨?_, ?_, ?_, ?_, ?_, ?_, ?_⟩
  · rw [pushed]
    exact took.positive
  · rw [pushed, List.length_append, List.length_singleton, ← size]
  · rw [pushed]
    change (b.blockOffsets ++ [b.data.length]).length = divCeil (b.n + 1) b.blockSize
    rw [List.length_append, List.length_singleton, took.blocks, count, next]
  · intro i k here
    rcases getElem?_snoc_cases here with old | ⟨rfl, rfl⟩
    · obtain ⟨c, there, own, sound⟩ := took.entry i k old
      have inside := (List.getElem?_eq_some_iff.mp old).1
      refine ⟨c, more.cursorTo there, own, fun upto within => ?_⟩
      rw [pushed] at within
      refine more.sound (sound ?_ within)
      -- The entry before a head is the last of its block.
      by_contra final
      rw [show i + 1 = b.n by omega] at within
      exact within first
    · rw [← size]
      refine ⟨_, written, rfl, fun upto => ?_⟩
      rw [pushed] at upto
      exact absurd upto (lt_irrefl _)
  · intro _
    rw [pushed] at written ⊢
    exact written
  · rw [pushed]
    refine List.pairwise_append.mpr ⟨took.ascending, List.pairwise_singleton _ _, ?_⟩
    intro off member off' last
    rw [List.mem_singleton.mp last]
    exact took.below off member
  · intro off member
    have nonempty := List.length_pos_of_ne_nil (Varint.write_ne_nil key.length)
    rw [pushed] at member ⊢
    change off < (b.data ++ (Varint.write key.length ++ key)).length
    rw [List.length_append, List.length_append]
    rcases List.mem_append.mp member with old | last
    · have := took.below off old
      omega
    · rw [List.mem_singleton.mp last]
      omega

theorem Took.push_inside (inside : b.n % b.blockSize ≠ 0) :
    Took (b.push key) (keys ++ [key]) := by
  obtain ⟨n, count⟩ : ∃ n, b.n = n + 1 := by
    refine Nat.exists_eq_succ_of_ne_zero fun zero => inside ?_
    rw [zero, Nat.zero_mod]
  have shares := commonPrefix_le b.last key
  have pushed : b.push key = ⟨b.blockSize, b.n + 1, b.data ++ (Varint.write (commonPrefix b.last key)
      ++ (Varint.write (key.length - commonPrefix b.last key) ++
        key.drop (commonPrefix b.last key))), b.blockOffsets, key⟩ := by
    rw [PfcBuilder.push, if_neg inside]
  have more : b.build.Extends (b.push key).build := by
    rw [pushed]
    exact ⟨rfl, ⟨_, rfl⟩, ⟨[], (List.append_nil _).symm⟩⟩
  have last := took.last (by omega)
  rw [count, Nat.add_sub_cancel] at last
  have data : (b.push key).build.data = b.data ++ (Varint.write (commonPrefix b.last key) ++
      (Varint.write (key.drop (commonPrefix b.last key)).length ++
        key.drop (commonPrefix b.last key))) := by
    rw [pushed, List.length_drop]
    rfl
  obtain ⟨step, sound⟩ := @advance_written _ _ b.last _ _ data (by omega)
    (by rw [List.length_drop]; omega)
  have written : (b.push key).build.cursorTo b.n = .ok ⟨(b.push key).data.length, key⟩ := by
    rw [count, cursorTo_next (by rw [pushed]; exact took.positive)
      (by rw [pushed, ← count]; exact inside), more.cursorTo last, ok_bind, step,
      take_commonPrefix, List.take_append_drop]
    rfl
  have size := took.size
  refine ⟨?_, ?_, ?_, ?_, ?_, ?_, ?_⟩
  · rw [pushed]
    exact took.positive
  · rw [pushed, List.length_append, List.length_singleton, ← size]
  · rw [pushed]
    exact took.blocks.trans (divCeil_inside took.positive inside).symm
  · intro i k here
    rcases getElem?_snoc_cases here with old | ⟨rfl, rfl⟩
    · obtain ⟨c, there, own, sound'⟩ := took.entry i k old
      have before := (List.getElem?_eq_some_iff.mp old).1
      refine ⟨c, more.cursorTo there, own, fun upto within => ?_⟩
      by_cases final : i = n
      · subst final
        rw [there, Except.ok.injEq] at last
        rw [last]
        exact sound shares.1
      · rw [pushed] at within
        exact more.sound (sound' (by omega) within)
    · rw [← size]
      refine ⟨_, written, rfl, fun upto => ?_⟩
      rw [pushed] at upto
      exact absurd upto (lt_irrefl _)
  · intro _
    rw [pushed] at written ⊢
    exact written
  · rw [pushed]
    exact took.ascending
  · intro off member
    rw [pushed] at member ⊢
    change off < (b.data ++ _).length
    have := took.below off member
    rw [List.length_append]
    omega

theorem Took.push : Took (b.push key) (keys ++ [key]) := by
  by_cases first : b.n % b.blockSize = 0
  · exact took.push_head fits first
  · exact took.push_inside fits first

end Push

theorem took_foldl {b : PfcBuilder} {done keys : List Bytes} (took : Took b done)
    (fits : ∀ key ∈ keys, key.length < 2 ^ 64) :
    Took (keys.foldl PfcBuilder.push b) (done ++ keys) := by
  induction keys generalizing b done with
  | nil => rwa [List.append_nil]
  | cons key keys ih =>
      have step := took.push (fits key List.mem_cons_self)
      have rest := ih step fun k member => fits k (List.mem_cons_of_mem key member)
      rwa [List.append_assoc] at rest

/-- The builder over all the keys. -/
theorem took_ofKeys {blockSize : Nat} (positive : 1 ≤ blockSize) {keys : List Bytes}
    (fits : ∀ key ∈ keys, key.length < 2 ^ 64) :
    Took (keys.foldl PfcBuilder.push (.new blockSize)) keys :=
  took_foldl (took_new positive) fits

theorem Took.lists {b : PfcBuilder} {keys : List Bytes} (took : Took b keys) :
    b.build.Lists keys where
  positive := took.positive
  size := took.size
  blocks := took.blocks
  entry i k here := by
    obtain ⟨c, there, own, -⟩ := took.entry i k here
    exact ⟨c.pos, by rw [there, ← own]⟩

end Pfc

end Graphy
