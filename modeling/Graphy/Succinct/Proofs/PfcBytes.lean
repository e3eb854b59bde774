import Graphy.Succinct.Proofs.PfcBuild

/-!
# Front-coded dictionaries from bytes

The walk accepts what was built, and what it accepts lists some keys, ascending or
not.  Bytes written are read back on both paths up to the sanity caps.
-/

namespace Graphy

namespace Pfc

/-! ## The walk -/

theorem readAt_some {p : Pfc} {pos : Nat} {found : Nat × Nat}
    (read : Varint.read (p.data.drop pos) = some found) :
    p.readAt pos = .ok (found.1, pos + found.2) := by
  have inside : pos ≤ p.data.length := by
    by_contra past
    rw [List.drop_eq_nil_of_le (by omega)] at read
    cases read
  rw [readAt, if_pos inside, read]

theorem readVarint_iff {p : Pfc} {pos : Nat} {r : Nat × Nat} :
    p.readVarint pos = .ok r ↔ p.readAt pos = .ok r := by
  cases read : Varint.read (p.data.drop pos) with
  | some found =>
      have walked : p.readVarint pos = .ok (found.1, pos + found.2) := by rw [readVarint, read]
      rw [walked, readAt_some read, Except.ok.injEq, Except.ok.injEq]
  | none =>
      constructor
      · intro walked
        rw [readVarint, read] at walked
        cases walked
      · intro walked
        unfold readAt at walked
        by_cases inside : pos ≤ p.data.length
        · rw [if_pos inside, read] at walked
          cases walked
        · rw [if_neg inside] at walked
          cases walked

theorem sliceAt_eq {p : Pfc} {pos len : Nat} (inside : pos + len ≤ p.data.length) :
    ∃ bytes, p.sliceAt pos len = .ok bytes ∧ bytes.length = len := by
  refine ⟨_, by rw [sliceAt, if_pos inside], ?_⟩
  rw [List.length_take, List.length_drop]
  omega

theorem sliceAt_ok {p : Pfc} {pos len : Nat} {bytes : Bytes}
    (read : p.sliceAt pos len = .ok bytes) :
    pos + len ≤ p.data.length ∧ bytes.length = len := by
  unfold sliceAt at read
  by_cases inside : pos + len ≤ p.data.length
  · rw [if_pos inside] at read
    cases read
    refine ⟨inside, ?_⟩
    rw [List.length_take, List.length_drop]
    omega
  · rw [if_neg inside] at read
    cases read

/-- A sound cursor goes on, to where the walk goes on. -/
theorem advance_eq {p : Pfc} {c : BlockCursor} {lcp pos₁ suffix pos₂ : Nat}
    (first : p.readAt c.pos = .ok (lcp, pos₁)) (second : p.readAt pos₁ = .ok (suffix, pos₂))
    (shares : lcp ≤ c.key.length) (room : pos₂ + suffix ≤ p.data.length) :
    ∃ c', p.advance c = .ok c' ∧ c'.pos = pos₂ + suffix ∧ c'.key.length = lcp + suffix := by
  obtain ⟨bytes, slice, length⟩ := sliceAt_eq room
  refine ⟨⟨pos₂ + suffix, c.key.take lcp ++ bytes⟩, ?_, rfl, ?_⟩
  · rw [advance, first, ok_bind]
    change (p.readAt pos₁ >>= _) = _
    rw [second, ok_bind]
    change (p.sliceAt pos₂ suffix >>= _) = _
    rw [slice]
    rfl
  · rw [List.length_append, List.length_take, length]
    omega

theorem walkEntries_of_sound {p : Pfc} {b left : Nat} (e : Nat) {c : BlockCursor}
    (sound : ∀ j, j < left → ∃ c', p.advanceBy j c = .ok c' ∧ p.Sound c') :
    p.walkEntries b left e c.pos c.key.length = .ok () := by
  induction left generalizing c e with
  | zero => rfl
  | succ left ih =>
      obtain ⟨c₀, same, lcp, pos₁, suffix, pos₂, first, second, shares, room⟩ :=
        sound 0 (Nat.succ_pos left)
      cases same
      obtain ⟨next, step, pos, length⟩ := advance_eq first second shares room
      have rest := ih (e + 1) (c := next) fun j less => by
        obtain ⟨c', there, sound'⟩ := sound (j + 1) (by omega)
        rw [advanceBy, step, ok_bind] at there
        exact ⟨c', there, sound'⟩
      rw [walkEntries, readVarint_iff.mpr first, ok_bind]
      change (p.readVarint pos₁ >>= _) = _
      rw [readVarint_iff.mpr second, ok_bind]
      change (if c.key.length < lcp then _ else _) = _
      rw [if_neg (Nat.not_lt_of_le shares)]
      change (if p.data.length < pos₂ + suffix then _ else _) = _
      rw [if_neg (Nat.not_lt_of_le room), ← pos, ← length]
      exact rest

theorem advances_of_walk {p : Pfc} {b left e : Nat} {c : BlockCursor}
    (walked : p.walkEntries b left e c.pos c.key.length = .ok ()) :
    ∀ j, j ≤ left → ∃ c', p.advanceBy j c = .ok c' := by
  induction left generalizing c e with
  | zero =>
      intro j none
      obtain rfl : j = 0 := by omega
      exact ⟨c, rfl⟩
  | succ left ih =>
      obtain ⟨⟨lcp, pos₁⟩, first, walked⟩ := bind_eq_ok walked
      obtain ⟨⟨suffix, pos₂⟩, second, walked⟩ := bind_eq_ok walked
      by_cases long : c.key.length < lcp
      · simp only [if_pos long] at walked
        cases walked
      by_cases out : p.data.length < pos₂ + suffix
      · simp only [if_neg long, if_pos out] at walked
        cases walked
      simp only [if_neg long, if_neg out] at walked
      obtain ⟨next, step, pos, length⟩ := advance_eq (readVarint_iff.mp first)
        (readVarint_iff.mp second) (Nat.le_of_not_lt long) (Nat.le_of_not_lt out)
      have rest := ih (c := next) (e := e + 1) (by rw [pos, length]; exact walked)
      intro j upto
      cases j with
      | zero => exact ⟨c, rfl⟩
      | succ j =>
          obtain ⟨c', there⟩ := rest j (by omega)
          exact ⟨c', by rw [advanceBy, step, ok_bind, there]⟩

/-- The walk of one block ends well. -/
def BlockWalks (p : Pfc) (b off : Nat) : Prop :=
  ∃ headLen pos, p.readAt off = .ok (headLen, pos) ∧ pos + headLen ≤ p.data.length ∧
    p.walkEntries b (min (p.n - b * p.blockSize) p.blockSize - 1) 1 (pos + headLen) headLen = .ok ()

theorem walkBlocks_of_walks {p : Pfc} {offs : List Nat} {b : Nat}
    (ascending : offs.Pairwise (· < ·)) (below : ∀ off ∈ offs, off ≤ p.data.length)
    (walks : ∀ j off, offs[j]? = some off → p.BlockWalks (b + j) off) :
    p.walkBlocks offs b = .ok () := by
  induction offs generalizing b with
  | nil => rfl
  | cons off rest ih =>
      obtain ⟨above, ascending⟩ := List.pairwise_cons.mp ascending
      obtain ⟨headLen, pos, head, room, walked⟩ := walks 0 off rfl
      rw [Nat.add_zero] at walked
      have increasing : ¬ rest.head?.any (· ≤ off) = true := by
        cases rest with
        | nil => exact Bool.false_ne_true
        | cons next rest =>
            rw [List.head?_cons, Option.any_some, decide_eq_true_eq]
            exact Nat.not_le_of_lt (above next List.mem_cons_self)
      have others := ih (b := b + 1) ascending
        (fun o member => below o (List.mem_cons_of_mem off member))
        fun j o here => by
          rw [Nat.add_assoc, Nat.add_comm 1]
          exact walks (j + 1) o here
      rw [walkBlocks]
      change (if p.data.length < off then _ else _) = _
      rw [if_neg (Nat.not_lt_of_le (below off List.mem_cons_self))]
      change (if rest.head?.any (· ≤ off) = true then _ else _) = _
      rw [if_neg increasing]
      change (p.readVarint off >>= _) = _
      rw [readVarint_iff.mpr head, ok_bind]
      change (if p.data.length < pos + headLen then _ else _) = _
      rw [if_neg (Nat.not_lt_of_le room)]
      change (p.walkEntries b _ 1 (pos + headLen) headLen >>= _) = _
      rw [walked, ok_bind]
      exact others

theorem walks_of_walkBlocks {p : Pfc} {offs : List Nat} {b : Nat}
    (walked : p.walkBlocks offs b = .ok ()) :
    ∀ j off, offs[j]? = some off → p.BlockWalks (b + j) off := by
  induction offs generalizing b with
  | nil =>
      intro j off here
      cases here
  | cons first rest ih =>
      rw [walkBlocks] at walked
      by_cases past : p.data.length < first
      · simp only [if_pos past] at walked
        cases walked
      simp only [if_neg past] at walked
      by_cases back : rest.head?.any (· ≤ first) = true
      · simp only [if_pos back] at walked
        cases walked
      simp only [if_neg back] at walked
      obtain ⟨⟨headLen, pos⟩, head, walked⟩ := bind_eq_ok walked
      by_cases out : p.data.length < pos + headLen
      · simp only [if_pos out] at walked
        cases walked
      simp only [if_neg out] at walked
      obtain ⟨⟨⟩, entries, walked⟩ := bind_eq_ok walked
      intro j off here
      cases j with
      | zero =>
          cases here
          exact ⟨headLen, pos, readVarint_iff.mp head, Nat.le_of_not_lt out, entries⟩
      | succ j =>
          have later := ih walked j off here
          rwa [Nat.add_assoc, Nat.add_comm 1] at later

/-- A block that walks has a cursor at its head and at every entry after it. -/
theorem BlockWalks.cursor {p : Pfc} {b off : Nat} (walks : p.BlockWalks b off)
    (offset : p.blockOffsets[b]? = some off) :
    ∃ c, p.cursor b = .ok c ∧ ∀ j, j ≤ min (p.n - b * p.blockSize) p.blockSize - 1 →
      ∃ c', p.advanceBy j c = .ok c' := by
  obtain ⟨headLen, pos, head, room, walked⟩ := walks
  obtain ⟨key, slice, length⟩ := sliceAt_eq room
  have there := offset_some offset
  refine ⟨⟨pos + headLen, key⟩, ?_, advances_of_walk (b := b) (e := 1) ?_⟩
  · rw [Pfc.cursor, there, ok_bind, head, ok_bind]
    change (p.sliceAt pos headLen >>= _) = _
    rw [slice]
    rfl
  · rw [length]
    exact walked

/-- The keys a dictionary holds, whatever their order. -/
def keyAt (p : Pfc) (i : Nat) : Bytes :=
  match p.cursorTo i with
  | .ok c => c.key
  | .error _ => []

theorem lists_of_walk {p : Pfc} (positive : 1 ≤ p.blockSize)
    (blocks : p.blockOffsets.length = divCeil p.n p.blockSize) (walked : p.validateWalk = .ok ()) :
    p.Lists ((List.range p.n).map p.keyAt) where
  positive := positive
  size := by rw [List.length_map, List.length_range]
  blocks := blocks
  entry i k here := by
    rw [List.getElem?_map] at here
    obtain ⟨i', there, own⟩ := Option.map_eq_some_iff.mp here
    obtain ⟨inside, rfl⟩ := List.getElem?_eq_some_iff.mp there
    rw [List.length_range] at inside
    rw [List.getElem_range] at own
    have within : i / p.blockSize < p.blockOffsets.length := by
      rw [blocks]
      exact block_lt positive inside
    have offset := List.getElem?_eq_getElem within
    have walks := walks_of_walkBlocks walked (i / p.blockSize) _ offset
    rw [Nat.zero_add] at walks
    obtain ⟨c, head, others⟩ := walks.cursor offset
    have whole := Nat.div_mul_le_self i p.blockSize
    have sum := Nat.div_add_mod i p.blockSize
    have small := Nat.mod_lt i positive
    rw [Nat.mul_comm] at sum
    obtain ⟨c', there⟩ := others (i % p.blockSize) (by omega)
    have cursor : p.cursorTo i = .ok c' := by rw [cursorTo, head, ok_bind, there]
    rw [keyAt, cursor] at own
    exact ⟨c'.pos, by rw [cursor, ← own]⟩

/-! ## What was built walks -/

theorem cursorTo_block {p : Pfc} (b : Nat) {j : Nat} (small : j < p.blockSize) :
    p.cursorTo (b * p.blockSize + j) = p.cursor b >>= p.advanceBy j := by
  obtain ⟨quotient, rest⟩ := div_mod_add b small
  rw [cursorTo, Nat.mul_comm, quotient, rest]

theorem Took.blockWalks {b : PfcBuilder} {keys : List Bytes} (took : Took b keys) {blk off : Nat}
    (here : b.blockOffsets[blk]? = some off) : b.build.BlockWalks blk off := by
  have positive := took.positive
  have size := took.size
  have inside := (List.getElem?_eq_some_iff.mp here).1
  rw [took.blocks, lt_divCeil_iff positive] at inside
  have bound : blk * b.blockSize < keys.length := by rwa [← size]
  obtain ⟨c, first, -, -⟩ := took.entry _ _ (List.getElem?_eq_getElem bound)
  have head : b.build.cursor blk = .ok c := by
    have start := cursorTo_block (p := b.build) blk positive
    rw [Nat.add_zero] at start
    obtain ⟨c₀, cursor, none⟩ := bind_eq_ok (start.symm.trans first)
    cases none
    exact cursor
  obtain ⟨off', there, read⟩ := bind_eq_ok head
  obtain ⟨⟨len, pos⟩, length, read⟩ := bind_eq_ok read
  obtain ⟨key, slice, read⟩ := bind_eq_ok read
  cases read
  rw [offset_some (p := b.build) here, Except.ok.injEq] at there
  subst there
  obtain ⟨room, whole⟩ := sliceAt_ok slice
  refine ⟨len, pos, length, room, ?_⟩
  rw [← whole]
  refine walkEntries_of_sound (c := ⟨pos + key.length, key⟩) 1 fun j less => ?_
  rw [whole]
  change j < min (b.n - blk * b.blockSize) b.blockSize - 1 at less
  have within : blk * b.blockSize + j < keys.length := by omega
  have small : j < b.blockSize := by omega
  obtain ⟨c', next, -, sound⟩ := took.entry _ _ (List.getElem?_eq_getElem within)
  have inBlock := cursorTo_block (p := b.build) blk small
  rw [head] at inBlock
  refine ⟨c', inBlock.symm.trans next, sound (by omega) ?_⟩
  have rest := (div_mod_add blk (show j + 1 < b.blockSize by omega)).2
  rw [Nat.mul_comm] at rest
  rw [Nat.add_assoc, rest]
  exact Nat.succ_ne_zero j

theorem Took.parts {b : PfcBuilder} {keys : List Bytes} (took : Took b keys) :
    parts b.blockSize b.n b.data b.blockOffsets = .ok b.build := by
  have positive := took.positive
  have walked : b.build.validateWalk = .ok () :=
    walkBlocks_of_walks took.ascending (fun off member => (took.below off member).le)
      fun blk off here => by
        rw [Nat.zero_add]
        exact took.blockWalks here
  have accepted : fromParts b.blockSize b.n b.data b.blockOffsets = .ok b.build := by
    rw [fromParts, if_neg (by omega)]
    change (if b.blockOffsets.length ≠ divCeil b.n b.blockSize then _ else _) = _
    rw [if_neg (not_not.mpr took.blocks)]
    change (b.build.validateWalk >>= _) = _
    rw [walked]
    rfl
  rw [Pfc.parts, accepted]

theorem parts_ok {blockSize n : Nat} {data : Bytes} {offsets : List Nat} {p : Pfc}
    (accepted : parts blockSize n data offsets = .ok p) :
    ∃ keys, p.Lists keys := by
  unfold parts at accepted
  cases read : fromParts blockSize n data offsets with
  | error m =>
      rw [read] at accepted
      cases accepted
  | ok q =>
      rw [read] at accepted
      cases accepted
      unfold fromParts at read
      by_cases zero : blockSize = 0
      · rw [if_pos zero] at read
        cases read
      rw [if_neg zero] at read
      by_cases blocks : offsets.length = divCeil n blockSize
      · simp only [if_neg (not_not.mpr blocks)] at read
        obtain ⟨⟨⟩, walked, read⟩ := bind_eq_ok read
        cases read
        exact ⟨_, lists_of_walk (Nat.pos_of_ne_zero zero) blocks walked⟩
      · simp only [if_pos blocks] at read
        cases read

end Pfc

/-! ## Reading back -/

namespace ByteCursor

theorem takeBytes_ahead {c : ByteCursor} {bytes rest : Bytes} (ahead : c.Ahead (bytes ++ rest)) :
    ∃ c', c.takeBytes bytes.length = .ok (bytes, c') ∧ c'.bytes.drop c'.pos = rest := by
  have enough : ¬ c.remaining < bytes.length := by
    rw [ahead.remaining, List.length_append]
    omega
  refine ⟨{ c with pos := c.pos + bytes.length }, ?_, ?_⟩
  · rw [takeBytes, if_neg enough, ahead.rest, List.take_left]
  · change c.bytes.drop (c.pos + bytes.length) = rest
    rw [← List.drop_drop, ahead.rest, List.drop_left]

end ByteCursor

theorem readExact_append (bytes rest : Bytes) :
    readExact bytes.length (bytes ++ rest) = .ok (bytes, rest) := by
  rw [readExact, if_neg (by rw [List.length_append]; omega), List.take_left, List.drop_left]

theorem streamU64_write {v : Nat} (fits : v < 2 ^ 64) (rest : Bytes) :
    streamU64 (writeU64 v ++ rest) = .ok (v, rest) := by
  have whole := readExact_append (writeU64 v) rest
  rw [length_writeU64] at whole
  have e : 256 ^ 8 = 2 ^ 64 := by decide
  have value : leNat (writeU64 v) = v := leNat_leBytes_of_lt (e ▸ fits)
  rw [streamU64, whole]
  change Except.ok (leNat (writeU64 v), rest) = _
  rw [value]

theorem readLen_write {v most : Nat} (fits : v < 2 ^ 64) (what : String) (rest : Bytes)
    (within : v ≤ most) : readLen most what (writeU64 v ++ rest) = .ok (v, rest) := by
  rw [readLen, streamU64_write fits]
  exact if_neg (Nat.not_lt_of_le within)

theorem readLen_refused {v most : Nat} (fits : v < 2 ^ 64) (what : String) (rest : Bytes)
    (past : most < v) : ∃ e, readLen most what (writeU64 v ++ rest) = .error e := by
  refine ⟨.invalidData s!"{what} length {v} exceeds sanity cap {most}", ?_⟩
  rw [readLen, streamU64_write fits]
  exact if_pos past

theorem streamU64s_write {vs : List Nat} (fits : ∀ v ∈ vs, v < 2 ^ 64) (rest : Bytes) :
    streamU64s vs.length (writeU64s vs ++ rest) = .ok (vs, rest) := by
  induction vs with
  | nil => rfl
  | cons v vs ih =>
      have split : writeU64s (v :: vs) ++ rest = writeU64 v ++ (writeU64s vs ++ rest) := by
        rw [writeU64s, List.flatMap_cons, List.append_assoc]
        rfl
      rw [split, List.length_cons, streamU64s, streamU64_write (fits v List.mem_cons_self)]
      change (streamU64s vs.length _ >>= _) = _
      rw [ih fun w member => fits w (List.mem_cons_of_mem v member)]
      rfl

namespace Pfc

theorem divCeil_le {n bs : Nat} (positive : 1 ≤ bs) : divCeil n bs ≤ n := by
  by_contra more
  have := (lt_divCeil_iff positive).mp (Nat.lt_of_not_le more)
  have := Nat.le_mul_of_pos_right n positive
  omega

section Built

variable {b : PfcBuilder} {keys : List Bytes} (took : Took b keys)
include took

/-- What the readers go by fits 64 bits, and they agree on the number of blocks. -/
theorem Took.sizes (most : b.n ≤ cap) (length : b.data.length < 2 ^ 64) :
    b.blockOffsets.length ≤ cap ∧ ∀ off ∈ b.blockOffsets, off < 2 ^ 64 := by
  have caps : cap = 2 ^ 48 := rfl
  constructor
  · rw [took.blocks]
    exact (divCeil_le took.positive).trans most
  · intro off member
    exact (took.below off member).trans length

theorem Took.deserialize (within : b.build.Within) (rest : Bytes) :
    deserialize (b.build.serialize ++ rest) = .ok (b.build, rest) := by
  obtain ⟨size, count, length⟩ := within
  change b.blockSize ≤ 2 ^ 20 at size
  change b.n ≤ cap at count
  change b.data.length ≤ cap at length
  have positive := took.positive
  have caps : cap = 2 ^ 48 := rfl
  obtain ⟨blocks, fits⟩ := took.sizes count (by omega)
  rw [serialize, Pfc.deserialize]
  simp only [List.append_assoc]
  change (readLen _ _ (writeU64 b.blockSize ++ _) >>= _) = _
  rw [readLen_write (by omega) _ _ size, ok_bind]
  change (readLen _ _ (writeU64 b.n ++ _) >>= _) = _
  rw [readLen_write (by omega) _ _ count, ok_bind]
  change (readLen _ _ (writeU64 b.blockOffsets.length ++ _) >>= _) = _
  rw [readLen_write (by omega) _ _ blocks, ok_bind]
  change (if b.blockSize = 0 then _ else _) = _
  rw [if_neg (by omega)]
  change (if b.blockOffsets.length ≠ divCeil b.n b.blockSize then _ else _) = _
  rw [if_neg (not_not.mpr took.blocks)]
  change (streamU64s b.blockOffsets.length (writeU64s b.blockOffsets ++ _) >>= _) = _
  rw [streamU64s_write fits, ok_bind]
  change (readLen _ _ (writeU64 b.data.length ++ _) >>= _) = _
  rw [readLen_write (by omega) _ _ length, ok_bind]
  change (readExact b.data.length (b.data ++ _) >>= _) = _
  rw [readExact_append, ok_bind]
  change (Pfc.parts b.blockSize b.n b.data b.blockOffsets >>= _) = _
  rw [took.parts]
  rfl

theorem Took.deserializeView (within : b.build.Within) {c : ByteCursor} {rest : Bytes}
    (ahead : c.Ahead (b.build.serialize ++ rest)) :
    ∃ c', deserializeView c = .ok (b.build, c') ∧ c'.bytes.drop c'.pos = rest := by
  obtain ⟨size, count, length⟩ := within
  change b.blockSize ≤ 2 ^ 20 at size
  change b.n ≤ cap at count
  change b.data.length ≤ cap at length
  have positive := took.positive
  have caps : cap = 2 ^ 48 := rfl
  obtain ⟨blocks, fits⟩ := took.sizes count (by omega)
  rw [serialize] at ahead
  simp only [List.append_assoc] at ahead
  obtain ⟨c₁, first, ahead⟩ := ByteCursor.readU64_ahead (show b.blockSize < 2 ^ 64 by omega) ahead
  obtain ⟨c₂, second, ahead⟩ := ByteCursor.readU64_ahead (show b.n < 2 ^ 64 by omega) ahead
  obtain ⟨c₃, third, ahead⟩ :=
    ByteCursor.readU64_ahead (show b.blockOffsets.length < 2 ^ 64 by omega) ahead
  obtain ⟨c₄, offsets, ahead⟩ :=
    ByteCursor.takeWords_ahead fits (show b.blockOffsets.length * 8 < 2 ^ 64 by omega) ahead
  obtain ⟨c₅, fifth, ahead⟩ :=
    ByteCursor.readU64_ahead (show b.data.length < 2 ^ 64 by omega) ahead
  change c₅.Ahead (b.data ++ rest) at ahead
  obtain ⟨c₆, bytes, after⟩ := ByteCursor.takeBytes_ahead ahead
  refine ⟨c₆, ?_, after⟩
  rw [Pfc.deserializeView, first, ok_bind]
  change (if b.blockSize = 0 ∨ 2 ^ 20 < b.blockSize then _ else _) = _
  rw [if_neg (by omega)]
  change (c₁.readU64 >>= _) = _
  rw [second, ok_bind]
  change (if cap < b.n then _ else _) = _
  rw [if_neg (by omega)]
  change (c₂.readU64 >>= _) = _
  rw [third, ok_bind]
  change (if b.blockOffsets.length ≠ divCeil b.n b.blockSize then _ else _) = _
  rw [if_neg (not_not.mpr took.blocks)]
  change (c₃.takeWords b.blockOffsets.length >>= _) = _
  rw [offsets, ok_bind]
  change (c₄.readU64 >>= _) = _
  rw [fifth, ok_bind]
  change (if cap < b.data.length then _ else _) = _
  rw [if_neg (by omega)]
  change (c₅.takeBytes b.data.length >>= _) = _
  rw [bytes, ok_bind]
  change (Pfc.parts b.blockSize b.n b.data b.blockOffsets >>= _) = _
  rw [took.parts]
  rfl

theorem Took.deserialize_refused (sized : b.build.Sized) (past : ¬ b.build.Within) :
    ∃ e, Pfc.deserialize b.build.serialize = .error e := by
  obtain ⟨size, count, length⟩ := sized
  change b.blockSize < 2 ^ 64 at size
  change b.n < 2 ^ 64 at count
  change b.data.length < 2 ^ 64 at length
  have positive := took.positive
  have caps : cap = 2 ^ 48 := rfl
  rw [serialize, Pfc.deserialize]
  change ∃ e, (readLen _ _ (writeU64 b.blockSize ++ _) >>= _) = _
  by_cases large : 2 ^ 20 < b.blockSize
  · obtain ⟨e, refused⟩ := readLen_refused size "PFC block size" _ large
    exact ⟨e, by rw [refused]; rfl⟩
  rw [readLen_write size _ _ (Nat.le_of_not_lt large), ok_bind]
  change ∃ e, (readLen _ _ (writeU64 b.n ++ _) >>= _) = _
  by_cases many : cap < b.n
  · obtain ⟨e, refused⟩ := readLen_refused count "PFC" _ many
    exact ⟨e, by rw [refused]; rfl⟩
  have long : cap < b.data.length := by
    by_contra short
    exact past ⟨Nat.le_of_not_lt large, Nat.le_of_not_lt many, Nat.le_of_not_lt short⟩
  obtain ⟨blocks, fits⟩ := took.sizes (Nat.le_of_not_lt many) length
  rw [readLen_write count _ _ (Nat.le_of_not_lt many), ok_bind]
  change ∃ e, (readLen _ _ (writeU64 b.blockOffsets.length ++ _) >>= _) = _
  rw [readLen_write (by omega) _ _ blocks, ok_bind]
  change ∃ e, (if b.blockSize = 0 then _ else _) = _
  rw [if_neg (by omega)]
  change ∃ e, (if b.blockOffsets.length ≠ divCeil b.n b.blockSize then _ else _) = _
  rw [if_neg (not_not.mpr took.blocks)]
  change ∃ e, (streamU64s b.blockOffsets.length (writeU64s b.blockOffsets ++ _) >>= _) = _
  rw [streamU64s_write fits, ok_bind]
  change ∃ e, (readLen _ _ (writeU64 b.data.length ++ b.data) >>= _) = _
  obtain ⟨e, refused⟩ := readLen_refused length "PFC data" b.data long
  exact ⟨e, by rw [refused]; rfl⟩

theorem Took.deserializeView_refused (sized : b.build.Sized) (past : ¬ b.build.Within)
    {c : ByteCursor} (ahead : c.Ahead b.build.serialize) :
    ∃ e, Pfc.deserializeView c = .error e := by
  obtain ⟨size, count, length⟩ := sized
  change b.blockSize < 2 ^ 64 at size
  change b.n < 2 ^ 64 at count
  change b.data.length < 2 ^ 64 at length
  have positive := took.positive
  have caps : cap = 2 ^ 48 := rfl
  rw [serialize] at ahead
  obtain ⟨c₁, first, ahead⟩ := ByteCursor.readU64_ahead size ahead
  rw [Pfc.deserializeView, first, ok_bind]
  change ∃ e, (if b.blockSize = 0 ∨ 2 ^ 20 < b.blockSize then _ else _) = _
  by_cases large : 2 ^ 20 < b.blockSize
  · rw [if_pos (Or.inr large)]
    exact ⟨_, rfl⟩
  rw [if_neg (by omega)]
  obtain ⟨c₂, second, ahead⟩ := ByteCursor.readU64_ahead count ahead
  change ∃ e, (c₁.readU64 >>= _) = _
  rw [second, ok_bind]
  change ∃ e, (if cap < b.n then _ else _) = _
  by_cases many : cap < b.n
  · rw [if_pos many]
    exact ⟨_, rfl⟩
  rw [if_neg many]
  have long : cap < b.data.length := by
    by_contra short
    exact past ⟨Nat.le_of_not_lt large, Nat.le_of_not_lt many, Nat.le_of_not_lt short⟩
  obtain ⟨blocks, fits⟩ := took.sizes (Nat.le_of_not_lt many) length
  obtain ⟨c₃, third, ahead⟩ :=
    ByteCursor.readU64_ahead (show b.blockOffsets.length < 2 ^ 64 by omega) ahead
  change ∃ e, (c₂.readU64 >>= _) = _
  rw [third, ok_bind]
  change ∃ e, (if b.blockOffsets.length ≠ divCeil b.n b.blockSize then _ else _) = _
  rw [if_neg (not_not.mpr took.blocks)]
  obtain ⟨c₄, offsets, ahead⟩ :=
    ByteCursor.takeWords_ahead fits (show b.blockOffsets.length * 8 < 2 ^ 64 by omega) ahead
  change ∃ e, (c₃.takeWords b.blockOffsets.length >>= _) = _
  rw [offsets, ok_bind]
  obtain ⟨c₅, fifth, -⟩ := ByteCursor.readU64_ahead length ahead
  change ∃ e, (c₄.readU64 >>= _) = _
  rw [fifth, ok_bind]
  change ∃ e, (if cap < b.data.length then _ else _) = _
  rw [if_pos long]
  exact ⟨_, rfl⟩

theorem Took.refused (sized : b.build.Sized) (past : ¬ b.build.Within) : b.build.Refused :=
  ⟨took.deserialize_refused sized past,
    took.deserializeView_refused sized past (ByteCursor.ahead_new _)⟩

theorem Took.readsBack (within : b.build.Within) : b.build.ReadsBack := by
  refine ⟨took.deserialize within, ?_⟩
  have ahead : (ByteCursor.new b.build.serialize).Ahead (b.build.serialize ++ []) := by
    rw [List.append_nil]
    exact ByteCursor.ahead_new _
  obtain ⟨c, read, -⟩ := took.deserializeView within ahead
  exact ⟨c, read⟩

end Built

/-! ## Any keys, any bytes -/

theorem Lists.answers {p : Pfc} {keys : List Bytes} (lists : p.Lists keys)
    (ascending : keys.Pairwise (· < ·)) : p.Answers keys where
  get := lists.get_eq
  iter := lists.iter_eq
  ends key := by
    obtain ⟨r, located, -⟩ := lists.locate_sound key
    exact ⟨r, located⟩
  locate := lists.locate_iff ascending

theorem Lists.panicless {p : Pfc} {keys : List Bytes} (lists : p.Lists keys) : p.Panicless :=
  ⟨keys, lists.get_eq, lists.iter_eq, lists.locate_sound⟩

theorem panicless_of_deserialize {r r' : Bytes} {p : Pfc} (read : deserialize r = .ok (p, r')) :
    p.Panicless := by
  obtain ⟨⟨blockSize, r₁⟩, -, read⟩ := bind_eq_ok read
  obtain ⟨⟨n, r₂⟩, -, read⟩ := bind_eq_ok read
  obtain ⟨⟨nOffsets, r₃⟩, -, read⟩ := bind_eq_ok read
  by_cases zero : blockSize = 0
  · simp only [if_pos zero] at read
    cases read
  simp only [if_neg zero] at read
  by_cases blocks : nOffsets = divCeil n blockSize
  · simp only [if_neg (not_not.mpr blocks)] at read
    obtain ⟨⟨offsets, r₄⟩, -, read⟩ := bind_eq_ok read
    obtain ⟨⟨dataLen, r₅⟩, -, read⟩ := bind_eq_ok read
    obtain ⟨⟨data, r₆⟩, -, read⟩ := bind_eq_ok read
    obtain ⟨q, accepted, read⟩ := bind_eq_ok read
    cases read
    obtain ⟨keys, lists⟩ := parts_ok accepted
    exact lists.panicless
  · simp only [if_pos blocks] at read
    cases read

theorem panicless_of_deserializeView {c c' : ByteCursor} {p : Pfc}
    (read : deserializeView c = .ok (p, c')) : p.Panicless := by
  obtain ⟨⟨blockSize, c₁⟩, -, read⟩ := bind_eq_ok read
  by_cases large : blockSize = 0 ∨ 2 ^ 20 < blockSize
  · simp only [if_pos large] at read
    cases read
  simp only [if_neg large] at read
  obtain ⟨⟨n, c₂⟩, -, read⟩ := bind_eq_ok read
  by_cases many : cap < n
  · simp only [if_pos many] at read
    cases read
  simp only [if_neg many] at read
  obtain ⟨⟨nOffsets, c₃⟩, -, read⟩ := bind_eq_ok read
  by_cases blocks : nOffsets = divCeil n blockSize
  · simp only [if_neg (not_not.mpr blocks)] at read
    obtain ⟨⟨offsets, c₄⟩, -, read⟩ := bind_eq_ok read
    obtain ⟨⟨dataLen, c₅⟩, -, read⟩ := bind_eq_ok read
    by_cases long : cap < dataLen
    · simp only [if_pos long] at read
      cases read
    simp only [if_neg long] at read
    obtain ⟨⟨data, c₆⟩, -, read⟩ := bind_eq_ok read
    obtain ⟨q, accepted, read⟩ := bind_eq_ok read
    cases read
    obtain ⟨keys, lists⟩ := parts_ok accepted
    exact lists.panicless
  · simp only [if_pos blocks] at read
    cases read

/-- The dictionary of ascending keys answers as they do, also after a round trip through either
reader within their caps, and no accessor panics on what a reader accepts. -/
theorem ofKeys_answers {blockSize : Nat} (positive : 1 ≤ blockSize) {keys : List Bytes}
    (ascending : keys.Pairwise (· < ·)) (fits : ∀ key ∈ keys, key.length < 2 ^ 64) :
    (ofKeys blockSize keys).Answers keys ∧
      ((ofKeys blockSize keys).Within → (ofKeys blockSize keys).ReadsBack) ∧
      ((ofKeys blockSize keys).Sized → ¬ (ofKeys blockSize keys).Within →
        (ofKeys blockSize keys).Refused) ∧
      (∀ r p r', deserialize r = .ok (p, r') → p.Panicless) ∧
      ∀ c p c', deserializeView c = .ok (p, c') → p.Panicless :=
  ⟨(took_ofKeys positive fits).lists.answers ascending, (took_ofKeys positive fits).readsBack,
    (took_ofKeys positive fits).refused, fun _ _ _ => panicless_of_deserialize,
    fun _ _ _ => panicless_of_deserializeView⟩

theorem ofKeys_answers_two : (ofKeys 2 [[97], [97, 98]]).Answers [[97], [97, 98]] :=
  (ofKeys_answers (by decide) (by decide) (by decide)).1

/-- A block size above the readers' bound. -/
theorem ofKeys_refused_largeBlocks :
    ¬ (ofKeys (2 ^ 20 + 1) []).ReadsBack := by
  rintro ⟨read, -⟩
  have short : ∀ key ∈ ([] : List Bytes), key.length < 2 ^ 64 := by
    intro key none
    cases none
  have took := took_ofKeys (show 1 ≤ 2 ^ 20 + 1 by decide) short
  obtain ⟨e, refused⟩ := took.deserialize_refused ⟨by decide, by decide, by decide⟩
    fun within => absurd within.blockSize (by decide)
  have whole := read []
  rw [List.append_nil] at whole
  cases refused.symm.trans whole

end Pfc

end Graphy
