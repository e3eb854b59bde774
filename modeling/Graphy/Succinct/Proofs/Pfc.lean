import Graphy.Core.Proofs.Encode
import Graphy.Misc.Search
import Graphy.Succinct.Pfc
import Graphy.Succinct.Proofs.Serial

/-!
# Front-coded dictionaries

A dictionary lists keys when a cursor taken to any entry holds its key.  Such a
dictionary is read back key by key, and located in when the keys ascend.
-/

namespace Graphy

/-! ## Blocks -/

theorem exists_div_mod (i : Nat) {bs : Nat} (positive : 1 ≤ bs) :
    ∃ q r, r < bs ∧ i = bs * q + r ∧ i / bs = q ∧ i % bs = r :=
  ⟨i / bs, i % bs, Nat.mod_lt i positive, (Nat.div_add_mod i bs).symm, rfl, rfl⟩

theorem div_mod_add {bs : Nat} (q : Nat) {r : Nat} (small : r < bs) :
    (bs * q + r) / bs = q ∧ (bs * q + r) % bs = r := by
  rw [Nat.mul_add_div (by omega), Nat.mul_add_mod, Nat.div_eq_of_lt small, Nat.mod_eq_of_lt small]
  exact ⟨rfl, rfl⟩

theorem div_mod_succ {i bs : Nat} (positive : 1 ≤ bs) (inside : (i + 1) % bs ≠ 0) :
    (i + 1) / bs = i / bs ∧ (i + 1) % bs = i % bs + 1 := by
  obtain ⟨q, r, small, rfl, quotient, rest⟩ := exists_div_mod i positive
  rw [quotient, rest, Nat.add_assoc]
  by_cases last : r + 1 = bs
  · refine absurd ?_ inside
    rw [Nat.add_assoc, last, Nat.add_mod_right, Nat.mul_mod_right]
  · exact div_mod_add q (by omega)

namespace Pfc

theorem lt_divCeil_iff {n bs b : Nat} (positive : 1 ≤ bs) : b < divCeil n bs ↔ b * bs < n := by
  rw [divCeil, Nat.lt_iff_add_one_le, Nat.le_div_iff_mul_le positive, Nat.succ_mul]
  omega

theorem block_lt {n bs i : Nat} (positive : 1 ≤ bs) (inside : i < n) : i / bs < divCeil n bs :=
  (lt_divCeil_iff positive).mpr (lt_of_le_of_lt (Nat.div_mul_le_self i bs) inside)

theorem ascending_lt {keys : List Bytes} (ascending : keys.Pairwise (· < ·)) {i j : Nat}
    {a b : Bytes} (first : keys[i]? = some a) (second : keys[j]? = some b) (less : i < j) :
    a < b := by
  obtain ⟨insideA, rfl⟩ := List.getElem?_eq_some_iff.mp first
  obtain ⟨insideB, rfl⟩ := List.getElem?_eq_some_iff.mp second
  exact List.pairwise_iff_getElem.mp ascending i j insideA insideB less

/-! ## Cursors -/

/-- A cursor taken to an entry. -/
def cursorTo (p : Pfc) (i : Nat) : Except PfcPanic BlockCursor := do
  let c ← p.cursor (i / p.blockSize)
  p.advanceBy (i % p.blockSize) c

theorem offset_some {p : Pfc} {b off : Nat} (here : p.blockOffsets[b]? = some off) :
    p.offset b = .ok off := by rw [offset, here]

theorem advanceBy_succ (p : Pfc) (k : Nat) (c : BlockCursor) :
    p.advanceBy (k + 1) c = p.advanceBy k c >>= p.advance := by
  induction k generalizing c with
  | zero =>
      rw [advanceBy, advanceBy, ok_bind]
      cases p.advance c with
      | error e => rfl
      | ok c' => rfl
  | succ k ih =>
      rw [advanceBy, advanceBy]
      cases p.advance c with
      | error e => rfl
      | ok c' => exact ih c'

theorem cursorTo_head {p : Pfc} {i : Nat} (first : i % p.blockSize = 0) :
    p.cursorTo i = p.cursor (i / p.blockSize) := by
  rw [cursorTo, first]
  cases p.cursor (i / p.blockSize) with
  | error e => rfl
  | ok c => rfl

theorem cursorTo_next {p : Pfc} {i : Nat} (positive : 1 ≤ p.blockSize)
    (inside : (i + 1) % p.blockSize ≠ 0) : p.cursorTo (i + 1) = p.cursorTo i >>= p.advance := by
  obtain ⟨block, place⟩ := div_mod_succ positive inside
  rw [cursorTo, cursorTo, block, place]
  cases p.cursor (i / p.blockSize) with
  | error e => rfl
  | ok c => exact advanceBy_succ p _ c

/-- The dictionary lists these keys. -/
structure Lists (p : Pfc) (keys : List Bytes) : Prop where
  positive : 1 ≤ p.blockSize
  size : p.n = keys.length
  blocks : p.blockOffsets.length = divCeil p.n p.blockSize
  entry : ∀ i k, keys[i]? = some k → ∃ pos, p.cursorTo i = .ok ⟨pos, k⟩

namespace Lists

variable {p : Pfc} {keys : List Bytes} (lists : p.Lists keys)
include lists

theorem get_eq (i : Nat) : p.get i = .ok keys[i]? := by
  rw [get]
  by_cases past : p.n ≤ i
  · rw [if_pos past, List.getElem?_eq_none (by rwa [← lists.size])]
  · have inside : i < keys.length := by
      rw [← lists.size]
      omega
    obtain ⟨pos, there⟩ := lists.entry i _ (List.getElem?_eq_getElem inside)
    rw [cursorTo] at there
    rw [if_neg past, List.getElem?_eq_getElem inside]
    obtain ⟨c, first, rest⟩ := bind_eq_ok there
    rw [first, ok_bind, rest]
    rfl

/-! ## Iteration -/

/-- The iterator before an entry: inside a block its cursor is at the entry before. -/
def Follows (p : Pfc) (it : PfcIter) : Prop :=
  it.next % p.blockSize ≠ 0 → ∃ c, it.cursor = some c ∧ p.cursorTo (it.next - 1) = .ok c

theorem turn_eq {it : PfcIter} (follows : Follows p it) : it.turn p = p.cursorTo it.next := by
  rw [PfcIter.turn]
  by_cases first : it.next % p.blockSize = 0
  · rw [if_pos first, cursorTo_head first]
  · obtain ⟨c, held, before⟩ := follows first
    obtain ⟨j, next⟩ : ∃ j, it.next = j + 1 := by
      refine Nat.exists_eq_succ_of_ne_zero fun zero => first ?_
      rw [zero, Nat.zero_mod]
    rw [if_neg first, held]
    rw [next] at first before ⊢
    rw [cursorTo_next lists.positive first]
    rw [Nat.add_sub_cancel] at before
    rw [before]
    rfl

theorem step_eq {it : PfcIter} {k : Bytes} (here : keys[it.next]? = some k)
    (follows : Follows p it) :
    ∃ c, it.step p = .ok (some (k, ⟨it.next + 1, some c⟩)) ∧ p.cursorTo it.next = .ok c := by
  have inside := (List.getElem?_eq_some_iff.mp here).1
  obtain ⟨pos, there⟩ := lists.entry it.next k here
  have more : ¬ p.n ≤ it.next := by
    rw [lists.size]
    omega
  refine ⟨_, ?_, there⟩
  rw [PfcIter.step, if_neg more, lists.turn_eq follows, there]
  rfl

theorem collect_eq (fuel : Nat) (it : PfcIter) (enough : keys.length - it.next < fuel)
    (follows : Follows p it) : PfcIter.collect p fuel it = .ok (keys.drop it.next) := by
  induction fuel generalizing it with
  | zero => omega
  | succ fuel ih =>
      rw [PfcIter.collect]
      by_cases past : keys.length ≤ it.next
      · have ended : it.step p = .ok none := by
          rw [PfcIter.step, if_pos (by rwa [lists.size])]
        rw [ended, List.drop_eq_nil_of_le past]
        rfl
      · obtain ⟨c, step, there⟩ :=
          lists.step_eq (List.getElem?_eq_getElem (Nat.lt_of_not_le past)) follows
        have rest := ih ⟨it.next + 1, some c⟩ (by simp only; omega)
          fun _ => ⟨c, rfl, by rwa [Nat.add_sub_cancel]⟩
        rw [step, List.drop_eq_getElem_cons (Nat.lt_of_not_le past), ok_bind]
        change (PfcIter.collect p fuel ⟨it.next + 1, some c⟩ >>= _) = _
        rw [rest]
        rfl

theorem iter_eq : p.iter = .ok keys := by
  refine lists.collect_eq (p.n + 1) ⟨0, none⟩ ?_ fun first => absurd (Nat.zero_mod _) first
  rw [lists.size]
  omega

/-! ## Location -/

/-- The cursor at the head of a block holds the first key of the block. -/
theorem cursor_head {b : Nat} (inside : b < p.blockOffsets.length) :
    ∃ pos k, keys[b * p.blockSize]? = some k ∧ p.cursor b = .ok ⟨pos, k⟩ := by
  rw [lists.blocks, lt_divCeil_iff lists.positive] at inside
  have here : b * p.blockSize < keys.length := by rwa [← lists.size]
  obtain ⟨pos, there⟩ := lists.entry _ _ (List.getElem?_eq_getElem here)
  rw [cursorTo_head (Nat.mul_mod_left _ _), Nat.mul_div_cancel _ lists.positive] at there
  exact ⟨pos, _, List.getElem?_eq_getElem here, there⟩

theorem head_eq {b : Nat} (inside : b < p.blockOffsets.length) :
    p.head b = .ok (keys.getD (b * p.blockSize) []) := by
  obtain ⟨pos, k, here, first⟩ := lists.cursor_head inside
  rw [List.getD_eq_getElem?_getD, here]
  obtain ⟨off, at_, rest⟩ := bind_eq_ok first
  obtain ⟨⟨len, start⟩, size, rest⟩ := bind_eq_ok rest
  obtain ⟨key, bytes, rest⟩ := bind_eq_ok rest
  cases rest
  rw [head, at_, ok_bind, size]
  exact bytes

/-- Heads before the block are at most the key. -/
def headBelow (p : Pfc) (keys : List Bytes) (key : Bytes) (b : Nat) : Bool :=
  decide (keys.getD (b * p.blockSize) [] ≤ key)

theorem partitionByHead_eq (key : Bytes) (fuel : Nat) {lo hi : Nat}
    (room : hi ≤ p.blockOffsets.length) :
    p.partitionByHead key fuel lo hi = .ok (lowerBound (headBelow p keys key) fuel lo hi) := by
  induction fuel generalizing lo hi with
  | zero => rfl
  | succ fuel ih =>
      rw [partitionByHead, lowerBound]
      by_cases more : lo < hi
      · rw [if_pos more, if_pos more, lists.head_eq (show (lo + hi) / 2 < _ by omega), ok_bind]
        by_cases below : keys.getD ((lo + hi) / 2 * p.blockSize) [] ≤ key
        · have told : headBelow p keys key ((lo + hi) / 2) = true := decide_eq_true below
          rw [if_pos below, if_pos told]
          exact ih room
        · have told : headBelow p keys key ((lo + hi) / 2) = false := decide_eq_false below
          rw [if_neg below, told]
          exact ih (by omega)
      · rw [if_neg more, if_neg more]

/-- The scan of a block ends without a panic, and what it finds is there. -/
theorem scanBlock_sound (key : Bytes) {left idx : Nat} {c : BlockCursor}
    (there : p.cursorTo idx = .ok c) (here : keys[idx]? = some c.key)
    (block : ∀ j, 0 < j → j < left → (idx + j) % p.blockSize ≠ 0 ∧ idx + j < keys.length) :
    ∃ r, p.scanBlock key left idx c = .ok r ∧ ∀ i, r = some i → keys[i]? = some key := by
  induction left generalizing idx c with
  | zero => exact ⟨none, rfl, fun i none => by cases none⟩
  | succ left ih =>
      rw [scanBlock]
      by_cases same : c.key = key
      · rw [if_pos same]
        refine ⟨some idx, rfl, fun i found => ?_⟩
        cases found
        rw [here, same]
      rw [if_neg same]
      by_cases above : key < c.key
      · rw [if_pos above]
        exact ⟨none, rfl, fun i none => by cases none⟩
      rw [if_neg above]
      by_cases last : left = 0
      · rw [if_pos last]
        exact ⟨none, rfl, fun i none => by cases none⟩
      obtain ⟨inside, bound⟩ := block 1 (by omega) (by omega)
      obtain ⟨pos, next⟩ := lists.entry (idx + 1) _ (List.getElem?_eq_getElem bound)
      have step := cursorTo_next lists.positive inside
      rw [there, ok_bind, next] at step
      rw [if_neg last, ← step, ok_bind]
      refine ih next (List.getElem?_eq_getElem bound) fun j positive less => ?_
      rw [Nat.add_assoc]
      exact block (1 + j) (by omega) (by omega)

/-- In an ascending block the scan finds the key that is there. -/
theorem scanBlock_complete (ascending : keys.Pairwise (· < ·)) {key : Bytes} {left idx i : Nat}
    {c : BlockCursor} (there : p.cursorTo idx = .ok c) (here : keys[idx]? = some c.key)
    (block : ∀ j, 0 < j → j < left → (idx + j) % p.blockSize ≠ 0 ∧ idx + j < keys.length)
    (found : keys[i]? = some key) (from_ : idx ≤ i) (upto : i < idx + left) :
    p.scanBlock key left idx c = .ok (some i) := by
  induction left generalizing idx c with
  | zero => omega
  | succ left ih =>
      rw [scanBlock]
      by_cases same : idx = i
      · subst same
        rw [here, Option.some_inj] at found
        rw [if_pos found]
      have below : c.key < key := ascending_lt ascending here found (by omega)
      obtain ⟨inside, bound⟩ := block 1 (by omega) (by omega)
      obtain ⟨pos, next⟩ := lists.entry (idx + 1) _ (List.getElem?_eq_getElem bound)
      have step := cursorTo_next lists.positive inside
      rw [there, ok_bind, next] at step
      rw [if_neg (ne_of_lt below), if_neg (not_lt_of_gt below), if_neg (by omega), ← step, ok_bind]
      refine ih next (List.getElem?_eq_getElem bound) (fun j positive less => ?_) (by omega)
        (by omega)
      rw [Nat.add_assoc]
      exact block (1 + j) (by omega) (by omega)

/-- The entries of a block after its head, as far as there are keys. -/
theorem block_inside (b : Nat) :
    ∀ j, 0 < j → j < min (p.n - b * p.blockSize) p.blockSize →
      (b * p.blockSize + j) % p.blockSize ≠ 0 ∧ b * p.blockSize + j < keys.length := by
  intro j positive less
  have size := lists.size
  have rest := (div_mod_add b (show j < p.blockSize by omega)).2
  rw [Nat.mul_comm] at rest
  exact ⟨by omega, by omega⟩

/-- The number of blocks whose head is at most the key, as far as the search tells. -/
def blocksBelow (p : Pfc) (keys : List Bytes) (key : Bytes) : Nat :=
  lowerBound (headBelow p keys key) p.blockOffsets.length 0 p.blockOffsets.length

omit lists in
theorem locate_empty {key : Bytes} (empty : p.n = 0) : p.locate key = .ok none := by
  rw [locate, if_pos empty]

theorem locate_none {key : Bytes} (none : blocksBelow p keys key = 0) :
    p.locate key = .ok .none := by
  by_cases empty : p.n = 0
  · exact locate_empty empty
  · rw [locate, if_neg empty, lists.partitionByHead_eq key _ le_rfl, ok_bind]
    exact if_pos none

theorem locate_block {key : Bytes} {b : Nat} (upto : blocksBelow p keys key = b + 1) :
    ∃ c, p.cursorTo (b * p.blockSize) = .ok c ∧ keys[b * p.blockSize]? = some c.key ∧
      p.locate key = p.scanBlock key (min (p.n - b * p.blockSize) p.blockSize)
        (b * p.blockSize) c := by
  have bound := lowerBound_le (headBelow p keys key) p.blockOffsets.length
    (Nat.zero_le p.blockOffsets.length)
  rw [← blocksBelow, upto] at bound
  obtain ⟨pos, k, here, first⟩ := lists.cursor_head bound
  have inside := bound
  rw [Nat.succ_le_iff, lists.blocks, lt_divCeil_iff lists.positive] at inside
  refine ⟨⟨pos, k⟩, ?_, here, ?_⟩
  · rw [cursorTo_head (Nat.mul_mod_left _ _), Nat.mul_div_cancel _ lists.positive, first]
  · have partitioned : p.partitionByHead key p.blockOffsets.length 0 p.blockOffsets.length =
        .ok (blocksBelow p keys key) := lists.partitionByHead_eq key _ le_rfl
    rw [upto] at partitioned
    rw [locate, if_neg (by omega), partitioned, ok_bind, if_neg (Nat.succ_ne_zero b)]
    change (p.cursor b >>= _) = _
    rw [first, ok_bind]
    refine if_neg ?_
    rw [Nat.add_sub_cancel]
    omega

/-- Location ends without a panic, and what it finds is there. -/
theorem locate_sound (key : Bytes) :
    ∃ r, p.locate key = .ok r ∧ ∀ i, r = some i → keys[i]? = some key := by
  cases upto : blocksBelow p keys key with
  | zero => exact ⟨none, lists.locate_none upto, fun i none => by cases none⟩
  | succ b =>
      obtain ⟨c, there, here, located⟩ := lists.locate_block upto
      rw [located]
      exact lists.scanBlock_sound key there here (lists.block_inside b)

/-- Where the keys ascend, the block of a key is the last whose head is at most the key. -/
theorem blocksBelow_eq (ascending : keys.Pairwise (· < ·)) {key : Bytes} {i : Nat}
    (found : keys[i]? = some key) : blocksBelow p keys key = i / p.blockSize + 1 := by
  have inside := (List.getElem?_eq_some_iff.mp found).1
  have whole := Nat.div_mul_le_self i p.blockSize
  have headAt (b : Nat) (hb : b < p.blockOffsets.length) :
      ∃ k, keys[b * p.blockSize]? = some k ∧ headBelow p keys key b = decide (k ≤ key) := by
    obtain ⟨pos, k, here, -⟩ := lists.cursor_head hb
    refine ⟨k, here, ?_⟩
    rw [headBelow, List.getD_eq_getElem?_getD, here]
    rfl
  have ordered (b : Nat) (hb : b < p.blockOffsets.length) :
      headBelow p keys key b = true ↔ b * p.blockSize ≤ i := by
    obtain ⟨k, here, told⟩ := headAt b hb
    rw [told, decide_eq_true_eq]
    rcases Nat.lt_trichotomy (b * p.blockSize) i with less | same | more
    · exact ⟨fun _ => less.le, fun _ => (ascending_lt ascending here found less).le⟩
    · rw [same, found, Option.some_inj] at here
      exact ⟨fun _ => same.le, fun _ => here.ge⟩
    · exact ⟨fun le => absurd (ascending_lt ascending found here more) (not_lt_of_ge le),
        fun le => absurd le (Nat.not_le_of_lt more)⟩
  have mono : ∀ a b, 0 ≤ a → a ≤ b → b < p.blockOffsets.length →
      headBelow p keys key b = true → headBelow p keys key a = true := by
    intro a b _ le hb told
    rw [ordered b hb] at told
    rw [ordered a (by omega)]
    exact (Nat.mul_le_mul_right _ le).trans told
  obtain ⟨-, most, below, above⟩ :=
    @lowerBound_spec _ p.blockOffsets.length 0 _ (Nat.sub_le _ _) (Nat.zero_le _) mono
  rw [← blocksBelow] at most below above
  have own : i / p.blockSize < p.blockOffsets.length := by
    rw [lists.blocks]
    exact block_lt lists.positive (by rw [lists.size]; exact inside)
  have least : i / p.blockSize < blocksBelow p keys key := by
    by_contra past
    have told := above _ (Nat.le_of_not_lt past) own
    rw [(ordered _ own).mpr whole] at told
    cases told
  by_contra differs
  have next : i / p.blockSize + 1 < blocksBelow p keys key := by omega
  have told := below _ (Nat.zero_le _) next
  rw [ordered _ (by omega)] at told
  have := (Nat.le_div_iff_mul_le lists.positive).mpr told
  omega

theorem locate_complete (ascending : keys.Pairwise (· < ·)) {key : Bytes} {i : Nat}
    (found : keys[i]? = some key) : p.locate key = .ok (some i) := by
  have inside := (List.getElem?_eq_some_iff.mp found).1
  obtain ⟨c, there, here, located⟩ := lists.locate_block (lists.blocksBelow_eq ascending found)
  have whole := Nat.div_mul_le_self i p.blockSize
  have rest := Nat.mod_lt i lists.positive
  have sum := Nat.div_add_mod i p.blockSize
  rw [Nat.mul_comm] at sum
  have size := lists.size
  rw [located]
  exact lists.scanBlock_complete ascending there here (lists.block_inside _) found whole (by omega)

theorem locate_iff (ascending : keys.Pairwise (· < ·)) (key : Bytes) (i : Nat) :
    p.locate key = .ok (some i) ↔ keys[i]? = some key := by
  constructor
  · intro located
    obtain ⟨r, ran, sound⟩ := lists.locate_sound key
    rw [located, Except.ok.injEq] at ran
    exact sound i ran.symm
  · exact lists.locate_complete ascending

end Lists

end Pfc

end Graphy
