import Graphy.Store.PackedBt
import Graphy.Succinct.Proofs.Reference

/-!
# Accepted payloads are safe to navigate, all but the orphaned ones and the very long ones

What the checks of deserialization leave to navigation.  They pass a payload with triples but no
pair, and one whose marks reach past the superblocks that 32 bits can tell apart; where there is
a pair, or no triple, and the samples of the marks are in order, no navigation call panics.
-/

namespace Graphy

open BitVector

theorem checkedAdd_eq {a b : Nat} (h : a + b < 2 ^ 64) : checkedAdd a b = some (a + b) := if_pos h

namespace BitWords

variable {b : BitWords} (valid : b.Valid)
include valid

theorem Valid.holding : Succinct.Holding b.load b.bits := ⟨rfl, (length_bits b).symm, valid.holds⟩

theorem Valid.rank1 {i : Nat} (h : i ≤ b.len) :
    b.rank1 i = some (BitVector.rank1 b.bits i) := by
  rw [BitWords.rank1, valid.holding.rank1_reference (by rwa [length_bits])]
  rfl

theorem Valid.nextOne (i : Nat) : b.nextOne i = some (BitVector.nextOne b.bits i) := by
  rw [BitWords.nextOne, valid.holding.nextOne_reference]
  rfl

/-- A select returns where the samples it starts from do not run backwards. -/
theorem Valid.select1 {k : Nat} (straight : Succinct.StraightAt b.bits (k / Succinct.selectSample)) :
    b.select1 k = some (BitVector.select1 b.bits k) := by
  rw [BitWords.select1, valid.holding.select1_straight straight]
  rfl

/-- Otherwise it underflows. -/
theorem Valid.select1_crooked {k i : Nat} (found : BitVector.select1 b.bits k = some i)
    (crooked : ¬ Succinct.StraightAt b.bits (k / Succinct.selectSample)) : b.select1 k = none := by
  rw [BitWords.select1, valid.holding.select1_crooked found crooked]
  rfl

end BitWords

/-! ## Words and column values -/

namespace Col

theorem tag_ofRaw (n : Nat) : (ofRaw n).tag = n / 2 ^ 60 := rfl

theorem payload_ofRaw (n : Nat) : (ofRaw n).payload = n % 2 ^ 60 := rfl

@[simp] theorem raw_ofRaw (n : Nat) : (ofRaw n).raw = n := by
  rw [raw, tag_ofRaw, payload_ofRaw]
  omega

@[simp] theorem raw_dict (n : Nat) : (dict n).raw = n := by simp [raw, dict]

theorem ofRaw_lt_ofRaw {a b : Nat} : ofRaw a < ofRaw b ↔ a < b := by
  rw [lt_iff, tag_ofRaw, tag_ofRaw, payload_ofRaw, payload_ofRaw]
  omega

theorem ofRaw_inj {a b : Nat} : ofRaw a = ofRaw b ↔ a = b :=
  ⟨fun same => by rw [← raw_ofRaw a, same, raw_ofRaw], fun same => same ▸ rfl⟩

end Col

namespace PackedInts

@[simp] theorem length_values (p : PackedInts) : p.values.length = p.len := by simp [values]

/-- The values of a sequence as column values. -/
def cols (p : PackedInts) : List Col := p.values.map Col.ofRaw

@[simp] theorem length_cols (p : PackedInts) : p.cols.length = p.len := by simp [cols]

variable {p : PackedInts} (valid : p.Valid)
include valid

theorem Valid.get_cols {i : Nat} (h : i < p.len) :
    ∃ v, p.get i = some v ∧ p.cols[i]? = some (Col.ofRaw v) := by
  obtain ⟨v, read⟩ := valid.get h
  refine ⟨v, read, ?_⟩
  rw [cols, List.getElem?_map, values, List.getElem?_map, List.getElem?_range h, Option.map_some,
    Option.map_some, read]
  rfl

theorem Valid.get_getD {i : Nat} (h : i < p.len) (c : Col) :
    p.get i = some (p.cols.getD i c).raw := by
  obtain ⟨v, read, col⟩ := valid.get_cols h
  rw [List.getD_eq_getElem?_getD, col, Option.getD_some, Col.raw_ofRaw, read]

/-- Searching within a valid sequence makes no check fail. -/
theorem Valid.lowerBound (v fuel : Nat) {lo hi : Nat} (le : lo ≤ hi) (inside : hi ≤ p.len) :
    p.lowerBound v fuel lo hi =
      some (Graphy.lowerBound (belowAt p.cols (Col.ofRaw v)) fuel lo hi) := by
  have len := valid.len
  unfold cap at len
  induction fuel generalizing lo hi with
  | zero => rfl
  | succ fuel ih =>
      rw [PackedInts.lowerBound, Graphy.lowerBound]
      by_cases open_ : lo < hi
      · obtain ⟨u, hu, col⟩ := valid.get_cols (show (lo + hi) / 2 < p.len by omega)
        have sum : checkedAdd lo hi = some (lo + hi) := checkedAdd_eq (by omega)
        have next : checkedAdd ((lo + hi) / 2) 1 = some ((lo + hi) / 2 + 1) :=
          checkedAdd_eq (by omega)
        have below : belowAt p.cols (Col.ofRaw v) ((lo + hi) / 2) = decide (u < v) := by
          rw [belowAt, col]
          exact decide_eq_decide.mpr Col.ofRaw_lt_ofRaw
        simp only [if_pos open_, sum, hu, next, bind, Option.bind, below, decide_eq_true_eq]
        by_cases less : u < v
        · rw [if_pos less, if_pos less]
          exact ih (show (lo + hi) / 2 + 1 ≤ hi by omega) inside
        · rw [if_neg less, if_neg less]
          exact ih (show lo ≤ (lo + hi) / 2 by omega) (show (lo + hi) / 2 ≤ p.len by omega)
      · rw [if_neg open_, if_neg open_]

theorem Valid.find (v : Nat) {lo hi : Nat} (le : lo ≤ hi) (inside : hi ≤ p.len) :
    p.find lo hi v = some (findIn p.cols lo hi (Col.ofRaw v)) := by
  rw [PackedInts.find, valid.lowerBound v _ le inside, findIn]
  generalize Graphy.lowerBound (belowAt p.cols (Col.ofRaw v)) (hi - lo) lo hi = i
  simp only [bind, Option.bind, pure]
  by_cases stops : i < hi
  · obtain ⟨u, hu, col⟩ := valid.get_cols (show i < p.len by omega)
    have same : p.cols[i]? = some (Col.ofRaw v) ↔ u = v := by
      rw [col, Option.some_inj, Col.ofRaw_inj]
    simp only [stops, if_true, hu, true_and, same]
  · simp only [stops, false_and, if_false]

end PackedInts

namespace PackedBt

/-- What deserialization checks. -/
structure Accepted (bt : PackedBt) : Prop where
  xValues : ∀ xs, bt.xValues = some xs → xs.Valid ∧ xs.len = bt.nX
  bx : bt.bx.Valid
  sy : bt.sy.Valid
  by_ : bt.by_.Valid
  sz : bt.sz.Valid
  pz : ∀ pz, bt.pz = some pz → pz.Valid ∧ pz.len = bt.sz.len
  pairs : bt.bx.len = bt.sy.len
  triples : bt.by_.len = bt.sz.len
  groups : bt.bx.bits.count true = bt.nX
  runs : bt.by_.bits.count true = bt.sy.len
  first : bt.sy.len ≠ 0 → bt.bx.bits.head? = some true ∧ bt.by_.bits.head? = some true

theorem accepted_of_defect {bt : PackedBt}
    (xValues : ∀ xs, bt.xValues = some xs → xs.Valid) (bx : bt.bx.Valid) (sy : bt.sy.Valid)
    (by_ : bt.by_.Valid) (sz : bt.sz.Valid) (pz : ∀ pz, bt.pz = some pz → pz.Valid)
    (sound : bt.defect = none) : bt.Accepted := by
  unfold defect at sound
  split_ifs at sound with lengths counts first xCount xOrder pzCount pzRange
  rw [not_or, not_not, not_not] at lengths counts
  refine ⟨?_, bx, sy, by_, sz, ?_, lengths.1, lengths.2, counts.1, counts.2, ?_⟩
  · intro xs hxs
    refine ⟨xValues xs hxs, ?_⟩
    simpa [hxs] using xCount
  · intro p hp
    refine ⟨pz p hp, ?_⟩
    simpa [hp] using pzCount
  · intro some_
    by_contra unset
    rw [not_and_or] at unset
    exact first ⟨some_, unset⟩

theorem readOptional_ok {present : Bool} {c c' : ByteCursor} {seq : Option PackedInts}
    (h : readOptional present c = .ok (seq, c')) :
    (∀ p, seq = some p → p.Valid) ∧ c'.bytes = c.bytes ∧
      c'.pos = if present then seqEnd c.bytes c.pos else c.pos := by
  cases present with
  | false =>
      cases h
      refine ⟨?_, rfl, rfl⟩
      intro p hp
      cases hp
  | true =>
      obtain ⟨⟨p, c₁⟩, read, h⟩ := bind_eq_ok h
      cases h
      obtain ⟨valid, width, len, bytes, pos⟩ := PackedInts.deserializeView_ok read
      refine ⟨?_, bytes, ?_⟩
      · intro q hq
        cases hq
        exact valid
      · rw [pos, width, len]
        rfl

theorem readParts_ok {payload : Bytes} {bt : PackedBt} {c : ByteCursor}
    (h : readParts (ByteCursor.new payload) = .ok (bt, c)) :
    ((∀ xs, bt.xValues = some xs → xs.Valid) ∧ bt.bx.Valid ∧ bt.sy.Valid ∧ bt.by_.Valid ∧
      bt.sz.Valid ∧ ∀ pz, bt.pz = some pz → pz.Valid) ∧
    bt.sy.len = pairCount payload ∧ bt.sz.len = tripleCount payload ∧
      bt.bx.bits = bitsAt payload (bxOffset payload) ∧
      bt.by_.bits = bitsAt payload (byOffset payload) := by
  obtain ⟨⟨flags, c₁⟩, readFlags, h⟩ := bind_eq_ok h
  obtain ⟨flagsAt, bytes₁, pos₁⟩ := ByteCursor.readU64_ok readFlags
  obtain ⟨⟨nX, c₂⟩, readNX, h⟩ := bind_eq_ok h
  obtain ⟨-, bytes₂, pos₂⟩ := ByteCursor.readU64_ok readNX
  obtain ⟨⟨xValues, c₃⟩, readX, h⟩ := bind_eq_ok h
  obtain ⟨validX, bytes₃, pos₃⟩ := readOptional_ok readX
  obtain ⟨⟨bx, c₄⟩, readBx, h⟩ := bind_eq_ok h
  obtain ⟨validBx, lenBx, bitsBx, bytes₄, pos₄⟩ := BitWords.deserializeView_ok readBx
  obtain ⟨⟨sy, c₅⟩, readSy, h⟩ := bind_eq_ok h
  obtain ⟨validSy, widthSy, lenSy, bytes₅, pos₅⟩ := PackedInts.deserializeView_ok readSy
  obtain ⟨⟨by_, c₆⟩, readBy, h⟩ := bind_eq_ok h
  obtain ⟨validBy, lenBy, bitsBy, bytes₆, pos₆⟩ := BitWords.deserializeView_ok readBy
  obtain ⟨⟨sz, c₇⟩, readSz, h⟩ := bind_eq_ok h
  obtain ⟨validSz, -, lenSz, -, -⟩ := PackedInts.deserializeView_ok readSz
  obtain ⟨⟨pz, c₈⟩, readPz, h⟩ := bind_eq_ok h
  obtain ⟨validPz, -, -⟩ := readOptional_ok readPz
  cases h
  -- every part stands where the layout says
  have at₁ : c₁.bytes = payload := bytes₁
  have at₂ : c₂.bytes = payload := bytes₂.trans at₁
  have at₃ : c₃.bytes = payload := bytes₃.trans at₂
  have at₄ : c₄.bytes = payload := bytes₄.trans at₃
  have at₅ : c₅.bytes = payload := bytes₅.trans at₄
  have at₆ : c₆.bytes = payload := bytes₆.trans at₅
  have start : c₂.pos = 16 := by rw [pos₂, pos₁]; rfl
  have bxAt : c₃.pos = bxOffset payload := by
    rw [pos₃, at₂, start, bxOffset, flagsAt]
    simp [ByteCursor.new]
  have syAt : c₄.pos = syOffset payload := by rw [pos₄, lenBx, at₃, bxAt]; rfl
  have byAt : c₅.pos = byOffset payload := by rw [pos₅, lenSy, widthSy, at₄, syAt]; rfl
  have szAt : c₆.pos = szOffset payload := by rw [pos₆, lenBy, at₅, byAt]; rfl
  refine ⟨⟨validX, validBx, validSy, validBy, validSz, validPz⟩, ?_, ?_, ?_, ?_⟩
  · rw [lenSy, at₄, syAt]
    rfl
  · rw [lenSz, at₆, szAt]
    rfl
  · rw [bitsBx, lenBx, at₃, bxAt]
    rfl
  · rw [bitsBy, lenBy, at₅, byAt]
    rfl

/-- What deserialization returns passed its checks. -/
theorem deserialize_ok {payload : Bytes} {bt : PackedBt} {c : ByteCursor}
    (h : deserialize (ByteCursor.new payload) = .ok (bt, c)) :
    bt.Accepted ∧ bt.sy.len = pairCount payload ∧ bt.sz.len = tripleCount payload ∧
      bt.bx.bits = bitsAt payload (bxOffset payload) ∧
      bt.by_.bits = bitsAt payload (byOffset payload) := by
  obtain ⟨⟨parts, c₁⟩, read, h⟩ := bind_eq_ok h
  obtain ⟨⟨xValues, bx, sy, by_, sz, pz⟩, counts⟩ := readParts_ok read
  simp only at h
  cases sound : parts.defect with
  | some m =>
      rw [sound] at h
      cases h
  | none =>
      rw [sound] at h
      cases h
      exact ⟨accepted_of_defect xValues bx sy by_ sz pz sound, counts⟩

/-- A finished iterator stays finished. -/
theorem nextTimes_ended (bt : PackedBt) {it : SeqIter} (h : it.stop ≤ it.i) (n : Nat) :
    (bt.nextTimes n it).isSome := by
  induction n with
  | zero => rfl
  | succ n ih =>
      have step : bt.next it = some (none, it) := if_pos h
      rw [nextTimes, step]
      exact ih

namespace Accepted

variable {bt : PackedBt} (acc : bt.Accepted)
include acc

theorem len_sy : bt.sy.len ≤ 2 ^ 48 := acc.sy.len

theorem len_sz : bt.sz.len ≤ 2 ^ 48 := acc.sz.len

theorem nX_le : bt.nX ≤ bt.sy.len := by
  rw [← acc.groups, ← acc.pairs, ← BitWords.length_bits]
  exact List.count_le_length

theorem length_bx : bt.bx.bits.length = bt.sy.len := by rw [BitWords.length_bits, acc.pairs]

theorem length_by : bt.by_.bits.length = bt.sz.len := by rw [BitWords.length_bits, acc.triples]

theorem xValue {g : Nat} (h : g < bt.nX) : bt.xValue g = some (bt.unpack.xValue g).raw := by
  unfold PackedBt.xValue Bt.xValue PackedBt.unpack
  cases explicit : bt.xValues with
  | none => simp
  | some xs =>
      obtain ⟨valid, len⟩ := acc.xValues xs explicit
      exact valid.get_getD (len ▸ h) _

theorem xGroup (x : Nat) : bt.xGroup x = some (bt.unpack.xGroup (Col.ofRaw x)) := by
  unfold PackedBt.xGroup Bt.xGroup PackedBt.unpack
  cases explicit : bt.xValues with
  | none =>
      have few := acc.nX_le
      have bound := acc.len_sy
      by_cases low : x < bt.nX
      · have same : (Col.ofRaw x).tag = 0 ∧ (Col.ofRaw x).payload = x := by
          rw [Col.tag_ofRaw, Col.payload_ofRaw]
          omega
        simp [Col.lt_dict_iff, low, same]
      · have none_ : ¬ ((Col.ofRaw x).tag = 0 ∧ (Col.ofRaw x).payload < bt.nX) := by
          rw [Col.tag_ofRaw, Col.payload_ofRaw]
          omega
        simp [Col.lt_dict_iff, low, none_]
  | some xs =>
      obtain ⟨valid, len⟩ := acc.xValues xs explicit
      have found := valid.find x (Nat.zero_le xs.len) (le_refl _)
      simpa [PackedInts.cols] using found

theorem xGroup_lt {c : Col} {g : Nat} (found : bt.unpack.xGroup c = some g) : g < bt.nX := by
  unfold Bt.xGroup PackedBt.unpack at found
  cases explicit : bt.xValues with
  | none =>
      simp only [explicit, Option.map_none] at found
      split at found
      case isTrue low =>
        cases found
        exact (Col.lt_dict_iff.mp low).2
      case isFalse => cases found
  | some xs =>
      obtain ⟨-, len⟩ := acc.xValues xs explicit
      simp only [explicit, Option.map_some] at found
      have inside := (findIn_some found).1
      rwa [List.length_map, PackedInts.length_values, len] at inside

theorem spoAt {i : Nat} (h : i < bt.sz.len) : bt.spoAt i = some (bt.unpack.spoAt i) := by
  unfold PackedBt.spoAt Bt.spoAt PackedBt.unpack
  cases payload : bt.pz with
  | none => rfl
  | some pz =>
      obtain ⟨valid, len⟩ := acc.pz pz payload
      obtain ⟨v, read⟩ := valid.get (len ▸ h)
      have here : pz.values[i]? = some v := by
        rw [PackedInts.values, List.getElem?_map, List.getElem?_range (len ▸ h), Option.map_some,
          read]
        rfl
      simp only [Option.map_some, read, List.getD_eq_getElem?_getD, here, Option.getD_some]

theorem yAt {yi : Nat} (h : yi < bt.sy.len) : bt.sy.get yi = some (bt.unpack.yAt yi).raw :=
  acc.sy.get_getD h _

theorem zAt {i : Nat} (h : i < bt.sz.len) : bt.sz.get i = some (bt.unpack.zAt i).raw :=
  acc.sz.get_getD h _

/-! ## Ranges -/

/-- The pairs of a group lie within the pairs. -/
theorem yRange_inside {g : Nat} (h : g < bt.nX) :
    ∃ ya, select1 bt.bx.bits g = some ya ∧ ya < bt.sy.len ∧
      ya ≤ (select1 bt.bx.bits (g + 1)).getD bt.sy.len ∧
      (select1 bt.bx.bits (g + 1)).getD bt.sy.len ≤ bt.sy.len := by
  obtain ⟨ya, start⟩ := @select1_isSome_of_lt bt.bx.bits g (acc.groups.symm ▸ h)
  have inside := select1_lt_length start
  have range := select1_getD_range start (Nat.le_succ g)
  rw [acc.length_bx] at inside range
  exact ⟨ya, start, inside, range⟩

/-- The ordinals between two runs. -/
theorem ordinals {ya yb : Nat} (h : ya < bt.sy.len) (le : ya ≤ yb) :
    ∃ za, select1 bt.by_.bits ya = some za ∧ za ≤ (select1 bt.by_.bits yb).getD bt.sz.len ∧
      (select1 bt.by_.bits yb).getD bt.sz.len ≤ bt.sz.len := by
  obtain ⟨za, start⟩ := @select1_isSome_of_lt bt.by_.bits ya (acc.runs.symm ▸ h)
  have range := select1_getD_range start le
  rw [acc.length_by] at range
  exact ⟨za, start, range⟩

omit acc in
theorem unpack_lengths (bt : PackedBt) :
    bt.unpack.sy.length = bt.sy.len ∧ bt.unpack.sz.length = bt.sz.len := by
  simp [PackedBt.unpack]

section Sampled

variable (bx : Succinct.Straight bt.bx.bits) (by_ : Succinct.Straight bt.by_.bits)

include bx in
theorem yRange {g : Nat} (h : g < bt.nX) : bt.yRange g = some (bt.unpack.yRange g) := by
  obtain ⟨ya, start, -⟩ := acc.yRange_inside h
  have bound := acc.len_sy
  have groups := acc.nX_le
  have next : checkedAdd g 1 = some (g + 1) := checkedAdd_eq (by omega)
  have unpacked : bt.unpack.yRange g = (ya, (select1 bt.bx.bits (g + 1)).getD bt.sy.len) := by
    rw [Bt.yRange, (unpack_lengths bt).1]
    simp only [PackedBt.unpack, start, Option.getD_some]
  rw [unpacked]
  simp only [PackedBt.yRange, acc.bx.select1 (bx _), start, next, bind, Option.bind, pure]

theorem yRange_le {g : Nat} (h : g < bt.nX) :
    (bt.unpack.yRange g).1 ≤ (bt.unpack.yRange g).2 ∧ (bt.unpack.yRange g).2 ≤ bt.sy.len := by
  obtain ⟨ya, start, -, range⟩ := acc.yRange_inside h
  rw [Bt.yRange, (unpack_lengths bt).1]
  simp only [PackedBt.unpack, start, Option.getD_some]
  exact range

include bx in
theorem findY {g : Nat} (h : g < bt.nX) (y : Nat) :
    bt.findY g y = some (bt.unpack.findY g (Col.ofRaw y)) := by
  obtain ⟨le, inside⟩ := acc.yRange_le h
  simp only [PackedBt.findY, acc.yRange bx h, bind, Option.bind, acc.sy.find y le inside]
  rfl

include by_ in
theorem zRange {yi : Nat} (h : yi < bt.sy.len) : bt.zRange yi = some (bt.unpack.zRange yi) := by
  obtain ⟨za, start, -⟩ := acc.ordinals h (Nat.le_succ yi)
  have bound := acc.len_sy
  have next : checkedAdd yi 1 = some (yi + 1) := checkedAdd_eq (by omega)
  have unpacked : bt.unpack.zRange yi = (za, (select1 bt.by_.bits (yi + 1)).getD bt.sz.len) := by
    rw [Bt.zRange, (unpack_lengths bt).2]
    simp only [PackedBt.unpack, start, Option.getD_some]
  rw [unpacked]
  simp only [PackedBt.zRange, acc.by_.select1 (by_ _), start, next, bind, Option.bind, pure]

theorem zRange_le {yi : Nat} (h : yi < bt.sy.len) :
    (bt.unpack.zRange yi).1 ≤ (bt.unpack.zRange yi).2 ∧ (bt.unpack.zRange yi).2 ≤ bt.sz.len := by
  obtain ⟨za, start, range⟩ := acc.ordinals h (Nat.le_succ yi)
  rw [Bt.zRange, (unpack_lengths bt).2]
  simp only [PackedBt.unpack, start, Option.getD_some]
  exact range

include by_ in
theorem findZ {yi : Nat} (h : yi < bt.sy.len) (z : Nat) :
    bt.findZ yi z = some (bt.unpack.findZ yi (Col.ofRaw z)) := by
  obtain ⟨le, inside⟩ := acc.zRange_le h
  simp only [PackedBt.findZ, acc.zRange by_ h, bind, Option.bind, acc.sz.find z le inside]
  rfl

theorem zRangeOfGroup_inside {g : Nat} (h : g < bt.nX) :
    ∃ za, select1 bt.by_.bits (bt.unpack.yRange g).1 = some za ∧
      (select1 bt.by_.bits (bt.unpack.yRange g).2).getD bt.sz.len ≤ bt.sz.len := by
  obtain ⟨ya, start, inside, le, -⟩ := acc.yRange_inside h
  obtain ⟨za, first, -, stop⟩ := acc.ordinals inside le
  rw [Bt.yRange, (unpack_lengths bt).1]
  simp only [PackedBt.unpack, start, Option.getD_some]
  exact ⟨za, first, stop⟩

include bx by_ in
theorem zRangeOfGroup {g : Nat} (h : g < bt.nX) :
    bt.zRangeOfGroup g = some (bt.unpack.zRangeOfGroup g) := by
  obtain ⟨za, first, -⟩ := acc.zRangeOfGroup_inside h
  have unpacked : bt.unpack.zRangeOfGroup g =
      (za, (select1 bt.by_.bits (bt.unpack.yRange g).2).getD bt.sz.len) := by
    rw [Bt.zRangeOfGroup, (unpack_lengths bt).2]
    exact congrArg (fun o => (Option.getD o 0, _)) first
  rw [unpacked]
  simp only [PackedBt.zRangeOfGroup, acc.yRange bx h, acc.by_.select1 (by_ _), first, bind,
    Option.bind, pure]

theorem zRangeOfGroup_le {g : Nat} (h : g < bt.nX) : (bt.unpack.zRangeOfGroup g).2 ≤ bt.sz.len := by
  obtain ⟨-, -, stop⟩ := acc.zRangeOfGroup_inside h
  rw [Bt.zRangeOfGroup, (unpack_lengths bt).2]
  exact stop

end Sampled

/-! ## Runs and groups -/

section Grouped

variable (grouped : 0 < bt.sy.len)
include grouped

/-- The run of an ordinal, one less than the runs that start up to it. -/
theorem runOf {i : Nat} (h : i < bt.sz.len) :
    ∃ yi, bt.runOf i = some yi ∧ yi + 1 = BitVector.rank1 bt.by_.bits (i + 1) ∧
      yi < bt.sy.len := by
  have first := (acc.first (Nat.ne_of_gt grouped)).2
  have pos := rank1_pos first (show 0 < i + 1 by omega)
  have most := rank1_le_count bt.by_.bits (i + 1)
  rw [acc.runs] at most
  have bound := acc.len_sz
  have next : checkedAdd i 1 = some (i + 1) := checkedAdd_eq (by omega)
  have rank := acc.by_.rank1 (show i + 1 ≤ bt.by_.len by rw [acc.triples]; omega)
  refine ⟨BitVector.rank1 bt.by_.bits (i + 1) - 1, ?_, by omega, by omega⟩
  simp only [PackedBt.runOf, next, rank, bind, Option.bind]
  exact checkedSub_eq pos

/-- The group of a run, one less than the groups that start up to it. -/
theorem groupOfY {yi : Nat} (h : yi < bt.sy.len) :
    bt.groupOfY yi = some (bt.unpack.groupOfY yi) ∧
      bt.unpack.groupOfY yi + 1 = BitVector.rank1 bt.bx.bits (yi + 1) ∧
      bt.unpack.groupOfY yi < bt.nX := by
  have first := (acc.first (Nat.ne_of_gt grouped)).1
  have pos := rank1_pos first (show 0 < yi + 1 by omega)
  have most := rank1_le_count bt.bx.bits (yi + 1)
  rw [acc.groups] at most
  have bound := acc.len_sy
  have next : checkedAdd yi 1 = some (yi + 1) := checkedAdd_eq (by omega)
  have rank := acc.bx.rank1 (show yi + 1 ≤ bt.bx.len by rw [acc.pairs]; omega)
  have unpacked : bt.unpack.groupOfY yi = BitVector.rank1 bt.bx.bits (yi + 1) - 1 := rfl
  rw [unpacked]
  refine ⟨?_, by omega, by omega⟩
  simp only [PackedBt.groupOfY, next, rank, bind, Option.bind]
  exact checkedSub_eq pos

theorem tripleAt {i : Nat} (h : i < bt.sz.len) :
    bt.tripleAt i = some (raws (bt.unpack.tripleAt i)) := by
  obtain ⟨yi, run, rank, inside⟩ := acc.runOf grouped h
  obtain ⟨group, -, within⟩ := acc.groupOfY grouped inside
  have unpacked : bt.unpack.tripleAt i =
      ⟨bt.unpack.xValue (bt.unpack.groupOfY yi), bt.unpack.yAt yi, bt.unpack.zAt i⟩ := by
    have same : BitVector.rank1 bt.unpack.by_ (i + 1) - 1 = yi := Nat.sub_eq_of_eq_add rank.symm
    rw [Bt.tripleAt, same]
    rfl
  rw [unpacked]
  simp only [PackedBt.tripleAt, acc.zAt h, run, acc.yAt inside, group, acc.xValue within, bind,
    Option.bind, pure, raws]

end Grouped

/-! ## Iterators -/

/-- An iterator over the unpacked sequences, its column values in words. -/
def packIter (it : Bt.BtSeqIter) : SeqIter :=
  ⟨it.i, it.stop, it.yi, it.groupEndYi, it.g, it.x.raw, it.y.raw, it.runEnd⟩

/-- The iterator stands within a run and a group: no run starts between its run and
`runEnd`, and no group between its group and `groupEndYi`. -/
structure Within (bt : PackedBt) (it : Bt.BtSeqIter) : Prop where
  stop : it.stop ≤ bt.sz.len
  yi : it.yi < bt.sy.len
  g : it.g < bt.nX
  run : it.i ≤ it.runEnd
  runs : it.yi + 1 = BitVector.rank1 bt.by_.bits it.runEnd
  runStart : it.runEnd < bt.sz.len → bt.by_.bits[it.runEnd]? = some true
  group : it.yi < it.groupEndYi
  groups : it.g + 1 = BitVector.rank1 bt.bx.bits it.groupEndYi
  groupStart : it.groupEndYi < bt.sy.len → bt.bx.bits[it.groupEndYi]? = some true

/-- The next run start after an ordinal. -/
theorem nextRunStart {i : Nat} (h : i ≤ bt.sz.len) :
    ∃ e, bt.nextRunStart i = some e ∧ bt.unpack.nextRunStart i = e ∧ i ≤ e ∧
      BitVector.rank1 bt.by_.bits e = BitVector.rank1 bt.by_.bits i ∧
      (e < bt.sz.len → bt.by_.bits[e]? = some true) := by
  have len := acc.length_by
  obtain ⟨ge, -, rank, set⟩ := nextOne_stop (len ▸ h : i ≤ bt.by_.bits.length) rfl
  rw [len] at ge rank set
  refine ⟨(nextOne bt.by_.bits i).getD bt.sz.len, ?_, ?_, ge, rank, set⟩
  · rw [PackedBt.nextRunStart, acc.by_.nextOne]
    rfl
  · rw [Bt.nextRunStart, (unpack_lengths bt).2]
    rfl

/-- The next group start after a pair. -/
theorem nextGroupStart {yi : Nat} (h : yi ≤ bt.sy.len) :
    ∃ e, bt.nextGroupStart yi = some e ∧ bt.unpack.nextGroupStart yi = e ∧ yi ≤ e ∧
      BitVector.rank1 bt.bx.bits e = BitVector.rank1 bt.bx.bits yi ∧
      (e < bt.sy.len → bt.bx.bits[e]? = some true) := by
  have len := acc.length_bx
  obtain ⟨ge, -, rank, set⟩ := nextOne_stop (len ▸ h : yi ≤ bt.bx.bits.length) rfl
  rw [len] at ge rank set
  refine ⟨(nextOne bt.bx.bits yi).getD bt.sy.len, ?_, ?_, ge, rank, set⟩
  · rw [PackedBt.nextGroupStart, acc.bx.nextOne]
    rfl
  · rw [Bt.nextGroupStart, (unpack_lengths bt).1]
    rfl

theorem seqRange (grouped : 0 < bt.sy.len) {lo hi : Nat} (lt : lo < hi) (h : hi ≤ bt.sz.len) :
    bt.seqRange lo hi = some (packIter (bt.unpack.seqRange lo hi)) ∧
      Within bt (bt.unpack.seqRange lo hi) := by
  have bound := acc.len_sz
  have bound' := acc.len_sy
  obtain ⟨yi, run, rank, inside⟩ := acc.runOf grouped (show lo < bt.sz.len by omega)
  obtain ⟨group, rank', within⟩ := acc.groupOfY grouped inside
  have nextYi : checkedAdd yi 1 = some (yi + 1) := checkedAdd_eq (by omega)
  have next : checkedAdd lo 1 = some (lo + 1) := checkedAdd_eq (by omega)
  obtain ⟨runEnd, hrun, urun, beyond, same, start⟩ :=
    acc.nextRunStart (show lo + 1 ≤ bt.sz.len by omega)
  obtain ⟨groupEnd, hgroup, ugroup, beyond', same', start'⟩ :=
    acc.nextGroupStart (show yi + 1 ≤ bt.sy.len by omega)
  have unpacked : bt.unpack.seqRange lo hi = ⟨lo, hi, yi, groupEnd, bt.unpack.groupOfY yi,
      bt.unpack.xValue (bt.unpack.groupOfY yi), bt.unpack.yAt yi, runEnd⟩ := by
    have place : BitVector.rank1 bt.unpack.by_ (lo + 1) - 1 = yi := Nat.sub_eq_of_eq_add rank.symm
    rw [Bt.seqRange, if_neg (Nat.not_le.mpr lt), place, ← urun, ← ugroup]
    rfl
  rw [unpacked]
  refine ⟨?_, ⟨h, inside, within, Nat.le_of_succ_le beyond, rank.trans same.symm, start, beyond',
    rank'.trans same'.symm, start'⟩⟩
  rw [PackedBt.seqRange, if_neg (Nat.not_le.mpr lt)]
  simp only [run, group, nextYi, hgroup, acc.xValue within, acc.yAt inside, next, hrun, bind,
    Option.bind, pure, packIter]

/-- At the end of its run the iterator finds the next run, and at the end of its group the
next group. -/
theorem enterRun {it : Bt.BtSeqIter} (w : Within bt it) (more : it.i < it.stop)
    (ended : it.runEnd ≤ it.i) :
    bt.enterRun (packIter it) = some (packIter (it.enterRun bt.unpack)) ∧
      Within bt (it.enterRun bt.unpack) ∧ (it.enterRun bt.unpack).i = it.i ∧
      (it.enterRun bt.unpack).stop = it.stop ∧ it.i + 1 ≤ (it.enterRun bt.unpack).runEnd := by
  have bound := acc.len_sz
  have bound' := acc.len_sy
  have groups := acc.nX_le
  have stop := w.stop
  have here : it.runEnd = it.i := le_antisymm ended w.run
  have rank : BitVector.rank1 bt.by_.bits (it.i + 1) = it.yi + 1 + 1 := by
    have set := w.runStart (by omega)
    have runs := w.runs
    rw [here] at set runs
    rw [rank1_succ_of_get set, ← runs, Bool.toNat_true]
  have inside : it.yi + 1 < bt.sy.len := by
    have most := rank1_le_count bt.by_.bits (it.i + 1)
    rw [acc.runs] at most
    omega
  have nextYi : checkedAdd it.yi 1 = some (it.yi + 1) := checkedAdd_eq (by omega)
  have next : checkedAdd it.i 1 = some (it.i + 1) := checkedAdd_eq (by omega)
  obtain ⟨runEnd, hrun, urun, beyond, same, start⟩ :=
    acc.nextRunStart (show it.i + 1 ≤ bt.sz.len by omega)
  by_cases newGroup : it.groupEndYi ≤ it.yi + 1
  · have there : it.groupEndYi = it.yi + 1 := le_antisymm newGroup w.group
    have rank' : BitVector.rank1 bt.bx.bits (it.yi + 1 + 1) = it.g + 1 + 1 := by
      have set := w.groupStart (by omega)
      have groups := w.groups
      rw [there] at set groups
      rw [rank1_succ_of_get set, ← groups, Bool.toNat_true]
    have within : it.g + 1 < bt.nX := by
      have most := rank1_le_count bt.bx.bits (it.yi + 1 + 1)
      rw [acc.groups] at most
      omega
    have nextG : checkedAdd it.g 1 = some (it.g + 1) := checkedAdd_eq (by omega)
    have nextGroup : checkedAdd (it.yi + 1) 1 = some (it.yi + 1 + 1) := checkedAdd_eq (by omega)
    obtain ⟨groupEnd, hgroup, ugroup, beyond', same', start'⟩ :=
      acc.nextGroupStart (show it.yi + 1 + 1 ≤ bt.sy.len by omega)
    have entered : it.enterRun bt.unpack = ⟨it.i, it.stop, it.yi + 1, groupEnd, it.g + 1,
        bt.unpack.xValue (it.g + 1), bt.unpack.yAt (it.yi + 1), runEnd⟩ := by
      simp only [Bt.BtSeqIter.enterRun, if_pos newGroup, ugroup, urun]
    rw [entered]
    refine ⟨?_, ⟨stop, inside, within, Nat.le_of_succ_le beyond, rank.symm.trans same.symm, start,
      beyond', rank'.symm.trans same'.symm, start'⟩, rfl, rfl, beyond⟩
    simp only [PackedBt.enterRun, enterGroup, packIter, nextYi, if_pos newGroup, nextG,
      acc.xValue within, nextGroup, hgroup, acc.yAt inside, next, hrun, bind, Option.bind, pure]
  · have entered : it.enterRun bt.unpack = ⟨it.i, it.stop, it.yi + 1, it.groupEndYi, it.g, it.x,
        bt.unpack.yAt (it.yi + 1), runEnd⟩ := by
      simp only [Bt.BtSeqIter.enterRun, if_neg newGroup, urun]
    rw [entered]
    refine ⟨?_, ⟨stop, inside, w.g, Nat.le_of_succ_le beyond, rank.symm.trans same.symm, start,
      Nat.lt_of_not_le newGroup, w.groups, w.groupStart⟩, rfl, rfl, beyond⟩
    simp only [PackedBt.enterRun, enterGroup, packIter, nextYi, newGroup, if_false, acc.yAt inside,
      next, hrun, bind, Option.bind, pure]

/-- A step makes no check fail and keeps within a run and a group. -/
theorem next {it : Bt.BtSeqIter} (w : Within bt it) :
    bt.next (packIter it) =
      some ((it.next bt.unpack).1.map fun e => (e.1, raws e.2), packIter (it.next bt.unpack).2) ∧
    Within bt (it.next bt.unpack).2 := by
  by_cases done : it.stop ≤ it.i
  · have ended : it.next bt.unpack = (none, it) := if_pos done
    rw [ended]
    exact ⟨if_pos done, w⟩
  have more : it.i < it.stop := Nat.lt_of_not_le done
  obtain ⟨mid, stays, enters, w', i, stop, room⟩ : ∃ mid,
      (if it.runEnd ≤ it.i then it.enterRun bt.unpack else it) = mid ∧
      bt.keepRun (packIter it) = some (packIter mid) ∧ Within bt mid ∧ mid.i = it.i ∧
      mid.stop = it.stop ∧ it.i + 1 ≤ mid.runEnd := by
    by_cases ended : it.runEnd ≤ it.i
    · obtain ⟨run, rest⟩ := acc.enterRun w more ended
      exact ⟨_, if_pos ended, (if_pos ended).trans run, rest⟩
    · exact ⟨it, if_neg ended, if_neg ended, w, rfl, rfl, Nat.lt_of_not_le ended⟩
  have bound := acc.len_sz
  have within := w'.stop
  have step : checkedAdd mid.i 1 = some (mid.i + 1) := checkedAdd_eq (by omega)
  have unpacked : it.next bt.unpack =
      (some (mid.i, ⟨mid.x, mid.y, bt.unpack.zAt mid.i⟩), { mid with i := mid.i + 1 }) := by
    simp only [Bt.BtSeqIter.next, if_neg done, stays]
  rw [unpacked]
  refine ⟨?_, ⟨w'.stop, w'.yi, w'.g, by simp only; omega, w'.runs, w'.runStart, w'.group,
    w'.groups, w'.groupStart⟩⟩
  rw [PackedBt.next, if_neg (by exact done)]
  simp only [enters, bind, Option.bind, pure]
  simp only [packIter, step, acc.zAt (show mid.i < bt.sz.len by omega), Option.map_some, raws]

theorem nextTimes (n : Nat) {it : Bt.BtSeqIter} (w : Within bt it) :
    ∃ it', bt.nextTimes n (packIter it) = some it' := by
  induction n generalizing it with
  | zero => exact ⟨_, rfl⟩
  | succ n ih =>
      obtain ⟨step, w'⟩ := acc.next w
      obtain ⟨last, run⟩ := ih w'
      refine ⟨last, ?_⟩
      rw [PackedBt.nextTimes, step]
      exact run

theorem collect (n : Nat) {it : Bt.BtSeqIter} (w : Within bt it) :
    bt.collect n (packIter it) =
      some ((it.collect bt.unpack n).map fun e => (e.1, raws e.2)) := by
  induction n generalizing it with
  | zero => rfl
  | succ n ih =>
      obtain ⟨step, w'⟩ := acc.next w
      rw [PackedBt.collect, step, Bt.BtSeqIter.collect]
      have rest := ih w'
      generalize it.next bt.unpack = out at rest
      obtain ⟨_ | e, it'⟩ := out
      · rfl
      · simp only [Option.map_some, bind, Option.bind, pure, List.map_cons] at rest ⊢
        rw [rest]

/-! ## Navigation as a whole -/

section Grouped

variable (grouped : 0 < bt.sz.len → 0 < bt.sy.len)
include grouped

/-- Where triples have pairs and the samples of the marks are in order, every call gives what it
gives on the unpacked sequences. -/
theorem follows (bx : Succinct.Straight bt.bx.bits)
    (by_ : Succinct.Straight bt.by_.bits) : bt.Follows bt.unpack where
  nTriples := (unpack_lengths bt).2.symm
  tripleAt i h := by
    have inside : i < bt.sz.len := (unpack_lengths bt).2 ▸ h
    exact acc.tripleAt (grouped (Nat.zero_lt_of_lt inside)) inside
  spoAt i h := acc.spoAt ((unpack_lengths bt).2 ▸ h)
  seqRange lo hi le h := by
    rcases Nat.lt_or_eq_of_le le with lt | rfl
    · have inside : hi ≤ bt.sz.len := (unpack_lengths bt).2 ▸ h
      obtain ⟨run, within⟩ := acc.seqRange (grouped (by omega)) lt inside
      exact ⟨_, run, fun n => acc.collect n within⟩
    · refine ⟨_, if_pos (le_refl lo), fun n => ?_⟩
      have empty : bt.unpack.seqRange lo lo = _ := if_pos (le_refl lo)
      rw [empty]
      cases n <;> rfl
  xGroup := acc.xGroup
  xValue _ h := acc.xValue h
  yRange _ h := acc.yRange bx h
  findY _ h := acc.findY bx h
  groupOfY yi h := by
    have inside : yi < bt.sy.len := (unpack_lengths bt).1 ▸ h
    exact (acc.groupOfY (Nat.zero_lt_of_lt inside) inside).1
  zRange yi h := acc.zRange by_ ((unpack_lengths bt).1 ▸ h)
  zRangeOfGroup _ h := acc.zRangeOfGroup bx by_ h
  findZ yi h := acc.findZ by_ ((unpack_lengths bt).1 ▸ h)

/-- Every such call stays within its bounds. -/
theorem navigable (bx : Succinct.Straight bt.bx.bits)
    (by_ : Succinct.Straight bt.by_.bits) : bt.Navigable where
  tripleAt i h := Option.isSome_iff_exists.mpr
    ⟨_, acc.tripleAt (grouped (Nat.zero_lt_of_lt h)) h⟩
  spoAt i h := Option.isSome_iff_exists.mpr ⟨_, acc.spoAt h⟩
  seqRange := by
    intro lo hi le h
    rcases Nat.lt_or_eq_of_le le with lt | rfl
    · obtain ⟨run, within⟩ := acc.seqRange (grouped (by unfold nTriples at h; omega)) lt h
      exact ⟨_, run, fun n => Option.isSome_iff_exists.mpr (acc.nextTimes n within)⟩
    · exact ⟨_, if_pos (le_refl lo), nextTimes_ended bt (le_refl 0)⟩
  xGroup x := ⟨_, acc.xGroup x, fun _ found => acc.xGroup_lt found⟩
  xValue g h := Option.isSome_iff_exists.mpr ⟨_, acc.xValue h⟩
  yRange g h := ⟨_, _, acc.yRange bx h, (acc.yRange_le h).2⟩
  findY g h y := ⟨_, acc.findY bx h y, fun yi found =>
    Nat.lt_of_lt_of_le (findIn_some found).1 (acc.yRange_le h).2⟩
  groupOfY yi h := by
    obtain ⟨group, -, within⟩ := acc.groupOfY (Nat.zero_lt_of_lt h) h
    exact ⟨_, group, within⟩
  zRange yi h := ⟨_, _, acc.zRange by_ h, (acc.zRange_le h).2⟩
  zRangeOfGroup g h := ⟨_, _, acc.zRangeOfGroup bx by_ h, acc.zRangeOfGroup_le h⟩
  findZ yi h z := ⟨_, acc.findZ by_ h z, fun i found =>
    Nat.lt_of_lt_of_le (findIn_some found).1 (acc.zRange_le h).2⟩

end Grouped

/-- Without triples there is nothing to navigate. -/
theorem navigable_empty (empty : bt.sz.len = 0) : bt.Navigable := by
  have noPair : bt.sy.len = 0 := by
    have most := List.count_le_length (a := true) (l := bt.by_.bits)
    rw [acc.runs, acc.length_by, empty] at most
    exact Nat.le_zero.mp most
  refine acc.navigable (by omega) (Succinct.straight_of_short ?_) (Succinct.straight_of_short ?_)
  · rw [acc.length_bx, noPair]
    exact Nat.zero_le _
  · rw [acc.length_by, empty]
    exact Nat.zero_le _

/-- With triples and no pair, the run of the first triple would be the one before the first. -/
theorem not_navigable_orphan (some_ : 0 < bt.sz.len) (none_ : bt.sy.len = 0) : ¬ bt.Navigable := by
  intro nav
  have rank : bt.by_.rank1 1 = some 0 := by
    rw [acc.by_.rank1 (show 1 ≤ bt.by_.len by rw [acc.triples]; omega)]
    have most := rank1_le_count bt.by_.bits 1
    rw [acc.runs, none_] at most
    rw [Nat.le_zero.mp most]
  have run : bt.runOf 0 = none := by
    have next : checkedAdd 0 1 = some 1 := rfl
    simp only [PackedBt.runOf, next, bind, Option.bind, rank]
    rfl
  have triple := nav.tripleAt 0 some_
  have panics : bt.tripleAt 0 = none := by
    simp only [PackedBt.tripleAt, acc.zAt some_, run, bind, Option.bind]
  rw [panics] at triple
  cases triple

/-- Navigation starts a select at every sample of the marks. -/
theorem straight_of_navigable (nav : bt.Navigable) :
    Succinct.Straight bt.bx.bits ∧ Succinct.Straight bt.by_.bits := by
  constructor <;> intro j <;> by_contra crooked
  · obtain ⟨ya, found, crooked⟩ := Succinct.exists_of_crooked crooked
    obtain ⟨_, _, range, -⟩ := nav.yRange _ (acc.groups ▸ lt_count_of_select1 found)
    simp only [PackedBt.yRange, acc.bx.select1_crooked found crooked, bind, Option.bind] at range
    cases range
  · obtain ⟨za, found, crooked⟩ := Succinct.exists_of_crooked crooked
    obtain ⟨_, _, range, -⟩ := nav.zRange _ (acc.runs ▸ lt_count_of_select1 found)
    simp only [PackedBt.zRange, acc.by_.select1_crooked found crooked, bind, Option.bind] at range
    cases range

end Accepted

/-- An accepted payload is safe to navigate exactly when it has no triple, or some pair and marks
whose samples do not run backwards in 32 bits. -/
theorem navigable_iff {payload : Bytes} {bt : PackedBt} {c : ByteCursor}
    (accepted : deserialize (ByteCursor.new payload) = .ok (bt, c)) :
    bt.Navigable ↔ (tripleCount payload = 0 ∨ 0 < pairCount payload ∧
      Succinct.Straight (bitsAt payload (bxOffset payload)) ∧
      Succinct.Straight (bitsAt payload (byOffset payload))) := by
  obtain ⟨acc, pairs, triples, bx, by_⟩ := deserialize_ok accepted
  rw [← pairs, ← triples, ← bx, ← by_]
  constructor
  · intro nav
    rcases Nat.eq_zero_or_pos bt.sz.len with empty | some_
    · exact Or.inl empty
    rcases Nat.eq_zero_or_pos bt.sy.len with none_ | grouped
    · exact absurd nav (acc.not_navigable_orphan some_ none_)
    · exact Or.inr ⟨grouped, acc.straight_of_navigable nav⟩
  · rintro (empty | ⟨grouped, bx, by_⟩)
    · exact acc.navigable_empty empty
    · exact acc.navigable (fun _ => grouped) bx by_

/-- One triple: a group, a pair and a z value, all zero. -/
def oneTriple : Bytes := [0, 1, 1, 1, 0, 1, 1, 1, 0, 1].flatMap writeU64

theorem navigable_oneTriple :
    ∃ bt c, deserialize (ByteCursor.new oneTriple) = .ok (bt, c) ∧ bt.Navigable := by
  have read : deserialize (ByteCursor.new oneTriple) =
      .ok (⟨1, none, ⟨[1], 1⟩, ⟨0, 1, []⟩, ⟨[1], 1⟩, ⟨0, 1, []⟩, none⟩, ⟨oneTriple, 80⟩) := rfl
  exact ⟨_, _, read, (navigable_iff read).mpr (Or.inr ⟨by decide,
    Succinct.straight_of_short (by decide), Succinct.straight_of_short (by decide)⟩)⟩

/-- One triple in no pair: no group, no pair, and a mark and a z value all the same. -/
def orphanTriple : Bytes := [0, 0, 0, 0, 0, 1, 0, 0, 1].flatMap writeU64

/-- The payload with a triple in no pair is accepted, and its triple cannot be reached. -/
theorem orphanTriple_panics :
    ∃ bt c, deserialize (ByteCursor.new orphanTriple) = .ok (bt, c) ∧ 0 < bt.nTriples ∧
      bt.tripleAt 0 = none ∧ ¬ bt.Navigable := by
  have read : deserialize (ByteCursor.new orphanTriple) =
      .ok (⟨0, none, ⟨[], 0⟩, ⟨0, 0, []⟩, ⟨[0], 1⟩, ⟨0, 1, []⟩, none⟩, ⟨orphanTriple, 72⟩) := rfl
  have panics : tripleAt ⟨0, none, ⟨[], 0⟩, ⟨0, 0, []⟩, ⟨[0], 1⟩, ⟨0, 1, []⟩, none⟩ 0 = none := rfl
  refine ⟨_, _, read, Nat.one_pos, panics, ?_⟩
  intro nav
  have reached := nav.tripleAt 0 Nat.one_pos
  rw [panics] at reached
  cases reached

end PackedBt

end Graphy
