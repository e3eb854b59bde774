import Graphy.Store.Proofs.PackedBt
import Graphy.Store.Proofs.Sources

/-!
# A stored ordering answers with its list, before and after storing

Under `Bt.Represents` every navigation step gives what the triple list says, and navigating the
packed sequences gives the same as long as the marks are short enough for their directories.  The
packed bytes read back as the same ordering as long as no length exceeds the cap that
deserialization puts on untrusted input.
-/

namespace Graphy

open BitVector

namespace Bt

/-! ## Answering with the list -/

/-- The ordinals of a range are exactly those of the triples with the property. -/
def IsRange (T : List Xyz) (range : Nat × Nat) (p : Xyz → Prop) : Prop :=
  range.1 ≤ range.2 ∧ range.2 ≤ T.length ∧
    ∀ i t, T[i]? = some t → (p t ↔ range.1 ≤ i ∧ i < range.2)

/-- Every navigation step answers with the list. -/
structure Answers (bt : Bt) (T : List Xyz) : Prop where
  nTriples : bt.nTriples = T.length
  tripleAt : ∀ i t, T[i]? = some t → bt.tripleAt i = t
  xGroup : ∀ x, (∃ g, bt.xGroup x = some g) ↔ ∃ t ∈ T, t.x = x
  findY : ∀ x g, bt.xGroup x = some g → ∀ y,
    ((∃ yi, bt.findY g y = some yi) ↔ ∃ t ∈ T, t.x = x ∧ t.y = y)
  findZ : ∀ x g y yi, bt.xGroup x = some g → bt.findY g y = some yi → ∀ z i,
    (bt.findZ yi z = some i ↔ T[i]? = some ⟨x, y, z⟩)
  zRangeOfGroup : ∀ x g, bt.xGroup x = some g →
    IsRange T (bt.zRangeOfGroup g) (fun t => t.x = x)
  zRange : ∀ x g y yi, bt.xGroup x = some g → bt.findY g y = some yi →
    IsRange T (bt.zRange yi) (fun t => t.x = x ∧ t.y = y)
  seqRange : ∀ lo hi, lo ≤ hi → hi ≤ T.length →
    (bt.seqRange lo hi).collect bt (hi - lo + 1) =
      (List.range' lo (hi - lo)).map fun i => (i, bt.tripleAt i)

theorem mem_of_group {T : List Xyz} {g : Nat} {h : Xyz} (hg : (groups T)[g]? = some h) : h ∈ T :=
  (runHeads_sublist _ _).subset ((runHeads_sublist _ _).subset (List.mem_of_getElem? hg))

/-- The stretch between two positions of a sorted key is a range. -/
theorem isRange_countP {T : List Xyz} {κ : Type} [LinearOrder κ] (key : Xyz → κ) (c : κ)
    (sorted : T.Pairwise (fun a b => key a ≤ key b)) {p : Xyz → Prop} (hp : ∀ t, p t ↔ key t = c) :
    IsRange T
      (T.countP (fun t => decide (key t < c)), T.countP (fun t => decide (key t ≤ c))) p := by
  refine ⟨countP_lt_le key c, List.countP_le_length, ?_⟩
  intro i t ht
  rw [hp, countP_lt_le_index sorted ht c, index_lt_countP_le sorted ht c]
  exact ⟨fun e => ⟨e.ge, e.le⟩, fun h => le_antisymm h.2 h.1⟩

namespace Represents

variable {bt : Bt} {T : List Xyz} (rep : bt.Represents T)
include rep

theorem collect_iter (n : Nat) {it : BtSeqIter} {j : Nat} (at_ : bt.IterAt it j)
    (left : it.stop - it.i = n) (h : it.stop ≤ T.length) :
    it.collect bt (n + 1) = (List.range' it.i n).map fun i => (i, bt.tripleAt i) := by
  induction n generalizing it j with
  | zero =>
      have done : it.next bt = (none, it) := if_pos (by omega)
      rw [BtSeqIter.collect, done]
      rfl
  | succ n ih =>
      have get := List.getElem?_eq_getElem (show it.i < T.length by omega)
      obtain ⟨it', step, at', i, stop⟩ := rep.next_spec at_ (by omega) h get
      have rest := ih at' (by omega) (by omega)
      rw [i] at rest
      rw [BtSeqIter.collect, step, List.range'_succ, List.map_cons, rep.tripleAt_eq get]
      simp only [rest]

theorem seqRange_collect {lo hi : Nat} (le : lo ≤ hi) (h : hi ≤ T.length) :
    (bt.seqRange lo hi).collect bt (hi - lo + 1) =
      (List.range' lo (hi - lo)).map fun i => (i, bt.tripleAt i) := by
  rcases Nat.lt_or_eq_of_le le with lt | rfl
  · have i : (bt.seqRange lo hi).i = lo ∧ (bt.seqRange lo hi).stop = hi := by
      rw [Bt.seqRange, if_neg (Nat.not_le.mpr lt)]
      exact ⟨rfl, rfl⟩
    have all := rep.collect_iter (hi - lo) (iterAt_seqRange bt lt) (by rw [i.1, i.2])
      (by rw [i.2]; exact h)
    rwa [i.1] at all
  · have empty : bt.seqRange lo lo = _ := if_pos (le_refl lo)
    rw [empty, Nat.sub_self]
    rfl

/-- An ordering that represents a list answers with it. -/
theorem answers : bt.Answers T where
  nTriples := rep.length_sz
  tripleAt i t ht := rep.tripleAt_eq ht
  xGroup x := by
    constructor
    · rintro ⟨g, found⟩
      obtain ⟨h, getH, rfl⟩ := rep.xGroup_eq_some_iff.mp found
      exact ⟨h, mem_of_group getH, rfl⟩
    · rintro ⟨t, ht, rfl⟩
      obtain ⟨h, hh, same⟩ := exists_group ht
      obtain ⟨g, getH⟩ := List.mem_iff_getElem?.mp hh
      exact ⟨g, rep.xGroup_eq_some_iff.mpr ⟨h, getH, same⟩⟩
  findY x g found y := by
    obtain ⟨h, getH, rfl⟩ := rep.xGroup_eq_some_iff.mp found
    constructor
    · rintro ⟨yi, foundY⟩
      obtain ⟨r, getR, hx, hy⟩ := (rep.findY_eq_some_iff getH).mp foundY
      exact ⟨r, (runHeads_sublist _ _).subset (List.mem_of_getElem? getR), hx, hy⟩
    · rintro ⟨t, ht, hx, hy⟩
      obtain ⟨r, hr, same⟩ := exists_pair ht
      obtain ⟨sameX, sameY⟩ := Xyz.xy_eq_iff.mp same
      obtain ⟨yi, getR⟩ := List.mem_iff_getElem?.mp hr
      exact ⟨yi, (rep.findY_eq_some_iff getH).mpr ⟨r, getR, sameX.trans hx, sameY.trans hy⟩⟩
  findZ x g y yi found foundY z i := by
    obtain ⟨h, getH, rfl⟩ := rep.xGroup_eq_some_iff.mp found
    obtain ⟨r, getR, hx, rfl⟩ := (rep.findY_eq_some_iff getH).mp foundY
    rw [← hx]
    exact rep.findZ_eq_some_iff getR
  zRangeOfGroup x g found := by
    obtain ⟨h, getH, rfl⟩ := rep.xGroup_eq_some_iff.mp found
    rw [rep.zRangeOfGroup_of_group getH]
    exact isRange_countP Xyz.x h.x (sorted_x rep.sorted) (fun t => Iff.rfl)
  zRange x g y yi found foundY := by
    obtain ⟨h, getH, rfl⟩ := rep.xGroup_eq_some_iff.mp found
    obtain ⟨r, getR, hx, rfl⟩ := (rep.findY_eq_some_iff getH).mp foundY
    rw [rep.zRange_of_pair getR]
    refine isRange_countP Xyz.xy r.xy (sortedFrom_xy rep.sorted).1 fun t => ?_
    rw [Xyz.xy_eq_iff, hx]
  seqRange lo hi le h := rep.seqRange_collect le h

end Represents

end Bt

/-! ## Column values and words -/

namespace Col

theorem ofRaw_raw {c : Col} (h : c.IsWord) : ofRaw c.raw = c := by
  have payload := h.2
  cases c with
  | mk tag payload =>
      simp only [ofRaw, raw, Col.mk.injEq]
      simp only at payload
      omega

theorem raw_lt {c : Col} (h : c.IsWord) : c.raw < 2 ^ 64 := by
  obtain ⟨tag, payload⟩ := h
  unfold raw
  omega

/-- Integer order over the words is the order of column values. -/
theorem raw_lt_raw {a b : Col} (ha : a.IsWord) (hb : b.IsWord) (h : a < b) : a.raw < b.raw := by
  have pa := ha.2
  have pb := hb.2
  unfold raw
  rcases lt_iff.mp h with tag | ⟨tag, payload⟩ <;> omega

theorem map_ofRaw_raw {cs : List Col} (h : ∀ c ∈ cs, c.IsWord) :
    (cs.map raw).map ofRaw = cs := by
  rw [List.map_map]
  conv_rhs => rw [← List.map_id cs]
  exact List.map_congr_left fun c hc => ofRaw_raw (h c hc)

end Col

namespace PackedInts

/-- A packed list with its width and its values, as far as storing goes. -/
structure Stores (p : PackedInts) (vs : List Nat) : Prop where
  packs : p.Packs vs
  most : p.width ≤ 64
  values : p.values = vs

theorem stores_withWidth {vs : List Nat} {width : Nat} (most : width ≤ 64)
    (fits : ∀ v ∈ vs, v < 2 ^ width) : (withWidth vs width).Stores vs := by
  have packs := packs_withWidth most fits
  have same := width_withWidth vs width
  exact ⟨packs, same.symm ▸ most, packs.values (same.symm ▸ most) (same.symm ▸ fits)⟩

theorem stores_fromSlice {vs : List Nat} (small : ∀ v ∈ vs, v < 2 ^ 64) :
    (fromSlice vs).Stores vs := by
  apply stores_withWidth
  · exact bitsFor_le (foldl_max_lt (Nat.two_pow_pos 64) small)
  · exact fun v hv => WaveletMatrix.lt_two_pow_bitsFor (le_foldl_max (Or.inr hv))

end PackedInts

namespace PackedBt

theorem increasing_of_pairwise {vs : List Nat} (h : vs.Pairwise (· < ·)) :
    increasing vs = true := by
  induction vs with
  | nil => rfl
  | cons a vs ih =>
      cases vs with
      | nil => rfl
      | cons b rest =>
          have lt := (List.pairwise_cons.mp h).1 b List.mem_cons_self
          rw [increasing, decide_eq_true lt, Bool.true_and]
          exact ih (List.pairwise_cons.mp h).2

theorem flags_lt (bt : PackedBt) : bt.flags < 2 ^ 64 := by
  unfold flags
  cases bt.xValues.isSome <;> cases bt.pz.isSome <;> decide

theorem flags_x (bt : PackedBt) : decide (bt.flags &&& 1 = 1) = bt.xValues.isSome := by
  unfold flags
  cases bt.xValues.isSome <;> cases bt.pz.isSome <;> decide

theorem flags_pz (bt : PackedBt) : decide (bt.flags &&& 2 = 2) = bt.pz.isSome := by
  unfold flags
  cases bt.xValues.isSome <;> cases bt.pz.isSome <;> decide

theorem readOptional_of_le {seq : Option PackedInts} {c : ByteCursor} {rest : Bytes}
    (stores : ∀ p, seq = some p → ∃ vs, p.Stores vs) (le : ∀ p, seq = some p → p.len ≤ cap)
    (ahead : c.Ahead (optional seq ++ rest)) :
    ∃ c', readOptional seq.isSome c = .ok (seq, c') ∧ c'.Ahead rest := by
  cases seq with
  | none => exact ⟨c, rfl, ahead⟩
  | some p =>
      obtain ⟨vs, stored⟩ := stores p rfl
      obtain ⟨c', read, ahead'⟩ :=
        PackedInts.deserializeView_of_le stored.packs stored.most (le p rfl) ahead
      refine ⟨c', ?_, ahead'⟩
      simp only [readOptional, Option.isSome_some, if_true, read, bind, Except.bind, pure,
        Except.pure]

/-- The parts are packed, and their lengths are machine words. -/
structure Storable (p : PackedBt) : Prop where
  nX : p.nX < 2 ^ 64
  xValues : ∀ xs, p.xValues = some xs → (∃ vs, xs.Stores vs) ∧ xs.len < 2 ^ 64
  bx : ∃ bits, PackedBits.Holds p.bx.words bits ∧ p.bx.len = bits.length
  sy : ∃ vs, p.sy.Stores vs
  by_ : ∃ bits, PackedBits.Holds p.by_.words bits ∧ p.by_.len = bits.length
  sz : ∃ vs, p.sz.Stores vs
  pz : ∀ pz, p.pz = some pz → ∃ vs, pz.Stores vs
  bxLen : p.bx.len < 2 ^ 64
  syLen : p.sy.len < 2 ^ 64
  byLen : p.by_.len < 2 ^ 64

namespace Storable

variable {p : PackedBt} (storable : p.Storable)
include storable

/-- The flags and the group count always read back. -/
theorem readHead : ∃ c₁ c₂, (ByteCursor.new p.serialize).readU64 = .ok (p.flags, c₁) ∧
    c₁.readU64 = .ok (p.nX, c₂) ∧
    c₂.Ahead (optional p.xValues ++ (p.bx.serialize ++ (p.sy.serialize ++ (p.by_.serialize ++
      (p.sz.serialize ++ optional p.pz))))) := by
  obtain ⟨c₁, flags, ahead⟩ :=
    ByteCursor.readU64_ahead p.flags_lt (ByteCursor.ahead_new p.serialize)
  obtain ⟨c₂, nX, ahead⟩ := ByteCursor.readU64_ahead storable.nX ahead
  exact ⟨c₁, c₂, flags, nX, ahead⟩

/-- Reading back what was written, as long as no length exceeds the cap. -/
theorem readParts_of_le (x : ∀ xs, p.xValues = some xs → xs.len ≤ cap) (bx : p.bx.len ≤ cap)
    (sy : p.sy.len ≤ cap) (by_ : p.by_.len ≤ cap) (sz : p.sz.len ≤ cap)
    (pz : ∀ pz, p.pz = some pz → pz.len ≤ cap) :
    ∃ c, readParts (ByteCursor.new p.serialize) = .ok (p, c) := by
  obtain ⟨c₁, c₂, readFlags, readNX, ahead⟩ := storable.readHead
  obtain ⟨c₃, readX, ahead⟩ := readOptional_of_le (fun xs h => (storable.xValues xs h).1) x ahead
  obtain ⟨bits, holds, len⟩ := storable.bx
  obtain ⟨c₄, readBx, ahead⟩ := BitWords.deserializeView_of_le holds len bx ahead
  obtain ⟨vs, stored⟩ := storable.sy
  obtain ⟨c₅, readSy, ahead⟩ :=
    PackedInts.deserializeView_of_le stored.packs stored.most sy ahead
  obtain ⟨bits', holds', len'⟩ := storable.by_
  obtain ⟨c₆, readBy, ahead⟩ := BitWords.deserializeView_of_le holds' len' by_ ahead
  obtain ⟨vs', stored'⟩ := storable.sz
  obtain ⟨c₇, readSz, ahead⟩ :=
    PackedInts.deserializeView_of_le stored'.packs stored'.most sz ahead
  rw [← List.append_nil (optional p.pz)] at ahead
  obtain ⟨c₈, readPz, -⟩ := readOptional_of_le storable.pz pz ahead
  refine ⟨c₈, ?_⟩
  simp only [readParts, readFlags, readNX, p.flags_x, readX, readBx, readSy, readBy, readSz,
    p.flags_pz, readPz, bind, Except.bind, pure, Except.pure]

/-- A run count beyond the cap is refused, if not a part before it. -/
theorem readParts_of_gt (gt : cap < p.by_.len) :
    ∃ e, readParts (ByteCursor.new p.serialize) = .error e := by
  obtain ⟨c₁, c₂, readFlags, readNX, ahead⟩ := storable.readHead
  by_cases x : ∀ xs, p.xValues = some xs → xs.len ≤ cap
  case neg =>
    obtain ⟨xs, explicit, big⟩ : ∃ xs, p.xValues = some xs ∧ cap < xs.len := by
      simpa only [not_forall, not_le, exists_prop] using x
    obtain ⟨⟨vs, stored⟩, lt⟩ := storable.xValues xs explicit
    rw [explicit] at ahead
    obtain ⟨e, read⟩ := PackedInts.deserializeView_of_gt stored.most big lt ahead
    refine ⟨e, ?_⟩
    simp only [readParts, readFlags, readNX, p.flags_x, explicit, Option.isSome_some, readOptional,
      if_true, read, bind, Except.bind]
  obtain ⟨c₃, readX, ahead⟩ := readOptional_of_le (fun xs h => (storable.xValues xs h).1) x ahead
  by_cases bx : p.bx.len ≤ cap
  case neg =>
    obtain ⟨e, read⟩ := BitWords.deserializeView_of_gt (Nat.lt_of_not_le bx) storable.bxLen ahead
    refine ⟨e, ?_⟩
    simp only [readParts, readFlags, readNX, p.flags_x, readX, read, bind, Except.bind]
  obtain ⟨bits, holds, len⟩ := storable.bx
  obtain ⟨c₄, readBx, ahead⟩ := BitWords.deserializeView_of_le holds len bx ahead
  obtain ⟨vs, stored⟩ := storable.sy
  by_cases sy : p.sy.len ≤ cap
  case neg =>
    obtain ⟨e, read⟩ :=
      PackedInts.deserializeView_of_gt stored.most (Nat.lt_of_not_le sy) storable.syLen ahead
    refine ⟨e, ?_⟩
    simp only [readParts, readFlags, readNX, p.flags_x, readX, readBx, read, bind, Except.bind]
  obtain ⟨c₅, readSy, ahead⟩ :=
    PackedInts.deserializeView_of_le stored.packs stored.most sy ahead
  obtain ⟨e, read⟩ := BitWords.deserializeView_of_gt gt storable.byLen ahead
  refine ⟨e, ?_⟩
  simp only [readParts, readFlags, readNX, p.flags_x, readX, readBx, readSy, read, bind,
    Except.bind]

end Storable

end PackedBt

/-! ## Storing an ordering -/

namespace Bt

/-- The triples are made of 64-bit words, and their y and z values fit the widths of the
builder. -/
structure Fits (T : List Xyz) (yWidth zWidth : Nat) : Prop where
  x : ∀ t ∈ T, t.x.IsWord
  y : ∀ t ∈ T, t.y.IsWord ∧ t.y.raw < 2 ^ yWidth
  z : ∀ t ∈ T, t.z.IsWord ∧ t.z.raw < 2 ^ zWidth
  yWidth : yWidth ≤ 64
  zWidth : zWidth ≤ 64

theorem mem_of_mem_pairs {T : List Xyz} {t : Xyz} (h : t ∈ pairs T) : t ∈ T :=
  (runHeads_sublist _ _).subset h

theorem mem_of_mem_groups {T : List Xyz} {t : Xyz} (h : t ∈ groups T) : t ∈ T :=
  mem_of_mem_pairs ((runHeads_sublist _ _).subset h)

theorem length_pairs_le (T : List Xyz) : (pairs T).length ≤ T.length :=
  (runHeads_sublist none T).length_le

theorem length_groups_le (T : List Xyz) : (groups T).length ≤ (pairs T).length :=
  (runHeads_sublist none (pairs T)).length_le

section Storing

variable {bt : Bt} {T : List Xyz} {yWidth zWidth : Nat} (rep : bt.Represents T)
  (fits : Fits T yWidth zWidth)
include rep fits

theorem words_sy : ∀ c ∈ bt.sy, c.IsWord ∧ c.raw < 2 ^ yWidth := by
  intro c hc
  rw [rep.sy] at hc
  obtain ⟨t, ht, rfl⟩ := List.mem_map.mp hc
  exact fits.y t (mem_of_mem_pairs ht)

theorem words_sz : ∀ c ∈ bt.sz, c.IsWord ∧ c.raw < 2 ^ zWidth := by
  intro c hc
  rw [rep.sz] at hc
  obtain ⟨t, ht, rfl⟩ := List.mem_map.mp hc
  exact fits.z t ht

theorem stores_sy : (bt.pack yWidth zWidth 0).sy.Stores (bt.sy.map Col.raw) := by
  apply PackedInts.stores_withWidth fits.yWidth
  intro v hv
  obtain ⟨c, hc, rfl⟩ := List.mem_map.mp hv
  exact (words_sy rep fits c hc).2

theorem stores_sz : (bt.pack yWidth zWidth 0).sz.Stores (bt.sz.map Col.raw) := by
  apply PackedInts.stores_withWidth fits.zWidth
  intro v hv
  obtain ⟨c, hc, rfl⟩ := List.mem_map.mp hv
  exact (words_sz rep fits c hc).2

omit fits in
theorem xValues_eq {xs : List Col} (h : bt.xValues = some xs) : xs = (groups T).map Xyz.x := by
  rcases rep.xValues with known | ⟨none_, -⟩
  · rw [h] at known
    exact Option.some.inj known
  · rw [h] at none_
    cases none_

theorem words_x {xs : List Col} (h : bt.xValues = some xs) : ∀ c ∈ xs, c.IsWord := by
  intro c hc
  rw [xValues_eq rep h] at hc
  obtain ⟨t, ht, rfl⟩ := List.mem_map.mp hc
  exact fits.x t (mem_of_mem_groups ht)

theorem stores_x {xs : List Col} (h : bt.xValues = some xs) :
    (PackedInts.fromSlice (xs.map Col.raw)).Stores (xs.map Col.raw) := by
  apply PackedInts.stores_fromSlice
  intro v hv
  obtain ⟨c, hc, rfl⟩ := List.mem_map.mp hv
  exact Col.raw_lt (words_x rep fits h c hc)

/-- Packing loses nothing. -/
theorem unpack_pack (pz : bt.pz = none) : (bt.pack yWidth zWidth 0).unpack = bt := by
  have xs : ((bt.pack yWidth zWidth 0).xValues.map fun xs => xs.values.map Col.ofRaw) =
      bt.xValues := by
    cases explicit : bt.xValues with
    | none => simp [pack, explicit]
    | some xs =>
        simp only [pack, explicit, Option.map_some, (stores_x rep fits explicit).values]
        rw [Col.map_ofRaw_raw (words_x rep fits explicit)]
  have sy : (bt.pack yWidth zWidth 0).sy.values.map Col.ofRaw = bt.sy := by
    rw [(stores_sy rep fits).values, Col.map_ofRaw_raw fun c hc => (words_sy rep fits c hc).1]
  have sz : (bt.pack yWidth zWidth 0).sz.values.map Col.ofRaw = bt.sz := by
    rw [(stores_sz rep fits).values, Col.map_ofRaw_raw fun c hc => (words_sz rep fits c hc).1]
  have bx : (bt.pack yWidth zWidth 0).bx.bits = bt.bx := BitWords.bits_fromBits bt.bx
  have by_ : (bt.pack yWidth zWidth 0).by_.bits = bt.by_ := BitWords.bits_fromBits bt.by_
  have ordinals : (bt.pack yWidth zWidth 0).pz.map PackedInts.values = bt.pz := by
    simp [pack, pz]
  rw [PackedBt.unpack, xs, sy, sz, bx, by_, ordinals]
  rfl

omit fits in
theorem len_bx : (bt.pack yWidth zWidth 0).bx.len = (pairs T).length := by
  have len : (bt.pack yWidth zWidth 0).bx.len = bt.bx.length := (BitWords.holds_fromBits bt.bx).2
  rw [len, rep.bx, length_runMarks]

omit fits in
theorem len_by : (bt.pack yWidth zWidth 0).by_.len = T.length := by
  have len : (bt.pack yWidth zWidth 0).by_.len = bt.by_.length := (BitWords.holds_fromBits bt.by_).2
  rw [len, rep.by_, length_runMarks]

theorem len_sy : (bt.pack yWidth zWidth 0).sy.len = (pairs T).length := by
  rw [(stores_sy rep fits).packs.len, rep.sy, List.length_map, List.length_map]

theorem len_sz : (bt.pack yWidth zWidth 0).sz.len = T.length := by
  rw [(stores_sz rep fits).packs.len, rep.sz, List.length_map, List.length_map]

theorem len_x {xs : List Col} (h : bt.xValues = some xs) :
    (PackedInts.fromSlice (xs.map Col.raw)).len = bt.nX := by
  rw [(stores_x rep fits h).packs.len, xValues_eq rep h, rep.nX, List.length_map, List.length_map]

/-- A represented list has no defect. -/
theorem defect_pack (pz : bt.pz = none) : (bt.pack yWidth zWidth 0).defect = none := by
  have bx : (bt.pack yWidth zWidth 0).bx.bits = bt.bx := BitWords.bits_fromBits bt.bx
  have by_ : (bt.pack yWidth zWidth 0).by_.bits = bt.by_ := BitWords.bits_fromBits bt.by_
  have nX : (bt.pack yWidth zWidth 0).nX = bt.nX := rfl
  have groups_ : bt.bx.count true = bt.nX := by rw [rep.bx, count_runMarks, rep.nX]; rfl
  have runs : bt.by_.count true = (pairs T).length := by rw [rep.by_, count_runMarks]; rfl
  have first : (pairs T).length ≠ 0 → bt.bx.head? = some true ∧ bt.by_.head? = some true := by
    intro some_
    rw [rep.bx, rep.by_]
    cases T with
    | nil => exact absurd rfl some_
    | cons t T => exact ⟨rfl, rfl⟩
  have ordinals : (bt.pack yWidth zWidth 0).pz = none := by simp [pack, pz]
  rw [PackedBt.defect, len_bx rep, len_by rep, len_sy rep fits, len_sz rep fits, bx, by_, nX,
    ordinals, groups_, runs, if_neg (by tauto), if_neg (by tauto), if_neg (by tauto)]
  cases explicit : bt.xValues with
  | none =>
      have none_ : (bt.pack yWidth zWidth 0).xValues = none := by simp [pack, explicit]
      rw [none_]
      rfl
  | some xs =>
      have some_ : (bt.pack yWidth zWidth 0).xValues =
          some (PackedInts.fromSlice (xs.map Col.raw)) := by
        simp [pack, explicit]
      have order : (xs.map Col.raw).Pairwise (· < ·) := by
        rw [xValues_eq rep explicit, List.map_map, List.pairwise_map]
        refine (groups_strict rep.sorted).imp_of_mem ?_
        intro a b ha hb lt
        exact Col.raw_lt_raw (fits.x a (mem_of_mem_groups ha)) (fits.x b (mem_of_mem_groups hb)) lt
      simp [some_, len_x rep fits explicit, (stores_x rep fits explicit).values,
        PackedBt.increasing_of_pairwise order]

theorem storable_pack (pz : bt.pz = none) (lt : T.length < 2 ^ 64) :
    (bt.pack yWidth zWidth 0).Storable := by
  have pairs_ := length_pairs_le T
  have groups_ := length_groups_le T
  have nX := rep.nX
  have explicit : ∀ xs, (bt.pack yWidth zWidth 0).xValues = some xs →
      (∃ vs, xs.Stores vs) ∧ xs.len < 2 ^ 64 := by
    intro p hp
    obtain ⟨xs, hxs, rfl⟩ := Option.map_eq_some_iff.mp hp
    refine ⟨⟨_, stores_x rep fits hxs⟩, ?_⟩
    rw [len_x rep fits hxs]
    omega
  refine ⟨by simp only [pack]; omega, explicit, ⟨_, BitWords.holds_fromBits bt.bx⟩,
    ⟨_, stores_sy rep fits⟩, ⟨_, BitWords.holds_fromBits bt.by_⟩, ⟨_, stores_sz rep fits⟩, ?_,
    by rw [len_bx rep]; omega, by rw [len_sy rep fits]; omega, by rw [len_by rep]; omega⟩
  intro p hp
  simp [pack, pz] at hp

/-- What was written reads back when the list is within the cap. -/
theorem deserialize_pack_of_le (pz : bt.pz = none) (le : T.length ≤ cap) :
    ∃ c, PackedBt.deserialize (ByteCursor.new (bt.pack yWidth zWidth 0).serialize) =
      .ok (bt.pack yWidth zWidth 0, c) := by
  have bound : cap < 2 ^ 64 := by decide
  have storable := storable_pack rep fits pz (lt_of_le_of_lt le bound)
  have pairs_ := length_pairs_le T
  have groups_ := length_groups_le T
  have nX := rep.nX
  have explicit : ∀ xs, (bt.pack yWidth zWidth 0).xValues = some xs → xs.len ≤ cap := by
    intro p hp
    obtain ⟨xs, hxs, rfl⟩ := Option.map_eq_some_iff.mp hp
    rw [len_x rep fits hxs]
    omega
  have ordinals : ∀ ords, (bt.pack yWidth zWidth 0).pz = some ords → ords.len ≤ cap := by
    intro p hp
    simp [pack, pz] at hp
  obtain ⟨c, read⟩ := storable.readParts_of_le explicit (by rw [len_bx rep]; omega)
    (by rw [len_sy rep fits]; omega) (by rw [len_by rep]; omega)
    (by rw [len_sz rep fits]; omega) ordinals
  refine ⟨c, ?_⟩
  simp only [PackedBt.deserialize, read, defect_pack rep fits pz, bind, Except.bind, pure,
    Except.pure]

/-- The packed ordering passes the checks. -/
theorem accepted_pack (pz : bt.pz = none) (le : T.length ≤ cap) :
    (bt.pack yWidth zWidth 0).Accepted := by
  obtain ⟨c, read⟩ := deserialize_pack_of_le rep fits pz le
  exact (PackedBt.deserialize_ok read).1

/-- Navigating the packed ordering of a list that is not too long gives what the list says. -/
theorem follows_pack (pz : bt.pz = none) (short : T.length ≤ 2 ^ 44) :
    (bt.pack yWidth zWidth 0).Follows bt := by
  have le : T.length ≤ cap := short.trans (by decide)
  have follows := (accepted_pack rep fits pz le).follows (fun some_ => ?_)
    (Succinct.straight_of_short ?_) (Succinct.straight_of_short ?_)
  · rwa [unpack_pack rep fits pz] at follows
  · rw [len_sz rep fits] at some_
    obtain ⟨t, ht⟩ := List.exists_mem_of_length_pos some_
    obtain ⟨r, hr, -⟩ := exists_pair ht
    rw [len_sy rep fits]
    exact List.length_pos_of_mem hr
  · rw [BitWords.length_bits, len_bx rep]
    exact (length_pairs_le T).trans short
  · rw [BitWords.length_bits, len_by rep]
    exact short

/-- What was written of a longer list is refused. -/
theorem deserialize_pack_of_gt (pz : bt.pz = none) (gt : cap < T.length)
    (lt : T.length < 2 ^ 64) :
    ∃ e, PackedBt.deserialize (ByteCursor.new (bt.pack yWidth zWidth 0).serialize) = .error e := by
  obtain ⟨e, refused⟩ := (storable_pack rep fits pz lt).readParts_of_gt (by rw [len_by rep]; omega)
  refine ⟨e, ?_⟩
  simp only [PackedBt.deserialize, refused, bind, Except.bind]

end Storing

end Bt

namespace BtBuilder

/-- The ordering built from a strictly increasing list. -/
theorem build (explicitX : Bool) {T : List Xyz} (sorted : T.Pairwise (· < ·)) :
    ∃ b, (new explicitX false).pushAll (T.map fun t => (t, none)) = .ok b ∧ b.Encodes T ∧
      b.finish.Represents T ∧ b.finish.pz = none := by
  have same : (T.map fun t => ((t, none) : Xyz × Option Nat)).map Prod.fst = T := by
    rw [List.map_map]
    exact List.map_id T
  obtain ⟨b, run⟩ := pushAll_ok (T.map fun t => (t, none)) (encodes_new explicitX false)
    (by rwa [List.nil_append, same])
  obtain ⟨enc, -⟩ := encodes_pushAll (encodes_new explicitX false) List.Pairwise.nil run
  rw [List.nil_append, same] at enc
  exact ⟨b, run, enc, represents_finish enc sorted, pz_pushAll_none rfl run⟩

/-- A triple that does not increase is refused. -/
theorem push_refused {b : BtBuilder} {T : List Xyz} (enc : b.Encodes T) {l t : Xyz}
    (last : T.getLast? = some l) (le : t ≤ l) (ordinal : Option Nat) :
    ∃ e, b.push t ordinal = .error e := by
  cases push : b.push t ordinal with
  | error e => exact ⟨e, rfl⟩
  | ok b' => exact absurd ((push_ok_iff enc t ordinal).mp ⟨b', push⟩ l last) (not_lt.mpr le)

end BtBuilder

namespace Bt

/-- What is built from a strictly increasing list answers with it and refuses a triple that does
not increase.  Navigating the packed sequences gives the same for a list that is not too long; the
bytes read back as the same ordering when the list is within the cap, and are refused when it is
longer. -/
theorem built_answers (explicitX : Bool) {T : List Xyz} (sorted : T.Pairwise (· < ·))
    {yWidth zWidth : Nat} (fits : Fits T yWidth zWidth) (lt : T.length < 2 ^ 64) :
    ∃ b, (BtBuilder.new explicitX false).pushAll (T.map fun t => (t, none)) = .ok b ∧
      b.finish.Answers T ∧
      (T.length ≤ 2 ^ 44 → (b.finish.pack yWidth zWidth 0).Follows b.finish) ∧
      (∀ l t ordinal, T.getLast? = some l → t ≤ l → ∃ e, b.push t ordinal = .error e) ∧
      (T.length ≤ cap → (∃ c,
        PackedBt.deserialize (ByteCursor.new (b.finish.pack yWidth zWidth 0).serialize) =
          .ok (b.finish.pack yWidth zWidth 0, c)) ∧
        (b.finish.pack yWidth zWidth 0).unpack = b.finish) ∧
      (cap < T.length → ∃ e,
        PackedBt.deserialize (ByteCursor.new (b.finish.pack yWidth zWidth 0).serialize) =
          .error e) := by
  obtain ⟨b, run, enc, rep, pz⟩ := BtBuilder.build explicitX sorted
  refine ⟨b, run, rep.answers, follows_pack rep fits pz, ?_, ?_, ?_⟩
  · intro l t ordinal last le
    exact BtBuilder.push_refused enc last le ordinal
  · intro le
    exact ⟨deserialize_pack_of_le rep fits pz le, unpack_pack rep fits pz⟩
  · intro gt
    exact deserialize_pack_of_gt rep fits pz gt lt

theorem fits_three : Fits [⟨.dict 0, .dict 0, .dict 5⟩, ⟨.dict 0, .dict 2, .dict 1⟩,
    ⟨.dict 2, .dict 1, .dict 1⟩] 2 3 := by
  refine ⟨?_, ?_, ?_, by decide, by decide⟩ <;> simp [Col.IsWord, Col.raw]

theorem built_answers_three :
    ∃ b, (BtBuilder.new false false).pushAll ([⟨.dict 0, .dict 0, .dict 5⟩,
        ⟨.dict 0, .dict 2, .dict 1⟩, ⟨.dict 2, .dict 1, .dict 1⟩].map fun t => (t, none)) = .ok b ∧
      b.finish.Answers [⟨.dict 0, .dict 0, .dict 5⟩, ⟨.dict 0, .dict 2, .dict 1⟩,
        ⟨.dict 2, .dict 1, .dict 1⟩] ∧ (b.finish.pack 2 3 0).Follows b.finish := by
  obtain ⟨b, run, answers, follows, -⟩ := built_answers false
    (T := [⟨.dict 0, .dict 0, .dict 5⟩, ⟨.dict 0, .dict 2, .dict 1⟩, ⟨.dict 2, .dict 1, .dict 1⟩])
    (by decide) fits_three (by decide)
  exact ⟨b, run, answers, follows (by decide)⟩

/-! ## Lists that are too long -/

/-- Triples of one pair, `n` of them. -/
def onePair (n : Nat) : List Xyz := (List.range n).map fun z => ⟨.dict 0, .dict 0, .dict z⟩

theorem mem_onePair {n : Nat} {t : Xyz} :
    t ∈ onePair n ↔ ∃ z < n, (⟨.dict 0, .dict 0, .dict z⟩ : Xyz) = t := by
  simp only [onePair, List.mem_map, List.mem_range]

theorem onePair_sorted (n : Nat) : (onePair n).Pairwise (· < ·) := by
  rw [onePair, List.pairwise_map]
  refine List.pairwise_lt_range.imp ?_
  intro a b lt
  exact Xyz.lt_iff.mpr (Or.inr ⟨rfl, Or.inr ⟨rfl, Col.dict_lt_dict.mpr lt⟩⟩)

theorem isWord_dict {n : Nat} (h : n < 2 ^ 60) : (Col.dict n).IsWord ∧ (Col.dict n).raw < 2 ^ 60 :=
  ⟨⟨Nat.two_pow_pos 4, by rwa [Col.dict_payload]⟩, by rwa [Col.raw_dict]⟩

theorem onePair_fits {n : Nat} (h : n ≤ 2 ^ 60) : Fits (onePair n) 60 60 := by
  refine ⟨?_, ?_, ?_, by decide, by decide⟩ <;> intro t ht <;>
    obtain ⟨z, hz, rfl⟩ := mem_onePair.mp ht
  · exact (isWord_dict (by decide)).1
  · exact isWord_dict (by decide)
  · exact isWord_dict (by omega)

/-- Pairs of one triple, `m` of them. -/
def onePairEach (m : Nat) : List Xyz :=
  (List.range m).map fun y => ⟨.dict 0, .dict (y + 1), .dict 0⟩

theorem mem_onePairEach {m : Nat} {t : Xyz} :
    t ∈ onePairEach m ↔ ∃ y < m, (⟨.dict 0, .dict (y + 1), .dict 0⟩ : Xyz) = t := by
  simp only [onePairEach, List.mem_map, List.mem_range]

theorem across_sorted (n m : Nat) : (onePair n ++ onePairEach m).Pairwise (· < ·) := by
  refine List.pairwise_append.mpr ⟨onePair_sorted n, ?_, ?_⟩
  · rw [onePairEach, List.pairwise_map]
    refine List.pairwise_lt_range.imp ?_
    intro a b lt
    exact Xyz.lt_iff.mpr (Or.inr ⟨rfl, Or.inl (Col.dict_lt_dict.mpr (by omega))⟩)
  · intro a ha b hb
    obtain ⟨z, -, rfl⟩ := mem_onePair.mp ha
    obtain ⟨y, -, rfl⟩ := mem_onePairEach.mp hb
    exact Xyz.lt_iff.mpr (Or.inr ⟨rfl, Or.inl (Col.dict_lt_dict.mpr (Nat.succ_pos y))⟩)

theorem across_fits {n m : Nat} (h : n ≤ 2 ^ 60) (h' : m < 2 ^ 60) :
    Fits (onePair n ++ onePairEach m) 60 60 := by
  have first := onePair_fits h
  refine ⟨?_, ?_, ?_, by decide, by decide⟩ <;> intro t ht <;>
    rcases List.mem_append.mp ht with ht | ht
  · exact first.x t ht
  · obtain ⟨y, -, rfl⟩ := mem_onePairEach.mp ht
    exact (isWord_dict (by decide)).1
  · exact first.y t ht
  · obtain ⟨y, hy, rfl⟩ := mem_onePairEach.mp ht
    exact isWord_dict (by omega)
  · exact first.z t ht
  · obtain ⟨y, -, rfl⟩ := mem_onePairEach.mp ht
    exact isWord_dict (by decide)

theorem marks_across (n m : Nat) :
    runMarks Xyz.xy none (onePair (n + 1) ++ onePairEach m) =
      true :: (List.replicate n false ++ List.replicate m true) := by
  obtain ⟨first, rest, split⟩ : ∃ first rest, onePair (n + 1) = first :: rest :=
    List.exists_cons_of_length_pos (by simp [onePair])
  have length : rest.length = n := by
    have whole := congrArg List.length split
    simp only [onePair, List.length_map, List.length_range, List.length_cons] at whole
    omega
  have same : ∀ t ∈ first :: rest, t.xy = first.xy := by
    rw [← split]
    have key : ∀ t ∈ onePair (n + 1), t.xy = toLex (.dict 0, .dict 0) := fun t ht => by
      obtain ⟨z, -, rfl⟩ := mem_onePair.mp ht
      rfl
    exact fun t ht => (key t ht).trans (key first (split ▸ List.mem_cons_self)).symm
  have start : first.xy = toLex (.dict 0, .dict 0) := by
    obtain ⟨z, -, rfl⟩ := mem_onePair.mp (split ▸ List.mem_cons_self)
    rfl
  have fresh : ∀ t ∈ onePairEach m, some first.xy ≠ some t.xy := fun t ht same => by
    obtain ⟨y, -, rfl⟩ := mem_onePairEach.mp ht
    rw [start] at same
    have second := congrArg Prod.snd (toLex.injective (Option.some.inj same))
    exact absurd (Col.dict_inj.mp second) (by omega)
  have apart : (onePairEach m).Pairwise fun a b => a.xy ≠ b.xy := by
    rw [onePairEach, List.pairwise_map]
    refine List.nodup_range.imp fun ne same => ne ?_
    have second := congrArg Prod.snd (toLex.injective same)
    exact Nat.succ_injective (Col.dict_inj.mp second)
  rw [split, List.cons_append, runMarks,
    runMarks_same (fun t ht => same t (List.mem_cons_of_mem first ht)),
    runMarks_apart fresh apart, length]
  simp [onePairEach]

/-- The pairs cross the last superblock that 32 bits number. -/
theorem crooked_across {n : Nat} (long : n + 1 = 2 ^ 44 - 4096) :
    ¬ Succinct.StraightAt (true :: (List.replicate n false ++ List.replicate 8192 true)) 1 := by
  have place : ∀ k < 8192, select1 (true :: (List.replicate n false ++ List.replicate 8192 true))
      (k + 1) = some (k + n + 1) := fun k less => by
    rw [select1, Succinct.select1_padded, Succinct.select1_replicate less]
    rfl
  intro straight
  have order := straight _ _ (place 4095 (by decide)) (place 8191 (by decide))
  rw [Succinct.superBits] at order
  omega

/-- A list one longer than the cap is stored and cannot be read back; and with enough pairs behind
a pair of about `2 ^ 44` triples, the ordinals of a pair cannot be found. -/
theorem long_list_refused :
    ((onePair (cap + 1)).Pairwise (· < ·) ∧ Fits (onePair (cap + 1)) 60 60 ∧
      ∃ b, (BtBuilder.new false false).pushAll ((onePair (cap + 1)).map fun t => (t, none)) =
          .ok b ∧
        ∃ e, PackedBt.deserialize (ByteCursor.new (b.finish.pack 60 60 0).serialize) = .error e) ∧
    ((onePair (2 ^ 44 - 4096) ++ onePairEach 8192).Pairwise (· < ·) ∧
      Fits (onePair (2 ^ 44 - 4096) ++ onePairEach 8192) 60 60 ∧
      ∃ b, (BtBuilder.new false false).pushAll
          ((onePair (2 ^ 44 - 4096) ++ onePairEach 8192).map fun t => (t, none)) = .ok b ∧
        4096 < b.finish.nY ∧ (b.finish.pack 60 60 0).zRange 4096 = none) := by
  constructor
  · have sorted := onePair_sorted (cap + 1)
    have fits : Fits (onePair (cap + 1)) 60 60 := onePair_fits (by decide)
    have length : (onePair (cap + 1)).length = cap + 1 := by
      rw [onePair, List.length_map, List.length_range]
    have small : cap + 1 < 2 ^ 64 := by decide
    obtain ⟨b, run, -, rep, pz⟩ := BtBuilder.build false sorted
    exact ⟨sorted, fits, b, run, deserialize_pack_of_gt rep fits pz
      (by rw [length]; exact Nat.lt_succ_self cap) (by rwa [length])⟩
  · generalize big : 2 ^ 44 - 4096 = n
    obtain ⟨n, rfl⟩ : ∃ n', n = n' + 1 := Nat.exists_eq_succ_of_ne_zero (by omega)
    have sorted := across_sorted (n + 1) 8192
    have fits : Fits (onePair (n + 1) ++ onePairEach 8192) 60 60 :=
      across_fits (by omega) (by decide)
    obtain ⟨b, run, -, rep, pz⟩ := BtBuilder.build false sorted
    have marks : (b.finish.pack 60 60 0).by_.bits =
        true :: (List.replicate n false ++ List.replicate 8192 true) :=
      ((BitWords.bits_fromBits b.finish.by_).trans rep.by_).trans (marks_across n 8192)
    have le : (onePair (n + 1) ++ onePairEach 8192).length ≤ cap := by
      simp only [onePair, onePairEach, List.length_append, List.length_map, List.length_range, cap]
      omega
    have acc := accepted_pack rep fits pz le
    have found : select1 (b.finish.pack 60 60 0).by_.bits 4096 = some (4095 + n + 1) := by
      rw [marks, select1, Succinct.select1_padded, Succinct.select1_replicate (by decide)]
      rfl
    refine ⟨sorted, fits, b, run, ?_, ?_⟩
    · have runs : b.finish.by_.count true = b.finish.sy.length := by
        rw [rep.by_, count_runMarks, rep.length_sy]
        rfl
      rw [nY, ← runs, rep.by_, marks_across, List.count_cons_self, List.count_append,
        List.count_replicate_self]
      omega
    · have crooked : ¬ Succinct.StraightAt (b.finish.pack 60 60 0).by_.bits
          (4096 / Succinct.selectSample) := by
        rw [marks]
        exact crooked_across big.symm
      simp only [PackedBt.zRange, acc.by_.select1_crooked found crooked, bind, Option.bind]

end Bt

end Graphy
