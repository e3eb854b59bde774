import Graphy.Store.Proofs.Bt
import Mathlib.Data.List.Count

/-!
# Navigation of a stored ordering

Under `Bt.Represents bt T` the group, run and ordinal ranges of `bt` are the
stretches of `T` with the given x, the given (x, y) and the given triple.
-/

namespace Graphy

open BitVector

namespace Bt

section Sorted

variable {T : List Xyz} (sorted : T.Pairwise (· < ·))
include sorted

theorem sortedFrom_xy : SortedFrom Xyz.xy none T :=
  sortedFrom_none (sorted.imp Xyz.xy_le_of_lt)

theorem pairs_strict : (pairs T).Pairwise (fun a b => a.xy < b.xy) :=
  runHeads_pairwise (sortedFrom_xy sorted)

theorem sortedFrom_x : SortedFrom Xyz.x none (pairs T) :=
  sortedFrom_none ((pairs_strict sorted).imp Xyz.x_le_of_xy_lt)

theorem groups_strict : (groups T).Pairwise (fun a b => a.x < b.x) :=
  runHeads_pairwise (sortedFrom_x sorted)

theorem sorted_x : T.Pairwise (fun a b => a.x ≤ b.x) := by
  refine sorted.imp ?_
  intro a b h
  rcases Xyz.lt_iff.mp h with hx | ⟨hx, -⟩
  · exact hx.le
  · exact le_of_eq hx

omit sorted in
theorem exists_pair {t : Xyz} (ht : t ∈ T) : ∃ r ∈ pairs T, r.xy = t.xy := by
  rcases exists_runHead Xyz.xy none ht with e | found
  · cases e
  · exact found

omit sorted in
theorem exists_group {t : Xyz} (ht : t ∈ T) : ∃ h ∈ groups T, h.x = t.x := by
  obtain ⟨r, hr, eq⟩ := exists_pair ht
  rcases exists_runHead Xyz.x none hr with e | ⟨h, hh, ex⟩
  · cases e
  · exact ⟨h, hh, ex.trans (Xyz.xy_eq_iff.mp eq).1⟩

end Sorted

namespace Represents

variable {bt : Bt} {T : List Xyz} (rep : bt.Represents T)
include rep

@[simp] theorem length_sz : bt.sz.length = T.length := by simp [rep.sz]

theorem length_sy : bt.sy.length = (pairs T).length := by simp [rep.sy]

/-- The position of a group's head is the group index of its x value. -/
theorem xGroup_eq_some_iff {x : Col} {g : Nat} :
    bt.xGroup x = some g ↔ ∃ h, (groups T)[g]? = some h ∧ h.x = x := by
  have get : ((groups T).map Xyz.x)[g]? = some x ↔ ∃ h, (groups T)[g]? = some h ∧ h.x = x := by
    simp [List.getElem?_map]
  rw [← get]
  rcases rep.xValues with known | ⟨implicit, dense⟩
  · have strict : ((groups T).map Xyz.x).Pairwise (· < ·) := by
      simpa [List.pairwise_map] using groups_strict rep.sorted
    simp only [xGroup, known]
    rw [findIn_eq_some_iff (le_refl _) (Nat.zero_le _) (strictOn_of_pairwise strict _ _)]
    constructor
    · exact fun h => h.2.2
    · exact fun h => ⟨Nat.zero_le _, (List.getElem?_eq_some_iff.mp h).1, h⟩
  · simp only [xGroup, implicit, dense]
    constructor
    · intro h
      by_cases low : x < Col.dict bt.nX
      · rw [if_pos low] at h
        cases h
        obtain ⟨tag, lt⟩ := Col.lt_dict_iff.mp low
        simpa [lt] using (Col.eq_dict_of_tag tag).symm
      · rw [if_neg low] at h
        cases h
    · intro h
      obtain ⟨n, hn, rfl⟩ : ∃ n, (List.range bt.nX)[g]? = some n ∧ Col.dict n = x := by
        simpa [List.getElem?_map] using h
      obtain ⟨bound, rfl⟩ : g < bt.nX ∧ g = n := by
        obtain ⟨bound, eq⟩ := List.getElem?_eq_some_iff.mp hn
        exact ⟨by simpa using bound, by simpa using eq⟩
      simp [bound]

theorem xValue_of_group {g : Nat} {h : Xyz} (hg : (groups T)[g]? = some h) : bt.xValue g = h.x := by
  have get : ((groups T).map Xyz.x)[g]? = some h.x := by simp [hg]
  rcases rep.xValues with known | ⟨implicit, dense⟩
  · simp only [xValue, known, List.getD_eq_getElem?_getD, get, Option.getD_some]
  · rw [dense] at get
    simp only [xValue, implicit]
    obtain ⟨bound, eq⟩ := List.getElem?_eq_some_iff.mp get
    simpa using eq

/-- The `sy` range of a group holds the pairs with its x value. -/
theorem yRange_of_group {g : Nat} {h : Xyz} (hg : (groups T)[g]? = some h) :
    bt.yRange g = ((pairs T).countP (fun r => decide (r.x < h.x)),
      (pairs T).countP (fun r => decide (r.x ≤ h.x))) := by
  obtain ⟨start, stop⟩ := run_range (sortedFrom_x rep.sorted).1 hg
  simp only [yRange, rep.bx, start, rep.length_sy, stop, Option.getD_some]

/-- The ordinal range of a pair holds the triples with its x and y. -/
theorem zRange_of_pair {yi : Nat} {r : Xyz} (hr : (pairs T)[yi]? = some r) :
    bt.zRange yi = (T.countP (fun t => decide (t.xy < r.xy)),
      T.countP (fun t => decide (t.xy ≤ r.xy))) := by
  obtain ⟨start, stop⟩ := run_range (sortedFrom_xy rep.sorted).1 hr
  simp only [zRange, rep.by_, start, rep.length_sz, stop, Option.getD_some]

/-- The ordinal range of a group holds the triples with its x value. -/
theorem zRangeOfGroup_of_group {g : Nat} {h : Xyz} (hg : (groups T)[g]? = some h) :
    bt.zRangeOfGroup g = (T.countP (fun t => decide (t.x < h.x)),
      T.countP (fun t => decide (t.x ≤ h.x))) := by
  have start := select1_runMarks Xyz.xy (q := fun c => decide ((ofLex c).1 < h.x))
    (fun a b le hb => by
      simp only [decide_eq_true_eq] at hb ⊢
      exact lt_of_le_of_lt (Prod.Lex.monotone_fst _ _ le) hb)
    (sortedFrom_xy rep.sorted) (by simp)
  have stop := select1_runMarks Xyz.xy (q := fun c => decide ((ofLex c).1 ≤ h.x))
    (fun a b le hb => by
      simp only [decide_eq_true_eq] at hb ⊢
      exact le_trans (Prod.Lex.monotone_fst _ _ le) hb)
    (sortedFrom_xy rep.sorted) (by simp)
  simp only [Xyz.xy, ofLex_toLex] at start stop
  have mem : h ∈ pairs T := (runHeads_sublist _ _).subset (List.mem_of_getElem? hg)
  have here : ∃ i, select1 (runMarks Xyz.xy none T)
      ((pairs T).countP (fun r => decide (r.x < h.x))) = some i := by
    apply select1_isSome_of_lt
    rw [count_runMarks]
    exact lt_of_lt_of_le (List.countP_lt_length_iff.mpr ⟨h, mem, by simp⟩) (le_refl _)
  obtain ⟨i, hi⟩ := here
  simp only [zRangeOfGroup, rep.yRange_of_group hg, rep.by_, rep.length_sz]
  refine congrArg₂ Prod.mk ?_ stop
  rw [hi]
  exact (congrArg (fun o => Option.getD o T.length) hi).symm.trans start

/-- Searching a group for a y value finds the pair that holds it. -/
theorem findY_eq_some_iff {g : Nat} {h : Xyz} (hg : (groups T)[g]? = some h) {y : Col} {yi : Nat} :
    bt.findY g y = some yi ↔ ∃ r, (pairs T)[yi]? = some r ∧ r.x = h.x ∧ r.y = y := by
  have sortedX := (sortedFrom_x rep.sorted).1
  have strict : StrictOn bt.sy ((pairs T).countP (fun r => decide (r.x < h.x)))
      ((pairs T).countP (fun r => decide (r.x ≤ h.x))) := by
    intro i j a b hi hij hj ha hb
    rw [rep.sy, List.getElem?_map] at ha hb
    obtain ⟨r, hr, rfl⟩ := Option.map_eq_some_iff.mp ha
    obtain ⟨r', hr', rfl⟩ := Option.map_eq_some_iff.mp hb
    have ge := (countP_lt_le_index sortedX hr h.x).mp hi
    have le := (index_lt_countP_le sortedX hr' h.x).mp hj
    obtain ⟨bi, ei⟩ := List.getElem?_eq_some_iff.mp hr
    obtain ⟨bj, ej⟩ := List.getElem?_eq_some_iff.mp hr'
    have lt := List.pairwise_iff_getElem.mp (pairs_strict rep.sorted) i j bi bj hij
    rw [ei, ej] at lt
    rcases Prod.Lex.toLex_lt_toLex.mp lt with hx | ⟨-, hy⟩
    · exact absurd (lt_of_le_of_lt ge hx) (not_lt.mpr le)
    · exact hy
  simp only [findY, rep.yRange_of_group hg]
  rw [findIn_eq_some_iff (by rw [rep.length_sy]; exact List.countP_le_length)
    (countP_lt_le Xyz.x h.x) strict]
  rw [rep.sy, List.getElem?_map]
  constructor
  · rintro ⟨hlo, hhi, hy⟩
    obtain ⟨r, hr, rfl⟩ := Option.map_eq_some_iff.mp hy
    have ge := (countP_lt_le_index sortedX hr h.x).mp hlo
    have le := (index_lt_countP_le sortedX hr h.x).mp hhi
    exact ⟨r, hr, le_antisymm le ge, rfl⟩
  · rintro ⟨r, hr, hx, rfl⟩
    exact ⟨(countP_lt_le_index sortedX hr h.x).mpr hx.ge,
      (index_lt_countP_le sortedX hr h.x).mpr hx.le, by simp [hr]⟩

/-- Searching a run for a z value finds the triple that holds it. -/
theorem findZ_eq_some_iff {yi : Nat} {r : Xyz} (hr : (pairs T)[yi]? = some r) {z : Col} {i : Nat} :
    bt.findZ yi z = some i ↔ T[i]? = some ⟨r.x, r.y, z⟩ := by
  have sortedXy := (sortedFrom_xy rep.sorted).1
  have strict : StrictOn bt.sz (T.countP (fun t => decide (t.xy < r.xy)))
      (T.countP (fun t => decide (t.xy ≤ r.xy))) := by
    intro i j a b hi hij hj ha hb
    rw [rep.sz, List.getElem?_map] at ha hb
    obtain ⟨t, ht, rfl⟩ := Option.map_eq_some_iff.mp ha
    obtain ⟨t', ht', rfl⟩ := Option.map_eq_some_iff.mp hb
    have ge := (countP_lt_le_index sortedXy ht r.xy).mp hi
    have le := (index_lt_countP_le sortedXy ht' r.xy).mp hj
    obtain ⟨bi, ei⟩ := List.getElem?_eq_some_iff.mp ht
    obtain ⟨bj, ej⟩ := List.getElem?_eq_some_iff.mp ht'
    have lt := List.pairwise_iff_getElem.mp rep.sorted i j bi bj hij
    rw [ei, ej] at lt
    have same : t.xy = t'.xy := le_antisymm (Xyz.xy_le_of_lt lt) (le.trans ge)
    obtain ⟨hx, hy⟩ := Xyz.xy_eq_iff.mp same
    rcases Xyz.lt_iff.mp lt with h | ⟨-, h | ⟨-, hz⟩⟩
    · exact absurd hx (ne_of_lt h)
    · exact absurd hy (ne_of_lt h)
    · exact hz
  simp only [findZ, rep.zRange_of_pair hr]
  rw [findIn_eq_some_iff (by rw [rep.length_sz]; exact List.countP_le_length)
    (countP_lt_le Xyz.xy r.xy) strict]
  rw [rep.sz, List.getElem?_map]
  constructor
  · rintro ⟨hlo, hhi, hz⟩
    obtain ⟨t, ht, rfl⟩ := Option.map_eq_some_iff.mp hz
    have ge := (countP_lt_le_index sortedXy ht r.xy).mp hlo
    have le := (index_lt_countP_le sortedXy ht r.xy).mp hhi
    obtain ⟨hx, hy⟩ := Xyz.xy_eq_iff.mp (le_antisymm le ge)
    rw [ht, ← hx, ← hy]
  · intro ht
    have same : (⟨r.x, r.y, z⟩ : Xyz).xy = r.xy := rfl
    exact ⟨(countP_lt_le_index sortedXy ht r.xy).mpr same.ge,
      (index_lt_countP_le sortedXy ht r.xy).mpr same.le, by simp [ht]⟩

/-- Looking a triple up component by component finds its ordinal. -/
theorem lookup_eq_some_iff {x y z : Col} {i : Nat} :
    (((bt.xGroup x).bind fun g => bt.findY g y).bind fun yi => bt.findZ yi z) = some i ↔
      T[i]? = some ⟨x, y, z⟩ := by
  simp only [Option.bind_eq_some_iff]
  constructor
  · rintro ⟨yi, ⟨g, hg, hy⟩, hz⟩
    obtain ⟨h, getH, rfl⟩ := rep.xGroup_eq_some_iff.mp hg
    obtain ⟨r, getR, hx, rfl⟩ := (rep.findY_eq_some_iff getH).mp hy
    rw [← hx]
    exact (rep.findZ_eq_some_iff getR).mp hz
  · intro ht
    have mem := List.mem_of_getElem? ht
    obtain ⟨r, hr, eq⟩ := exists_pair mem
    obtain ⟨yi, getR⟩ := List.mem_iff_getElem?.mp hr
    obtain ⟨h, hh, ex⟩ := exists_group mem
    obtain ⟨g, getH⟩ := List.mem_iff_getElem?.mp hh
    obtain ⟨hx, hy⟩ := Xyz.xy_eq_iff.mp eq
    refine ⟨yi, ⟨g, rep.xGroup_eq_some_iff.mpr ⟨h, getH, ex⟩,
      (rep.findY_eq_some_iff getH).mpr ⟨r, getR, hx.trans ex.symm, hy⟩⟩,
      (rep.findZ_eq_some_iff getR).mpr ?_⟩
    rw [ht, hx, hy]

/-- The triple at an ordinal, through the two rank steps. -/
theorem tripleAt_eq {i : Nat} {t : Xyz} (ht : T[i]? = some t) : bt.tripleAt i = t := by
  rcases runHeads_rank1 Xyz.xy none T i t ht with ⟨-, e⟩ | ⟨r, getR, eq, -⟩
  · cases e
  · rcases runHeads_rank1 Xyz.x none (pairs T) _ r getR with ⟨-, e⟩ | ⟨h, getH, ex, -⟩
    · cases e
    · obtain ⟨hx, hy⟩ := Xyz.xy_eq_iff.mp eq
      have xs := rep.xValue_of_group getH
      have ys : bt.yAt (rank1 (runMarks Xyz.xy none T) (i + 1) - 1) = r.y := by
        simp only [yAt, rep.sy, List.getD_eq_getElem?_getD, List.getElem?_map]
        rw [pairs, getR]
        rfl
      have zs : bt.zAt i = t.z := by
        simp [zAt, rep.sz, List.getD_eq_getElem?_getD, List.getElem?_map, ht]
      simp only [tripleAt, rep.by_, rep.bx]
      rw [xs, ys, zs, ex, hx, hy]

/-- The subject side of an `sy` position. -/
theorem xValue_groupOfY {yi : Nat} {r : Xyz} (hr : (pairs T)[yi]? = some r) :
    bt.xValue (bt.groupOfY yi) = r.x := by
  rcases runHeads_rank1 Xyz.x none (pairs T) yi r hr with ⟨-, e⟩ | ⟨h, getH, ex, -⟩
  · cases e
  · simp only [groupOfY, rep.bx]
    rw [rep.xValue_of_group getH, ex]

end Represents

end Bt

end Graphy
