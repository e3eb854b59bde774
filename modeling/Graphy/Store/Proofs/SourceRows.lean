import Graphy.Store.Proofs.Sources

/-!
# The rows of a source

Every source shows the base triples that a pattern can match, strictly ascending
in its ordering.  The P-accessor sees the low bits of a predicate only, so it
shows a triple again under every other predicate with the same low bits.
-/

namespace Graphy

open BitVector

/-- A pattern over the columns of a triple. -/
def Pattern.MatchesTriple (pat : Pattern) (t : TripleKey) : Prop :=
  (∀ v ∈ pat.s, v = t.s) ∧ (∀ v ∈ pat.p, v = t.p) ∧ ∀ v ∈ pat.o, v = t.o

/-- A pattern over the columns of a quad. -/
def Pattern.Matches (pat : Pattern) (q : QuadKey) : Prop :=
  pat.MatchesTriple q.triple ∧ ∀ v ∈ pat.g, v = q.g

/-- What a source gives: rows that show base triples of `T`, all that the pattern
matches, with the SPO ordinals where the graph layer needs them. -/
structure SourceRows (order : Order) (pat : Pattern) (T : List Xyz) (named : Prop)
    (shown : TripleKey → TripleKey → Prop) (es : List (TripleKey × Option Nat)) : Prop where
  ascending : es.Pairwise fun a b => order.toXyz a.1 < order.toXyz b.1
  sound : ∀ e ∈ es, ∃ (ord : Nat) (u : TripleKey), T[ord]? = some (Order.spo.toXyz u) ∧ shown u e.1 ∧
    (named → e.2 = some ord)
  complete : ∀ (ord : Nat) (u t : TripleKey), T[ord]? = some (Order.spo.toXyz u) → shown u t → pat.MatchesTriple t →
    ∃ hint, (t, hint) ∈ es

/-! ## Ranges -/

theorem flag_eq_one {v : Option Col} : flag v = Col.dict 1 ↔ v.isSome = true := by
  cases v <;> simp [flag]

/-- The components of a pattern in the space of an ordering. -/
theorem Pattern.components (pat : Pattern) (order : Order) : ∃ cx cy cz : Option Col,
    order.toXyz ⟨pat.s.getD (Col.dict 0), pat.p.getD (Col.dict 0), pat.o.getD (Col.dict 0)⟩ =
        ⟨cx.getD (Col.dict 0), cy.getD (Col.dict 0), cz.getD (Col.dict 0)⟩ ∧
      order.toXyz ⟨flag pat.s, flag pat.p, flag pat.o⟩ = ⟨flag cx, flag cy, flag cz⟩ ∧
      ∀ t : Xyz, pat.MatchesTriple (order.toSpo t) ↔
        (∀ v ∈ cx, v = t.x) ∧ (∀ v ∈ cy, v = t.y) ∧ ∀ v ∈ cz, v = t.z := by
  cases order
  · exact ⟨pat.s, pat.p, pat.o, rfl, rfl, fun _ => Iff.rfl⟩
  · exact ⟨pat.s, pat.o, pat.p, rfl, rfl, fun _ => by simp only [MatchesTriple, Order.toSpo]; tauto⟩
  · exact ⟨pat.p, pat.o, pat.s, rfl, rfl, fun _ => by simp only [MatchesTriple, Order.toSpo]; tauto⟩
  · exact ⟨pat.p, pat.s, pat.o, rfl, rfl, fun _ => by simp only [MatchesTriple, Order.toSpo]; tauto⟩
  · exact ⟨pat.o, pat.s, pat.p, rfl, rfl, fun _ => by simp only [MatchesTriple, Order.toSpo]; tauto⟩
  · exact ⟨pat.o, pat.p, pat.s, rfl, rfl, fun _ => by simp only [MatchesTriple, Order.toSpo]; tauto⟩

namespace Bt.Represents

variable {bt : Bt} {T : List Xyz} (rep : bt.Represents T)
include rep

/-- The range of a pattern's bound prefix holds every match. -/
theorem prefixRange_spec (pat : Pattern) (order : Order) :
    (prefixRange bt pat order).2 ≤ T.length ∧ ∀ i t, T[i]? = some t →
      pat.MatchesTriple (order.toSpo t) →
      (prefixRange bt pat order).1 ≤ i ∧ i < (prefixRange bt pat order).2 := by
  obtain ⟨cx, cy, cz, want, flags, matches_⟩ := pat.components order
  simp only [prefixRange, want, flags, ne_eq, flag_eq_one]
  cases cx with
  | none =>
      simp only [Option.isSome_none, Bool.false_eq_true, not_false_eq_true, if_true, nTriples,
        rep.length_sz]
      exact ⟨le_refl _, fun i t ht _ => ⟨Nat.zero_le _, (List.getElem?_eq_some_iff.mp ht).1⟩⟩
  | some x =>
      simp only [Option.isSome_some, not_true_eq_false, if_false, Option.getD_some]
      cases group : bt.xGroup x with
      | none =>
          refine ⟨Nat.zero_le _, fun i t ht here => ?_⟩
          have same : x = t.x := ((matches_ t).mp here).1 x rfl
          obtain ⟨h, inside, eq⟩ := exists_group (List.mem_of_getElem? ht)
          obtain ⟨g, getH⟩ := List.mem_iff_getElem?.mp inside
          have found := rep.xGroup_eq_some_iff.mpr ⟨h, getH, eq.trans same.symm⟩
          rw [group] at found
          cases found
      | some g =>
          obtain ⟨h, getH, rfl⟩ := rep.xGroup_eq_some_iff.mp group
          cases cy with
          | none =>
              simp only [Option.isSome_none, Bool.false_eq_true, if_false,
                rep.zRangeOfGroup_of_group getH]
              refine ⟨List.countP_le_length, fun i t ht here => ?_⟩
              have same : h.x = t.x := ((matches_ t).mp here).1 h.x rfl
              exact ⟨(countP_lt_le_index (sorted_x rep.sorted) ht h.x).mpr same.le,
                (index_lt_countP_le (sorted_x rep.sorted) ht h.x).mpr same.ge⟩
          | some y =>
              simp only [Option.isSome_some, if_true, Option.getD_some]
              cases pair : bt.findY g y with
              | none =>
                  refine ⟨Nat.zero_le _, fun i t ht here => ?_⟩
                  obtain ⟨sameX, sameY, -⟩ := (matches_ t).mp here
                  obtain ⟨r, inside, eq⟩ := exists_pair (List.mem_of_getElem? ht)
                  obtain ⟨yi, getR⟩ := List.mem_iff_getElem?.mp inside
                  obtain ⟨eqX, eqY⟩ := Xyz.xy_eq_iff.mp eq
                  have found := (rep.findY_eq_some_iff getH).mpr
                    ⟨r, getR, eqX.trans (sameX h.x rfl).symm, eqY.trans (sameY y rfl).symm⟩
                  rw [pair] at found
                  cases found
              | some yi =>
                  obtain ⟨r, getR, eqX, rfl⟩ := (rep.findY_eq_some_iff getH).mp pair
                  cases cz with
                  | none =>
                      simp only [Option.isSome_none, Bool.false_eq_true, if_false,
                        rep.zRange_of_pair getR]
                      refine ⟨List.countP_le_length, fun i t ht here => ?_⟩
                      obtain ⟨sameX, sameY, -⟩ := (matches_ t).mp here
                      have same : r.xy = t.xy :=
                        Xyz.xy_eq_iff.mpr ⟨eqX.trans (sameX h.x rfl), sameY r.y rfl⟩
                      have sortedXy := (sortedFrom_xy rep.sorted).1
                      exact ⟨(countP_lt_le_index sortedXy ht r.xy).mpr same.le,
                        (index_lt_countP_le sortedXy ht r.xy).mpr same.ge⟩
                  | some z =>
                      simp only [Option.isSome_some, if_true, Option.getD_some]
                      have exact_ (i : Nat) (t : Xyz) (ht : T[i]? = some t)
                          (here : pat.MatchesTriple (order.toSpo t)) :
                          bt.findZ yi z = some i := by
                        obtain ⟨sameX, sameY, sameZ⟩ := (matches_ t).mp here
                        refine (rep.findZ_eq_some_iff getR).mpr ?_
                        rw [ht, eqX, sameX h.x rfl, sameY r.y rfl, sameZ z rfl]
                      cases ord : bt.findZ yi z with
                      | none =>
                          refine ⟨Nat.zero_le _, fun i t ht here => ?_⟩
                          have found := exact_ i t ht here
                          rw [ord] at found
                          cases found
                      | some j =>
                          have bound := (List.getElem?_eq_some_iff.mp
                            ((rep.findZ_eq_some_iff getR).mp ord)).1
                          refine ⟨bound, fun i t ht here => ?_⟩
                          have found := exact_ i t ht here
                          rw [ord] at found
                          cases found
                          exact ⟨le_refl _, Nat.lt_succ_self _⟩

end Bt.Represents

/-- A range of a materialized ordering shows the base triples themselves. -/
theorem Bt.Holds.rangeRows {bt : Bt} {order : Order} {quads : List QuadKey}
    (holds : bt.Holds order quads) (sorted : quads.Pairwise (· < ·)) (pat : Pattern) :
    SourceRows order pat (triplesOf quads) (hasNamedGraphs quads = true) (fun u t => t = u)
      ((List.range' (prefixRange bt pat order).1
        ((prefixRange bt pat order).2 - (prefixRange bt pat order).1)).map (bt.row order)) := by
  have rep := holds.represents
  obtain ⟨bound, inside⟩ := rep.prefixRange_spec pat order
  generalize (prefixRange bt pat order).1 = lo at inside
  generalize (prefixRange bt pat order).2 = hi at bound inside
  have get (i : Nat) (h : i ∈ List.range' lo (hi - lo)) :
      ∃ t, (orderTriples order (triplesOf quads))[i]? = some t ∧ bt.tripleAt i = t := by
    rw [List.mem_range'_1] at h
    have lt : i < (orderTriples order (triplesOf quads)).length := by omega
    exact ⟨_, List.getElem?_eq_getElem lt, rep.tripleAt_eq (List.getElem?_eq_getElem lt)⟩
  constructor
  · rw [List.pairwise_map]
    refine List.Pairwise.imp_of_mem ?_ List.pairwise_lt_range'
    intro i j hi hj lt
    obtain ⟨t, getT, eqT⟩ := get i hi
    obtain ⟨u, getU, eqU⟩ := get j hj
    simp only [Bt.row, eqT, eqU, Order.toXyz_toSpo]
    obtain ⟨boundT, rfl⟩ := List.getElem?_eq_some_iff.mp getT
    obtain ⟨boundU, rfl⟩ := List.getElem?_eq_some_iff.mp getU
    exact List.pairwise_iff_getElem.mp rep.sorted i j boundT boundU lt
  · intro e he
    obtain ⟨i, hi, rfl⟩ := List.mem_map.mp he
    obtain ⟨t, getT, eqT⟩ := get i hi
    simp only [Bt.row, eqT]
    by_cases primary : order = .spo
    · subst primary
      rw [orderTriples_spo sorted] at getT
      exact ⟨i, Order.spo.toSpo t, by rw [getT, Order.toXyz_toSpo], rfl, fun _ => if_pos rfl⟩
    · have base := mem_orderTriples.mp (List.mem_of_getElem? getT)
      by_cases named : hasNamedGraphs quads = true
      · obtain ⟨pz, eqPz, ordinals⟩ := holds.payload primary named
        obtain ⟨ord, getOrd, getBase⟩ := ordinals i t getT
        refine ⟨ord, order.toSpo t, getBase, rfl, fun _ => ?_⟩
        rw [if_neg primary, Bt.spoAt, eqPz, Option.map_some, List.getD_eq_getElem?_getD, getOrd]
        rfl
      · obtain ⟨ord, getBase⟩ := List.mem_iff_getElem?.mp base
        exact ⟨ord, order.toSpo t, getBase, rfl, fun h => absurd h named⟩
  · intro ord u t getU eq here
    cases eq
    have mem : order.toXyz u ∈ orderTriples order (triplesOf quads) := by
      rw [mem_orderTriples, Order.toSpo_toXyz]
      exact List.mem_of_getElem? getU
    obtain ⟨i, getT⟩ := List.mem_iff_getElem?.mp mem
    obtain ⟨above, below⟩ := inside i _ getT (by rwa [Order.toSpo_toXyz])
    refine ⟨(bt.row order i).2, List.mem_map.mpr ⟨i, ?_, ?_⟩⟩
    · rw [List.mem_range'_1]
      omega
    · simp only [Bt.row, rep.tripleAt_eq getT, Order.toSpo_toXyz]

/-! ## The P-accessor -/

namespace FoqP

variable {spo : Bt} {T : List Xyz} (rep : spo.Represents T)
include rep

/-- The run of a pair shows its triples. -/
theorem mem_run {yi p ord : Nat} {r : Xyz} (hr : (Bt.pairs T)[yi]? = some r) {t : TripleKey} :
    (t, ord) ∈ run spo p (spo.xValue (spo.groupOfY yi)) (spo.zRange yi).1 (spo.zRange yi).2 ↔
      ∃ u, T[ord]? = some u ∧ u.xy = r.xy ∧ t = ⟨u.x, Col.dict p, u.z⟩ := by
  have sortedXy := (Bt.sortedFrom_xy rep.sorted).1
  have z {i : Nat} {u : Xyz} (h : T[i]? = some u) : spo.zAt i = u.z := by
    simp [Bt.zAt, rep.sz, List.getD_eq_getElem?_getD, h]
  simp only [run, List.mem_map, List.mem_range'_1, rep.zRange_of_pair hr, rep.xValue_groupOfY hr,
    Prod.mk.injEq]
  constructor
  · rintro ⟨i, ⟨lower, upper⟩, rfl, rfl⟩
    have bound : T.countP (fun t => decide (t.xy ≤ r.xy)) ≤ T.length := List.countP_le_length
    have get := List.getElem?_eq_getElem (show i < T.length by omega)
    have ge := (countP_lt_le_index sortedXy get r.xy).mp lower
    have le := (index_lt_countP_le sortedXy get r.xy).mp (by omega)
    have same := le_antisymm le ge
    exact ⟨_, get, same, by rw [z get, (Xyz.xy_eq_iff.mp same).1]⟩
  · rintro ⟨u, get, same, rfl⟩
    have lower := (countP_lt_le_index sortedXy get r.xy).mpr same.ge
    have upper := (index_lt_countP_le sortedXy get r.xy).mpr same.le
    exact ⟨ord, ⟨lower, by omega⟩, by rw [z get, (Xyz.xy_eq_iff.mp same).1], rfl⟩

variable {foq : Foq} {w : Nat}
  (wp : foq.wp = WaveletMatrix.new ((Bt.pairs T).map fun r => r.y.payload) w)
include wp

omit rep in
theorem select_pair {p k yi : Nat} (h : foq.wp.select p k = some yi) :
    ∃ r, (Bt.pairs T)[yi]? = some r ∧ r.y.payload % 2 ^ w = p % 2 ^ w := by
  rw [wp] at h
  obtain ⟨⟨v, get, low⟩, -⟩ := WaveletMatrix.select_new.mp h
  rw [List.getElem?_map] at get
  obtain ⟨r, getR, rfl⟩ := Option.map_eq_some_iff.mp get
  exact ⟨r, getR, low⟩

omit rep in
theorem exists_select {p k : Nat} (h : k < foq.wp.rank p foq.wp.len) :
    ∃ yi, foq.wp.select p k = some yi := by
  rw [wp] at h ⊢
  exact WaveletMatrix.exists_select h

/-- The rows under a predicate are the triples whose predicate has its low bits. -/
theorem mem_occurrences {p ord : Nat} {t : TripleKey} :
    (t, ord) ∈ occurrences spo foq p 0 (foq.wp.rank p foq.wp.len) ↔
      ∃ u, T[ord]? = some u ∧ u.y.payload % 2 ^ w = p % 2 ^ w ∧ t = ⟨u.x, Col.dict p, u.z⟩ := by
  simp only [occurrences, List.mem_flatMap, List.mem_range'_1]
  constructor
  · rintro ⟨k, ⟨-, below⟩, inside⟩
    obtain ⟨yi, found⟩ := exists_select wp (by omega : k < foq.wp.rank p foq.wp.len)
    obtain ⟨r, hr, low⟩ := select_pair wp found
    rw [occurrence, found, Option.getD_some] at inside
    obtain ⟨u, get, same, eq⟩ := (mem_run rep hr).mp inside
    exact ⟨u, get, by rw [(Xyz.xy_eq_iff.mp same).2, low], eq⟩
  · rintro ⟨u, get, low, eq⟩
    obtain ⟨r, inside, same⟩ := Bt.exists_pair (List.mem_of_getElem? get)
    obtain ⟨yi, hr⟩ := List.mem_iff_getElem?.mp inside
    have getY : ((Bt.pairs T).map fun r => r.y.payload)[yi]? = some r.y.payload := by
      simp [hr]
    obtain ⟨k, below, found⟩ := WaveletMatrix.select_of_get getY
      (show r.y.payload % 2 ^ w = p % 2 ^ w by rw [(Xyz.xy_eq_iff.mp same).2, low])
    rw [← wp] at found
    have len : foq.wp.len = ((Bt.pairs T).map fun r => r.y.payload).length := by rw [wp]; rfl
    refine ⟨k, ⟨Nat.zero_le _, ?_⟩, ?_⟩
    · rw [wp] at len ⊢
      rw [len]
      omega
    · rw [occurrence, found, Option.getD_some]
      exact (mem_run rep hr).mpr ⟨u, get, same.symm, eq⟩

/-- The rows under a predicate ascend. -/
theorem occurrences_ascending (low : ∀ u ∈ T, u.y.tag = 0 ∧ u.y.payload < 2 ^ w) (p : Nat) :
    (occurrences spo foq p 0 (foq.wp.rank p foq.wp.len)).Pairwise fun a b =>
      Order.pso.toXyz a.1 < Order.pso.toXyz b.1 := by
  have strict := Bt.pairs_strict rep.sorted
  have pairLow (r : Xyz) (h : r ∈ Bt.pairs T) := low r ((runHeads_sublist none T).subset h)
  rw [occurrences, List.pairwise_flatMap]
  constructor
  · intro k hk
    rw [List.mem_range'_1] at hk
    obtain ⟨yi, found⟩ := exists_select wp (by omega : k < foq.wp.rank p foq.wp.len)
    obtain ⟨r, hr, -⟩ := select_pair wp found
    rw [occurrence, found, Option.getD_some]
    -- within a run the subject is fixed and the objects ascend
    refine List.pairwise_map.mpr (List.Pairwise.imp_of_mem ?_ List.pairwise_lt_range')
    intro i j hi hj lt
    have row {i : Nat} (h : i ∈ List.range' (spo.zRange yi).1
        ((spo.zRange yi).2 - (spo.zRange yi).1)) :
        ∃ u, T[i]? = some u ∧ u.xy = r.xy ∧ spo.zAt i = u.z := by
      have mem : (⟨spo.xValue (spo.groupOfY yi), Col.dict p, spo.zAt i⟩, i) ∈
          run spo p (spo.xValue (spo.groupOfY yi)) (spo.zRange yi).1 (spo.zRange yi).2 :=
        List.mem_map.mpr ⟨i, h, rfl⟩
      obtain ⟨u, get, same, eq⟩ := (mem_run rep hr).mp mem
      exact ⟨u, get, same, by injection eq⟩
    obtain ⟨u, getU, sameU, zU⟩ := row hi
    obtain ⟨v, getV, sameV, zV⟩ := row hj
    obtain ⟨boundU, rfl⟩ := List.getElem?_eq_some_iff.mp getU
    obtain ⟨boundV, rfl⟩ := List.getElem?_eq_some_iff.mp getV
    have less := List.pairwise_iff_getElem.mp rep.sorted i j boundU boundV lt
    obtain ⟨sameX, sameY⟩ := Xyz.xy_eq_iff.mp (sameU.trans sameV.symm)
    rw [Xyz.lt_iff, sameX, sameY] at less
    refine Xyz.lt_iff.mpr (Or.inr ⟨rfl, Or.inr ⟨rfl, ?_⟩⟩)
    simp only [Order.toXyz, zU, zV]
    simpa using less
  · refine List.Pairwise.imp_of_mem ?_ List.pairwise_lt_range'
    intro k k' hk hk' lt a ha b hb
    rw [List.mem_range'_1] at hk hk'
    obtain ⟨yi, found⟩ := exists_select wp (by omega : k < foq.wp.rank p foq.wp.len)
    obtain ⟨yi', found'⟩ := exists_select wp (by omega : k' < foq.wp.rank p foq.wp.len)
    obtain ⟨r, hr, lowR⟩ := select_pair wp found
    obtain ⟨r', hr', lowR'⟩ := select_pair wp found'
    rw [occurrence, found, Option.getD_some] at ha
    rw [occurrence, found', Option.getD_some] at hb
    obtain ⟨u, -, sameU, eqU⟩ := (mem_run rep hr).mp ha
    obtain ⟨v, -, sameV, eqV⟩ := (mem_run rep hr').mp hb
    -- the predicate is the same, so the pairs ascend by their subjects
    have later : yi < yi' := by
      rw [wp] at found found'
      exact WaveletMatrix.select_lt lt found found'
    obtain ⟨boundR, rfl⟩ := List.getElem?_eq_some_iff.mp hr
    obtain ⟨boundR', rfl⟩ := List.getElem?_eq_some_iff.mp hr'
    have less := List.pairwise_iff_getElem.mp strict yi yi' boundR boundR' later
    obtain ⟨tagR, payloadR⟩ := pairLow _ (List.getElem_mem boundR)
    obtain ⟨tagR', payloadR'⟩ := pairLow _ (List.getElem_mem boundR')
    rw [Nat.mod_eq_of_lt payloadR] at lowR
    rw [Nat.mod_eq_of_lt payloadR'] at lowR'
    have sameY : (Bt.pairs T)[yi].y = (Bt.pairs T)[yi'].y := by
      rw [Col.eq_dict_of_tag tagR, Col.eq_dict_of_tag tagR', lowR, lowR']
    rw [← sameU, ← sameV, Xyz.xy, Xyz.xy, Prod.Lex.toLex_lt_toLex,
      (Xyz.xy_eq_iff.mp sameU).2, (Xyz.xy_eq_iff.mp sameV).2, sameY] at less
    have x : u.x < v.x := by simpa using less
    rw [eqU, eqV]
    exact Xyz.lt_iff.mpr (Or.inr ⟨rfl, Or.inl x⟩)

end FoqP

/-- A base triple as the P-accessor shows it: under every predicate with its low bits. -/
def ShownP (nPreds w : Nat) (u t : TripleKey) : Prop :=
  t.s = u.s ∧ t.o = u.o ∧ t.p.tag = 0 ∧ t.p.payload < nPreds ∧ u.p.payload = t.p.payload % 2 ^ w

theorem FoqP.rows {spo : Bt} {T : List Xyz} (rep : spo.Represents T) {foq : Foq} {w : Nat}
    (wp : foq.wp = WaveletMatrix.new ((Bt.pairs T).map fun r => r.y.payload) w)
    (low : ∀ u ∈ T, u.y.tag = 0 ∧ u.y.payload < 2 ^ w) (nPreds : Nat) (pat : Pattern) (named : Prop) :
    SourceRows .pso pat T named (ShownP nPreds w)
      (((FoqP.start foq nPreds pat.p).rest spo foq).map fun e => (e.1, some e.2)) := by
  -- the predicates walked
  obtain ⟨lo, hi, all, bound, inside⟩ : ∃ lo hi,
      (FoqP.start foq nPreds pat.p).rest spo foq = predicates spo foq lo hi ∧ hi ≤ nPreds ∧
        ∀ p, p < nPreds → (∀ v ∈ pat.p, v = Col.dict p) → lo ≤ p ∧ p < hi := by
    have walk (lo hi : Nat) : rest spo foq
        { p := lo, pEnd := hi, k := 0, kEnd := if lo < hi then foq.wp.rank lo foq.wp.len else 0,
          zi := 0, zEnd := 0, s := Col.dict 0 } = predicates spo foq lo hi := by
      by_cases some_ : lo < hi
      · rw [rest, run_of_le (le_refl _), if_pos some_, predicates_of_lt some_]
        rfl
      · rw [rest, run_of_le (le_refl _), if_neg some_, occurrences_of_le (le_refl _),
          predicates_of_le (Nat.le_succ_of_le (Nat.not_lt.mp some_)),
          predicates_of_le (Nat.not_lt.mp some_)]
        rfl
    cases p : pat.p with
    | none => exact ⟨0, nPreds, walk 0 nPreds, le_refl _, fun q hq _ => ⟨Nat.zero_le _, hq⟩⟩
    | some v =>
        by_cases known : v < Col.dict nPreds
        · refine ⟨v.payload, v.payload + 1, ?_, (Col.lt_dict_iff.mp known).2, ?_⟩
          · rw [← walk]
            simp only [FoqP.start, if_pos known]
          · intro q _ eq
            rw [eq v rfl, Col.dict_payload]
            exact ⟨le_refl _, Nat.lt_succ_self _⟩
        · refine ⟨0, 0, ?_, Nat.zero_le _, ?_⟩
          · rw [← walk]
            simp only [FoqP.start, if_neg known]
          · intro q hq eq
            rw [eq v rfl] at known
            exact absurd (Col.dict_lt_dict.mpr hq) known
  have mem {t : TripleKey} {ord : Nat} : (t, ord) ∈ predicates spo foq lo hi ↔
      ∃ p u, lo ≤ p ∧ p < hi ∧ T[ord]? = some u ∧ u.y.payload % 2 ^ w = p % 2 ^ w ∧
        t = ⟨u.x, Col.dict p, u.z⟩ := by
    simp only [predicates, List.mem_flatMap, List.mem_range'_1, mem_occurrences rep wp]
    constructor
    · rintro ⟨p, ⟨lower, upper⟩, u, get, eq, rfl⟩
      exact ⟨p, u, lower, by omega, get, eq, rfl⟩
    · rintro ⟨p, u, lower, upper, get, eq, rfl⟩
      exact ⟨p, ⟨lower, by omega⟩, u, get, eq, rfl⟩
  rw [all]
  constructor
  · rw [List.pairwise_map]
    refine List.pairwise_flatMap.mpr ⟨fun p _ => occurrences_ascending rep wp low p, ?_⟩
    refine List.Pairwise.imp ?_ List.pairwise_lt_range'
    rintro p p' lt ⟨a, i⟩ ha ⟨b, j⟩ hb
    obtain ⟨u, -, -, rfl⟩ := (mem_occurrences rep wp).mp ha
    obtain ⟨v, -, -, rfl⟩ := (mem_occurrences rep wp).mp hb
    exact Xyz.lt_iff.mpr (Or.inl (Col.dict_lt_dict.mpr lt))
  · intro e he
    obtain ⟨⟨t, ord⟩, inside, rfl⟩ := List.mem_map.mp he
    obtain ⟨p, u, -, upper, get, eq, rfl⟩ := mem.mp inside
    obtain ⟨-, payload⟩ := low u (List.mem_of_getElem? get)
    refine ⟨ord, Order.spo.toSpo u, by rw [get, Order.toXyz_toSpo], ⟨rfl, rfl, rfl, ?_, ?_⟩,
      fun _ => rfl⟩
    · exact lt_of_lt_of_le upper bound
    · rw [Nat.mod_eq_of_lt payload] at eq
      exact eq
  · rintro ord u t get ⟨s, o, tag, known, payload⟩ ⟨-, matchP, -⟩
    have eqP : t.p = Col.dict t.p.payload := Col.eq_dict_of_tag tag
    obtain ⟨lower, upper⟩ := inside t.p.payload known (by rwa [← eqP])
    refine ⟨some ord, List.mem_map.mpr ⟨(t, ord), mem.mpr ?_, rfl⟩⟩
    refine ⟨t.p.payload, _, lower, upper, get, ?_, ?_⟩
    · have := (low _ (List.mem_of_getElem? get)).2
      simp only [Order.toXyz] at this ⊢
      rw [payload, Nat.mod_mod]
    · rw [← eqP]
      simp only [Order.toXyz, ← s, ← o]

/-! ## The O-accessor -/

theorem mem_objectOrdinals {T : List Xyz} {z : Col} {ord : Nat} :
    (z, ord) ∈ objectOrdinals T ↔ ∃ u, T[ord]? = some u ∧ u.z = z := by
  simp only [objectOrdinals, List.mem_map, List.mem_insertionSort, List.mem_mapIdx]
  constructor
  · rintro ⟨e, ⟨i, bound, rfl⟩, eq⟩
    cases eq
    exact ⟨_, List.getElem?_eq_getElem bound, rfl⟩
  · rintro ⟨u, get, rfl⟩
    obtain ⟨bound, rfl⟩ := List.getElem?_eq_some_iff.mp get
    exact ⟨_, ⟨ord, bound, rfl⟩, rfl⟩

/-- The object index ascends by object, then by ordinal. -/
theorem objectOrdinals_strict (T : List Xyz) :
    (objectOrdinals T).Pairwise fun a b => a.1 < b.1 ∨ a.1 = b.1 ∧ a.2 < b.2 := by
  have nodup : (T.mapIdx fun i t => (toLex (t.z, i) : Col ×ₗ Nat)).Nodup := by
    rw [List.nodup_iff_pairwise_ne, List.pairwise_iff_getElem]
    intro i j hi hj lt eq
    have second : i = j := by
      simpa using congrArg (fun e => (ofLex e).2) eq
    omega
  have weak : ((T.mapIdx fun i t => (toLex (t.z, i) : Col ×ₗ Nat)).insertionSort (· ≤ ·)).Pairwise
      (· ≤ ·) := List.pairwise_insertionSort _ _
  have nodup' := (List.perm_insertionSort (· ≤ ·)
    (T.mapIdx fun i t => (toLex (t.z, i) : Col ×ₗ Nat))).nodup_iff.mpr nodup
  refine List.pairwise_map.mpr ((weak.and nodup').imp ?_)
  intro a b h
  have lt := lt_of_le_of_ne h.1 h.2
  exact Prod.Lex.lt_iff.mp lt

namespace FoqO

variable {spo : Bt} {T : List Xyz} (rep : spo.Represents T) {foq : Foq} {spo' : Bt} {w : Nat}
  (built : foq = Foq.build spo' (objectOrdinals T) w)
include rep built

/-- The distinct objects. -/
private def heads (T : List Xyz) : List (Col × Nat) := runHeads Prod.fst none (objectOrdinals T)

omit rep built in
theorem sorted_fst (T : List Xyz) : (objectOrdinals T).Pairwise fun a b => a.1 ≤ b.1 := by
  refine (objectOrdinals_strict T).imp ?_
  rintro a b (lt | ⟨eq, -⟩)
  · exact lt.le
  · exact eq.le

omit rep built in
theorem heads_strict (T : List Xyz) : (heads T).Pairwise fun a b => a.1 < b.1 :=
  runHeads_pairwise (sortedFrom_none (sorted_fst T))

omit rep in
theorem xo_eq : foq.xo = (heads T).map Prod.fst := by rw [built]; rfl

/-- The run of an object shows its triples. -/
theorem mem_run {j ord : Nat} {h : Col × Nat} (hj : (heads T)[j]? = some h) {t : TripleKey} :
    (t, ord) ∈ run spo foq h.1 (foq.objectRun j).1 (foq.objectRun j).2 ↔
      ∃ u, T[ord]? = some u ∧ u.z = h.1 ∧ t = Order.spo.toSpo u := by
  have sorted := sorted_fst T
  obtain ⟨start, stop⟩ := run_range sorted hj
  have bo : foq.bo = runMarks Prod.fst none (objectOrdinals T) := by rw [built]; rfl
  have po : foq.po = (objectOrdinals T).map Prod.snd := by rw [built]; rfl
  have range : foq.objectRun j = ((objectOrdinals T).countP (fun a => decide (a.1 < h.1)),
      (objectOrdinals T).countP (fun a => decide (a.1 ≤ h.1))) := by
    rw [Foq.objectRun, bo, po, start, List.length_map, stop]
    rfl
  have entry {i : Nat} {e : Col × Nat} (get : (objectOrdinals T)[i]? = some e) :
      foq.po.getD i 0 = e.2 ∧ ∃ u, T[e.2]? = some u ∧ u.z = e.1 ∧ spo.tripleAt e.2 = u := by
    obtain ⟨u, getU, z⟩ := mem_objectOrdinals.mp (List.mem_of_getElem? get)
    refine ⟨?_, u, getU, z, rep.tripleAt_eq getU⟩
    rw [po, List.getD_eq_getElem?_getD, List.getElem?_map, get]
    rfl
  simp only [run, List.mem_map, List.mem_range'_1, range, Prod.mk.injEq]
  constructor
  · rintro ⟨i, ⟨lower, upper⟩, rfl, rfl⟩
    have bound : (objectOrdinals T).countP (fun a => decide (a.1 ≤ h.1)) ≤
        (objectOrdinals T).length := List.countP_le_length
    have get := List.getElem?_eq_getElem (show i < (objectOrdinals T).length by omega)
    have ge := (countP_lt_le_index sorted get h.1).mp lower
    have le := (index_lt_countP_le sorted get h.1).mp (by omega)
    obtain ⟨ordinal, u, getU, z, at_⟩ := entry get
    refine ⟨u, by rw [ordinal]; exact getU, z.trans (le_antisymm le ge), ?_⟩
    rw [ordinal, at_]
    simp only [Order.toSpo, z.trans (le_antisymm le ge)]
  · rintro ⟨u, getU, z, rfl⟩
    have mem : (h.1, ord) ∈ objectOrdinals T := mem_objectOrdinals.mpr ⟨u, getU, z⟩
    obtain ⟨i, get⟩ := List.mem_iff_getElem?.mp mem
    have lower := (countP_lt_le_index sorted get h.1).mpr (le_refl _)
    have upper := (index_lt_countP_le sorted get h.1).mpr (le_refl _)
    obtain ⟨ordinal, u', getU', -, at_⟩ := entry get
    rw [getU] at getU'
    cases getU'
    refine ⟨i, ⟨lower, by omega⟩, ?_, ordinal⟩
    rw [ordinal, at_, ← z]
    rfl

/-- The rows of an object ascend. -/
theorem run_ascending {j : Nat} {h : Col × Nat} (hj : (heads T)[j]? = some h) :
    (run spo foq h.1 (foq.objectRun j).1 (foq.objectRun j).2).Pairwise fun a b =>
      Order.osp.toXyz a.1 < Order.osp.toXyz b.1 := by
  have po : foq.po = (objectOrdinals T).map Prod.snd := by rw [built]; rfl
  have row {i : Nat} (inside : i ∈ List.range' (foq.objectRun j).1
      ((foq.objectRun j).2 - (foq.objectRun j).1)) :
      ∃ u, T[foq.po.getD i 0]? = some u ∧ u.z = h.1 ∧ spo.tripleAt (foq.po.getD i 0) = u := by
    have mem : ((⟨(spo.tripleAt (foq.po.getD i 0)).x, (spo.tripleAt (foq.po.getD i 0)).y, h.1⟩ :
        TripleKey), foq.po.getD i 0) ∈ run spo foq h.1 (foq.objectRun j).1 (foq.objectRun j).2 :=
      List.mem_map.mpr ⟨i, inside, rfl⟩
    obtain ⟨u, get, z, -⟩ := (mem_run rep built hj).mp mem
    exact ⟨u, get, z, rep.tripleAt_eq get⟩
  refine List.pairwise_map.mpr (List.Pairwise.imp_of_mem ?_ List.pairwise_lt_range')
  intro i i' hi hi' lt
  obtain ⟨u, getU, zU, atU⟩ := row hi
  obtain ⟨v, getV, zV, atV⟩ := row hi'
  -- entries of one object ascend by ordinal, and ordinals by triple
  have later : foq.po.getD i 0 < foq.po.getD i' 0 := by
    have bound (n : Nat) (inside : n ∈ List.range' (foq.objectRun j).1
        ((foq.objectRun j).2 - (foq.objectRun j).1)) : n < (objectOrdinals T).length := by
      obtain ⟨start, stop⟩ := run_range (sorted_fst T) hj
      have bo : foq.bo = runMarks Prod.fst none (objectOrdinals T) := by rw [built]; rfl
      have upper : (foq.objectRun j).2 ≤ (objectOrdinals T).length := by
        rw [Foq.objectRun, bo, po, List.length_map]
        simp only [stop]
        exact List.countP_le_length
      rw [List.mem_range'_1] at inside
      omega
    have getI := List.getElem?_eq_getElem (bound i hi)
    have getI' := List.getElem?_eq_getElem (bound i' hi')
    have ordinal {n : Nat} {e : Col × Nat} (get : (objectOrdinals T)[n]? = some e) :
        foq.po.getD n 0 = e.2 := by
      rw [po, List.getD_eq_getElem?_getD, List.getElem?_map, get]
      rfl
    have object {n : Nat} {e : Col × Nat} (get : (objectOrdinals T)[n]? = some e) {u : Xyz}
        (getU : T[foq.po.getD n 0]? = some u) : e.1 = u.z := by
      obtain ⟨u', getU', z⟩ := mem_objectOrdinals.mp (List.mem_of_getElem? get)
      rw [ordinal get, getU'] at getU
      cases getU
      exact z.symm
    rcases List.pairwise_iff_getElem.mp (objectOrdinals_strict T) i i' (bound i hi) (bound i' hi') lt
      with less | ⟨-, less⟩
    · rw [object getI getU, object getI' getV, zU, zV] at less
      exact absurd less (lt_irrefl _)
    · rwa [ordinal getI, ordinal getI']
  obtain ⟨boundU, eqU⟩ := List.getElem?_eq_some_iff.mp getU
  obtain ⟨boundV, eqV⟩ := List.getElem?_eq_some_iff.mp getV
  have less := List.pairwise_iff_getElem.mp rep.sorted _ _ boundU boundV later
  rw [eqU, eqV, Xyz.lt_iff, zU, zV] at less
  refine Xyz.lt_iff.mpr (Or.inr ⟨rfl, ?_⟩)
  simp only [Order.toXyz, atU, atV]
  simpa using less

/-- What the accessor gives for a stretch of the object index. -/
theorem mem_objects {lo hi ord : Nat} {t : TripleKey} (bound : hi ≤ foq.nObjects) :
    (t, ord) ∈ objects spo foq lo hi ↔ ∃ j h u, lo ≤ j ∧ j < hi ∧ (heads T)[j]? = some h ∧
      T[ord]? = some u ∧ u.z = h.1 ∧ t = Order.spo.toSpo u := by
  have head (j : Nat) (hj : j < hi) : ∃ h, (heads T)[j]? = some h ∧
      foq.xo.getD j (Col.dict 0) = h.1 := by
    have len : j < (heads T).length := by
      rw [Foq.nObjects, xo_eq built, List.length_map] at bound
      omega
    refine ⟨_, List.getElem?_eq_getElem len, ?_⟩
    rw [xo_eq built, List.getD_eq_getElem?_getD, List.getElem?_map, List.getElem?_eq_getElem len]
    rfl
  simp only [objects, List.mem_flatMap, List.mem_range'_1]
  constructor
  · rintro ⟨j, ⟨lower, upper⟩, inside⟩
    obtain ⟨h, hj, eq⟩ := head j (by omega)
    rw [eq] at inside
    obtain ⟨u, get, z, rfl⟩ := (mem_run rep built hj).mp inside
    exact ⟨j, h, u, lower, by omega, hj, get, z, rfl⟩
  · rintro ⟨j, h, u, lower, upper, hj, get, z, rfl⟩
    obtain ⟨h', hj', eq⟩ := head j upper
    rw [hj] at hj'
    cases hj'
    refine ⟨j, ⟨lower, by omega⟩, ?_⟩
    rw [eq]
    exact (mem_run rep built hj).mpr ⟨u, get, z, rfl⟩

theorem rows (pat : Pattern) (named : Prop) :
    SourceRows .osp pat T named (fun u t => t = u)
      (((FoqO.start foq pat.o).rest spo foq).map fun e => (e.1, some e.2)) := by
  have strictXo : foq.xo.Pairwise (· < ·) := by
    rw [xo_eq built, List.pairwise_map]
    exact heads_strict T
  -- the object indexes walked
  obtain ⟨lo, hi, all, bound, inside⟩ : ∃ lo hi,
      (FoqO.start foq pat.o).rest spo foq = objects spo foq lo hi ∧ hi ≤ foq.nObjects ∧
        ∀ j h, (heads T)[j]? = some h → (∀ v ∈ pat.o, v = h.1) → lo ≤ j ∧ j < hi := by
    have walk (lo hi : Nat) : rest spo foq (if lo < hi then
        ⟨lo, hi, foq.xo.getD lo (Col.dict 0), (foq.objectRun lo).1, (foq.objectRun lo).2⟩
        else ⟨lo, hi, Col.dict 0, 0, 0⟩) = objects spo foq lo hi := by
      by_cases some_ : lo < hi
      · rw [if_pos some_, rest, objects_of_lt some_]
      · rw [if_neg some_, rest, run_of_le (le_refl _),
          objects_of_le (Nat.le_succ_of_le (Nat.not_lt.mp some_)), objects_of_le (Nat.not_lt.mp some_)]
        rfl
    have len : foq.xo.length = (heads T).length := by rw [xo_eq built, List.length_map]
    cases o : pat.o with
    | none =>
        refine ⟨0, foq.nObjects, ?_, le_refl _, fun j h hj _ => ⟨Nat.zero_le _, ?_⟩⟩
        · rw [← walk]
          rfl
        · rw [Foq.nObjects, len]
          exact (List.getElem?_eq_some_iff.mp hj).1
    | some v =>
        have find (i : Nat) : foq.locateObject v = some i ↔
            0 ≤ i ∧ i < foq.xo.length ∧ foq.xo[i]? = some v :=
          findIn_eq_some_iff (le_refl _) (Nat.zero_le _)
            (strictOn_of_pairwise strictXo 0 foq.xo.length)
        have place {j : Nat} {h : Col × Nat} (hj : (heads T)[j]? = some h) (eq : v = h.1) :
            foq.locateObject v = some j := by
          refine (find j).mpr ⟨Nat.zero_le _, ?_, ?_⟩
          · rw [len]
            exact (List.getElem?_eq_some_iff.mp hj).1
          · rw [xo_eq built, List.getElem?_map, hj, eq]
            rfl
        cases found : foq.locateObject v with
        | none =>
            refine ⟨0, 0, ?_, Nat.zero_le _, ?_⟩
            · rw [← walk]
              simp only [FoqO.start, found]
            · intro j h hj eq
              rw [place hj (eq v rfl)] at found
              cases found
        | some j =>
            obtain ⟨-, below, -⟩ := (find j).mp found
            refine ⟨j, j + 1, ?_, below, ?_⟩
            · rw [← walk]
              simp only [FoqO.start, found]
            · intro j' h hj eq
              rw [place hj (eq v rfl)] at found
              cases found
              exact ⟨le_refl _, Nat.lt_succ_self _⟩
  rw [all]
  constructor
  · rw [List.pairwise_map]
    have head (j : Nat) (hj : j ∈ List.range' lo (hi - lo)) : ∃ h, (heads T)[j]? = some h ∧
        foq.xo.getD j (Col.dict 0) = h.1 := by
      have len : j < (heads T).length := by
        rw [List.mem_range'_1] at hj
        rw [Foq.nObjects, xo_eq built, List.length_map] at bound
        omega
      refine ⟨_, List.getElem?_eq_getElem len, ?_⟩
      rw [xo_eq built, List.getD_eq_getElem?_getD, List.getElem?_map, List.getElem?_eq_getElem len]
      rfl
    refine List.pairwise_flatMap.mpr ⟨?_, ?_⟩
    · intro j hj
      obtain ⟨h, get, eq⟩ := head j hj
      rw [eq]
      exact run_ascending rep built get
    · refine List.Pairwise.imp_of_mem ?_ List.pairwise_lt_range'
      rintro j j' hj hj' lt ⟨a, i⟩ ha ⟨b, i'⟩ hb
      obtain ⟨h, get, eq⟩ := head j hj
      obtain ⟨h', get', eq'⟩ := head j' hj'
      rw [eq] at ha
      rw [eq'] at hb
      obtain ⟨u, -, z, rfl⟩ := (mem_run rep built get).mp ha
      obtain ⟨v, -, z', rfl⟩ := (mem_run rep built get').mp hb
      obtain ⟨boundH, rfl⟩ := List.getElem?_eq_some_iff.mp get
      obtain ⟨boundH', rfl⟩ := List.getElem?_eq_some_iff.mp get'
      have less := List.pairwise_iff_getElem.mp (heads_strict T) j j' boundH boundH' lt
      rw [← z, ← z'] at less
      exact Xyz.lt_iff.mpr (Or.inl less)
  · intro e he
    obtain ⟨⟨t, ord⟩, inside, rfl⟩ := List.mem_map.mp he
    obtain ⟨j, h, u, -, -, -, get, -, rfl⟩ := (mem_objects rep built bound).mp inside
    exact ⟨ord, Order.spo.toSpo u, by rw [get, Order.toXyz_toSpo], rfl, fun _ => rfl⟩
  · rintro ord u t get rfl ⟨-, -, matchO⟩
    have mem : (t.o, ord) ∈ objectOrdinals T := mem_objectOrdinals.mpr ⟨_, get, rfl⟩
    rcases exists_runHead Prod.fst none mem with none_ | ⟨h, hh, eq⟩
    · cases none_
    obtain ⟨j, hj⟩ := List.mem_iff_getElem?.mp hh
    have objectEq : h.1 = t.o := eq
    obtain ⟨lower, upper⟩ := inside j h hj (by rw [objectEq]; exact matchO)
    refine ⟨some ord, List.mem_map.mpr ⟨(t, ord), (mem_objects rep built bound).mpr
      ⟨j, h, _, lower, upper, hj, get, objectEq.symm, ?_⟩, rfl⟩⟩
    rw [Order.toSpo_toXyz]

end FoqO

end Graphy
