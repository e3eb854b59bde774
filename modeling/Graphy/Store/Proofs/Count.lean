import Graphy.Store.Count
import Graphy.Store.Proofs.SnapshotScan

/-!
# Counts in a segment

Every fast path of the base count gives the number of rows that a scan of a
materialized ordering serves; the fallback counts the rows of the scan in the
cheapest order, which may be the P-accessor's.
-/

namespace Graphy

open BitVector

/-! ## Draining -/

theorem SegmentScan.drain_of_serves {scan : SegmentScan} {rows : List QuadKey}
    (serves : scan.Serves rows) {batch : QuadBatch} (some_ : 0 < batch.capacity) :
    scan.drain batch = .ok rows := by
  induction h : rows.length using Nat.strong_induction_on generalizing scan rows batch with
  | _ n ih =>
      obtain ⟨scan', batch', rest, run, serves', parts, cap, -, stop⟩ := nextBatch_spec serves batch
      rw [drain]
      cases taken : batch'.rows with
      | nil =>
          rw [taken] at run parts
          have none_ : rows = [] := by
            rcases stop with gone | full
            · rw [← parts, gone]
              rfl
            · rw [QuadBatch.len, taken, cap] at full
              exact absurd full.symm (ne_of_gt some_)
          split
          · rename_i bad
            rw [run] at bad
            cases bad
          · rw [none_]
          · rename_i bad
            rw [run] at bad
            cases bad
      | cons q qs =>
          have less : rest.length < n := by
            rw [← h, ← parts, taken, List.length_append, List.length_cons]
            omega
          have later := @ih _ less _ _ serves' batch' (cap ▸ some_) rfl
          rw [taken] at run
          split
          · rename_i bad
            rw [run] at bad
            cases bad
          · rename_i bad
            rw [run] at bad
            cases bad
          · rename_i good
            rw [run] at good
            obtain ⟨-, same⟩ := Prod.mk.inj (Except.ok.inj good)
            obtain ⟨rfl, rfl⟩ := Prod.mk.inj same
            rw [later]
            exact congrArg Except.ok parts

/-! ## Choosing an order -/

theorem maxByKey_spec {α : Type} {key : α → Nat} {as : List α} {a : α}
    (h : maxByKey key as = some a) : a ∈ as ∧ ∀ b ∈ as, key b ≤ key a := by
  cases as with
  | nil => cases h
  | cons first as =>
      obtain rfl := Option.some.inj h
      clear h
      induction as generalizing first with
      | nil => simp
      | cons b as ih =>
          rw [List.foldl_cons]
          obtain ⟨mem, top⟩ := ih (if key first ≤ key b then b else first)
          generalize as.foldl (fun best b => if key best ≤ key b then b else best)
            (if key first ≤ key b then b else first) = best at mem top
          have head := top _ List.mem_cons_self
          refine ⟨?_, ?_⟩
          · rcases List.mem_cons.mp mem with rfl | later
            · split
              · exact List.mem_cons_of_mem _ List.mem_cons_self
              · exact List.mem_cons_self
            · exact List.mem_cons_of_mem _ (List.mem_cons_of_mem _ later)
          · intro c hc
            rcases List.mem_cons.mp hc with rfl | hc
            · split at head <;> omega
            · rcases List.mem_cons.mp hc with rfl | hc
              · split at head <;> omega
              · exact top c (List.mem_cons_of_mem _ hc)

theorem exists_maxByKey {α : Type} (key : α → Nat) {as : List α} (h : as ≠ []) :
    ∃ a, maxByKey key as = some a := by
  cases as with
  | nil => exact absurd rfl h
  | cons a as => exact ⟨_, rfl⟩

theorem Pattern.prefixLen_pos {pat : Pattern} {order : Order} :
    0 < pat.prefixLen order ↔ (order.toXyz ⟨flag pat.s, flag pat.p, flag pat.o⟩).x = Col.dict 1 := by
  simp only [prefixLen, List.takeWhile_cons, decide_eq_true_eq]
  split <;> simp [*]

namespace Segment

/-- Only the predicate is bound, and no materialized ordering starts with it. -/
def ByPredicate (seg : Segment) (pat : Pattern) : Prop :=
  pat.p.isSome = true ∧ pat.s = none ∧ pat.o = none ∧ seg.orderingBt .pos = none

/-- What the accessors may replace the best materialized ordering by. -/
theorem bestScanOrder_cases {seg : Segment} {pat : Pattern} {e : Order × Bt}
    (best : seg.bestOrder pat = some e) :
    seg.bestScanOrder pat = some e.1 ∨ (∃ foq, seg.foq = some foq) ∧
      (seg.bestScanOrder pat = some .osp ∧ pat.o.isSome = true ∧ pat.prefixLen e.1 = 0 ∧
          seg.orderingBt .osp = none ∨
        seg.bestScanOrder pat = some .pso ∧ pat.p.isSome = true ∧ pat.prefixLen e.1 = 0 ∧
          seg.orderingBt .pso = none ∧ (pat.o.isSome = true → seg.orderingBt .osp ≠ none)) := by
  rw [bestScanOrder, best, Option.map_some]
  cases layer : seg.foq with
  | none => exact Or.inl rfl
  | some foq =>
      simp only [List.foldl_cons, List.foldl_nil]
      by_cases object : pat.o.isSome = true ∧ pat.prefixLen e.1 * 4 < 3 ∧ seg.orderingBt .osp = none
      · rw [if_pos object, if_neg (by omega)]
        exact Or.inr ⟨⟨foq, rfl⟩, Or.inl ⟨rfl, object.1, by omega, object.2.2⟩⟩
      · rw [if_neg object]
        by_cases predicate : pat.p.isSome = true ∧ pat.prefixLen e.1 * 4 < 2 ∧
            seg.orderingBt .pso = none
        · rw [if_pos predicate]
          exact Or.inr ⟨⟨foq, rfl⟩, Or.inr ⟨rfl, predicate.1, by omega, predicate.2.2,
            fun bound none_ => object ⟨bound, by omega, none_⟩⟩⟩
        · rw [if_neg predicate]
          exact Or.inl rfl

theorem bestScanOrder_offered {seg : Segment} {pat : Pattern} {order : Order}
    (h : seg.bestScanOrder pat = some order) : order ∈ seg.scanOrders := by
  obtain ⟨e, best, -⟩ := Option.map_eq_some_iff.mp h
  have mem := (maxByKey_spec best).1
  rw [mem_scanOrders]
  rcases bestScanOrder_cases best with same | ⟨⟨foq, layer⟩, ⟨same, -⟩ | ⟨same, -⟩⟩
  · rw [h] at same
    exact Or.inl (List.mem_map.mpr ⟨e, mem, (Option.some.inj same).symm⟩)
  · rw [h] at same
    exact Or.inr ⟨foq, layer, Or.inr (Option.some.inj same)⟩
  · rw [h] at same
    exact Or.inr ⟨foq, layer, Or.inl (Option.some.inj same)⟩

/-- When the accessor's PSO is the cheapest order. -/
theorem bestScanOrder_eq_pso {seg : Segment} {pat : Pattern} {e : Order × Bt}
    (best : seg.bestOrder pat = some e) (spo : Order.spo ∈ seg.orderings.map Prod.fst) {foq : Foq}
    (layer : seg.foq = some foq) (none_ : seg.orderingBt .pso = none) :
    seg.bestScanOrder pat = some .pso ↔ seg.ByPredicate pat := by
  obtain ⟨mem, top⟩ := maxByKey_spec best
  have lead {order : Order} (some_ : order ∈ seg.orderings.map Prod.fst)
      (zero : pat.prefixLen e.1 = 0) :
      (order.toXyz ⟨flag pat.s, flag pat.p, flag pat.o⟩).x ≠ Col.dict 1 := by
    obtain ⟨e', mem', rfl⟩ := List.mem_map.mp some_
    have least := top e' mem'
    exact fun first => absurd (Pattern.prefixLen_pos.mpr first) (by omega)
  have other : e.1 ≠ .pso := fun eq =>
    orderingBt_eq_none.mp none_ (List.mem_map.mpr ⟨e, mem, eq⟩)
  constructor
  · intro pso
    rcases bestScanOrder_cases best with same | ⟨-, ⟨same, -⟩ | ⟨-, p, zero, -, osp⟩⟩
    · rw [pso] at same
      exact absurd (Option.some.inj same).symm other
    · rw [pso] at same
      cases same
    · refine ⟨p, ?_, ?_, orderingBt_eq_none.mpr fun pos => ?_⟩
      · have free := lead spo zero
        rw [Order.toXyz, ne_eq, flag_eq_one] at free
        simpa using free
      · by_contra bound
        have some_ : pat.o.isSome = true := by
          rw [Option.isSome_iff_ne_none]
          exact bound
        have present : Order.osp ∈ seg.orderings.map Prod.fst := by
          by_contra absent
          exact osp some_ (orderingBt_eq_none.mpr absent)
        exact lead present zero (flag_eq_one.mpr some_)
      · exact lead pos zero (flag_eq_one.mpr p)
  · rintro ⟨p, s, o, pos⟩
    have zero : pat.prefixLen e.1 = 0 := by
      by_contra some_
      have first := Pattern.prefixLen_pos.mp (Nat.pos_of_ne_zero some_)
      have here : e.1 ∈ seg.orderings.map Prod.fst := List.mem_map.mpr ⟨e, mem, rfl⟩
      cases order : e.1 with
      | pos => exact orderingBt_eq_none.mp pos (order ▸ here)
      | pso => exact other order
      | spo | sop | osp | ops => simp [order, Order.toXyz, s, o, flag] at first
    simp only [bestScanOrder, best, Option.map_some, layer, List.foldl_cons, List.foldl_nil, o, p,
      zero, none_, Option.isSome_none, Bool.false_eq_true, false_and, if_false, Nat.zero_mul,
      Nat.zero_lt_succ, and_self, if_true]

end Segment

/-! ## The range of a prefix -/

theorem Pattern.bound_eq (pat : Pattern) (order : Order) :
    let bound := order.toXyz ⟨flag pat.s, flag pat.p, flag pat.o⟩
    pat.bound = [bound.x, bound.y, bound.z].countP fun b => decide (b = Col.dict 1) := by
  cases order <;>
    simp only [bound, Order.toXyz, List.countP_cons, List.countP_nil, flag_eq_one,
      Bool.decide_eq_true] <;> omega

theorem countRange_eq (bt : Bt) (pat : Pattern) (order : Order) :
    countRange bt pat order = prefixRange bt pat order := by
  obtain ⟨cx, cy, cz, want, flags, -⟩ := pat.components order
  have length : pat.prefixLen order =
      ([flag cx, flag cy, flag cz].takeWhile fun b => decide (b = Col.dict 1)).length := by
    rw [Pattern.prefixLen, flags]
  simp only [countRange, length, prefixRange, want, flags, List.takeWhile_cons, ne_eq, flag_eq_one,
    List.takeWhile_nil]
  cases cx with
  | none => rfl
  | some x =>
      cases cy with
      | none => rfl
      | some y =>
          cases cz with
          | none =>
              simp only [Option.getD_some, Option.isSome_some, if_true, not_true_eq_false, if_false]
              cases bt.xGroup x <;> rfl
          | some z =>
              simp only [Option.getD_some, Option.isSome_some, if_true, not_true_eq_false, if_false]
              cases bt.xGroup x with
              | none => rfl
              | some g =>
                  simp only [Option.bind_some]
                  cases bt.findY g y <;> rfl

/-- Where the bound components are a prefix, the range holds matches only. -/
theorem Bt.Represents.prefixRange_sound {bt : Bt} {T : List Xyz} (rep : bt.Represents T)
    {pat : Pattern} {order : Order} (whole : ¬ pat.prefixLen order < pat.bound) :
    (prefixRange bt pat order).1 ≤ (prefixRange bt pat order).2 ∧ ∀ i t, T[i]? = some t →
      (prefixRange bt pat order).1 ≤ i → i < (prefixRange bt pat order).2 →
        pat.MatchesTriple (order.toSpo t) := by
  obtain ⟨cx, cy, cz, want, flags, matches_⟩ := pat.components order
  have one (c : Option Col) : decide (flag c = Col.dict 1) = c.isSome := by
    rw [Bool.eq_iff_iff, decide_eq_true_iff, flag_eq_one]
  have bound := pat.bound_eq order
  simp only [flags, List.countP_cons, List.countP_nil, one] at bound
  rw [bound, Pattern.prefixLen, flags] at whole
  simp only [List.takeWhile_cons, one] at whole
  simp only [prefixRange, want, flags, ne_eq, flag_eq_one]
  cases cx with
  | none =>
      cases cy with
      | some y => cases cz <;> simp at whole
      | none =>
          cases cz with
          | some z => simp at whole
          | none =>
              refine ⟨Nat.zero_le _, fun i t ht _ _ => (matches_ t).mpr ?_⟩
              simp
  | some x =>
      simp only [Option.isSome_some, not_true_eq_false, if_false, Option.getD_some]
      cases group : bt.xGroup x with
      | none => exact ⟨le_refl _, fun i t ht _ upper => absurd upper (Nat.not_lt_zero _)⟩
      | some g =>
          obtain ⟨h, getH, rfl⟩ := rep.xGroup_eq_some_iff.mp group
          cases cy with
          | none =>
              cases cz with
              | some z => simp at whole
              | none =>
                  simp only [Option.isSome_none, Bool.false_eq_true, if_false,
                    rep.zRangeOfGroup_of_group getH]
                  refine ⟨List.countP_mono_left fun t _ lt => ?_, fun i t ht lower upper => ?_⟩
                  · simp only [decide_eq_true_eq] at lt ⊢
                    exact lt.le
                  · have ge := (countP_lt_le_index (sorted_x rep.sorted) ht h.x).mp lower
                    have le := (index_lt_countP_le (sorted_x rep.sorted) ht h.x).mp upper
                    exact (matches_ t).mpr ⟨by simpa using le_antisymm ge le, by simp⟩
          | some y =>
              simp only [Option.isSome_some, if_true, Option.getD_some]
              cases pair : bt.findY g y with
              | none => exact ⟨le_refl _, fun i t ht _ upper => absurd upper (Nat.not_lt_zero _)⟩
              | some yi =>
                  obtain ⟨r, getR, eqX, rfl⟩ := (rep.findY_eq_some_iff getH).mp pair
                  cases cz with
                  | none =>
                      simp only [Option.isSome_none, Bool.false_eq_true, if_false,
                        rep.zRange_of_pair getR]
                      have sortedXy := (sortedFrom_xy rep.sorted).1
                      refine ⟨List.countP_mono_left fun t _ lt => ?_, fun i t ht lower upper => ?_⟩
                      · simp only [decide_eq_true_eq] at lt ⊢
                        exact lt.le
                      · have ge := (countP_lt_le_index sortedXy ht r.xy).mp lower
                        have le := (index_lt_countP_le sortedXy ht r.xy).mp upper
                        obtain ⟨sameX, sameY⟩ := Xyz.xy_eq_iff.mp (le_antisymm ge le)
                        exact (matches_ t).mpr ⟨by simpa [← eqX] using sameX, by simpa using sameY,
                          by simp⟩
                  | some z =>
                      simp only [Option.isSome_some, if_true, Option.getD_some]
                      cases ord : bt.findZ yi z with
                      | none =>
                          exact ⟨le_refl _, fun i t ht _ upper => absurd upper (Nat.not_lt_zero _)⟩
                      | some j =>
                          refine ⟨Nat.le_succ j, fun i t ht lower upper => ?_⟩
                          obtain rfl : i = j := Nat.le_antisymm (Nat.le_of_lt_succ upper) lower
                          have found := (rep.findZ_eq_some_iff getR).mp ord
                          rw [ht] at found
                          obtain rfl := Option.some.inj found
                          exact (matches_ _).mpr ⟨by simp [eqX], by simp, by simp⟩

/-! ## Sums over a stretch -/

theorem sum_toNat {α : Type} (p : α → Bool) (l : List α) :
    (l.map fun a => (p a).toNat).sum = l.countP p := by
  induction l with
  | nil => rfl
  | cons a l ih =>
      rw [List.map_cons, List.sum_cons, ih, List.countP_cons, Nat.add_comm]
      cases p a <;> rfl

theorem foldlM_add {α : Type} {step : Nat → α → Option Nat} {w : α → Nat} {l : List α}
    (h : ∀ a ∈ l, ∀ n, step n a = some (n + w a)) (n : Nat) :
    l.foldlM step n = some (n + (l.map w).sum) := by
  induction l generalizing n with
  | nil => rfl
  | cons a l ih =>
      rw [List.foldlM_cons, h a List.mem_cons_self, Option.bind_eq_bind, Option.bind_some,
        ih (fun b mem => h b (List.mem_cons_of_mem _ mem)), List.map_cons, List.sum_cons,
        Nat.add_assoc]

/-- Steps of a monotone sequence add up to the difference of its ends. -/
theorem sum_steps {f : Nat → Nat} (mono : Monotone f) (lo n : Nat) :
    ((List.range' lo n).map fun i => f (i + 1) - f i).sum = f (lo + n) - f lo := by
  induction n generalizing lo with
  | zero => simp
  | succ n ih =>
      rw [List.range'_succ, List.map_cons, List.sum_cons, ih, Nat.add_right_comm lo 1 n,
        Nat.add_assoc lo n 1]
      have first := mono (Nat.le_succ lo)
      have rest : f (lo + 1) ≤ f (lo + (n + 1)) := mono (by omega)
      simp only [Nat.succ_eq_add_one] at first
      omega

namespace Graphs

theorem quadRangeStart_mono (graphs : Graphs) : Monotone graphs.quadRangeStart := by
  intro a b le
  rw [quadRangeStart_eq, quadRangeStart_eq]
  cases first : select1 graphs.tgStarts a with
  | some i => exact (select1_getD_range first le).1
  | none =>
      have beyond := select1_eq_none_iff.mpr (le_trans (select1_eq_none_iff.mp first) le)
      rw [beyond]

theorem quadCount_eq (graphs : Graphs) {lo hi : Nat} (h : lo ≤ hi) :
    graphs.quadCount lo hi = some (graphs.quadRangeStart hi - graphs.quadRangeStart lo) :=
  checkedSub_eq (graphs.quadRangeStart_mono h)

theorem member_eq (graphs : Graphs) (g : Col) (ord : Nat) :
    graphs.member g ord = (graphs.bitmap g).any fun bm => bm.contains ord := by
  rw [member, bitmap]
  split <;> simp [*]

/-- Ranks count the elements of a range. -/
theorem treemapRangeCardinality_eq {bm : List Nat} (nodup : bm.Nodup) {lo hi : Nat} (h : lo ≤ hi) :
    treemapRangeCardinality bm lo hi =
      some ((List.range' lo (hi - lo)).countP fun i => bm.contains i) := by
  have inside : ((List.range' lo (hi - lo)).filter fun i => bm.contains i).Perm
      (bm.filter fun i => decide (lo ≤ i ∧ i < hi)) := by
    refine (List.perm_ext_iff_of_nodup ((List.nodup_range' ..).filter _) (nodup.filter _)).mpr fun i => ?_
    simp only [List.mem_filter, List.mem_range'_1, List.contains_eq_mem, decide_eq_true_eq]
    constructor
    · rintro ⟨⟨lower, upper⟩, mem⟩
      exact ⟨mem, lower, by omega⟩
    · rintro ⟨mem, lower, upper⟩
      exact ⟨⟨lower, by omega⟩, mem⟩
  have below (n : Nat) : (if n = 0 then 0 else rank bm (n - 1)) =
      bm.countP fun i => decide (i < n) := by
    split
    · rename_i zero
      subst zero
      simp
    · rw [rank]
      refine List.countP_congr fun i _ => ?_
      simp only [decide_eq_true_eq]
      omega
  have parts (l : List Nat) : l.countP (fun i => decide (i < hi)) =
      l.countP (fun i => decide (i < lo)) + l.countP fun i => decide (lo ≤ i ∧ i < hi) := by
    induction l with
    | nil => rfl
    | cons a l ih =>
        simp only [List.countP_cons, ih, decide_eq_true_eq]
        split <;> split <;> split <;> omega
  rw [treemapRangeCardinality, List.countP_eq_length_filter, inside.length_eq,
    ← List.countP_eq_length_filter]
  split
  · rename_i empty
    have none_ : (bm.countP fun i => decide (lo ≤ i ∧ i < hi)) = 0 := by
      rw [List.countP_eq_zero]
      intro i _
      simp only [decide_eq_true_eq]
      omega
    rw [none_]
  · rename_i some_
    have upper := below hi
    rw [if_neg (by omega)] at upper
    rw [upper, below lo, checkedSub_eq (by rw [parts]; omega), parts]
    congr 1
    omega

end Graphs

theorem map_fst_numbered (last : Option TripleKey) (n : Nat) (quads : List QuadKey) :
    (numbered last n quads).map Prod.fst = quads := by
  induction quads generalizing last n with
  | nil => rfl
  | cons q qs ih =>
      rw [numbered, List.map_cons]
      exact congrArg (q :: ·) (ih _ _)

/-- A graph's bitmap holds an ordinal once. -/
theorem nodup_bitmap {quads : List QuadKey} (sorted : quads.Pairwise (· < ·)) {g : Col}
    {bm : List Nat} (h : (buildGraphs quads).bitmap g = some bm) : bm.Nodup := by
  rw [Graphs.bitmap] at h
  split at h
  · obtain ⟨n, -, rfl⟩ : ∃ n, n ∈ List.range (maxPayload (quads.map QuadKey.g) + 1) ∧
        ((numbered none 0 quads).filter fun e => decide (e.1.g = Col.dict n)).map Prod.snd = bm :=
      List.mem_map.mp (List.mem_of_getElem? h)
    have ascending : (numbered none 0 quads).Pairwise fun a b => a.1 < b.1 := by
      rw [← map_fst_numbered none 0 quads] at sorted
      exact List.pairwise_map.mp sorted
    refine List.pairwise_map.mpr (List.Pairwise.imp_of_mem ?_ (ascending.filter _))
    intro a b ha hb lt same
    obtain ⟨memA, graphA⟩ := List.mem_filter.mp ha
    obtain ⟨memB, graphB⟩ := List.mem_filter.mp hb
    rw [decide_eq_true_eq] at graphA graphB
    -- one ordinal is one triple, and the graph is the same
    have getA := numbered_get memA
    rw [same, numbered_get memB] at getA
    have triple := Order.spo_toXyz_injective (Option.some.inj getA)
    simp only [QuadKey.triple, TripleKey.mk.injEq] at triple
    have less := QuadKey.lt_iff.mp lt
    simp [triple, graphA, graphB] at less
  · cases h

/-! ## The rows of a stretch -/

namespace Segment

variable {seg : Segment} {pat : Pattern} {e : TripleKey × Option Nat}

theorem rowsOf_plain (layer : seg.graphs = none) (matches_ : pat.MatchesTriple e.1) :
    (seg.rowsOf pat e).length = 1 := by
  rw [rowsOf, Pattern.matchesTriple_iff.mp matches_, layer]
  rfl

theorem rowsOf_graph {graphs : Graphs} (layer : seg.graphs = some graphs) {g : Col}
    (bound : pat.g = some g) (matches_ : pat.MatchesTriple e.1) :
    (seg.rowsOf pat e).length = (graphs.member g (e.2.getD 0)).toNat := by
  rw [rowsOf, Pattern.matchesTriple_iff.mp matches_, layer, bound]
  simp only [Bool.false_eq_true, if_false]
  cases graphs.member g (e.2.getD 0) <;> rfl

theorem rowsOf_any {graphs : Graphs} (layer : seg.graphs = some graphs) (free : pat.g = none)
    (matches_ : pat.MatchesTriple e.1) : (seg.rowsOf pat e).length =
      graphs.quadRangeStart (e.2.getD 0 + 1) - graphs.quadRangeStart (e.2.getD 0) := by
  rw [rowsOf, Pattern.matchesTriple_iff.mp matches_, layer, free]
  simp only [Bool.false_eq_true, if_false, Graphs.fan, List.length_map, List.length_range']
  rfl

end Segment

section Base

variable [InlineCodec] {seg : Segment} {quads : List QuadKey} (holds : seg.Holds quads)
include holds

/-- The quads that match, as the rows of a stretch of a materialized ordering. -/
theorem Segment.Holds.stretch_spec {order : Order} {bt : Bt} (mem : (order, bt) ∈ seg.orderings)
    {pat : Pattern} (reach : seg.graphs = none → ∀ v ∈ pat.g, v = Col.dict 0) :
    (((List.range' (prefixRange bt pat order).1 ((prefixRange bt pat order).2 -
        (prefixRange bt pat order).1)).map (bt.row order)).flatMap (seg.rowsOf pat)).Nodup ∧
      ∀ q, q ∈ ((List.range' (prefixRange bt pat order).1 ((prefixRange bt pat order).2 -
          (prefixRange bt pat order).1)).map (bt.row order)).flatMap (seg.rowsOf pat) ↔
        pat.Matches q ∧ q ∈ quads := by
  have present : seg.orderingBt order ≠ none := fun none_ =>
    Segment.orderingBt_eq_none.mp none_ (List.mem_map.mpr ⟨_, mem, rfl⟩)
  have shown : seg.Shown order = fun u t => t = u := by
    funext u t
    rw [Segment.Shown, if_neg fun virtual => present virtual.1]
  have rows := (holds.orderings order bt mem).rangeRows holds.sorted pat
  rw [← shown] at rows
  obtain ⟨ascending, members⟩ := holds.rows_spec reach rows
  refine ⟨List.Pairwise.imp (fun lt eq => ?_) ascending, fun q => (members q).trans ?_⟩
  · rw [eq] at lt
    exact lt_irrefl _ lt
  · rw [shown]
    constructor
    · rintro ⟨matches_, b, memB, graph, same⟩
      have whole : b = q := by
        cases b
        cases q
        simp_all [QuadKey.triple]
      exact ⟨matches_, whole ▸ memB⟩
    · rintro ⟨matches_, mem⟩
      exact ⟨matches_, q, mem, rfl, rfl⟩

/-- The SPO ordinal a row of a secondary ordering carries. -/
theorem Segment.Holds.spoAt_spec {order : Order} {bt : Bt} (mem : (order, bt) ∈ seg.orderings)
    (secondary : order ≠ .spo) (named : hasNamedGraphs quads = true) {i : Nat} {t : Xyz}
    (get : (orderTriples order (triplesOf quads))[i]? = some t) :
    ∃ ord, bt.spoAt i = some ord ∧ (bt.row order i).2 = some ord := by
  obtain ⟨pz, eq, ordinals⟩ := (holds.orderings order bt mem).payload secondary named
  obtain ⟨ord, getOrd, -⟩ := ordinals i t get
  have probe : bt.spoAt i = some ord := by
    rw [Bt.spoAt, eq, Option.map_some, List.getD_eq_getElem?_getD, getOrd]
    rfl
  exact ⟨ord, probe, by rw [Bt.row, if_neg secondary, probe]⟩

/-- Where the bound components are a prefix, the count needs no scan and is exact. -/
theorem Segment.Holds.prefixCount_spec {order : Order} {bt : Bt} (mem : (order, bt) ∈ seg.orderings)
    {pat : Pattern} (whole : ¬ pat.prefixLen order < pat.bound)
    (scanned : Option (Except StoreError Nat)) :
    ∃ rows : List QuadKey, rows.Nodup ∧ (∀ q, q ∈ rows ↔ pat.Matches q ∧ q ∈ quads) ∧
      seg.prefixCount pat order bt scanned = some (.ok rows.length) := by
  have rep := (holds.orderings order bt mem).represents
  obtain ⟨bound, -⟩ := rep.prefixRange_spec pat order
  obtain ⟨ordered, inside⟩ := rep.prefixRange_sound whole
  have stretch (reach : seg.graphs = none → ∀ v ∈ pat.g, v = Col.dict 0) :=
    holds.stretch_spec mem reach
  simp only [Segment.prefixCount, countRange_eq]
  generalize (prefixRange bt pat order).1 = lo at stretch ordered inside bound
  generalize (prefixRange bt pat order).2 = hi at stretch ordered inside bound
  -- every row of the stretch is a match
  have row (i : Nat) (hi' : i ∈ List.range' lo (hi - lo)) :
      (∃ t, (orderTriples order (triplesOf quads))[i]? = some t) ∧
        pat.MatchesTriple (bt.row order i).1 := by
    rw [List.mem_range'_1] at hi'
    have get := List.getElem?_eq_getElem
      (show i < (orderTriples order (triplesOf quads)).length by omega)
    refine ⟨⟨_, get⟩, ?_⟩
    rw [Bt.row, rep.tripleAt_eq get]
    exact inside i _ get hi'.1 (by omega)
  have total : (((List.range' lo (hi - lo)).map (bt.row order)).flatMap (seg.rowsOf pat)).length =
      ((List.range' lo (hi - lo)).map fun i => (seg.rowsOf pat (bt.row order i)).length).sum := by
    rw [List.length_flatMap, List.map_map]
    rfl
  cases layer : seg.graphs with
  | none =>
      have plain (fits : ∀ v ∈ pat.g, v = Col.dict 0) : ∃ rows : List QuadKey, rows.Nodup ∧
          (∀ q, q ∈ rows ↔ pat.Matches q ∧ q ∈ quads) ∧ checkedSub hi lo = some rows.length := by
        obtain ⟨nodup, members⟩ := stretch fun _ => fits
        refine ⟨_, nodup, members, ?_⟩
        have ones : ((List.range' lo (hi - lo)).map fun i =>
            (seg.rowsOf pat (bt.row order i)).length) = (List.range' lo (hi - lo)).map fun _ => 1 :=
          List.map_congr_left fun i hi => Segment.rowsOf_plain layer (row i hi).2
        rw [total, ones, checkedSub_eq ordered]
        simp
      cases graph : pat.g with
      | none =>
          obtain ⟨rows, nodup, members, value⟩ := plain fun v h => by rw [graph] at h; cases h
          exact ⟨rows, nodup, members, by rw [value]; rfl⟩
      | some g =>
          by_cases zero : g = Col.dict 0
          · obtain ⟨rows, nodup, members, value⟩ := plain fun v h => by
              rw [graph] at h
              exact (Option.some.inj h).symm.trans zero
            exact ⟨rows, nodup, members, by simp only [if_pos zero, value]; rfl⟩
          · refine ⟨[], List.nodup_nil, fun q => ⟨fun h => absurd h List.not_mem_nil, ?_⟩,
              by simp only [if_neg zero]; rfl⟩
            rintro ⟨⟨-, graphs_⟩, memQ⟩
            have plain : hasNamedGraphs quads = false := by
              rw [holds.graphs] at layer
              by_contra named
              simp [named] at layer
            exact absurd ((graphs_ g graph).trans (holds.default_graph plain memQ)) zero
  | some graphs =>
      have named : hasNamedGraphs quads = true := by
        by_contra h
        rw [holds.graphs, if_neg h] at layer
        cases layer
      have built : graphs = buildGraphs quads := by
        rw [holds.graphs, if_pos named] at layer
        exact (Option.some.inj layer).symm
      obtain ⟨nodup, members⟩ := stretch fun none_ => by rw [layer] at none_; cases none_
      refine ⟨_, nodup, members, ?_⟩
      rw [total]
      by_cases primary : order = .spo
      · have own (i : Nat) : ((bt.row order i).2.getD 0) = i := by
          rw [Bt.row, if_pos primary]
          rfl
        cases graph : pat.g with
        | none =>
            have steps := List.map_congr_left (l := List.range' lo (hi - lo)) fun i hi =>
              (Segment.rowsOf_any layer graph (row i hi).2).trans (by rw [own])
            rw [steps, sum_steps graphs.quadRangeStart_mono, Nat.add_sub_cancel' ordered]
            simp only [if_pos primary, graphs.quadCount_eq ordered]
            rfl
        | some g =>
            have steps := List.map_congr_left (l := List.range' lo (hi - lo)) fun i hi =>
              (Segment.rowsOf_graph layer graph (row i hi).2).trans (by rw [own])
            rw [steps, sum_toNat, funext (graphs.member_eq g)]
            simp only [if_pos primary]
            cases held : graphs.bitmap g with
            | none => simp
            | some bm =>
                have once := nodup_bitmap holds.sorted (built ▸ held)
                simp only [Graphs.treemapRangeCardinality_eq once ordered]
                rfl
      · have payload : bt.pz.isNone = false := by
          obtain ⟨pz, eq, -⟩ := (holds.orderings order bt mem).payload primary named
          rw [eq]
          rfl
        simp only [if_neg primary, payload, Bool.false_eq_true, if_false]
        have probed : probeCount graphs bt pat.g lo hi = some (0 +
            ((List.range' lo (hi - lo)).map fun i =>
              (seg.rowsOf pat (bt.row order i)).length).sum) := by
          refine foldlM_add (fun i hi n => ?_) 0
          obtain ⟨⟨t, get⟩, matches_⟩ := row i hi
          obtain ⟨ord, probe, hint⟩ := holds.spoAt_spec mem primary named get
          rw [probe]
          cases graph : pat.g with
          | none =>
              rw [Segment.rowsOf_any layer graph matches_, hint]
              simp only [Option.bind_eq_bind, Option.bind_some, Option.getD_some,
                graphs.quadCount_eq (Nat.le_succ ord)]
              rfl
          | some g =>
              rw [Segment.rowsOf_graph layer graph matches_, hint, graphs.member_eq]
              rfl
        rw [Nat.zero_add] at probed
        rw [probed]
        rfl

/-- The run of an object is its triples. -/
theorem Segment.Holds.objectRun_spec {foq : Foq} (layer : seg.foq = some foq)
    (plain : seg.graphs = none) (o : Col) : ∃ rows : List QuadKey, rows.Nodup ∧
      (∀ q, q ∈ rows ↔ Pattern.Matches ⟨none, none, some o, none⟩ q ∧ q ∈ quads) ∧
      ((foq.locateObject o = none ∧ rows.length = 0) ∨ ∃ j, foq.locateObject o = some j ∧
        checkedSub (foq.objectRun j).2 (foq.objectRun j).1 = some rows.length) := by
  obtain ⟨spo, -, rep⟩ := holds.exists_spo
  obtain ⟨spo', -, built⟩ := holds.foq foq layer
  have sound := FoqO.rows rep built ⟨none, none, some o, none⟩ (hasNamedGraphs quads = true)
  have shown : seg.Shown .osp = fun u t => t = u := by
    funext u t
    rw [Segment.Shown, if_neg (by simp)]
  rw [← shown] at sound
  obtain ⟨ascending, members⟩ := holds.rows_spec (fun _ v h => by cases h) sound
  refine ⟨_, ascending.imp fun lt eq => absurd (eq ▸ lt) (lt_irrefl _), fun q => ?_, ?_⟩
  · rw [members, shown]
    refine and_congr_right fun _ => ⟨?_, fun mem => ⟨q, mem, rfl, rfl⟩⟩
    rintro ⟨b, mem, graph, same⟩
    have whole : b = q := by
      cases b
      cases q
      simp_all [QuadKey.triple]
    exact whole ▸ mem
  · cases found : foq.locateObject o with
    | none =>
        refine Or.inl ⟨rfl, ?_⟩
        simp only [FoqO.start, found]
        rfl
    | some j =>
        refine Or.inr ⟨j, rfl, ?_⟩
        have object : foq.xo.getD j (Col.dict 0) = o := by
          rw [List.getD_eq_getElem?_getD, (findIn_some found).2, Option.getD_some]
        have rest : (FoqO.start foq (some o)).rest spo foq =
            FoqO.run spo foq o (foq.objectRun j).1 (foq.objectRun j).2 := by
          simp only [FoqO.start, found, if_pos (Nat.lt_succ_self j), FoqO.rest, object,
            FoqO.objects_of_le (le_refl _), List.append_nil]
        have ordered : (foq.objectRun j).1 ≤ (foq.objectRun j).2 := by
          have length : foq.bo.length = foq.po.length := by
            rw [built, Foq.build, List.length_map]
            exact length_runMarks none _
          rw [Foq.objectRun, ← length]
          cases start : select1 foq.bo j with
          | none => exact Nat.zero_le _
          | some i => exact (select1_getD_range start (Nat.le_succ j)).1
        have ones : ∀ e ∈ FoqO.run spo foq o (foq.objectRun j).1 (foq.objectRun j).2,
            (seg.rowsOf ⟨none, none, some o, none⟩ (e.1, some e.2)).length = 1 := by
          intro e mem
          refine Segment.rowsOf_plain plain ?_
          obtain ⟨i, -, rfl⟩ := List.mem_map.mp mem
          exact Pattern.matchesTriple_iff.mpr (by simp)
        have total : ((FoqO.run spo foq o (foq.objectRun j).1 (foq.objectRun j).2).map fun e =>
            (seg.rowsOf ⟨none, none, some o, none⟩ (e.1, some e.2)).length).sum =
              (foq.objectRun j).2 - (foq.objectRun j).1 := by
          rw [List.map_congr_left ones, List.map_const', FoqO.run, List.length_map,
            List.length_range']
          simp
        simp only [rest]
        rw [checkedSub_eq ordered, ← total, List.length_flatMap, List.map_map]
        rfl

/-- There is a best ordering, and the cheapest order is one the segment offers. -/
theorem Segment.Holds.exists_best (pat : Pattern) : ∃ e order, seg.bestOrder pat = some e ∧
    e ∈ seg.orderings ∧ seg.bestScanOrder pat = some order ∧ order ∈ seg.scanOrders := by
  obtain ⟨bt, spo⟩ := holds.hasSpo
  obtain ⟨e, best⟩ := exists_maxByKey (fun e : Order × Bt => pat.prefixLen e.1)
    (List.ne_nil_of_mem spo)
  obtain ⟨order, cheapest⟩ : ∃ order, seg.bestScanOrder pat = some order := by
    rcases Segment.bestScanOrder_cases best with same | ⟨-, ⟨same, -⟩ | ⟨same, -⟩⟩ <;>
      exact ⟨_, same⟩
  exact ⟨e, order, best, (maxByKey_spec best).1, cheapest, Segment.bestScanOrder_offered cheapest⟩

/-- The base count: the matching quads, and the phantom ones where the fallback scans in
the accessor's PSO. -/
theorem Segment.Holds.count_spec (pat : Pattern) : ∃ rows : List QuadKey, rows.Nodup ∧
    (∀ q, q ∈ rows ↔ pat.Matches q ∧ (seg.containsQuad q = true ∨
      (seg.bestScanOrder pat = some .pso ∧ seg.PhantomKey q))) ∧
    seg.count pat = some (.ok rows.length) := by
  obtain ⟨⟨order, bt⟩, cheapest, best, mem, scanned, offered⟩ := holds.exists_best pat
  -- the accessor's PSO is chosen for patterns that no ordering has a prefix of
  have phantom {q : QuadKey} (h : seg.PhantomKey q) (pso : seg.bestScanOrder pat = some .pso) :
      pat.p.isSome = true ∧ pat.prefixLen order = 0 := by
    obtain ⟨foq, -, none_, -⟩ := h
    rcases Segment.bestScanOrder_cases best with same | ⟨-, ⟨same, -⟩ | ⟨-, p, zero, -⟩⟩
    · rw [pso] at same
      obtain rfl := Option.some.inj same
      exact absurd (List.mem_map.mpr ⟨_, mem, rfl⟩) (Segment.orderingBt_eq_none.mp none_)
    · rw [pso] at same
      cases same
    · exact ⟨p, zero⟩
  have direct {rows : List QuadKey} (members : ∀ q, q ∈ rows ↔ pat.Matches q ∧ q ∈ quads)
      (fast : pat.p.isSome = true → pat.prefixLen order ≠ 0) (q : QuadKey) :
      q ∈ rows ↔ pat.Matches q ∧ (seg.containsQuad q = true ∨
        (seg.bestScanOrder pat = some .pso ∧ seg.PhantomKey q)) := by
    rw [members, ← holds.containsQuad_iff]
    refine and_congr_right fun _ => ⟨Or.inl, fun h => h.elim id fun h => ?_⟩
    obtain ⟨p, zero⟩ := phantom h.2 h.1
    exact absurd zero (fast p)
  rw [Segment.count]
  cases objects : seg.objectOnly pat with
  | some found =>
      obtain ⟨foq, o⟩ := found
      obtain ⟨layer, plain, rfl⟩ : seg.foq = some foq ∧ seg.graphs = none ∧
          pat = ⟨none, none, some o, none⟩ := by
        rw [Segment.objectOnly.eq_def] at objects
        split at objects
        · rename_i layer plain
          obtain ⟨rfl, rfl⟩ := Prod.mk.inj (Option.some.inj objects)
          exact ⟨layer, plain, rfl⟩
        · cases objects
      obtain ⟨rows, nodup, members, value⟩ := holds.objectRun_spec layer plain o
      refine ⟨rows, nodup, direct members (fun none_ => absurd none_ (by simp)), ?_⟩
      rcases value with ⟨absent, zero⟩ | ⟨j, found, value⟩
      · simp only [absent, zero]
      · simp only [found, value, Option.map_some]
  | none =>
      by_cases part : pat.prefixLen order < pat.bound
      · obtain ⟨scan, rows, run, serves, ascending, members⟩ := holds.scanOrder_spec offered pat
        refine ⟨rows, ascending.imp fun lt eq => absurd (eq ▸ lt) (lt_irrefl _), fun q => ?_, ?_⟩
        · rw [members, holds.shown_iff offered, scanned]
          simp only [Option.some.injEq]
        · have drained := @SegmentScan.drain_of_serves _ _ serves
            (QuadBatch.withCapacity QuadBatch.batchCapacity) (by decide)
          simp only [best, if_pos part, Segment.scan, scanned, Option.map_some, run, drained]
          rfl
      · obtain ⟨rows, nodup, members, value⟩ := holds.prefixCount_spec mem part
          ((seg.scan pat).map fun rows => rows.map List.length)
        refine ⟨rows, nodup, direct members fun p zero => part ?_, ?_⟩
        · rw [zero, Pattern.bound, List.countP_pos_iff]
          exact ⟨pat.p, by simp, p⟩
        · simp only [best, if_neg part]
          exact value

end Base

end Graphy
