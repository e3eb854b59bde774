import Graphy.Store.Proofs.Delta
import Graphy.Store.Proofs.SourceRows

/-!
# Ranges of the delta

The range plan of a pattern loses no match, so a collected range is what the
delta decides about the matching quads, ascending in the scan key.
-/

namespace Graphy

/-! ## Range plans -/

namespace IndexKey

theorem lt_iff {a b : IndexKey} : a < b ↔ a.g < b.g ∨ (a.g = b.g ∧ (a.x < b.x ∨
    (a.x = b.x ∧ (a.y < b.y ∨ (a.y = b.y ∧ a.z < b.z))))) := by
  change a.toPair < b.toPair ↔ _
  simp only [toPair, Prod.Lex.toLex_lt_toLex]

theorem le_of_components {a b : IndexKey} (g : a.g ≤ b.g) (x : a.x ≤ b.x) (y : a.y ≤ b.y)
    (z : a.z ≤ b.z) : a ≤ b :=
  Prod.Lex.toLex_mono ⟨g, Prod.Lex.toLex_mono ⟨x, Prod.Lex.toLex_mono ⟨y, z⟩⟩⟩

/-- Dropping the tail of a key lowers it. -/
theorem keep_le (k : IndexKey) (n : Nat) : k.keep n ≤ k := by
  have zero (c : Col) : Col.dict 0 ≤ c := Col.dict_le_iff.mpr (Or.inr (Nat.zero_le _))
  rcases n with _ | _ | _ | _ | n
  · exact le_of_components (zero _) (zero _) (zero _) (zero _)
  · exact le_of_components (le_refl _) (zero _) (zero _) (zero _)
  · exact le_of_components (le_refl _) (le_refl _) (zero _) (zero _)
  · exact le_of_components (le_refl _) (le_refl _) (le_refl _) (zero _)
  · exact le_refl _

theorem lt_bump (c : Col) : c < ⟨c.tag, c.payload + 1⟩ := by
  rw [Col.lt_iff]
  exact Or.inr ⟨rfl, Nat.lt_succ_self _⟩

/-- Raising a component of a key raises it, whatever the tail. -/
theorem lt_keep_bump (k : IndexKey) {n : Nat} (some_ : 0 < n) (le : n ≤ 4) :
    k < (k.bump (n - 1)).keep n := by
  rw [lt_iff]
  rcases n with _ | _ | _ | _ | _ | n
  · exact absurd some_ (lt_irrefl _)
  · exact Or.inl (lt_bump _)
  · exact Or.inr ⟨rfl, Or.inl (lt_bump _)⟩
  · exact Or.inr ⟨rfl, Or.inr ⟨rfl, Or.inl (lt_bump _)⟩⟩
  · exact Or.inr ⟨rfl, Or.inr ⟨rfl, Or.inr ⟨rfl, lt_bump _⟩⟩⟩
  · omega

/-- A key that agrees with `k` on its first components. -/
theorem keep_congr {k want : IndexKey} {n : Nat} (le : n ≤ 4)
    (agree : ∀ i < n, k.get i = want.get i) : k.keep n = want.keep n ∧
      (k.bump (n - 1)).keep n = (want.bump (n - 1)).keep n := by
  rcases n with _ | _ | _ | _ | _ | n
  · exact ⟨rfl, rfl⟩
  · have g : k.g = want.g := agree 0 (by omega)
    simp [keep, bump, g]
  · have g : k.g = want.g := agree 0 (by omega)
    have x : k.x = want.x := agree 1 (by omega)
    simp [keep, bump, g, x]
  · have g : k.g = want.g := agree 0 (by omega)
    have x : k.x = want.x := agree 1 (by omega)
    have y : k.y = want.y := agree 2 (by omega)
    simp [keep, bump, g, x, y]
  · have g : k.g = want.g := agree 0 (by omega)
    have x : k.x = want.x := agree 1 (by omega)
    have y : k.y = want.y := agree 2 (by omega)
    have z : k.z = want.z := agree 3 (by omega)
    have same : k = want := by
      cases k
      cases want
      simp_all
    rw [same]
    exact ⟨rfl, rfl⟩
  · omega

end IndexKey

theorem Bound.prefixLen_le (b : Bound) : b.prefixLen ≤ 4 :=
  (List.takeWhile_prefix id).length_le

/-- An admitted key agrees with the plan on the bound prefix. -/
theorem RangePlan.agree_of_admits {plan : RangePlan} {k : IndexKey} (h : plan.admits k = true) :
    ∀ i < plan.bound.prefixLen, k.get i = plan.want.get i := by
  obtain ⟨want, ⟨bg, bx, by_, bz⟩, lo, hi⟩ := plan
  intro i lt
  have few := lt_of_lt_of_le lt (Bound.prefixLen_le _)
  simp only [admits, Bool.and_eq_true, Bool.or_eq_true, Bool.not_eq_true', decide_eq_true_eq] at h
  simp only [Bound.prefixLen, List.takeWhile_cons, id] at lt
  rcases i with _ | _ | _ | _ | i
  · cases bg <;> simp_all [IndexKey.get]
  · cases bg <;> cases bx <;> simp_all [IndexKey.get]
  · cases bg <;> cases bx <;> cases by_ <;> simp_all [IndexKey.get]
  · cases bg <;> cases bx <;> cases by_ <;> cases bz <;> simp_all [IndexKey.get]
  · omega

/-- The range of a plan holds every key it admits. -/
theorem rangePlan_bounds {order : Order} {pat : Pattern} {k : IndexKey}
    (h : (rangePlan order pat).admits k = true) :
    (rangePlan order pat).lo ≤ k ∧ ∀ hi ∈ (rangePlan order pat).hi, k < hi := by
  have agree := RangePlan.agree_of_admits h
  generalize plan_ : rangePlan order pat = plan at agree h
  have le := plan.bound.prefixLen_le
  obtain ⟨keeps, bumps⟩ := IndexKey.keep_congr le agree
  have lo : plan.lo = plan.want.keep plan.bound.prefixLen := by rw [← plan_]; rfl
  refine ⟨?_, fun hi mem => ?_⟩
  · rw [lo, ← keeps]
    exact IndexKey.keep_le k _
  · have hi_ : plan.hi = if plan.bound.prefixLen = 0 then none
        else if plan.want.get (plan.bound.prefixLen - 1) = Col.max then none
        else some ((plan.want.bump (plan.bound.prefixLen - 1)).keep plan.bound.prefixLen) := by
      rw [← plan_]
      rfl
    rw [hi_] at mem
    split at mem
    · cases mem
    · rename_i some_
      split at mem
      · cases mem
      · obtain rfl := Option.some.inj mem
        rw [← bumps]
        exact IndexKey.lt_keep_bump k (Nat.pos_of_ne_zero some_) le

/-- A plan admits the keys of the matching quads. -/
theorem admits_rangePlan {order : Order} {pat : Pattern} {q : QuadKey} :
    (rangePlan order pat).admits (permute order q) = true ↔ pat.Matches q := by
  obtain ⟨cx, cy, cz, want, flags, matches_⟩ := pat.components order
  have keyed : ∀ c : Option Col, ∀ v : Col,
      ((!decide (flag c = Col.dict 1) || decide (v = c.getD (Col.dict 0))) = true ↔ ∀ w ∈ c, w = v) := by
    intro c v
    cases c with
    | none => simp [flag]
    | some w => simp [flag, eq_comm]
  have graph : (!pat.g.isSome || decide (q.g = pat.g.getD (Col.dict 0))) = true ↔
      ∀ w ∈ pat.g, w = q.g := by
    cases pat.g with
    | none => simp
    | some w => simp [eq_comm]
  have triple := matches_ (order.toXyz q.triple)
  rw [Order.toSpo_toXyz] at triple
  have same : (⟨pat.s.getD (Col.dict 0), pat.p.getD (Col.dict 0), pat.o.getD (Col.dict 0),
      pat.g.getD (Col.dict 0)⟩ : QuadKey).triple =
        ⟨pat.s.getD (Col.dict 0), pat.p.getD (Col.dict 0), pat.o.getD (Col.dict 0)⟩ := rfl
  simp only [RangePlan.admits, rangePlan, permute, same, want, flags, Bool.and_eq_true, keyed, graph,
    Pattern.Matches, triple]
  tauto

/-! ## Collected ranges -/

theorem Order.scanKey_injective (order : Order) : Function.Injective order.scanKey := by
  intro a b h
  have pair := toLex.injective h
  simp only [Prod.mk.injEq] at pair
  have triple := order.toXyz_injective pair.1
  obtain ⟨s, p, o, g⟩ := a
  obtain ⟨s', p', o', g'⟩ := b
  simp only [QuadKey.triple, TripleKey.mk.injEq] at triple
  simp_all

namespace Delta

/-- The delta has an index for every order. -/
def Covers (d : Delta) (orders : List Order) : Prop := ∀ order ∈ orders, (d.index order).isSome = true

theorem mem_of_index {d : Delta} {order : Order} {m : OrderedMap IndexKey Events}
    (h : d.index order = some m) : (order, m) ∈ d.indexes := by
  obtain ⟨e, found, rfl⟩ := Option.map_eq_some_iff.mp h
  have eq : e.1 = order := by simpa using List.find?_some found
  subst eq
  exact List.mem_of_find?_eq_some found

/-- What one index decides about a quad. -/
theorem Coherent.effective_iff {d : Delta} (coh : d.Coherent) {order : Order}
    {m : OrderedMap IndexKey Events} (mem : (order, m) ∈ d.indexes) {q : QuadKey} {epoch : Nat}
    {kind : DeltaKind} : d.probe q epoch = some kind ↔
      ∃ events, (permute order q, events) ∈ m.entries ∧ effective events epoch = some kind := by
  have agree : eventsIn order m q = d.eventsAt q := coh.agree _ mem q
  rw [probe_eq, ← agree, eventsIn]
  constructor
  · intro h
    cases get : m.get? (permute order q) with
    | none => simp [get] at h
    | some events =>
        rw [get] at h
        exact ⟨events, OrderedMap.mem_entries_iff.mpr get, h⟩
  · rintro ⟨events, entry, h⟩
    rw [OrderedMap.mem_entries_iff.mp entry]
    exact h

/-- The matching entries in index order. -/
def matchingEntries (order : Order) (pat : Pattern) (epoch : Nat) (m : OrderedMap IndexKey Events) :
    List (QuadKey × DeltaKind) :=
  let plan := rangePlan order pat
  (m.range plan.lo plan.hi).filterMap fun e =>
    if plan.admits e.1 then (effective e.2 epoch).map fun kind => (unpermute order e.1, kind)
    else none

theorem collectRange_eq {d : Delta} {order : Order} {m : OrderedMap IndexKey Events}
    (h : d.index order = some m) (pat : Pattern) (epoch : Nat) :
    d.collectRange order pat epoch =
      if pat.g.isNone then (matchingEntries order pat epoch m).insertionSort
        fun a b => order.scanKey a.1 ≤ order.scanKey b.1
      else matchingEntries order pat epoch m := by
  rw [collectRange, h]
  rfl

theorem mem_matchingEntries {order : Order} {pat : Pattern} {epoch : Nat}
    {m : OrderedMap IndexKey Events} {q : QuadKey} {kind : DeltaKind} :
    (q, kind) ∈ matchingEntries order pat epoch m ↔ pat.Matches q ∧
      ∃ events, (permute order q, events) ∈ m.entries ∧ effective events epoch = some kind := by
  simp only [matchingEntries, List.mem_filterMap]
  constructor
  · rintro ⟨⟨k, events⟩, entry, found⟩
    split at found
    · rename_i admits
      obtain ⟨kind', eff, eq⟩ := Option.map_eq_some_iff.mp found
      obtain ⟨rfl, rfl⟩ := Prod.mk.inj eq
      have keyed : (rangePlan order pat).admits (permute order (unpermute order k)) = true := by
        rw [permute_unpermute]
        exact admits
      refine ⟨admits_rangePlan.mp keyed, events, ?_, eff⟩
      · rw [permute_unpermute]
        exact (List.mem_filter.mp entry).1
    · cases found
  · rintro ⟨matches_, events, entry, eff⟩
    have admits : (rangePlan order pat).admits (permute order q) = true :=
      admits_rangePlan.mpr matches_
    obtain ⟨lo, hi⟩ := rangePlan_bounds admits
    refine ⟨(permute order q, events), List.mem_filter.mpr ⟨entry, ?_⟩, ?_⟩
    · simp only [Bool.and_eq_true, decide_eq_true_eq, Option.all_eq_true]
      exact ⟨lo, hi⟩
    · rw [if_pos admits, eff, Option.map_some, unpermute_permute]

/-- What a collected range decides about the matching quads. -/
theorem mem_collectRange {d : Delta} (coh : d.Coherent) {order : Order}
    (covered : (d.index order).isSome = true) {pat : Pattern} {epoch : Nat} {q : QuadKey}
    {kind : DeltaKind} : (q, kind) ∈ d.collectRange order pat epoch ↔
      pat.Matches q ∧ d.probe q epoch = some kind := by
  obtain ⟨m, index⟩ := Option.isSome_iff_exists.mp covered
  rw [collectRange_eq index, coh.effective_iff (mem_of_index index), ← mem_matchingEntries]
  split
  · rw [List.mem_insertionSort]
  · exact Iff.rfl

/-- Matching entries ascend in the index. -/
theorem sorted_matchingEntries (order : Order) (pat : Pattern) (epoch : Nat)
    (m : OrderedMap IndexKey Events) : (matchingEntries order pat epoch m).Pairwise
      fun a b => permute order a.1 < permute order b.1 := by
  refine List.Pairwise.filterMap _ ?_ (m.sorted.filter _)
  intro a a' lt b hb b' hb'
  have keyed (e : IndexKey × Events) (r : QuadKey × DeltaKind)
      (h : r ∈ if (rangePlan order pat).admits e.1 then
        (effective e.2 epoch).map fun kind => (unpermute order e.1, kind) else none) :
      permute order r.1 = e.1 := by
    split at h
    · obtain ⟨kind, -, rfl⟩ := Option.map_eq_some_iff.mp h
      exact permute_unpermute order e.1
    · cases h
  rw [keyed a b hb, keyed a' b' hb']
  exact lt

/-- A collected range ascends in the scan key. -/
theorem ascending_collectRange {d : Delta} {order : Order} (covered : (d.index order).isSome = true)
    (pat : Pattern) (epoch : Nat) : (d.collectRange order pat epoch).Pairwise
      fun a b => order.scanKey a.1 < order.scanKey b.1 := by
  obtain ⟨m, index⟩ := Option.isSome_iff_exists.mp covered
  have sorted := sorted_matchingEntries order pat epoch m
  rw [collectRange_eq index]
  split
  · -- sorted again by the scan key, which no two entries share
    have nodup : ((matchingEntries order pat epoch m).map fun e => order.scanKey e.1).Nodup := by
      rw [List.Nodup, List.pairwise_map]
      refine sorted.imp ?_
      intro a b lt eq
      rw [order.scanKey_injective eq] at lt
      exact lt_irrefl _ lt
    have weak := List.pairwise_insertionSort (fun a b : QuadKey × DeltaKind =>
      order.scanKey a.1 ≤ order.scanKey b.1) (matchingEntries order pat epoch m)
    have apart := ((List.perm_insertionSort (fun a b : QuadKey × DeltaKind =>
      order.scanKey a.1 ≤ order.scanKey b.1) (matchingEntries order pat epoch m)).map
        fun e => order.scanKey e.1).nodup_iff.mpr nodup
    rw [List.Nodup, List.pairwise_map] at apart
    exact (weak.and apart).imp fun h => lt_of_le_of_ne h.1 h.2
  · rename_i bound
    -- one graph: the index order is the scan order
    obtain ⟨g, graph⟩ := Option.ne_none_iff_exists'.mp (by simpa using bound)
    refine List.Pairwise.imp_of_mem ?_ sorted
    intro a b ha hb lt
    have inGraph (e : QuadKey × DeltaKind) (h : e ∈ matchingEntries order pat epoch m) : e.1.g = g :=
      ((mem_matchingEntries.mp h).1.2 g graph).symm
    have same : a.1.g = b.1.g := (inGraph a ha).trans (inGraph b hb).symm
    rw [IndexKey.lt_iff] at lt
    simp only [permute] at lt
    refine Prod.Lex.toLex_lt_toLex.mpr (Or.inl (Xyz.lt_iff.mpr ?_))
    rcases lt with less | ⟨-, rest⟩
    · rw [same] at less
      exact absurd less (lt_irrefl _)
    · exact rest

/-! ## Covered orders -/

theorem index_map (d : Delta) (order : Order)
    (f : Order → OrderedMap IndexKey Events → OrderedMap IndexKey Events) :
    ((d.indexes.map fun e => (e.1, f e.1 e.2)).find? fun e => decide (e.1 = order)).isSome =
      (d.indexes.find? fun e => decide (e.1 = order)).isSome := by
  rw [List.find?_map, Option.isSome_map]
  rfl

theorem Covers.new (orders : List Order) (s p o g : Nat) : (new orders s p o g).Covers orders := by
  intro order mem
  rw [index, Option.isSome_map, List.find?_isSome]
  exact ⟨_, List.mem_map_of_mem mem, by simp⟩

theorem Covers.record {d : Delta} {orders : List Order} (h : d.Covers orders)
    (entries : List (QuadKey × DeltaKind)) (epoch : Nat) : (d.record entries epoch).Covers orders := by
  intro order mem
  have old := h order mem
  rw [index, Option.isSome_map] at old ⊢
  exact (index_map d order fun o m => entries.foldl (pushEvent epoch o) m).trans old

theorem Covers.gc {d : Delta} {orders : List Order} (h : d.Covers orders) (floor : Nat)
    (inBase : QuadKey → Bool) : (d.gc floor inBase).Covers orders := by
  intro order mem
  have old := h order mem
  rw [index, Option.isSome_map] at old ⊢
  exact (index_map d order fun o m => m.filterMapVal fun k events =>
    gcEvents floor (inBase (unpermute o k)) events).trans old

theorem Covers.intern {d : Delta} {orders : List Order} (h : d.Covers orders) (t : Bytes)
    (pos : TermPos) (aliasId : Option TermId) : (d.intern t pos aliasId).1.Covers orders := by
  have same : (d.intern t pos aliasId).1.indexes = d.indexes := by
    simp only [Delta.intern]
    split
    · cases pos <;> rfl
    · cases pos <;> rfl
  intro order mem
  rw [index, same]
  exact h order mem

/-- A backfilled index adds its order and loses none. -/
theorem Covers.addOrder {d : Delta} {orders : List Order} (h : d.Covers orders)
    (some_ : d.indexes ≠ []) (order : Order) : (d.addOrder order).Covers (order :: orders) := by
  have kept (m : OrderedMap IndexKey Events) (o : Order) (old : (d.index o).isSome = true) :
      (index { d with indexes := d.indexes ++ [(order, m)] } o).isSome = true := by
    rw [index, Option.isSome_map] at old ⊢
    rw [List.find?_append, Option.isSome_or, old, Bool.true_or]
  rw [Delta.addOrder]
  split
  · rename_i present
    intro o mem
    rcases List.mem_cons.mp mem with rfl | old
    · rw [index, Option.isSome_map, List.find?_isSome]
      obtain ⟨e, inside, eq⟩ := List.any_eq_true.mp present
      exact ⟨e, inside, eq⟩
    · exact h o old
  · cases first : d.indexes.head? with
    | none => exact absurd (List.head?_eq_none_iff.mp first) some_
    | some e =>
        intro o mem
        rcases List.mem_cons.mp mem with rfl | old
        · rw [index, Option.isSome_map, List.find?_isSome]
          exact ⟨_, List.mem_append_right _ (List.mem_singleton_self _), by simp⟩
        · exact kept _ o (h o old)

end Delta

end Graphy
