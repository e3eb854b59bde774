import Graphy.Store.Segment
import Graphy.Store.Proofs.BtNavigation

/-!
# What a segment holds

`Segment.Holds seg quads` says that `seg` is a well-formed encoding of the
strictly increasing quad list `quads`.  The builder establishes it, and under it
`containsQuad` is membership in the list.
-/

namespace Graphy

open BitVector

section SortDedup

variable {α : Type} [LinearOrder α]

theorem sortDedup_strict (l : List α) : (sortDedup l).Pairwise (· < ·) := by
  have sorted : (l.insertionSort (· ≤ ·)).Pairwise (· ≤ ·) := List.pairwise_insertionSort _ _
  exact runHeads_pairwise (sortedFrom_none sorted)

theorem mem_runHeads_id {l : List α} {a : α} : a ∈ runHeads id none l ↔ a ∈ l := by
  constructor
  · exact fun h => (runHeads_sublist _ _).subset h
  · intro h
    rcases exists_runHead id none h with e | ⟨b, hb, eq⟩
    · cases e
    · have same : b = a := eq
      exact same ▸ hb

@[simp] theorem mem_sortDedup {l : List α} {a : α} : a ∈ sortDedup l ↔ a ∈ l := by
  rw [sortDedup, mem_runHeads_id, List.mem_insertionSort]

end SortDedup

namespace Order

/-- The triple an ordering's triple stands for, as SPO has it. -/
theorem spo_toXyz_injective : Function.Injective Order.spo.toXyz := toXyz_injective .spo

end Order

theorem QuadKey.lt_iff {a b : QuadKey} :
    a < b ↔ a.s < b.s ∨ a.s = b.s ∧ (a.p < b.p ∨ a.p = b.p ∧ (a.o < b.o ∨ a.o = b.o ∧ a.g < b.g)) := by
  change a.toPair < b.toPair ↔ _
  simp only [toPair, Prod.Lex.toLex_lt_toLex]

theorem QuadKey.spo_le_of_lt {a b : QuadKey} (h : a < b) :
    Order.spo.toXyz a.triple ≤ Order.spo.toXyz b.triple := by
  rcases lt_iff.mp h with hs | ⟨hs, hp | ⟨hp, ho | ⟨ho, -⟩⟩⟩
  · exact (Xyz.lt_iff.mpr (Or.inl hs)).le
  · exact (Xyz.lt_iff.mpr (Or.inr ⟨hs, Or.inl hp⟩)).le
  · exact (Xyz.lt_iff.mpr (Or.inr ⟨hs, Or.inr ⟨hp, ho⟩⟩)).le
  · exact le_of_eq (by simp [Order.toXyz, triple, hs, hp, ho])

section Triples

variable {quads : List QuadKey}

theorem mem_triplesOf {t : Xyz} :
    t ∈ triplesOf quads ↔ ∃ q ∈ quads, Order.spo.toXyz q.triple = t := by
  simp [triplesOf, mem_runHeads_id]

theorem triplesOf_strict (sorted : quads.Pairwise (· < ·)) :
    (triplesOf quads).Pairwise (· < ·) := by
  have weak : (quads.map fun q => Order.spo.toXyz q.triple).Pairwise (· ≤ ·) := by
    rw [List.pairwise_map]
    exact sorted.imp QuadKey.spo_le_of_lt
  exact runHeads_pairwise (sortedFrom_none weak)

/-- The ordinal a quad is numbered with is the position of its triple. -/
theorem numbered_ordinal {last : Option TripleKey} {n : Nat} (started : last ≠ none → 0 < n)
    {e : QuadKey × Nat} (he : e ∈ numbered last n quads) :
    (e.2 + 1 = n ∧ last = some e.1.triple) ∨
      (n ≤ e.2 ∧ (runHeads id (last.map Order.spo.toXyz)
        (quads.map fun q => Order.spo.toXyz q.triple))[e.2 - n]? =
          some (Order.spo.toXyz e.1.triple)) := by
  induction quads generalizing last n with
  | nil => simp [numbered] at he
  | cons q qs ih =>
      simp only [numbered, List.mem_cons] at he
      by_cases same : last = some q.triple
      · have pos := started (by simp [same])
        rw [if_pos same] at he
        have heads : runHeads id (last.map Order.spo.toXyz)
            ((q :: qs).map fun q => Order.spo.toXyz q.triple) =
              runHeads id ((some q.triple).map Order.spo.toXyz)
                (qs.map fun q => Order.spo.toXyz q.triple) := by
          simp [runHeads, same]
        rcases he with rfl | later
        · exact Or.inl ⟨by simp; omega, same⟩
        · rw [heads]
          rw [same]
          exact ih (fun _ => pos) later
      · rw [if_neg same] at he
        have heads : runHeads id (last.map Order.spo.toXyz)
            ((q :: qs).map fun q => Order.spo.toXyz q.triple) =
              Order.spo.toXyz q.triple :: runHeads id ((some q.triple).map Order.spo.toXyz)
                (qs.map fun q => Order.spo.toXyz q.triple) := by
          have ne : last.map Order.spo.toXyz ≠ some (Order.spo.toXyz q.triple) := by
            intro eq
            apply same
            obtain ⟨t, rfl, et⟩ := Option.map_eq_some_iff.mp eq
            rw [Order.spo_toXyz_injective et]
          simp [runHeads, ne]
        rw [heads]
        rcases he with rfl | later
        · exact Or.inr ⟨by simp, by simp⟩
        · rcases ih (n := n + 1) (fun _ => by omega) later with ⟨eq, tr⟩ | ⟨ge, get⟩
          · refine Or.inr ⟨by omega, ?_⟩
            rw [show e.2 - n = 0 by omega, Option.some.inj tr]
            rfl
          · refine Or.inr ⟨by omega, ?_⟩
            rw [show e.2 - n = (e.2 - (n + 1)) + 1 by omega]
            simpa using get

theorem exists_numbered (last : Option TripleKey) (n : Nat) {q : QuadKey} (hq : q ∈ quads) :
    ∃ m, (q, m) ∈ numbered last n quads := by
  induction quads generalizing last n with
  | nil => simp at hq
  | cons a qs ih =>
      rcases List.mem_cons.mp hq with rfl | later
      · exact ⟨_, by simp only [numbered]; exact List.mem_cons_self⟩
      · obtain ⟨m, hm⟩ := ih (some a.triple)
          (if last = some a.triple then n else n + 1) later
        exact ⟨m, by simp only [numbered]; exact List.mem_cons_of_mem _ hm⟩

theorem mem_of_mem_numbered {last : Option TripleKey} {n : Nat} {e : QuadKey × Nat}
    (he : e ∈ numbered last n quads) : e.1 ∈ quads := by
  induction quads generalizing last n with
  | nil => simp [numbered] at he
  | cons a qs ih =>
      simp only [numbered, List.mem_cons] at he
      rcases he with rfl | later
      · simp
      · exact List.mem_cons_of_mem _ (ih later)

theorem numbered_get {e : QuadKey × Nat} (he : e ∈ numbered none 0 quads) :
    (triplesOf quads)[e.2]? = some (Order.spo.toXyz e.1.triple) := by
  rcases numbered_ordinal (fun h => absurd rfl h) he with ⟨-, e⟩ | ⟨-, get⟩
  · cases e
  · simpa [triplesOf] using get

end Triples

theorem maxPayload_le_iff {cols : List Col} {n : Nat} :
    maxPayload cols ≤ n ↔ ∀ c ∈ cols, c.payload ≤ n := by
  have general : ∀ (l : List Col) (m : Nat), l.foldl (fun m c => max m c.payload) m ≤ n ↔
      m ≤ n ∧ ∀ c ∈ l, c.payload ≤ n := by
    intro l
    induction l with
    | nil => simp
    | cons a l ih =>
        intro m
        simp only [List.foldl_cons, ih, List.forall_mem_cons, Nat.max_le, and_assoc]
  simpa [maxPayload] using general cols 0

theorem le_maxPayload {cols : List Col} {c : Col} (h : c ∈ cols) : c.payload ≤ maxPayload cols :=
  maxPayload_le_iff.mp (le_refl _) c h

theorem maxPayload_congr {a b : List Col} (h : ∀ c, c ∈ a ↔ c ∈ b) : maxPayload a = maxPayload b :=
  le_antisymm (maxPayload_le_iff.mpr fun c hc => le_maxPayload ((h c).mp hc))
    (maxPayload_le_iff.mpr fun c hc => le_maxPayload ((h c).mpr hc))

/-- The bitmaps of the graph layer: graph `g` holds ordinal `ord` exactly when a
quad of that graph has that triple. -/
theorem buildGraphs_member {quads : List QuadKey} {g : Col} {ord : Nat} :
    (buildGraphs quads).member g ord = true ↔
      ∃ q, (q, ord) ∈ numbered none 0 quads ∧ q.g = g ∧ g.tag = 0 := by
  simp only [Graphs.member, buildGraphs, Bool.and_eq_true, decide_eq_true_eq, List.getElem?_map,
    Option.any_map]
  constructor
  · rintro ⟨tag, found⟩
    by_cases bound : g.payload < maxPayload (quads.map QuadKey.g) + 1
    · simp only [List.getElem?_range bound, Option.any_some,
        List.contains_eq_mem, List.mem_map, List.mem_filter, decide_eq_true_eq] at found
      obtain ⟨⟨q, m⟩, ⟨mem, eq⟩, rfl⟩ := found
      exact ⟨q, mem, by rw [eq]; exact (Col.eq_dict_of_tag tag).symm, tag⟩
    · have out : (List.range (maxPayload (quads.map QuadKey.g) + 1))[g.payload]? = none := by
        simpa using bound
      simp [out] at found
  · rintro ⟨q, mem, rfl, tag⟩
    have bound : q.g.payload < maxPayload (quads.map QuadKey.g) + 1 := by
      have := le_maxPayload (List.mem_map_of_mem (f := QuadKey.g) (mem_of_mem_numbered mem))
      simp only at this
      omega
    refine ⟨tag, ?_⟩
    simp only [List.getElem?_range bound, Option.any_some,
      List.contains_eq_mem, List.mem_map, List.mem_filter, decide_eq_true_eq]
    exact ⟨(q, ord), ⟨mem, Col.eq_dict_of_tag tag⟩, rfl⟩

/-! ## The content relation -/

/-- The triples in the key order of an ordering. -/
def orderTriples (order : Order) (triples : List Xyz) : List Xyz :=
  (triples.map fun t => order.toXyz (Order.spo.toSpo t)).insertionSort (· ≤ ·)

/-- The (object, ordinal) pairs in the order of the object index. -/
def objectOrdinals (triples : List Xyz) : List (Col × Nat) :=
  ((triples.mapIdx fun i t => (toLex (t.z, i) : Col ×ₗ Nat)).insertionSort (· ≤ ·)).map ofLex

/-- Some quad lies in a named graph. -/
def hasNamedGraphs (quads : List QuadKey) : Bool := quads.any fun q => decide (Col.dict 0 < q.g)

/-- A quad key whose components name entries of the four spaces; the graph column
is 0 for the default graph and one past the section ordinal for a named one. -/
structure Dictionary.ValidKey [InlineCodec] (d : Dictionary) (q : QuadKey) : Prop where
  s : d.Valid q.s .subject
  p : d.Valid q.p .predicate
  o : d.Valid q.o .object
  g_tag : q.g.tag = 0
  g_le : q.g.payload ≤ d.graphs.length

/-- A materialized ordering of the quads; secondary orderings carry the SPO ordinals
when there are named graphs. -/
structure Bt.Holds (bt : Bt) (order : Order) (quads : List QuadKey) : Prop where
  represents : bt.Represents (orderTriples order (triplesOf quads))
  payload : order ≠ .spo → hasNamedGraphs quads = true →
    ∃ pz, bt.pz = some pz ∧ ∀ (i : Nat) (t : Xyz),
      (orderTriples order (triplesOf quads))[i]? = some t →
        ∃ ord, pz[i]? = some ord ∧ (triplesOf quads)[ord]? = some (Order.spo.toXyz (order.toSpo t))

structure Segment.Holds [InlineCodec] (seg : Segment) (quads : List QuadKey) : Prop where
  sorted : quads.Pairwise (· < ·)
  dict : seg.dict.WF
  valid : ∀ q ∈ quads, seg.dict.ValidKey q
  hasSpo : ∃ bt, (Order.spo, bt) ∈ seg.orderings
  orderings : ∀ order bt, (order, bt) ∈ seg.orderings → bt.Holds order quads
  graphs : seg.graphs = if hasNamedGraphs quads then some (buildGraphs quads) else none
  foq : ∀ foq, seg.foq = some foq → ∃ spo : Bt, spo.Represents (triplesOf quads) ∧
    foq = Foq.build spo (objectOrdinals (triplesOf quads))
      (bitsFor (maxPayload (quads.map QuadKey.p)))

@[simp] theorem orderTriples_spo {quads : List QuadKey} (sorted : quads.Pairwise (· < ·)) :
    orderTriples .spo (triplesOf quads) = triplesOf quads := by
  have same : (triplesOf quads).map (fun t => Order.spo.toXyz (Order.spo.toSpo t)) =
      triplesOf quads := by simp
  rw [orderTriples, same]
  exact ((triplesOf_strict sorted).imp le_of_lt).insertionSort_eq

theorem mem_orderTriples {order : Order} {triples : List Xyz} {t : Xyz} :
    t ∈ orderTriples order triples ↔ Order.spo.toXyz (order.toSpo t) ∈ triples := by
  simp only [orderTriples, List.mem_insertionSort, List.mem_map]
  constructor
  · rintro ⟨u, hu, rfl⟩
    simpa using hu
  · intro h
    exact ⟨_, h, by simp⟩

theorem orderTriples_strict (order : Order) {triples : List Xyz}
    (strict : triples.Pairwise (· < ·)) : (orderTriples order triples).Pairwise (· < ·) := by
  have inj : Function.Injective fun t : Xyz => order.toXyz (Order.spo.toSpo t) := by
    intro a b h
    have := order.toXyz_injective h
    rw [← Order.toXyz_toSpo .spo a, this, Order.toXyz_toSpo]
  have nodup : (triples.map fun t => order.toXyz (Order.spo.toSpo t)).Nodup :=
    List.Nodup.map inj (strict.imp ne_of_lt)
  have nodup' : (orderTriples order triples).Nodup :=
    (List.perm_insertionSort _ _).nodup_iff.mpr nodup
  have weak : (orderTriples order triples).Pairwise (· ≤ ·) := List.pairwise_insertionSort _ _
  exact (weak.and nodup').imp fun h => lt_of_le_of_ne h.1 h.2

section Holds

variable [InlineCodec] {seg : Segment} {quads : List QuadKey} (holds : seg.Holds quads)
include holds

theorem Segment.Holds.of_orderingBt {order : Order} {bt : Bt}
    (h : seg.orderingBt order = some bt) : bt.Holds order quads := by
  obtain ⟨e, found, rfl⟩ := Option.map_eq_some_iff.mp h
  have mem := List.mem_of_find?_eq_some found
  have eq : e.1 = order := by simpa using List.find?_some found
  subst eq
  exact holds.orderings _ _ mem

theorem Segment.Holds.exists_spo :
    ∃ spo, seg.orderingBt .spo = some spo ∧ spo.Represents (triplesOf quads) := by
  obtain ⟨bt, mem⟩ := holds.hasSpo
  have some_ : (seg.orderings.find? (fun e => decide (e.1 = .spo))).isSome := by
    rw [List.find?_isSome]
    exact ⟨_, mem, by simp⟩
  obtain ⟨e, found⟩ := Option.isSome_iff_exists.mp some_
  have get : seg.orderingBt .spo = some e.2 := by simp [Segment.orderingBt, found]
  have rep := (holds.of_orderingBt get).represents
  rw [orderTriples_spo holds.sorted] at rep
  exact ⟨e.2, get, rep⟩

theorem Segment.Holds.spoOrdinal_eq_some_iff {t : TripleKey} {ord : Nat} :
    seg.spoOrdinal t = some ord ↔ (triplesOf quads)[ord]? = some (Order.spo.toXyz t) := by
  obtain ⟨spo, get, rep⟩ := holds.exists_spo
  simp only [Segment.spoOrdinal, get, Option.bind_some]
  exact rep.lookup_eq_some_iff

/-- Without named graphs every quad is in the default graph. -/
theorem Segment.Holds.default_graph (none_ : hasNamedGraphs quads = false) {q : QuadKey}
    (hq : q ∈ quads) : q.g = Col.dict 0 := by
  have notAbove : ¬ Col.dict 0 < q.g := by
    intro lt
    have : hasNamedGraphs quads = true := List.any_eq_true.mpr ⟨q, hq, by simpa using lt⟩
    rw [none_] at this
    cases this
  have tag := (holds.valid q hq).g_tag
  rw [Col.eq_dict_of_tag tag] at notAbove ⊢
  simp only [Col.dict_lt_dict] at notAbove
  congr 1
  omega

/-- Base membership is membership in the held quads. -/
theorem Segment.Holds.containsQuad_iff {q : QuadKey} : seg.containsQuad q = true ↔ q ∈ quads := by
  constructor
  · intro h
    simp only [Segment.containsQuad] at h
    split at h
    · cases h
    · split at h
      · cases h
      · split at h
        · cases h
        · cases ho : seg.spoOrdinal q.triple with
          | none => simp [ho] at h
          | some ord =>
              have get := holds.spoOrdinal_eq_some_iff.mp ho
              obtain ⟨q', mem, eq⟩ := mem_triplesOf.mp (List.mem_of_getElem? get)
              have same := Order.spo_toXyz_injective eq
              rw [ho, holds.graphs] at h
              by_cases named : hasNamedGraphs quads = true
              · simp only [named, if_true] at h
                obtain ⟨r, hr, hg, -⟩ := buildGraphs_member.mp h
                have getR := numbered_get hr
                rw [get] at getR
                have tr := Order.spo_toXyz_injective (Option.some.inj getR)
                have whole : r = q := by
                  cases r
                  cases q
                  simp_all [QuadKey.triple]
                exact whole ▸ mem_of_mem_numbered hr
              · simp only [named, Bool.false_eq_true, if_false, decide_eq_true_eq] at h
                have g' := holds.default_graph (by simpa using named) mem
                have whole : q' = q := by
                  cases q'
                  cases q
                  simp_all [QuadKey.triple]
                exact whole ▸ mem
  · intro mem
    have valid := holds.valid q mem
    have inRange : ¬ (Col.dict seg.dict.nSubjects ≤ q.s ∨
        Col.dict seg.dict.predicates.length ≤ q.p ∨ Col.dict seg.dict.graphs.length < q.g) := by
      have hs := Col.lt_dict_iff.mpr valid.s
      have hp := Col.lt_dict_iff.mpr valid.p
      have hg : q.g ≤ Col.dict seg.dict.graphs.length := by
        rw [Col.eq_dict_of_tag valid.g_tag]
        simpa using valid.g_le
      rintro (h | h | h)
      · exact absurd hs (not_lt.mpr h)
      · exact absurd hp (not_lt.mpr h)
      · exact absurd hg (not_le.mpr h)
    have object0 : ¬ (q.o.tag = 0 ∧ Col.dict seg.dict.nObjects ≤ q.o) := by
      rintro ⟨tag, le⟩
      rcases valid.o with hv | ⟨tag7, -⟩ | ⟨b, hb⟩
      · exact absurd (Col.lt_dict_iff.mpr hv) (not_lt.mpr le)
      · omega
      · have := InlineCodec.tag_tryInline hb
        omega
    have object7 : ¬ (q.o.tag = 7 ∧ seg.dict.ttRecords.length ≤ q.o.payload) := by
      rintro ⟨tag, le⟩
      rcases valid.o with ⟨tag0, -⟩ | ⟨-, lt⟩ | ⟨b, hb⟩
      · omega
      · omega
      · have := InlineCodec.tag_tryInline hb
        omega
    obtain ⟨ord, hord⟩ := exists_numbered none 0 mem
    have get := numbered_get hord
    simp only [Segment.containsQuad, if_neg inRange, if_neg object0, if_neg object7,
      holds.spoOrdinal_eq_some_iff.mpr get, holds.graphs]
    by_cases named : hasNamedGraphs quads = true
    · simp only [named, if_true]
      exact buildGraphs_member.mpr ⟨q, hord, rfl, valid.g_tag⟩
    · simp only [named, Bool.false_eq_true, if_false, decide_eq_true_eq]
      exact holds.default_graph (by simpa using named) mem

end Holds

end Graphy
