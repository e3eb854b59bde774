import Graphy.Store.Proofs.Segment

/-!
# The builder establishes the content relation

`buildFromIds` over a well-formed dictionary and valid quads fails only when the
configured orderings lack SPO, and what it builds holds exactly the source quads.
-/

namespace Graphy

open BitVector

/-- Sorting pairs by first and then second component sorts the first components. -/
theorem map_fst_insertionSort {α : Type} [LinearOrder α] (l : List (α ×ₗ Nat)) :
    ((l.insertionSort (· ≤ ·)).map fun e => (ofLex e).1) =
      (l.map fun e => (ofLex e).1).insertionSort (· ≤ ·) := by
  apply List.Perm.eq_of_pairwise
  · intro a b _ _ h1 h2
    exact le_antisymm h1 h2
  · rw [List.pairwise_map]
    exact (List.pairwise_insertionSort (· ≤ ·) l).imp fun h => Prod.Lex.monotone_fst _ _ h
  · exact List.pairwise_insertionSort _ _
  · exact ((List.perm_insertionSort _ l).map _).trans (List.perm_insertionSort _ _).symm

theorem map_fst_mapIdx {α β : Type} (l : List α) (f : α → β) :
    ((l.mapIdx fun i t => (toLex (f t, i) : β ×ₗ Nat)).map fun e => (ofLex e).1) = l.map f := by
  apply List.ext_getElem?
  intro i
  simp only [List.getElem?_map, List.getElem?_mapIdx, Option.map_map]
  rfl

/-- A secondary ordering is built from any strictly increasing triple list. -/
theorem sortOrdering_spec {quads : List QuadKey} (sorted : quads.Pairwise (· < ·)) (order : Order) :
    ∃ bt, sortOrdering (triplesOf quads) order (hasNamedGraphs quads) = .ok bt ∧
      bt.Holds order quads := by
  let entries := (triplesOf quads).mapIdx fun i t =>
    (toLex (order.toXyz (Order.spo.toSpo t), i) : Xyz ×ₗ Nat)
  let byKey := entries.insertionSort (· ≤ ·)
  let ts := byKey.map fun e =>
    ((ofLex e).1, if hasNamedGraphs quads then some (ofLex e).2 else none)
  have firsts : ts.map Prod.fst = orderTriples order (triplesOf quads) := by
    have : ts.map Prod.fst = byKey.map fun e => (ofLex e).1 := by
      simp [ts, List.map_map, Function.comp_def]
    rw [this, map_fst_insertionSort, map_fst_mapIdx]
    rfl
  have strict := orderTriples_strict order (triplesOf_strict sorted)
  have new := BtBuilder.encodes_new order.explicitX (hasNamedGraphs quads)
  obtain ⟨b, run⟩ := BtBuilder.pushAll_ok ts new (by simpa [firsts] using strict)
  have enc := BtBuilder.encodes_pushAll new (by simp) run
  rw [List.nil_append, firsts] at enc
  refine ⟨b.finish, ?_, BtBuilder.represents_finish enc.1 enc.2, ?_⟩
  · simp only [sortOrdering]
    rw [show (BtBuilder.new order.explicitX (hasNamedGraphs quads)).pushAll ts = .ok b from run]
    rfl
  · intro _ named
    have withPz : (BtBuilder.new order.explicitX (hasNamedGraphs quads)).pz = some [] := by
      simp [BtBuilder.new, named]
    have all : ∀ e ∈ ts, e.2.isSome := by
      intro e he
      obtain ⟨c, -, rfl⟩ := List.mem_map.mp he
      simp [named]
    have pz := BtBuilder.pz_pushAll withPz all run
    have seconds : ts.filterMap Prod.snd = byKey.map fun e => (ofLex e).2 := by
      simp [ts, named, List.filterMap_map]
    refine ⟨_, pz, ?_⟩
    intro i t ht
    rw [← firsts] at ht
    obtain ⟨e, he, rfl⟩ : ∃ e, byKey[i]? = some e ∧ (ofLex e).1 = t := by
      simpa [ts, List.getElem?_map] using ht
    refine ⟨(ofLex e).2, by simp [seconds, List.getElem?_map, he], ?_⟩
    have mem : e ∈ entries := (List.mem_insertionSort _).mp (List.mem_of_getElem? he)
    obtain ⟨j, hj⟩ := List.mem_iff_getElem?.mp mem
    simp only [entries, List.getElem?_mapIdx, Option.map_eq_some_iff] at hj
    obtain ⟨t, get, rfl⟩ := hj
    simpa using get

/-- Building every entry of a list keeps the names and a property of the results. -/
theorem mapM_named {α β : Type} {f : α → Except String (α × β)} {P : α → β → Prop} {l : List α}
    (h : ∀ a ∈ l, ∃ b, f a = .ok (a, b) ∧ P a b) :
    ∃ bs, l.mapM f = .ok bs ∧ bs.map Prod.fst = l ∧ ∀ a b, (a, b) ∈ bs → P a b := by
  induction l with
  | nil => exact ⟨[], rfl, rfl, by simp⟩
  | cons a l ih =>
      obtain ⟨b, hb, pb⟩ := h a (by simp)
      obtain ⟨bs, hbs, names, pbs⟩ := ih fun c hc => h c (by simp [hc])
      refine ⟨(a, b) :: bs, ?_, by simp [names], ?_⟩
      · rw [List.mapM_cons, hb, hbs]
        rfl
      · intro c d mem
        rcases List.mem_cons.mp mem with eq | later
        · cases eq
          exact pb
        · exact pbs c d later

variable [InlineCodec]

/-- The builder succeeds when SPO is configured, and holds exactly the source. -/
theorem buildFromIds_holds (cfg : BuilderConfig) {dict : Dictionary} {source : List QuadKey}
    (wf : dict.WF) (valid : ∀ q ∈ source, dict.ValidKey q)
    (hasSpo : Order.spo ∈ cfg.orderings.getD cfg.profile.orderings) :
    ∃ seg, buildFromIds cfg dict source = .ok seg ∧ seg.Holds (sortDedup source) ∧
      seg.dict = dict ∧
      seg.orderings.map Prod.fst = cfg.orderings.getD cfg.profile.orderings := by
  have sorted := sortDedup_strict source
  generalize hq : sortDedup source = quads at sorted
  have mem (q : QuadKey) : q ∈ quads ↔ q ∈ source := by rw [← hq, mem_sortDedup]
  have strict := triplesOf_strict sorted
  have new := BtBuilder.encodes_new Order.spo.explicitX false
  obtain ⟨b, run⟩ := BtBuilder.pushAll_ok ((triplesOf quads).map fun t => (t, none)) new
    (by simpa [List.map_map, Function.comp_def] using strict)
  have enc := BtBuilder.encodes_pushAll new (by simp) run
  simp only [List.nil_append, List.map_map, Function.comp_def, List.map_id'] at enc
  have spoRep := BtBuilder.represents_finish enc.1 enc.2
  obtain ⟨orderings, all, names, hold⟩ :=
    mapM_named (P := fun order bt => bt.Holds order quads)
      (f := fun order => if order = .spo then pure (order, b.finish)
        else do return (order, ← sortOrdering (triplesOf quads) order (hasNamedGraphs quads)))
      (l := cfg.orderings.getD cfg.profile.orderings) (by
        intro order _
        by_cases primary : order = .spo
        · subst primary
          exact ⟨b.finish, rfl, by rw [orderTriples_spo sorted]; exact spoRep,
            fun ne => absurd rfl ne⟩
        · obtain ⟨bt, built, holds⟩ := sortOrdering_spec sorted order
          exact ⟨bt, by rw [if_neg primary, built]; rfl, holds⟩)
  have width : maxPayload (source.map QuadKey.p) = maxPayload (quads.map QuadKey.p) :=
    maxPayload_congr fun c => by simp [mem]
  refine ⟨{
    dict := dict
    orderings := orderings
    graphs := if hasNamedGraphs quads then some (buildGraphs quads) else none
    foq := if cfg.profile = .compact then some (Foq.build b.finish (objectOrdinals (triplesOf quads))
      (bitsFor (maxPayload (source.map QuadKey.p)))) else none }, ?_, ?_, rfl, names⟩
  · unfold buildFromIds
    rw [hq]
    refine (congrArg (fun r => Except.bind r _) run).trans ?_
    dsimp only [Except.bind]
    refine (congrArg (fun r => Except.bind r _) all).trans ?_
    simp only [Except.bind, not_true_eq_false, hasSpo, if_false]
    rfl
  · refine ⟨sorted, wf, fun q hq => valid q ((mem q).mp hq), ?_, hold, rfl, ?_⟩
    · obtain ⟨e, he, eq⟩ := List.mem_map.mp (names ▸ hasSpo)
      exact ⟨e.2, eq ▸ he⟩
    · intro foq hf
      simp only [Option.ite_none_right_eq_some] at hf
      exact ⟨b.finish, spoRep, by rw [← width]; exact (Option.some.inj hf.2).symm⟩

end Graphy
