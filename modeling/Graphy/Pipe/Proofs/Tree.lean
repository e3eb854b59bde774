import Graphy.Pipe.Proofs.Event

/-!
# The dataset tree

Each level's map gives keys their ranks in first-seen order, as long as the ranks fit, so that the
stable sort at the end is the grouping of the distinct quads by graph, subject and predicate.
-/

namespace Graphy.Pipe

/-! ## Ranks -/

section Assigned

variable {α κ : Type} [DecidableEq κ]

/-- The map has the ranks of some elements' keys, and no others. -/
structure Assigned (ranks : List (κ × Nat)) (key : α → κ) (rank : α → Nat) (xs : List α) :
    Prop where
  found : ∀ x ∈ xs, ranks.lookup (key x) = some (rank x)
  absent : ∀ k, k ∉ xs.map key → ranks.lookup k = none
  below : ∀ x ∈ xs, rank x < ranks.length
  count : ranks.length = (firsts key xs).length
  ranked : Ranked key rank xs

namespace Assigned

variable {ranks : List (κ × Nat)} {key : α → κ} {rank : α → Nat} {xs : List α}

theorem nil : Assigned [] key rank [] where
  found _ member := absurd member List.not_mem_nil
  absent _ _ := rfl
  below _ member := absurd member List.not_mem_nil
  count := rfl
  ranked := Ranked.nil

/-- A further element with the rank that its key is given. -/
theorem concat (assigned : Assigned ranks key rank xs) {x : α}
    (room : key x ∉ xs.map key → ranks.length < 2 ^ 32)
    (given : rank x = (orInsert ranks (key x)).2) :
    Assigned (orInsert ranks (key x)).1 key rank (xs ++ [x]) := by
  by_cases seen : key x ∈ xs.map key
  · obtain ⟨z, hz, same⟩ := List.mem_map.mp seen
    have here := assigned.found z hz
    rw [same] at here
    have step : orInsert ranks (key x) = (ranks, rank z) := by simp only [orInsert, here]
    rw [step] at given ⊢
    constructor
    · intro y member
      rcases List.mem_append.mp member with old | new
      · exact assigned.found y old
      · rw [List.mem_singleton.mp new, here, given]
    · intro k other
      refine assigned.absent k fun member => other ?_
      rw [List.map_append]
      exact List.mem_append_left _ member
    · intro y member
      rcases List.mem_append.mp member with old | new
      · exact assigned.below y old
      · rw [List.mem_singleton.mp new, given]
        exact assigned.below z hz
    · rw [firsts_append, if_pos seen]
      exact assigned.count
    · exact assigned.ranked.concat_seen hz same given.symm
  · have next : asU32 ranks.length = ranks.length := asU32_of_lt (room seen)
    have step : orInsert ranks (key x) = (ranks ++ [(key x, ranks.length)], ranks.length) := by
      simp only [orInsert, assigned.absent _ seen, next]
    rw [step] at given ⊢
    have longer : (ranks ++ [(key x, ranks.length)]).length = ranks.length + 1 := by simp
    constructor
    · intro y member
      rw [List.lookup_append]
      rcases List.mem_append.mp member with old | new
      · rw [assigned.found y old, Option.some_or]
      · rw [List.mem_singleton.mp new, assigned.absent _ seen, Option.none_or, given]
        simp
    · intro k other
      rw [List.map_append, List.mem_append, not_or, List.map_singleton, List.mem_singleton] at other
      rw [List.lookup_append, assigned.absent k other.1, Option.none_or]
      simp [other.2]
    · intro y member
      rw [longer]
      rcases List.mem_append.mp member with old | new
      · exact (assigned.below y old).trans (Nat.lt_succ_self _)
      · rw [List.mem_singleton.mp new, given]
        exact Nat.lt_succ_self _
    · rw [firsts_append, if_neg seen, longer, assigned.count, List.length_append,
        List.length_singleton]
    · refine assigned.ranked.concat_new (fun y hy same => seen ?_) fun y hy => ?_
      · exact List.mem_map.mpr ⟨y, hy, same⟩
      · rw [given]
        exact assigned.below y hy

/-- Fewer keys than a finer key has leave room for a new one. -/
theorem room {ι ι' : Type} [DecidableEq ι] [DecidableEq ι'] (coarse : α → ι) {finer : α → ι'}
    (assigned : Assigned ranks key rank xs) {x : α}
    (same : ∀ y ∈ xs ++ [x], ∀ z ∈ xs ++ [x], key y = key z ↔ coarse y = coarse z)
    (refines : ∀ y z, finer y = finer z → coarse y = coarse z)
    (small : (firsts finer (xs ++ [x])).length ≤ 2 ^ 32) (new : key x ∉ xs.map key) :
    ranks.length < 2 ^ 32 := by
  have fresh : finer x ∉ xs.map finer := by
    intro member
    obtain ⟨y, hy, told⟩ := List.mem_map.mp member
    refine new (List.mem_map.mpr ⟨y, hy, ?_⟩)
    exact (same y (List.mem_append_left _ hy) x (by simp)).mpr (refines y x told)
  rw [firsts_append, if_neg fresh, List.length_append, List.length_singleton] at small
  have fewer := length_firsts_le refines xs
  rw [← firsts_congr fun y hy z hz =>
    same y (List.mem_append_left _ hy) z (List.mem_append_left _ hz)] at fewer
  rw [assigned.count]
  omega

end Assigned

end Assigned

/-! ## States -/

/-- A quad filed under its ranks. -/
structure Filed where
  g : Nat
  s : Nat
  p : Nat
  q : QuadRef

namespace Filed

def ranked (e : Filed) : RankedQuad := ⟨e.g, e.s, e.p, OwnedQuad.fromRef e.q⟩

def graphKey (e : Filed) : Bytes := e.q.g.getD []

def subjectKey (e : Filed) : Nat × Bytes := (e.g, e.q.s)

def predicateKey (e : Filed) : Nat × Nat × Bytes := (e.g, e.s, e.q.p)

end Filed

/-- The state of `tree` after some quads: the distinct ones are filed. -/
structure TreeAfter (xs : List QuadRef) (op : Tree) (es : List Filed) : Prop where
  distinct : es.map Filed.q = firsts terms xs
  seen : op.seen = (es.map Filed.q).map OwnedQuad.fromRef
  quads : op.quads = es.map Filed.ranked
  graphs : Assigned op.gRank Filed.graphKey Filed.g es
  subjects : Assigned op.sRank Filed.subjectKey Filed.s es
  predicates : Assigned op.pRank Filed.predicateKey Filed.p es

theorem TreeAfter.nil : TreeAfter [] Tree.new [] :=
  ⟨rfl, rfl, rfl, Assigned.nil, Assigned.nil, Assigned.nil⟩

/-- Filing a new quad, when its ranks fit. -/
theorem TreeAfter.file {xs : List QuadRef} {op : Tree} {es : List Filed}
    (after : TreeAfter xs op es) {x : QuadRef} (fresh : terms x ∉ xs.map terms)
    (small : (firsts groupOf (xs ++ [x])).length ≤ 2 ^ 32) :
    ∃ e, e.q = x ∧ TreeAfter (xs ++ [x]) ⟨op.seen ++ [OwnedQuad.fromRef x],
      (orInsert op.gRank e.graphKey).1, (orInsert op.sRank e.subjectKey).1,
      (orInsert op.pRank e.predicateKey).1, op.quads ++ [e.ranked]⟩ (es ++ [e]) ∧
      e.g = (orInsert op.gRank e.graphKey).2 ∧ e.s = (orInsert op.sRank e.subjectKey).2 ∧
      e.p = (orInsert op.pRank e.predicateKey).2 := by
  let g := (orInsert op.gRank (x.g.getD [])).2
  let s := (orInsert op.sRank (g, x.s)).2
  let p := (orInsert op.pRank (g, s, x.p)).2
  let e : Filed := ⟨g, s, p, x⟩
  have distinct : (es ++ [e]).map Filed.q = firsts terms (xs ++ [x]) := by
    rw [List.map_append, after.distinct, firsts_append, if_neg fresh, List.map_singleton]
  -- As many groups are filed as there are in the list.
  have fits : (firsts (fun e : Filed => groupOf e.q) (es ++ [e])).length ≤ 2 ^ 32 := by
    have refines : ∀ a b : QuadRef, terms a = terms b → groupOf a = groupOf b := fun a b same => by
      simp only [terms, Prod.mk.injEq] at same
      rw [groupOf, groupOf, same.1, same.2.1, same.2.2.2]
    have all := congrArg List.length (firsts_map groupOf Filed.q (es ++ [e]))
    rw [distinct, firsts_firsts refines, List.length_map] at all
    rwa [← all]
  have graphs : Assigned (orInsert op.gRank e.graphKey).1 Filed.graphKey Filed.g (es ++ [e]) := by
    refine after.graphs.concat (x := e)
      (after.graphs.room Filed.graphKey (fun _ _ _ _ => Iff.rfl) ?_ fits) rfl
    intro a b same
    simp only [groupOf, Prod.mk.injEq] at same
    rw [Filed.graphKey, Filed.graphKey, same.1]
  have subjects : Assigned (orInsert op.sRank e.subjectKey).1 Filed.subjectKey Filed.s (es ++ [e]) := by
    refine after.subjects.concat (x := e)
      (after.subjects.room (fun e => (e.graphKey, e.q.s)) (fun a ha b hb => ?_) ?_ fits) rfl
    · simp only [Filed.subjectKey, Prod.mk.injEq, graphs.ranked.told a ha b hb]
    · intro a b same
      simp only [groupOf, Prod.mk.injEq] at same
      simp only [Filed.graphKey, same.1, same.2.1]
  have predicates : Assigned (orInsert op.pRank e.predicateKey).1 Filed.predicateKey Filed.p (es ++ [e]) := by
    refine after.predicates.concat (x := e)
      (after.predicates.room (fun e => (e.graphKey, e.q.s, e.q.p)) (fun a ha b hb => ?_) ?_ fits)
      rfl
    · have told := subjects.ranked.told a ha b hb
      simp only [Filed.subjectKey, Prod.mk.injEq] at told
      simp only [Filed.predicateKey, Prod.mk.injEq, graphs.ranked.told a ha b hb, ← told]
      constructor
      · rintro ⟨one, ⟨-, two⟩, three⟩
        exact ⟨one, two, three⟩
      · rintro ⟨one, two, three⟩
        exact ⟨one, ⟨one, two⟩, three⟩
    · intro a b same
      simp only [groupOf, Prod.mk.injEq] at same
      simp only [Filed.graphKey, same.1, same.2.1, same.2.2]
  refine ⟨e, rfl, ⟨distinct, ?_, ?_, graphs, subjects, predicates⟩, rfl, rfl, rfl⟩
  · rw [after.seen, List.map_append, List.map_append]
    rfl
  · rw [after.quads, List.map_append]
    rfl

/-- A quad is recognised by its terms. -/
theorem contains_iff {qs : List QuadRef} {x : QuadRef} (packable : ∀ q ∈ qs, Packable q)
    (packable' : Packable x) :
    Tree.contains (qs.map OwnedQuad.fromRef) (OwnedQuad.fromRef x) = true ↔
      terms x ∈ qs.map terms := by
  rw [Tree.contains, List.any_eq_true]
  simp only [List.mem_map, beq_iff_eq]
  constructor
  · rintro ⟨_, ⟨q, member, rfl⟩, same⟩
    exact ⟨q, member, (OwnedQuad.identity_iff (packable q member) packable').mp same⟩
  · rintro ⟨q, member, same⟩
    exact ⟨_, ⟨q, member, rfl⟩, OwnedQuad.identity_fromRef same⟩

theorem TreeAfter.event {xs : List QuadRef} {op : Tree} {es : List Filed}
    (after : TreeAfter xs op es) {x : QuadRef} (fits : OpSpec.tree.Fits (xs ++ [x])) :
    (∃ es', TreeAfter (xs ++ [x]) (op.event x).1 es') := by
  obtain ⟨each, small⟩ := fits
  have packable : ∀ q ∈ firsts terms xs, Packable q := fun q member =>
    (each q (List.mem_append_left _ (mem_of_mem_firsts member))).1
  have told := contains_iff packable (each x (by simp)).1
  rw [← after.distinct, ← after.seen, after.distinct, mem_map_firsts] at told
  by_cases old : terms x ∈ xs.map terms
  · refine ⟨es, ?_⟩
    have step : op.event x = (op, .swallow) := by
      simp only [Tree.event, told.mpr old, if_true]
    rw [step]
    refine ⟨?_, after.seen, after.quads, after.graphs, after.subjects, after.predicates⟩
    rw [after.distinct, firsts_append, if_pos old]
  · have unseen : ¬ Tree.contains op.seen (OwnedQuad.fromRef x) = true := fun there =>
      old (told.mp there)
    obtain ⟨e, rfl, filed, g, s, p⟩ := after.file old small
    refine ⟨es ++ [e], ?_⟩
    have step : (op.event e.q).1 = ⟨op.seen ++ [OwnedQuad.fromRef e.q],
        (orInsert op.gRank e.graphKey).1, (orInsert op.sRank e.subjectKey).1,
        (orInsert op.pRank e.predicateKey).1, op.quads ++ [e.ranked]⟩ := by
      simp only [Tree.event, if_neg unseen]
      rw [Filed.graphKey] at g
      rw [Filed.subjectKey] at s
      rw [Filed.predicateKey] at p
      simp only [Filed.ranked, Filed.graphKey, Filed.subjectKey, Filed.predicateKey, ← g, ← s, ← p]
    rw [step]
    exact filed

/-! ## Regrouping -/

/-- Elements ranked level by level, sorted stably by the ranks, are regrouped. -/
theorem regroup_sorted {es : List Filed} (graphs : Ranked Filed.graphKey Filed.g es)
    (subjects : Ranked Filed.subjectKey Filed.s es)
    (predicates : Ranked Filed.predicateKey Filed.p es) :
    StablySorted (fun e : Filed => e.ranked.sortKey) es
      (grouped Filed.graphKey (grouped (fun e => e.q.s) (grouped (fun e => e.q.p) id)) es) := by
  refine StablySorted.grouped graphs fun x hx => ?_
  have inGraph : (es.filter fun y => y.graphKey = x.graphKey) = es.filter fun y => y.g = x.g :=
    List.filter_congr fun y hy => decide_eq_decide.mpr (graphs.told y hy x hx)
  rw [inGraph]
  have subjects' : Ranked (fun e : Filed => e.q.s) Filed.s (es.filter fun y => y.g = x.g) :=
    subjects.filter x.g
  have predicates' : Ranked (fun e : Filed => (e.s, e.q.p)) Filed.p
      (es.filter fun y => y.g = x.g) := predicates.filter x.g
  refine StablySorted.grouped subjects' fun y hy => ?_
  have inSubject : ((es.filter fun y => y.g = x.g).filter fun z => z.q.s = y.q.s)
      = (es.filter fun y => y.g = x.g).filter fun z => z.s = y.s :=
    List.filter_congr fun z hz => decide_eq_decide.mpr (subjects'.told z hz y hy)
  rw [inSubject]
  exact (StablySorted.grouped (predicates'.filter y.s) fun _ _ => StablySorted.refl).of_unit

theorem TreeAfter.flushed {xs : List QuadRef} {op : Tree} {es : List Filed}
    (after : TreeAfter xs op es) (fits : OpSpec.tree.Fits xs) :
    op.flushed = (OpSpec.tree.apply xs).map some := by
  have sorted : (es.map Filed.ranked).insertionSort (fun a b => a.sortKey ≤ b.sortKey)
      = (es.insertionSort fun a b => a.ranked.sortKey ≤ b.ranked.sortKey).map Filed.ranked :=
    (List.map_insertionSort _ _ Filed.ranked es fun _ _ _ _ => Iff.rfl).symm
  have grouping := (StablySorted.insertionSort (fun e : Filed => e.ranked.sortKey) es).unique
    (regroup_sorted after.graphs.ranked after.subjects.ranked after.predicates.ranked)
  -- A named graph's key is its name, and the default graph's key is no name.
  have byName : ∀ a ∈ es, ∀ b ∈ es, a.graphKey = b.graphKey ↔ a.q.g = b.q.g := by
    have named : ∀ a ∈ es, a.q.g ≠ some [] := fun a ha => by
      have member : a.q ∈ firsts terms xs := after.distinct ▸ List.mem_map_of_mem ha
      exact (fits.1 a.q (mem_of_mem_firsts member)).2
    intro a ha b hb
    refine ⟨fun same => ?_, fun same => by rw [Filed.graphKey, Filed.graphKey, same]⟩
    rw [Filed.graphKey, Filed.graphKey] at same
    cases ga : a.q.g with
    | none =>
        cases gb : b.q.g with
        | none => rfl
        | some g =>
            rw [ga, gb, Option.getD_none, Option.getD_some] at same
            exact absurd (same ▸ gb) (named b hb)
    | some g =>
        cases gb : b.q.g with
        | none =>
            rw [ga, gb, Option.getD_none, Option.getD_some] at same
            exact absurd (same ▸ ga) (named a ha)
        | some g' =>
            rw [ga, gb, Option.getD_some, Option.getD_some] at same
            rw [same]
  have mapped : (grouped Filed.graphKey (grouped (fun e => e.q.s) (grouped (fun e => e.q.p) id))
      es).map Filed.q = regroup (es.map Filed.q) := by
    rw [grouped_congr byName]
    refine grouped_map (fun q => q.g) Filed.q (fun ys => ?_) es
    refine grouped_map (fun q => q.s) Filed.q (fun ys => ?_) ys
    refine grouped_map (fun q => q.p) Filed.q (fun zs => ?_) ys
    rfl
  have packable : ∀ q ∈ es.map Filed.q, Packable q := fun q member => by
    rw [after.distinct] at member
    exact (fits.1 q (mem_of_mem_firsts member)).1
  calc op.flushed
      = ((es.insertionSort fun a b => a.ranked.sortKey ≤ b.ranked.sortKey).map Filed.ranked).map
          fun r => r.quad.asRef := by
        rw [Tree.flushed, after.quads, sorted]
    _ = (es.insertionSort fun a b => a.ranked.sortKey ≤ b.ranked.sortKey).map
          fun e => some e.q := by
        rw [List.map_map]
        refine List.map_congr_left fun e member => ?_
        rw [List.mem_insertionSort] at member
        exact OwnedQuad.asRef_fromRef (packable e.q (List.mem_map_of_mem member))
    _ = (OpSpec.tree.apply xs).map some := by
        rw [grouping, OpSpec.apply, ← after.distinct, ← mapped, List.map_map]
        rfl

theorem Tree.event_swallows (op : Tree) (q : QuadRef) : (op.event q).2 = .swallow := by
  simp only [event]
  split <;> rfl

theorem implements_tree (finished : Nat) :
    stage.Implements ⟨OpSpec.tree.build, finished⟩ OpSpec.tree.Fits OpSpec.tree.apply (fun _ => [])
      fun xs st => ∃ op es, st.op = .tree op ∧ TreeAfter xs op es := by
  refine Middleware.Implements.of_buffering ?start ?shorter ?step ?swallows ?rest
  case start => exact ⟨_, [], rfl, TreeAfter.nil⟩
  case shorter =>
    rintro xs ys ⟨each, small⟩
    exact ⟨fun q member => each q (List.mem_append_left ys member),
      (firsts_grow xs ys).length_le.trans small⟩
  case step =>
    rintro xs x ⟨_, finished⟩ fits ⟨op, es, rfl, after⟩
    obtain ⟨es', after'⟩ := after.event fits
    exact ⟨_, es', rfl, after'⟩
  case swallows =>
    rintro xs x ⟨_, finished⟩ ⟨op, es, rfl, after⟩
    exact Tree.event_swallows op x
  case rest =>
    rintro xs ⟨_, finished⟩ fits ⟨op, es, rfl, after⟩
    exact after.flushed fits

/-! ## Without bounds on the ranks -/

namespace Tree

/-- The state after some quads. -/
def after (xs : List QuadRef) : Tree := xs.foldl (fun op q => (op.event q).1) new

/-- Whatever the ranks are, the tree holds copies of its quads. -/
theorem quads_after {xs : List QuadRef} :
    ∀ r ∈ (after xs).quads, ∃ q ∈ xs, r.quad = OwnedQuad.fromRef q := by
  induction xs using List.reverseRecOn with
  | nil => exact fun r member => absurd member List.not_mem_nil
  | append_singleton xs x ih =>
      have old : ∀ r ∈ (after xs).quads, ∃ q ∈ xs ++ [x], r.quad = OwnedQuad.fromRef q :=
        fun r member => by
          obtain ⟨q, hq, same⟩ := ih r member
          exact ⟨q, List.mem_append_left _ hq, same⟩
      rw [after, List.foldl_append, List.foldl_cons, List.foldl_nil, ← after]
      intro r member
      simp only [event] at member
      split at member
      case isTrue => exact old r member
      case isFalse =>
        rcases List.mem_append.mp member with before | now
        · exact old r before
        · rw [List.mem_singleton.mp now]
          exact ⟨x, by simp, rfl⟩

/-- What is flushed is read back to quads it has been given. -/
theorem flushed_after {xs : List QuadRef} (packable : ∀ q ∈ xs, Packable q) :
    ∃ ys : List QuadRef, (∀ q ∈ ys, q ∈ xs) ∧ (after xs).flushed = ys.map some := by
  have read : ∀ rs : List RankedQuad, (∀ r ∈ rs, ∃ q ∈ xs, r.quad = OwnedQuad.fromRef q) →
      ∃ ys : List QuadRef, (∀ q ∈ ys, q ∈ xs) ∧ (rs.map fun r => r.quad.asRef) = ys.map some := by
    intro rs copies
    induction rs with
    | nil => exact ⟨[], fun q member => absurd member List.not_mem_nil, rfl⟩
    | cons r rs ih =>
        obtain ⟨q, hq, copy⟩ := copies r List.mem_cons_self
        obtain ⟨ys, inside, same⟩ := ih fun r' member => copies r' (List.mem_cons_of_mem r member)
        refine ⟨q :: ys, ?_, ?_⟩
        · intro q' member
          rcases List.mem_cons.mp member with rfl | member
          · exact hq
          · exact inside q' member
        · rw [List.map_cons, List.map_cons, same, copy, OwnedQuad.asRef_fromRef (packable q hq)]
  refine read _ fun r member => ?_
  rw [List.mem_insertionSort] at member
  exact quads_after r member

end Tree

/-- Copies that read back are flushed in some order, even where ranks do not fit. -/
theorem implements_tree_copies (finished : Nat) : ∃ h : List QuadRef → List QuadRef,
    (∀ xs, (∀ q ∈ xs, Packable q) → ∀ q ∈ h xs, q ∈ xs) ∧
    stage.Implements ⟨OpSpec.tree.build, finished⟩ (fun xs => ∀ q ∈ xs, Packable q) h
      (fun _ => []) fun xs st => st.op = .tree (Tree.after xs) := by
  refine ⟨fun xs => (Tree.after xs).flushed.filterMap id, fun xs packable q member => ?_, ?_⟩
  · obtain ⟨ys, inside, flushed⟩ := Tree.flushed_after packable
    change q ∈ (Tree.after xs).flushed.filterMap id at member
    rw [flushed, List.filterMap_map, Function.id_comp, List.filterMap_some] at member
    exact inside q member
  · refine Middleware.Implements.of_buffering ?start ?shorter ?step ?swallows ?rest
    case start => rfl
    case shorter => exact fun xs ys each q member => each q (List.mem_append_left ys member)
    case step =>
      rintro xs x ⟨_, finished⟩ - rfl
      change Op.tree _ = _
      rw [Tree.after, Tree.after, List.foldl_append, List.foldl_cons, List.foldl_nil]
    case swallows =>
      rintro xs x ⟨_, finished⟩ rfl
      exact Tree.event_swallows _ x
    case rest =>
      rintro xs ⟨_, finished⟩ packable rfl
      obtain ⟨ys, -, flushed⟩ := Tree.flushed_after packable
      change (Tree.after xs).flushed = _
      rw [flushed, List.filterMap_map, Function.id_comp, List.filterMap_some]

end Graphy.Pipe
