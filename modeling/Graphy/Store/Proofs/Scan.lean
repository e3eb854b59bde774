import Graphy.Store.Proofs.Open
import Graphy.Store.Proofs.SegmentScan

/-!
# Scans of a snapshot

A snapshot's scan serves the base rows under the delta entries.  The delta decides
every quad it has an entry for, so the scan shows the visible quads exactly when
the P-accessor shows no quad of its own that the delta leaves alone.
-/

namespace Graphy

open BitVector

/-! ## The source of an order -/

theorem Segment.orderingBt_eq_none {seg : Segment} {order : Order} :
    seg.orderingBt order = none ↔ order ∉ seg.orderings.map Prod.fst := by
  rw [orderingBt, Option.map_eq_none_iff, List.find?_eq_none, List.mem_map, not_exists]
  exact forall_congr' fun e => by simp

/-- The orders a segment offers: the materialized ones and those the accessors serve. -/
theorem Segment.mem_scanOrders {seg : Segment} {order : Order} : order ∈ seg.scanOrders ↔
    order ∈ seg.orderings.map Prod.fst ∨
      ∃ foq, seg.foq = some foq ∧ (order = .pso ∨ order = .osp) := by
  have push (orders : List Order) (o : Order) :
      order ∈ (if o ∈ orders then orders else orders ++ [o]) ↔ order ∈ orders ∨ order = o := by
    split
    · rename_i present
      exact ⟨Or.inl, fun h => h.elim id fun eq => eq ▸ present⟩
    · rw [List.mem_append, List.mem_singleton]
  rw [scanOrders]
  cases seg.foq with
  | none => simp
  | some foq =>
      simp only [List.foldl_cons, List.foldl_nil, push, Option.some.injEq, exists_eq_left', or_assoc]

/-- A base triple as a scan of the order shows it. -/
def Segment.Shown (seg : Segment) (order : Order) (u t : TripleKey) : Prop :=
  if seg.orderingBt order = none ∧ order = .pso then
    ∃ foq, seg.foq = some foq ∧ ShownP seg.dict.predicates.length foq.wp.width u t
  else t = u

/-- A shown triple comes from one base triple. -/
theorem Segment.Shown.unique {seg : Segment} {order : Order} {u u' t : TripleKey}
    (h : seg.Shown order u t) (h' : seg.Shown order u' t) (tag : u.p.tag = 0)
    (tag' : u'.p.tag = 0) : u = u' := by
  rw [Segment.Shown] at h h'
  split at h
  · rename_i virtual
    rw [if_pos virtual] at h'
    obtain ⟨foq, layer, s, o, -, -, payload⟩ := h
    obtain ⟨foq', layer', s', o', -, -, payload'⟩ := h'
    rw [layer] at layer'
    cases layer'
    have p : u.p = u'.p := by
      rw [Col.eq_dict_of_tag tag, Col.eq_dict_of_tag tag', payload, payload']
    cases u
    cases u'
    simp_all
  · rename_i direct
    rw [if_neg direct] at h'
    exact h.symm.trans h'

theorem Source.ended_exhaust (order : Order) (source : Source) : source.exhaust.Ended order := by
  cases source with
  | range bt iter => exact ended_range (le_refl _)
  | foqP spo foq c =>
      have yields := yields_foqP order spo foq { c with p := c.pEnd, k := c.kEnd, zi := c.zEnd }
      have empty : FoqP.rest spo foq { c with p := c.pEnd, k := c.kEnd, zi := c.zEnd } = [] := by
        rw [FoqP.rest, FoqP.run_of_le (le_refl _), FoqP.occurrences_of_le (le_refl _),
          FoqP.predicates_of_le (Nat.le_succ _)]
        rfl
      rw [empty] at yields
      cases yields with
      | done ended => exact ended
  | foqO spo foq c =>
      have yields := yields_foqO order spo foq { c with j := c.jEnd, r := c.rEnd }
      have empty : FoqO.rest spo foq { c with j := c.jEnd, r := c.rEnd } = [] := by
        rw [FoqO.rest, FoqO.run_of_le (le_refl _), FoqO.objects_of_le (Nat.le_succ _)]
        rfl
      rw [empty] at yields
      cases yields with
      | done ended => exact ended

section Base

variable [InlineCodec] {seg : Segment} {quads : List QuadKey} (holds : seg.Holds quads)
include holds

/-- Every order the segment offers has a source, and its rows are the base triples. -/
theorem Segment.Holds.source_spec {order : Order} (offered : order ∈ seg.scanOrders) (pat : Pattern) :
    ∃ source es, seg.source pat order = some source ∧ source.Yields order es ∧
      SourceRows order pat (triplesOf quads) (hasNamedGraphs quads = true) (seg.Shown order) es := by
  cases ordering : seg.orderingBt order with
  | some bt =>
      have bt_holds := holds.of_orderingBt ordering
      have rows := bt_holds.rangeRows holds.sorted pat
      obtain ⟨bound, -⟩ := bt_holds.represents.prefixRange_spec pat order
      have shown : seg.Shown order = fun u t => t = u := by
        funext u t
        rw [Segment.Shown, if_neg (by simp [ordering])]
      rw [← shown] at rows
      refine ⟨_, _, ?_, Source.yields_range bt_holds.represents order bound, rows⟩
      simp only [Segment.source, ordering]
  | none =>
      -- an order that is not materialized is one of the two the accessors serve
      obtain ⟨foq, layer, which⟩ := (Segment.mem_scanOrders.mp offered).resolve_left
        (Segment.orderingBt_eq_none.mp ordering)
      obtain ⟨spo, primary, rep⟩ := holds.exists_spo
      obtain ⟨spo', rep', built⟩ := holds.foq foq layer
      rcases which with rfl | rfl
      · have wp : foq.wp = WaveletMatrix.new ((Bt.pairs (triplesOf quads)).map fun r => r.y.payload)
            (bitsFor (maxPayload (quads.map QuadKey.p))) := by
          rw [built, Foq.build, rep'.sy, List.map_map]
          rfl
        have width : foq.wp.width = bitsFor (maxPayload (quads.map QuadKey.p)) := by rw [wp]; rfl
        have low : ∀ u ∈ triplesOf quads, u.y.tag = 0 ∧ u.y.payload < 2 ^ foq.wp.width := by
          intro u mem
          obtain ⟨q, inside, rfl⟩ := mem_triplesOf.mp mem
          refine ⟨(holds.valid q inside).p.1, ?_⟩
          rw [width]
          exact WaveletMatrix.lt_two_pow_bitsFor
            (le_maxPayload (List.mem_map_of_mem (f := QuadKey.p) inside))
        rw [← width] at wp
        have rows := FoqP.rows rep wp low seg.dict.predicates.length pat
          (hasNamedGraphs quads = true)
        have shown : seg.Shown .pso = ShownP seg.dict.predicates.length foq.wp.width := by
          funext u t
          rw [Segment.Shown, if_pos ⟨ordering, rfl⟩, layer]
          simp
        rw [← shown] at rows
        refine ⟨_, _, ?_, Source.yields_foqP .pso spo foq _, rows⟩
        simp only [Segment.source, ordering, layer, primary]
      · have rows := FoqO.rows rep built pat (hasNamedGraphs quads = true)
        have shown : seg.Shown .osp = fun u t => t = u := by
          funext u t
          rw [Segment.Shown, if_neg (by simp)]
        rw [← shown] at rows
        refine ⟨_, _, ?_, Source.yields_foqO .osp spo foq _, rows⟩
        simp only [Segment.source, ordering, layer, primary]

/-- The rows of a source's triples: the shown quads that match, ascending. -/
theorem Segment.Holds.rows_spec {order : Order} {pat : Pattern}
    (reach : seg.graphs = none → ∀ v ∈ pat.g, v = Col.dict 0) {es : List (TripleKey × Option Nat)}
    (sound : SourceRows order pat (triplesOf quads) (hasNamedGraphs quads = true) (seg.Shown order)
      es) :
    Ascending order.scanKey (es.flatMap (seg.rowsOf pat)) ∧
      ∀ q, q ∈ es.flatMap (seg.rowsOf pat) ↔
        pat.Matches q ∧ ∃ b ∈ quads, b.g = q.g ∧ seg.Shown order b.triple q.triple := by
  constructor
  · refine List.pairwise_flatMap.mpr ⟨?_, ?_⟩
    · intro e mem
      obtain ⟨ord, u, get, -, hint⟩ := sound.sound e mem
      obtain ⟨ascending, members⟩ := holds.mem_rowsOf reach get hint
      refine List.Pairwise.imp_of_mem ?_ ascending
      intro a b ha hb lt
      refine Prod.Lex.toLex_lt_toLex.mpr (Or.inr ⟨?_, lt⟩)
      rw [((members a).mp ha).1, ((members b).mp hb).1]
    · refine List.Pairwise.imp_of_mem ?_ sound.ascending
      intro e e' mem mem' lt a ha b hb
      obtain ⟨ord, u, get, -, hint⟩ := sound.sound e mem
      obtain ⟨ord', u', get', -, hint'⟩ := sound.sound e' mem'
      have tripleA := (((holds.mem_rowsOf reach get hint).2 a).mp ha).1
      have tripleB := (((holds.mem_rowsOf reach get' hint').2 b).mp hb).1
      refine Prod.Lex.toLex_lt_toLex.mpr (Or.inl ?_)
      rw [tripleA, tripleB]
      exact lt
  · intro q
    rw [List.mem_flatMap]
    constructor
    · rintro ⟨e, mem, inside⟩
      obtain ⟨ord, u, get, shown, hint⟩ := sound.sound e mem
      obtain ⟨eq, matches_, b, memB, eqB, eqG⟩ :=
        ((holds.mem_rowsOf reach get hint).2 q).mp inside
      exact ⟨matches_, b, memB, eqG, by rw [eqB, eq]; exact shown⟩
    · rintro ⟨matches_, b, memB, eqG, shown⟩
      obtain ⟨ord, get⟩ := List.mem_iff_getElem?.mp (mem_triplesOf.mpr ⟨b, memB, rfl⟩)
      obtain ⟨hint, mem⟩ := sound.complete ord b.triple q.triple get shown matches_.1
      obtain ⟨ord', u, get', shown', hint'⟩ := sound.sound _ mem
      obtain ⟨b', memB', eqB'⟩ := mem_triplesOf.mp (List.mem_of_getElem? get')
      have same : b.triple = u := by
        rw [← Order.spo_toXyz_injective eqB'] at shown' ⊢
        exact shown.unique shown' (holds.valid b memB).p.1 (holds.valid b' memB').p.1
      exact ⟨_, mem, ((holds.mem_rowsOf reach get' hint').2 q).mpr
        ⟨rfl, matches_, b, memB, same, eqG⟩⟩

/-- The base rows of a scan: the shown quads of the segment, ascending. -/
theorem Segment.Holds.scanOrder_spec {order : Order} (offered : order ∈ seg.scanOrders)
    (pat : Pattern) : ∃ scan rows, seg.scanOrder pat order = .ok scan ∧ scan.Serves rows ∧
      Ascending order.scanKey rows ∧ ∀ q, q ∈ rows ↔
        pat.Matches q ∧ ∃ b ∈ quads, b.g = q.g ∧ seg.Shown order b.triple q.triple := by
  obtain ⟨source, es, found, yields, sound⟩ := holds.source_spec offered pat
  have zero_or_above (g : Col) : g = Col.dict 0 ∨ Col.dict 0 < g := by
    rcases eq_or_lt_of_le (Col.dict_le_iff.mpr (Or.inr (Nat.zero_le g.payload))) with eq | lt
    · exact Or.inl eq.symm
    · exact Or.inr lt
  by_cases stopped : ((pat.g.any fun g => decide (Col.dict 0 < g)) && seg.graphs.isNone) = true
  · -- a named graph on a segment of triples only
    let scan : SegmentScan := ⟨seg, order, source.exhaust, pat, none, none⟩
    refine ⟨scan, [], ?_, ⟨[], ⟨.done (source.ended_exhaust order), ?_, ?_, ?_⟩, rfl⟩,
      List.Pairwise.nil, fun q => ⟨fun h => absurd h List.not_mem_nil, ?_⟩⟩
    · simp only [Segment.scanOrder, found, stopped, if_true]
      rfl
    · simp
    · intro graphs last lastEnd _ seq
      cases seq
    · exact fun h => absurd rfl h
    · rintro ⟨⟨-, graph⟩, b, memB, eqG, -⟩
      simp only [Bool.and_eq_true, Option.isNone_iff_eq_none] at stopped
      obtain ⟨named, layer⟩ := stopped
      have plain : hasNamedGraphs quads = false := by
        rw [holds.graphs] at layer
        by_contra h
        simp [h] at layer
      cases bound : pat.g with
      | none => simp [bound] at named
      | some g =>
          rw [bound, Option.any_some, decide_eq_true_eq] at named
          rw [graph g bound, ← eqG, holds.default_graph plain memB] at named
          exact absurd named (lt_irrefl _)
  · have reach : seg.graphs = none → ∀ v ∈ pat.g, v = Col.dict 0 := by
      intro layer v mem
      rcases zero_or_above v with eq | lt
      · exact eq
      · rw [layer, Option.mem_def.mp mem] at stopped
        simp [lt] at stopped
    have known : ∀ graphs, seg.graphs = some graphs → ∀ e ∈ es, ∃ ord, e.2 = some ord ∧
        ord < graphs.tgStarts.count true := by
      intro graphs layer e mem
      obtain ⟨ord, u, get, -, hint⟩ := sound.sound e mem
      have named : hasNamedGraphs quads = true := by
        by_contra h
        rw [holds.graphs, if_neg h] at layer
        cases layer
      rw [holds.graphs, if_pos named] at layer
      cases layer
      exact ⟨ord, hint named, by
        rw [count_tgStarts]
        exact (List.getElem?_eq_some_iff.mp get).1⟩
    let scan : SegmentScan := ⟨seg, order, source, pat, none, none⟩
    refine ⟨scan, es.flatMap (seg.rowsOf pat), ?_, ⟨es, ⟨yields, known, ?_, ?_⟩, rfl⟩, ?_, ?_⟩
    · simp only [Segment.scanOrder, found, stopped]
      rfl
    · intro graphs last lastEnd _ seq
      cases seq
    · exact fun h => absurd rfl h
    · exact (holds.rows_spec reach sound).1
    · exact (holds.rows_spec reach sound).2

end Base

/-! ## The zipper -/

namespace QuadScan

/-- The base rows not zipped yet. -/
structure Below (scan : QuadScan) (rows : List QuadKey) : Prop where
  staged : ∃ later, scan.base.Serves later ∧ (scan.baseDone = true → later = []) ∧
    rows = scan.stage.rows.drop scan.stagePos ++ later
  room : 0 < scan.stage.capacity

/-- The delta entries not zipped yet, as changes. -/
def changes (scan : QuadScan) : List (QuadKey × Bool) :=
  (scan.delta.drop scan.dpos).map fun e => (e.1, decide (e.2 = .add))

theorem changes_cons {scan : QuadScan} {e : QuadKey × DeltaKind}
    (here : scan.delta[scan.dpos]? = some e) :
    scan.changes = (e.1, decide (e.2 = .add)) :: { scan with dpos := scan.dpos + 1 }.changes := by
  obtain ⟨bound, rfl⟩ := List.getElem?_eq_some_iff.mp here
  rw [changes, List.drop_eq_getElem_cons bound, List.map_cons]
  rfl

theorem changes_nil {scan : QuadScan} (gone : scan.delta[scan.dpos]? = none) :
    scan.changes = [] := by
  rw [changes, List.drop_eq_nil_of_le (List.getElem?_eq_none_iff.mp gone), List.map_nil]

/-- Taking the staged row. -/
theorem Below.tail {scan : QuadScan} {rows : List QuadKey} (below : scan.Below rows) {q : QuadKey}
    (here : scan.stageKey = some q) :
    ∃ rest, rows = q :: rest ∧ { scan with stagePos := scan.stagePos + 1 }.Below rest := by
  obtain ⟨⟨later, serves, done, rfl⟩, room⟩ := below
  obtain ⟨bound, rfl⟩ := List.getElem?_eq_some_iff.mp here
  exact ⟨scan.stage.rows.drop (scan.stagePos + 1) ++ later,
    by rw [List.drop_eq_getElem_cons bound, List.cons_append], ⟨later, serves, done, rfl⟩, room⟩

/-- Priming stages the first of the base rows. -/
theorem prime_spec {scan : QuadScan} {rows : List QuadKey} (below : scan.Below rows) :
    ∃ scan', scan.prime = .ok scan' ∧ scan'.Below rows ∧ scan'.order = scan.order ∧
      scan'.changes = scan.changes ∧ (scan'.stageKey = none → rows = []) := by
  obtain ⟨⟨later, serves, done, rfl⟩, room⟩ := below
  by_cases empty : scan.baseDone = false ∧ scan.stage.len ≤ scan.stagePos
  · obtain ⟨base', stage', rest, run, serves', split, cap, fits, stop⟩ :=
      SegmentScan.nextBatch_spec serves scan.stage
    have drained : scan.stage.rows.drop scan.stagePos = [] := List.drop_eq_nil_of_le empty.2
    refine ⟨{ scan with
      base := base'
      stage := stage'
      stagePos := 0
      baseDone := !!stage'.rows.isEmpty }, ?_, ⟨⟨rest, serves', ?_, ?_⟩, ?_⟩, rfl, rfl, ?_⟩
    · rw [prime, if_pos empty, run]
      rfl
    · intro none_
      have nil : stage'.rows = [] := by simpa using none_
      rcases stop with gone | full
      · exact gone
      · rw [QuadBatch.len, nil, List.length_nil, cap] at full
        omega
    · rw [drained, List.nil_append, List.drop_zero, split]
    · rw [cap]
      exact room
    · intro none_
      have nil : stage'.rows = [] := by
        simpa [stageKey] using none_
      rcases stop with gone | full
      · rw [drained, ← split, nil, gone]
        rfl
      · rw [QuadBatch.len, nil, List.length_nil, cap] at full
        omega
  · refine ⟨scan, by rw [prime, if_neg empty], ⟨⟨later, serves, done, rfl⟩, room⟩, rfl, rfl, ?_⟩
    intro none_
    have gone : scan.stage.len ≤ scan.stagePos := List.getElem?_eq_none_iff.mp none_
    have finished : scan.baseDone = true := by
      by_contra h
      exact empty ⟨by simpa using h, gone⟩
    rw [done finished, List.drop_eq_nil_of_le gone]
    rfl

/-- A scan that serves these rows from its next batch on. -/
def Serves (scan : QuadScan) (rows : List QuadKey) : Prop :=
  ∃ below, scan.Below below ∧ rows = overlay scan.order.scanKey below scan.changes

/-- The rows a batch gets from a delta entry. -/
theorem takeDelta_rows (scan : QuadScan) (e : QuadKey × DeltaKind) (out : QuadBatch) :
    (scan.takeDelta e out).2.rows = out.rows ++ changeRows (e.1, decide (e.2 = .add)) ∧
      (scan.takeDelta e out).2.capacity = out.capacity ∧
      (scan.takeDelta e out).2.len ≤ out.len + 1 := by
  rw [takeDelta, changeRows]
  by_cases add : e.2 = .add
  · simp [add, QuadBatch.push, QuadBatch.len]
  · simp [add]

/-- One step of the zipper takes the first of the rows, or drops a change. -/
theorem advance_spec {scan : QuadScan} {rows : List QuadKey} (below : scan.Below rows)
    (primed : scan.stageKey = none → rows = []) (out : QuadBatch) :
    (scan.advance out = none ∧ overlay scan.order.scanKey rows scan.changes = []) ∨
      ∃ scan' out' rows', scan.advance out = some (scan', out') ∧ scan'.Serves rows' ∧
        out'.rows ++ rows' = out.rows ++ overlay scan.order.scanKey rows scan.changes ∧
        out'.capacity = out.capacity ∧ out'.len ≤ out.len + 1 := by
  cases staged : scan.stageKey with
  | none =>
      have nil := primed staged
      subst nil
      cases entry : scan.delta[scan.dpos]? with
      | none =>
          left
          refine ⟨by simp only [advance, staged, entry], ?_⟩
          rw [changes_nil entry, overlay]
      | some e =>
          right
          obtain ⟨taken, cap, len⟩ := scan.takeDelta_rows e out
          refine ⟨(scan.takeDelta e out).1, (scan.takeDelta e out).2, _,
            by simp only [advance, staged, entry], ⟨[], ⟨below.staged, below.room⟩, rfl⟩, ?_, cap, len⟩
          rw [taken, changes_cons entry, overlay, List.append_assoc]
          rfl
  | some q =>
      obtain ⟨rest, rfl, below'⟩ := below.tail staged
      cases entry : scan.delta[scan.dpos]? with
      | none =>
          right
          refine ⟨(scan.takeBase q out).1, (scan.takeBase q out).2, _,
            by simp only [advance, staged, entry], ⟨rest, ⟨below'.staged, below'.room⟩, rfl⟩, ?_, rfl, ?_⟩
          · have same : (scan.takeBase q out).1.changes = scan.changes := rfl
            rw [same, changes_nil entry, overlay]
            simp [takeBase, QuadBatch.push]
          · simp [takeBase]
      | some e =>
          right
          obtain ⟨taken, cap, len⟩ := scan.takeDelta_rows e out
          by_cases first : scan.order.scanKey q < scan.order.scanKey e.1
          · refine ⟨(scan.takeBase q out).1, (scan.takeBase q out).2, _,
              by simp only [advance, staged, entry, if_pos first],
              ⟨rest, ⟨below'.staged, below'.room⟩, rfl⟩, ?_, rfl, ?_⟩
            · have same : (scan.takeBase q out).1.changes = scan.changes := rfl
              have order : (scan.takeBase q out).1.order = scan.order := rfl
              rw [same, order, changes_cons entry, overlay, if_pos first, ← changes_cons entry]
              simp [takeBase, QuadBatch.push]
            · simp [takeBase]
          · by_cases second : scan.order.scanKey e.1 < scan.order.scanKey q
            · refine ⟨(scan.takeDelta e out).1, (scan.takeDelta e out).2, _,
                by simp only [advance, staged, entry, if_neg first, if_pos second],
                ⟨q :: rest, ⟨below.staged, below.room⟩, rfl⟩, ?_, cap, len⟩
              rw [taken, changes_cons entry, overlay, if_neg first, if_pos second, List.append_assoc]
              rfl
            · let passed : QuadScan := { scan with stagePos := scan.stagePos + 1 }
              obtain ⟨taken, cap, len⟩ := passed.takeDelta_rows e out
              refine ⟨(passed.takeDelta e out).1, (passed.takeDelta e out).2, _,
                by simp only [advance, staged, entry, if_neg first, if_neg second]; rfl,
                ⟨rest, ⟨below'.staged, below'.room⟩, rfl⟩, ?_, cap, len⟩
              rw [taken, changes_cons entry, overlay, if_neg first, if_neg second,
                List.append_assoc]
              rfl

theorem fill_spec {scan : QuadScan} {rows : List QuadKey} (serves : scan.Serves rows)
    {out : QuadBatch} (fits : out.len ≤ out.capacity) :
    ∃ scan' out' rows', scan.fill out = .ok (scan', out') ∧ scan'.Serves rows' ∧
      out'.rows ++ rows' = out.rows ++ rows ∧ out'.capacity = out.capacity ∧
      out'.len ≤ out'.capacity ∧ (rows' = [] ∨ out'.len = out'.capacity) := by
  induction h : scan.room out using Nat.strong_induction_on generalizing scan rows out with
  | _ n ih =>
      by_cases free : out.len < out.capacity
      · obtain ⟨below, ready, rfl⟩ := serves
        obtain ⟨mid, primed, ready', order, same, empty⟩ := prime_spec ready
        rw [← order, ← same]
        rcases advance_spec ready' empty out with ⟨stop, nil⟩ | ⟨scan₁, out₁, rows₁, step, serves₁,
          split, cap, len⟩
        · refine ⟨mid, out, [], ?_, ⟨below, ready', nil.symm⟩, by rw [nil], rfl, fits, Or.inl rfl⟩
          rw [fill, dif_pos free]
          split
          · rename_i bad
            rw [primed] at bad
            cases bad
          · rename_i good
            rw [primed] at good
            cases good
            rw [stop]
        · have less : scan₁.room out₁ < n := by
            rw [← h, ← room_prime primed]
            exact @room_advance mid out (scan₁, out₁) free step
          obtain ⟨scan', out', rows', run, serves', split', cap', fits', stop'⟩ :=
            ih _ less serves₁ (by omega) rfl
          refine ⟨scan', out', rows', ?_, serves', split'.trans split, cap'.trans cap, fits', stop'⟩
          rw [fill, dif_pos free]
          split
          · rename_i bad
            rw [primed] at bad
            cases bad
          · rename_i good
            rw [primed] at good
            cases good
            rw [step]
            exact run
      · exact ⟨scan, out, rows, by rw [fill, dif_neg free], serves, rfl, rfl, fits,
          Or.inr (by omega)⟩

/-- A batch takes rows from the front until it is full or the rows are used up. -/
theorem nextBatch_spec {scan : QuadScan} {rows : List QuadKey} (serves : scan.Serves rows)
    (out : QuadBatch) : ∃ scan' out' rows', scan.nextBatch out =
        .ok (!out'.rows.isEmpty, scan', out') ∧ scan'.Serves rows' ∧ out'.rows ++ rows' = rows ∧
      out'.capacity = out.capacity ∧ out'.len ≤ out'.capacity ∧
      (rows' = [] ∨ out'.len = out'.capacity) := by
  obtain ⟨scan', out', rows', run, serves', split, cap, fits, stop⟩ :=
    fill_spec serves (show out.clear.len ≤ out.clear.capacity from Nat.zero_le _)
  refine ⟨scan', out', rows', ?_, serves', split, cap, fits, stop⟩
  change (scan.fill out.clear).bind _ = _
  rw [run]
  rfl

/-- Draining a scan gives its rows, whatever the capacity of the batch. -/
theorem yields_of_serves {scan : QuadScan} {rows : List QuadKey} (serves : scan.Serves rows)
    {capacity : Nat} (some_ : 0 < capacity) :
    ∃ batches, scan.Yields capacity batches ∧ batches.flatten = rows := by
  induction h : rows.length using Nat.strong_induction_on generalizing scan rows with
  | _ n ih =>
      obtain ⟨scan', out', rest, run, serves', split, cap, fits, stop⟩ :=
        nextBatch_spec serves (QuadBatch.withCapacity capacity)
      cases taken : out'.rows with
      | nil =>
          rw [taken] at run split
          refine ⟨[], .done run, ?_⟩
          rcases stop with gone | full
          · rw [← split, gone]
            rfl
          · rw [QuadBatch.len, taken, cap] at full
            exact absurd full.symm (ne_of_gt some_)
      | cons q qs =>
          have less : rest.length < n := by
            rw [← h, ← split, taken, List.length_append, List.length_cons]
            omega
          obtain ⟨batches, yields, flat⟩ := ih _ less serves' rfl
          rw [taken] at run
          refine ⟨out'.rows :: batches, .more run yields, ?_⟩
          rw [List.flatten_cons, flat, split]

end QuadScan

end Graphy
